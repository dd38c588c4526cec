import CodeModel.Proofs.Capitals
import CodeModel.Proofs.Links
import CodeModel.Refine.UnionWrapper
import CodeModel.Tree.Operation
import Mathlib.Data.List.Nodup
import Mathlib.Data.List.Perm.Subperm
import Mathlib.Data.Nat.Find
import Mathlib.Tactic.ByContra

/-!
# Names of wrappers

A wrapper is called like its union unless that name is taken in its scope. Else
names are tried one after another, no two of them the same, and the scope cannot
have a member for each.

* **`wrapperName_injective`**: the names tried are different.
* **`exists_firstFree`**: there are no more of them to try than the scope has
  members.
* **`availableName_exact`**: the first that is free is settled on, however far
  the search may go.
-/

namespace CodeModel

namespace Tree

variable {t : Tree} {scope : ElementId} {base : String}

/-- A number is written with digits. -/
theorem repr_ne_empty (k : Nat) : k.repr ≠ "" := by
  intro hempty
  simp at hempty

/-- A number is read back from its digits. -/
theorem eq_of_repr_eq {m n : Nat} (h : m.repr = n.repr) : m = n := by
  have hread := congrArg (fun s : String => Nat.ofDigitChars 10 s.toList 0) h
  simpa using hread

/-- The names tried are different. -/
theorem wrapperName_injective : Function.Injective (wrapperName base) := by
  -- All of them go on after one stem: with nothing, or with the digits of a number.
  have hstem : ∀ k, wrapperName base k = base ++ "Wrapper" ++ if k = 1 then ""
      else k.repr := by
    intro k
    rw [wrapperName]
    split
    · exact String.append_empty.symm
    · rfl
  intro m n h
  rw [hstem, hstem, String.append_right_inj] at h
  split_ifs at h with hm hn hn
  · rw [hm, hn]
  · exact absurd h.symm (repr_ne_empty n)
  · exact absurd h (repr_ne_empty m)
  · exact eq_of_repr_eq h

/-- No name that is tried is empty. -/
theorem wrapperName_ne_empty (base : String) (n : Nat) :
    wrapperName base n ≠ "" := by
  rw [wrapperName]
  split
  · simp [String.append_eq_empty_iff]
  · simp [String.append_eq_empty_iff]

/-- A scope does not have a member for each name of a list that is longer than
    the list of its members. -/
theorem exists_hasMember_eq_false {names : List String} (hnodup : names.Nodup)
    (hlength : (t.children scope).length < names.length) :
    ∃ name ∈ names, t.hasMember scope name = false := by
  by_contra hall
  have hheld : names ⊆ (t.children scope).filterMap t.name? := by
    intro name hname
    have htaken : t.hasMember scope name = true := by
      cases h : t.hasMember scope name with
      | true => rfl
      | false => exact absurd ⟨name, hname, h⟩ hall
    exact List.mem_filterMap.mpr (hasMember_eq_true_iff.mp htaken)
  have hle := (hnodup.subperm hheld).length_le
  have hmembers := List.length_filterMap_le t.name? (t.children scope)
  omega

/-- The names tried in place of another one go on after it. -/
theorem wrapperName_ne_self (base : String) (k : Nat) :
    wrapperName base k ≠ base := by
  have hword : 0 < "Wrapper".length := by decide
  intro h
  have hlength := congrArg String.length h
  rw [wrapperName] at hlength
  split at hlength <;> simp only [String.length_append] at hlength <;> omega

/-- Where a name is taken, one of the names tried in its place is free. The
    member that has the name stands in the way of none of them, so a free one
    comes no later than there are members. -/
theorem exists_wrapperName_free (htaken : t.hasMember scope base = true) :
    ∃ k, 1 ≤ k ∧ k ≤ (t.children scope).length
      ∧ t.hasMember scope (wrapperName base k) = false := by
  have hnodup : (base :: (List.range' 1 (t.children scope).length).map
      (wrapperName base)).Nodup := by
    refine List.nodup_cons.mpr
      ⟨fun hmem => ?_, (List.nodup_range' 1).map wrapperName_injective⟩
    obtain ⟨k, -, hk⟩ := List.mem_map.mp hmem
    exact wrapperName_ne_self base k hk
  have hlength : (t.children scope).length
      < (base :: (List.range' 1 (t.children scope).length).map
        (wrapperName base)).length := by
    rw [List.length_cons, List.length_map, List.length_range']
    exact Nat.lt_succ_self _
  obtain ⟨name, hname, hfree⟩ := exists_hasMember_eq_false hnodup hlength
  rcases List.mem_cons.mp hname with rfl | hname
  · rw [htaken] at hfree
    cases hfree
  · obtain ⟨k, hk, rfl⟩ := List.mem_map.mp hname
    obtain ⟨hle, hlt⟩ := List.mem_range'_1.mp hk
    exact ⟨k, hle, by omega, hfree⟩

/-- The `k`-th of the names tried, counted from one, is the first that is free:
    for each name tried before there is a member that has it. -/
structure FirstFree (t : Tree) (scope : ElementId) (base : String) (k : Nat) :
    Prop where
  one_le : 1 ≤ k
  free : t.hasMember scope (wrapperName base k) = false
  taken : ∀ n, 1 ≤ n → n < k → t.hasMember scope (wrapperName base n) = true

/-- Where a name is taken, there is a first one to take its place. -/
theorem exists_firstFree (htaken : t.hasMember scope base = true) :
    ∃ k, k ≤ (t.children scope).length ∧ FirstFree t scope base k := by
  obtain ⟨last, hone, hlast, hfree⟩ := exists_wrapperName_free htaken
  have hexists : ∃ k, 1 ≤ k ∧ t.hasMember scope (wrapperName base k) = false :=
    ⟨last, hone, hfree⟩
  obtain ⟨hk, hkfree⟩ := Nat.find_spec hexists
  refine ⟨Nat.find hexists,
    Nat.le_trans (Nat.find_min' hexists ⟨hone, hfree⟩) hlast, hk, hkfree, ?_⟩
  intro n hn hlt
  exact Bool.not_eq_false _ ▸ fun h => Nat.find_min hexists hlt ⟨hn, h⟩

namespace FirstFree

variable {k : Nat}

/-- The search comes to the first free name when it goes as far. -/
theorem freeWrapperName_eq (h : FirstFree t scope base k) {fuel n : Nat}
    (hone : 1 ≤ n) (hn : n ≤ k) (hk : k ≤ n + fuel) :
    t.freeWrapperName scope base fuel n = wrapperName base k := by
  induction fuel generalizing n with
  | zero =>
      obtain rfl : n = k := by omega
      rfl
  | succ fuel ih =>
      rw [freeWrapperName]
      rcases Nat.eq_or_lt_of_le hn with rfl | hlt
      · rw [if_neg (Bool.eq_false_iff.mp h.free)]
      · rw [if_pos (h.taken n hone hlt)]
        exact ih (by omega) hlt (by omega)

/-- If the base is taken, the name is the first free one, provided that as many
    tries are enough. -/
theorem availableName_eq (h : FirstFree t scope base k)
    (hk : k ≤ (t.children scope).length) (htaken : t.hasMember scope base = true) :
    t.availableName scope base = wrapperName base k := by
  rw [availableName, if_pos htaken]
  exact h.freeWrapperName_eq (Nat.le_refl 1) h.one_le (by omega)

/-- The first free name is found in every row of the names tried that is long
    enough. -/
theorem find?_eq (h : FirstFree t scope base k) {bound : Nat} (hbound : k ≤ bound) :
    (List.range' 1 bound).find? (fun n => !t.hasMember scope (wrapperName base n))
      = some k := by
  have hone := h.one_le
  refine List.find?_range'_eq_some.mpr ⟨by rw [h.free]; rfl,
    List.mem_range'_1.mpr (by omega), fun n hn hlt => ?_⟩
  rw [h.taken n hn hlt]
  rfl

end FirstFree

/-- No member of its scope has the name that a wrapper gets. -/
theorem hasMember_availableName (t : Tree) (scope : ElementId) (base : String) :
    t.hasMember scope (t.availableName scope base) = false := by
  by_cases htaken : t.hasMember scope base = true
  · obtain ⟨k, hk, h⟩ := exists_firstFree htaken
    rw [h.availableName_eq hk htaken]
    exact h.free
  · rw [availableName, if_neg htaken]
    exact Bool.eq_false_iff.mpr htaken

/-- A wrapper is called like its union if no member of its scope is. Else it
    gets the first free one of the names tried in its place, which comes no
    later than there are members. However far the search may go, it finds that
    one, so it never runs out of names. No member of the scope has the name that
    the wrapper gets. -/
theorem availableName_exact (t : Tree) (scope : ElementId) (base : String) :
    t.hasMember scope (t.availableName scope base) = false
      ∧ (t.hasMember scope base = false → t.availableName scope base = base)
      ∧ (t.hasMember scope base = true → ∃ k, 1 ≤ k ∧ k ≤ (t.children scope).length
          ∧ t.availableName scope base = wrapperName base k
          ∧ (∀ n, 1 ≤ n → n < k → t.hasMember scope (wrapperName base n) = true)
          ∧ ∀ bound, k ≤ bound →
              (List.range' 1 bound).find?
                (fun n => !t.hasMember scope (wrapperName base n)) = some k) := by
  refine ⟨hasMember_availableName t scope base, fun hfree => ?_, fun htaken => ?_⟩
  · rw [availableName, if_neg (Bool.eq_false_iff.mp hfree)]
  · obtain ⟨k, hk, h⟩ := exists_firstFree htaken
    exact ⟨k, h.one_le, hk, h.availableName_eq hk htaken, h.taken,
      fun bound hbound => h.find?_eq hbound⟩

/-- A tree whose root holds a class, and two more that have the names of
    wrappers for a union of its name. -/
def petAndWrappers : Tree :=
  Operation.runAll
    [.addNew .classes ⟨0⟩ (.classDecl "PetWrapper2" .model),
      .addNew .classes ⟨0⟩ (.classDecl "Pet" .model),
      .addNew .classes ⟨0⟩ (.classDecl "PetWrapper" .model)]
    initial

/-- All three members stand in the way, whatever their order, and the third name
    tried is the last that may be needed. A name that none of them has is
    kept. -/
theorem availableName_exact_petAndWrappers :
    (petAndWrappers.hasMember ⟨0⟩ "Pet" = true
        ∧ ∃ k, 1 ≤ k ∧ k ≤ 3
          ∧ petAndWrappers.availableName ⟨0⟩ "Pet" = wrapperName "Pet" k ∧ k = 3)
      ∧ petAndWrappers.hasMember ⟨0⟩ "Toy" = false
      ∧ petAndWrappers.availableName ⟨0⟩ "Toy" = "Toy" := by
  have htaken : petAndWrappers.hasMember ⟨0⟩ "Pet" = true := by decide +kernel
  have hkept : petAndWrappers.hasMember ⟨0⟩ "Toy" = false := by decide +kernel
  refine ⟨⟨htaken, ?_⟩, hkept,
    (availableName_exact petAndWrappers ⟨0⟩ "Toy").2.1 hkept⟩
  obtain ⟨k, hk, hle, hname, -⟩ :=
    (availableName_exact petAndWrappers ⟨0⟩ "Pet").2.2 htaken
  have hthird : petAndWrappers.availableName ⟨0⟩ "Pet" = wrapperName "Pet" 3 := by
    decide +kernel
  exact ⟨k, hk, hle, hname, wrapperName_injective (hname.symm.trans hthird)⟩

/-- Nor is the name that is found, whatever the fuel. -/
theorem freeWrapperName_ne_empty (fuel n : Nat) :
    t.freeWrapperName scope base fuel n ≠ "" := by
  induction fuel generalizing n with
  | zero => exact wrapperName_ne_empty base n
  | succ fuel ih =>
      rw [freeWrapperName]
      split
      · exact ih (n + 1)
      · exact wrapperName_ne_empty base n

theorem availableName_ne_empty (hbase : base ≠ "") :
    t.availableName scope base ≠ "" := by
  rw [availableName]
  split
  · exact freeWrapperName_ne_empty _ _
  · exact hbase

end Tree

end CodeModel
