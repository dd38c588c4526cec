import CodeModel.Text.Case
import Mathlib.Tactic.SplitIfs

/-!
# Capitals stay capitals

What the upper case of a character begins with is its own upper case: the tables
move no character onto one that they move again. So a capitalized identifier is
capitalized already.

* **`capitalize_capitalize`**: capitalizing twice is capitalizing once.
* **`capitalize_ne_empty`, `uncapitalize_ne_empty`**: changing the first
  character leaves some character.
-/

namespace CodeModel.Text

namespace CaseRun

/-- Where a run moves a code point. -/
def image (r : CaseRun) (n : Nat) : Nat :=
  (n + r.offset).toNat

/-- Whether the run holds a code point. -/
def Holds (r : CaseRun) (n : Nat) : Prop :=
  r.first ≤ n ∧ n ≤ r.last ∧ (n - r.first) % r.stride = 0

/-- The run of one code point, which stays where it is. -/
def point (n : Nat) : CaseRun :=
  ⟨n, n, 1, 0⟩

/-- Whether the images of the one run lie before, after or between the code
    points of the other. -/
def misses (r s : CaseRun) : Bool :=
  (r.image r.last).blt s.first || s.last.blt (r.image r.first)
    || ((r.first == r.last || r.stride == 2) && s.stride == 2
      && (r.image r.first + s.first) % 2 == 1
      && (-r.offset).toNat.ble r.first)

/-- Runs that miss one another share no image. -/
theorem not_holds_image {r s : CaseRun} (hmisses : r.misses s = true) {n : Nat}
    (hn : r.Holds n) : ¬ s.Holds (r.image n) := by
  obtain ⟨hfirst, hlast, hstride⟩ := hn
  rintro ⟨hfirst', hlast', hstride'⟩
  have hlow : r.image r.first ≤ r.image n := by unfold image; omega
  have hhigh : r.image n ≤ r.image r.last := by unfold image; omega
  simp only [misses, Bool.or_eq_true, Bool.and_eq_true, Nat.blt_eq, Nat.ble_eq,
    beq_iff_eq] at hmisses
  rcases hmisses with (hbefore | hafter) | ⟨⟨⟨hsteps, hother⟩, hodd⟩, hpositive⟩
  · omega
  · omega
  · -- The two runs hold every second code point, and the images fall between.
    rw [hother] at hstride'
    have heven : (n - r.first) % 2 = 0 := by
      rcases hsteps with hsingle | htwo
      · omega
      · rwa [htwo] at hstride
    unfold image at hodd hfirst' hstride'
    omega

/-- What is found comes from a run that holds the code point. -/
theorem exists_of_find? {n code : Nat} {runs : List CaseRun}
    (h : find? n runs = some code) : ∃ r ∈ runs, r.Holds n ∧ code = r.image n := by
  induction runs with
  | nil => cases h
  | cons r rest ih =>
      rw [find?] at h
      split_ifs at h with hbefore hin hstride
      · refine ⟨r, List.mem_cons_self, ⟨by omega, hin, hstride⟩,
          (Option.some.inj h).symm⟩
      · obtain ⟨s, hs, hfound⟩ := ih h
        exact ⟨s, List.mem_cons_of_mem _ hs, hfound⟩

end CaseRun

/-- No run for upper case moves a code point onto one that is moved again. -/
theorem misses_upperRuns :
    (upperRuns.all fun r => upperRuns.all fun s => r.misses s) = true := by
  decide +kernel

/-- No code point with a mapping of several letters is the image of a run;
    decided over the tables. -/
theorem misses_upperSpecial :
    (upperRuns.all fun r => upperSpecial.all fun p => r.misses (CaseRun.point p.1))
      = true := by
  decide +kernel

/-- What the upper case of several characters begins with is its own upper
    case. -/
theorem upperChar_head_upperSpecial :
    ∀ p ∈ upperSpecial, ∃ n rest, p.2 = n :: rest
      ∧ upperChar (Char.ofNat n) = [Char.ofNat n] := by
  have hheads : (upperSpecial.all fun p => match p.2 with
      | [] => false
      | n :: _ => upperChar (Char.ofNat n) == [Char.ofNat n]) = true := by
          decide +kernel
  intro p hp
  have h := List.all_eq_true.mp hheads p hp
  cases hcodes : p.2 with
  | nil => simp [hcodes] at h
  | cons n rest =>
      rw [hcodes] at h
      exact ⟨n, rest, rfl, eq_of_beq h⟩

/-- Outside the tables a letter is its own capital. -/
theorem upperChar_ofNat {n : Nat} (hspecial : upperSpecial.lookup n = none)
    (hfind : CaseRun.find? n upperRuns = none) :
    upperChar (Char.ofNat n) = [Char.ofNat n] := by
  by_cases hvalid : n.isValidChar
  · have hcode : (Char.ofNat n).toNat = n := by
      rw [Char.ofNat, dif_pos hvalid]
      rfl
    rw [upperChar, mapCase, hcode, hspecial, hfind]
  · have hzero : Char.ofNat n = Char.ofNat 0 := by
      rw [Char.ofNat, dif_neg hvalid]
      rfl
    rw [hzero]
    decide +kernel

/-- A letter that a run gives has itself as its capital. -/
theorem upperChar_image {r : CaseRun} (hr : r ∈ upperRuns) {n : Nat}
    (hn : r.Holds n) :
    upperChar (Char.ofNat (r.image n)) = [Char.ofNat (r.image n)] := by
  refine upperChar_ofNat (List.lookup_eq_none_iff.mpr fun p hp =>
    bne_iff_ne.mpr fun heq => ?_) ?_
  · refine CaseRun.not_holds_image (List.all_eq_true.mp
      (List.all_eq_true.mp misses_upperSpecial r hr) p hp) hn ?_
    exact ⟨Nat.le_of_eq heq.symm, Nat.le_of_eq heq, Nat.mod_one _⟩
  · cases hfound : CaseRun.find? (r.image n) upperRuns with
    | none => rfl
    | some code =>
        obtain ⟨s, hs, hholds, -⟩ := CaseRun.exists_of_find? hfound
        exact absurd hholds (CaseRun.not_holds_image
          (List.all_eq_true.mp (List.all_eq_true.mp misses_upperRuns r hr) s hs) hn)

/-- The upper case of a character begins with a character that is its own upper
    case. -/
theorem exists_upperChar_eq_cons (c : Char) :
    ∃ d rest, upperChar c = d :: rest ∧ upperChar d = [d] := by
  rw [upperChar, mapCase]
  cases hspecial : upperSpecial.lookup c.toNat with
  | some codes =>
      obtain ⟨before, after, hsplit, -⟩ := List.lookup_eq_some_iff.mp hspecial
      have hmem : (c.toNat, codes) ∈ upperSpecial := by
        rw [hsplit]
        exact List.mem_append_right _ List.mem_cons_self
      obtain ⟨n, rest, hcodes, hupper⟩ := upperChar_head_upperSpecial _ hmem
      exact ⟨Char.ofNat n, rest.map Char.ofNat,
        congrArg (List.map Char.ofNat) hcodes, hupper⟩
  | none =>
      cases hfind : CaseRun.find? c.toNat upperRuns with
      | some code =>
          obtain ⟨r, hr, hholds, rfl⟩ := CaseRun.exists_of_find? hfind
          exact ⟨_, [], rfl, upperChar_image hr hholds⟩
      | none =>
          refine ⟨c, [], rfl, ?_⟩
          rw [upperChar, mapCase, hspecial, hfind]

/-- Capitalizing twice is capitalizing once. -/
theorem capitalize_capitalize (s : String) :
    capitalize (capitalize s) = capitalize s := by
  cases hs : s.toList with
  | nil =>
      have hempty : capitalize s = "" := by rw [capitalize, hs]
      rw [hempty]
      rfl
  | cons c tail =>
      obtain ⟨d, rest, hupper, hkept⟩ := exists_upperChar_eq_cons c
      have hcapital : capitalize s = String.ofList (d :: (rest ++ tail)) := by
        rw [capitalize, hs]
        show String.ofList (upperChar c ++ tail) = _
        rw [hupper]
        rfl
      rw [hcapital, capitalize, String.toList_ofList]
      show String.ofList (upperChar d ++ (rest ++ tail)) = _
      rw [hkept]
      rfl

/-! ## Names stay names -/

/-- No character is mapped onto nothing by a table that maps no special case
    onto nothing. -/
theorem mapCase_ne_nil {special : List (Nat × List Nat)}
    (h : ∀ p ∈ special, p.2 ≠ []) (runs : List CaseRun) (c : Char) :
    mapCase special runs c ≠ [] := by
  rw [mapCase]
  cases hspecial : special.lookup c.toNat with
  | some codes =>
      obtain ⟨before, after, hsplit, -⟩ := List.lookup_eq_some_iff.mp hspecial
      have hmem : (c.toNat, codes) ∈ special := by
        rw [hsplit]
        exact List.mem_append_right _ List.mem_cons_self
      exact fun hnil => h _ hmem (List.map_eq_nil_iff.mp hnil)
  | none =>
      cases CaseRun.find? c.toNat runs with
      | some code => exact List.cons_ne_nil _ _
      | none => exact List.cons_ne_nil _ _

theorem lowerChar_ne_nil (c : Char) : lowerChar c ≠ [] :=
  mapCase_ne_nil (by decide +kernel) lowerRuns c

theorem upperChar_ne_nil (c : Char) : upperChar c ≠ [] := by
  obtain ⟨d, rest, hupper, -⟩ := exists_upperChar_eq_cons c
  rw [hupper]
  exact List.cons_ne_nil d rest

/-- Capitals come from letters, so a name does not vanish. -/
theorem capitalize_ne_empty {s : String} (hs : s ≠ "") : capitalize s ≠ "" := by
  rw [capitalize]
  cases hchars : s.toList with
  | nil => exact absurd (String.toList_eq_nil_iff.mp hchars) hs
  | cons c rest =>
      intro hempty
      have hnil := congrArg String.toList hempty
      rw [String.toList_ofList] at hnil
      exact upperChar_ne_nil c (List.append_eq_nil_iff.mp hnil).1

theorem uncapitalize_ne_empty {s : String} (hs : s ≠ "") : uncapitalize s ≠ "" := by
  rw [uncapitalize]
  cases hchars : s.toList with
  | nil => exact absurd (String.toList_eq_nil_iff.mp hchars) hs
  | cons c rest =>
      intro hempty
      have hnil := congrArg String.toList hempty
      rw [String.toList_ofList] at hnil
      exact lowerChar_ne_nil c (List.append_eq_nil_iff.mp hnil).1

end CodeModel.Text
