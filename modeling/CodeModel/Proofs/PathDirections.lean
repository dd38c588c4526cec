import CodeModel.ImportPath
import Mathlib.Data.List.Infix
import Mathlib.Data.List.Induction

/-!
# Where import paths lead

A path is walked component by component from a directory: a dot stays, two dots
go up, and any other component goes down. A relative import path goes up out of
the segments that the two namespaces do not share, or begins with a dot where
there are none, and then goes down to the declaration.

* **`exists_longest_of_commonCount`**: what is shared is the longest common
  beginning of the two namespaces.
* **`components_spelled`**: the components of a path that is spelled out are
  those that it was made of.
* **`relative_eq_spelled`**: a relative import path is spelled out in one of
  four cases.
* **`walk_ups`** and **`walk_downs`**: what the two parts of a path do to a
  directory.

Main statement: `relative_leads`, from the directory of the one namespace the
path leads to the declaration in the directory of the other.
-/

namespace CodeModel

namespace ImportPath

variable {start goal up down parts : List String} {name : String}

/-! ## Walking a path -/

/-- The components of a path, between its slashes. -/
def components (path : String) : List String :=
  (path.toList.splitOn '/').map String.ofList

/-- A name of a directory or a file: not empty, without a slash, and neither of
    the names that only move. -/
structure IsPlain (part : String) : Prop where
  ne_empty : part ≠ ""
  no_slash : '/' ∉ part.toList
  ne_dot : part ≠ "."
  ne_dots : part ≠ ".."

/-- One component of a path, taken in a directory that is given by its
    components from the top. There is no way up from the top. -/
def step (dir : List String) (component : String) : Option (List String) :=
  if component = "." then some dir
  else if component = ".." then if dir = [] then none else some dir.dropLast
  else some (dir ++ [component])

/-- Where a path leads from a directory, unless it goes above the top on its
    way. -/
def walk (dir : List String) (path : String) : Option (List String) :=
  (components path).foldlM step dir

/-- Where a path comes to is found part by part. -/
theorem foldlM_step_append (dir before after : List String) :
    (before ++ after).foldlM step dir = (before.foldlM step dir).bind fun mid =>
      after.foldlM step mid := by
  rw [List.foldlM_append]
  rfl

/-- Each pair of dots leaves one segment. -/
theorem walk_ups (dir up : List String) :
    (List.replicate up.length "..").foldlM step (dir ++ up) = some dir := by
  induction up using List.reverseRecOn with
  | nil => rw [List.append_nil]; rfl
  | append_singleton rest s ih =>
      have hstep : step (dir ++ (rest ++ [s])) ".." = some (dir ++ rest) := by
        rw [step, if_neg (by decide), if_pos rfl, if_neg (by simp),
          ← List.append_assoc, List.dropLast_concat]
      rw [List.length_append, List.length_singleton, List.replicate_succ,
        List.foldlM_cons, hstep]
      exact ih

/-- Plain components go down, one after another. -/
theorem walk_downs (dir : List String) (hparts : ∀ part ∈ parts, IsPlain part) :
    parts.foldlM step dir = some (dir ++ parts) := by
  induction parts generalizing dir with
  | nil => rw [List.append_nil]; rfl
  | cons part rest ih =>
      obtain ⟨hpart, hrest⟩ := List.forall_mem_cons.mp hparts
      have hstep : step dir part = some (dir ++ [part]) := by
        rw [step, if_neg hpart.ne_dot, if_neg hpart.ne_dots]
      rw [List.foldlM_cons, hstep]
      show rest.foldlM step (dir ++ [part]) = _
      rw [ih _ hrest, List.append_assoc, List.singleton_append]

/-! ## The path, spelled out -/

/-- How a path begins that leaves `climb` segments: with a dot if there are none
    to leave. -/
def leading (climb : Nat) : List String :=
  if climb = 0 then ["."] else List.replicate climb ".."

/-- The beginning of a path leaves the segments that it is there to leave. -/
theorem walk_leading (dir up : List String) :
    (leading up.length).foldlM step (dir ++ up) = some dir := by
  cases up with
  | nil => rw [List.append_nil]; rfl
  | cons s rest => exact walk_ups dir (s :: rest)

/-- The path that leaves `climb` segments and goes down to `name`, in its four
    cases. -/
def spelled (climb : Nat) (down : List String) (name : String) : String :=
  match climb, down with
  | 0, [] => "./" ++ name
  | 0, first :: rest => "./" ++ "/".intercalate (first :: rest) ++ "/" ++ name
  | more + 1, [] => String.join (List.replicate (more + 1) "../") ++ name
  | more + 1, first :: rest =>
      String.join (List.replicate (more + 1) "../")
        ++ "/".intercalate (first :: rest) ++ "/" ++ name

/-- Going up and then on: the slashes that end the steps up stand between the
    components. -/
theorem join_replicate_append (climb : Nat) {rest : List String}
    (hrest : rest ≠ []) :
    String.join (List.replicate climb "../") ++ "/".intercalate rest
      = "/".intercalate (List.replicate climb ".." ++ rest) := by
  induction climb with
  | zero => simp
  | succ climb ih =>
      have hne : List.replicate climb ".." ++ rest ≠ [] := by simp [hrest]
      rw [List.replicate_succ, String.join_cons, String.append_assoc, ih,
        List.replicate_succ, List.cons_append,
        String.intercalate_cons_of_ne_nil hne]
      rfl

/-- What a path goes down through ends in slashes, too. -/
theorem intercalate_append_name {down : List String} (hdown : down ≠ [])
    (name : String) :
    "/".intercalate (down ++ [name]) = "/".intercalate down ++ "/" ++ name := by
  rw [String.intercalate_append_of_ne_nil hdown (List.cons_ne_nil _ _),
    String.intercalate_singleton]

/-- What is spelled out is its components with slashes between them. -/
theorem spelled_eq_intercalate (climb : Nat) (down : List String) (name : String) :
    spelled climb down name = "/".intercalate (leading climb ++ (down ++ [name])) :=
      by
  have hne : down ++ [name] ≠ [] := by simp
  cases climb with
  | zero =>
      show _ = "/".intercalate ("." :: (down ++ [name]))
      rw [String.intercalate_cons_of_ne_nil hne]
      cases down with
      | nil => rw [List.nil_append, String.intercalate_singleton]; rfl
      | cons first rest =>
          rw [intercalate_append_name (List.cons_ne_nil _ _), ← String.append_assoc,
            ← String.append_assoc]
          rfl
  | succ more =>
      show _ = "/".intercalate (List.replicate (more + 1) ".." ++ (down ++ [name]))
      rw [← join_replicate_append (more + 1) hne]
      cases down with
      | nil => rw [List.nil_append, String.intercalate_singleton]; rfl
      | cons first rest =>
          rw [intercalate_append_name (List.cons_ne_nil _ _), ← String.append_assoc,
            ← String.append_assoc]
          rfl

/-- The components of a path that is spelled out are those that it was made of. -/
theorem components_spelled (climb : Nat) (hdown : ∀ part ∈ down, '/' ∉ part.toList)
    (hname : '/' ∉ name.toList) :
    components (spelled climb down name) = leading climb ++ (down ++ [name]) := by
  have hslash : ∀ part ∈ leading climb ++ (down ++ [name]), '/' ∉ part.toList := by
    intro part hpart
    simp only [List.mem_append, List.mem_singleton] at hpart
    rcases hpart with hlead | hpart | rfl
    · rw [leading] at hlead
      split at hlead
      · rw [List.mem_singleton.mp hlead]; decide
      · rw [List.eq_of_mem_replicate hlead]; decide
    · exact hdown part hpart
    · exact hname
  have hsep : "/".toList = ['/'] := rfl
  rw [components, spelled_eq_intercalate, String.toList_intercalate, hsep,
    List.splitOn_intercalate]
  · rw [List.map_map]
    exact (List.map_congr_left fun part _ => String.ofList_toList).trans
      (List.map_id _)
  · intro word hword
    obtain ⟨part, hpart, rfl⟩ := List.mem_map.mp hword
    exact hslash part hpart
  · simp

/-! ## The relative path -/

/-- What is shared is the longest common beginning of the two namespaces. -/
theorem exists_longest_of_commonCount (start goal : List String) :
    ∃ shared up down, start = shared ++ up ∧ goal = shared ++ down
      ∧ commonCount start goal = shared.length
      ∧ ∀ common, common <+: start → common <+: goal → common <+: shared := by
  induction start generalizing goal with
  | nil =>
      refine ⟨[], [], goal, rfl, rfl, ?_, fun common hcommon _ => hcommon⟩
      cases goal <;> rfl
  | cons a as ih =>
      cases goal with
      | nil =>
          exact ⟨[], a :: as, [], rfl, rfl, rfl, fun common _ hcommon => hcommon⟩
      | cons b bs =>
          by_cases heq : a = b
          · subst heq
            obtain ⟨shared, up, down, rfl, rfl, hcount, hlongest⟩ := ih bs
            refine ⟨a :: shared, up, down, rfl, rfl, ?_,
              fun common hstart hgoal => ?_⟩
            · rw [commonCount, if_pos rfl, hcount, List.length_cons]
            · cases common with
              | nil => exact List.nil_prefix
              | cons c rest =>
                  obtain ⟨rfl, hup⟩ := List.cons_prefix_cons.mp hstart
                  exact List.cons_prefix_cons.mpr ⟨rfl,
                    hlongest rest hup (List.cons_prefix_cons.mp hgoal).2⟩
          · refine ⟨[], a :: as, b :: bs, rfl, rfl, ?_,
              fun common hstart hgoal => ?_⟩
            · rw [commonCount, if_neg heq, List.length_nil]
            · cases common with
              | nil => exact List.nil_prefix
              | cons c rest =>
                  have ha := (List.cons_prefix_cons.mp hstart).1
                  exact absurd (ha.symm.trans (List.cons_prefix_cons.mp hgoal).1)
                    heq

/-- The path is spelled out in one of the four cases. Its way down is empty,
    once it is written, only where there is nothing to go down through. -/
theorem relative_eq_spelled {shared : List String}
    (hcount : commonCount (shared ++ up) (shared ++ down) = shared.length)
    (hdown : ∀ s ∈ down, Text.lowercase s ≠ "") :
    relative (shared ++ up) (shared ++ down) name
      = spelled up.length (down.map Text.lowercase) (Text.lowercase name) := by
  have hleave : shared.length = (shared ++ up).length ↔ up.length = 0 := by
    rw [List.length_append]
    omega
  have hclimb : (shared ++ up).length - shared.length = up.length := by
    rw [List.length_append]
    omega
  have hwritten : ∀ first rest, down = first :: rest →
      ("/".intercalate (down.map Text.lowercase)).isEmpty = false := by
    rintro first rest rfl
    refine Bool.eq_false_iff.mpr fun hempty => hdown first List.mem_cons_self ?_
    have h := String.isEmpty_iff.mp hempty
    cases rest with
    | nil => rwa [List.map_singleton, String.intercalate_singleton] at h
    | cons second more =>
        rw [List.map_cons, List.map_cons, String.intercalate_cons_cons,
          String.append_assoc] at h
        exact (String.append_eq_empty_iff.mp h).1
  rw [relative, hcount, List.drop_left, hclimb]
  simp only [hleave]
  cases down with
  | nil =>
      have hnone : ("/".intercalate (([] : List String).map Text.lowercase)).isEmpty
          = true := by
        rw [List.map_nil, String.intercalate_nil]
        rfl
      rw [hnone]
      cases up with
      | nil => rfl
      | cons u us =>
          show String.join (List.replicate (us.length + 1) "../") ++ "" ++ _ = _
          rw [String.append_empty]
          rfl
  | cons first rest =>
      rw [hwritten first rest rfl]
      cases up with
      | nil =>
          show "./" ++
            ("/".intercalate ((first :: rest).map Text.lowercase) ++ "/") ++ _ = _
          rw [← String.append_assoc]
          rfl
      | cons u us =>
          show String.join (List.replicate (us.length + 1) "../")
            ++
              ("/".intercalate ((first :: rest).map Text.lowercase) ++ "/") ++ _ = _
          rw [← String.append_assoc]
          rfl

/-- From the directory of the namespace `start` the path leads to the
    declaration in the directory of `goal`, and never above the top. What it
    leaves is the part of `start` after the longest common beginning of the two:
    then it begins with a dot, or with two dots for each segment left, is
    spelled out in one of the four cases, and has no dots besides. -/
theorem relative_leads (hgoal : ∀ s ∈ goal, IsPlain (Text.lowercase s))
    (hname : IsPlain (Text.lowercase name)) :
    walk (start.map Text.lowercase) (relative start goal name)
        = some (goal.map Text.lowercase ++ [Text.lowercase name])
      ∧ ∃ shared up down, start = shared ++ up ∧ goal = shared ++ down
        ∧ (∀ common, common <+: start → common <+: goal → common <+: shared)
        ∧ (up = [] ↔ start <+: goal)
        ∧ relative start goal name = spelled up.length (down.map Text.lowercase)
          (Text.lowercase name)
        ∧ ∃ rest, components (relative start goal name) = leading up.length ++ rest
          ∧ "." ∉ rest ∧ ".." ∉ rest := by
  obtain ⟨shared, up, down, rfl, rfl, hcount, hlongest⟩ :=
    exists_longest_of_commonCount start goal
  have hplain : ∀ part ∈ down.map Text.lowercase ++ [Text.lowercase name],
      IsPlain part := by
    intro part hpart
    rcases List.mem_append.mp hpart with hpart | hpart
    · obtain ⟨s, hs, rfl⟩ := List.mem_map.mp hpart
      exact hgoal s (List.mem_append_right _ hs)
    · rw [List.mem_singleton.mp hpart]
      exact hname
  have hspelled : relative (shared ++ up) (shared ++ down) name
      = spelled up.length (down.map Text.lowercase) (Text.lowercase name) :=
    relative_eq_spelled hcount fun s hs =>
      (hgoal s (List.mem_append_right _ hs)).ne_empty
  have hcomponents : components (relative (shared ++ up) (shared ++ down) name)
      = leading up.length ++ (down.map Text.lowercase ++ [Text.lowercase name]) :=
        by
    rw [hspelled]
    exact components_spelled _
      (fun part hpart => (hplain part (List.mem_append_left _ hpart)).no_slash)
      hname.no_slash
  refine ⟨?_, shared, up, down, rfl, rfl, hlongest, ?_, hspelled, _,
    hcomponents, ?_, ?_⟩
  · have hups := walk_leading (shared.map Text.lowercase) (up.map Text.lowercase)
    rw [List.length_map] at hups
    rw [walk, hcomponents, foldlM_step_append, List.map_append, hups,
      Option.bind_some, walk_downs _ hplain, List.map_append, List.append_assoc]
  · constructor
    · rintro rfl
      rw [List.append_nil]
      exact List.prefix_append shared down
    · intro hstart
      have hlength := (hlongest _ List.prefix_rfl hstart).length_le
      rw [List.length_append] at hlength
      exact List.eq_nil_of_length_eq_zero (by omega)
  · exact fun hdot => (hplain _ hdot).ne_dot rfl
  · exact fun hdots => (hplain _ hdots).ne_dots rfl

/-- Namespaces that differ in a capital letter share nothing, so the path leaves
    both segments and comes back to the first in lower case. -/
theorem relative_leads_shopOfOrders :
    relative ["Shop", "web"] ["shop", "Orders"] "Order" = "../../shop/orders/order"
      ∧ walk ["shop", "web"] "../../shop/orders/order"
        = some ["shop", "orders", "order"] := by
  have hgoal : ∀ s ∈ ["shop", "Orders"], IsPlain (Text.lowercase s) := by
    intro s hs
    have hall : ∀ s ∈ ["shop", "Orders"], Text.lowercase s ≠ ""
      ∧ '/' ∉ (Text.lowercase s).toList
        ∧ Text.lowercase s ≠ "." ∧ Text.lowercase s ≠ ".." := by decide +kernel
    obtain ⟨hempty, hslash, hdot, hdots⟩ := hall s hs
    exact ⟨hempty, hslash, hdot, hdots⟩
  have hname : IsPlain (Text.lowercase "Order") :=
    ⟨by decide +kernel, by decide +kernel, by decide +kernel, by decide +kernel⟩
  have hpath : relative ["Shop", "web"] ["shop", "Orders"] "Order"
      = "../../shop/orders/order" := by
    decide +kernel
  have hstart : ["Shop", "web"].map Text.lowercase = ["shop", "web"] := by
    decide +kernel
  have hend : ["shop", "Orders"].map Text.lowercase ++ [Text.lowercase "Order"]
      = ["shop", "orders", "order"] := by
    decide +kernel
  obtain ⟨hwalk, -⟩ := @relative_leads ["Shop", "web"] _ _ hgoal hname
  rw [hpath, hstart, hend] at hwalk
  exact ⟨hpath, hwalk⟩

end ImportPath

end CodeModel
