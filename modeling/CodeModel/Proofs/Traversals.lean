import CodeModel.Proofs.Operations
import CodeModel.Proofs.Successes

/-!
# Walks with a stack, and what a traversal visits

What is below an element can be listed with a stack: the element on top is taken
off and listed, and what it holds goes onto the stack, the first on top. What a
walk has listed, with what is still to come from the stack, stays the same from
turn to turn, so the walk ends with the list of everything below. Each turn
lists one element, so it ends after no more turns than there are elements.

A traversal goes through that list, as it was at the beginning, and visits what
is attached when its turn comes. To say what it visits, visits are noted:
`noted` makes of a visit one that does the same and writes down the element and
the tree that it finds. Noting the turns of a traversal gives all of them, and
noting the visits those that happen.

* **`StackWalk.run_start`**: the walk with a stack comes to what the walk that
  calls itself comes to.
* **`exists_turns`**: a traversal makes those of its turns a visit whose element
  is attached then.
* **`Visits`**: what it comes to visit.

Main statement: `walks_agree`, the walks upwards, the walks downwards and the
traversals say the same of what is below an element.
-/

namespace CodeModel

namespace Tree

variable {t : Tree} {id : ElementId}

/-! ## Walks with a stack -/

/-- Puts elements onto a stack one after another. The head of the list is the
    top of the stack. -/
def pushAll (stack items : List ElementId) : List ElementId :=
  items.foldl (fun stack id => id :: stack) stack

/-- Items go onto the stack in reverse, so that the first comes up next. -/
theorem pushAll_eq (stack items : List ElementId) :
    pushAll stack items = items.reverse ++ stack := by
  induction items generalizing stack with
  | nil => rfl
  | cons id rest ih =>
      show pushAll (id :: stack) rest = _
      rw [ih, List.reverse_cons, List.append_assoc, List.singleton_append]

/-- A walk with a stack: what has been listed, in order, and what is still to
    come, the next on top. -/
structure StackWalk where
  found : List ElementId
  stack : List ElementId
deriving DecidableEq

namespace StackWalk

/-- The walk down from an element begins with what the element holds, pushed
    from the last to the first. -/
def start (t : Tree) (id : ElementId) : StackWalk :=
  ⟨[], pushAll [] (t.children id).reverse⟩

/-- The next turn, as long as there is something on the stack: the element on
    top is taken off and listed, and what it holds is pushed from the last to
    the first. -/
def turn? (t : Tree) (w : StackWalk) : Option StackWalk :=
  match w.stack with
  | [] => none
  | id :: rest => some ⟨w.found ++ [id], pushAll rest (t.children id).reverse⟩

/-- The walk after `n` turns, or where it has ended before. -/
def run (t : Tree) : Nat → StackWalk → StackWalk
  | 0, w => w
  | n + 1, w =>
      match w.turn? t with
      | none => w
      | some w' => run t n w'

/-- What a walk has listed, followed by everything at or below what is on the
    stack. -/
def outcome (t : Tree) (w : StackWalk) : List ElementId :=
  w.found ++ w.stack.flatMap fun id => id :: t.descendants id

/-- The outcome of a walk at its start is the list of descendants. -/
theorem outcome_start (hwl : WellLinked t) (id : ElementId) :
    (start t id).outcome t = t.descendants id := by
  rw [outcome, start, pushAll_eq, List.reverse_reverse, List.append_nil,
    List.nil_append]
  exact (hwl.descendants_eq_flatMap id).symm

/-- A turn moves one element from the stack to what is listed and leaves the
    outcome as it was. -/
theorem turn?_eq_some (hwl : WellLinked t) {w w' : StackWalk}
    (h : w.turn? t = some w') :
    w'.outcome t = w.outcome t ∧ w'.found.length = w.found.length + 1 := by
  obtain ⟨found, stack⟩ := w
  cases stack with
  | nil => cases h
  | cons id rest =>
      obtain rfl := Option.some.inj h
      refine ⟨?_, List.length_append⟩
      simp only [outcome, pushAll_eq, List.reverse_reverse, List.flatMap_append,
        List.flatMap_cons, List.append_assoc, List.cons_append, List.nil_append,
        ← hwl.descendants_eq_flatMap]

/-- A walk that has no next turn has listed its outcome. -/
theorem eq_of_turn?_eq_none {w : StackWalk} (h : w.turn? t = none) :
    w = ⟨w.outcome t, []⟩ := by
  obtain ⟨found, stack⟩ := w
  cases stack with
  | nil => simp [outcome]
  | cons id rest => cases h

/-- A walk with enough turns left ends with its outcome. -/
theorem run_eq (hwl : WellLinked t) {n : Nat} {w : StackWalk}
    (hn : (w.outcome t).length ≤ w.found.length + n) :
    w.run t n = ⟨w.outcome t, []⟩ := by
  induction n generalizing w with
  | zero =>
      cases hturn : w.turn? t with
      | none => exact eq_of_turn?_eq_none hturn
      | some w' =>
          obtain ⟨houtcome, hlength⟩ := turn?_eq_some hwl hturn
          have hle : w'.found.length ≤ (w'.outcome t).length := by
            rw [outcome, List.length_append]
            exact Nat.le_add_right _ _
          rw [houtcome, hlength] at hle
          omega
  | succ n ih =>
      rw [run]
      cases hturn : w.turn? t with
      | none => exact eq_of_turn?_eq_none hturn
      | some w' =>
          obtain ⟨houtcome, hlength⟩ := turn?_eq_some hwl hturn
          rw [← houtcome]
          exact ih (by rw [houtcome]; omega)

/-- The walk with a stack ends, after no more turns than there are elements, and
    has listed everything below. -/
theorem run_start (hwl : WellLinked t) (id : ElementId) {n : Nat}
    (hn : t.size ≤ n) :
    (start t id).run t n = ⟨t.descendants id, []⟩ := by
  have hlength := hwl.length_descendants_le id
  rw [run_eq hwl, outcome_start hwl]
  rw [outcome_start hwl]
  exact Nat.le_trans hlength (Nat.le_add_left_of_le hn)

end StackWalk

end Tree

namespace Edit

open CodeModel.Tree

variable {σ : Type} {t : Tree}

/-! ## Noted visits -/

/-- A visit that notes down its element and the tree that it finds, and does
    what `visit` does. -/
def noted (visit : σ → ElementId → Edit σ) (s : σ × List (ElementId × Tree))
    (id : ElementId) : Edit (σ × List (ElementId × Tree)) := do
  let t ← get
  let next ← visit s.1 id
  return (next, s.2 ++ [(id, t)])

/-- A visit with notes runs as the visit does, and notes its tree. -/
theorem run_noted {visit : σ → ElementId → Edit σ} {s s' : σ} {id : ElementId}
    {t' : Tree} (h : (visit s id).run t = .ok s' t')
    (notes : List (ElementId × Tree)) :
    (noted visit (s, notes) id).run t = .ok (s', notes ++ [(id, t)]) t' := by
  rw [noted, run_get_bind, run_bind_of_eq_ok h]
  rfl

/-- Whether a turn is a visit: whether its element is attached in the tree as it
    stands then. -/
def isVisit (turn : ElementId × Tree) : Bool :=
  turn.2.isAttached turn.1

/-- A turn notes a visit exactly when its element is attached. -/
theorem run_visitAttached_noted {visit : σ → ElementId → Edit σ} {s s' : σ}
    {id : ElementId} {t' : Tree} (h : (visitAttached visit s id).run t = .ok s' t')
    (notes : List (ElementId × Tree)) :
    (visitAttached (noted visit) (s, notes) id).run t =
      .ok (s', notes ++ [(id, t)].filter isVisit) t' := by
  by_cases hattached : t.isAttached id = true
  · rw [run_visitAttached_of_attached hattached] at h ⊢
    have hvisit : isVisit (id, t) = true := hattached
    rw [List.filter_cons_of_pos hvisit, List.filter_nil]
    exact run_noted h notes
  · rw [run_visitAttached_of_not_attached hattached] at h ⊢
    obtain ⟨rfl, rfl⟩ := EStateM.Result.ok.inj h
    have hpassed : ¬ isVisit (id, t) = true := hattached
    rw [List.filter_cons_of_neg hpassed, List.filter_nil, List.append_nil]

/-- A visit that is not refused on an attached element of a tree with the
    property `P` keeps that property. -/
def VisitKeeps (P : Tree → Prop) (visit : σ → ElementId → Edit σ) : Prop :=
  ∀ s t id s' t', P t → t.isAttached id = true →
    (visit s id).run t = .ok s' t' → P t'

/-- A traversal that goes through can be noted. Its turns come to the given
    elements in order, each with the tree as it stands then. Its visits are the
    turns whose element is attached. -/
theorem exists_turns {P : Tree → Prop} {visit : σ → ElementId → Edit σ}
    (hkeeps : VisitKeeps P visit) {items : List ElementId} {s s' : σ} {t' : Tree}
    (hP : P t) (hrun : (items.foldlM (visitAttached visit) s).run t = .ok s' t')
    (before visited : List (ElementId × Tree)) :
    ∃ turns, (items.foldlM (noted (visitAttached visit)) (s, before)).run t
      = .ok (s', before ++ turns) t'
      ∧ (items.foldlM (visitAttached (noted visit)) (s, visited)).run t =
          .ok (s', visited ++ turns.filter isVisit) t'
      ∧ turns.map Prod.fst = items ∧ ∀ turn ∈ turns, P turn.2 := by
  induction items generalizing s t before visited with
  | nil =>
      obtain ⟨rfl, rfl⟩ := run_pure_eq_ok_iff.mp hrun
      refine ⟨[], ?_, ?_, rfl, fun _ hturn => absurd hturn List.not_mem_nil⟩
      · rw [List.append_nil]
        rfl
      · rw [List.filter_nil, List.append_nil]
        rfl
  | cons id rest ih =>
      rw [List.foldlM_cons, run_bind_eq_ok_iff] at hrun
      obtain ⟨s₁, t₁, hturn, hrest⟩ := hrun
      have hP₁ : P t₁ := visitAttached_induction (I := fun _ => P) hkeeps hP hturn
      obtain ⟨turns, hturns, hvisits, hitems, hall⟩ :=
        ih hP₁ hrest (before ++ [(id, t)])
        (visited ++ [(id, t)].filter isVisit)
      refine ⟨(id, t) :: turns, ?_, ?_, by rw [List.map_cons, hitems],
        List.forall_mem_cons.mpr ⟨hP, hall⟩⟩
      · rw [List.foldlM_cons, run_bind_of_eq_ok (run_noted hturn before), hturns,
          List.append_assoc, List.singleton_append]
      · rw [List.foldlM_cons,
          run_bind_of_eq_ok (run_visitAttached_noted hturn visited), hvisits,
          List.append_assoc, ← List.filter_append, List.singleton_append]

/-! ## What a traversal visits -/

/-- What a traversal of `t` visits: `turns` are its turns and `visits` its
    visits, in order, each with the tree as it stands then. Everything below the
    root at the beginning has a turn, each element before what it holds, and
    what is attached when it has its turn is visited: nothing twice, nothing
    before what was above it, and nothing that is made on the way. -/
structure Visits (t : Tree) (turns visits : List (ElementId × Tree)) : Prop where
  turns_eq : turns.map Prod.fst = t.descendants t.root
  sublist : visits.Sublist turns
  mem_iff : ∀ x, x ∈ visits.map Prod.fst ↔ Ancestor t t.root x ∧ ∃ u, (x, u) ∈ turns
    ∧ Attached u x
  nodup : (visits.map Prod.fst).Nodup
  above_first : (visits.map Prod.fst).Pairwise fun a b => ¬ Ancestor t b a
  old : ∀ x ∈ visits.map Prod.fst, x.index < t.size

/-- The turns whose element is attached are what a traversal visits. -/
theorem visits_filter (hwl : WellLinked t) {turns : List (ElementId × Tree)}
    (hitems : turns.map Prod.fst = t.descendants t.root)
    (hlinked : ∀ turn ∈ turns, turn.2.WellLinked) :
    Visits t turns (turns.filter isVisit) := by
  have hsublist : (turns.filter isVisit).Sublist turns := List.filter_sublist
  have hbelow := hsublist.map Prod.fst
  rw [hitems] at hbelow
  refine ⟨hitems, hsublist, fun x => ?_, (hwl.nodup_descendants _).sublist hbelow,
    ?_, fun x hx => ?_⟩
  · constructor
    · intro hx
      obtain ⟨⟨x, u⟩, hturn, rfl⟩ := List.mem_map.mp hx
      obtain ⟨hmem, hattached⟩ := List.mem_filter.mp hturn
      exact ⟨hwl.mem_descendants_iff.mp (hbelow.subset hx), u, hmem,
        (hlinked _ hmem).isAttached_iff.mp hattached⟩
    · rintro ⟨-, u, hmem, hattached⟩
      exact List.mem_map.mpr
        ⟨(x, u), List.mem_filter.mpr
          ⟨hmem, (hlinked _ hmem).isAttached_iff.mpr hattached⟩, rfl⟩
  · exact ((hwl.pairwise_descendants t.root).sublist hbelow).imp
      fun hnot habove => hnot (Or.inr habove)
  · exact hwl.index_lt_of_mem_descendants (hbelow.subset hx)

/-- The walk down with a stack ends, and has listed what the walk that calls
    itself lists: each element that is held, followed by what is below it. That
    is everything from which the walk up comes to where the walk down began, and
    nothing twice. What is attached is the root and what is below it. A
    traversal whose visits keep the tree well formed, by whatever else of it
    they keep, and are not refused goes through. If it does, it visits what was
    below the root when it began and is attached when it has its turn: nothing
    twice, nothing before what was above it, and nothing that was made on the
    way. -/
theorem walks_agree (hwf : WellFormed t) (start : ElementId) :
    (∀ n, t.size ≤ n →
      (StackWalk.start t start).run t n = ⟨t.descendants start, []⟩)
      ∧ t.descendants start = (t.children start).flatMap
        (fun c => c :: t.descendants c)
      ∧ (t.descendants start).Nodup
      ∧ (∀ x, (x ∈ t.descendants start ↔ t.isAncestor start x = true)
          ∧ (t.isAncestor start x = true ↔ Ancestor t start x))
      ∧ (∀ x, t.isAttached x = true ↔ x = t.root ∨ x ∈ t.descendants t.root)
      ∧ ∀ {σ : Type} {P : Tree → Prop} (visit : σ → ElementId → Edit σ) (s : σ),
        (∀ u, P u → WellFormed u) → P t →
          VisitKeeps P visit →
            ((∀ s u id, P u → u.isAttached id = true →
              ∃ s' u', (visit s id).run u = .ok s' u') →
              ∃ s' t', (crawlWith s visit).run t = .ok s' t')
            ∧ ∀ s' t', (crawlWith s visit).run t = .ok s' t' →
                ∃ turns visits,
                  ((t.descendants t.root).foldlM (noted (visitAttached visit))
                    (s, [])).run t = .ok (s', turns) t'
                    ∧ (crawlWith (s, []) (noted visit)).run t = .ok (s', visits) t'
                    ∧ Visits t turns visits := by
  have hwl := hwf.toWellLinked
  refine ⟨fun n hn =>
    StackWalk.run_start hwl start hn, hwl.descendants_eq_flatMap start,
    hwl.nodup_descendants start, fun x => ⟨?_, hwl.isAncestor_iff⟩, fun x => ?_,
    fun {σ P} visit s hshape hP hkeeps => ⟨fun hok => ?_, fun s' t' hrun => ?_⟩⟩
  · rw [hwl.mem_descendants_iff, hwl.isAncestor_iff]
  · rw [hwl.isAttached_iff, hwl.mem_descendants_iff]
    rfl
  · have hthrough : Succeeds (crawlWith s visit) t fun _ => P :=
      succeeds_crawlWith (fun s u id _ hu hattached => by
        obtain ⟨s', u', hrun⟩ := hok s u id hu hattached
        exact ⟨s', u', hrun, hkeeps s u id s' u' hu hattached hrun⟩) hP
    obtain ⟨s', t', hrun, -⟩ := hthrough
    exact ⟨s', t', hrun⟩
  · obtain ⟨turns, hturns, hvisits, hitems, hall⟩ :=
      exists_turns hkeeps hP hrun [] []
    exact ⟨turns, _, hturns, hvisits, visits_filter hwl hitems fun turn hturn =>
      (hshape _ (hall turn hturn)).toWellLinked⟩

/-- A tree with three classes in a namespace, the second of which has a
    property. -/
def classesOfGraph : Tree :=
  Operation.runAll
    [.addNamespace ⟨0⟩ "graph",
      .addNew .classes ⟨1⟩ (.classDecl "First" .model),
      .addNew .classes ⟨1⟩ (.classDecl "Second" .model),
      .addNew .properties ⟨3⟩ (.property "id" .custom (.external "string")),
      .addNew .classes ⟨1⟩ (.classDecl "Last" .model)]
    initial

/-- Counts visits, and takes the second class out when it comes to the first. -/
def dropSecond (count : Nat) (id : ElementId) : Edit Nat := do
  discard (if id = ⟨2⟩ then remove ⟨1⟩ ⟨3⟩ else pure false)
  return count + 1

/-- A class that is taken out before its turn is passed over with what it holds,
    and the rest is visited. -/
theorem walks_agree_classesOfGraph :
    (StackWalk.start classesOfGraph ⟨1⟩).run classesOfGraph 6
      = ⟨[⟨2⟩, ⟨3⟩, ⟨4⟩, ⟨5⟩], []⟩
      ∧ classesOfGraph.isAncestor ⟨1⟩ ⟨4⟩ = true
      ∧ classesOfGraph.isAttached ⟨4⟩ = true
      ∧ ∃ t' turns visits, (crawlWith 0 dropSecond).run classesOfGraph = .ok 3 t'
          ∧ (crawlWith (0, []) (noted dropSecond)).run classesOfGraph
            = .ok (3, visits) t'
          ∧ Visits classesOfGraph turns visits
          ∧ visits.map Prod.fst = [⟨1⟩, ⟨2⟩, ⟨5⟩] := by
  have hnamed : FullyNamed classesOfGraph :=
    Operation.fullyNamed_runAll _ fullyNamed_initial
  have hdown : classesOfGraph.descendants ⟨1⟩ = [⟨2⟩, ⟨3⟩, ⟨4⟩, ⟨5⟩] := by
    decide +kernel
  obtain ⟨hstack, -, -, hup, hattached, hcrawl⟩ := walks_agree hnamed.wellFormed ⟨1⟩
  refine ⟨hdown ▸ hstack 6 (by decide +kernel), (hup ⟨4⟩).1.mp (hdown ▸ by decide),
    (hattached ⟨4⟩).mpr (Or.inr (by decide +kernel)), ?_⟩
  have hkeeps : VisitKeeps FullyNamed dropSecond := by
    intro count u id count' u' hu _ hrun
    refine Keeps.of_run ?_ hu hrun
    refine (Keeps.discard ?_).bind fun _ => Keeps.pure (count + 1)
    split
    · exact keeps_remove ⟨1⟩ ⟨3⟩
    · exact Keeps.pure false
  have hok : ∀ count u id, FullyNamed u → u.isAttached id = true →
      ∃ count' u', (dropSecond count id).run u = .ok count' u' := by
    intro count u id _ _
    by_cases hid : id = ⟨2⟩
    · refine ⟨count + 1, (u.detach ⟨1⟩ ⟨3⟩).2, ?_⟩
      rw [dropSecond, if_pos hid]
      rfl
    · refine ⟨count + 1, u, ?_⟩
      rw [dropSecond, if_neg hid]
      rfl
  obtain ⟨hthrough, hvisits⟩ :=
    hcrawl dropSecond 0 (fun _ h => h.wellFormed) hnamed hkeeps
  obtain ⟨count, t', hrun⟩ := hthrough hok
  obtain ⟨turns, visits, -, hnoted, hall⟩ := hvisits count t' hrun
  obtain ⟨notes, t'', hnotes, hcount, hids⟩ := exists_eq_ok
    (r := (crawlWith (0, []) (noted dropSecond)).run classesOfGraph)
    (P := fun notes _ => notes.1 = 3 ∧ notes.2.map Prod.fst = [⟨1⟩, ⟨2⟩, ⟨5⟩])
      (by decide +kernel)
  obtain ⟨rfl, rfl⟩ := EStateM.Result.ok.inj (hnoted.symm.trans hnotes)
  obtain rfl : count = 3 := hcount
  exact ⟨t', turns, visits, hrun, hnoted, hall, hids⟩

end Edit

end CodeModel
