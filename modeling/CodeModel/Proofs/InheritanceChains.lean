import CodeModel.Proofs.MakingSteps
import CodeModel.Refine.Flattening
import CodeModel.Tree.Operation
import Mathlib.Logic.Relation

/-!
# The classes above a class

The walk from a class to the class it inherits from, to the one that inherits
from, and so on, is bounded by the size of the arena. The bound is never
reached: what the walk has come to is barred from then on, so it comes to
nothing twice. `Climbs` describes the walk without a bound. The class at its end
is the farthest above the one that it began at, unless it would pass where it is
to stop.

Where no class is above itself, nothing is ever barred. Then the chain of a
class is the class it inherits from and the chain of that, and the property that
is nearest above a class is found along the same way.

* **`climbs_inheritanceChain`**: in every tree, whatever inherits from what, the
  chain is the unbounded walk.
* **`climb?_eq`**: a walk that remembers where it has been ends where the
  unbounded walk does.
* **`greatestGrandparent?_exact`**: that class is the end of the longest chain
  that comes to nothing twice and not to where the walk is to stop.
* **`inheritanceChain_of_parentClass?`**: the chain goes on with the chain of
  the class that it comes to.
* **`AcyclicInheritance.induction`**: from a class to those that inherit from
  it.
* **`mem_inheritedProperties_iff`**: a class inherits under each name that it
  does not bear itself the property that is nearest above it.
-/

namespace CodeModel

namespace Tree

variable {t : Tree} {id c p a : ElementId} {barred chain : List ElementId}
  {x : String}

/-! ## The walk without a bound -/

/-- The walk up from `id` comes to the classes `chain`, nearest first, and ends
    behind the last of them: at a class that inherits from no class, or from a
    barred one. Whatever the walk comes to is barred from then on. -/
inductive Climbs (t : Tree) :
    List ElementId → ElementId → List ElementId → Prop where
  | top {barred : List ElementId} {id : ElementId} (h : t.parentClass? id = none) :
      Climbs t barred id []
  | barred {barred : List ElementId} {id p : ElementId}
      (h : t.parentClass? id = some p) (hp : p ∈ barred) : Climbs t barred id []
  | up {barred chain : List ElementId} {id p : ElementId}
      (h : t.parentClass? id = some p) (hp : p ∉ barred)
      (hchain : Climbs t (p :: barred) p chain) : Climbs t barred id (p :: chain)

/-- There is one walk. -/
theorem Climbs.unique {other : List ElementId} (h : Climbs t barred id chain)
    (h' : Climbs t barred id other) : chain = other := by
  induction h generalizing other with
  | top hnone =>
      cases h' with
      | top _ => rfl
      | barred hsome _ => rfl
      | up hsome _ _ => rw [hnone] at hsome; cases hsome
  | barred hsome hp =>
      cases h' with
      | top _ => rfl
      | barred _ _ => rfl
      | up hsome' hnot _ =>
          obtain rfl := Option.some.inj (hsome.symm.trans hsome')
          exact absurd hp hnot
  | up hsome hnot _ ih =>
      cases h' with
      | top hnone => rw [hnone] at hsome; cases hsome
      | barred hsome' hp =>
          obtain rfl := Option.some.inj (hsome.symm.trans hsome')
          exact absurd hp hnot
      | up hsome' _ hchain =>
          obtain rfl := Option.some.inj (hsome.symm.trans hsome')
          rw [ih hchain]

/-- A walk that ends before its bound is the whole walk. -/
theorem climbs_of_length_lt :
    ∀ {n : Nat} {barred : List ElementId} {id : ElementId},
    (t.inheritanceWithin n barred id).length < n →
      Climbs t barred id (t.inheritanceWithin n barred id)
  | 0, _, _, hn => absurd hn (Nat.not_lt_zero _)
  | n + 1, barred, id, hn => by
      rw [inheritanceWithin] at hn ⊢
      cases hp : t.parentClass? id with
      | none => exact .top hp
      | some p =>
          simp only [hp] at hn ⊢
          split at hn
          next hmem =>
            rw [if_pos hmem]
            exact .barred hp hmem
          next hnot =>
            rw [if_neg hnot]
            exact .up hp hnot (climbs_of_length_lt (Nat.lt_of_succ_lt_succ hn))

/-- The walk comes to classes of the arena that are not barred, and to none
    twice. -/
theorem inheritanceWithin_distinct :
    ∀ (n : Nat) (barred : List ElementId) (id : ElementId),
    (t.inheritanceWithin n barred id).Nodup
      ∧ ∀ p ∈ t.inheritanceWithin n barred id, p ∉ barred ∧ (t.class? p).isSome
  | 0, _, _ => ⟨.nil, fun _ hp => absurd hp List.not_mem_nil⟩
  | n + 1, barred, id => by
      rw [inheritanceWithin]
      cases hp : t.parentClass? id with
      | none => exact ⟨.nil, fun _ hp => absurd hp List.not_mem_nil⟩
      | some p =>
          dsimp only
          split
          · exact ⟨.nil, fun _ hp => absurd hp List.not_mem_nil⟩
          next hnot =>
            obtain ⟨hnd, hfree⟩ := inheritanceWithin_distinct n (p :: barred) p
            refine ⟨List.nodup_cons.mpr ⟨fun hmem =>
              (hfree p hmem).1 List.mem_cons_self, hnd⟩, fun q hq => ?_⟩
            rcases List.mem_cons.mp hq with rfl | hq
            · exact ⟨hnot, (parentClass?_eq_some hp).2.1⟩
            · exact ⟨fun hmem => (hfree q hq).1 (List.mem_cons_of_mem _ hmem),
                (hfree q hq).2⟩

/-- Classes are elements of the arena. -/
theorem index_lt_of_class (h : (t.class? id).isSome) : id.index < t.size := by
  obtain ⟨e, he, -⟩ := kind?_eq_some_iff.mp (isSome_class?_iff.mp h)
  exact index_lt_of_get? he

/-- The chain of a class is shorter than the arena: the class itself is barred,
    so it and the classes of the chain are all different. -/
theorem length_inheritanceChain_lt (hclass : (t.class? id).isSome)
    (stop : Option ElementId) :
    (t.inheritanceChain id stop).length < t.size := by
  obtain ⟨hnd, hfree⟩ :=
    inheritanceWithin_distinct (t := t) t.size (id :: stop.toList) id
  have hall : ∀ q ∈ id :: t.inheritanceChain id stop, q.index < t.size := by
    intro q hq
    rcases List.mem_cons.mp hq with rfl | hq
    · exact index_lt_of_class hclass
    · exact index_lt_of_class (hfree q hq).2
  have hnd' : (id :: t.inheritanceChain id stop).Nodup :=
    List.nodup_cons.mpr ⟨fun hmem => (hfree id hmem).1 List.mem_cons_self, hnd⟩
  have hlength := length_le_of_nodup_of_lt
    (hnd'.map (f := ElementId.index) fun q r h =>
      by cases q; cases r; exact congrArg _ h)
    (fun i hi => by
      obtain ⟨q, hq, rfl⟩ := List.mem_map.mp hi
      exact hall q hq)
  rw [List.length_map, List.length_cons] at hlength
  exact hlength

/-- In every tree, whatever inherits from what, the walk up ends by itself and
    gives the chain. -/
theorem climbs_inheritanceChain (t : Tree) (id : ElementId)
    (stop : Option ElementId) :
    Climbs t (id :: stop.toList) id (t.inheritanceChain id stop) := by
  cases hp : t.parentClass? id with
  | none =>
      have hnil : t.inheritanceChain id stop = [] := by
        rw [inheritanceChain]
        cases t.size with
        | zero => rfl
        | succ n => rw [inheritanceWithin, hp]
      rw [hnil]
      exact .top hp
  | some p =>
      exact climbs_of_length_lt
        (length_inheritanceChain_lt (parentClass?_eq_some hp).1 stop)

/-- The walk looks at nothing but what inherits from what. -/
theorem inheritanceWithin_congr {t' : Tree}
    (h : ∀ x, t'.parentClass? x = t.parentClass? x) (n : Nat)
    (barred : List ElementId) (id : ElementId) :
    t'.inheritanceWithin n barred id = t.inheritanceWithin n barred id := by
  induction n generalizing barred id with
  | zero => rfl
  | succ n ih =>
      rw [inheritanceWithin, inheritanceWithin, h]
      cases t.parentClass? id with
      | none => rfl
      | some p => simp only [ih]

/-! ## The farthest class above -/

/-- A chain of classes each of which inherits from the next. It comes to no
    class twice, and to `stop` at most at its start. -/
structure GuardedChain (t : Tree) (stop : Option ElementId)
    (chain : List ElementId) : Prop where
  inherits : chain.IsChain fun c p => t.parentClass? c = some p
  nodup : chain.Nodup
  ne_stop : ∀ p ∈ chain.tail, stop ≠ some p

/-- What the walk comes to inherits one from the other. -/
theorem Climbs.isChain (h : Climbs t barred id chain) :
    (id :: chain).IsChain fun c p => t.parentClass? c = some p := by
  induction h with
  | top _ => exact .singleton _
  | barred _ _ => exact .singleton _
  | up hsome _ _ ih => exact .cons_cons hsome ih

/-- A chain that comes to nothing barred and to nothing twice goes along the
    walk. -/
theorem Climbs.prefix_of_isChain {other : List ElementId}
    (h : Climbs t barred id chain)
    (hchain : (id :: other).IsChain fun c p => t.parentClass? c = some p)
    (hnodup : other.Nodup) (hfree : ∀ p ∈ other, p ∉ barred) : other <+: chain := by
  induction h generalizing other with
  | top hnone =>
      cases other with
      | nil => exact List.nil_prefix
      | cons q rest =>
          have hsome := (List.isChain_cons_cons.mp hchain).1
          rw [hnone] at hsome
          cases hsome
  | barred hsome hp =>
      cases other with
      | nil => exact List.nil_prefix
      | cons q rest =>
          obtain rfl :=
            Option.some.inj (hsome.symm.trans (List.isChain_cons_cons.mp hchain).1)
          exact absurd hp (hfree _ List.mem_cons_self)
  | up hsome _ _ ih =>
      cases other with
      | nil => exact List.nil_prefix
      | cons q rest =>
          obtain ⟨hfirst, hrest⟩ := List.isChain_cons_cons.mp hchain
          obtain rfl := Option.some.inj (hsome.symm.trans hfirst)
          obtain ⟨hnot, hnodup⟩ := List.nodup_cons.mp hnodup
          refine List.cons_prefix_cons.mpr ⟨rfl,
            ih hrest hnodup fun p hp hbarred => ?_⟩
          rcases List.mem_cons.mp hbarred with rfl | hbarred
          · exact hnot hp
          · exact hfree p (List.mem_cons_of_mem _ hp) hbarred

/-- The chain of a class is guarded. -/
theorem guardedChain_inheritanceChain (t : Tree) (id : ElementId)
    (stop : Option ElementId) :
    GuardedChain t stop (id :: t.inheritanceChain id stop) := by
  obtain ⟨hnodup, hfree⟩ :=
    inheritanceWithin_distinct (t := t) t.size (id :: stop.toList) id
  refine ⟨(climbs_inheritanceChain t id stop).isChain,
    List.nodup_cons.mpr ⟨?_, hnodup⟩, ?_⟩
  · intro hid
    exact (hfree id hid).1 List.mem_cons_self
  · rintro p hp rfl
    exact (hfree p hp).1 (List.mem_cons_of_mem _ (List.mem_singleton_self p))

/-- Every other guarded chain from the class is the beginning of it. -/
theorem GuardedChain.prefix_inheritanceChain {stop : Option ElementId}
    {other : List ElementId} (h : GuardedChain t stop (id :: other)) :
    other <+: t.inheritanceChain id stop := by
  obtain ⟨hid, hnodup⟩ := List.nodup_cons.mp h.nodup
  refine (climbs_inheritanceChain t id stop).prefix_of_isChain h.inherits hnodup
    fun p hp hbarred => ?_
  rcases List.mem_cons.mp hbarred with rfl | hstop
  · exact hid hp
  · exact h.ne_stop p hp (Option.mem_toList.mp hstop)

/-- The walk has as many classes as it has steps to take, at most. -/
theorem length_inheritanceWithin_le :
    ∀ (n : Nat) (barred : List ElementId) (id : ElementId),
    (t.inheritanceWithin n barred id).length ≤ n
  | 0, _, _ => Nat.le_refl 0
  | n + 1, barred, id => by
      rw [inheritanceWithin]
      cases t.parentClass? id with
      | none => exact Nat.zero_le _
      | some p =>
          dsimp only
          split
          · exact Nat.zero_le _
          · exact Nat.succ_le_succ (length_inheritanceWithin_le n (p :: barred) p)

/-- The walk that remembers where it has been ends where the unbounded walk
    does, when it has more turns than there are classes to come. Where it is to
    stop counts among what it has come to. -/
theorem climb?_eq {stop : Option ElementId} {n : Nat} {visited : List ElementId}
    (h : Climbs t barred id chain)
    (hbarred : ∀ p, p ∈ barred ↔ some p = stop ∨ p ∈ visited)
    (hn : chain.length < n) :
    t.climb? stop n visited id =
      if t.parentClass? (chain.getLastD id) = none
        ∧ some (chain.getLastD id) = stop then none
      else some (chain.getLastD id) := by
  induction h generalizing visited n with
  | top hnone =>
      obtain ⟨n, rfl⟩ := Nat.exists_eq_add_one_of_ne_zero (Nat.ne_zero_of_lt hn)
      simp only [climb?, hnone, List.getLastD_nil, true_and]
  | barred hsome hp =>
      obtain ⟨n, rfl⟩ := Nat.exists_eq_add_one_of_ne_zero (Nat.ne_zero_of_lt hn)
      simp only [climb?, hsome, if_pos ((hbarred _).mp hp), List.getLastD_nil,
        reduceCtorEq, false_and, if_false]
  | @up barred chain id p hsome hp hchain ih =>
      obtain ⟨n, rfl⟩ := Nat.exists_eq_add_one_of_ne_zero (Nat.ne_zero_of_lt hn)
      have hnext : ∀ q, q ∈ p :: barred ↔ some q = stop ∨ q ∈ p :: visited := by
        intro q
        rw [List.mem_cons, List.mem_cons, hbarred, or_left_comm]
      rw [climb?, hsome]
      dsimp only
      rw [if_neg fun hstop => hp ((hbarred p).mpr hstop), List.getLastD_cons]
      exact ih hnext (Nat.lt_of_succ_lt_succ hn)

/-- From a class the walk comes to the end of its chain. It is at `stop` there
    only where it began. -/
theorem greatestGrandparent?_eq (hclass : (t.class? id).isSome)
    (stop : Option ElementId) :
    t.greatestGrandparent? id stop =
      if t.parentClass? id = none ∧ some id = stop then none
      else some ((t.inheritanceChain id stop).getLastD id) := by
  have hbarred : ∀ p, p ∈ id :: stop.toList ↔ some p = stop ∨ p ∈ [id] := by
    intro p
    rw [List.mem_cons, Option.mem_toList, List.mem_singleton, or_comm,
      eq_comm (a := some p)]
  have hclimb := climbs_inheritanceChain t id stop
  have hguarded := guardedChain_inheritanceChain t id stop
  obtain ⟨c, hc⟩ := Option.isSome_iff_exists.mp hclass
  rw [greatestGrandparent?, hc]
  dsimp only
  rw [climb?_eq hclimb hbarred (length_inheritanceChain_lt hclass stop)]
  cases hchain : t.inheritanceChain id stop with
  | nil => rfl
  | cons p rest =>
      rw [hchain] at hclimb hguarded
      -- The walk has gone up, so its start inherits and its end comes after the
      -- start.
      have hend : some ((p :: rest).getLastD id) ≠ stop := by
        rw [List.getLastD_eq_getLast?,
          List.getLast?_eq_some_getLast (List.cons_ne_nil p rest)]
        exact (hguarded.ne_stop _ (List.getLast_mem _)).symm
      have hstart : t.parentClass? id ≠ none := by
        cases hclimb with
        | up hsome _ _ => rw [hsome]; exact Option.some_ne_none _
      rw [if_neg fun h => hend h.2, if_neg fun h => hstart h.1]

/-- In every tree, whatever inherits from what, the walk up from an element
    comes to its end, after no more steps than there are elements. Nothing is
    found exactly for what is no class, and for `stop` when it inherits from no
    class. For every other class the end of its longest guarded chain is found:
    all guarded chains from the class are beginnings of that one. -/
theorem greatestGrandparent?_exact (t : Tree) (id : ElementId)
    (stop : Option ElementId) :
    (t.greatestGrandparent? id stop = none ↔
      t.class? id = none ∨ t.parentClass? id = none ∧ stop = some id)
      ∧ ∃ above, Climbs t (id :: stop.toList) id above ∧ above.length ≤ t.size
        ∧ GuardedChain t stop (id :: above)
        ∧ (∀ other, GuardedChain t stop (id :: other) → other <+: above)
        ∧ ∀ top, t.greatestGrandparent? id stop = some top →
            top = (id :: above).getLast (List.cons_ne_nil id above) := by
  constructor
  · cases hclass : t.class? id with
    | none => simp [greatestGrandparent?, hclass]
    | some c =>
        rw [greatestGrandparent?_eq (by rw [hclass]; rfl)]
        simp only [reduceCtorEq, false_or, eq_comm (a := stop)]
        split
        next hstop => exact iff_of_true rfl hstop
        next hgo => exact iff_of_false (Option.some_ne_none _) hgo
  · refine ⟨t.inheritanceChain id stop, climbs_inheritanceChain t id stop,
      length_inheritanceWithin_le t.size _ id, guardedChain_inheritanceChain t id
      stop, fun other hother => hother.prefix_inheritanceChain, fun top htop => ?_⟩
    cases hclass : t.class? id with
    | none =>
        rw [greatestGrandparent?, hclass] at htop
        cases htop
    | some c =>
        rw [greatestGrandparent?_eq (by rw [hclass]; rfl)] at htop
        rw [Option.ite_none_left_eq_some, Option.some.injEq] at htop
        rw [← htop.2, List.getLast_eq_getLastD]

/-- A tree of a class below two that inherit from each other. -/
def heirOfTwo : Tree :=
  Operation.runAll
    [.addNew .classes ⟨0⟩
      (.inheriting (.classDecl "Bottom" .model) (.declared "Middle" ⟨2⟩)),
      .addNew .classes ⟨0⟩
        (.inheriting (.classDecl "Middle" .model) (.declared "Top" ⟨3⟩)),
      .addNew .classes ⟨0⟩
        (.inheriting (.classDecl "Top" .model) (.declared "Middle" ⟨2⟩))]
    initial

/-- The circle is gone through once, and not beyond where the walk is to stop. -/
example : heirOfTwo.greatestGrandparent? ⟨1⟩ none = some ⟨3⟩
    ∧ heirOfTwo.greatestGrandparent? ⟨1⟩ (some ⟨3⟩) = some ⟨2⟩
    ∧ heirOfTwo.greatestGrandparent? ⟨2⟩ (some ⟨2⟩) = some ⟨3⟩ := by
  decide +kernel

/-! ## Where no class is above itself -/

/-- Class `a` is above class `c`. -/
def InheritsFrom (t : Tree) : ElementId → ElementId → Prop :=
  Relation.TransGen fun c p => t.parentClass? c = some p

/-- No class is above itself. -/
def AcyclicInheritance (t : Tree) : Prop :=
  ∀ c, ¬ t.InheritsFrom c c

/-- No class is above itself where all inherit from classes that are older. -/
theorem acyclicInheritance_of_lt
    (h : ∀ i < t.size, ∀ p ∈ t.parentClass? ⟨i⟩, p.index < i) :
    t.AcyclicInheritance := by
  have hlt : ∀ {c p}, t.InheritsFrom c p → p.index < c.index := by
    intro c p hcp
    have hstep : ∀ {c p}, t.parentClass? c = some p → p.index < c.index :=
      fun {c} p hp => h c.index (index_lt_of_class (parentClass?_eq_some hp).1) p hp
    induction hcp with
    | single hp => exact hstep hp
    | tail _ hp ih => exact Nat.lt_trans (hstep hp) ih
  exact fun c hc => Nat.lt_irrefl _ (hlt hc)

/-- Barring what the walk never comes to makes no difference. -/
theorem Climbs.rebar {others : List ElementId} (hacyclic : t.AcyclicInheritance)
    (h : Climbs t barred id chain) (hbarred : ∀ b ∈ barred, ¬ t.InheritsFrom id b)
    (hothers : ∀ b ∈ others, ¬ t.InheritsFrom id b) : Climbs t others id chain := by
  induction h generalizing others with
  | top hnone => exact .top hnone
  | barred hsome hp => exact absurd (.single hsome) (hbarred _ hp)
  | @up _ _ id p hsome _ _ ih =>
      have hnext : ∀ {l : List ElementId}, (∀ b ∈ l, ¬ t.InheritsFrom id b) →
          ∀ b ∈ p :: l, ¬ t.InheritsFrom p b := by
        intro l hl b hb habove
        rcases List.mem_cons.mp hb with rfl | hb
        · exact hacyclic b habove
        · exact hl b hb (.head hsome habove)
      exact .up hsome (fun hp => hothers _ hp (.single hsome))
        (ih (hnext hbarred) (hnext hothers))

/-- A class that inherits from nothing has an empty chain. -/
theorem inheritanceChain_eq_nil (h : t.parentClass? c = none) :
    t.inheritanceChain c none = [] :=
  (climbs_inheritanceChain t c none).unique (.top h)

/-- The chain goes on with the chain of the class that it comes to. -/
theorem inheritanceChain_of_parentClass? (hacyclic : t.AcyclicInheritance)
    (h : t.parentClass? c = some p) :
    t.inheritanceChain c none = p :: t.inheritanceChain p none := by
  refine (climbs_inheritanceChain t c none).unique (.up h ?_ ?_)
  · intro hp
    obtain rfl := List.mem_singleton.mp hp
    exact hacyclic p (.single h)
  · refine (climbs_inheritanceChain t p none).rebar hacyclic ?_ ?_
    · intro b hb
      obtain rfl := List.mem_singleton.mp hb
      exact hacyclic b
    · intro b hb habove
      rcases List.mem_cons.mp hb with rfl | hb
      · exact hacyclic b habove
      · obtain rfl := List.mem_singleton.mp hb
        exact hacyclic b (.head h habove)

/-- What holds of every class that inherits from none, and passes from a class
    to those that inherit from it, holds of all. -/
theorem AcyclicInheritance.induction {P : ElementId → Prop}
    (hacyclic : t.AcyclicInheritance) (top : ∀ c, t.parentClass? c = none → P c)
    (under : ∀ c p, t.parentClass? c = some p → P p → P c) (c : ElementId) :
    P c := by
  -- On the chain, which gets shorter from a class to the one above it.
  induction hchain : t.inheritanceChain c none generalizing c with
  | nil =>
      cases hp : t.parentClass? c with
      | none => exact top c hp
      | some p =>
          rw [inheritanceChain_of_parentClass? hacyclic hp] at hchain
          cases hchain
  | cons a rest ih =>
      cases hp : t.parentClass? c with
      | none => exact top c hp
      | some p =>
          rw [inheritanceChain_of_parentClass? hacyclic hp] at hchain
          exact under c p hp (ih p (List.cons.inj hchain).2)

/-! ## The nearest property above -/

/-- The property of a name that is nearest above a class. -/
def inheritedProperty? (t : Tree) (c : ElementId) (x : String) : Option ElementId :=
  (t.inheritanceChain c none).findSome? fun a => t.child? a x .property

/-- Where there is nothing above, nothing is inherited. -/
theorem inheritedProperty?_eq_none (h : t.parentClass? c = none) :
    t.inheritedProperty? c x = none := by
  rw [inheritedProperty?, inheritanceChain_eq_nil h]
  rfl

/-- What is nearest above a class is what the class above it has, or else what
    is nearest above that. -/
theorem inheritedProperty?_of_parentClass? (hacyclic : t.AcyclicInheritance)
    (h : t.parentClass? c = some p) :
    t.inheritedProperty? c x
      = (t.child? p x .property).or (t.inheritedProperty? p x) := by
  rw [inheritedProperty?, inheritanceChain_of_parentClass? hacyclic h,
    List.findSome?_cons, inheritedProperty?]
  cases t.child? p x .property <;> rfl

/-- A member of a name is a child of that name. -/
theorem hasMember_iff :
    t.hasMember c x = true ↔ x ∈ (t.children c).filterMap t.name? := by
  rw [hasMember, List.any_eq_true, List.mem_filterMap]
  simp only [decide_eq_true_eq]

/-- Of the elements of one name the first is kept, unless the name is taken. -/
theorem mem_firstOfEachName_iff {taken : List String} {ids : List ElementId}
    {q : ElementId} :
    q ∈ t.firstOfEachName taken ids ∧ t.name? q = some x ↔
      x ∉ taken ∧ ids.find? (fun i => t.name? i = some x) = some q := by
  induction ids generalizing taken with
  | nil => simp [firstOfEachName]
  | cons i rest ih =>
      rw [firstOfEachName]
      cases hname : t.name? i with
      | none =>
          have hskip : (i :: rest).find? (fun i => t.name? i = some x) = rest.find?
              fun i => t.name? i = some x :=
            List.find?_cons_of_neg (by simp [hname])
          rw [hskip]
          exact ih
      | some name =>
          dsimp only
          by_cases heq : name = x
          · subst heq
            have htake : (i :: rest).find?
                (fun i => t.name? i = some name) = some i :=
              List.find?_cons_of_pos (by simp [hname])
            rw [htake]
            by_cases hin : name ∈ taken
            · rw [if_pos hin, ih]
              simp [hin]
            · rw [if_neg hin, List.mem_cons, or_and_right, ih]
              simp only [List.mem_cons, not_true_eq_false, false_and, or_false, hin,
                not_false_eq_true, true_and, Option.some.injEq]
              constructor
              · rintro ⟨rfl, -⟩
                rfl
              · rintro rfl
                exact ⟨rfl, hname⟩
          · have hskip : (i :: rest).find? (fun i => t.name? i = some x) =
                rest.find? fun i => t.name? i = some x :=
              List.find?_cons_of_neg (by simp [hname, heq])
            rw [hskip]
            by_cases hin : name ∈ taken
            · rw [if_pos hin]
              exact ih
            · rw [if_neg hin, List.mem_cons, or_and_right, ih]
              have hother : ¬ (q = i ∧ t.name? q = some x) := by
                rintro ⟨rfl, hq⟩
                exact heq (Option.some.inj (hname.symm.trans hq))
              simp [hother, Ne.symm heq]

/-- The first of a kind under a name is the one that a lookup finds. -/
theorem find?_childrenOfKind (t : Tree) (a : ElementId) (x : String)
    (kind : NodeKind) :
    (t.childrenOfKind a kind).find? (fun i => t.name? i = some x)
      = t.child? a x kind := by
  rw [childrenOfKind, List.find?_filter, child?]
  refine congrArg (List.find? · (t.children a)) (funext fun i => ?_)
  rw [isNamed, kind?, name?]
  cases t.get? i <;> simp

/-- A class inherits under each name that it does not bear itself the property
    that is nearest above it. -/
theorem mem_inheritedProperties_iff {q : ElementId} :
    q ∈ t.inheritedProperties c ∧ t.name? q = some x ↔
      t.hasMember c x = false ∧ t.inheritedProperty? c x = some q := by
  rw [inheritedProperties, mem_firstOfEachName_iff, ← hasMember_iff,
    Bool.not_eq_true, List.find?_flatMap, inheritedProperty?]
  simp only [find?_childrenOfKind]

end Tree

end CodeModel
