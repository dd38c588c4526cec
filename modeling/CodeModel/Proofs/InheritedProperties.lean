import CodeModel.Proofs.DottedNamespaces
import CodeModel.Proofs.FlattenedClasses
import Mathlib.Data.List.Pairwise

/-!
# What a class inherits by flattening

A class is to gain, under each name that none of its members bears, a copy of
the property that is nearest above it. Classes have their turns in the order of
the tree. A class that is flattened before the classes under it has what is
above it by then, unless one of its own members that is no property bears the
name: then it takes no copy, inherits no longer, and hides the property from the
classes under it (`Hidden`). A class under it that has its turn first gets past
it.

* **`hiddenBehind_iff`**: what hides a property, class by class up the chain.
* **`Flattened.found_of_pending`**: what a class that has not had its turn finds
  above it.
* **`Supplied.step`**, **`supplied_of_run`**: one turn, and all of them.

Main statements: `run_flattenInheritance_exact`, a class gains a copy of the
nearest property above it under each name exactly where nothing hides it, so the
order of the classes makes a difference exactly where they hide different
things, and `exists_hidden_by_order`, where it does.
-/

namespace CodeModel

open CodeModel.Tree

namespace Tree

variable {t s s' : Tree} {a b c d p q id : ElementId} {x : String}
  {first done : List ElementId}

/-! ## What hides a property -/

/-- Element `a` has its turn before `b`. What is not below the root has none and
    comes after all that is. -/
def ComesBefore (t : Tree) (a b : ElementId) : Prop :=
  (t.descendants t.root).idxOf a < (t.descendants t.root).idxOf b

/-- Among the classes above `b` is one with a member `x` that is no property,
    with no property `x` in the classes up to it, that has its turn before these
    and before the classes `first`. -/
def HiddenBehind (t : Tree) (first : List ElementId) (b : ElementId)
    (x : String) : Prop :=
  ∃ before a after, t.inheritanceChain b none = before ++ a :: after
    ∧ (∀ y ∈ before ++ [a], t.child? y x .property = none) ∧ t.hasMember a x = true
    ∧ ∀ y ∈ first ++ before, t.ComesBefore a y

/-- Whatever property `x` is above class `c` is hidden from it: nearer to it is
    a class with a member `x` of another kind, and that class has its turn
    before `c` and before all classes between the two. -/
def Hidden (t : Tree) (c : ElementId) (x : String) : Prop :=
  t.HiddenBehind [c] c x

/-- What hides a property is the class above, or what hides it behind that. -/
theorem hiddenBehind_iff (hacyclic : t.AcyclicInheritance)
    (h : t.parentClass? b = some p) :
    t.HiddenBehind first b x ↔ t.child? p x .property = none
      ∧ (t.hasMember p x = true ∧ (∀ y ∈ first, t.ComesBefore p y)
        ∨ t.HiddenBehind (first ++ [p]) p x) := by
  rw [HiddenBehind, inheritanceChain_of_parentClass? hacyclic h]
  constructor
  · rintro ⟨before, a, after, hchain, hnone, hmember, hbefore⟩
    cases before with
    | nil =>
        obtain ⟨rfl, -⟩ := List.cons.inj hchain
        rw [List.append_nil] at hbefore
        exact ⟨hnone p (List.mem_singleton_self p), Or.inl ⟨hmember, hbefore⟩⟩
    | cons y before =>
        obtain ⟨rfl, hrest⟩ := List.cons.inj hchain
        refine ⟨hnone p List.mem_cons_self,
          Or.inr ⟨before, a, after, hrest, ?_, hmember, ?_⟩⟩
        · exact fun y hy => hnone y (List.mem_cons_of_mem _ hy)
        · rw [List.append_assoc]
          exact hbefore
  · rintro ⟨hp,
      ⟨hmember, hfirst⟩ | ⟨before, a, after, hchain, hnone, hmember, hbefore⟩⟩
    · refine ⟨[], p, t.inheritanceChain p none, rfl, ?_, hmember, ?_⟩
      · intro y hy
        obtain rfl := List.mem_singleton.mp hy
        exact hp
      · rw [List.append_nil]
        exact hfirst
    · refine ⟨p :: before, a, after, by rw [hchain, List.cons_append], ?_,
        hmember, ?_⟩
      · exact List.forall_mem_cons.mpr ⟨hp, hnone⟩
      · rw [List.append_assoc] at hbefore
        exact hbefore

/-- What hides a property behind some classes hides it behind more of them. -/
theorem HiddenBehind.mono {others : List ElementId} (h : t.HiddenBehind first b x)
    (hothers : ∀ a, (∀ y ∈ first, t.ComesBefore a y) →
      ∀ y ∈ others, t.ComesBefore a y) : t.HiddenBehind others b x := by
  obtain ⟨before, a, after, hchain, hnone, hmember, hbefore⟩ := h
  refine ⟨before, a, after, hchain, hnone, hmember, fun y hy => ?_⟩
  rcases List.mem_append.mp hy with hy | hy
  · exact hothers a (fun z hz => hbefore z (List.mem_append_left _ hz)) y hy
  · exact hbefore y (List.mem_append_right _ hy)

/-- Seen from the turn of `c`, a class that has not had its own does not hide
    anything itself. -/
theorem hiddenBehind_iff_of_pending (hacyclic : t.AcyclicInheritance)
    (h : t.parentClass? b = some p) (hp : ¬ t.ComesBefore p c) :
    t.HiddenBehind [c] b x ↔ t.child? p x .property = none
      ∧ t.HiddenBehind [c] p x := by
  rw [hiddenBehind_iff hacyclic h]
  refine and_congr_right fun _ =>
    ⟨?_, fun hh => Or.inr (hh.mono fun a ha y hy => ?_)⟩
  · rintro (⟨-, hfirst⟩ | hh)
    · exact absurd (hfirst c (List.mem_singleton_self c)) hp
    · exact hh.mono fun a ha y hy => ha y (List.mem_append_left _ hy)
  · have hac := ha c (List.mem_singleton_self c)
    rcases List.mem_cons.mp hy with rfl | hy
    · exact hac
    · obtain rfl := List.mem_singleton.mp hy
      exact Nat.lt_of_lt_of_le hac (Nat.le_of_not_lt hp)

/-- Seen from the turn of `c`, a class that had its own hides what it has, and
    what was hidden from it. -/
theorem hiddenBehind_iff_of_done (hacyclic : t.AcyclicInheritance)
    (h : t.parentClass? b = some p) (hp : t.ComesBefore p c) :
    t.HiddenBehind [c] b x ↔ t.child? p x .property = none
      ∧ (t.hasMember p x = true ∨ t.Hidden p x) := by
  rw [hiddenBehind_iff hacyclic h]
  refine and_congr_right fun _ => or_congr ?_ ⟨fun hh => ?_, fun hh => ?_⟩
  · refine and_iff_left_of_imp fun _ y hy => ?_
    obtain rfl := List.mem_singleton.mp hy
    exact hp
  · exact hh.mono fun a ha y hy => ha y (List.mem_append_right _ hy)
  · refine HiddenBehind.mono hh fun a ha y hy => ?_
    have hap := ha p (List.mem_singleton_self p)
    rcases List.mem_cons.mp hy with rfl | hy
    · exact Nat.lt_trans hap hp
    · obtain rfl := List.mem_singleton.mp hy
      exact hap

/-! ## What a class finds above it -/

/-- Element `d` of tree `s` is a property like `p` of `t`: of its name and
    description, its purpose, its default and its name on the wire, and of its
    type, where that leads to nothing that is a property or is not there. -/
def Reproduces (t : Tree) (p : ElementId) (s : Tree) (d : ElementId) : Prop :=
  ∃ e e' content type, t.get? p = some e ∧ s.get? d = some e'
    ∧ e.content = .property content
    ∧ e'.name = e.name ∧ e'.description = e.description
    ∧ e'.content = .property { content with type := type }
    ∧ ((∀ r ∈ content.type.definitions, ∃ er, t.get? r = some er
      ∧ er.kind ≠ .property) → type = content.type)

/-- Nothing is found where the property is hidden, and otherwise one like the
    property that is wanted, if any is. -/
def Found (t s : Tree) (hidden : Prop) (wanted found : Option ElementId) : Prop :=
  (hidden → found = none)
    ∧ (¬ hidden → Option.Rel (Reproduces t · s ·) wanted found)

namespace Flattened

variable (h : Flattened t done s)

include h

/-- Classes stay classes. -/
theorem isSome_class?_eq (x : ElementId) :
    (s.class? x).isSome = (t.class? x).isSome := by
  rw [Bool.eq_iff_iff, isSome_class?_iff, isSome_class?_iff]
  rcases Nat.lt_or_ge x.index t.size with hx | hx
  · rw [h.kind?_old hx]
  · refine iff_of_false (fun hk => ?_) (fun hk => ?_)
    · obtain ⟨e, he, hkind⟩ := kind?_eq_some_iff.mp hk
      rw [h.kind?_new x e hx he] at hkind
      cases hkind
    · obtain ⟨e, he, -⟩ := kind?_eq_some_iff.mp hk
      exact Nat.not_lt.mpr hx (index_lt_of_get? he)

/-- What has not had its turn inherits from what it inherited from. -/
theorem parentClass?_pending (hb : b.index < t.size) (hnot : b ∉ done) :
    s.parentClass? b = t.parentClass? b :=
  parentClass?_congr (by rw [class?, class?, h.get?_pending hb hnot])
    h.isSome_class?_eq

/-- A link that is left was there before. -/
theorem parentClass?_of_parentClass? (hp : s.parentClass? b = some p) :
    t.parentClass? b = some p := by
  rcases Nat.lt_or_ge b.index t.size with hb | hb
  · by_cases hdone : b ∈ done
    · rw [h.flat b hdone] at hp
      cases hp
    · rwa [h.parentClass?_pending hb hdone] at hp
  · rw [h.parentClass?_new hb] at hp
    cases hp

/-- Flattening puts no class above another. -/
theorem acyclicInheritance (hacyclic : t.AcyclicInheritance) :
    s.AcyclicInheritance :=
  fun c hc => hacyclic c (Relation.TransGen.mono
    (fun _ _ hp => h.parentClass?_of_parentClass? hp) _ _ hc)

/-- Names and kinds of what was there are the same. -/
theorem isNamed_old (hb : b.index < t.size) (kind : NodeKind) :
    s.isNamed b x kind = t.isNamed b x kind := by
  rw [Bool.eq_iff_iff, isNamed_iff, isNamed_iff, h.kind?_old hb, h.name?_old hb]

/-- A property that a class had is found before what it gained. -/
theorem child?_eq (hwl : WellLinked t) {added : List ElementId}
    (hadded : GainsProperties t s b added) :
    s.child? b x .property
      = (t.child? b x .property).or (added.find? (s.isNamed · x .property)) := by
  have hsame : (t.children b).find? (s.isNamed · x .property)
      = (t.children b).find? (t.isNamed · x .property) := by
    exact List.find?_congr fun c hc =>
      h.isNamed_old (hwl.index_lt_of_mem_children hc) _
  rw [child?, hadded.children_eq, List.find?_append, hsame, child?]

/-- A property that was there is as it was. -/
theorem get?_property (hq : t.kind? q = some .property) : s.get? q = t.get? q := by
  obtain ⟨e, he, hkind⟩ := kind?_eq_some_iff.mp hq
  rw [he]
  refine (h.get?_old q e he).resolve_right ?_
  rintro ⟨-, hclass, -⟩
  rw [hkind] at hclass
  cases hclass

end Flattened

/-- Whatever leaves a copy alone leaves it a copy. -/
theorem Reproduces.of_get?_eq (h : Reproduces t p s d) (hd : s'.get? d = s.get? d) :
    Reproduces t p s' d := by
  obtain ⟨e, e', content, type, he, he', hcontent, hrest⟩ := h
  exact ⟨e, e', content, type, he, hd.trans he', hcontent, hrest⟩

/-- A copy is a property. -/
theorem Reproduces.kind? (h : Reproduces t p s d) : s.kind? d = some .property := by
  obtain ⟨e, e', content, type, -, he', -, -, -, hcontent', -⟩ := h
  rw [Tree.kind?, he']
  exact congrArg some (congrArg Content.kind hcontent')

/-- A property is like itself. -/
theorem reproduces_self (hq : t.kind? q = some .property) : Reproduces t q t q := by
  obtain ⟨e, he, hkind⟩ := kind?_eq_some_iff.mp hq
  obtain ⟨name, parent, children, description, content⟩ := e
  cases content with
  | property content =>
      exact ⟨_, _, content, content.type, he, he, rfl, rfl, rfl, rfl, fun _ => rfl⟩
  | _ => cases hkind

/-- A property that was there is like itself. -/
theorem Flattened.reproduces_self (h : Flattened t done s)
    (hq : t.kind? q = some .property) : Reproduces t q s q :=
  (Tree.reproduces_self hq).of_get?_eq (h.get?_property hq)

/-- What is found in the class itself is found. -/
theorem found_self (h : Flattened t done s) (hq : t.child? p x .property = some q)
    {hidden : Prop} (hnot : ¬ hidden) : Found t s hidden (some q) (some q) :=
  ⟨fun hh => absurd hh hnot, fun _ =>
    .some (h.reproduces_self (child?_spec hq).2.1)⟩

/-- A class that has not had its turn has the properties it had. -/
theorem Flattened.child?_pending (h : Flattened t done s) (hwl : WellLinked t)
    (hp : p.index < t.size) (hnot : p ∉ done) :
    s.child? p x .property = t.child? p x .property := by
  obtain ⟨added, hadded⟩ := h.gained p hp
  have hnil : added = [] := by
    have hchildren := hadded.children_eq
    rw [children, children, h.get?_pending hp hnot] at hchildren
    exact List.self_eq_append_right.mp hchildren
  rw [h.child?_eq hwl hadded, hnil, List.find?_nil, Option.or_none]

/-- What is still to have its turn has the members that it had. -/
theorem Flattened.hasMember_pending (h : Flattened t done s) (hwl : WellLinked t)
    (hp : p.index < t.size) (hnot : p ∉ done) :
    s.hasMember p x = t.hasMember p x := by
  have hchildren : s.children p = t.children p := by
    rw [children, children, h.get?_pending hp hnot]
  rw [Bool.eq_iff_iff, hasMember, hasMember, hchildren, List.any_eq_true,
    List.any_eq_true]
  refine exists_congr fun o => and_congr_right fun ho => ?_
  rw [h.name?_old (hwl.index_lt_of_mem_children ho)]

/-- What a class gained does not bear the name of a member that it had. -/
theorem GainsProperties.find?_eq_none (h : Flattened t done s) (hwl : WellLinked t)
    {added : List ElementId} (hadded : GainsProperties t s p added)
    (hmember : t.hasMember p x = true) :
    added.find? (s.isNamed · x .property) = none := by
  refine List.find?_eq_none.mpr fun d hd hnamed => ?_
  obtain ⟨o, ho, hname⟩ := List.any_eq_true.mp hmember
  refine hadded.apart_former d hd o ho ?_
  rw [(isNamed_iff.mp hnamed).2, h.name?_old (hwl.index_lt_of_mem_children ho),
    of_decide_eq_true hname]

/-- Of what a class gained there is one property of a name. -/
theorem GainsProperties.find?_eq_some {added : List ElementId}
    (hadded : GainsProperties t s p added) (hd : d ∈ added)
    (hname : s.name? d = some x) :
    added.find? (s.isNamed · x .property) = some d := by
  cases hfound : added.find? (s.isNamed · x .property) with
  | none =>
      exact absurd (isNamed_iff.mpr ⟨(hadded.new d hd).2, hname⟩)
        (List.find?_eq_none.mp hfound d hd)
  | some d' =>
      have hname' := (isNamed_iff.mp
        (List.find?_some (p := fun c => s.isNamed c x .property) hfound)).2
      by_contra hne
      have hne' : d' ≠ d := fun heq => hne (congrArg some heq)
      have : Std.Symm fun c d => s.name? c ≠ s.name? d := ⟨fun _ _ => Ne.symm⟩
      exact hadded.apart.forall (List.mem_of_find?_eq_some hfound) hd hne'
        (hname'.trans hname.symm)

/-- What is found is a member. -/
theorem hasMember_of_child? {kind : NodeKind} (h : t.child? p x kind = some q) :
    t.hasMember p x = true := by
  obtain ⟨hmem, -, hname⟩ := child?_spec h
  exact List.any_eq_true.mpr ⟨q, hmem, decide_eq_true hname⟩

/-- Without a member of the name nothing is found. -/
theorem child?_eq_none_of_hasMember {kind : NodeKind}
    (h : t.hasMember c x = false) : t.child? c x kind = none := by
  cases hchild : t.child? c x kind with
  | none => rfl
  | some q =>
      exact absurd (h.symm.trans (hasMember_of_child? hchild)) Bool.false_ne_true

/-- What a class that had its turn has: its own property, or the one that it
    found above. -/
theorem Flattened.found_of_done (h : Flattened t done s) (hwl : WellLinked t)
    (hp : p.index < t.size) (hdone : t.hasMember p x = false → Found t s
      (t.Hidden p x) (t.inheritedProperty? p x) (s.child? p x .property)) :
    Found t s
      (t.child? p x .property = none ∧ (t.hasMember p x = true ∨ t.Hidden p x))
      ((t.child? p x .property).or (t.inheritedProperty? p x))
        (s.child? p x .property) := by
  obtain ⟨added, hadded⟩ := h.gained p hp
  have hchild := h.child?_eq (x := x) hwl hadded
  cases hown : t.child? p x .property with
  | some q =>
      rw [hchild, hown, Option.some_or, Option.some_or]
      exact found_self h hown fun hh => by cases hh.1
  | none =>
      cases hmember : t.hasMember p x with
      | true =>
          rw [hchild, hown, Option.none_or, hadded.find?_eq_none h hwl hmember]
          exact ⟨fun _ => rfl, fun hh => absurd ⟨rfl, Or.inl rfl⟩ hh⟩
      | false =>
          obtain ⟨hhidden, hfound⟩ := hdone hmember
          rw [Option.none_or]
          refine ⟨fun hh => hhidden (hh.2.resolve_left Bool.false_ne_true),
            fun hh => hfound fun hh' => ?_⟩
          exact hh ⟨rfl, Or.inr hh'⟩

/-- What a class that has not had its turn finds above it, seen from the turn of
    `c`: the classes up to the first that had its turn are as they were, and
    that one has what it had and what it found itself. -/
theorem Flattened.found_of_pending (h : Flattened t done s) (hwl : WellLinked t)
    (hacyclic : t.AcyclicInheritance)
    (hturn : ∀ y, y.index < t.size → (y ∈ done ↔ t.ComesBefore y c))
    (hdone : ∀ p ∈ done, t.hasMember p x = false →
      Found t s (t.Hidden p x) (t.inheritedProperty? p x) (s.child? p x .property))
    (hb : b.index < t.size) (hnot : b ∉ done) :
    Found t s (t.HiddenBehind [c] b x) (t.inheritedProperty? b x)
      (s.inheritedProperty? b x) := by
  -- From each class the walk goes on to the one above, or ends there if that one
  -- had its turn.
  induction b using hacyclic.induction with
  | top b hp =>
      rw [inheritedProperty?_eq_none hp,
        inheritedProperty?_eq_none ((h.parentClass?_pending hb hnot).trans hp)]
      exact ⟨fun _ => rfl, fun _ => .none⟩
  | under b p hp ih =>
      have hlt := index_lt_of_class (parentClass?_eq_some hp).2.1
      rw [inheritedProperty?_of_parentClass? hacyclic hp,
        inheritedProperty?_of_parentClass? (h.acyclicInheritance hacyclic)
        ((h.parentClass?_pending hb hnot).trans hp)]
      by_cases hpd : p ∈ done
      · rw [hiddenBehind_iff_of_done hacyclic hp ((hturn p hlt).mp hpd),
          inheritedProperty?_eq_none (h.flat p hpd), Option.or_none]
        exact h.found_of_done hwl hlt (hdone p hpd)
      · rw [hiddenBehind_iff_of_pending hacyclic hp fun hpc =>
          hpd ((hturn p hlt).mpr hpc), h.child?_pending hwl hlt hpd]
        cases hown : t.child? p x .property with
        | some q => exact found_self h hown fun hh => by cases hh.1
        | none =>
            obtain ⟨hhidden, hfound⟩ := ih hlt hpd
            rw [Option.none_or, Option.none_or]
            exact ⟨fun hh => hhidden hh.2, fun hh =>
              hfound fun hh' => hh ⟨rfl, hh'⟩⟩

/-! ## What a class is given -/

section inherited

variable {copies : List ElementId} (h : Inherited s id copies s')

include h

/-- A copy bears the name of its source. -/
theorem Inherited.name?_image
    (hq : (q, d) ∈ (s.inheritedProperties id).zip copies) :
    s'.name? d = s.name? q := by
  obtain ⟨-, e, he, hcopy⟩ := h.image _ hq
  have hframe := congrArg (·.2.1) (Copied.frame_copiedElement q (redirect q d) q e)
  rw [name?, name?, hcopy, he]
  exact congrArg some hframe

/-- A class is given, under a name that it does not bear, the copy of what it
    finds above it. -/
theorem Inherited.child?_self (hwl : WellLinked s) {e : Element}
    (he : s.get? id = some e) (hmember : s.hasMember id x = false) :
    Option.Rel (fun q d => (q, d) ∈ (s.inheritedProperties id).zip copies)
      (s.inheritedProperty? id x)
      (s'.child? id x .property) := by
  have hchildren : s'.children id = s.children id ++ copies := by
    rw [children, h.get?_self e he, children, he]
    rfl
  have hformer : (s.children id).find? (s'.isNamed · x .property) = none := by
    refine List.find?_eq_none.mpr fun o ho hnamed => ?_
    have hname := (isNamed_iff.mp hnamed).2
    rw [h.name?_old (hwl.index_lt_of_mem_children ho)] at hname
    exact Bool.false_ne_true
      (hmember.symm.trans (List.any_eq_true.mpr ⟨o, ho, decide_eq_true hname⟩))
  rw [child?, hchildren, List.find?_append, hformer, Option.none_or]
  -- A copy of the name is that of what is nearest above.
  have hsource : ∀ {q d}, (q, d) ∈ (s.inheritedProperties id).zip copies →
      s'.isNamed d x .property = true → s.inheritedProperty? id x = some q := by
    intro q d hq hnamed
    have hname := (h.name?_image hq).symm.trans (isNamed_iff.mp hnamed).2
    exact (mem_inheritedProperties_iff.mp ⟨(List.of_mem_zip hq).1, hname⟩).2
  cases hfound : copies.find? (s'.isNamed · x .property) with
  | some d =>
      obtain ⟨q, -, hq⟩ :=
        exists_mem_zip h.length_eq (List.mem_of_find?_eq_some hfound)
      rw [hsource hq
        (List.find?_some (p := fun c => s'.isNamed c x .property) hfound)]
      exact .some hq
  | none =>
      cases hwanted : s.inheritedProperty? id x with
      | none => exact .none
      | some q =>
          obtain ⟨hmem, hname⟩ := mem_inheritedProperties_iff.mpr ⟨hmember, hwanted⟩
          rw [← List.map_fst_zip (Nat.le_of_eq h.length_eq.symm)] at hmem
          obtain ⟨⟨_, d⟩, hq, rfl⟩ := List.mem_map.mp hmem
          have hd := (List.of_mem_zip hq).2
          exact absurd (isNamed_iff.mpr
            ⟨(h.kind?_copy hd).2, (h.name?_image hq).trans hname⟩)
            (List.find?_eq_none.mp hfound d hd)

/-- A copy of what is like a property is like the property. -/
theorem Reproduces.image {done : List ElementId} (hflat : Flattened t done s)
    (hp : Reproduces t p s q)
    (hq : (q, d) ∈ (s.inheritedProperties id).zip copies) :
    Reproduces t p s' d := by
  have hproperty := hp.kind?
  obtain ⟨ep, eq, content, type, hep, heq, hcontent, hname, hdescription, hcontent',
    htype⟩ := hp
  obtain ⟨-, e, he, hcopy⟩ := h.image _ hq
  obtain rfl := Option.some.inj (he.symm.trans heq)
  refine ⟨ep, _, content, type.rebind (redirect q d), hep, hcopy, hcontent, ?_, ?_,
    ?_, fun hbound => ?_⟩
  · exact hname
  · exact hdescription
  · show e.content.mapTypes _ = _
    rw [hcontent']
    rfl
  · -- What the type leads to was no property then, so it is not the property that
    -- is copied.
    rw [← htype hbound]
    refine TypeRef.rebind_eq_self type fun r hr => if_neg ?_
    rintro rfl
    obtain ⟨er, her, hkind⟩ := hbound r (htype hbound ▸ hr)
    rw [hflat.kind?_old (index_lt_of_get? her), Tree.kind?, her] at hproperty
    exact hkind (Option.some.inj hproperty)

/-- What is like a property is so after a class was given what it inherits. -/
theorem Inherited.reproduces {u : Tree} (hclass : s.kind? id = some .classDecl)
    (hlike : Reproduces s p u d) : Reproduces s' p u d := by
  obtain ⟨e, e', content, type, he, he', hcontent, hname, hdescription, hcontent',
    htype⟩ := hlike
  have hne : p ≠ id := by
    rintro rfl
    rw [kind?, he, Option.map_some, Element.kind, hcontent] at hclass
    cases hclass
  refine ⟨e, e', content, type, (h.get?_other p (index_lt_of_get? he) hne).trans he,
    he', hcontent, hname, hdescription, hcontent',
    fun hbound => htype fun r hr => ?_⟩
  obtain ⟨er, her, hkind⟩ := hbound r hr
  have hkind' : s'.kind? r = some er.kind := by rw [kind?, her, Option.map_some]
  rcases Nat.lt_or_ge r.index s.size with hr | hr
  · rw [h.kind?_old hr] at hkind'
    obtain ⟨er₀, her₀, heq⟩ := kind?_eq_some_iff.mp hkind'
    exact ⟨er₀, her₀, heq ▸ hkind⟩
  · -- What is new is a copy, and so a property.
    have hcopy := (h.kind?_copy (h.eq_copy r hr (by rw [her]; rfl))).2
    rw [hkind'] at hcopy
    exact absurd (Option.some.inj hcopy) hkind

end inherited

/-- Lookups in other classes find what they found. -/
theorem Inherited.child?_other {copies : List ElementId}
    (h : Inherited s id copies s') (hwl : WellLinked s) (hc : c.index < s.size)
    (hne : c ≠ id) : s'.child? c x .property = s.child? c x .property := by
  have hchildren : s'.children c = s.children c := by
    rw [children, children, h.get?_other c hc hne]
  rw [child?, child?, hchildren]
  refine List.find?_congr fun o ho => ?_
  have hlt := hwl.index_lt_of_mem_children ho
  rw [Bool.eq_iff_iff, isNamed_iff, isNamed_iff, h.kind?_old hlt, h.name?_old hlt]

/-- What was found is still like what was wanted if it has not changed. -/
theorem Found.of_get?_eq {hidden : Prop} {wanted found : Option ElementId}
    (h : Found t s hidden wanted found)
    (hsame : ∀ d, found = some d → s'.get? d = s.get? d) :
    Found t s' hidden wanted found := by
  refine ⟨h.1, fun hh => ?_⟩
  cases h.2 hh with
  | none => exact .none
  | some hlike => exact .some (hlike.of_get?_eq (hsame _ rfl))

/-- The copy of what was found is like what was wanted. -/
theorem Found.image {hidden : Prop} {wanted found given : Option ElementId}
    {copies done : List ElementId} (h : Found t s hidden wanted found)
    (hflat : Flattened t done s) (hinherited : Inherited s id copies s')
    (hgiven : Option.Rel (fun q d => (q, d) ∈ (s.inheritedProperties id).zip copies)
      found given) : Found t s' hidden wanted given := by
  cases hgiven with
  | none =>
      refine ⟨fun _ => rfl, fun hh => ?_⟩
      cases h.2 hh with
      | none => exact .none
  | some hq =>
      refine ⟨fun hh => absurd (h.1 hh) (Option.some_ne_none _), fun hh => ?_⟩
      cases h.2 hh with
      | some hlike => exact .some (hlike.image hinherited hflat hq)

/-! ## All classes in turn -/

/-- Tree `s` is what is left of `t` after the elements `done` had their turn,
    and each of them has found, under the names that it did not bear, what is
    nearest above it and not hidden. -/
structure Supplied (t : Tree) (done : List ElementId) (s : Tree) :
    Prop extends Flattened t done s where
  found : ∀ c ∈ done, ∀ x, t.hasMember c x = false →
    Found t s (t.Hidden c x) (t.inheritedProperty? c x) (s.child? c x .property)

/-- One turn. -/
theorem Supplied.step (h : Supplied t done s) (hwl : WellLinked t)
    (hacyclic : t.AcyclicInheritance) (hid : id.index < t.size) (hnot : id ∉ done)
    (hturn : ∀ y, y.index < t.size → (y ∈ done ↔ t.ComesBefore y id))
    (hvisit : (Edit.flattenClass id).run s = .ok () s') :
    Supplied t (done ++ [id]) s' := by
  refine { h.toFlattened.step hwl hid hnot hvisit
    with found := fun c hc x hmember => ?_ }
  have hflat := h.toFlattened
  obtain ⟨e, he⟩ := Option.isSome_iff_exists.mp ((get?_isSome_iff t id).mpr hid)
  have hes : s.get? id = some e := (hflat.get?_pending hid hnot).trans he
  rcases cases_of_flattenClass h.wellLinked hvisit
    with ⟨hnone, rfl⟩ | ⟨hkind, copies, hinherited⟩
  · rcases List.mem_append.mp hc with hc | hc
    · exact h.found c hc x hmember
    · obtain rfl := List.mem_singleton.mp hc
      rw [hflat.child?_pending hwl hid hnot, child?_eq_none_of_hasMember hmember,
        inheritedProperty?_eq_none
        ((hflat.parentClass?_pending hid hnot).symm.trans hnone)]
      exact ⟨fun _ => rfl, fun _ => .none⟩
  · rcases List.mem_append.mp hc with hc | hc
    · have hne : c ≠ id := fun heq => hnot (heq ▸ hc)
      rw [hinherited.child?_other h.wellLinked
        (Nat.lt_of_lt_of_le (h.index_lt c hc) h.size_le) hne]
      refine (h.found c hc x hmember).of_get?_eq fun d hd => ?_
      obtain ⟨-, hdkind, -⟩ := child?_spec hd
      obtain ⟨ed, hed, -⟩ := kind?_eq_some_iff.mp hdkind
      refine hinherited.get?_other d (index_lt_of_get? hed) ?_
      rintro rfl
      rw [hkind] at hdkind
      cases hdkind
    · obtain rfl := List.mem_singleton.mp hc
      rw [← hflat.hasMember_pending hwl hid hnot] at hmember
      exact (hflat.found_of_pending hwl hacyclic hturn (fun p hp => h.found p hp x)
        hid hnot).image hflat hinherited
        (hinherited.child?_self h.wellLinked hes hmember)

/-- In the traversal, what had its turn before an element is what comes before
    it. -/
theorem comesBefore_iff {rest : List ElementId}
    (hitems : t.descendants t.root = done ++ id :: rest) (hnot : id ∉ done) :
    t.ComesBefore a id ↔ a ∈ done := by
  have hid : (t.descendants t.root).idxOf id = done.length := by
    rw [hitems, List.idxOf_append_of_notMem hnot, List.idxOf_cons_self,
      Nat.add_zero]
  rw [ComesBefore, hid, hitems]
  constructor
  · intro hlt
    by_contra ha
    rw [List.idxOf_append_of_notMem ha] at hlt
    exact Nat.not_lt.mpr (Nat.le_add_right _ _) hlt
  · intro ha
    rw [List.idxOf_append_of_mem ha]
    exact List.idxOf_lt_length_of_mem ha

/-- The whole traversal. -/
theorem supplied_of_run (hwl : WellLinked t) (hacyclic : t.AcyclicInheritance)
    (hrun : Edit.flattenInheritance.run t = .ok () s) :
    Supplied t (t.descendants t.root) s :=
  flattenInheritance_induction hwl (fun _ _ h => h.toFlattened)
    (fun _ _ _ _ _ hitems hid hnot h hvisit =>
      h.step hwl hacyclic hid hnot
        (fun _ _ => (comesBefore_iff hitems hnot).symm) hvisit)
    { flattened_nil hwl with found := nofun } hrun

/-- From `t` to `s` class `c` has been given copies, the properties `added`, of
    what is nearest above it in `t`. They come after its own, which are what
    they were; each is of a property under a name that no member of the class
    bore, and such a property is copied unless it is hidden. -/
structure TakesOver (t s : Tree) (c : ElementId) (added : List ElementId) : Prop
    extends GainsProperties t s c added where
  properties_eq : s.childrenOfKind c .property
    = t.childrenOfKind c .property ++ added
  get?_own : ∀ q ∈ t.childrenOfKind c .property, s.get? q = t.get? q
  source : ∀ d ∈ added, ∃ x p, t.hasMember c x = false
    ∧ t.inheritedProperty? c x = some p ∧ Reproduces t p s d
  copy_iff : ∀ x p, t.hasMember c x = false → t.inheritedProperty? c x = some p →
    ((∃ d ∈ added, Reproduces t p s d) ↔ ¬ t.Hidden c x)

/-- What is nearest above under a name is a property of that name. -/
theorem isNamed_of_inheritedProperty? (h : t.inheritedProperty? c x = some p) :
    t.isNamed p x .property = true := by
  obtain ⟨a, -, hchild⟩ := List.exists_of_findSome?_eq_some h
  exact isNamed_iff.mpr (child?_spec hchild).2

/-- A copy bears the name that its source bore at first. -/
theorem Reproduces.name? (h : Reproduces t p s d) : s.name? d = t.name? p := by
  obtain ⟨e, e', content, type, he, he', -, hname, -⟩ := h
  rw [Tree.name?, Tree.name?, he, he']
  exact congrArg some hname

/-- A class that had its turn has been given its copies. -/
theorem Supplied.takesOver (h : Supplied t done s) (hwl : WellLinked t)
    (hc : c ∈ done) {added : List ElementId}
    (hadded : GainsProperties t s c added) : TakesOver t s c added := by
  have hflat := h.toFlattened
  -- Under a name that no member bore, what the class has is what it gained.
  have hchild : ∀ {x}, t.hasMember c x = false →
      s.child? c x .property = added.find? (s.isNamed · x .property) := by
    intro x hmember
    rw [hflat.child?_eq hwl hadded, child?_eq_none_of_hasMember hmember,
      Option.none_or]
  refine
    { hadded with
      properties_eq := ?_
      get?_own := fun q hq => ?_
      source := fun d hd => ?_
      copy_iff := fun x p hmember hp => ⟨?_, fun hnot => ?_⟩ }
  · rw [childrenOfKind, hadded.children_eq, List.filter_append, childrenOfKind]
    congr 1
    · refine List.filter_congr fun o ho => ?_
      rw [hflat.kind?_old (hwl.index_lt_of_mem_children ho)]
    · exact List.filter_eq_self.mpr fun d hd => decide_eq_true (hadded.new d hd).2
  · exact hflat.get?_property (of_decide_eq_true (List.mem_filter.mp hq).2)
  · obtain ⟨e, he, -⟩ := kind?_eq_some_iff.mp (hadded.new d hd).2
    have hfind := hadded.find?_eq_some hd (congrArg (Option.map Element.name) he)
    have hmember : t.hasMember c e.name = false := by
      rw [← Bool.not_eq_true]
      intro hmember
      rw [hadded.find?_eq_none hflat hwl hmember] at hfind
      cases hfind
    obtain ⟨hhidden, hfound⟩ := h.found c hc e.name hmember
    rw [hchild hmember, hfind] at hhidden hfound
    have hlike := hfound fun hh => Option.some_ne_none d (hhidden hh)
    generalize hwanted : t.inheritedProperty? c e.name = wanted at hlike
    cases hlike with
    | some hlike => exact ⟨e.name, _, hmember, hwanted, hlike⟩
  · rintro ⟨d, hd, hlike⟩ hhidden
    have hname :=
      hlike.name?.trans (isNamed_iff.mp (isNamed_of_inheritedProperty? hp)).2
    have hnone := (h.found c hc x hmember).1 hhidden
    rw [hchild hmember, hadded.find?_eq_some hd hname] at hnone
    cases hnone
  · have hlike := (h.found c hc x hmember).2 hnot
    rw [hp, hchild hmember] at hlike
    generalize hfound : added.find? (s.isNamed · x .property) = found at hlike
    cases hlike with
    | some hlike => exact ⟨_, List.mem_of_find?_eq_some hfound, hlike⟩

/-! ## Another order -/

/-- Tree `t'` is `t` in another order: every element holds what it held, the
    properties in the order they had. -/
structure Reordered (t t' : Tree) : Prop where
  root_eq : t'.root = t.root
  get?_eq : ∀ x, t'.get? x = (t.get? x).map fun e =>
    { e with children := t'.children x }
  children_perm : ∀ x, (t'.children x).Perm (t.children x)
  properties_eq : ∀ x, t'.childrenOfKind x .property = t.childrenOfKind x .property

namespace Reordered

variable {t t' : Tree} (h : Reordered t t')

include h

theorem name?_eq (x : ElementId) : t'.name? x = t.name? x := by
  rw [name?, h.get?_eq, Option.map_map]
  rfl

/-- Reordering keeps kinds. -/
theorem kind?_eq (x : ElementId) : t'.kind? x = t.kind? x := by
  rw [kind?, h.get?_eq, Option.map_map]
  rfl

theorem parent?_eq (x : ElementId) : t'.parent? x = t.parent? x := by
  rw [parent?, parent?, h.get?_eq]
  cases t.get? x <;> rfl

theorem parentClass?_eq (x : ElementId) : t'.parentClass? x = t.parentClass? x := by
  have hclass : ∀ y, t'.class? y = t.class? y := by
    intro y
    rw [class?, class?, h.get?_eq]
    cases t.get? y <;> rfl
  exact parentClass?_congr (hclass x) fun p => congrArg Option.isSome (hclass p)

theorem size_eq : t'.size = t.size :=
  size_eq_of_isSome_get? fun x => by rw [h.get?_eq, Option.isSome_map]

theorem symm : Reordered t' t where
  root_eq := h.root_eq.symm
  get?_eq x := by
    rw [h.get?_eq, Option.map_map, children]
    cases t.get? x <;> rfl
  children_perm x := (h.children_perm x).symm
  properties_eq x := (h.properties_eq x).symm

theorem attached (hc : Attached t c) : Attached t' c := by
  rw [Attached, h.root_eq]
  refine hc.imp_right fun habove => ?_
  clear hc
  induction habove with
  | parent hp => exact .parent ((h.parent?_eq _).trans hp)
  | above hp _ ih => exact .above ((h.parent?_eq _).trans hp) ih

theorem hasMember_eq (c : ElementId) (x : String) :
    t'.hasMember c x = t.hasMember c x := by
  rw [Bool.eq_iff_iff, hasMember, hasMember, List.any_eq_true, List.any_eq_true]
  refine exists_congr fun o => and_congr (h.children_perm c).mem_iff ?_
  rw [h.name?_eq]

theorem acyclicInheritance (hacyclic : t.AcyclicInheritance) :
    t'.AcyclicInheritance := by
  refine fun c hc => hacyclic c (Relation.TransGen.mono (fun a b hp => ?_) _ _ hc)
  rwa [h.parentClass?_eq] at hp

/-- It keeps what is nearest above, since the order of properties is the
    same. -/
theorem inheritedProperty?_eq (c : ElementId) (x : String) :
    t'.inheritedProperty? c x = t.inheritedProperty? c x := by
  rw [inheritedProperty?, inheritanceChain, h.size_eq,
    inheritanceWithin_congr h.parentClass?_eq]
  refine congrArg (List.findSome? · _) (funext fun a => ?_)
  rw [← find?_childrenOfKind, ← find?_childrenOfKind, h.properties_eq]
  simp only [h.name?_eq]

theorem reproduces (hlike : Reproduces t p s d) : Reproduces t' p s d := by
  obtain ⟨e, e', content, type, he, he', hcontent, hname, hdescription, hcontent',
    htype⟩ := hlike
  refine ⟨{ e with children := t'.children p }, e', content, type, ?_, he',
    hcontent, hname, hdescription, hcontent', fun hbound => htype fun r hr => ?_⟩
  · rw [h.get?_eq, he]
    rfl
  · obtain ⟨er, her, hkind⟩ := hbound r hr
    refine ⟨{ er with children := t.children r }, ?_, hkind⟩
    rw [h.symm.get?_eq, her]
    rfl

end Reordered

/-- Without circles of inheritance the pass succeeds, and every attached class
    has been given what is nearest above it. -/
theorem exists_takesOver (hwl : WellLinked t) (hacyclic : t.AcyclicInheritance) :
    ∃ s, Edit.flattenInheritance.run t = .ok () s
      ∧ ∀ c, Attached t c → t.kind? c = some .classDecl →
        ∃ added, TakesOver t s c added := by
  obtain ⟨_, s, hrun, -⟩ := succeeds_flattenInheritance hwl
  have h := supplied_of_run hwl hacyclic hrun
  refine ⟨s, hrun, fun c hc hkind => ?_⟩
  have hbelow : Ancestor t t.root c := by
    refine hc.resolve_left ?_
    rintro rfl
    rw [hwl.kind?_root] at hkind
    cases hkind
  have hdone := hwl.mem_descendants_iff.mpr hbelow
  obtain ⟨added, hadded⟩ := h.gained c (h.index_lt c hdone)
  exact ⟨added, h.takesOver hwl hdone hadded⟩

/-- Flattening gives a class, after its own properties, one copy of the nearest
    property above it under every name that none of its members bears, exactly
    as long as nothing hides it. So in two orders the class is given the same
    exactly where the same is hidden from it. -/
theorem run_flattenInheritance_exact (hwf : WellFormed t)
    (hacyclic : t.AcyclicInheritance) :
    ∃ s, Edit.flattenInheritance.run t = .ok () s
      ∧ (∀ c, Attached t c → t.kind? c = some .classDecl →
        ∃ added, TakesOver t s c added)
      ∧ ∀ t', WellFormed t' → Reordered t t' →
        ∃ s', Edit.flattenInheritance.run t' = .ok () s'
        ∧ ∀ c, Attached t c → t.kind? c = some .classDecl →
          ∃ added, TakesOver t' s' c added
          ∧ ∀ former, TakesOver t s c former → ∀ x p, t.hasMember c x = false →
            t.inheritedProperty? c x = some p →
            (((∃ d ∈ former, Reproduces t p s d) ↔ ∃ d ∈ added, Reproduces t p s' d)
              ↔ (t.Hidden c x ↔ t'.Hidden c x)) := by
  obtain ⟨s, hrun, hgiven⟩ := exists_takesOver hwf.toWellLinked hacyclic
  refine ⟨s, hrun, hgiven, fun t' hwf' h => ?_⟩
  obtain ⟨s', hrun', hgiven'⟩ :=
    exists_takesOver hwf'.toWellLinked (h.acyclicInheritance hacyclic)
  refine ⟨s', hrun', fun c hc hkind => ?_⟩
  obtain ⟨added, hadded⟩ := hgiven' c (h.attached hc) ((h.kind?_eq c).trans hkind)
  refine ⟨added, hadded, fun former hformer x p hmember hp => ?_⟩
  have hsame : (∃ d ∈ added, Reproduces t p s' d) ↔
      ∃ d ∈ added, Reproduces t' p s' d :=
    exists_congr fun d => and_congr_right fun _ => ⟨h.reproduces, h.symm.reproduces⟩
  rw [hformer.copy_iff x p hmember hp, hsame, hadded.copy_iff x p
    ((h.hasMember_eq c x).trans hmember) ((h.inheritedProperty?_eq c x).trans hp),
    not_iff_not]

/-- Trees can be compared place by place. -/
theorem reordered_of_lt {t t' : Tree} (hroot : t'.root = t.root)
    (hsize : t'.size = t.size) (h : ∀ i < t.size, t'.get? ⟨i⟩
      = (t.get? ⟨i⟩).map (fun e => { e with children := t'.children ⟨i⟩ })
      ∧ (t'.children ⟨i⟩).Perm (t.children ⟨i⟩)
      ∧ t'.childrenOfKind ⟨i⟩ .property = t.childrenOfKind ⟨i⟩ .property) :
    Reordered t t' := by
  have hnone : ∀ {s : Tree}, s.size = t.size → ∀ x : ElementId, ¬ x.index < t.size →
      s.get? x = none := by
    intro s hs x hx
    rwa [← Option.not_isSome_iff_eq_none, get?_isSome_iff, hs]
  have hall : ∀ x, t'.get? x = (t.get? x).map
    (fun e => { e with children := t'.children x })
      ∧ (t'.children x).Perm (t.children x)
      ∧ t'.childrenOfKind x .property = t.childrenOfKind x .property := by
    intro x
    by_cases hx : x.index < t.size
    · exact h x.index hx
    · rw [childrenOfKind, childrenOfKind, children, children, hnone hsize x hx,
        hnone rfl x hx]
      exact ⟨rfl, .nil, rfl⟩
  exact
    { root_eq := hroot
      get?_eq := fun x => (hall x).1
      children_perm := fun x => (hall x).2.1
      properties_eq := fun x => (hall x).2.2 }

/-- A class hides nothing if what it has of a name is a property. -/
theorem not_hidden (h : ∀ a ∈ t.inheritanceChain c none, t.hasMember a x = true →
      (t.child? a x .property).isSome) : ¬ t.Hidden c x := by
  rintro ⟨before, a, after, hchain, hnone, hmember, -⟩
  have hsome := h a (hchain ▸ List.mem_append_right _ List.mem_cons_self) hmember
  rw [hnone a (List.mem_append_right _ (List.mem_singleton_self a))] at hsome
  cases hsome

/-- A class with a property `id`, a class below it with a method, and a class
    below that, held in some order. -/
def threeClasses (method : String) (order : List ElementId) : Tree :=
  Operation.runAll
    [.create (.classDecl "Base" .model),
      .addNew .properties ⟨1⟩ (.property "id" .custom (.external "string")),
      .create (.inheriting (.classDecl "Middle" .model) (.declared "Base" ⟨1⟩)),
      .addNew .methods ⟨3⟩ (.method method .custom (.external "string")),
      .create (.inheriting (.classDecl "Leaf" .model) (.declared "Middle" ⟨3⟩)),
      .add .classes ⟨0⟩ order]
    initial

theorem wellFormed_threeClasses (method : String) (order : List ElementId) :
    WellFormed (threeClasses method order) :=
  (Operation.fullyNamed_runAll _ fullyNamed_initial).wellFormed

/-- A method of another name hides nothing, so the class at the end gets its
    copy in either order. -/
theorem run_flattenInheritance_exact_threeClasses :
    Reordered (threeClasses "load" [⟨1⟩, ⟨3⟩, ⟨5⟩])
      (threeClasses "load" [⟨5⟩, ⟨3⟩, ⟨1⟩])
      ∧ ∃ s s',
        Edit.flattenInheritance.run (threeClasses "load" [⟨1⟩, ⟨3⟩, ⟨5⟩]) = .ok () s
        ∧ Edit.flattenInheritance.run (threeClasses "load" [⟨5⟩, ⟨3⟩, ⟨1⟩])
          = .ok () s'
        ∧ ∃ former added, TakesOver (threeClasses "load" [⟨1⟩, ⟨3⟩, ⟨5⟩]) s
          ⟨5⟩ former
          ∧ (∃ d ∈ former, Reproduces (threeClasses "load" [⟨1⟩, ⟨3⟩, ⟨5⟩]) ⟨2⟩ s d)
          ∧ TakesOver (threeClasses "load" [⟨5⟩, ⟨3⟩, ⟨1⟩]) s' ⟨5⟩ added
          ∧ ∃ d ∈ added, Reproduces (threeClasses "load" [⟨1⟩, ⟨3⟩, ⟨5⟩]) ⟨2⟩
            s' d := by
  have horder : Reordered (threeClasses "load" [⟨1⟩, ⟨3⟩, ⟨5⟩])
      (threeClasses "load" [⟨5⟩, ⟨3⟩, ⟨1⟩]) :=
    reordered_of_lt (by decide +kernel) (by decide +kernel) (by decide +kernel)
  obtain ⟨s, hrun, hgiven, hall⟩ := run_flattenInheritance_exact
    (wellFormed_threeClasses "load" [⟨1⟩, ⟨3⟩, ⟨5⟩])
      (acyclicInheritance_of_lt (by decide +kernel))
  obtain ⟨s', hrun', hgiven'⟩ :=
    hall _ (wellFormed_threeClasses "load" [⟨5⟩, ⟨3⟩, ⟨1⟩]) horder
  have hattached : Attached (threeClasses "load" [⟨1⟩, ⟨3⟩, ⟨5⟩]) ⟨5⟩ :=
    (wellFormed_threeClasses _ _).toWellLinked.isAttached_iff.mp (by decide +kernel)
  obtain ⟨former, hformer⟩ := hgiven ⟨5⟩ hattached (by decide +kernel)
  obtain ⟨added, hadded, hsame⟩ := hgiven' ⟨5⟩ hattached (by decide +kernel)
  have hiff := hsame former hformer "id" ⟨2⟩ (by decide +kernel) (by decide +kernel)
  have hfree : ¬ (threeClasses "load" [⟨1⟩, ⟨3⟩, ⟨5⟩]).Hidden ⟨5⟩ "id" :=
    not_hidden (by decide +kernel)
  have hfree' : ¬ (threeClasses "load" [⟨5⟩, ⟨3⟩, ⟨1⟩]).Hidden ⟨5⟩ "id" :=
    not_hidden (by decide +kernel)
  have hcopy :=
    (hformer.copy_iff "id" ⟨2⟩ (by decide +kernel) (by decide +kernel)).mpr hfree
  exact ⟨horder, s, s', hrun, hrun', former, added, hformer, hcopy, hadded,
    (hiff.mpr (iff_of_false hfree hfree')).mp hcopy⟩

/-- A method of the name hides the property from the class below it where it has
    its turn first: then the class ends up without a property that is above it,
    and in another order it gets a copy. -/
theorem exists_hidden_by_order :
    ∃ t t' s s', WellFormed t ∧ t.AcyclicInheritance ∧ WellFormed t'
      ∧ Reordered t t'
      ∧ Edit.flattenInheritance.run t = .ok () s
      ∧ Edit.flattenInheritance.run t' = .ok () s'
      ∧ ∃ c x, Attached t c ∧ t.kind? c = some .classDecl ∧ t.hasMember c x = false
        ∧ (t.inheritedProperty? c x).isSome ∧ s.hasMember c x = false
        ∧ s'.hasMember c x = true := by
  have hwf := wellFormed_threeClasses "id" [⟨1⟩, ⟨3⟩, ⟨5⟩]
  have hwf' := wellFormed_threeClasses "id" [⟨5⟩, ⟨3⟩, ⟨1⟩]
  obtain ⟨_, s, hrun, -⟩ := succeeds_flattenInheritance hwf.toWellLinked
  obtain ⟨_, s', hrun', -⟩ := succeeds_flattenInheritance hwf'.toWellLinked
  have hleft :
      (match Edit.flattenInheritance.run (threeClasses "id" [⟨1⟩, ⟨3⟩, ⟨5⟩]) with
      | .ok _ s => !s.hasMember ⟨5⟩ "id"
      | .error _ _ => false) = true := by decide +kernel
  have hright :
      (match Edit.flattenInheritance.run (threeClasses "id" [⟨5⟩, ⟨3⟩, ⟨1⟩]) with
      | .ok _ s => s.hasMember ⟨5⟩ "id"
      | .error _ _ => false) = true := by decide +kernel
  rw [hrun] at hleft
  rw [hrun'] at hright
  exact ⟨_, _, s, s', hwf, acyclicInheritance_of_lt (by decide +kernel), hwf',
    reordered_of_lt (by decide +kernel) (by decide +kernel) (by decide +kernel),
    hrun, hrun', ⟨5⟩, "id", hwf.toWellLinked.isAttached_iff.mp (by decide +kernel),
    by decide +kernel, by decide +kernel, by decide +kernel,
    Bool.not_eq_true' _ ▸ hleft, hright⟩

end Tree

end CodeModel
