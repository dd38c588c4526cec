import CodeModel.Proofs.WrappedUnions

/-!
# The alternatives of a wrapper

A wrapper has one property for each name that its alternatives give to
properties, and the first alternative of a name decides the type. Alternatives
of one name may be different all the same: declarations of one name in two
namespaces, or a type and its collection. Then all but the first have nothing
that stands for them.

* **`Represents`**: a wrapper has a property for an alternative.
* **`TypeRef.Agrees`**: one property does for two alternatives.
* **`UnionRepresented`**: a class stands for a union, by properties for the
  first alternatives of each name.

Main statements: `unionRepresented_of_wrapUnions`, an alternative is represented
exactly when it agrees with one that is the first of its name, and
`exists_unrepresented_of_wrapUnions`, some alternative is not.
-/

namespace CodeModel

open CodeModel.Tree

namespace TypeRef

/-- One type stands for both: they are unions of the same alternatives, or types
    of one name and target; and both are collections or neither is. -/
def Agrees (f m : TypeRef) : Prop :=
  f.isCollection = m.isCollection ∧ f.isUnion = m.isUnion
    ∧ if m.isUnion = true then f.members = m.members else f.name = m.name
    ∧ f.target = m.target

/-- A type agrees with itself. -/
theorem agrees_refl (m : TypeRef) : m.Agrees m := by
  refine ⟨rfl, rfl, ?_⟩
  split
  · rfl
  · exact ⟨rfl, rfl⟩

/-- The first alternative whose property would have a name. -/
def firstNamed? (members : List TypeRef) (name : String) : Option TypeRef :=
  members.find? fun m => m.propertyName = name

/-- What gets a property is the first of its name, which is not taken. -/
theorem mem_represented_iff {f : TypeRef} {taken : List String}
    {members : List TypeRef} :
    f ∈ represented taken members ↔
      f.propertyName ∉ taken ∧ firstNamed? members f.propertyName = some f := by
  induction members generalizing taken with
  | nil => simp [represented, firstNamed?]
  | cons m rest ih =>
      rw [represented, firstNamed?, List.find?_cons]
      by_cases hname : m.propertyName = f.propertyName
      · rw [decide_eq_true hname]
        dsimp only
        by_cases htaken : m.propertyName ∈ taken
        · rw [if_pos htaken, ih, ← hname]
          exact ⟨fun h => absurd htaken h.1, fun h => absurd htaken h.1⟩
        · rw [if_neg htaken, List.mem_cons, ih, ← hname]
          refine ⟨?_, fun h => Or.inl (Option.some.inj h.2).symm⟩
          rintro (rfl | h)
          · exact ⟨htaken, rfl⟩
          · exact absurd List.mem_cons_self h.1
      · rw [decide_eq_false hname]
        dsimp only
        have hne : f ≠ m := fun heq => hname (congrArg propertyName heq.symm)
        by_cases htaken : m.propertyName ∈ taken
        · rw [if_pos htaken, ih]
          rfl
        · rw [if_neg htaken, List.mem_cons, ih, List.mem_cons, not_or,
            or_iff_right hne, and_iff_right (Ne.symm hname)]
          rfl

/-- Made nullable, types are the same when they differ in being nullable at
    most. -/
theorem nullable_eq_iff {r s : TypeRef} :
    r.nullable = s.nullable ↔ r.name = s.name ∧ r.target = s.target
      ∧ r.isCollection = s.isCollection := by
  obtain ⟨name, target, isNullable, isCollection⟩ := r
  obtain ⟨name', target', isNullable', isCollection'⟩ := s
  simp [nullable]

end TypeRef

namespace Tree

variable {t t' : Tree} {placement : WrapperPlacement} {n : Nat}
  {x scope wrapper : ElementId} {w : Wrappers}
variable {u v f m r s : TypeRef} {properties : List (String × TypeRef)}
  {key : WrapperKey}

/-- The value of element `p` is an alternative, or for a union a reference to
    the wrapper that the table has for it, and may be absent. -/
def RepresentedBy (t : Tree) (w : Wrappers) (scope : ElementId) (m : TypeRef)
    (p : ElementId) : Prop :=
  ∃ r, StandsFor t w scope m r ∧ t.valueType? p = some r.nullable

/-- Class `wrapper` has a property for an alternative. -/
def Represents (t : Tree) (w : Wrappers) (scope wrapper : ElementId)
    (m : TypeRef) : Prop :=
  ∃ p ∈ t.childrenOfKind wrapper .property, RepresentedBy t w scope m p

/-- Element `p` is the property that is made for an alternative. -/
def PropertyFor (t : Tree) (w : Wrappers) (scope : ElementId) (f : TypeRef)
    (p : ElementId) : Prop :=
  t.name? p = some f.propertyName ∧ RepresentedBy t w scope f p

/-! ## The properties of a wrapper -/

/-- The properties of a wrapper are those that it was made with. -/
theorem WrapperAt.forall₂_properties (h : WrapperAt t n key x properties) :
    List.Forall₂
      (fun q p => t.name? p = some q.1 ∧ t.valueType? p = some q.2) properties
      (t.childrenOfKind x .property) := by
  obtain ⟨name, ids, methods, hx, hids, hmethods⟩ := h.exists_class
  have hproperties : ids.filter
      (fun c => decide (t.kind? c = some .property)) = ids := by
    refine List.filter_eq_self.mpr fun i hi => decide_eq_true ?_
    obtain ⟨q, -, -, hget⟩ := exists_rel_of_mem hids hi
    exact kind?_eq_some_iff.mpr ⟨_, hget, rfl⟩
  have hnone : methods.filter (fun c => decide (t.kind? c = some .property)) = [] :=
      by
    refine List.filter_eq_nil_iff.mpr fun c hc => ?_
    rw [(hmethods c hc).2]
    decide
  have hchildren : t.childrenOfKind x .property = ids := by
    have hheld : t.children x = ids ++ methods := by
      rw [children, hx]
      rfl
    rw [childrenOfKind, hheld, List.filter_append, hproperties, hnone,
      List.append_nil]
  rw [hchildren]
  refine hids.imp fun q p hq => ?_
  rw [name?, valueType?, hq.2]
  exact ⟨rfl, rfl⟩

/-- Two lists that agree with a third step by step agree. -/
theorem forall₂_trans {α β γ : Type} {R : α → β → Prop} {S : β → γ → Prop}
    {T : α → γ → Prop} (hRST : ∀ {a b c}, R a b → S b c → T a c) {as : List α}
    {bs : List β} {cs : List γ} (h : List.Forall₂ R as bs)
    (h' : List.Forall₂ S bs cs) : List.Forall₂ T as cs := by
  induction h generalizing cs with
  | nil =>
      cases h'
      exact .nil
  | cons hab _ ih =>
      cases h' with
      | cons hbc hrest => exact .cons (hRST hab hbc) (ih hrest)

/-- There is one property for each alternative that gets one, in their order. -/
theorem Standing.forall₂_propertyFor (h : Standing n t w)
    (hx : ((⟨scope, v.members⟩ : WrapperKey), wrapper) ∈ w) :
    List.Forall₂ (PropertyFor t w scope) (TypeRef.represented [] v.members)
      (t.childrenOfKind wrapper .property) := by
  obtain ⟨properties, hwrapper, hslots, -⟩ := h.exists_properties _ hx
  refine forall₂_trans ?_ hslots hwrapper.forall₂_properties
  rintro f ⟨name, type⟩ p ⟨rfl, r, hr, rfl⟩ ⟨hname, htype⟩
  exact ⟨hname, r, hr, htype⟩

/-! ## One property for two alternatives -/

/-- Alternatives that agree may have one property. -/
theorem StandsFor.of_agrees (hagrees : f.Agrees m) (hf : StandsFor t w scope f r) :
    ∃ s, StandsFor t w scope m s ∧ s.nullable = r.nullable := by
  obtain ⟨hcollection, hunion, hsame⟩ := hagrees
  cases hf with
  | itself hnot =>
      have hm : m.isUnion = false := hunion.symm.trans hnot
      rw [if_neg (by rw [hm]; decide)] at hsame
      exact ⟨m, .itself hm,
        TypeRef.nullable_eq_iff.mpr ⟨hsame.1.symm, hsame.2.symm, hcollection.symm⟩⟩
  | wrapper htrue hx hname =>
      have hm : m.isUnion = true := hunion.symm.trans htrue
      rw [if_pos hm] at hsame
      rw [hsame] at hx
      exact ⟨_, .wrapper hm hx hname,
        TypeRef.nullable_eq_iff.mpr ⟨rfl, rfl, hcollection.symm⟩⟩

/-- Alternatives that have one property agree. What was there before refers to
    no wrapper. -/
theorem Standing.agrees_of_nullable_eq (h : Standing n t w)
    (hf : StandsFor t w scope f r) (hm : StandsFor t w scope m s)
    (heq : r.nullable = s.nullable)
    (hfold : ∀ d, f.definition? = some d → d.index < n)
    (hmold : ∀ d, m.definition? = some d → d.index < n) : f.Agrees m := by
  obtain ⟨hname, htarget, hcollection⟩ := TypeRef.nullable_eq_iff.mp heq
  have hnew : ∀ {key x}, (key, x) ∈ w → ¬ x.index < n := fun hx =>
    Nat.not_lt.mpr (h.index_le hx)
  cases hf with
  | itself hfnot =>
      cases hm with
      | itself hmnot =>
          refine ⟨hcollection, hfnot.trans hmnot.symm, ?_⟩
          rw [if_neg (by rw [hmnot]; decide)]
          exact ⟨hname, htarget⟩
      | wrapper _ hx _ =>
          exact absurd (hfold _ (TypeRef.definition?_eq_some_iff.mpr htarget))
            (hnew hx)
  | wrapper hftrue hx _ =>
      cases hm with
      | itself _ =>
          exact absurd (hmold _ (TypeRef.definition?_eq_some_iff.mpr htarget.symm))
            (hnew hx)
      | wrapper hmtrue hy _ =>
          refine ⟨hcollection, hftrue.trans hmtrue.symm, ?_⟩
          rw [if_pos hmtrue]
          have hkeys := (h.eq_iff hx hy).mpr (TypeTarget.declared.inj htarget)
          exact congrArg WrapperKey.members hkeys

/-! ## What is represented -/

/-- What has a key in the table is found there. -/
theorem Standing.lookup_eq_some (h : Standing n t w) (hx : (key, x) ∈ w) :
    w.lookup key = some x := by
  cases hl : w.lookup key with
  | none =>
      have hne := List.lookup_eq_none_iff.mp hl _ hx
      simp at hne
  | some y =>
      have hy : (key, x).2 = (key, y).2 := (h.eq_iff hx (mem_of_lookup hl)).mp rfl
      exact congrArg some hy.symm

/-- The declarations that alternatives are bound to are in the tree. -/
def BoundIn (t : Tree) (members : List TypeRef) : Prop :=
  ∀ m ∈ members, ∀ d, m.definition? = some d → d.index < t.size

/-- In tree `t'` class `wrapper` stands for the union `v` of tree `t`, by
    properties for the first alternatives of each name, in their order. What
    agrees with one of them is represented. If all that is referred to was there
    before, nothing else is, and one property is for alternatives that agree. -/
structure UnionRepresented (t t' : Tree) (w : Wrappers) (scope : ElementId)
    (v : TypeRef) (wrapper : ElementId) : Prop where
  properties : List.Forall₂ (PropertyFor t' w scope)
    (TypeRef.represented [] v.members) (t'.childrenOfKind wrapper .property)
  of_agrees : ∀ m f, TypeRef.firstNamed? v.members f.propertyName = some f →
    f.Agrees m → Represents t' w scope wrapper m
  exists_agrees : BoundIn t v.members →
    ∀ m ∈ v.members, Represents t' w scope wrapper m →
    ∃ f, TypeRef.firstNamed? v.members f.propertyName = some f ∧ f.Agrees m
  agrees : BoundIn t v.members → ∀ m ∈ v.members, ∀ m' ∈ v.members, ∀ p,
    RepresentedBy t' w scope m p → RepresentedBy t' w scope m' p → m.Agrees m'

/-- Every wrapper of the table stands for the union of its key. -/
theorem Standing.unionRepresented (h : Standing t.size t' w)
    (hx : ((⟨scope, v.members⟩ : WrapperKey), wrapper) ∈ w) :
    UnionRepresented t t' w scope v wrapper := by
  have hproperties := h.forall₂_propertyFor hx
  have hagrees : BoundIn t v.members → ∀ m ∈ v.members, ∀ m' ∈ v.members, ∀ p,
      RepresentedBy t' w scope m p → RepresentedBy t' w scope m' p →
        m.Agrees m' := by
    rintro hold m hm m' hm' p ⟨r, hr, hvalue⟩ ⟨s, hs, hvalue'⟩
    exact h.agrees_of_nullable_eq hr hs
      (Option.some.inj (hvalue.symm.trans hvalue')) (hold m hm) (hold m' hm')
  exact
    { properties := hproperties
      of_agrees := fun m f hf hfm => by
        have hmem : f ∈ TypeRef.represented [] v.members :=
          TypeRef.mem_represented_iff.mpr ⟨List.not_mem_nil, hf⟩
        obtain ⟨p, hp, -, r, hr, hvalue⟩ := exists_rel_of_mem hproperties.flip hmem
        obtain ⟨s, hs, heq⟩ := hr.of_agrees hfm
        exact ⟨p, hp, s, hs, heq ▸ hvalue⟩
      exists_agrees := fun hold m hm hrepresents => by
        obtain ⟨p, hp, hmp⟩ := hrepresents
        obtain ⟨f, hf, -, hfp⟩ := exists_rel_of_mem hproperties hp
        exact ⟨f, (TypeRef.mem_represented_iff.mp hf).2,
          hagrees hold f (TypeRef.mem_of_mem_represented hf) m hm p hfp hmp⟩
      agrees := hagrees }

/-- When the unions of a tree are lowered, there is a wrapper for the union of
    every use and for every union that is gone through in it. The use refers to
    the wrapper for its union. A wrapper has properties for the first
    alternatives of each name, and no other alternatives are represented than
    those which agree with one of them. -/
theorem unionRepresented_of_wrapUnions (hwf : WellFormed t) {a : Unit}
    (hrun : (Edit.wrapUnions placement).run t = .ok a t') :
    ∃ w, (Edit.makeWrappers placement).run t = .ok w t'
      ∧ ∀ x scope u, UnionUse t placement x scope u →
      t'.wrapperOf? x = w.lookup ⟨scope, u.members⟩
        ∧ ∀ v, TypeRef.Lowers u v →
          ∃ wrapper, w.lookup ⟨scope, v.members⟩ = some wrapper
          ∧ UnionRepresented t t' w scope v wrapper := by
  obtain ⟨w, hmake⟩ := Edit.run_discard_eq_ok_iff.mp hrun
  have hreplaced := replaced_of_makeWrappers hwf.toWellLinked hmake
  refine ⟨w, hmake, fun x scope u huse => ?_⟩
  obtain ⟨wrapper, name, hmem, -, hvalue⟩ :=
    hreplaced.exists_wrapper huse (huse.mem_descendants hwf.toWellLinked)
  constructor
  · rw [wrapperOf?, hvalue, hreplaced.standing.lookup_eq_some hmem]
    rfl
  · intro v hv
    obtain ⟨wrapper', hmem'⟩ := hreplaced.standing.exists_of_lowers hv hmem
    exact ⟨wrapper', hreplaced.standing.lookup_eq_some hmem',
      hreplaced.standing.unionRepresented hmem'⟩

/-- The union of two ways to write a key. -/
def textOrCode : TypeRef :=
  .union "key" [.external "string", .external "int"]

/-- The union of two declarations of one name and of a union. -/
def someUser : TypeRef :=
  .union "someUser" [.declared "User" ⟨2⟩, .declared "User" ⟨4⟩, textOrCode]

/-- A tree in which two namespaces have a class of one name, and a property is
    the one or the other. -/
def usersOfTwoNamespaces : Tree :=
  Operation.runAll
    [.addNamespace ⟨0⟩ "work",
      .addNew .classes ⟨1⟩ (.classDecl "User" .model),
      .addNamespace ⟨0⟩ "home",
      .addNew .classes ⟨3⟩ (.classDecl "User" .model),
      .addNew .classes ⟨1⟩ (.classDecl "Owner" .model),
      .addNew .properties ⟨5⟩ (.property "user" .custom someUser)]
    initial

theorem wellFormed_usersOfTwoNamespaces : WellFormed usersOfTwoNamespaces :=
  (Operation.fullyNamed_runAll _ fullyNamed_initial).wellFormed

theorem unionUse_usersOfTwoNamespaces :
    UnionUse usersOfTwoNamespaces .innerClasses ⟨6⟩ ⟨5⟩ someUser := by
  have hfacts : usersOfTwoNamespaces.isAttached ⟨6⟩ = true
      ∧ usersOfTwoNamespaces.unionType? ⟨6⟩ = some someUser
      ∧ usersOfTwoNamespaces.wrapperScope? .innerClasses ⟨6⟩ = some ⟨5⟩ := by
        decide +kernel
  obtain ⟨hattached, hunion, hscope⟩ := hfacts
  exact ⟨wellFormed_usersOfTwoNamespaces.toWellLinked.isAttached_iff.mp hattached,
    hunion, hscope⟩

/-- The wrapper of the union within represents both alternatives, and the
    wrapper around it the first declaration and that union, but not the other
    declaration. -/
theorem unionRepresented_of_wrapUnions_someUser :
    ∃ w t' outer inner,
      (Edit.wrapUnions .innerClasses).run usersOfTwoNamespaces = .ok () t'
      ∧ t'.wrapperOf? ⟨6⟩ = some outer
      ∧ w.lookup ⟨⟨5⟩, textOrCode.members⟩ = some inner
      ∧ (∀ m ∈ textOrCode.members, Represents t' w ⟨5⟩ inner m)
      ∧ Represents t' w ⟨5⟩ outer textOrCode
      ∧ ¬ Represents t' w ⟨5⟩ outer (.declared "User" ⟨4⟩) := by
  obtain ⟨_, t', hrun, -⟩ := Edit.exists_eq_ok
    (r := (Edit.wrapUnions .innerClasses).run usersOfTwoNamespaces)
    (P := fun _ _ => True) (by decide +kernel)
  obtain ⟨w, -, huses⟩ :=
    unionRepresented_of_wrapUnions wellFormed_usersOfTwoNamespaces hrun
  obtain ⟨hrefers, hlowered⟩ := huses _ _ _ unionUse_usersOfTwoNamespaces
  have htext : textOrCode ∈ TypeRef.represented [] someUser.members := by decide
  obtain ⟨outer, houter, hself⟩ := hlowered someUser (.self rfl)
  obtain ⟨inner, hinner, hwithin⟩ := hlowered textOrCode (.within htext (.self rfl))
  refine ⟨w, t', outer, inner, hrun, hrefers.trans houter, hinner, fun m hm => ?_,
    ?_, fun hrepresents => ?_⟩
  · have hfirst : ∀ m ∈ textOrCode.members,
        TypeRef.firstNamed? textOrCode.members m.propertyName = some m := by
      decide
    exact hwithin.of_agrees m m (hfirst m hm) m.agrees_refl
  · exact hself.of_agrees textOrCode textOrCode (by decide) textOrCode.agrees_refl
  · have hold : ∀ m ∈ someUser.members, ∀ d ∈ m.definition?,
        d.index < usersOfTwoNamespaces.size := by
      decide +kernel
    obtain ⟨f, hf, hagrees⟩ := hself.exists_agrees hold _ (by decide) hrepresents
    have hnone : ∀ f ∈ TypeRef.represented [] someUser.members,
        ¬ (f.name = "User" ∧ f.target = .declared ⟨4⟩) := by decide
    exact hnone f
      (TypeRef.mem_represented_iff.mpr ⟨List.not_mem_nil, hf⟩) hagrees.2.2

/-- There is a well-formed tree in which a property may be the one or the other
    of two classes of one name, and after lowering no property of the class that
    stands for the union is of the second. -/
theorem exists_unrepresented_of_wrapUnions :
    WellFormed usersOfTwoNamespaces
      ∧ UnionUse usersOfTwoNamespaces .innerClasses ⟨6⟩ ⟨5⟩ someUser
      ∧ TypeRef.declared "User" ⟨4⟩ ∈ someUser.members
      ∧ ∃ t' wrapper,
        (Edit.wrapUnions .innerClasses).run usersOfTwoNamespaces = .ok () t'
        ∧ t'.wrapperOf? ⟨6⟩ = some wrapper
        ∧ ∀ p ∈ t'.childrenOfKind wrapper .property,
          t'.valueType? p ≠ some (TypeRef.declared "User" ⟨4⟩).nullable := by
  refine ⟨wellFormed_usersOfTwoNamespaces, unionUse_usersOfTwoNamespaces,
    by decide, ?_⟩
  obtain ⟨_, t', hrun, hrefers, hnone⟩ := Edit.exists_eq_ok
    (r := (Edit.wrapUnions .innerClasses).run usersOfTwoNamespaces)
    (P := fun _ t' => t'.wrapperOf? ⟨6⟩ = some ⟨13⟩
      ∧ ∀ p ∈ t'.childrenOfKind ⟨13⟩ .property, t'.valueType? p
        ≠ some (TypeRef.declared "User" ⟨4⟩).nullable)
    (by decide +kernel)
  exact ⟨t', ⟨13⟩, hrun, hrefers, hnone⟩

end Tree

end CodeModel
