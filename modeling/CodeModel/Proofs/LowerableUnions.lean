import CodeModel.Proofs.Capitals
import CodeModel.Proofs.WrappedUnions

/-!
# Unions that cannot be lowered

A wrapper has two methods besides its properties, and members of one class have
different names. So there is one way in which a union with nothing but names in
it can be refused: an alternative would give its property the name of one of the
methods. Everything else that is made has a free name, whatever was there
before.

* **`TypeRef.AvoidsMethods`**: what a union with names has to do.
* **`Standing.avoidsMethods`**: what a wrapper was made for has done it.
* **`Replaced.succeeds`**: the turn of an element, on whatever the turns before
  it made.

Main statements: `wrapUnions_succeeds_iff`, the unions of a tree can be lowered
exactly when no alternative has the name of a method, and
`wrapUnions_refuses_serialize`, a tree in which one has.
-/

namespace CodeModel

open CodeModel.Tree

namespace TypeRef

variable {r v m : TypeRef}

/-- No alternative of what is gone through would give a property the name of a
    method. -/
def AvoidsMethods (r : TypeRef) : Prop :=
  ∀ v, Lowers r v → ∀ m ∈ v.members, m.propertyName ∉ wrapperMethods

/-- The members of what is gone through are in the walk. -/
theorem Lowers.mem_walk (h : Lowers r v) (hm : m ∈ v.members) : m ∈ r.walk :=
  mem_walk_iff.mpr (Occurs.trans (.member hm .self) h.occurs)

/-- If no part is named like a method of wrappers, no property is. -/
theorem avoidsMethods_of_walk (h : ∀ s ∈ r.walk, s.propertyName ∉ wrapperMethods) :
    r.AvoidsMethods :=
  fun _ hv m hm => h m (hv.mem_walk hm)

/-- When everything in it has a name, a type can be lowered if it avoids the
    names of methods. -/
theorem lowerable_of_avoidsMethods (hnamed : ∀ s ∈ r.walk, s.name ≠ "")
    (h : r.AvoidsMethods) : r.Lowerable := by
  intro v hv
  refine ⟨hnamed v (mem_walk_iff.mpr hv.occurs), fun m hm => ?_⟩
  have hmember : m ∈ v.members := mem_of_mem_represented hm
  exact ⟨Text.uncapitalize_ne_empty (hnamed m (hv.mem_walk hmember)),
    h v hv m hmember⟩

end TypeRef

namespace Tree

variable {t s t' : Tree} {placement : WrapperPlacement} {n : Nat}
  {x id scope : ElementId} {u v m : TypeRef}
variable {w : Wrappers} {done : List ElementId}

/-- Everything in the unions that attached elements use has a name. -/
def UnionsNamed (t : Tree) : Prop :=
  ∀ x u, Attached t x → t.unionType? x = some u → ∀ r ∈ u.walk, r.name ≠ ""

/-- The unions that attached elements use avoid the names of the methods of
    wrappers. -/
def UnionsAvoidMethods (t : Tree) : Prop :=
  ∀ x u, Attached t x → t.unionType? x = some u → u.AvoidsMethods

/-- What a wrapper was made for has avoided the names of its methods. -/
theorem Standing.avoidsMethods (h : Standing n t w)
    (hx : ((⟨scope, u.members⟩ : WrapperKey), x) ∈ w) : u.AvoidsMethods := by
  intro v hv m hm
  obtain ⟨y, hy⟩ := h.exists_of_lowers hv hx
  obtain ⟨properties, -, hslots, hnames⟩ := h.exists_properties _ hy
  -- The property of that name may be for another alternative, but it is there.
  have huntaken : m.propertyName ∉ ([] : List String) := List.not_mem_nil
  obtain ⟨f, hf, hname⟩ := TypeRef.exists_represented hm huntaken
  obtain ⟨q, hq, hfirst, -⟩ := exists_rel_of_mem hslots.flip hf
  rw [← hname, ← hfirst]
  exact hnames q hq

/-- The turn of an element, on whatever the turns before it made. -/
theorem Replaced.succeeds (hwl : WellLinked t) (h : Replaced t placement done w s)
    (hid : Attached t id) (hnot : id ∉ done)
    (hlowerable : ∀ u, t.unionType? id = some u → u.Lowerable) :
    Edit.Succeeds (Edit.wrapUnion placement w id) s
      (Replaced t placement (done ++ [id])) := by
  have hgoes : Edit.Succeeds (Edit.wrapUnion placement w id) s fun _ _ => True := by
    cases hunion : t.unionType? id with
    | none =>
        exact ⟨w, s, h.run_wrapUnion_of_none (hwl.index_lt_of_attached hid) hnot
          hunion, trivial⟩
    | some u =>
        obtain ⟨scope, huse⟩ := hwl.exists_unionUse placement hid hunion
        obtain ⟨hscope, hkind⟩ := huse.attached_scope hwl
        have hlt : scope.index < t.size := hwl.index_lt_of_attached hscope
        obtain ⟨e, he⟩ :=
          Option.isSome_iff_exists.mp ((get?_isSome_iff t scope).mpr hlt)
        have hkind' : s.kind? scope = some placement.slot.holderKind :=
          (h.sameHolder he).2.1.trans hkind
        have hstand : Edit.Succeeds (Edit.standIn ⟨scope, placement.slot⟩ w u) s
            fun _ _ => True :=
          succeeds_standIn hlt placement.memberKind_slot u w h.wellLinked h.size_le
            h.standing hkind'
            (hlowerable u hunion)
        have hreplace :
            Edit.Succeeds (Edit.replaceUnion ⟨scope, placement.slot⟩ w id u) s
            fun _ _ => True :=
          hstand.bind fun _ _ _ =>
            (Edit.succeeds_modifyElement (Q := fun _ _ => True) trivial).bind
              fun _ _ _ => Edit.succeeds_pure trivial
        rw [Edit.Succeeds, h.run_wrapUnion_of_use hwl hnot huse]
        exact hreplace
  exact hgoes.mono fun w' s' hrun _ => h.step hwl hid hnot hrun

/-- The traversal goes through when every union can be lowered. -/
theorem succeeds_makeWrappers (hwl : WellLinked t) (placement : WrapperPlacement)
    (hlowerable : ∀ x u, Attached t x → t.unionType? x = some u → u.Lowerable) :
    Edit.Succeeds (Edit.makeWrappers placement) t
      (Replaced t placement (t.descendants t.root)) := by
  refine Edit.succeeds_crawlWith_done (fun done w s id h hid => ?_) ?_
    (replaced_nil hwl)
  · exact h.wellLinked.isAttached_iff.mpr
      (h.attached hwl (Or.inr (hwl.mem_descendants_iff.mp hid)))
  · intro done id rest w s hitems h
    obtain ⟨hnot, hbelow⟩ := hwl.turn_of_descendants_eq hitems
    exact h.succeeds hwl (Or.inr hbelow) hnot fun u hu =>
      hlowerable id u (Or.inr hbelow) hu

/-- When everything in the unions of a tree has a name, they can be lowered
    exactly when no alternative of what is gone through would give its property
    the name of a method, wherever wrappers go. -/
theorem wrapUnions_succeeds_iff (hwf : WellFormed t) (hnamed : UnionsNamed t) :
    (∃ t', (Edit.wrapUnions placement).run t = .ok () t') ↔
      UnionsAvoidMethods t := by
  have hwl := hwf.toWellLinked
  constructor
  · rintro ⟨t', hrun⟩ x u hx hu
    obtain ⟨w, hmake⟩ := Edit.run_discard_eq_ok_iff.mp hrun
    have hreplaced := replaced_of_makeWrappers hwl hmake
    obtain ⟨scope, huse⟩ := hwl.exists_unionUse placement hx hu
    obtain ⟨wrapper, name, hmem, -⟩ :=
      hreplaced.exists_wrapper huse (huse.mem_descendants hwl)
    exact hreplaced.standing.avoidsMethods hmem
  · intro havoid
    obtain ⟨w, t', hmake, -⟩ := succeeds_makeWrappers hwl placement fun x u hx hu =>
      TypeRef.lowerable_of_avoidsMethods (hnamed x u hx hu) (havoid x u hx hu)
    exact ⟨t', Edit.run_discard_eq_ok_iff.mpr ⟨w, hmake⟩⟩

/-- What is true of every union in a tree is true of those that attached
    elements use. -/
theorem forall_unionType? {P : TypeRef → Prop}
    (h : ∀ i < t.size, ∀ u ∈ t.unionType? ⟨i⟩, P u) :
    ∀ x u, Attached t x → t.unionType? x = some u → P u := by
  intro x u _ hu
  obtain ⟨e, he, -⟩ := Option.bind_eq_some_iff.mp (unionType?_eq_some_iff.mp hu).1
  exact h x.index (index_lt_of_get? he) u hu

/-- The unions of two classes go into wrappers, though a class beside them has
    the name of one already. -/
theorem wrapUnions_succeeds_iff_membersAndTeams :
    UnionsNamed membersAndTeams ∧ ∃ t',
      (Edit.wrapUnions .siblingClasses).run membersAndTeams = .ok () t' := by
  have hwf : WellFormed membersAndTeams :=
    (Operation.fullyNamed_runAll _ fullyNamed_initial).wellFormed
  have hnamed : UnionsNamed membersAndTeams := forall_unionType? (by decide +kernel)
  have havoid : ∀ x u, Attached membersAndTeams x →
      membersAndTeams.unionType? x = some u →
      ∀ r ∈ u.walk, r.propertyName ∉ wrapperMethods :=
        forall_unionType? (by decide +kernel)
  refine ⟨hnamed, (wrapUnions_succeeds_iff hwf hnamed).mpr fun x u hx hu => ?_⟩
  exact TypeRef.avoidsMethods_of_walk (havoid x u hx hu)

/-- A tree of one class, in which a property is a text or of a type called
    `Serialize`. -/
def ownerOfSerialize : Tree :=
  Operation.runAll
    [.addNamespace ⟨0⟩ "graph",
      .addNew .classes ⟨1⟩ (.classDecl "Owner" .model),
      .addNew .properties ⟨2⟩
        (.property "rule" .custom
          (.union "rule" [.external "string", .external "Serialize"]))]
    initial

/-- Its unions have names, and it is refused wherever wrappers go. -/
theorem wrapUnions_refuses_serialize :
    WellFormed ownerOfSerialize ∧ UnionsNamed ownerOfSerialize
      ∧ ∀ placement, ∃ e t',
        (Edit.wrapUnions placement).run ownerOfSerialize = .error e t'
        ∧ e = .nameTaken "serialize" "Rule" := by
  refine ⟨(Operation.fullyNamed_runAll _ fullyNamed_initial).wellFormed,
    forall_unionType? (by decide +kernel), ?_⟩
  intro placement
  refine Edit.exists_eq_error ?_
  cases placement <;> decide +kernel

end Tree

end CodeModel
