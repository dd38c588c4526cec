import CodeModel.Proofs.Following
import CodeModel.Proofs.NamingPasses
import CodeModel.Proofs.NewMembers
import CodeModel.Proofs.RestingMembers

/-!
# Native types for binary data

A turn of the traversal names binary data in the types of one property, or of
one method and its parameters, and the class that owns the member gets an import
if there was anything to name. Naming again changes nothing, and an import that
is there is not added again, so the turns add up to one change of every element.

An indexer has two types, and it has no turn: what it says of binary data stays
as it is.

* **`TypeRef.NativeOf`**: what naming binary data makes of one reference.
* **`Element.nativize`**: what it makes of an element, `nativize_nativize`: of
  twice the same.
* **`Nativized`**: what a tree has become.

Main statements: `nativized_of_replaceBinary`, the traversal goes through and
nothing is left of binary data but what indexers say, and
`binary_remains_of_replaceBinary`, a tree in which one does.
-/

namespace CodeModel

open CodeModel.Tree

variable {typeName : String} {spec : ImportSpec}

/-! ## References -/

mutual

/-- What names the references in the walk alike gives the same result. -/
theorem TypeRef.rename_congr {f g : TypeRef → String} :
    ∀ r : TypeRef, (∀ s ∈ r.walk, f s = g s) → r.rename f = r.rename g
  | ⟨name, target, isNullable, isCollection⟩, h => by
      rw [TypeRef.walk] at h
      have hself := h _ List.mem_cons_self
      have htarget := TypeTarget.rename_congr target fun s hs =>
        h s (List.mem_cons_of_mem _ hs)
      rw [TypeRef.rename, TypeRef.rename, hself, htarget]

/-- Renamings that agree on a target agree there. -/
theorem TypeTarget.rename_congr {f g : TypeRef → String} :
    ∀ target : TypeTarget, (∀ s ∈ target.walk, f s = g s) →
      target.rename f = target.rename g
  | .external, _ => rfl
  | .declared _, _ => rfl
  | .union members, h =>
      by rw [TypeTarget.rename, TypeTarget.rename,
        TypeRef.renameAll_congr members h]

/-- Renamings that agree on the members agree there. -/
theorem TypeRef.renameAll_congr {f g : TypeRef → String} :
    ∀ rs : List TypeRef, (∀ s ∈ TypeRef.walkAll rs, f s = g s) →
      TypeRef.renameAll f rs = TypeRef.renameAll g rs
  | [], _ => rfl
  | r :: rest, h => by
      rw [TypeRef.walkAll] at h
      have hfirst := TypeRef.rename_congr r fun s hs =>
        h s (List.mem_append_left _ hs)
      have hrest := TypeRef.renameAll_congr rest fun s hs =>
        h s (List.mem_append_right _ hs)
      rw [TypeRef.renameAll, TypeRef.renameAll, hfirst, hrest]

end

namespace TypeRef

/-- Where there is no binary data, there is nothing to name. -/
theorem replaceBinary_eq_self {r : TypeRef} (h : r.holdsBinary = false)
    (typeName : String) : r.replaceBinary typeName = r := by
  refine (rename_congr r fun s hs => ?_).trans (rename_name r)
  rw [if_neg (List.any_eq_false.mp h s hs)]

/-- Reference `s` is `r`, named by a native type if `r` stands for binary data,
    and is otherwise of the same shape. -/
structure NativeOf (typeName : String) (r s : TypeRef) : Prop where
  name_eq : s.name = if r.isBinary then typeName else r.name
  isExternal_eq : s.isExternal = r.isExternal
  definition?_eq : s.definition? = r.definition?
  members_eq : s.members.length = r.members.length
  isNullable_eq : s.isNullable = r.isNullable
  isCollection_eq : s.isCollection = r.isCollection

theorem length_renameAll (f : TypeRef → String) (rs : List TypeRef) :
    (renameAll f rs).length = rs.length := by
  induction rs with
  | nil => rfl
  | cons r rest ih => rw [renameAll, List.length_cons, List.length_cons, ih]

/-- What replacing binary data makes of a reference. -/
theorem nativeOf_replaceBinary (typeName : String) (r : TypeRef) :
    NativeOf typeName r (r.replaceBinary typeName) := by
  obtain ⟨name, target, isNullable, isCollection⟩ := r
  cases target with
  | union members => exact ⟨rfl, rfl, rfl, length_renameAll _ members, rfl, rfl⟩
  | _ => exact ⟨rfl, rfl, rfl, rfl, rfl, rfl⟩

end TypeRef

/-! ## Elements -/

/-- What changes nothing when it is done again is done once, if at all. -/
theorem ite_ite_of_again {α : Type} {f : α → α} {a : α} (hf : f (f a) = f a)
    (b b' : Bool) :
    (if b' then f (if b then f a else a) else if b then f a else a) = if b || b'
      then f a else a := by
  cases b <;> cases b' <;> simp [hf]

/-- What has been added is not added again. -/
theorem Import.addImport_addImport (block : List Import) (i : Import) :
    addImport (addImport block i) i = addImport block i := by
  rcases addImport_eq block i with ⟨heq, -⟩ | ⟨heq, -⟩
  · rw [heq, heq]
  · rw [heq]
    rcases addImport_eq (block ++ [i]) i with ⟨hagain, -⟩ | ⟨-, hnone⟩
    · exact hagain
    · exact absurd rfl
        (hnone i (List.mem_append_right _ (List.mem_singleton_self i)))

namespace Element

/-- The element with native types in place of binary data in the type of its
    value, and with an import. -/
def nativize (typeName : String) (spec : ImportSpec) (retyped importing : Bool)
    (e : Element) : Element :=
  (if retyped then e.mapValueType (TypeRef.replaceBinary typeName)
      else e).mapImports fun block =>
    if importing then Import.addImport block spec.toImport else block

/-- Imports and the type of the value do not touch one another. -/
theorem mapImports_mapValueType (f : TypeRef → TypeRef)
    (g : List Import → List Import) (e : Element) :
    (e.mapImports g).mapValueType f = (e.mapValueType f).mapImports g := by
  obtain ⟨name, parent, children, description, content⟩ := e
  cases content <;> rfl

/-- To replace binary data twice is to replace it once. -/
theorem mapValueType_replaceBinary_again (typeName : String) (e : Element) :
    (e.mapValueType (TypeRef.replaceBinary typeName)).mapValueType
      (TypeRef.replaceBinary typeName)
      = e.mapValueType (TypeRef.replaceBinary typeName) := by
  refine mapValueType_eq_self fun r hr => ?_
  rw [valueType?_mapValueType] at hr
  obtain ⟨r₀, -, rfl⟩ := Option.map_eq_some_iff.mp hr
  exact TypeRef.replaceBinary_replaceBinary typeName r₀

/-- References are replaced one by one. -/
theorem references_replaceBinary (typeName : String) (e : Element) :
    (e.mapTypes (TypeRef.replaceBinary typeName)).references
      = e.references.map (TypeRef.replaceBinary typeName) :=
  references_rename _ e

/-- The type of the value is changed along with the others. -/
theorem valueType?_mapTypes (f : TypeRef → TypeRef) (e : Element) :
    (e.mapTypes f).valueType? = e.valueType?.map f := by
  obtain ⟨name, parent, children, description, content⟩ := e
  cases content <;> rfl

theorem mapImports_const (f : List Import → List Import) (e : Element) :
    (e.mapImports fun _ => f e.imports) = e.mapImports f := by
  obtain ⟨name, parent, children, description, content⟩ := e
  cases content <;> rfl

/-- Two changes add up. -/
theorem nativize_nativize (retyped importing retyped' importing' : Bool)
    (e : Element) :
    (e.nativize typeName spec retyped importing).nativize typeName spec retyped'
      importing'
      = e.nativize typeName spec (retyped || retyped') (importing || importing') :=
        by
  have htypes :=
    ite_ite_of_again (mapValueType_replaceBinary_again typeName e) retyped retyped'
  have himports := fun block =>
    ite_ite_of_again (f := fun block => Import.addImport block spec.toImport)
    (Import.addImport_addImport block spec.toImport) importing importing'
  rw [nativize, nativize, nativize, mapImports_mapValueType,
    ← apply_ite (mapImports _), mapImports_mapImports, htypes]
  exact congrArg (mapImports · _) (funext himports)

/-- Native types change neither places nor names. -/
theorem frame_nativize (retyped importing : Bool) (e : Element) :
    (e.nativize typeName spec retyped importing).frame = e.frame := by
  rw [nativize, frame_mapImports]
  cases retyped with
  | true => exact frame_mapValueType _ e
  | false => rfl

/-- Without a type to replace and an import to add nothing changes. -/
theorem nativize_false (e : Element) : e.nativize typeName spec false false = e :=
  mapImports_of_map_eq rfl

end Element

namespace Tree

variable {t s s' t' : Tree} {x y id owner : ElementId} {e : Element}
  {done : List ElementId}

/-! ## One turn -/

/-- The class that gets the import when there is something to name in the types
    that a member answers for. -/
def binaryImporter? (t : Tree) (id : ElementId) : Option ElementId :=
  if (t.typeHolders id).any fun h => (t.valueType? h).any TypeRef.holdsBinary then
    (t.parent? id).filter fun owner => (t.class? owner).isSome
  else none

/-- What is changed by some turns: types, and the imports of classes. -/
def nativizeBy (t : Tree) (typeName : String) (spec : ImportSpec)
    (done : List ElementId) (x : ElementId) : Element → Element :=
  Element.nativize typeName spec ((done.flatMap t.typeHolders).contains x)
    ((done.filterMap t.binaryImporter?).contains x)

end Tree

namespace Edit

variable {t : Tree} {f : Element → Element}

/-- Elements are changed one after another, by what changes nothing when it is
    done again. -/
theorem succeeds_forM_modifyElement (hf : ∀ e, f (f e) = f e)
    (ids : List ElementId) :
    Succeeds (ids.forM fun h => modifyElement h f) t fun _ s =>
      ChangedBy (fun x e => if ids.contains x then f e else e) t s := by
  rw [List.forM_eq_forM]
  induction ids generalizing t with
  | nil => exact succeeds_pure ((changedBy_refl t).congr fun x e _ => by simp)
  | cons id rest ih =>
      rw [List.forM_cons]
      refine (succeeds_modifyElement (Q := fun _ s => s = t.modify id f) rfl).bind
        ?_
      rintro _ _ rfl
      refine ih.mono fun _ s _ hs =>
        ((changedBy_modify t id f).trans hs).congr fun x e _ => ?_
      by_cases hx : x = id <;> by_cases hrest : x ∈ rest <;> simp [hx, hrest, hf]

/-- A class gets an import, unless it has it. -/
theorem succeeds_addImport {owner : ElementId} {i : Import} (hname : i.name ≠ "")
    (hclass : (t.class? owner).isSome) :
    Succeeds (addImports owner [i]) t fun _ s =>
      ChangedBy (fun x e => if x = owner then e.mapImports (Import.addImport · i)
        else e) t s := by
  obtain ⟨c, hc⟩ := Option.isSome_iff_exists.mp hclass
  obtain ⟨e, he, hblock⟩ := exists_imports?_of_class? hc
  refine succeeds_addImports (List.cons_ne_nil _ _)
    (fun j hj => ?_) he (by rw [hblock]; rfl) fun _ => ?_
  · rw [List.mem_singleton.mp hj]
    exact hname
  · refine (changedBy_modify t owner _).congr fun x e' he' => ?_
    by_cases hx : x = owner
    · subst hx
      obtain rfl := Option.some.inj (he.symm.trans he')
      rw [if_pos rfl, if_pos rfl]
      exact Element.mapImports_const (Import.addImport · i) e
    · rw [if_neg hx, if_neg hx]

/-- The turn of a member goes through. -/
theorem succeeds_replaceOwn (hmodule : spec.moduleName ≠ "") (id : ElementId) :
    Succeeds (replaceOwn typeName spec id) t fun _ s =>
      ChangedBy (t.nativizeBy typeName spec [id]) t s := by
  refine succeeds_get_bind ((succeeds_forM_modifyElement
    (Element.mapValueType_replaceBinary_again typeName) _).bind fun _ m hm => ?_)
  have hplaces : SamePlaces t m := hm.samePlaces fun x e _ => by
    split
    · exact Element.place_eq_of_frame_eq (Element.frame_mapValueType _ e)
    · rfl
  -- Without an import the change is one of types.
  have htypes : t.binaryImporter? id = none →
      ChangedBy (t.nativizeBy typeName spec [id]) t m := by
    intro hnone
    refine hm.congr fun x e _ => ?_
    rw [nativizeBy, List.filterMap_cons_none hnone, List.flatMap_singleton]
    exact (Element.mapImports_of_map_eq rfl).symm
  cases hp : t.parent? id with
  | none =>
      refine succeeds_pure (htypes ?_)
      rw [binaryImporter?, hp, Option.filter_none, ite_self]
  | some owner =>
      dsimp only
      split
      next htouched =>
        obtain ⟨hbinary, hclass⟩ := Bool.and_eq_true_iff.mp htouched
        have himporter : t.binaryImporter? id = some owner := by
          rw [binaryImporter?, if_pos hbinary, hp, Option.filter_some,
            if_pos hclass]
        have hclass' : (m.class? owner).isSome := by
          rw [isSome_class?_iff, hplaces.kind?_eq, ← isSome_class?_iff, hclass]
        have hname : spec.toImport.name ≠ "" := by rwa [ImportSpec.name_toImport]
        refine ((succeeds_addImport hname hclass').mono fun _ s _ hs => ?_).discard
        refine (hm.trans hs).congr fun x e _ => ?_
        rw [nativizeBy, List.filterMap_cons_some himporter, List.flatMap_singleton,
          Element.nativize]
        by_cases hx : x = owner
        · simp [hx]
        · have hout : ([owner] : List ElementId).contains x = false := by simp [hx]
          rw [if_neg hx, List.filterMap_nil, hout]
          exact (Element.mapImports_of_map_eq rfl).symm
      next hcalm =>
        refine succeeds_pure (htypes ?_)
        rw [binaryImporter?, hp, Option.filter_some]
        split
        next hbinary =>
          exact if_neg fun hclass =>
            hcalm (Bool.and_eq_true_iff.mpr ⟨hbinary, hclass⟩)
        next => rfl

end Edit

namespace Tree

variable {t s s' t' : Tree} {x y id owner : ElementId} {e : Element}
  {done : List ElementId}

/-! ## One turn after another -/

/-- What is changed by some turns, and then by more. -/
theorem nativizeBy_append (t : Tree) (done more : List ElementId) (x : ElementId)
    (e : Element) :
    t.nativizeBy typeName spec more x (t.nativizeBy typeName spec done x e)
      = t.nativizeBy typeName spec (done ++ more) x e := by
  simp only [nativizeBy, Element.nativize_nativize, List.flatMap_append,
    List.filterMap_append, List.contains_append]

/-- What has been replaced so far moved nothing. -/
theorem samePlaces_of_nativizeBy
    (h : ChangedBy (t.nativizeBy typeName spec done) t s) : SamePlaces t s :=
  h.samePlaces fun _ e _ =>
    Element.place_eq_of_frame_eq (Element.frame_nativize _ _ e)

/-- Before its turn, the types that a member answers for are what they were. -/
theorem binaryImporter?_eq (hwl : WellLinked t)
    (h : ChangedBy (t.nativizeBy typeName spec done) t s) (hnot : id ∉ done) :
    s.binaryImporter? id = t.binaryImporter? id := by
  have hplaces := samePlaces_of_nativizeBy h
  have hvalues : ∀ x ∈ t.typeHolders id, s.valueType? x = t.valueType? x := by
    intro x hx
    have hout : (done.flatMap t.typeHolders).contains x = false := by
      refine Bool.eq_false_iff.mpr fun hmem => hnot ?_
      obtain ⟨y, hy, hxy⟩ := List.mem_flatMap.mp (List.contains_iff_mem.mp hmem)
      by_contra hid
      have hne : id ≠ y := fun heq => hid (heq ▸ hy)
      exact hwl.disjoint_typeHolders hne x hx hxy
    rw [valueType?, valueType?, h.get?_eq]
    cases t.get? x with
    | none => rfl
    | some e =>
        rw [Option.map_some, Option.bind_some, nativizeBy, hout]
        exact Element.valueType?_mapImports _ e
  have htouched :
      (t.typeHolders id).any (fun h => (s.valueType? h).any TypeRef.holdsBinary)
        = (t.typeHolders id).any fun h =>
          (t.valueType? h).any TypeRef.holdsBinary := by
    rw [Bool.eq_iff_iff, List.any_eq_true, List.any_eq_true]
    exact exists_congr fun x => and_congr_right fun hx => by rw [hvalues x hx]
  have hclasses : ∀ owner, (s.class? owner).isSome = (t.class? owner).isSome :=
      fun owner => by
    rw [Bool.eq_iff_iff, isSome_class?_iff, isSome_class?_iff, hplaces.kind?_eq]
  simp only [binaryImporter?, hplaces.typeHolders_eq, htouched,
    hplaces.parent?_eq, hclasses]

/-- The turn of a member, on whatever the turns before it made. -/
theorem succeeds_step (hwl : WellLinked t) (hmodule : spec.moduleName ≠ "")
    (h : ChangedBy (t.nativizeBy typeName spec done) t s) (hnot : id ∉ done) :
    Edit.Succeeds (Edit.replaceOwn typeName spec id) s fun _ s' =>
      ChangedBy (t.nativizeBy typeName spec (done ++ [id])) t s' := by
  have hplaces := samePlaces_of_nativizeBy h
  refine (Edit.succeeds_replaceOwn hmodule id).mono fun _ s' _ hs =>
    (h.trans hs).congr fun x e _ => ?_
  have hsame : s.nativizeBy typeName spec [id] x
      = t.nativizeBy typeName spec [id] x := by
    simp only [nativizeBy, List.flatMap_singleton, List.filterMap_cons,
      List.filterMap_nil, hplaces.typeHolders_eq, binaryImporter?_eq hwl h hnot]
  rw [hsame, nativizeBy_append]

/-- The whole traversal. -/
theorem succeeds_replaceBinary (typeName : String) (hwl : WellLinked t)
    (hmodule : spec.moduleName ≠ "") :
    Edit.Succeeds (Edit.replaceBinary typeName spec) t fun _ s =>
      ChangedBy (t.nativizeBy typeName spec (t.descendants t.root)) t s := by
  rw [Edit.replaceBinary_eq, Edit.crawl]
  refine Edit.succeeds_crawlWith_done (I := fun done _ s =>
    ChangedBy (t.nativizeBy typeName spec done) t s)
    (fun done _ s id h hid =>
      Edit.isAttached_of_samePlaces hwl (samePlaces_of_nativizeBy h) hid)
    (fun done id rest _ s hitems h => ?_) ((changedBy_refl t).congr fun x e _ =>
      (Element.nativize_false e).symm)
  exact succeeds_step hwl hmodule h (hwl.turn_of_descendants_eq hitems).1

/-! ## What has been changed in the end -/

/-- Attached properties, methods and parameters. -/
def Retyped (t : Tree) (x : ElementId) : Prop :=
  Attached t x ∧ t.kind? x ∈ [some .property, some .method, some .parameter]

/-- A class owns its members, and the parameters of its methods. -/
def Owns (t : Tree) (c x : ElementId) : Prop :=
  (t.class? c).isSome
    ∧ (t.parent? x = some c ∨ ∃ m, t.kind? m = some .method ∧ t.parent? x = some m
      ∧ t.parent? m = some c)

/-- A class owns something whose type holds binary data. -/
def OwnsBinary (t : Tree) (c : ElementId) : Prop :=
  ∃ x, Owns t c x ∧ Retyped t x ∧ ∃ r, t.valueType? x = some r
    ∧ r.holdsBinary = true

/-- The holders of types below the root are what the pass replaces types of. -/
theorem mem_retyped_iff (hwl : WellLinked t) :
    x ∈ (t.descendants t.root).flatMap t.typeHolders ↔ Retyped t x := by
  rw [hwl.mem_flatMap_typeHolders_descendants_iff, hwl.mem_descendants_iff]
  refine and_congr_left fun hkind => ⟨Or.inr, fun hx => hx.resolve_left ?_⟩
  rintro rfl
  rw [hwl.kind?_root] at hkind
  simp at hkind

/-- An import goes to the class that holds a member with a type that holds
    binary data. -/
theorem binaryImporter?_eq_some_iff :
    t.binaryImporter? id = some owner ↔
      (∃ h ∈ t.typeHolders id, ∃ r, t.valueType? h = some r ∧ r.holdsBinary = true)
      ∧ t.parent? id = some owner ∧ (t.class? owner).isSome := by
  rw [binaryImporter?]
  simp only [Option.ite_none_right_eq_some, List.any_eq_true, Option.any_eq_true,
    Option.filter_eq_some_iff]

/-- The classes that get an import are those that own such a member. -/
theorem mem_importers_iff (hwl : WellLinked t) :
    owner ∈ (t.descendants t.root).filterMap t.binaryImporter? ↔
      OwnsBinary t owner := by
  simp only [List.mem_filterMap, binaryImporter?_eq_some_iff,
    hwl.mem_descendants_iff]
  constructor
  · rintro ⟨id, hid, ⟨x, hx, hbinary⟩, hp, hclass⟩
    have hretyped : Retyped t x :=
      (mem_retyped_iff hwl).mp
        (List.mem_flatMap.mpr ⟨id, hwl.mem_descendants_iff.mpr hid, hx⟩)
    refine ⟨x, ⟨hclass, ?_⟩, hretyped, hbinary⟩
    rcases mem_typeHolders_iff.mp hx with ⟨rfl, -⟩ | ⟨hmethod, hx⟩
    · exact Or.inl hp
    · exact Or.inr ⟨id, hmethod, (hwl.parent?_of_mem_childrenOfKind hx).1, hp⟩
  · rintro ⟨x, ⟨hclass, howner⟩, hretyped, hbinary⟩
    obtain ⟨id, hid, hx⟩ := List.mem_flatMap.mp ((mem_retyped_iff hwl).mpr hretyped)
    refine ⟨id, hwl.mem_descendants_iff.mp hid, ⟨x, hx, hbinary⟩, ?_, hclass⟩
    have hkind := isSome_class?_iff.mp hclass
    -- A member answers for itself, and a method of the class for a parameter of it.
    rcases mem_typeHolders_iff.mp hx with ⟨rfl, hmember⟩ | ⟨hmethod, hparameter⟩
    · refine howner.resolve_right ?_
      rintro ⟨m, hmethod, hp, -⟩
      have hmem := (hwl.mem_children_iff m _).mpr hp
      have hmay := fun kind hkind =>
        hwl.mayHold_of_mem m _ .method kind hmem hmethod hkind
      rcases hmember with hmember | hmember
      · exact absurd (hmay _ hmember) (by decide)
      · exact absurd (hmay _ hmember) (by decide)
    · obtain ⟨hparent, -⟩ := hwl.parent?_of_mem_childrenOfKind hparameter
      rcases howner with hp | ⟨m, -, hp, howner⟩
      · obtain rfl := Option.some.inj (hparent.symm.trans hp)
        rw [hmethod] at hkind
        cases hkind
      · obtain rfl := Option.some.inj (hparent.symm.trans hp)
        exact howner

/-- Tree `t'` is `t` with native types in place of binary data in attached
    properties, methods and parameters, and with an import in the classes that
    own any. Everything else is as it was. -/
structure Nativized (typeName : String) (spec : ImportSpec) (t t' : Tree) :
    Prop where
  root_eq : t'.root = t.root
  size_eq : t'.size = t.size
  get?_retyped : ∀ x e, Retyped t x → t.get? x = some e →
    t'.get? x = some (e.mapTypes (TypeRef.replaceBinary typeName))
  get?_owner : ∀ c e, OwnsBinary t c → t.get? c = some e →
    t'.get? c = some (e.mapImports (Import.addImport · spec.toImport))
  get?_other : ∀ x e, ¬ Retyped t x → ¬ OwnsBinary t x → t.get? x = some e →
    t'.get? x = some e

/-- What the turns of all that is below the root make. -/
theorem nativized_of_changedBy (hwl : WellLinked t)
    (h : ChangedBy (t.nativizeBy typeName spec (t.descendants t.root)) t t') :
    Nativized typeName spec t t' := by
  have hretyped : ∀ x, ((t.descendants t.root).flatMap t.typeHolders).contains
      x = true ↔ Retyped t x :=
    fun x => List.contains_iff_mem.trans (mem_retyped_iff hwl)
  have himporters : ∀ x,
      ((t.descendants t.root).filterMap t.binaryImporter?).contains x = true ↔
      OwnsBinary t x :=
    fun x => List.contains_iff_mem.trans (mem_importers_iff hwl)
  have hplaces := samePlaces_of_nativizeBy h
  refine ⟨h.root_eq, hplaces.size_eq, fun x e hx he => ?_, fun c e hc he => ?_,
    fun x e hx hc he => ?_⟩
  · rw [h.get?_eq, he, Option.map_some, nativizeBy, (hretyped x).mpr hx]
    obtain ⟨name, parent, children, description, content⟩ := e
    have hkind := hx.2
    rw [kind?, he] at hkind
    cases content with
    | method _ | property _ | parameter _ => rfl
    | _ => simp [Element.kind, Content.kind] at hkind
  · have hnot : ((t.descendants t.root).flatMap t.typeHolders).contains c = false :=
        by
      refine Bool.eq_false_iff.mpr fun hmem => ?_
      obtain ⟨-, ⟨hclass, -⟩, -⟩ := hc
      have hkind := ((hretyped c).mp hmem).2
      rw [isSome_class?_iff.mp hclass] at hkind
      simp at hkind
    rw [h.get?_eq, he, Option.map_some, nativizeBy, hnot, (himporters c).mpr hc]
    rfl
  · rw [h.get?_eq, he, Option.map_some, nativizeBy, Bool.eq_false_iff.mpr
      fun hmem => hx ((hretyped x).mp hmem), Bool.eq_false_iff.mpr fun hmem =>
      hc ((himporters x).mp hmem), Element.nativize_false]

/-- An attached property, method, parameter or indexer of which some type holds
    binary data. -/
def SaysBinary (t : Tree) (x : ElementId) : Prop :=
  Attached t x ∧ ∃ e, t.get? x = some e
    ∧ e.kind ∈ [.property, .method, .parameter, .indexer]
    ∧ ∃ r ∈ e.references, r.isBinary = true

namespace Nativized

variable (h : Nativized typeName spec t t')

include h

/-- Every reference has been named on its own, and nothing else has happened to
    it. -/
theorem forall₂_references {e' : Element} (hx : Retyped t x)
    (he : t.get? x = some e) (he' : t'.get? x = some e') :
    List.Forall₂ (TypeRef.NativeOf typeName) e.references e'.references := by
  obtain rfl := Option.some.inj ((h.get?_retyped x e hx he).symm.trans he')
  rw [Element.references_replaceBinary, List.forall₂_map_right_iff,
    List.forall₂_same]
  exact fun r _ => TypeRef.nativeOf_replaceBinary typeName r

theorem get?_eq_none (hx : t.get? x = none) : t'.get? x = none := by
  refine get?_eq_none_of_size_le ?_
  rw [h.size_eq]
  exact size_le_of_get?_eq_none hx

/-- Other types stay. -/
theorem valueType?_eq (hx : ¬ Retyped t x) : t'.valueType? x = t.valueType? x := by
  cases he : t.get? x with
  | none => rw [valueType?, valueType?, h.get?_eq_none he, he]
  | some e =>
      by_cases hc : OwnsBinary t x
      · rw [valueType?, valueType?, h.get?_owner x e hc he, he]
        exact Element.valueType?_mapImports _ e
      · rw [valueType?, valueType?, h.get?_other x e hx hc he, he]

/-- The class of a member whose type is another has the import. -/
theorem exists_sameImport (howns : Owns t owner x)
    (hchanged : t'.valueType? x ≠ t.valueType? x) :
    ∃ i ∈ t'.imports owner, Import.SameImport i spec.toImport := by
  have hx : Retyped t x := by
    by_contra hx
    exact hchanged (h.valueType?_eq hx)
  have hbinary : OwnsBinary t owner := by
    refine ⟨x, howns, hx, ?_⟩
    by_contra hnone
    refine hchanged ?_
    cases he : t.get? x with
    | none => rw [valueType?, valueType?, h.get?_eq_none he, he]
    | some e =>
        have hself : e.valueType?.map (TypeRef.replaceBinary typeName)
            = e.valueType? := by
          cases hvalue : e.valueType? with
          | none => rfl
          | some r =>
              have hread : t.valueType? x = some r := by
                rw [valueType?, he, Option.bind_some, hvalue]
              have hfree : r.holdsBinary = false :=
                Bool.eq_false_iff.mpr fun hholds => hnone ⟨r, hread, hholds⟩
              rw [Option.map_some, TypeRef.replaceBinary_eq_self hfree]
        rw [valueType?, valueType?, h.get?_retyped x e hx he, he, Option.bind_some,
          Option.bind_some, Element.valueType?_mapTypes, hself]
  obtain ⟨c, hc⟩ := Option.isSome_iff_exists.mp howns.1
  obtain ⟨e, he, hblock⟩ := exists_imports?_of_class? hc
  have himports : t'.imports owner = Import.addImports e.imports [spec.toImport] :=
      by
    rw [imports, h.get?_owner owner e hbinary he, Option.map_some, Option.getD_some,
      Element.imports_mapImports, hblock]
    rfl
  rw [himports]
  exact Import.exists_mem_addImports_of_mem (List.mem_singleton_self _)

/-- What is no class and has no type replaced is untouched. -/
theorem get?_eq (hx : ¬ Retyped t x) (hkind : t.kind? x ≠ some .classDecl) :
    t'.get? x = t.get? x := by
  cases he : t.get? x with
  | none => exact h.get?_eq_none he
  | some e =>
      exact h.get?_other x e hx
        (fun ⟨_, howns, _⟩ => hkind (isSome_class?_iff.mp howns.1)) he

/-- What has been named by a native type says no more of binary data. -/
theorem not_saysBinary (hbinary : typeName ≠ TypeRef.binaryName)
    (hx : Retyped t x) : ¬ SaysBinary t' x := by
  rintro ⟨-, e', he', -, r, hr, hisbinary⟩
  obtain ⟨e, he⟩ := Option.ne_none_iff_exists'.mp fun hnone => by
    rw [h.get?_eq_none hnone] at he'
    cases he'
  obtain rfl := Option.some.inj ((h.get?_retyped x e hx he).symm.trans he')
  rw [Element.references_replaceBinary] at hr
  obtain ⟨r₀, -, rfl⟩ := List.mem_map.mp hr
  rw [TypeRef.isBinary_rename, Bool.and_eq_true, beq_iff_eq] at hisbinary
  exact hbinary hisbinary.2

/-- What is left of binary data is what indexers say of it. -/
theorem saysBinary_iff (hplaces : SamePlaces t t')
    (hbinary : typeName ≠ TypeRef.binaryName) :
    SaysBinary t' x ↔ SaysBinary t x ∧ t.kind? x = some .indexer := by
  constructor
  · intro hleft
    have hx : ¬ Retyped t x := fun hx => h.not_saysBinary hbinary hx hleft
    obtain ⟨hattached, e, he', hmember, hr⟩ := hleft
    have hattached := hplaces.attached_iff.mp hattached
    have hkind : t.kind? x = some e.kind := by
      rw [← hplaces.kind?_eq, kind?, he', Option.map_some]
    have hindexer : t.kind? x = some .indexer := by
      rw [Retyped, hkind, and_iff_right hattached] at hx
      rw [hkind]
      cases hek : e.kind <;> simp_all
    have he := h.get?_eq hx (by rw [hindexer]; simp)
    exact ⟨⟨hattached, e, by rw [← he, he'], hmember, hr⟩, hindexer⟩
  · rintro ⟨⟨hattached, e, he, hmember, hr⟩, hindexer⟩
    have hx : ¬ Retyped t x := fun hx => by
      have hretyped := hx.2
      rw [hindexer] at hretyped
      simp at hretyped
    have he' := h.get?_eq hx (by rw [hindexer]; simp)
    exact ⟨hplaces.attached_iff.mpr hattached, e, by rw [he', he], hmember, hr⟩

end Nativized

/-- Whatever is called by a native type and imported for that, the traversal
    goes through. Every reference to binary data in an attached property, method
    or parameter is then one to the native type, each class that owns a member
    so changed has the import, and all else is as it was. So what is left of
    binary data is what indexers say of it. -/
theorem nativized_of_replaceBinary (hwf : WellFormed t)
    (hbinary : typeName ≠ TypeRef.binaryName) (hmodule : spec.moduleName ≠ "") :
    ∃ t', (Edit.replaceBinary typeName spec).run t = .ok () t'
      ∧ Nativized typeName spec t t'
      ∧ (∀ x e e', Retyped t x → t.get? x = some e → t'.get? x = some e' →
          List.Forall₂ (TypeRef.NativeOf typeName) e.references e'.references)
      ∧ (∀ c x, Owns t c x → t'.valueType? x ≠ t.valueType? x →
          ∃ i ∈ t'.imports c, Import.SameImport i spec.toImport)
      ∧ ∀ x, SaysBinary t' x ↔ SaysBinary t x ∧ t.kind? x = some .indexer := by
  have hwl := hwf.toWellLinked
  obtain ⟨_, t', hrun, hchanged⟩ := succeeds_replaceBinary typeName hwl hmodule
  have h := nativized_of_changedBy hwl hchanged
  exact ⟨t', hrun, h, fun _ _ _ hx he he' => h.forall₂_references hx he he',
    fun _ _ howns hother => h.exists_sameImport howns hother,
    fun _ => h.saysBinary_iff (samePlaces_of_nativizeBy hchanged) hbinary⟩

/-- A tree of one class, with a method that returns binary data and one that
    takes text or binary data. -/
def filesOfBinary : Tree :=
  Operation.runAll
    [.addNew .classes ⟨0⟩ (.classDecl "Files" .requestBuilder),
      .addNew .methods ⟨1⟩ (.method "get" .requestExecutor (.external "binary")),
      .addNew .methods ⟨1⟩ (.method "put" .requestExecutor (.external "void")),
      .addNew .parameters ⟨3⟩
        (.parameter "body" .requestBody (.union "content"
          [.external "string", (TypeRef.external "binary").nullable]))]
    initial

/-- Both have the native type, and there is no binary data left. -/
theorem nativized_of_replaceBinary_filesOfBinary :
    ∃ t', (Edit.replaceBinary "Stream" ⟨"System.IO", none⟩).run filesOfBinary
      = .ok () t'
      ∧ t'.valueType? ⟨2⟩ = some (.external "Stream")
      ∧ t'.valueType? ⟨4⟩ = some (.union "content"
        [.external "string", (TypeRef.external "Stream").nullable])
      ∧ t'.imports ⟨1⟩ = [.ofModule "System.IO"] ∧ ∀ x, ¬ SaysBinary t' x := by
  have hwf : WellFormed filesOfBinary :=
    (Operation.fullyNamed_runAll _ fullyNamed_initial).wellFormed
  have hbinary : "Stream" ≠ TypeRef.binaryName := by decide
  have hmodule : (⟨"System.IO", none⟩ : ImportSpec).moduleName ≠ "" := by decide
  obtain ⟨t', hrun, -, -, -, hremains⟩ :=
    nativized_of_replaceBinary hwf hbinary hmodule
  obtain ⟨_, s, hrun', hget, hput, himports⟩ := Edit.exists_eq_ok
    (r := (Edit.replaceBinary "Stream" ⟨"System.IO", none⟩).run filesOfBinary)
    (P := fun _ s => s.valueType? ⟨2⟩ = some (.external "Stream")
      ∧ s.valueType? ⟨4⟩ = some (.union "content"
        [.external "string", (TypeRef.external "Stream").nullable])
      ∧ s.imports ⟨1⟩ = [.ofModule "System.IO"]) (by decide +kernel)
  obtain ⟨-, rfl⟩ := EStateM.Result.ok.inj (hrun.symm.trans hrun')
  refine ⟨t', hrun, hget, hput, himports, fun x hx => ?_⟩
  have hindexer := ((hremains x).mp hx).2
  have hnone : ∀ i < filesOfBinary.size, filesOfBinary.kind? ⟨i⟩ ≠ some .indexer :=
      by
    decide +kernel
  obtain ⟨e, he, -⟩ := kind?_eq_some_iff.mp hindexer
  exact hnone x.index (index_lt_of_get? he) hindexer

/-- A tree of one class, with an indexer that returns binary data. -/
def filesByName : Tree :=
  Operation.runAll
    [.addNew .classes ⟨0⟩ (.classDecl "Files" .requestBuilder),
      .addNew .indexer ⟨1⟩
        (.indexer "item" (.external "string") (.external "binary"))]
    initial

/-- The indexer returns binary data afterwards. -/
theorem binary_remains_of_replaceBinary :
    WellFormed filesByName
      ∧ ∃ t', (Edit.replaceBinary "Stream" ⟨"System.IO", none⟩).run filesByName =
        .ok () t' ∧ SaysBinary t' ⟨2⟩ := by
  refine ⟨(Operation.fullyNamed_runAll _ fullyNamed_initial).wellFormed, ?_⟩
  obtain ⟨_, t', hrun, habove, hitem⟩ := Edit.exists_eq_ok
    (r := (Edit.replaceBinary "Stream" ⟨"System.IO", none⟩).run filesByName)
    (P := fun _ s => s.isAncestor s.root ⟨2⟩ = true
      ∧ s.get? ⟨2⟩ = some ⟨"item", some ⟨1⟩, [], none,
        .indexer ⟨.external "string", .external "binary"⟩⟩)
    (by decide +kernel)
  exact ⟨t', hrun, Or.inr (isAncestor_imp_ancestor habove), _, hitem, by decide,
    List.any_eq_true.mp (by decide)⟩

end Tree

end CodeModel
