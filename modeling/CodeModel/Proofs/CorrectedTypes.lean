import CodeModel.Proofs.Keywords
import CodeModel.Proofs.Resting
import CodeModel.Proofs.Successes

/-!
# Types by the names of the target

A turn of the traversal corrects one element: first by what the element is for,
which may install a type of another name, and then every reference by its name,
the type just installed included. The element corrected depends on what it was
and on the name of its owner, and no turn changes a name, so the turns add up to
one change of every element.

* **`NameMap.Conclusive`**: what replaces a name is not replaced in turn, so a
  reference is done with in one turn.
* **`Element.references_correct`**: the references of a corrected member have
  all been named anew, in whichever slot and at whichever depth of a union.
* **`Corrected`**: what a tree has become.

Main statement: `corrected_of_correctTypes`, the traversal goes through and
leaves no name that has a replacement, and there is none in what has been
refined for TypeScript.
-/

namespace CodeModel

/-! ## Names -/

/-- What replaces a name is not replaced in turn. -/
def NameMap.Conclusive (renames : NameMap String) : Prop :=
  ∀ name replacement, renames.get? name = some replacement →
    renames.get? replacement = none

/-- A table is conclusive if none of its new names is to be replaced; this is
    how the tables of the targets are checked. -/
theorem NameMap.conclusive_of_forall {renames : NameMap String}
    (h : ∀ entry ∈ renames.entries, renames.get? entry.2 = none) :
    renames.Conclusive := by
  intro name replacement hname
  obtain ⟨before, after, hentries, -⟩ := List.lookup_eq_some_iff.mp hname
  refine h (name, replacement) ?_
  rw [hentries]
  exact List.mem_append_right _ List.mem_cons_self

/-- The names of the abstractions that TypeScript knows by others. -/
theorem Configuration.conclusive_typescriptCorrections :
    typescriptCorrections.renames.Conclusive :=
  NameMap.conclusive_of_forall (by decide +kernel)

namespace TypeRef

variable {renames : NameMap String}

/-- Whether a reference is known by its name alone, and the name has a
    replacement. -/
def isReplaceable (renames : NameMap String) (r : TypeRef) : Bool :=
  r.isExternal && (renames.get? r.name).isSome

/-- With a conclusive table one rewriting is enough. -/
theorem isReplaceable_correctNames (h : renames.Conclusive) (r : TypeRef) :
    (r.correctNames renames).isReplaceable renames = false := by
  obtain ⟨name, target, isNullable, isCollection⟩ := r
  cases target with
  | external =>
      show (renames.get? ((renames.get? name).getD name)).isSome = false
      cases hname : renames.get? name with
      | none => rw [Option.getD_none, hname, Option.isSome_none]
      | some replacement =>
          rw [Option.getD_some, h name replacement hname, Option.isSome_none]
  | declared d => rfl
  | union members => rfl

/-- Whether its value may be absent changes nothing of what a reference and its
    members are known by. -/
theorem any_isReplaceable_walk_nullable (renames : NameMap String) (r : TypeRef) :
    r.nullable.walk.any (isReplaceable renames)
      = r.walk.any (isReplaceable renames) := by
  obtain ⟨name, target, isNullable, isCollection⟩ := r
  rw [nullable, walk, walk, List.any_cons, List.any_cons]
  rfl

end TypeRef

/-! ## Elements -/

namespace TypeCorrections

variable (c : TypeCorrections) (owner : String)

/-- What a correction does by kind leaves the kind alone. -/
theorem kind_correctKind (content : Content) :
    (c.correctKind owner content).kind = content.kind := by
  cases content with
  | property p => rw [correctKind]; split <;> rfl
  | method m => rw [correctKind]; split <;> rfl
  | _ => rfl

/-- Correcting names reaches every slot of what is no declaration. -/
theorem correctTypes_eq_mapTypes {content : Content}
    (h : content.kind ∈ [.property, .method, .parameter, .indexer]) :
    c.correctTypes content = content.mapTypes (TypeRef.correctNames c.renames) := by
  cases content with
  | property _ | method _ | parameter _ | indexer _ => rfl
  | namespaceDecl _ | classDecl _ | enumDecl _ => simp [Content.kind] at h

end TypeCorrections

namespace Element

/-- The element with its types corrected, `owner` being the name of what holds
    it. -/
def correct (c : TypeCorrections) (owner : String) : Element → Element :=
  mapContent fun content => c.correctTypes (c.correctKind owner content)

variable {c : TypeCorrections} {e : Element}

/-- Corrections keep places and names. -/
theorem frame_correct (c : TypeCorrections) (owner : String) (e : Element) :
    (e.correct c owner).frame = e.frame :=
  frame_mapContent (c.kind_correct owner) (c.token?_correct owner) e

/-- All that a corrected member refers to has been named anew, with what has
    been installed for its kind. -/
theorem references_correct (c : TypeCorrections) (owner : String)
    (hkind : e.kind ∈ [.property, .method, .parameter, .indexer]) :
    (e.correct c owner).references
      = (e.mapContent (c.correctKind owner)).references.map
        (TypeRef.correctNames c.renames) := by
  have hinstalled : (c.correctKind owner e.content).kind
      ∈ [.property, .method, .parameter, .indexer] := by
    rw [c.kind_correctKind]
    exact hkind
  have htypes : e.correct c owner
      = (e.mapContent (c.correctKind owner)).mapTypes
        (TypeRef.correctNames c.renames) := by
    rw [correct, mapContent, c.correctTypes_eq_mapTypes hinstalled]
    rfl
  rw [htypes]
  exact references_rename _ _

/-- So no name is left that has a replacement. -/
theorem not_isReplaceable_of_mem_references_correct {owner : String}
    (h : c.renames.Conclusive)
    (hkind : e.kind ∈ [.property, .method, .parameter, .indexer]) {r : TypeRef}
    (hr : r ∈ (e.correct c owner).references) :
    r.isReplaceable c.renames = false := by
  rw [references_correct c owner hkind] at hr
  obtain ⟨r₀, -, rfl⟩ := List.mem_map.mp hr
  exact TypeRef.isReplaceable_correctNames h r₀

/-- Letting a property be absent changes nothing of what the element is known to
    refer to. -/
theorem any_isReplaceable_references_makeNullable (renames : NameMap String)
    (e : Element) :
    (e.mapProperty fun p => { p with type := p.type.nullable }).references.any
      (TypeRef.isReplaceable renames)
      = e.references.any (TypeRef.isReplaceable renames) := by
  obtain ⟨name, parent, children, description, content⟩ := e
  cases content with
  | property p =>
      show ([p.type.nullable].flatMap TypeRef.walk).any _
        = ([p.type].flatMap TypeRef.walk).any _
      rw [List.flatMap_singleton, List.flatMap_singleton]
      exact TypeRef.any_isReplaceable_walk_nullable renames p.type
  | _ => rfl

end Element

namespace Tree

variable {c : TypeCorrections} {t s t' : Tree} {id x : ElementId}
  {done : List ElementId}

/-! ## Turn by turn -/

/-- The name of what holds an element, empty if there is none. -/
def ownerName (t : Tree) (id : ElementId) : String :=
  ((t.parent? id).bind t.name?).getD ""

/-- What is changed by some turns. -/
def correctBy (t : Tree) (c : TypeCorrections) (done : List ElementId)
    (x : ElementId) (e : Element) : Element :=
  if x ∈ done then e.correct c (t.ownerName x) else e

theorem frame_correctBy (t : Tree) (c : TypeCorrections) (done : List ElementId)
    (x : ElementId) (e : Element) : (t.correctBy c done x e).frame = e.frame := by
  rw [correctBy]
  split
  · exact e.frame_correct c _
  · rfl

/-- The owner of an element is told by places and names. -/
theorem SameFrames.ownerName_eq (h : SameFrames t s) (id : ElementId) :
    s.ownerName id = t.ownerName id := by
  rw [ownerName, ownerName, h.samePlaces.parent?_eq, funext h.name?_eq]

/-- The turn of an element, on whatever the turns before it made. -/
theorem ChangedBy.correct (h : ChangedBy (t.correctBy c done) t s)
    (hnot : id ∉ done) :
    ChangedBy (t.correctBy c (done ++ [id])) t
      (s.modify id (Element.correct c (s.ownerName id))) := by
  have hframes : SameFrames t s := h.sameFrames fun x e _ =>
    t.frame_correctBy c done x e
  refine (h.trans (changedBy_modify s id _)).congr fun x e _ => ?_
  rw [hframes.ownerName_eq, correctBy, correctBy]
  by_cases hx : x = id
  · subst hx
    simp [hnot]
  · simp [hx]

/-- The whole traversal. -/
theorem succeeds_correctTypes_each (c : TypeCorrections) (hwl : WellLinked t) :
    Edit.Succeeds (Edit.correctTypes c) t fun _ s =>
      ChangedBy (t.correctBy c (t.descendants t.root)) t s := by
  refine Edit.succeeds_crawlWith_done (I := fun done _ s =>
    ChangedBy (t.correctBy c done) t s)
    (fun done _ s id h hid => Edit.isAttached_of_samePlaces hwl ?_ hid)
    (fun done id rest _ s hitems h => ?_) ((changedBy_refl t).congr
      fun x e _ => by simp [correctBy])
  · exact (h.sameFrames fun x e _ => t.frame_correctBy c done x e).samePlaces
  · exact Edit.succeeds_get_bind (Edit.succeeds_modifyElement
      (h.correct (hwl.turn_of_descendants_eq hitems).1))

/-! ## What has been corrected in the end -/

/-- Tree `t'` is `t` with the types of everything below the root corrected, by
    what it is for, by its owner and by their names. -/
structure Corrected (c : TypeCorrections) (t t' : Tree) : Prop where
  root_eq : t'.root = t.root
  get?_below : ∀ x, Ancestor t t.root x →
    t'.get? x = (t.get? x).map (Element.correct c (t.ownerName x))
  get?_other : ∀ x, ¬ Ancestor t t.root x → t'.get? x = t.get? x

/-- Visiting the whole subtree corrects all that is below the root. -/
theorem corrected_of_changedBy (hwl : WellLinked t)
    (h : ChangedBy (t.correctBy c (t.descendants t.root)) t t') :
    Corrected c t t' := by
  refine ⟨h.root_eq, fun x hx => ?_, fun x hx => ?_⟩
  · rw [h.get?_eq]
    refine Option.map_congr fun e _ => ?_
    rw [correctBy, if_pos (hwl.mem_descendants_iff.mpr hx)]
  · rw [h.get?_eq]
    refine (Option.map_congr fun e _ => ?_).trans Option.map_id'
    rw [correctBy, if_neg fun hmem => hx (hwl.mem_descendants_iff.mp hmem)]

/-- A corrected tree has its elements in their places and under their names. -/
theorem Corrected.sameFrames (h : Corrected c t t') : SameFrames t t' := by
  refine ⟨h.root_eq, fun x => ?_⟩
  by_cases hx : Ancestor t t.root x
  · rw [h.get?_below x hx]
    cases t.get? x with
    | none => rfl
    | some e => exact congrArg some (e.frame_correct c _)
  · rw [h.get?_other x hx]

/-- An attached property, method, parameter or indexer of which some type is
    known by a name that has a replacement, in whichever slot and at whichever
    depth of a union. -/
def SaysReplaceable (renames : NameMap String) (t : Tree) (x : ElementId) : Prop :=
  Attached t x ∧ ∃ e, t.get? x = some e
    ∧ e.kind ∈ [.property, .method, .parameter, .indexer]
    ∧ ∃ r ∈ e.references, r.isReplaceable renames = true

/-- With a conclusive table nothing attached says a replaceable name any
    longer. -/
theorem Corrected.not_saysReplaceable (h : Corrected c t t') (hwl : WellLinked t)
    (hc : c.renames.Conclusive) (x : ElementId) :
    ¬ SaysReplaceable c.renames t' x := by
  rintro ⟨hattached, e', he', hkind, r, hr, hreplaceable⟩
  obtain ⟨e, he, hframe⟩ := h.sameFrames.exists_get? he'
  rw [Element.kind_eq_of_frame_eq hframe] at hkind
  have hbelow : Ancestor t t.root x := by
    refine (h.sameFrames.samePlaces.attached_iff.mp hattached).resolve_left ?_
    rintro rfl
    have hroot := hwl.kind?_root
    rw [kind?, he, Option.map_some] at hroot
    rw [Option.some.inj hroot] at hkind
    simp at hkind
  obtain rfl :=
    Option.some.inj (he'.symm.trans ((h.get?_below x hbelow).trans (congrArg _ he)))
  rw [Element.not_isReplaceable_of_mem_references_correct hc hkind hr]
    at hreplaceable
  cases hreplaceable

/-! ## After TypeScript -/

theorem saysReplaceable_of_modify {renames : NameMap String}
    (h : SaysReplaceable renames (t.modify id
      (Element.mapProperty fun p => { p with type := p.type.nullable })) x) :
    SaysReplaceable renames t x := by
  obtain ⟨hattached, e', he', hkind, hr⟩ := h
  have hframes := sameFrames_modify t id
    (Element.frame_mapProperty fun p => { p with type := p.type.nullable })
  refine ⟨hframes.samePlaces.attached_iff.mp hattached, ?_⟩
  obtain ⟨e, he, rfl⟩ := (changedBy_modify t id _).exists_of_get? he'
  refine ⟨e, he, ?_⟩
  split at hkind
  next hx =>
    rw [if_pos hx, ← List.any_eq_true,
      Element.any_isReplaceable_references_makeNullable, List.any_eq_true] at hr
    rw [Element.kind_eq_of_frame_eq (Element.frame_mapProperty _ e)] at hkind
    exact ⟨hkind, hr⟩
  next hx =>
    rw [if_neg hx] at hr
    exact ⟨hkind, hr⟩

/-- Making properties of enums nullable brings no replaceable name back. -/
theorem not_saysReplaceable_of_makeEnumPropertiesNullable {renames : NameMap String}
    (h : ∀ x, ¬ SaysReplaceable renames t x) {u : Unit}
    (hrun : Edit.makeEnumPropertiesNullable.run t = .ok u t') :
    ∀ x, ¬ SaysReplaceable renames t' x := by
  refine Edit.crawl_induction (I := fun s => ∀ x, ¬ SaysReplaceable renames s x)
    (fun s id s' hs _ hvisit => ?_) h hrun
  rw [Edit.run_get_bind] at hvisit
  split at hvisit
  · rw [Edit.run_modifyElement_eq_ok_iff] at hvisit
    rw [← hvisit]
    exact fun x hx => hs x (saysReplaceable_of_modify hx)
  · exact (Edit.run_pure_eq_ok_iff.mp hvisit).2 ▸ hs

end Tree

namespace Configuration

open CodeModel.Tree

variable {t t' : Tree} {u : Unit}

/-- The passes for TypeScript correct types but for one that comes last, which
    lets properties be absent. -/
theorem not_saysReplaceable_of_refine {c : Configuration}
    (hlanguage : c.language = .typescript) (hwf : WellFormed t)
    (hrun : (refine c).run t = .ok u t') (x : ElementId) :
    ¬ SaysReplaceable typescriptCorrections.renames t' x := by
  have hpasses : c.passes =
      ([.seedImports typescriptImports, .wrapUnions .siblingClasses] ++ c.flattening
        ++ [.escapeReservedNames c.reservedNames (.suffix "_escaped"),
          .importReferenced true]
        ++ c.asyncSuffix
        ++ [.resolveImportPaths, .implementInModels "Parsable"
          (.ofSymbol typescriptAbstractions "Parsable")])
      ++ .correctTypes typescriptCorrections :: [.makeEnumPropertiesNullable] := by
    rw [passes, hlanguage, typescriptPasses, List.append_assoc _ [_, _] [_, _]]
    rfl
  obtain ⟨s, m, hs, hcorrect, -, hrest⟩ := exists_run_of_refine hwf hrun hpasses
  obtain ⟨m', hnullable, hrest⟩ := Pipeline.run_forM_cons_eq_ok_iff.mp hrest
  obtain rfl := Pipeline.run_forM_nil_eq_ok_iff.mp hrest
  refine not_saysReplaceable_of_makeEnumPropertiesNullable (fun y => ?_) hnullable x
  have hwl := hs.toWellLinked
  obtain ⟨_, m₁, hrun₁, hchanged⟩ :=
    succeeds_correctTypes_each typescriptCorrections hwl
  obtain ⟨-, rfl⟩ := EStateM.Result.ok.inj (hcorrect.symm.trans hrun₁)
  exact (corrected_of_changedBy hwl hchanged).not_saysReplaceable hwl
    conclusive_typescriptCorrections y

end Configuration

namespace Tree

variable {t : Tree}

/-- If what replaces a name is not replaced in turn, the traversal goes through.
    Everything below the root has then been corrected and all else is as it was,
    and no attached property, method, parameter or indexer has a type that is
    known by a name with a replacement. The names of TypeScript are such, and
    what has been refined for TypeScript has no type known by one that it
    replaces. -/
theorem corrected_of_correctTypes (hwf : WellFormed t) :
    (∀ c : TypeCorrections, c.renames.Conclusive →
        ∃ t', (Edit.correctTypes c).run t = .ok () t' ∧ Corrected c t t'
          ∧ ∀ x, ¬ SaysReplaceable c.renames t' x)
      ∧ Configuration.typescriptCorrections.renames.Conclusive
      ∧ ∀ (c : Configuration) (u : Unit) (t' : Tree), c.language = .typescript →
        (refine c).run t = .ok u t' →
          ∀ x, ¬ SaysReplaceable Configuration.typescriptCorrections.renames t' x :=
            by
  have hwl := hwf.toWellLinked
  refine ⟨fun c hc => ?_,
    Configuration.conclusive_typescriptCorrections, fun c u t' hlanguage hrun x =>
    Configuration.not_saysReplaceable_of_refine hlanguage hwf hrun x⟩
  obtain ⟨_, t', hrun, hchanged⟩ := succeeds_correctTypes_each c hwl
  have h := corrected_of_changedBy hwl hchanged
  exact ⟨t', hrun, h, h.not_saysReplaceable hwl hc⟩

/-- A tree of a class with additional data and a deserializer, and of one with
    an indexer of two types and a method that takes a union. -/
def orderTypes : Tree :=
  Operation.runAll
    [.addNew .classes ⟨0⟩ (.classDecl "Order" .model),
      .addNew .properties ⟨1⟩
        (.property "more" .additionalData (.external "IDictionary")),
      .addNew .methods ⟨1⟩
        (.method "fields" .deserializer (.external "IDictionary")),
      .addNew .classes ⟨0⟩ (.classDecl "Orders" .requestBuilder),
      .addNew .indexer ⟨4⟩
        (.indexer "item" (.external "Stream") (.external "DateTimeOffset")),
      .addNew .methods ⟨4⟩ (.method "find" .requestExecutor (.external "Stream")),
      .addNew .parameters ⟨6⟩
        (.parameter "by" .requestBody
          (.union "By" [.external "DateTimeOffset", .external "string"]))]
    initial

/-- Corrections that install a type of a name that has a replacement. -/
def bagCorrections : TypeCorrections where
  renames := NameMap.ofList [("Stream", "ReadableStream"), ("Bag", "Map")]
  additionalData := some ⟨"Bag", "new Map()"⟩
  deserializerReturn := some "Bag"

/-- What has been installed is named anew in the same turn. Refined for
    TypeScript, the union is a class of its own with a property for each member,
    and that is named anew as well. -/
theorem corrected_of_correctTypes_orderTypes :
    (∃ t', (Edit.correctTypes bagCorrections).run orderTypes = .ok () t'
        ∧ t'.valueType? ⟨2⟩ = some (.external "Map")
        ∧ t'.valueType? ⟨3⟩ = some (.external "Map")
        ∧ ∀ x, ¬ SaysReplaceable bagCorrections.renames t' x)
      ∧ ∃ t', (refine { language := .typescript }).run orderTypes = .ok () t'
        ∧ t'.valueType? ⟨3⟩
          = some (.external "Map<string, (item: Order, node: ParseNode) => void>")
        ∧ t'.valueType? ⟨7⟩ = some (.declared "By" ⟨8⟩)
        ∧ t'.valueType? ⟨9⟩ = some (TypeRef.external "Date").nullable
        ∧ ∀ x, ¬ SaysReplaceable Configuration.typescriptCorrections.renames t' x :=
          by
  have hwf : WellFormed orderTypes :=
    (Operation.fullyNamed_runAll _ fullyNamed_initial).wellFormed
  obtain ⟨hcorrect, -, hrefine⟩ := corrected_of_correctTypes hwf
  constructor
  · obtain ⟨t', hrun, -, hnone⟩ :=
      hcorrect bagCorrections (NameMap.conclusive_of_forall (by decide +kernel))
    obtain ⟨_, s, hrun', hmore, hfields⟩ := Edit.exists_eq_ok
      (r := (Edit.correctTypes bagCorrections).run orderTypes)
      (P := fun _ s => s.valueType? ⟨2⟩ = some (.external "Map")
        ∧ s.valueType? ⟨3⟩ = some (.external "Map"))
      (by decide +kernel)
    obtain ⟨-, rfl⟩ := EStateM.Result.ok.inj (hrun.symm.trans hrun')
    exact ⟨t', hrun, hmore, hfields, hnone⟩
  · obtain ⟨t', hrun, hfields, hby, hdate⟩ :
        ∃ t', (refine { language := .typescript }).run orderTypes = .ok () t'
          ∧ t'.valueType? ⟨3⟩
            = some (.external "Map<string, (item: Order, node: ParseNode) => void>")
          ∧ t'.valueType? ⟨7⟩ = some (.declared "By" ⟨8⟩)
          ∧ t'.valueType? ⟨9⟩ = some (TypeRef.external "Date").nullable :=
      Configuration.exists_refine_eq_ok rfl (by decide +kernel)
    exact ⟨t', hrun, hfields, hby, hdate, hrefine _ () t' rfl hrun⟩

end Tree

end CodeModel
