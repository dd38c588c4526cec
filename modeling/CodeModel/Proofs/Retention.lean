import CodeModel.Proofs.Bindings
import CodeModel.Refine.Retyping

/-!
# What is kept of an element

Passes rename elements, show other names in their types and correct what the
types are, but none makes an element another one. What stays is read off the
content, apart from names and places.

* **`Nature`**: what an element is and what it is for.
* **`Element.ownTypes`**: the types of a member or of the header of a class;
  imports are left out.
* **`Element.wireName?`**: what a class or property is called on the wire.
* **`Element.Holds e e'`**: what `e` was, and what its types were bound to, is
  the same of `e'`.

Main statements: `holds_…`, one for each change that a pass makes to the content
of an element.
-/

namespace CodeModel

/-- What an element is and what it is for, with the data that no pass touches. -/
inductive Nature where
  | namespaceDecl
  | classDecl (kind : ClassKind)
  | enumDecl (options : List String)
  | method (kind : MethodKind) (isAsync : Bool)
  | property (kind : PropertyKind)
  | parameter (kind : ParameterKind)
  | indexer
deriving DecidableEq

namespace Nature

/-- Whether it is that of a method by which a model is read. -/
def isDeserializer : Nature → Bool
  | method .deserializer _ => true
  | _ => false

/-- The kind of elements of a nature. -/
def kind : Nature → NodeKind
  | namespaceDecl => .namespaceDecl
  | classDecl _ => .classDecl
  | enumDecl _ => .enumDecl
  | method _ _ => .method
  | property _ => .property
  | parameter _ => .parameter
  | indexer => .indexer

end Nature

namespace TypeRef

/-- The declaration that a type is bound to, and whether many values of it are
    meant. -/
def binding? (r : TypeRef) : Option (ElementId × Bool) :=
  r.definition?.map (·, r.isCollection)

/-- Type `r'` is bound as `r` is and is a union if `r` is one; it may show other
    names. -/
structure Alike (r r' : TypeRef) : Prop where
  binding?_eq : r'.binding? = r.binding?
  isUnion_eq : r'.isUnion = r.isUnion

theorem alike_refl (r : TypeRef) : Alike r r :=
  ⟨rfl, rfl⟩

theorem Alike.trans {r s u : TypeRef} (h : Alike r s) (h' : Alike s u) :
    Alike r u :=
  ⟨h'.binding?_eq.trans h.binding?_eq, h'.isUnion_eq.trans h.isUnion_eq⟩

/-- A reference under another name is alike. -/
theorem alike_rename (f : TypeRef → String) (r : TypeRef) :
    Alike r (r.rename f) := by
  obtain ⟨name, target, isNullable, isCollection⟩ := r
  cases target <;> exact ⟨rfl, rfl⟩

/-- So is one with the same target, for one value or for many as before. -/
theorem alike_of_target_eq {r s : TypeRef} (htarget : s.target = r.target)
    (hcollection : s.isCollection = r.isCollection) : Alike r s := by
  constructor
  · rw [binding?, binding?, definition?, definition?, htarget, hcollection]
  · rw [isUnion, isUnion, htarget]

/-- A union is bound to nothing. -/
theorem definition?_eq_none_of_isUnion {r : TypeRef} (h : r.isUnion = true) :
    r.definition? = none := by
  obtain ⟨name, target, isNullable, isCollection⟩ := r
  cases target with
  | union members => rfl
  | external => cases h
  | declared id => cases h

/-- Unions are held by unions only. -/
theorem isUnion_eq_false_of_mem_walk {r s : TypeRef} (h : r.isUnion = false)
    (hs : s ∈ r.walk) : s.isUnion = false := by
  obtain ⟨name, target, isNullable, isCollection⟩ := r
  cases target with
  | union members => cases h
  | external =>
      rw [List.mem_singleton.mp hs]
      rfl
  | declared id =>
      rw [List.mem_singleton.mp hs]
      rfl

/-- The walk of a reference has the reference. -/
theorem mem_walk_self (r : TypeRef) : r ∈ r.walk := by
  obtain ⟨name, target, isNullable, isCollection⟩ := r
  exact List.mem_cons_self

end TypeRef

namespace Element

/-- What the element is and what it is for. -/
def nature (e : Element) : Nature :=
  match e.content with
  | .namespaceDecl _ => .namespaceDecl
  | .classDecl c => .classDecl c.kind
  | .enumDecl options => .enumDecl options
  | .method m => .method m.kind m.isAsync
  | .property p => .property p.kind
  | .parameter p => .parameter p.kind
  | .indexer _ => .indexer

/-- The type of the index, if the element is an indexer. -/
def indexType? (e : Element) : Option TypeRef :=
  match e.content with
  | .indexer i => some i.indexType
  | _ => none

/-- The types of the element, those of its imports apart. -/
def ownTypes (e : Element) : List TypeRef :=
  match e.content with
  | .classDecl c => c.inherits.toList ++ c.implements
  | _ => e.indexType?.toList ++ e.valueType?.toList

/-- The declarations that the element refers to other than through its imports. -/
def ownTargets (e : Element) : List ElementId :=
  e.ownTypes.flatMap TypeRef.definitions

/-- Where a class or property keeps its name on the wire. -/
def wireSlot? (e : Element) : Option (Option String) :=
  match e.content with
  | .classDecl c => some c.serializationName
  | .property p => some p.serializationName
  | _ => none

/-- The name of a class or property on the wire: the one that it keeps, or else
    its name. -/
def wireName? (e : Element) : Option String :=
  e.wireSlot?.map (·.getD e.name)

/-- The value of the element has no union type. -/
def UnionFree (e : Element) : Prop :=
  ∀ r, e.valueType? = some r → r.isUnion = false

/-- Element `e'` is what `e` was, with types bound as those of `e` were, but for
    what deserializers return. The type of an index differs in the names shown
    at most, and the type of a value is a union only if it was one. -/
structure Holds (e e' : Element) : Prop where
  nature_eq : e'.nature = e.nature
  description_eq : e'.description = e.description
  value : e.nature.isDeserializer = false →
    ∀ b, e.valueType?.bind TypeRef.binding? = some b →
    e'.valueType?.bind TypeRef.binding? = some b
  index : ∀ r, e.indexType? = some r → ∃ r', e'.indexType? = some r'
    ∧ TypeRef.Alike r r'
  unionFree : e.UnionFree → e'.UnionFree

/-- Element `e'` goes by the name of `e` on the wire, refers to nothing new of
    its own, and imports what `e` imports. -/
structure Mended (e e' : Element) : Prop where
  wireSlot?_eq : e'.wireSlot? = e.wireSlot?
  ownTargets_subset : ∀ d ∈ e'.ownTargets, d ∈ e.ownTargets
  keys_subset : ∀ i ∈ e.imports, ∃ j ∈ e'.imports, j.key = i.key

/-- For the element `e`, which is to be renamed, `f` writes down what it goes by
    on the wire, where there is room for it, and changes neither types nor
    imports. -/
structure NotesWireName (e : Element) (f : Element → Element) : Prop where
  wireSlot?_eq : ∀ e₁, e₁.wireSlot? = e.wireSlot? →
    (f e₁).wireSlot? = e.wireSlot?.map fun s => some (s.getD e.name)
  ownTypes_eq : ∀ e₁, (f e₁).ownTypes = e₁.ownTypes
  imports_eq : ∀ e₁, (f e₁).imports = e₁.imports

/-! ## Reading -/

/-- The nature tells the kind. -/
theorem kind_nature (e : Element) : e.nature.kind = e.kind := by
  unfold nature kind
  cases e.content <;> rfl

theorem kind_eq_of_nature_eq {e e' : Element} (h : e'.nature = e.nature) :
    e'.kind = e.kind := by
  rw [← kind_nature, ← kind_nature, h]

/-- Outside of classes the types of an element's own are those of its index and
    its value. -/
theorem mem_ownTypes_iff {e : Element} (h : e.kind ≠ .classDecl) {r : TypeRef} :
    r ∈ e.ownTypes ↔ e.indexType? = some r ∨ e.valueType? = some r := by
  have hmember : e.ownTypes = e.indexType?.toList ++ e.valueType?.toList := by
    rw [ownTypes]
    unfold kind at h
    cases hc : e.content with
    | classDecl c =>
        rw [hc] at h
        exact absurd rfl h
    | _ => rfl
  rw [hmember, List.mem_append, Option.mem_toList, Option.mem_toList]

/-- A class has no value. -/
theorem kind_ne_classDecl_of_valueType? {e : Element} {r : TypeRef}
    (h : e.valueType? = some r) : e.kind ≠ .classDecl := by
  rw [valueType?] at h
  unfold kind
  cases hc : e.content <;> rw [hc] at h <;> simp [Content.kind] at h ⊢

theorem ownTypes_eq_of_content_eq {e e' : Element} (h : e'.content = e.content) :
    e'.ownTypes = e.ownTypes := by
  rw [ownTypes, ownTypes, indexType?, indexType?, valueType?, valueType?, h]

theorem ownTargets_eq_of_ownTypes_eq {e e' : Element}
    (h : e'.ownTypes = e.ownTypes) : e'.ownTargets = e.ownTargets := by
  rw [ownTargets, ownTargets, h]

/-- What an element refers to of its own is part of what it refers to. -/
theorem mem_targets_of_mem_ownTargets {e : Element} {d : ElementId}
    (h : d ∈ e.ownTargets) : d ∈ e.targets := by
  obtain ⟨r, hr, hd⟩ := List.mem_flatMap.mp h
  refine mem_targets_iff.mpr ⟨r, ?_, hd⟩
  rw [ownTypes, indexType?, valueType?] at hr
  rw [typeSlots]
  cases hc : e.content <;> rw [hc] at hr
  case classDecl c => exact List.mem_append_left _ hr
  case namespaceDecl => exact absurd hr List.not_mem_nil
  all_goals exact hr

/-- Only indexers have an index. -/
theorem exists_indexType?_iff {e : Element} :
    (∃ r, e.indexType? = some r) ↔ e.kind = .indexer := by
  rw [indexType?]
  unfold kind
  cases e.content <;> simp [Content.kind]

/-- Namespaces have no value. -/
theorem valueType?_eq_none_of_namespace {e : Element}
    (h : e.kind = .namespaceDecl) : e.valueType? = none := by
  unfold kind at h
  rw [valueType?]
  cases hc : e.content <;> rw [hc] at h <;> first | rfl | cases h

/-- A property has a name on the wire. -/
theorem isSome_wireName?_of_property {e : Element} (h : e.kind = .property) :
    e.wireName?.isSome := by
  rw [wireName?, wireSlot?]
  unfold kind at h
  cases hc : e.content <;> rw [hc] at h <;> first | rfl | cases h

/-- Names on the wire are told by the name and what is written down. -/
theorem wireName?_eq {e e' : Element} (hname : e'.name = e.name)
    (hslot : e'.wireSlot? = e.wireSlot?) : e'.wireName? = e.wireName? := by
  rw [wireName?, wireName?, hname, hslot]

/-! ## Keeping -/

theorem holds_refl (e : Element) : Holds e e where
  nature_eq := rfl
  description_eq := rfl
  value _ _ hb := hb
  index r hr := ⟨r, hr, TypeRef.alike_refl r⟩
  unionFree h := h

/-- What holds twice holds. -/
theorem Holds.trans {e e' e'' : Element} (h : Holds e e') (h' : Holds e' e'') :
    Holds e e'' where
  nature_eq := h'.nature_eq.trans h.nature_eq
  description_eq := h'.description_eq.trans h.description_eq
  value hd b hb := h'.value (h.nature_eq ▸ hd) b (h.value hd b hb)
  index r hr := by
    obtain ⟨r', hr', halike⟩ := h.index r hr
    obtain ⟨r'', hr'', halike'⟩ := h'.index r' hr'
    exact ⟨r'', hr'', halike.trans halike'⟩
  unionFree hfree := h'.unionFree (h.unionFree hfree)

/-- A change under a condition holds if it does where it is made. -/
theorem Holds.ite {f : Element → Element} {e : Element} {p : Prop} [Decidable p]
    (h : p → Holds e (f e)) : Holds e (if p then f e else e) := by
  split
  next hp => exact h hp
  · exact holds_refl e

/-- An element that differs in links and name at most holds what it held. -/
theorem holds_of_content_eq {e e' : Element}
    (hdescription : e'.description = e.description)
    (hcontent : e'.content = e.content) : Holds e e' where
  nature_eq := by rw [nature, nature, hcontent]
  description_eq := hdescription
  value _ b hb := by
    rw [valueType?, hcontent]
    exact hb
  index r hr := by
    refine ⟨r, ?_, TypeRef.alike_refl r⟩
    rw [indexType?, hcontent]
    exact hr
  unionFree h r hr := by
    rw [valueType?, hcontent] at hr
    exact h r hr

/-- A change of the names that the types show, and of what is no type. -/
theorem holds_of_alike {e e' : Element} {f g : TypeRef → TypeRef}
    (hnature : e'.nature = e.nature) (hdescription : e'.description = e.description)
    (hvalue : e'.valueType? = e.valueType?.map f)
    (hindex : e'.indexType? = e.indexType?.map g) (hf : ∀ r, TypeRef.Alike r (f r))
    (hg : ∀ r, TypeRef.Alike r (g r)) : Holds e e' where
  nature_eq := hnature
  description_eq := hdescription
  value _ b hb := by
    obtain ⟨r, hr, hb⟩ := Option.bind_eq_some_iff.mp hb
    rw [hvalue, hr, Option.map_some, Option.bind_some, (hf r).binding?_eq]
    exact hb
  index r hr := ⟨g r, by rw [hindex, hr, Option.map_some], hg r⟩
  unionFree h r' hr' := by
    rw [hvalue] at hr'
    obtain ⟨r, hr, rfl⟩ := Option.map_eq_some_iff.mp hr'
    rw [(hf r).isUnion_eq]
    exact h r hr

/-- A change that does not touch the types of a member. -/
theorem holds_of_types_eq {e e' : Element} (hnature : e'.nature = e.nature)
    (hdescription : e'.description = e.description)
    (hvalue : e'.valueType? = e.valueType?)
    (hindex : e'.indexType? = e.indexType?) : Holds e e' :=
  holds_of_alike hnature hdescription (hvalue.trans Option.map_id'.symm)
    (hindex.trans Option.map_id'.symm)
    TypeRef.alike_refl TypeRef.alike_refl

/-- `mapValueType` is about the type of the value. -/
theorem valueType?_mapValueType (f : TypeRef → TypeRef) (e : Element) :
    (e.mapValueType f).valueType? = e.valueType?.map f := by
  obtain ⟨name, parent, children, description, content⟩ := e
  cases content <;> rfl

theorem indexType?_mapValueType (f : TypeRef → TypeRef) (e : Element) :
    (e.mapValueType f).indexType? = e.indexType? := by
  obtain ⟨name, parent, children, description, content⟩ := e
  cases content <;> rfl

theorem nature_mapValueType (f : TypeRef → TypeRef) (e : Element) :
    (e.mapValueType f).nature = e.nature := by
  obtain ⟨name, parent, children, description, content⟩ := e
  cases content <;> rfl

/-- A change of a class that leaves alone what it is for. -/
theorem holds_mapClass {f : ClassDecl → ClassDecl} (hf : ∀ c, (f c).kind = c.kind)
    (e : Element) : Holds e (e.mapClass f) := by
  obtain ⟨name, parent, children, description, content⟩ := e
  cases content with
  | classDecl c =>
      exact holds_of_types_eq (congrArg Nature.classDecl (hf c)) rfl rfl rfl
  | _ => exact holds_refl _

/-- A name is not part of what an element is. -/
theorem holds_withName (name : String) (e : Element) : Holds e (e.withName name) :=
  (holds_mapClass (f := fun c => { c with token := name }) (fun _ => rfl) e).trans
    (holds_of_content_eq rfl rfl)

theorem holds_mapImports (f : List Import → List Import) (e : Element) :
    Holds e (e.mapImports f) := by
  obtain ⟨name, parent, children, description, content⟩ := e
  cases content <;> exact holds_of_types_eq rfl rfl rfl rfl

theorem holds_keepWireName (name : String) (e : Element) :
    Holds e (e.keepWireName name) := by
  obtain ⟨oldName, parent, children, description, content⟩ := e
  cases content <;> exact holds_of_types_eq rfl rfl rfl rfl

/-- References under other names are alike. -/
theorem holds_mapTypes_rename (f : TypeRef → String) (e : Element) :
    Holds e (e.mapTypes (·.rename f)) := by
  refine holds_of_alike ?_ rfl (f := (·.rename f)) (g := (·.rename f)) ?_ ?_
    (TypeRef.alike_rename f)
    (TypeRef.alike_rename f)
  all_goals
    obtain ⟨name, parent, children, description, content⟩ := e
    cases content <;> rfl

/-- A value of a type alike is held. -/
theorem holds_mapValueType {f : TypeRef → TypeRef} (hf : ∀ r, TypeRef.Alike r (f r))
    (e : Element) : Holds e (e.mapValueType f) :=
  holds_of_alike (nature_mapValueType f e) rfl (valueType?_mapValueType f e)
    ((indexType?_mapValueType f e).trans Option.map_id'.symm) hf TypeRef.alike_refl

/-- Whether a value may be absent is not part of its binding. -/
theorem holds_makeNullable (e : Element) :
    Holds e (e.mapProperty fun p => { p with type := p.type.nullable }) := by
  obtain ⟨name, parent, children, description, content⟩ := e
  cases content with
  | property p =>
      have hf : ∀ r : TypeRef, TypeRef.Alike r r.nullable := fun r =>
        TypeRef.alike_of_target_eq rfl rfl
      exact holds_of_alike rfl rfl (f := TypeRef.nullable) (g := id) rfl rfl hf
        TypeRef.alike_refl
  | _ => exact holds_refl _

/-- Types bound elsewhere are unions if they were. -/
theorem unionFree_rebind {f : ElementId → ElementId} {e : Element}
    (h : e.UnionFree) : (e.mapTypes (·.rebind f)).UnionFree := by
  have hsame : ∀ r : TypeRef, (r.rebind f).isUnion = r.isUnion := by
    rintro ⟨name, target, isNullable, isCollection⟩
    cases target <;> rfl
  have hvalue : (e.mapTypes (·.rebind f)).valueType?
      = e.valueType?.map (·.rebind f) := by
    obtain ⟨name, parent, children, description, content⟩ := e
    cases content <;> rfl
  intro r' hr'
  rw [hvalue] at hr'
  obtain ⟨r, hr, rfl⟩ := Option.map_eq_some_iff.mp hr'
  rw [hsame]
  exact h r hr

/-- A type that is bound to nothing may be replaced by any but a union. -/
theorem holds_setValueType {r : TypeRef} (hr : r.isUnion = false) {e : Element}
    (he : e.valueType?.bind TypeRef.binding? = none) :
    Holds e (e.mapValueType fun _ => r) where
  nature_eq := nature_mapValueType _ e
  description_eq := rfl
  value _ b hb := by
    rw [he] at hb
    cases hb
  index s hs := ⟨s, (indexType?_mapValueType _ e).trans hs, TypeRef.alike_refl s⟩
  unionFree _ s hs := by
    rw [valueType?_mapValueType] at hs
    obtain ⟨_, -, rfl⟩ := Option.map_eq_some_iff.mp hs
    exact hr

/-- Corrections give only deserializers and unbound references other types. -/
theorem holds_correct (c : TypeCorrections) (owner : String) (e : Element) :
    Holds e (e.mapContent fun content =>
      c.correctTypes (c.correctKind owner content)) := by
  obtain ⟨name, parent, children, description, content⟩ := e
  have hnames : ∀ r : TypeRef, TypeRef.Alike r (r.correctNames c.renames) :=
    fun r =>
      TypeRef.alike_rename _ r
  cases content with
  | method m =>
      simp only [mapContent, TypeCorrections.correctKind]
      split
      next template hkind _ =>
        -- What a deserializer returns is known by its name alone.
        refine ⟨rfl, rfl, fun hd => ?_, fun r hr => ?_, fun _ r hr => ?_⟩
        · have hother : (Nature.method m.kind m.isAsync).isDeserializer = false :=
            hd
          rw [hkind] at hother
          cases hother
        · cases hr
        · rw [← Option.some.inj hr]
          rfl
      · exact holds_of_alike rfl rfl (f := (·.correctNames c.renames)) (g := id) rfl
          rfl hnames
          TypeRef.alike_refl
  | property p =>
      simp only [mapContent, TypeCorrections.correctKind]
      split
      next a _ _ =>
        refine holds_of_alike rfl rfl
          (f := fun r => (r.withName a.typeName).correctNames c.renames) (g := id)
          rfl rfl (fun r => ?_) TypeRef.alike_refl
        have hname : TypeRef.Alike r (r.withName a.typeName) :=
          TypeRef.alike_of_target_eq rfl rfl
        exact hname.trans (hnames _)
      · exact holds_of_alike rfl rfl (f := (·.correctNames c.renames)) (g := id) rfl
          rfl hnames
          TypeRef.alike_refl
  | parameter p =>
      exact holds_of_alike rfl rfl (f := (·.correctNames c.renames)) (g := id) rfl
        rfl hnames
        TypeRef.alike_refl
  | indexer i => exact holds_of_alike rfl rfl rfl rfl hnames hnames
  | _ => exact holds_refl _

end Element

namespace Tree

/-- The type of the index of an indexer. -/
def indexType? (t : Tree) (id : ElementId) : Option TypeRef :=
  (t.get? id).bind Element.indexType?

/-- The name of a class or property on the wire. -/
def wireName? (t : Tree) (id : ElementId) : Option String :=
  (t.get? id).bind Element.wireName?

end Tree

end CodeModel
