import CodeModel.Proofs.Bindings
import CodeModel.Proofs.Faces
import CodeModel.Refine.Pass

/-!
# Labels

Passes that give names and change nothing else that faces depend on are
described by what they make of the names: `Labels` are the names of all elements
and the names shown by the types of all parameters. What a pass makes of them is
read off its parameters: `Pass.newName?` is the name that an element gets,
`Pass.newTypeName` the name that a type known by its name alone gets, and a type
that is bound to a declaration follows it.

* **`Tree.faceUnder?`**: the face of an element under other labels.
* **`Labelled`**: a tree that shows some labels and is otherwise as it was.
* **`Labelled.face?_eq`**: in such a tree elements have the faces that they have
  under the labels.
* **`Labels.after`**: the labels once a pass has come to some elements.
-/

namespace CodeModel

namespace TypeRef

/-- What a reference stands for, as far as it shows without a look at the
    names. -/
def anchor (r : TypeRef) : Option ElementId × Bool × Bool :=
  (r.definition?, r.isExternal, r.isCollection)

/-- The anchor does not depend on the name shown. -/
theorem anchor_rename (f : TypeRef → String) (r : TypeRef) :
    (r.rename f).anchor = r.anchor := by
  obtain ⟨name, target, isNullable, isCollection⟩ := r
  cases target <;> rfl

/-- What is bound to a declaration is not known by its name alone. -/
theorem isExternal_of_definition? {r : TypeRef} {d : ElementId}
    (h : r.definition? = some d) : r.isExternal = false := by
  obtain ⟨name, target, isNullable, isCollection⟩ := r
  cases target with
  | declared id => rfl
  | _ => cases h

/-- Renamed, a reference shows the new name. -/
theorem name_rename (f : TypeRef → String) (r : TypeRef) :
    (r.rename f).name = f r := by
  obtain ⟨name, target, isNullable, isCollection⟩ := r
  rfl

end TypeRef

namespace Element

/-- What an element is and what its type as a parameter stands for. -/
def sketch (e : Element) : Role × Option (Option ElementId × Bool × Bool) :=
  (e.role, e.parameterType?.map TypeRef.anchor)

/-- Whether an element may be escaped depends on its role. -/
theorem isEscapable_eq_role (e : Element) : e.isEscapable = e.role.isEscapable := by
  obtain ⟨name, parent, children, description, content⟩ := e
  cases content <;> rfl

end Element

/-! ## Labels -/

/-- The names of all elements and the names that the types of all parameters
    show. -/
@[ext]
structure Labels where
  name : ElementId → String
  typeName : ElementId → String

namespace Tree

/-- The labels that a tree shows. -/
def labels (t : Tree) : Labels where
  name x := (t.name? x).getD ""
  typeName p := ((t.parameterType? p).map (·.name)).getD ""

/-- The types of the parameters of a method under some labels. -/
def signatureUnder (t : Tree) (L : Labels) (method : ElementId) : List String :=
  (t.childrenOfKind method .parameter).filterMap fun p =>
    (t.parameterType? p).map fun r =>
      if r.isCollection then L.typeName p ++ "[]" else L.typeName p

/-- The face of an element under some labels. -/
def faceUnder? (t : Tree) (L : Labels) (id : ElementId) : Option Face :=
  (t.role? id).map fun role => ⟨role, L.name id, t.signatureUnder L id⟩

/-- Tree `s` shows the labels `L`, as names of elements and in the types of
    parameters, and is otherwise as `t`, as far as collisions depend on it. -/
structure Labelled (t : Tree) (L : Labels) (s : Tree) : Prop where
  places : SamePlaces t s
  wellLinked : WellLinked s
  sketch_eq : ∀ x, (s.get? x).map Element.sketch = (t.get? x).map Element.sketch
  name_eq : ∀ x e, s.get? x = some e → e.name = L.name x
  typeName_eq : ∀ x e r, s.get? x = some e → e.parameterType? = some r →
    r.name = L.typeName x

variable {s s' t : Tree} {L L' : Labels}

/-- A tree shows its own labels. -/
theorem labelled_labels (hwl : WellLinked t) : Labelled t t.labels t where
  places := SamePlaces.refl t
  wellLinked := hwl
  sketch_eq _ := rfl
  name_eq x e he := by
    show e.name = ((t.get? x).map (·.name)).getD ""
    rw [he]
    rfl
  typeName_eq x e r he hr := by
    show r.name = (((t.get? x).bind (·.parameterType?)).map (·.name)).getD ""
    rw [he, Option.bind_some, hr]
    rfl

namespace Labelled

/-- The type of a parameter shows the name of its label. -/
theorem name_of_parameterType? (h : Labelled t L s) {x : ElementId} {r : TypeRef}
    (hr : s.parameterType? x = some r) : r.name = L.typeName x := by
  obtain ⟨e, he, hr⟩ := Option.bind_eq_some_iff.mp hr
  exact h.typeName_eq x e r he hr

/-- Roles are those of the tree at the beginning. -/
theorem role?_eq (h : Labelled t L s) (x : ElementId) : s.role? x = t.role? x := by
  have hread : ∀ s : Tree, s.role? x = ((s.get? x).map Element.sketch).map (·.1) :=
      by
    intro s
    show (s.get? x).map (·.role) = _
    cases s.get? x <;> rfl
  rw [hread, hread, h.sketch_eq]

/-- What the types of parameters are bound to is what it was. -/
theorem anchor_eq (h : Labelled t L s) (x : ElementId) :
    (s.parameterType? x).map TypeRef.anchor
      = (t.parameterType? x).map TypeRef.anchor := by
  have hread : ∀ s : Tree, (s.parameterType? x).map TypeRef.anchor =
      ((s.get? x).map Element.sketch).bind (·.2) := by
    intro s
    show ((s.get? x).bind (·.parameterType?)).map TypeRef.anchor = _
    cases s.get? x <;> rfl
  rw [hread, hread, h.sketch_eq]

/-- A signature is read off the labels: a bound type shows the name of its
    declaration, wherever that has been renamed. -/
theorem signature_eq (h : Labelled t L s) (method : ElementId) :
    s.signature method = t.signatureUnder L method := by
  rw [signature_eq_filterMap]
  show (s.childrenOfKind method .parameter).filterMap _
    = (t.childrenOfKind method .parameter).filterMap _
  rw [h.places.childrenOfKind_eq]
  refine List.filterMap_congr fun p _ => ?_
  have hanchor := h.anchor_eq p
  cases hr : s.parameterType? p with
  | none =>
      rw [hr] at hanchor
      rw [Option.map_eq_none_iff.mp hanchor.symm]
      rfl
  | some r =>
      rw [hr] at hanchor
      obtain ⟨r', hr', heq⟩ := Option.map_eq_some_iff.mp hanchor.symm
      have hcollection : r'.isCollection = r.isCollection := congrArg (·.2.2) heq
      rw [hr', Option.map_some, Option.map_some, hcollection,
        h.name_of_parameterType? hr]

/-- In a tree that shows some labels elements have the faces that they have
    under the labels. -/
theorem face?_eq (h : Labelled t L s) (x : ElementId) :
    s.face? x = t.faceUnder? L x := by
  rw [face?, faceUnder?, ← h.role?_eq, role?, Option.map_map, ← h.signature_eq]
  cases he : s.get? x with
  | none => rfl
  | some e =>
      rw [Option.map_some, Option.map_some, h.name_eq x e he]
      rfl

/-- A holder holds the faces that its elements have under the labels. -/
theorem faces_eq (h : Labelled t L s) (holder : ElementId) :
    s.faces holder = (t.children holder).filterMap (t.faceUnder? L) := by
  rw [faces, h.places.children_eq, funext h.face?_eq]

/-- A change of the elements leads to other labels when it leaves everything
    else. -/
theorem changed {F : ElementId → Element → Element} (h : Labelled t L s)
    (hwl : WellLinked s') (hc : ChangedBy F s s')
    (hplace : ∀ x e, s.get? x = some e → (F x e).place = e.place)
    (hsketch : ∀ x e, s.get? x = some e → (F x e).sketch = e.sketch)
    (hname : ∀ x e, s.get? x = some e → (F x e).name = L'.name x)
    (htype : ∀ x e r, s.get? x = some e → (F x e).parameterType? = some r →
      r.name = L'.typeName x) : Labelled t L' s' where
  places := h.places.trans (hc.samePlaces hplace)
  wellLinked := hwl
  sketch_eq x := by
    rw [← h.sketch_eq, hc.get?_eq, Option.map_map]
    cases he : s.get? x with
    | none => rfl
    | some e => exact congrArg some (hsketch x e he)
  name_eq x e' he' := by
    obtain ⟨e, he, rfl⟩ := hc.exists_of_get? he'
    exact hname x e he
  typeName_eq x e' r he' hr := by
    obtain ⟨e, he, rfl⟩ := hc.exists_of_get? he'
    exact htype x e r he hr

end Labelled

end Tree

/-! ## What a pass makes of labels -/

namespace Pass

/-- The name that an element gets from a visit of the pass. -/
def newName? : Pass → Role → String → Option String
  | addAsyncSuffix suffix, .method _ true, name =>
      if suffix.toList <:+ name.toList then none else some (name ++ suffix)
  | capitalizeNamespaces, .other .namespaceDecl, name =>
      if Text.capitalize name = name then none else some (Text.capitalize name)
  | escapeReservedNames reserved style, role, name =>
      if role.isEscapable && reserved.contains name
        then some (style.apply name) else none
  | _, _, _ => none

/-- The name that a type known by its name alone gets from the pass. -/
def newTypeName : Pass → String → String
  | replaceBinary typeName _, name =>
      if name = TypeRef.binaryName then typeName else name
  | correctTypes corrections, name => (corrections.renames.get? name).getD name
  | _, name => name

/-- Whether the pass leaves every element in its place and makes none. -/
def keepsPlaces : Pass → Bool
  | moveIntoNamesakes | wrapUnions _ | flattenInheritance | nestQueryClasses =>
      false
  | disambiguateProperties _ | addConstructors _ => false
  | _ => true

end Pass

namespace Tree

/-- The name that an element gets from a visit of a pass when it bears the name
    of some labels. -/
def newName? (t : Tree) (pass : Pass) (L : Labels) (id : ElementId) :
    Option String :=
  (t.role? id).bind fun role => pass.newName? role (L.name id)

/-- Passes without a rule for names give none. -/
theorem newName?_eq_none {t : Tree} {pass : Pass}
    (hnone : ∀ role name, pass.newName? role name = none) (L : Labels)
    (id : ElementId) : t.newName? pass L id = none := by
  rw [newName?]
  cases t.role? id with
  | none => rfl
  | some role => exact hnone role _

end Tree

namespace Labels

/-- The labels once a pass has come to the elements `ids`. -/
def after (t : Tree) (pass : Pass) (ids : List ElementId) (L : Labels) :
    Labels where
  name x := if x ∈ ids then (t.newName? pass L x).getD (L.name x) else L.name x
  typeName p :=
    match (t.parameterType? p).map TypeRef.anchor with
    | some (some d, _) =>
        if d ∈ ids
          ∧ t.isDeclaration d = true then (t.newName? pass L d).getD (L.typeName p)
        else L.typeName p
    | some (none, true, _) =>
        if p ∈ ids then pass.newTypeName (L.typeName p) else L.typeName p
    | _ => L.typeName p

variable {t : Tree} {pass : Pass} {L : Labels}

/-- A pass that comes to more elements does to each what it does when it comes
    to no other. -/
theorem after_append {a b : List ElementId} (hdisjoint : ∀ x ∈ a, x ∉ b) :
    (L.after t pass a).after t pass b = L.after t pass (a ++ b) := by
  have hname : ∀ x, x ∉ a → (L.after t pass a).name x = L.name x :=
    fun x hx => if_neg hx
  -- What the first part names is not in the second, which therefore sees the old
  -- names.
  have hnew : ∀ x, x ∉ a →
      t.newName? pass (L.after t pass a) x = t.newName? pass L x := by
    intro x hx
    rw [Tree.newName?, hname x hx]
    rfl
  have hnames : ((L.after t pass a).after t pass b).name
      = (L.after t pass (a ++ b)).name := by
    funext x
    show (if x ∈ b then _ else _) = (if x ∈ a ++ b then _ else _)
    by_cases ha : x ∈ a
    · rw [if_neg (hdisjoint x ha), if_pos (List.mem_append_left _ ha)]
      exact if_pos ha
    · by_cases hb : x ∈ b
      · rw [if_pos hb, if_pos (List.mem_append_right _ hb), hnew x ha, hname x ha]
      · rw [if_neg hb, if_neg fun h => (List.mem_append.mp h).elim ha hb,
          hname x ha]
  have htypes : ((L.after t pass a).after t pass b).typeName
      = (L.after t pass (a ++ b)).typeName := by
    funext p
    show (match (t.parameterType? p).map TypeRef.anchor with
      | some (some d, _) =>
          if d ∈ b
            ∧ t.isDeclaration d = true then _ else (L.after t pass a).typeName p
      | some (none, true, _) => if p ∈ b then _ else (L.after t pass a).typeName p
      | _ => (L.after t pass a).typeName p) = _
    dsimp only [after]
    rcases (t.parameterType? p).map TypeRef.anchor
      with _ | ⟨_ | d, isExternal, isCollection⟩
    · rfl
    · cases isExternal with
      | false => rfl
      | true =>
          by_cases ha : p ∈ a
          · simp [ha, hdisjoint p ha]
          · simp [ha]
    · by_cases ha : d ∈ a
      · simp [ha, hdisjoint d ha]
      · have := hnew d ha
        dsimp only [after] at this
        simp [ha, this]
  exact Labels.ext hnames htypes

/-- Before any turn the labels are the first ones. -/
theorem after_nil : L.after t pass [] = L := by
  have hnames : (L.after t pass []).name = L.name := by
    funext x
    show (if x ∈ [] then (t.newName? pass L x).getD (L.name x) else L.name x) = _
    exact if_neg List.not_mem_nil
  have htypes : (L.after t pass []).typeName = L.typeName := by
    funext p
    dsimp only [after]
    rcases (t.parameterType? p).map TypeRef.anchor
      with _ | ⟨_ | d, _ | _, isCollection⟩ <;> simp
  exact Labels.ext hnames htypes

/-- An element that gets no new name keeps all labels as they are. -/
theorem after_singleton_eq {id : ElementId} (hnew : t.newName? pass L id = none)
    (htypeName : ∀ name, pass.newTypeName name = name) :
    L.after t pass [id] = L := by
  have hnames : (L.after t pass [id]).name = L.name := by
    funext x
    show (if x ∈ [id] then _ else _) = _
    by_cases hx : x = id
    · rw [hx, hnew, Option.getD_none, ite_self]
    · rw [if_neg fun h => hx (List.mem_singleton.mp h)]
  have htypes : (L.after t pass [id]).typeName = L.typeName := by
    funext p
    dsimp only [after]
    rcases (t.parameterType? p).map TypeRef.anchor
      with _ | ⟨_ | d, _ | _, isCollection⟩
    · rfl
    · rfl
    · simp [htypeName]
    all_goals
      by_cases hd : d = id
      · simp [hd, hnew]
      · simp [hd]
  exact Labels.ext hnames htypes

/-- A pass that renames nothing does the same wherever it comes to the same
    parameters. -/
theorem after_congr (hnone : ∀ role name, pass.newName? role name = none)
    {a b : List ElementId}
    (hmem : ∀ p r, t.parameterType? p = some r → (p ∈ a ↔ p ∈ b)) :
    L.after t pass a = L.after t pass b := by
  have hnew : ∀ x, t.newName? pass L x = none := Tree.newName?_eq_none hnone L
  have hnames : (L.after t pass a).name = (L.after t pass b).name := by
    funext x
    dsimp only [after]
    rw [hnew, Option.getD_none, ite_self, ite_self]
  have htypes : (L.after t pass a).typeName = (L.after t pass b).typeName := by
    funext p
    dsimp only [after]
    cases hr : t.parameterType? p with
    | none => rfl
    | some r =>
        rw [Option.map_some, TypeRef.anchor]
        cases r.definition? with
        | none => cases r.isExternal <;> simp [hmem p r hr]
        | some d => simp [hnew]
  exact Labels.ext hnames htypes

end Labels

end CodeModel
