import CodeModel.Proofs.Links
import Mathlib.Data.List.Basic

/-!
# Faces of members

Whether two members of one holder collide depends on what they are, on their
names and on the signatures that their parameters make. That is the face of a
member. A holder is apart when no two of the faces that it holds collide, so a
change of the tree bears on it only through the faces.

* **`collides_eq_face`**: elements collide when their faces do.
* **`apartAt_iff`**: a holder is apart when its faces are.
* **`Relinked.face?_eq`, `face?_modify`, `face?_push`**: which changes leave a
  face alone.
-/

namespace CodeModel

/-! ## What an element is -/

/-- What an element is, as far as its name depends on it and what it may stand
    beside. -/
inductive Role where
  | method (kind : MethodKind) (isAsync : Bool)
  | property (kind : PropertyKind)
  | other (kind : NodeKind)
deriving DecidableEq

namespace Role

/-- Whether two elements could stand side by side under one name. -/
def coexist (sameSignature : Bool) : Role → Role → Bool
  | method k _, method l _ => k.isOverloadable && l.isOverloadable && !sameSignature
  | property p, method m _ =>
      p = .requestBuilder ∧ m = .indexerBackwardCompatibility
  | method m _, property p =>
      p = .requestBuilder ∧ m = .indexerBackwardCompatibility
  | _, _ => false

/-- What kind of node the element is. -/
def nodeKind : Role → NodeKind
  | method _ _ => .method
  | property _ => .property
  | other kind => kind

/-- Whether a reserved name of the element is escaped. -/
def isEscapable : Role → Bool
  | method k _ => !k.isConstructor
  | other .indexer => false
  | _ => true

end Role

namespace Content

/-- What an element of some content is. -/
def role : Content → Role
  | method m => .method m.kind m.isAsync
  | property p => .property p.kind
  | content => .other content.kind

/-- The type of a parameter. -/
def parameterType? : Content → Option TypeRef
  | parameter p => some p.type
  | _ => none

/-- Whether two elements may share a name depends on their roles. -/
theorem coexist_eq_role (sameSignature : Bool) (x y : Content) :
    x.coexist sameSignature y = x.role.coexist sameSignature y.role := by
  cases x <;> cases y <;> rfl

end Content

namespace Element

/-- What the element is. -/
def role (e : Element) : Role :=
  e.content.role

/-- The type of a parameter. -/
def parameterType? (e : Element) : Option TypeRef :=
  e.content.parameterType?

/-- The role tells the kind. -/
theorem kind_eq_of_role_eq {e e' : Element} (h : e'.role = e.role) :
    e'.kind = e.kind := by
  have hread : ∀ e : Element, e.kind = e.role.nodeKind := by
    rintro ⟨name, parent, children, description, content⟩
    cases content <;> rfl
  rw [hread, hread, h]

theorem parameterType?_withName (name : String) (e : Element) :
    (e.withName name).parameterType? = e.parameterType? := by
  obtain ⟨oldName, parent, children, description, content⟩ := e
  cases content <;> rfl

theorem parameterType?_keepWireName (name : String) (e : Element) :
    (e.keepWireName name).parameterType? = e.parameterType? := by
  obtain ⟨oldName, parent, children, description, content⟩ := e
  cases content <;> rfl

/-- Changing types changes the type of a parameter. -/
theorem parameterType?_mapTypes (f : TypeRef → TypeRef) (e : Element) :
    (e.mapTypes f).parameterType? = e.parameterType?.map f := by
  obtain ⟨name, parent, children, description, content⟩ := e
  cases content <;> rfl

/-- Roles do not depend on types. -/
theorem role_mapTypes (f : TypeRef → TypeRef) (e : Element) :
    (e.mapTypes f).role = e.role := by
  obtain ⟨name, parent, children, description, content⟩ := e
  cases content <;> rfl

theorem role_withName (name : String) (e : Element) :
    (e.withName name).role = e.role := by
  obtain ⟨oldName, parent, children, description, content⟩ := e
  cases content <;> rfl

end Element

/-! ## Faces -/

/-- What of a member bears on collisions: what it is, its name, and the types of
    its parameters. -/
structure Face where
  role : Role
  name : String
  signature : List String
deriving DecidableEq

namespace Face

/-- Whether members with two faces collide. -/
def collide (x y : Face) : Bool :=
  x.name == y.name && !Role.coexist (x.signature == y.signature) x.role y.role

/-- No two of some members collide. -/
def Apart (faces : List Face) : Prop :=
  faces.Pairwise fun x y => x.collide y = false

instance (faces : List Face) : Decidable (Apart faces) :=
  inferInstanceAs (Decidable (faces.Pairwise _))

/-- A face more is apart from the others if it collides with none of them. -/
theorem apart_append_singleton {faces : List Face} {y : Face} :
    Apart (faces ++ [y]) ↔ Apart faces ∧ ∀ x ∈ faces, x.collide y = false := by
  show List.Pairwise _ (faces ++ [y]) ↔ _
  rw [List.pairwise_append]
  constructor
  · rintro ⟨hfaces, -, hlast⟩
    exact ⟨hfaces, fun x hx => hlast x hx y (List.mem_singleton_self y)⟩
  · rintro ⟨hfaces, hlast⟩
    refine ⟨hfaces, List.pairwise_singleton _ y, fun x hx z hz => ?_⟩
    rw [List.mem_singleton.mp hz]
    exact hlast x hx

end Face

namespace Tree

variable {s s' t t' : Tree}

/-- What the element of a handle is. -/
def role? (t : Tree) (id : ElementId) : Option Role :=
  (t.get? id).map (·.role)

/-- The type of the parameter of a handle. -/
def parameterType? (t : Tree) (id : ElementId) : Option TypeRef :=
  (t.get? id).bind (·.parameterType?)

/-- The face of an element. -/
def face? (t : Tree) (id : ElementId) : Option Face :=
  (t.get? id).map fun e => ⟨e.role, e.name, t.signature id⟩

/-- The faces of the elements that one holds. -/
def faces (t : Tree) (holder : ElementId) : List Face :=
  (t.children holder).filterMap t.face?

/-- No two of the elements that one holds collide. -/
def ApartAt (t : Tree) (holder : ElementId) : Prop :=
  (t.children holder).Pairwise fun a b => t.collides a b = false

/-- No two elements of one holder collide. -/
def SiblingsApart (t : Tree) : Prop :=
  ∀ holder, t.ApartAt holder

/-- Collisions are told by faces. -/
theorem collides_eq_face (t : Tree) (a b : ElementId) :
    t.collides a b = ((t.face? a).bind fun x => (t.face? b).map x.collide).getD
      false := by
  rw [collides, face?, face?]
  cases t.get? a with
  | none => rfl
  | some x =>
      cases t.get? b with
      | none => rfl
      | some y =>
          show (x.name == y.name && !Content.coexist _ x.content y.content) = _
          rw [Content.coexist_eq_role]
          rfl

/-- A holder is apart when its faces are. -/
theorem apartAt_iff (t : Tree) (holder : ElementId) :
    t.ApartAt holder ↔ Face.Apart (t.faces holder) := by
  show _ ↔ List.Pairwise _ ((t.children holder).filterMap t.face?)
  rw [List.pairwise_filterMap]
  have hpair : ∀ a b, t.collides a b = false ↔
      ∀ x, t.face? a = some x → ∀ y, t.face? b = some y → x.collide y = false := by
    intro a b
    rw [collides_eq_face]
    cases t.face? a <;> cases t.face? b <;> simp
  show List.Pairwise _ _ ↔ _
  rw [funext fun a => funext fun b => propext (hpair a b)]

/-- Only the holders of the arena can fail to be apart. -/
theorem siblingsApart_iff (t : Tree) :
    t.SiblingsApart ↔ ∀ holder ∈ t.ids, Face.Apart (t.faces holder) := by
  constructor
  · intro h holder _
    exact (t.apartAt_iff holder).mp (h holder)
  · intro h holder
    refine (t.apartAt_iff holder).mpr ?_
    cases he : t.get? holder with
    | none =>
        rw [faces, children, he]
        exact List.Pairwise.nil
    | some e =>
        exact h holder (List.mem_map.mpr
          ⟨holder.index, List.mem_range.mpr (index_lt_of_get? he), rfl⟩)

instance (t : Tree) : Decidable t.SiblingsApart :=
  decidable_of_iff _ t.siblingsApart_iff.symm

/-- The name that a type of a parameter gives to a signature. -/
theorem signature_eq_filterMap (t : Tree) (method : ElementId) :
    t.signature method = (t.childrenOfKind method .parameter).filterMap fun p =>
      (t.parameterType? p).map fun r =>
        if r.isCollection then r.name ++ "[]" else r.name := by
  show ((t.childrenOfKind method .parameter).filterMap t.parameter?).map _ = _
  rw [List.map_filterMap]
  refine List.filterMap_congr fun p _ => ?_
  show ((t.get? p).bind (·.parameter?)).map _
    = ((t.get? p).bind (·.parameterType?)).map _
  cases t.get? p with
  | none => rfl
  | some e =>
      obtain ⟨name, parent, children, description, content⟩ := e
      cases content <;> rfl

/-! ## Changes that leave faces alone -/

/-- A face is read off the element and its parameters. -/
theorem face?_congr {x : ElementId} (helement : (t'.get? x).map
      (fun e => (e.role, e.name)) = (t.get? x).map fun e => (e.role, e.name))
    (hparameters : t'.childrenOfKind x .parameter = t.childrenOfKind x .parameter)
    (htypes : ∀ p ∈ t.childrenOfKind x .parameter, t'.parameterType? p
      = t.parameterType? p) : t'.face? x = t.face? x := by
  have hsignature : t'.signature x = t.signature x := by
    rw [signature_eq_filterMap, signature_eq_filterMap, hparameters]
    exact List.filterMap_congr fun p hp => by rw [htypes p hp]
  have hread : ∀ s : Tree, s.face? x =
      ((s.get? x).map fun e => (e.role, e.name)).map fun p =>
        ⟨p.1, p.2, s.signature x⟩ := by
    intro s
    rw [face?, Option.map_map]
    rfl
  rw [hread, hread, helement, hsignature]

/-- New links leave a face alone as long as the parameters are the same. -/
theorem Relinked.face?_eq (h : Relinked t t') {x : ElementId}
    (hparameters : t'.childrenOfKind x .parameter = t.childrenOfKind x .parameter) :
    t'.face? x = t.face? x := by
  refine face?_congr ?_ hparameters fun p _ => ?_
  · have hread : ∀ s : Tree, (s.get? x).map (fun e => (e.role, e.name)) =
        ((s.get? x).map Element.detached).map fun e => (e.role, e.name) := by
      intro s
      rw [Option.map_map]
      rfl
    rw [hread, hread, h.detached_eq]
  · have hread : ∀ s : Tree, s.parameterType? p =
        ((s.get? p).map Element.detached).bind (·.parameterType?) := by
      intro s
      rw [parameterType?, Option.bind_map]
      rfl
    rw [hread, hread, h.detached_eq]

/-- A change of one element that is none of its type as a parameter leaves the
    other faces alone. -/
theorem face?_modify {id x : ElementId}
    {f : Element → Element} (hplace : ∀ e, (f e).place = e.place)
    (htype : ∀ e, (f e).parameterType? = e.parameterType?) (hx : x ≠ id) :
    (t.modify id f).face? x = t.face? x := by
  have hsame : SamePlaces t (t.modify id f) := by
    refine (changedBy_modify t id f).samePlaces fun y e _ => ?_
    by_cases hy : y = id
    · rw [if_pos hy, hplace]
    · rw [if_neg hy]
  refine face?_congr ?_ (hsame.childrenOfKind_eq x .parameter) fun p _ => ?_
  · rw [get?_modify, if_neg hx]
  · rw [parameterType?, parameterType?, get?_modify]
    by_cases hp : p = id
    · rw [if_pos hp, Option.bind_map]
      exact congrArg ((t.get? p).bind ·) (funext htype)
    · rw [if_neg hp]

/-- One more element leaves the faces of the others alone. -/
theorem face?_push (hwl : WellLinked t) {e : Element} (hchildren : e.children = [])
    {x : ElementId} (hx : (t.get? x).isSome) : (t.push e).face? x = t.face? x := by
  obtain ⟨e', he'⟩ := Option.isSome_iff_exists.mp hx
  refine face?_congr ?_ (hwl.childrenOfKind_push hchildren x .parameter)
    fun p hp => ?_
  · rw [get?_push_of_get? he', he']
  · obtain ⟨d, hd, -⟩ :=
      kind?_eq_some_iff.mp (of_decide_eq_true (List.mem_filter.mp hp).2)
    rw [parameterType?, parameterType?, get?_push_of_get? hd, hd]

/-- Elements of other kinds may come and go. -/
theorem childrenOfKind_detach (hwl : WellLinked t) {holder child : ElementId}
    {kind : NodeKind} (hc : child ∈ t.children holder)
    (hkind : t.kind? child ≠ some kind) (x : ElementId) :
    (t.detach holder child).2.childrenOfKind x kind = t.childrenOfKind x kind := by
  have hsame : ∀ c, (t.detach holder child).2.kind? c = t.kind? c :=
    (relinked_detach hc).kind?_eq
  rw [childrenOfKind, childrenOfKind, children_detach hc]
  by_cases hx : x = holder
  · rw [if_pos hx, hx, (hwl.nodup_children holder).erase_eq_filter,
      List.filter_filter]
    refine List.filter_congr fun c _ => ?_
    rw [hsame]
    by_cases hcc : c = child
    · simp [hcc, hkind]
    · simp [hcc]
  · rw [if_neg hx]
    exact List.filter_congr fun c _ => by rw [hsame]

/-- What joins a holder beside its parameters leaves every face alone. -/
theorem Insertable.face?_attach {slot : Slot} {holder : ElementId}
    {ids : List ElementId} (h : Insertable t slot holder ids)
    (hslot : slot ≠ .parameters) (x : ElementId) :
    (t.attach holder ids).face? x = t.face? x := by
  refine (relinked_attach t holder ids).face?_eq
    (h.childrenOfKind_attach_of_ne (fun hkind => hslot ?_) x)
  cases slot <;> first | rfl | cases hkind

/-- Once an element has joined a holder, the holder is apart if it was before. -/
theorem Insertable.apartAt_attach_iff {slot : Slot} {holder child : ElementId}
    (h : Insertable t slot holder [child]) (hslot : slot ≠ .parameters)
    (x : ElementId) :
    (t.attach holder [child]).ApartAt x ↔ t.ApartAt x := by
  have hfaces : ∀ ids : List ElementId,
      ids.filterMap (t.attach holder [child]).face? = ids.filterMap t.face? :=
        fun ids =>
    List.filterMap_congr fun c _ => h.face?_attach hslot c
  rw [apartAt_iff, apartAt_iff, faces, h.children_attach, hfaces]
  by_cases hx : x = holder
  · rw [if_pos hx, List.filterMap_append, hx]
    show Face.Apart (t.faces holder ++ [child].filterMap t.face?) ↔ _
    cases hface : t.face? child with
    | none => simp [hface]
    | some y =>
        have hlast : [child].filterMap t.face? = [y] := by simp [hface]
        rw [hlast, Face.apart_append_singleton]
        refine and_iff_left fun f hf => ?_
        -- The check has compared the newcomer with all that the holder has.
        obtain ⟨c, hc, hfc⟩ := List.mem_filterMap.mp hf
        have hcheck := h.apart_children child (List.mem_singleton_self child) c hc
        rw [collides_eq_face, hfc, hface] at hcheck
        exact hcheck
  · rw [if_neg hx]
    rfl

end Tree

end CodeModel
