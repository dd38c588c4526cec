import CodeModel.Proofs.ImportNames
import CodeModel.Proofs.RestingMembers
import CodeModel.Proofs.StandIns
import CodeModel.Proofs.Totality

/-!
# Uses of unions

The pass that lowers unions goes through everything attached, and each use of a
union gets a reference to a wrapper. Where the wrapper is, is told from the tree
as it was: in the class that owns the use, or in the namespace around that
class. Both are there before, so no wrapper ever holds another, and one that was
made is not touched any more.

* **`UnionUse`**: an attached element whose value is of a union type, with the
  scope of its wrappers.
* **`Replaced`**: what there is once some elements had their turn.
* **`Replaced.visit`**: one turn.
* **`replaced_of_makeWrappers`**: the whole traversal.

Main statement: `unionsWrapped_of_wrapUnions`, every use of a union refers to a
new model in its scope, two uses refer to one exactly when their scopes and
alternatives are the same, and else nothing is different.
-/

namespace CodeModel

open CodeModel.Tree

namespace WrapperPlacement

/-- The slot that wrappers go into. -/
def slot : WrapperPlacement → Slot
  | innerClasses => .innerClasses
  | siblingClasses => .classes

/-- Wrappers are classes, wherever they go. -/
theorem memberKind_slot (placement : WrapperPlacement) :
    placement.slot.memberKind = .classDecl := by
  cases placement <;> rfl

end WrapperPlacement

/-- Methods, properties, parameters and indexers have values. -/
theorem Element.kind_of_valueType? {e : Element} {r : TypeRef}
    (h : e.valueType? = some r) :
    e.kind = .parameter ∨ e.kind ∈ [NodeKind.method, .property, .indexer] := by
  rw [valueType?] at h
  rw [kind]
  cases hc : e.content with
  | parameter p => exact Or.inl rfl
  | method m => exact Or.inr (by simp [Content.kind])
  | property p => exact Or.inr (by simp [Content.kind])
  | indexer i => exact Or.inr (by simp [Content.kind])
  | namespaceDecl imports => rw [hc] at h; cases h
  | classDecl c => rw [hc] at h; cases h
  | enumDecl options => rw [hc] at h; cases h

namespace NodeKind

/-- Classes hold the members that have values. -/
theorem eq_classDecl_of_mayHold :
    ∀ {k m : NodeKind}, m ∈ [NodeKind.method, .property, .indexer] →
    k.mayHold m = true → k = .classDecl := by
  intro k m
  cases k <;> cases m <;> decide

/-- Methods hold parameters. -/
theorem eq_method_of_mayHold :
    ∀ {k : NodeKind}, k.mayHold .parameter = true → k = .method := by
  intro k
  cases k <;> decide

end NodeKind

namespace Edit

/-- What is done to a use of a union once it is known where its wrappers go. -/
def replaceUnion (site : WrapperSite) (w : Wrappers) (id : ElementId)
    (u : TypeRef) : Edit Wrappers := do
  let (r, w) ← standIn site w u
  modifyElement id (Element.mapValueType fun _ => r)
  return w

end Edit

namespace Tree

variable {t s s' t' : Tree} {placement : WrapperPlacement}
  {x y id owner scope : ElementId} {u v : TypeRef}
variable {w w' made : Wrappers} {done : List ElementId} {e : Element}

/-! ## Uses -/

/-- Where the wrappers for the uses of a class go. -/
def scopeOf? (t : Tree) (placement : WrapperPlacement) (owner : ElementId) :
    Option ElementId :=
  match placement with
  | .innerClasses => some owner
  | .siblingClasses => t.containingNamespace? owner

/-- Where the wrappers for the uses by an element go. -/
def wrapperScope? (t : Tree) (placement : WrapperPlacement) (id : ElementId) :
    Option ElementId :=
  (t.typeOwner? id).bind (t.scopeOf? placement)

/-- The value of an attached element is of the union type `u`, for which
    wrappers go into `scope`. -/
structure UnionUse (t : Tree) (placement : WrapperPlacement) (x scope : ElementId)
    (u : TypeRef) : Prop where
  attached : Attached t x
  unionType?_eq : t.unionType? x = some u
  wrapperScope?_eq : t.wrapperScope? placement x = some scope

/-- The type of a union value is its type, and a union. -/
theorem unionType?_eq_some_iff :
    t.unionType? x = some u ↔ t.valueType? x = some u ∧ u.isUnion = true :=
  Option.filter_eq_some_iff

/-- What is below the root is held by something attached that may hold it. -/
theorem WellLinked.exists_holder (hwl : WellLinked t) {m : NodeKind}
    (hx : Ancestor t t.root x) (hm : t.kind? x = some m) :
    ∃ p k, t.parent? x = some p ∧ Attached t p ∧ t.kind? p = some k
      ∧ k.mayHold m = true := by
  obtain ⟨p, hp⟩ := hx.exists_parent?
  obtain ⟨k, hk⟩ := hwl.exists_kind?_of_parent? hp
  have hmay := hwl.mayHold_of_mem p x k m ((hwl.mem_children_iff p x).mpr hp) hk hm
  exact ⟨p, k, hp, hx.within_of_parent? hp, hk, hmay⟩

/-- What is attached and no namespace is below the root. -/
theorem WellLinked.ancestor_of_kind_ne (hwl : WellLinked t) {m : NodeKind}
    (hx : Attached t x) (hm : t.kind? x = some m) (hne : m ≠ .namespaceDecl) :
    Ancestor t t.root x := by
  refine hx.resolve_left ?_
  rintro rfl
  rw [hwl.kind?_root] at hm
  exact hne (Option.some.inj hm).symm

/-- Values belong to classes: to the class that holds the member, or its
    method. -/
theorem WellLinked.exists_typeOwner? (hwl : WellLinked t) (hx : Attached t x)
    (hu : t.valueType? x = some u) :
    ∃ owner, t.typeOwner? x = some owner ∧ Ancestor t t.root owner := by
  obtain ⟨e, he, hvalue⟩ := Option.bind_eq_some_iff.mp hu
  have hm : t.kind? x = some e.kind := kind?_eq_some_iff.mpr ⟨e, he, rfl⟩
  have hclass : ∀ {q}, t.kind? q = some .classDecl → Attached t q →
      (t.class? q).isSome = true ∧ Ancestor t t.root q := by
    intro q hq hqa
    exact ⟨isSome_class?_iff.mpr hq, hwl.ancestor_of_kind_ne hqa hq (by decide)⟩
  rw [typeOwner?]
  rcases Element.kind_of_valueType? hvalue with hparameter | hmember
  · rw [hparameter] at hm
    obtain ⟨p, k, hp, hpa, hk, hmay⟩ :=
      hwl.exists_holder (hwl.ancestor_of_kind_ne hx hm (by decide)) hm
    obtain rfl := NodeKind.eq_method_of_mayHold hmay
    obtain ⟨q, k', hq, hqa, hk', hmay'⟩ :=
      hwl.exists_holder (hwl.ancestor_of_kind_ne hpa hk (by decide)) hk
    obtain rfl := NodeKind.eq_classDecl_of_mayHold (by decide) hmay'
    obtain ⟨hsome, habove⟩ := hclass hk' hqa
    refine ⟨q, ?_, habove⟩
    rw [if_pos hm, hp, Option.bind_some, hq, Option.filter_some, if_pos hsome]
  · have hnotNamespace : e.kind ≠ .namespaceDecl := by
      intro hkind
      rw [hkind] at hmember
      revert hmember
      decide
    have hnotParameter : t.kind? x ≠ some .parameter := by
      intro hkind
      rw [Option.some.inj (hm.symm.trans hkind)] at hmember
      revert hmember
      decide
    obtain ⟨p, k, hp, hpa, hk, hmay⟩ :=
      hwl.exists_holder (hwl.ancestor_of_kind_ne hx hm hnotNamespace) hm
    obtain rfl := NodeKind.eq_classDecl_of_mayHold hmember hmay
    obtain ⟨hsome, habove⟩ := hclass hk hpa
    refine ⟨p, ?_, habove⟩
    rw [if_neg hnotParameter, hp, Option.filter_some, if_pos hsome]

/-- Every use of a union has a scope: its owner is a class, which sits in a
    namespace. -/
theorem WellLinked.exists_unionUse (hwl : WellLinked t)
    (placement : WrapperPlacement) (hx : Attached t x)
    (hu : t.unionType? x = some u) : ∃ scope, UnionUse t placement x scope u := by
  obtain ⟨owner, howner, habove⟩ :=
    hwl.exists_typeOwner? hx (unionType?_eq_some_iff.mp hu).1
  have hscope : ∃ scope, t.scopeOf? placement owner = some scope := by
    cases placement with
    | innerClasses => exact ⟨owner, rfl⟩
    | siblingClasses => exact hwl.exists_containingNamespace? habove
  obtain ⟨scope, hscope⟩ := hscope
  refine ⟨scope, hx, hu, ?_⟩
  rw [wrapperScope?, howner]
  exact hscope

/-- A use belongs to a class below the root. -/
theorem UnionUse.exists_owner (hwl : WellLinked t)
    (h : UnionUse t placement x scope u) :
    ∃ owner, t.typeOwner? x = some owner ∧ Ancestor t t.root owner
      ∧ t.scopeOf? placement owner = some scope := by
  obtain ⟨owner, howner, hscope⟩ := Option.bind_eq_some_iff.mp h.wrapperScope?_eq
  obtain ⟨owner', howner', habove⟩ :=
    hwl.exists_typeOwner? h.attached (unionType?_eq_some_iff.mp h.unionType?_eq).1
  obtain rfl : owner' = owner := Option.some.inj (howner'.symm.trans howner)
  exact ⟨owner', howner, habove, hscope⟩

/-- What holds the wrappers is attached, and of the kind that has their slot. -/
theorem UnionUse.attached_scope (hwl : WellLinked t)
    (h : UnionUse t placement x scope u) :
    Attached t scope ∧ t.kind? scope = some placement.slot.holderKind := by
  obtain ⟨owner, howner, habove, hscope⟩ := h.exists_owner hwl
  cases placement with
  | innerClasses =>
      obtain rfl : owner = scope := Option.some.inj hscope
      rw [typeOwner?] at howner
      exact ⟨Or.inr habove,
        isSome_class?_iff.mp (Option.filter_eq_some_iff.mp howner).2⟩
  | siblingClasses =>
      have hnamespace : t.isNamespace scope = true := List.find?_some hscope
      exact ⟨attached_of_containingNamespace? hwl (Or.inr habove) hscope,
        of_decide_eq_true hnamespace⟩

/-! ## Members that are wrappers -/

/-- The wrappers of a scope, in the order in which they were made. -/
def wrappersIn (w : Wrappers) (scope : ElementId) : List ElementId :=
  ((w.filter fun p => p.1.scope = scope).map (·.2)).reverse

/-- The wrappers in a scope are those whose keys tell so. -/
theorem mem_wrappersIn_iff :
    x ∈ wrappersIn w scope ↔ ∃ p ∈ w, p.1.scope = scope ∧ p.2 = x := by
  simp [wrappersIn, and_assoc]

/-- Wrappers that were made later come last. -/
theorem wrappersIn_append (made w : Wrappers) (scope : ElementId) :
    wrappersIn (made ++ w) scope = wrappersIn w scope ++ wrappersIn made scope := by
  rw [wrappersIn, wrappersIn, wrappersIn, List.filter_append, List.map_append,
    List.reverse_append]

/-- Wrappers of one scope are all in it. -/
theorem wrappersIn_eq_self (h : ∀ p ∈ made, p.1.scope = scope) :
    wrappersIn made scope = (made.map (·.2)).reverse := by
  rw [wrappersIn, List.filter_eq_self.mpr fun p hp => decide_eq_true (h p hp)]

theorem wrappersIn_eq_nil (h : ∀ p ∈ made, p.1.scope = scope) (hy : y ≠ scope) :
    wrappersIn made y = [] := by
  have hnone : (made.filter fun p => p.1.scope = y) = [] := by
    refine List.filter_eq_nil_iff.mpr fun p hp htrue => hy ?_
    rw [← h p hp]
    exact (of_decide_eq_true htrue).symm
  rw [wrappersIn, hnone]
  rfl

/-- Wrappers that are made in a scope are there after those that were there. -/
theorem Added.get?_gain {P : TypeRef → Prop} (h : Added scope P s s' w w' made)
    (he : s.get? y = some (e.gain (wrappersIn w y))) :
    s'.get? y = some (e.gain (wrappersIn w' y)) := by
  have hmade : ∀ p ∈ made, p.1.scope = scope := fun p hp => (h.of_made p hp).1
  rw [h.eq_append, wrappersIn_append]
  by_cases hy : y = scope
  · subst hy
    rw [h.extended.get?_self _ he, wrappersIn_eq_self hmade, Element.gain_gain]
  · rw [h.extended.get?_other y _ he hy, wrappersIn_eq_nil hmade hy,
      List.append_nil]

/-! ## One turn after another -/

/-- Tree `s` is what there is of `t` after the elements `done` had their turn,
    `w` being the table of wrappers, each of which was made for something within
    a use, in the scope of the use. A use that had its turn refers to its
    wrapper; everything holds the wrappers for which it is the scope, and is as
    it was otherwise. -/
structure Replaced (t : Tree) (placement : WrapperPlacement) (done : List ElementId)
    (w : Wrappers) (s : Tree) : Prop where
  wellLinked : WellLinked s
  root_eq : s.root = t.root
  standing : Standing t.size s w
  exists_use : ∀ p ∈ w, ∃ x ∈ done, ∃ u v, UnionUse t placement x p.1.scope u
    ∧ TypeRef.Lowers u v ∧ p.1.members = v.members
  get?_use : ∀ x ∈ done, ∀ scope u, UnionUse t placement x scope u →
    ∃ e r, t.get? x = some e ∧ StandsFor s w scope u r
    ∧ s.get? x = some ((e.mapValueType fun _ => r).gain (wrappersIn w x))
  get?_other : ∀ x e, t.get? x = some e →
    (∀ scope u, UnionUse t placement x scope u → x ∉ done) →
    s.get? x = some (e.gain (wrappersIn w x))

/-- Before any use had its turn nothing has changed. -/
theorem replaced_nil (hwl : WellLinked t) : Replaced t placement [] [] t where
  wellLinked := hwl
  root_eq := rfl
  standing := standing_nil t.size t
  exists_use _ hp := absurd hp List.not_mem_nil
  get?_use _ hx := absurd hx List.not_mem_nil
  get?_other x e he _ := by
    show t.get? x = some (e.gain [])
    rw [Element.gain_nil, he]

namespace Replaced

variable (h : Replaced t placement done w s)

include h

/-- Nothing that was there is lost, and but for its value and what it holds it
    is as it was. -/
theorem exists_get? (he : t.get? x = some e) :
    ∃ f members, s.get? x = some ((e.mapValueType f).gain members) := by
  by_cases huse : ∃ scope u, UnionUse t placement x scope u ∧ x ∈ done
  · obtain ⟨scope, u, huse, hx⟩ := huse
    obtain ⟨e', r, he', -, hs⟩ := h.get?_use x hx scope u huse
    obtain rfl : e' = e := Option.some.inj (he'.symm.trans he)
    exact ⟨fun _ => r, _, hs⟩
  · refine ⟨fun r => r, wrappersIn w x, ?_⟩
    rw [Element.mapValueType_eq_self fun _ _ => rfl]
    exact h.get?_other x e he fun scope u hu hx => huse ⟨scope, u, hu, hx⟩

theorem size_le : t.size ≤ s.size := by
  refine Nat.le_of_not_lt fun hlt => ?_
  obtain ⟨e, he⟩ :=
    Option.isSome_iff_exists.mp ((get?_isSome_iff t ⟨s.size⟩).mpr hlt)
  obtain ⟨f, members, hs⟩ := h.exists_get? he
  exact Nat.lt_irrefl _ (index_lt_of_get? hs)

/-- What was there is what it was, where it was. -/
theorem sameHolder (he : t.get? x = some e) :
    s.parent? x = t.parent? x ∧ s.kind? x = t.kind? x
      ∧ (s.class? x).isSome = (t.class? x).isSome := by
  obtain ⟨f, members, hs⟩ := h.exists_get? he
  have hframe := Element.frame_mapValueType f e
  have hplace := Element.place_eq_of_frame_eq hframe
  have hparent : s.parent? x = t.parent? x := by
    rw [parent?, parent?, hs, he]
    exact congrArg Prod.fst hplace
  have hkind : s.kind? x = t.kind? x := by
    rw [kind?, kind?, hs, he]
    exact congrArg (fun place => some place.2.2) hplace
  refine ⟨hparent, hkind, Bool.eq_iff_iff.mpr ?_⟩
  rw [isSome_class?_iff, isSome_class?_iff, hkind]

/-- What was there is held by what held it. -/
theorem sameHolders (hwl : WellLinked t) (hx : x.index < t.size) :
    SameHolders t s x := by
  intro a ha
  have hlt : a.index < t.size := by
    rcases ha with rfl | ha
    · exact hx
    · exact hwl.index_lt_of_ancestor ha
  obtain ⟨e, he⟩ := Option.isSome_iff_exists.mp ((get?_isSome_iff t a).mpr hlt)
  exact ⟨(h.sameHolder he).1, (h.sameHolder he).2.1⟩

/-- What was attached is attached. -/
theorem attached (hwl : WellLinked t) (hx : Attached t x) : Attached s x := by
  rw [Attached, h.root_eq]
  exact (h.sameHolders hwl (hwl.index_lt_of_attached hx)).within hx

theorem typeOwner?_eq (hwl : WellLinked t) (hx : x.index < t.size) :
    s.typeOwner? x = t.typeOwner? x := by
  have hsame : ∀ {y}, y.index < t.size → s.parent? y = t.parent? y
      ∧ s.kind? y = t.kind? y ∧ (s.class? y).isSome = (t.class? y).isSome := by
    intro y hy
    obtain ⟨e, he⟩ := Option.isSome_iff_exists.mp ((get?_isSome_iff t y).mpr hy)
    exact h.sameHolder he
  have hbind : (t.parent? x).bind s.parent? = (t.parent? x).bind t.parent? := by
    cases hp : t.parent? x with
    | none => rfl
    | some p => exact (hsame (hwl.index_lt_of_parent? hp)).1
  rw [typeOwner?, typeOwner?, (hsame hx).1, (hsame hx).2.1, hbind]
  cases howner : (if t.kind? x = some .parameter then (t.parent? x).bind t.parent?
    else t.parent? x) with
  | none => rfl
  | some owner =>
      -- Whatever holds the element, or holds what holds it, was there.
      have hlt : owner.index < t.size := by
        split at howner
        · obtain ⟨p, -, hp⟩ := Option.bind_eq_some_iff.mp howner
          exact hwl.index_lt_of_parent? hp
        · exact hwl.index_lt_of_parent? howner
      rw [Option.filter_some, Option.filter_some, (hsame hlt).2.2]

theorem scopeOf?_eq (hwl : WellLinked t) (howner : owner.index < t.size) :
    s.scopeOf? placement owner = t.scopeOf? placement owner := by
  cases placement with
  | innerClasses => rfl
  | siblingClasses =>
      exact containingNamespace?_eq_of_sameHolders hwl h.wellLinked
        (h.sameHolders hwl howner)

/-- What has not had its turn has the value that it had. -/
theorem unionType?_eq (hx : x.index < t.size) (hnot : x ∉ done) :
    s.unionType? x = t.unionType? x := by
  obtain ⟨e, he⟩ := Option.isSome_iff_exists.mp ((get?_isSome_iff t x).mpr hx)
  have hs := h.get?_other x e he fun _ _ _ => hnot
  rw [unionType?, unionType?, valueType?, valueType?, hs, he]
  rfl

/-- An element that uses no union is passed over. -/
theorem pass (hnone : t.unionType? id = none) :
    Replaced t placement (done ++ [id]) w s where
  wellLinked := h.wellLinked
  root_eq := h.root_eq
  standing := h.standing
  exists_use p hp := by
    obtain ⟨x, hx, huse⟩ := h.exists_use p hp
    exact ⟨x, List.mem_append_left _ hx, huse⟩
  get?_use x hx scope u huse := by
    refine h.get?_use x
      ((List.mem_append.mp hx).resolve_right fun hid => ?_) scope u huse
    have hunion := huse.unionType?_eq
    rw [List.mem_singleton.mp hid, hnone] at hunion
    cases hunion
  get?_other x e he hnot := h.get?_other x e he fun scope u huse hx =>
    hnot scope u huse (List.mem_append_left _ hx)

/-- A use of a union has its turn: what was missing is made, and the use refers
    to its wrapper. -/
theorem visit {r : TypeRef} (hwl : WellLinked t) (hnot : id ∉ done)
    (huse : UnionUse t placement id scope u)
    (hadded : Added scope (TypeRef.Lowers u) s s' w w' made)
    (hstanding : Standing t.size s' w') (hstands : StandsFor s' w' scope u r) :
    Replaced t placement (done ++ [id]) w'
      (s'.modify id (Element.mapValueType fun _ => r)) := by
  have hid : id.index < t.size := hwl.index_lt_of_attached huse.attached
  have hscope : scope.index < t.size :=
    hwl.index_lt_of_attached (huse.attached_scope hwl).1
  have hframes : SameFrames s' (s'.modify id (Element.mapValueType fun _ => r)) :=
    sameFrames_modify s' id (Element.frame_mapValueType fun _ => r)
  -- Neither the scope nor the use itself is new, so the wrappers that were there
  -- are as they were.
  have hmodified :
      Frozen t.size s' (s'.modify id (Element.mapValueType fun _ => r)) := by
    intro y e hy he
    rw [get?_modify, if_neg, he]
    rintro rfl
    exact absurd hid (Nat.not_lt.mpr hy)
  have hnames :=
    h.standing.name?_eq ((hadded.extended.frozen hscope).trans hmodified)
  have hnames' := hstanding.name?_eq hmodified
  exact
    { wellLinked := hframes.wellLinked hadded.extended.wellLinked
      root_eq := hframes.root_eq.trans (hadded.extended.root_eq.trans h.root_eq)
      standing := hstanding.frozen hmodified
      exists_use := fun p hp => by
        rw [hadded.eq_append] at hp
        rcases List.mem_append.mp hp with hp | hp
        · obtain ⟨hpscope, v, hv, hmembers⟩ := hadded.of_made p hp
          exact ⟨id, List.mem_append_right _ (List.mem_singleton_self id), u, v,
            hpscope ▸ huse, hv, hmembers⟩
        · obtain ⟨x, hx, hold⟩ := h.exists_use p hp
          exact ⟨x, List.mem_append_left _ hx, hold⟩
      get?_use := fun x hx scope' u' huse' => by
        rcases List.mem_append.mp hx with hx | hx
        · obtain ⟨e, r', he, hr', hs⟩ := h.get?_use x hx scope' u' huse'
          have hne : x ≠ id := fun heq => hnot (heq ▸ hx)
          refine ⟨e, r', he, hr'.mono hadded.subset hnames, ?_⟩
          rw [get?_modify, if_neg hne, hadded.get?_gain hs]
        · obtain rfl : x = id := List.mem_singleton.mp hx
          obtain rfl : u' = u :=
            Option.some.inj (huse'.unionType?_eq.symm.trans huse.unionType?_eq)
          obtain rfl : scope' = scope := Option.some.inj
            (huse'.wrapperScope?_eq.symm.trans huse.wrapperScope?_eq)
          obtain ⟨e, he⟩ :=
            Option.isSome_iff_exists.mp ((get?_isSome_iff t x).mpr hid)
          have hs := h.get?_other x e he fun _ _ _ => hnot
          refine ⟨e, r, he, hstands.mono (fun _ hp => hp) hnames', ?_⟩
          rw [get?_modify, if_pos rfl, hadded.get?_gain hs]
          rfl
      get?_other := fun x e he hother => by
        have hne : x ≠ id := by
          rintro rfl
          exact hother scope u huse
            (List.mem_append_right _ (List.mem_singleton_self x))
        have hs := h.get?_other x e he fun scope' u' huse' hx =>
          hother scope' u' huse' (List.mem_append_left _ hx)
        rw [get?_modify, if_neg hne, hadded.get?_gain hs] }

/-- An element without a union is passed over. -/
theorem run_wrapUnion_of_none (hid : id.index < t.size) (hnot : id ∉ done)
    (hnone : t.unionType? id = none) :
    (Edit.wrapUnion placement w id).run s = .ok w s := by
  rw [Edit.wrapUnion, Edit.run_get_bind, h.unionType?_eq hid hnot, hnone]
  rfl

/-- The turn of a use is told from the tree as it was. -/
theorem run_wrapUnion_of_use (hwl : WellLinked t) (hnot : id ∉ done)
    (huse : UnionUse t placement id scope u) :
    (Edit.wrapUnion placement w id).run s
      = (Edit.replaceUnion ⟨scope, placement.slot⟩ w id u).run s := by
  have hid : id.index < t.size := hwl.index_lt_of_attached huse.attached
  obtain ⟨owner, howner, habove, hscope⟩ := huse.exists_owner hwl
  have hlt : owner.index < t.size := hwl.index_lt_of_attached (Or.inr habove)
  rw [← h.scopeOf?_eq hwl hlt] at hscope
  rw [Edit.wrapUnion, Edit.run_get_bind, h.unionType?_eq hid hnot,
    huse.unionType?_eq]
  dsimp only
  rw [h.typeOwner?_eq hwl hid, howner]
  cases placement with
  | innerClasses =>
      obtain rfl : owner = scope := Option.some.inj hscope
      rfl
  | siblingClasses =>
      have hsite : (Edit.wrapperSite .siblingClasses owner).run s
          = .ok ⟨scope, .classes⟩ s := by
        have hns : s.containingNamespace? owner = some scope := hscope
        rw [Edit.wrapperSite, Edit.run_get_bind, hns]
        rfl
      exact Edit.run_bind_of_eq_ok hsite

/-- One turn, whatever it is the turn of. -/
theorem step (hwl : WellLinked t) (hid : Attached t id) (hnot : id ∉ done)
    (hrun : (Edit.wrapUnion placement w id).run s = .ok w' s') :
    Replaced t placement (done ++ [id]) w' s' := by
  cases hunion : t.unionType? id with
  | none =>
      rw [h.run_wrapUnion_of_none (hwl.index_lt_of_attached hid) hnot
        hunion] at hrun
      obtain ⟨rfl, rfl⟩ := EStateM.Result.ok.inj hrun
      exact h.pass hunion
  | some u =>
      obtain ⟨scope, huse⟩ := hwl.exists_unionUse placement hid hunion
      have hscope : scope.index < t.size :=
        hwl.index_lt_of_attached (huse.attached_scope hwl).1
      rw [h.run_wrapUnion_of_use hwl hnot huse] at hrun
      obtain ⟨⟨r, w₁⟩, s₁, hstand, hrest⟩ := Edit.run_bind_eq_ok_iff.mp hrun
      obtain ⟨_, s₂, hmodify, hpure⟩ := Edit.run_bind_eq_ok_iff.mp hrest
      obtain ⟨rfl, rfl⟩ := Edit.run_pure_eq_ok_iff.mp hpure
      rw [Edit.run_modifyElement_eq_ok_iff] at hmodify
      obtain ⟨made, hadded, hstanding, hstands⟩ :=
        stands_of_standIn hscope u w h.wellLinked h.size_le h.standing hstand
      exact hmodify ▸ h.visit hwl hnot huse hadded hstanding hstands

end Replaced

/-- What there is after the whole traversal. -/
theorem replaced_of_makeWrappers (hwl : WellLinked t)
    (hrun : (Edit.makeWrappers placement).run t = .ok w s) :
    Replaced t placement (t.descendants t.root) w s := by
  refine Edit.crawlWith_done_induction (fun done w s id h hid => ?_) ?_
    (replaced_nil hwl) hrun
  · exact h.wellLinked.isAttached_iff.mpr
      (h.attached hwl (Or.inr (hwl.mem_descendants_iff.mp hid)))
  · intro done id rest w s w' s' hitems h hvisit
    obtain ⟨hnot, hbelow⟩ := hwl.turn_of_descendants_eq hitems
    exact h.step hwl (Or.inr hbelow) hnot hvisit

/-! ## What is left of the tree -/

/-- Class `wrapper` is a new model of a name in a scope. -/
structure NewModel (t t' : Tree) (scope wrapper : ElementId) (name : String) :
    Prop where
  index_le : t.size ≤ wrapper.index
  isClassOf : t'.isClassOf wrapper [.model] = true
  name?_eq : t'.name? wrapper = some name
  mem_children : wrapper ∈ t'.children scope

/-- The class that the value of an element refers to. -/
def wrapperOf? (t : Tree) (x : ElementId) : Option ElementId :=
  (t.valueType? x).bind TypeRef.definition?

/-- Tree `t'` is `t` with wrappers in the place of the unions that were used.
    Every use refers to a new model in its scope, under the name of that, and
    may be absent or a collection as it might before; two uses share a wrapper
    exactly when they have one scope and the same alternatives. A use is
    different in nothing but its type, and everything else in nothing, but that
    scopes hold new models besides. -/
structure UnionsWrapped (t : Tree) (placement : WrapperPlacement) (t' : Tree) :
    Prop where
  root_eq : t'.root = t.root
  refers : ∀ x u, Attached t x → t.unionType? x = some u → ∃ scope wrapper name,
    t.wrapperScope? placement x = some scope ∧ NewModel t t' scope wrapper name
    ∧ t'.valueType? x = some ⟨name, .declared wrapper, u.isNullable, u.isCollection⟩
  shared_iff : ∀ x y scope scope' u v, UnionUse t placement x scope u →
    UnionUse t placement y scope' v →
    (t'.wrapperOf? x = t'.wrapperOf? y ↔ scope = scope' ∧ u.members = v.members)
  get?_use : ∀ x e scope u, t.get? x = some e → UnionUse t placement x scope u →
    ∃ r, t'.get? x = some (e.mapValueType fun _ => r)
  get?_other : ∀ x e, t.get? x = some e →
    (∀ scope u, ¬ UnionUse t placement x scope u) → ∃ added,
    t'.get? x = some (e.gain added) ∧ (∀ c ∈ added, ∃ name, NewModel t t' x c name)
    ∧ (added ≠ [] → ∃ y u, UnionUse t placement y x u)

/-- Every wrapper of the table is a new model in the scope of its key. -/
theorem Replaced.newModel (h : Replaced t placement done w s)
    {p : WrapperKey × ElementId} {name : String} (hp : p ∈ w)
    (hname : s.name? p.2 = some name) : NewModel t s p.1.scope p.2 name := by
  obtain ⟨properties, hwrapper, -⟩ := h.standing.exists_properties p hp
  obtain ⟨_, ids, methods, hx, -⟩ := hwrapper.exists_class
  refine ⟨hwrapper.index_le, ?_, hname,
    (h.wellLinked.mem_children_iff _ _).mpr hwrapper.parent?_eq⟩
  rw [isClassOf, class?, hx]
  rfl

/-- What has a value is no scope. -/
theorem UnionUse.not_scope (hwl : WellLinked t)
    (h : UnionUse t placement x scope u) : ¬ UnionUse t placement y x v := by
  intro h'
  obtain ⟨hvalue, -⟩ := unionType?_eq_some_iff.mp h.unionType?_eq
  obtain ⟨e, he, hvalue⟩ := Option.bind_eq_some_iff.mp hvalue
  obtain ⟨e', he', hkind⟩ := kind?_eq_some_iff.mp (h'.attached_scope hwl).2
  obtain rfl : e' = e := Option.some.inj (he'.symm.trans he)
  have hkinds := Element.kind_of_valueType? hvalue
  rw [hkind] at hkinds
  revert hkinds
  cases placement <;> decide

/-- Every use has its turn. -/
theorem UnionUse.mem_descendants (hwl : WellLinked t)
    (h : UnionUse t placement x scope u) : x ∈ t.descendants t.root := by
  refine hwl.mem_descendants_iff.mpr (h.attached.resolve_left ?_)
  rintro rfl
  obtain ⟨hvalue, -⟩ := unionType?_eq_some_iff.mp h.unionType?_eq
  obtain ⟨e, he, hvalue⟩ := Option.bind_eq_some_iff.mp hvalue
  obtain ⟨er, her, hkind⟩ := hwl.exists_root
  obtain rfl : er = e := Option.some.inj (her.symm.trans he)
  rw [Element.valueType?_eq_none_of_namespace hkind] at hvalue
  cases hvalue

/-- What a use refers to after its turn is what the table has for it. -/
theorem Replaced.exists_wrapper (h : Replaced t placement done w s)
    (huse : UnionUse t placement x scope u) (hx : x ∈ done) :
    ∃ wrapper name, ((⟨scope, u.members⟩ : WrapperKey), wrapper) ∈ w
      ∧ s.name? wrapper = some name
      ∧ s.valueType? x
        = some ⟨name, .declared wrapper, u.isNullable, u.isCollection⟩ := by
  obtain ⟨hvalue, hunion⟩ := unionType?_eq_some_iff.mp huse.unionType?_eq
  obtain ⟨e, r, he, hr, hs⟩ := h.get?_use x hx scope u huse
  have hvalue' : s.valueType? x = some r := by
    obtain ⟨e', he', hvalue⟩ := Option.bind_eq_some_iff.mp hvalue
    obtain rfl : e' = e := Option.some.inj (he'.symm.trans he)
    rw [valueType?, hs]
    show (e'.mapValueType fun _ => r).valueType? = some r
    rw [Element.valueType?_mapValueType, hvalue]
    rfl
  cases hr with
  | itself hnot => rw [hunion] at hnot; cases hnot
  | @wrapper wrapper name _ hmem hname =>
      exact ⟨wrapper, name, hmem, hname, hvalue'⟩

/-- Every wrapper of a scope is a new model there. -/
theorem Replaced.newModel_of_mem_wrappersIn (h : Replaced t placement done w s)
    (hy : y ∈ wrappersIn w x) : ∃ name, NewModel t s x y name := by
  obtain ⟨p, hp, rfl, rfl⟩ := mem_wrappersIn_iff.mp hy
  obtain ⟨e, he⟩ := Option.isSome_iff_exists.mp (h.standing.isSome hp)
  refine ⟨e.name, h.newModel hp ?_⟩
  rw [name?, he]
  rfl

/-- A use holds no wrappers. -/
theorem Replaced.wrappersIn_of_use (hwl : WellLinked t)
    (h : Replaced t placement done w s) (huse : UnionUse t placement x scope u) :
    wrappersIn w x = [] := by
  refine List.eq_nil_iff_forall_not_mem.mpr fun c hc => ?_
  obtain ⟨p, hp, rfl, -⟩ := mem_wrappersIn_iff.mp hc
  obtain ⟨y, -, v, -, huse', -⟩ := h.exists_use p hp
  exact huse.not_scope hwl huse'

/-- The traversal leaves what lowering has to leave. -/
theorem Replaced.unionsWrapped (hwl : WellLinked t)
    (h : Replaced t placement (t.descendants t.root) w s) :
    UnionsWrapped t placement s := by
  have hrefers : ∀ {x scope u}, UnionUse t placement x scope u → ∃ wrapper name,
      ((⟨scope, u.members⟩ : WrapperKey), wrapper) ∈ w ∧ s.name? wrapper = some name
        ∧ s.valueType? x
          = some ⟨name, .declared wrapper, u.isNullable, u.isCollection⟩ :=
    fun huse => h.exists_wrapper huse (huse.mem_descendants hwl)
  exact
    { root_eq := h.root_eq
      refers := fun x u hx hu => by
        obtain ⟨scope, huse⟩ := hwl.exists_unionUse placement hx hu
        obtain ⟨wrapper, name, hmem, hname, hvalue⟩ := hrefers huse
        exact ⟨scope, wrapper, name, huse.wrapperScope?_eq,
          h.newModel hmem hname, hvalue⟩
      shared_iff := fun x y scope scope' u v hu hv => by
        obtain ⟨wrapper, name, hmem, -, hvalue⟩ := hrefers hu
        obtain ⟨wrapper', name', hmem', -, hvalue'⟩ := hrefers hv
        have hx : s.wrapperOf? x = some wrapper := by
          rw [wrapperOf?, hvalue]
          rfl
        have hy : s.wrapperOf? y = some wrapper' := by
          rw [wrapperOf?, hvalue']
          rfl
        have hkeys := h.standing.eq_iff hmem hmem'
        rw [WrapperKey.mk.injEq] at hkeys
        rw [hx, hy, Option.some.injEq, hkeys]
      get?_use := fun x e scope u he huse => by
        obtain ⟨e', r, he', -, hs⟩ :=
          h.get?_use x (huse.mem_descendants hwl) scope u huse
        obtain rfl : e' = e := Option.some.inj (he'.symm.trans he)
        refine ⟨r, ?_⟩
        rw [hs, h.wrappersIn_of_use hwl huse, Element.gain_nil]
      get?_other := fun x e he hnone => by
        refine ⟨wrappersIn w x, h.get?_other x e he fun scope u huse =>
          absurd huse (hnone scope u), ?_, fun hne => ?_⟩
        · exact fun c hc => h.newModel_of_mem_wrappersIn hc
        · obtain ⟨c, hc⟩ := List.exists_mem_of_ne_nil _ hne
          obtain ⟨p, hp, rfl, -⟩ := mem_wrappersIn_iff.mp hc
          obtain ⟨y, -, u, -, huse, -⟩ := h.exists_use p hp
          exact ⟨y, u, huse⟩ }

/-- When the unions of a tree are lowered, every use refers to a new model in
    its scope, uses share one exactly when their scopes and alternatives are the
    same, and nothing else is different but that scopes hold the new models. -/
theorem unionsWrapped_of_wrapUnions (hwf : WellFormed t) {u : Unit}
    (hrun : (Edit.wrapUnions placement).run t = .ok u t') :
    UnionsWrapped t placement t' := by
  obtain ⟨w, hmake⟩ := Edit.run_discard_eq_ok_iff.mp hrun
  exact (replaced_of_makeWrappers hwf.toWellLinked hmake).unionsWrapped
    hwf.toWellLinked

/-- The union of two declarations known by their names. -/
def userOrGroup : TypeRef :=
  .union "userOrGroup" [.external "User", .external "Group"]

/-- A union of the same name with other alternatives. -/
def userOrGroupKey : TypeRef :=
  .union "userOrGroup" [.external "string", .external "int"]

/-- A tree of two classes in one namespace which use both unions, beside a class
    that has their name already. -/
def membersAndTeams : Tree :=
  Operation.runAll
    [.addNamespace ⟨0⟩ "graph",
      .addNew .classes ⟨1⟩ (.classDecl "UserOrGroup" .model),
      .addNew .classes ⟨1⟩ (.classDecl "Membership" .model),
      .addNew .properties ⟨3⟩ (.property "member" .custom userOrGroup.collection),
      .addNew .properties ⟨3⟩ (.property "key" .custom userOrGroupKey),
      .addNew .classes ⟨1⟩ (.classDecl "Team" .model),
      .addNew .methods ⟨6⟩ (.method "add" .custom (.external "void")),
      .addNew .parameters ⟨7⟩ (.parameter "member" .requestBody userOrGroup)]
    initial

/-- A property and a parameter of another class share a wrapper, and another
    property has a wrapper of its own. -/
theorem unionsWrapped_of_wrapUnions_membersAndTeams :
    ∃ t', (Edit.wrapUnions .siblingClasses).run membersAndTeams = .ok () t'
      ∧ (∃ wrapper name, NewModel membersAndTeams t' ⟨1⟩ wrapper name
        ∧ t'.valueType? ⟨4⟩ = some ⟨name, .declared wrapper, false, true⟩)
      ∧ t'.wrapperOf? ⟨4⟩ = t'.wrapperOf? ⟨8⟩
      ∧ t'.wrapperOf? ⟨4⟩ ≠ t'.wrapperOf? ⟨5⟩ := by
  have hwf : WellFormed membersAndTeams :=
    (Operation.fullyNamed_runAll _ fullyNamed_initial).wellFormed
  obtain ⟨_, t', hrun, -⟩ :=
    Edit.exists_eq_ok (r := (Edit.wrapUnions .siblingClasses).run membersAndTeams)
    (P := fun _ _ => True) (by decide +kernel)
  have hwrapped := unionsWrapped_of_wrapUnions hwf hrun
  have huse : ∀ p ∈ [((⟨4⟩ : ElementId), userOrGroup.collection),
        (⟨5⟩, userOrGroupKey), (⟨8⟩, userOrGroup)],
      UnionUse membersAndTeams .siblingClasses p.1 ⟨1⟩ p.2 := by
    have hfacts : ∀ p ∈ [((⟨4⟩ : ElementId), userOrGroup.collection),
          (⟨5⟩, userOrGroupKey), (⟨8⟩, userOrGroup)],
        membersAndTeams.isAttached p.1 = true
          ∧ membersAndTeams.unionType? p.1 = some p.2
          ∧ membersAndTeams.wrapperScope? .siblingClasses p.1 = some ⟨1⟩ := by
            decide +kernel
    intro p hp
    obtain ⟨hattached, hunion, hscope⟩ := hfacts p hp
    exact ⟨hwf.toWellLinked.isAttached_iff.mp hattached, hunion, hscope⟩
  have hproperty := huse (⟨4⟩, userOrGroup.collection) (by decide)
  have hkey := huse (⟨5⟩, userOrGroupKey) (by decide)
  have hparameter := huse (⟨8⟩, userOrGroup) (by decide)
  refine ⟨t', hrun, ?_, ?_, fun heq => ?_⟩
  · obtain ⟨scope, wrapper, name, hscope, hmodel, hvalue⟩ :=
      hwrapped.refers ⟨4⟩ userOrGroup.collection hproperty.attached
        hproperty.unionType?_eq
    obtain rfl : ⟨1⟩ = scope :=
      Option.some.inj (hproperty.wrapperScope?_eq.symm.trans hscope)
    exact ⟨wrapper, name, hmodel, hvalue⟩
  · exact (hwrapped.shared_iff _ _ _ _ _ _ hproperty hparameter).mpr ⟨rfl, rfl⟩
  · have hmembers := ((hwrapped.shared_iff _ _ _ _ _ _ hproperty hkey).mp heq).2
    revert hmembers
    decide

end Tree

end CodeModel
