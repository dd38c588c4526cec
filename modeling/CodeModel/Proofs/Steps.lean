import CodeModel.Proofs.Retention
import Mathlib.Logic.Relation

/-!
# Steps of a refinement

A refinement changes a tree in steps: it amends an element, gives its value
another type, renames one, makes one, puts new elements into a slot, moves an
element to another holder, and takes a property out and puts it back under
another name. `Step` lists them with what holds whenever a pass takes one, and
`StepKind` tells them apart. All that is proved of every pass in every order is
proved of these steps; what holds of some passes only is proved of the kinds of
steps that they take.

* **`Stable`**: a well-formed tree whose references are bound.
* **`Stable.step`**: a step of a stable tree leads to a stable tree.
* **`Carries`**: it keeps what is there as what it was, and what is attached
  attached.

Between two steps of a pass the elements it has made hang free. `Pending` says
that they are fit to be attached.
-/

namespace CodeModel

namespace Element

/-- Element `e'` is `e` with fewer imports and references, or with other data
    that refers to nothing. -/
structure Trimmed (e e' : Element) : Prop where
  frame_eq : e'.frame = e.frame
  targets_subset : ∀ d ∈ e'.targets, d ∈ e.targets
  imports_sublist : List.Sublist e'.imports e.imports
  holds : Holds e e'

/-- Element `e` imports the declaration `d`. -/
def Brings (e : Element) (d : ElementId) : Prop :=
  ∃ i ∈ e.imports, i.target? = some d

theorem trimmed_refl (e : Element) : Trimmed e e :=
  ⟨rfl, fun _ h => h, List.Sublist.refl _, holds_refl e⟩

/-- A change under a condition trims if it does where it is made. -/
theorem Trimmed.ite {f : Element → Element} (hf : ∀ e, Trimmed e (f e)) (p : Prop)
    [Decidable p] (e : Element) : Trimmed e (if p then f e else e) := by
  split
  · exact hf e
  · exact trimmed_refl e

/-- A name leads nowhere. -/
theorem targets_withName (name : String) (e : Element) :
    (e.withName name).targets = e.targets := by
  obtain ⟨oldName, parent, children, description, content⟩ := e
  cases content <;> rfl

/-- A name is no import. -/
theorem imports_withName (name : String) (e : Element) :
    (e.withName name).imports = e.imports := by
  obtain ⟨oldName, parent, children, description, content⟩ := e
  cases content <;> rfl

end Element

namespace Tree

/-- In the tree `t`, element `e'` is `e` with other data and bound references:
    what is newly referred to is an attached declaration, and what is newly
    imported is attached and imported under the name that imports of it carry.
    No import occurs twice if none did. -/
structure Amended (t : Tree) (e e' : Element) : Prop where
  frame_eq : e'.frame = e.frame
  targets_bound : ∀ d ∈ e'.targets, d ∈ e.targets
    ∨ (Attached t d ∧ t.isDeclaration d = true)
  imports_named : ∀ i ∈ e'.imports, (∃ j ∈ e.imports, j.key = i.key)
    ∨ ∀ d, i.target? = some d → Attached t d ∧ i.name = t.importName d
  distinct : Import.Distinct e.imports → Import.Distinct e'.imports
  holds : Element.Holds e e'

/-- An element with a name that refers to attached declarations only. -/
def Fit (t : Tree) (id : ElementId) : Prop :=
  ∀ e, t.get? id = some e → e.name ≠ "" ∧ ∀ d ∈ e.targets, Attached t d
    ∧ t.isDeclaration d = true

/-- The top of a subtree that nobody holds yet, made from the place `n` on, all
    of it fit to be attached. -/
structure Pending (n : Nat) (t : Tree) (x : ElementId) : Prop where
  isSome : (t.get? x).isSome
  free : t.parent? x = none
  ne_root : x ≠ t.root
  fresh : ∀ b, Within t x b → n ≤ b.index
  fit : ∀ b, Within t x b → Fit t b

/-- The kinds of steps. An element is amended, comes to import a declaration,
    gets another type for its value, or is renamed; one is made whose value has
    no union type, or a method that refers to nothing, or the copy of another;
    elements join a slot; an element moves to another holder; a property is
    taken out and put back. -/
inductive StepKind where
  | amend
  | link
  | retype
  | rename
  | make
  | construct
  | copy
  | attach
  | move
  | reinsert
deriving DecidableEq

/-- What a step of some kind may make in the tree `t`. -/
def Made (t : Tree) (e : Element) : StepKind → Prop
  | .make => e.UnionFree
  | .construct => e.UnionFree ∧ e.kind = .method ∧ e.targets = []
  | .copy =>
      ∃ source es, Ancestor t t.root source ∧ t.get? source = some es
        ∧ (es.UnionFree → e.UnionFree)
  | _ => False

/-- What the element `e'` in the place `id` imports, `e` imports; unless
    elements come to import declarations in steps of the kinds `K`, and it lies
    outside. -/
def LinksOutward (K : StepKind → Prop) (t : Tree) (id : ElementId)
    (e e' : Element) : Prop :=
  ∀ d, e'.Brings d → e.Brings d ∨ K .link ∧ ¬ Within t id d

/-- What takes a class in, and what becomes of its imports. A namespace takes in
    any class; a request builder takes in a class of query parameters, and no
    longer imports it. -/
inductive TakesIn (t : Tree) (f : Element → Element) (holder child : ElementId) :
    Prop where
  | namespaceDecl (hkind : t.kind? holder = some .namespaceDecl)
      (hf : ∀ e, (f e).imports = e.imports)
  | builder (hbuilder : t.isClassOf holder [.requestBuilder] = true)
      (hquery : t.isClassOf child [.queryParameters] = true)
      (hf : ∀ e, e.kind = .classDecl →
        (f e).imports = e.imports.filter fun i => i.target? ≠ some child)

/-- One step of a refinement that found `n` elements when it began, of one of
    the kinds `K`. An element is amended, gets a type that is no union, or is
    renamed and trimmed, below the root; one without imports is made; elements
    made before join a slot, parameters one of a method made before; a class
    moves from a namespace to another holder, which is trimmed, and imports
    follow; or a property is taken out, trimmed, renamed and put back. -/
inductive Step (K : StepKind → Prop) (n : Nat) (t : Tree) : Tree → Prop where
  | amend {id : ElementId} {f : Element → Element}
      (h : ∀ e, t.get? id = some e → Amended t e (f e)) (hk : K .amend)
      (hmended : ∀ e, t.get? id = some e → Element.Mended e (f e))
      (hlinks : ∀ e, t.get? id = some e → LinksOutward K t id e (f e)) :
      Step K n t (t.modify id f)
  | retype {id : ElementId} {r : TypeRef}
      (h : ∀ e, t.get? id = some e → Amended t e (e.mapValueType fun _ => r))
      (hk : K .retype) : Step K n t (t.modify id (Element.mapValueType fun _ => r))
  | rename {id : ElementId} {name : String} {f : Element → Element}
      (hname : name ≠ "") (hroot : id ≠ t.root) (hf : ∀ e, Element.Trimmed e (f e))
      (hk : K .rename) (hnotes : ∀ e, t.get? id = some e → e.NotesWireName f) :
      Step K n t ((t.rename id name).modify id f)
  | create {e : Element} {k : StepKind} (hparent : e.parent = none)
      (hchildren : e.children = []) (htoken : e.TokenFits)
      (himports : e.imports = []) (hk : K k) (hmade : Made t e k)
      (hindex : e.kind ≠ .indexer) : Step K n t (t.push e)
  | attach {slot : Slot} {holder : ElementId} {ids : List ElementId}
      (h : Insertable t slot holder ids) (hids : ∀ c ∈ ids, Pending n t c)
      (hk : K .attach) (hnew : slot = .parameters → n ≤ holder.index) :
      Step K n t (t.attach holder ids)
  | move {holder child holder' : ElementId} {slot : Slot} {f : Element → Element}
      (hc : child ∈ t.children holder)
      (ha : Attached t holder) (ha' : Attached t holder')
      (h : Insertable (t.detach holder child).2 slot holder' [child])
      (hf : ∀ e, Element.Trimmed e (f e)) (hk : K .move)
      (hslot : slot.memberKind = .classDecl)
      (hwire : ∀ e, (f e).wireSlot? = e.wireSlot?)
      (hfrom : t.isNamespace holder = true) (htakes : TakesIn t f holder' child) :
      Step K n t ((((t.detach holder child).2.attach holder' [child]).modify holder'
        f).rebindImports child)
  | reinsert {holder child : ElementId} {name : String} {f : Element → Element}
      (hc : child ∈ t.children holder) (hkind : t.kind? child = some .property)
      (ha : Attached t holder)
      (hname : name ≠ "") (hf : ∀ e, Element.Trimmed e (f e))
      (h : Insertable (((t.detach holder child).2.modify child f).rename child name)
        .properties holder [child]) (hk : K .reinsert)
      (hnotes : ∀ e, t.get? child = some e → e.NotesWireName f) : Step K n t
      ((((t.detach holder child).2.modify child f).rename child name).attach
        holder [child])

/-- Steps of a refinement one after another. -/
abbrev Steps (K : StepKind → Prop) (n : Nat) : Tree → Tree → Prop :=
  Relation.ReflTransGen (Step K n)

/-- A well-formed tree whose references are bound: every element below the root
    is fit to be there. -/
structure Stable (t : Tree) : Prop extends WellLinked t where
  name?_root : t.name? t.root = some ""
  fit : ∀ id, Ancestor t t.root id → Fit t id

/-- Stable trees are those of the right shape with bound references. -/
theorem stable_iff {t : Tree} : Stable t ↔ WellFormed t ∧ Bound t := by
  constructor
  · intro h
    refine ⟨⟨h.toWellLinked, h.name?_root, fun id e he ha => (h.fit id ha e he).1⟩,
      ?_⟩
    exact fun id e he ha => (h.fit id ha e he).2
  · rintro ⟨hwf, hbound⟩
    refine ⟨hwf.toWellLinked, hwf.name?_root, fun id ha e he => ?_⟩
    exact ⟨hwf.name_ne_empty id e he ha, hbound id e he ha⟩

variable {t t' : Tree} {n : Nat} {K : StepKind → Prop}

/-! ## What passes from one tree to another -/

/-- Tree `t'` keeps the elements of `t` as what they were, and what was
    attached. -/
structure Carries (t t' : Tree) : Prop where
  root_eq : t'.root = t.root
  size_le : t.size ≤ t'.size
  kind?_eq : ∀ {id k}, t.kind? id = some k → t'.kind? id = some k
  attached : ∀ {id}, Attached t id → Attached t' id

theorem Carries.refl (t : Tree) : Carries t t :=
  ⟨rfl, Nat.le_refl _, fun h => h, fun h => h⟩

theorem Carries.trans {t'' : Tree} (h : Carries t t') (h' : Carries t' t'') :
    Carries t t'' :=
  ⟨h'.root_eq.trans h.root_eq, Nat.le_trans h.size_le h'.size_le, fun hk =>
    h'.kind?_eq (h.kind?_eq hk), fun ha => h'.attached (h.attached ha)⟩

/-- Declarations are carried as declarations. -/
theorem Carries.isDeclaration (h : Carries t t') {d : ElementId}
    (hd : t.isDeclaration d = true) : t'.isDeclaration d = true :=
  isDeclaration_iff.mpr ((isDeclaration_iff.mp hd).imp h.kind?_eq h.kind?_eq)

/-- In their places elements are carried. -/
theorem SamePlaces.carries (h : SamePlaces t t') : Carries t t' :=
  ⟨h.root_eq, Nat.le_of_eq h.size_eq.symm, fun hk => by rw [h.kind?_eq, hk],
    h.attached_iff.mpr⟩

/-- An element stays fit when it keeps a name and refers to nothing new but to
    attached declarations. -/
theorem Fit.carry (hc : Carries t t') {id : ElementId} (h : Fit t id)
    (hold : ∀ e', t'.get? id = some e' → ∃ e, t.get? id = some e
      ∧ (e.name ≠ "" → e'.name ≠ "") ∧ ∀ d ∈ e'.targets, d ∈ e.targets
      ∨ (Attached t d ∧ t.isDeclaration d = true)) : Fit t' id := by
  intro e' he'
  obtain ⟨e, he, hname, htargets⟩ := hold e' he'
  obtain ⟨hne, hbound⟩ := h e he
  refine ⟨hname hne, fun d hd => ?_⟩
  obtain ⟨ha, hdecl⟩ : Attached t d ∧ t.isDeclaration d = true := by
    rcases htargets d hd with hd | hd
    · exact hbound d hd
    · exact hd
  exact ⟨hc.attached ha, hc.isDeclaration hdecl⟩

/-! ## Amending -/

/-- Amending one element leaves the tree stable, in the same frames: what it
    newly refers to is attached. -/
theorem Stable.amend (h : Stable t) {id : ElementId} {f : Element → Element}
    (hf : ∀ e, t.get? id = some e → Amended t e (f e)) :
    Stable (t.modify id f) ∧ SameFrames t (t.modify id f) := by
  have hchange := changedBy_modify t id f
  have hsame : SameFrames t (t.modify id f) := by
    refine hchange.sameFrames fun x e he => ?_
    by_cases hx : x = id
    · rw [if_pos hx]
      exact (hf e (hx ▸ he)).frame_eq
    · rw [if_neg hx]
  refine ⟨⟨hsame.wellLinked h.toWellLinked, ?_, fun x hx => ?_⟩, hsame⟩
  · rw [hsame.root_eq, hsame.name?_eq]
    exact h.name?_root
  · rw [hsame.root_eq, hsame.samePlaces.ancestor_iff] at hx
    refine (h.fit x hx).carry hsame.samePlaces.carries fun e' he' => ?_
    obtain ⟨e, he, rfl⟩ := hchange.exists_of_get? he'
    refine ⟨e, he, ?_⟩
    by_cases hxid : x = id
    · have hamended := hf e (hxid ▸ he)
      rw [if_pos hxid, Element.name_eq_of_frame_eq hamended.frame_eq]
      exact ⟨fun hne => hne, hamended.targets_bound⟩
    · rw [if_neg hxid]
      exact ⟨fun hne => hne, fun d hd => Or.inl hd⟩

/-- A trimmed element is amended, in any tree. -/
theorem amended_of_trimmed {e e' : Element} (h : Element.Trimmed e e') :
    Amended t e e' where
  frame_eq := h.frame_eq
  targets_bound d hd := Or.inl (h.targets_subset d hd)
  imports_named i hi := Or.inl ⟨i, h.imports_sublist.subset hi, rfl⟩
  distinct hd := hd.sublist h.imports_sublist
  holds := h.holds

/-! ## Renaming -/

/-- Renaming leads nowhere else. -/
theorem targets_renamedElement (id : ElementId) (name : String) (x : ElementId)
    (e : Element) :
    (t.renamedElement id name x e).targets = e.targets := by
  rw [renamedElement, targets_refreshImports, Element.targets_rename]
  by_cases hx : x = id
  · rw [if_pos hx, Element.targets_withName]
  · rw [if_neg hx]

/-- A name that is not empty, for what is not the root, leaves the tree
    stable. -/
theorem Stable.rename (h : Stable t) {id : ElementId} {name : String}
    (hname : name ≠ "") (hroot : id ≠ t.root) : Stable (t.rename id name) := by
  have hsame := samePlaces_rename t id name
  refine ⟨h.toWellLinked.rename id name, ?_, fun x hx => ?_⟩
  · rw [hsame.root_eq, name?_rename h.toWellLinked,
      if_neg fun heq => hroot heq.symm]
    exact h.name?_root
  · rw [hsame.root_eq, hsame.ancestor_iff] at hx
    -- References show the new name, but lead where they led.
    refine (h.fit x hx).carry hsame.carries fun e' he' => ?_
    obtain ⟨e, he, rfl⟩ :=
      (changedBy_rename h.toWellLinked id name).exists_of_get? he'
    refine ⟨e, he, fun hne => ?_, fun d hd => Or.inl ?_⟩
    · rw [Element.name_eq_of_frame_eq (renamedElement_frame t id name x e)]
      by_cases hxid : x = id
      · rw [if_pos hxid]
        exact hname
      · rw [if_neg hxid]
        exact hne
    · rwa [targets_renamedElement] at hd

/-! ## Making and attaching -/

/-- A new element attaches nothing. -/
theorem attached_push_iff {e : Element} (hparent : e.parent = none)
    {id : ElementId} : Attached (t.push e) id ↔ Attached t id :=
  within_push_iff hparent

theorem carries_push {e : Element} (hparent : e.parent = none) :
    Carries t (t.push e) :=
  ⟨rfl, by rw [size_push]; exact Nat.le_succ _, kind?_push_of_kind?,
    (attached_push_iff hparent).mpr⟩

/-- What fits into a tree fits into it with one element more. -/
theorem Fit.push {e : Element} (hparent : e.parent = none) {id : ElementId}
    (hid : (t.get? id).isSome) (h : Fit t id) : Fit (t.push e) id := by
  refine h.carry (carries_push hparent) fun e' he' => ?_
  obtain ⟨e₀, he₀⟩ := Option.isSome_iff_exists.mp hid
  rw [get?_push_of_get? he₀] at he'
  exact ⟨e₀, he₀, fun hne => Option.some.inj he' ▸ hne, fun d hd =>
    Or.inl (Option.some.inj he' ▸ hd)⟩

/-- A detached element does not have to fit yet. -/
theorem Stable.push (h : Stable t) {e : Element} (hparent : e.parent = none)
    (hchildren : e.children = []) (htoken : e.TokenFits) : Stable (t.push e) := by
  obtain ⟨er, her, hempty⟩ := Option.map_eq_some_iff.mp h.name?_root
  refine ⟨h.toWellLinked.push hparent hchildren htoken, ?_, fun x hx => ?_⟩
  · show (t.push e).name? t.root = some ""
    rw [name?, get?_push_of_get? her, Option.map_some, hempty]
  · have hx' : Ancestor t t.root x := (ancestor_push_iff hparent).mp hx
    exact (h.fit x hx').push hparent
      (isSome_of_within (by rw [her]; rfl) (Or.inr hx'))

/-- An element just made is pending. -/
theorem pending_push_nextId (h : Stable t) (hn : n ≤ t.size) {e : Element}
    (hparent : e.parent = none) (hname : e.name ≠ "")
    (hbound : ∀ d ∈ e.targets, Attached t d ∧ t.isDeclaration d = true) :
    Pending n (t.push e) t.nextId := by
  have hbelow : ∀ b, Within (t.push e) t.nextId b → b = t.nextId := by
    rintro b (rfl | hb)
    · rfl
    · have :=
        h.toWellLinked.index_lt_of_ancestor ((ancestor_push_iff hparent).mp hb)
      exact absurd this (Nat.lt_irrefl _)
  have hcarries := carries_push (t := t) hparent
  exact
    { isSome := by
        rw [get?_push_nextId]
        rfl
      free := by
        rw [parent?, get?_push_nextId]
        exact hparent
      ne_root := fun heq => by
        obtain ⟨er, her, -⟩ := h.toWellLinked.exists_root
        have hroot : t.get? t.nextId = some er := by
          rw [heq]
          exact her
        rw [get?_nextId] at hroot
        cases hroot
      fresh := fun b hb => by
        rw [hbelow b hb]
        exact hn
      fit := fun b hb e' he' => by
        rw [hbelow b hb, get?_push_nextId] at he'
        obtain rfl := Option.some.inj he'
        exact ⟨hname, fun d hd => ⟨hcarries.attached (hbound d hd).1,
          hcarries.isDeclaration (hbound d hd).2⟩⟩ }

/-- What waits to be attached still does. -/
theorem Pending.push {x : ElementId} (h : Pending n t x) {e : Element}
    (hparent : e.parent = none) : Pending n (t.push e) x where
  isSome := by
    obtain ⟨ex, hex⟩ := Option.isSome_iff_exists.mp h.isSome
    rw [get?_push_of_get? hex]
    rfl
  free := by
    rw [parent?_push hparent]
    exact h.free
  ne_root := h.ne_root
  fresh b hb := h.fresh b ((within_push_iff hparent).mp hb)
  fit b hb := by
    have hb' := (within_push_iff hparent).mp hb
    exact (h.fit b hb').push hparent (isSome_of_within h.isSome hb')

section attach

variable {slot : Slot} {holder : ElementId} {ids : List ElementId}

/-- Joining a slot carries everything. -/
theorem carries_attach (h : Insertable t slot holder ids) :
    Carries t (t.attach holder ids) where
  root_eq := (relinked_attach t holder ids).root_eq
  size_le := Nat.le_of_eq (relinked_attach t holder ids).size_eq.symm
  kind?_eq hk := by rw [(relinked_attach t holder ids).kind?_eq, hk]
  attached ha := by
    rw [Attached, (relinked_attach t holder ids).root_eq]
    exact h.within_attach_of_within ha

/-- What fits still fits when something joins a slot. -/
theorem Fit.attach (hi : Insertable t slot holder ids) {id : ElementId}
    (h : Fit t id) : Fit (t.attach holder ids) id := by
  refine h.carry (carries_attach hi) fun e' he' => ?_
  obtain ⟨e, he, rfl⟩ := (changedBy_attach t holder ids).exists_of_get? he'
  exact ⟨e, he, fun hne => hne, fun d hd => Or.inl hd⟩

/-- After joining a slot the tree is stable, if all that joins fits. -/
theorem Stable.attach (h : Stable t) (hi : Insertable t slot holder ids)
    (hids : ∀ c ∈ ids, ∀ b, Within t c b → Fit t b) :
    Stable (t.attach holder ids) := by
  have hsame := relinked_attach t holder ids
  refine ⟨h.toWellLinked.attach hi, ?_, fun x hx => ?_⟩
  · rw [hsame.root_eq, hsame.name?_eq]
    exact h.name?_root
  · rw [hsame.root_eq] at hx
    refine Fit.attach hi ?_
    rcases hi.ancestor_attach_iff.mp hx with hx | ⟨c, hc, hcx, -⟩
    · exact h.fit x hx
    · exact hids c hc x hcx

/-- Pending elements stay pending while others, and what is put into them, are
    attached. -/
theorem Pending.attach {x : ElementId} (h : Pending n t x)
    (hi : Insertable t slot holder ids) (hids : ∀ c ∈ ids, Pending n t c)
    (hx : x ∉ ids) : Pending n (t.attach holder ids) x where
  isSome := by
    rw [(changedBy_attach t holder ids).get?_eq, Option.isSome_map]
    exact h.isSome
  free := by
    rw [hi.parent?_attach, if_neg hx]
    exact h.free
  ne_root := by
    rw [(relinked_attach t holder ids).root_eq]
    exact h.ne_root
  fresh b hb := by
    rcases hi.within_attach_iff.mp hb with hb | ⟨c, hc, hcb, -⟩
    · exact h.fresh b hb
    · exact (hids c hc).fresh b hcb
  fit b hb := by
    refine Fit.attach hi ?_
    rcases hi.within_attach_iff.mp hb with hb | ⟨c, hc, hcb, -⟩
    · exact h.fit b hb
    · exact (hids c hc).fit b hcb

end attach

/-! ## Moving -/

section move

variable {holder child holder' : ElementId} {slot : Slot}

/-- A child taken out and put somewhere else is attached again, with all that it
    holds; nothing else changes. The tree may change between, as long as every
    element stays in its place. -/
theorem attached_relocate_iff (hwl : WellLinked t) (hc : child ∈ t.children holder)
    (ha : Attached t holder) (ha' : Attached t holder')
    (hsame : SamePlaces (t.detach holder child).2 t')
    (hi : Insertable t' slot holder' [child]) {b : ElementId} :
    Attached (t'.attach holder' [child]) b ↔ Attached t b := by
  have hchild : Attached t child :=
    ha.of_parent? ((hwl.mem_children_iff holder child).mp hc)
  have hwithin : ∀ {b}, Within t' child b ↔ Within t child b := fun {b} =>
    hsame.within_iff.trans (within_child_detach_iff hwl hc)
  have hout : ∀ {b}, Attached t' b ↔ Attached t b ∧ ¬ Within t child b := fun {b} =>
    hsame.attached_iff.trans (attached_detach_iff hwl hc)
  -- The new holder does not lie below the child, for the child may join it.
  have hholder : Attached t' holder' :=
    hout.mpr ⟨ha', fun h =>
      hi.not_within child (List.mem_singleton_self child) (hwithin.mpr h)⟩
  rw [hi.attached_attach_iff hholder]
  constructor
  · rintro (hb | ⟨c, hcm, hb⟩)
    · exact (hout.mp hb).1
    · rw [List.mem_singleton.mp hcm] at hb
      exact hchild.trans (hwithin.mp hb)
  · intro hb
    by_cases hin : Within t child b
    · exact Or.inr ⟨child, List.mem_singleton_self child, hwithin.mpr hin⟩
    · exact Or.inl (hout.mpr ⟨hb, hin⟩)

/-- What something attached holds is below the root. -/
theorem attached_child (hwl : WellLinked t) (hc : child ∈ t.children holder)
    (ha : Attached t holder) : Ancestor t t.root child :=
  ancestor_of_within_of_parent? ha ((hwl.mem_children_iff holder child).mp hc)

/-- What follows for a tree whose elements are attached as in `t`, each fit if
    it was. -/
theorem Stable.of_attached_iff (h : Stable t) (hwl : WellLinked t')
    (hc : Carries t t') (hroot : t'.name? t.root = some "")
    (hiff : ∀ {b}, Attached t' b ↔ Attached t b)
    (hold : ∀ id, Ancestor t t.root id → ∀ e', t'.get? id = some e' → ∃ e, t.get? id
      = some e ∧ (e.name ≠ "" → e'.name ≠ "") ∧ ∀ d ∈ e'.targets, d ∈ e.targets) :
    Stable t' := by
  refine ⟨hwl, by rw [hc.root_eq]; exact hroot, fun x hx => ?_⟩
  have hx' : Ancestor t t.root x := by
    rcases hiff.mp (Or.inr hx) with heq | hx'
    · rw [heq, ← hc.root_eq] at hx
      exact absurd hx hwl.not_ancestor_root
    · exact hx'
  refine (h.fit x hx').carry hc fun e' he' => ?_
  obtain ⟨e, he, hname, htargets⟩ := hold x hx' e' he'
  exact ⟨e, he, hname, fun d hd => Or.inl (htargets d hd)⟩

/-- A move leaves the tree stable. In between the class is not attached, and
    references to it lead out of the tree; so the argument is about the whole
    move. -/
theorem Stable.move (h : Stable t) {f : Element → Element}
    (hc : child ∈ t.children holder) (ha : Attached t holder)
    (ha' : Attached t holder')
    (hi : Insertable (t.detach holder child).2 slot holder' [child])
    (hf : ∀ e, Element.Trimmed e (f e)) {t₂ t₃ : Tree}
    (h₂ : t₂ = (t.detach holder child).2.attach holder' [child])
    (h₃ : t₃ = (t₂.modify holder' f).rebindImports child) :
    Stable t₃ ∧ Carries t t₃ := by
  have hwl := h.toWellLinked
  have hlinks : Relinked t t₂ :=
    h₂ ▸ (relinked_detach hc).trans (relinked_attach _ _ _)
  -- The imports are named anew once the links are made, which touches neither
  -- places nor names.
  have hframes : SameFrames t₂ t₃ := by
    rw [h₃]
    exact (sameFrames_modify t₂ holder' fun e => (hf e).frame_eq).trans
      (sameFrames_rebindImports _ child)
  have hwl₂ : WellLinked t₂ := h₂ ▸ (hwl.detach hc).attach hi
  have hiff : ∀ {b}, Attached t₃ b ↔ Attached t b := by
    intro b
    rw [hframes.samePlaces.attached_iff, h₂]
    exact attached_relocate_iff hwl hc ha ha' (SamePlaces.refl _) hi
  have hcarries : Carries t t₃ :=
    { root_eq := hframes.root_eq.trans hlinks.root_eq
      size_le := Nat.le_of_eq (hframes.samePlaces.size_eq.trans hlinks.size_eq).symm
      kind?_eq := fun hk => by rw [hframes.samePlaces.kind?_eq, hlinks.kind?_eq, hk]
      attached := hiff.mpr }
  refine ⟨h.of_attached_iff (hframes.wellLinked hwl₂) hcarries ?_ hiff
    fun x _ e' he' => ?_, hcarries⟩
  · rw [hframes.name?_eq, hlinks.name?_eq]
    exact h.name?_root
  · rw [h₃] at he'
    -- An element is followed back through the three changes, last first.
    obtain ⟨e₂', he₂', rfl⟩ := (changedBy_rebindImports _ child).exists_of_get? he'
    obtain ⟨e₂, he₂, rfl⟩ := (changedBy_modify t₂ holder' f).exists_of_get? he₂'
    obtain ⟨e, he, hname, hcontent⟩ := hlinks.exists_get? he₂
    have htrim : Element.Trimmed e₂ (if x = holder' then f e₂ else e₂) :=
      .ite hf _ e₂
    refine ⟨e, he, fun hne => ?_, fun d hd => ?_⟩
    · rw [Element.name_eq_of_frame_eq (Element.frame_mapImports _ _),
        Element.name_eq_of_frame_eq htrim.frame_eq, hname]
      exact hne
    · rw [targets_refreshImports] at hd
      rw [← Element.targets_eq_of_content_eq hcontent]
      exact htrim.targets_subset d hd

/-- So does taking a property out and putting it back. Nothing refers to
    properties. -/
theorem Stable.reinsert (h : Stable t) {name : String} {f : Element → Element}
    (hc : child ∈ t.children holder) (ha : Attached t holder) (hname : name ≠ "")
    (hf : ∀ e, Element.Trimmed e (f e)) {t₁ t₂ t₃ t₄ : Tree}
    (h₁ : t₁ = (t.detach holder child).2) (h₂ : t₂ = t₁.modify child f)
    (h₃ : t₃ = t₂.rename child name) (h₄ : t₄ = t₃.attach holder [child])
    (hi : Insertable t₃ .properties holder [child]) : Stable t₄ ∧ Carries t t₄ := by
  have hwl := h.toWellLinked
  have hlinks₁ : Relinked t t₁ := h₁ ▸ relinked_detach hc
  have hframes₂ : SameFrames t₁ t₂ :=
    h₂ ▸ sameFrames_modify t₁ child fun e => (hf e).frame_eq
  have hplaces₃ : SamePlaces t₂ t₃ := h₃ ▸ samePlaces_rename t₂ child name
  have hlinks₄ : Relinked t₃ t₄ := h₄ ▸ relinked_attach t₃ holder [child]
  have hwl₁ : WellLinked t₁ := h₁ ▸ hwl.detach hc
  have hwl₂ : WellLinked t₂ := hframes₂.wellLinked hwl₁
  have hwl₃ : WellLinked t₃ := h₃ ▸ hwl₂.rename child name
  have hwl₄ : WellLinked t₄ := h₄ ▸ hwl₃.attach hi
  -- The trees in between are not stable, with the child loose, so only the two ends
  -- are compared.
  have hiff : ∀ {b}, Attached t₄ b ↔ Attached t b := by
    intro b
    rw [h₄]
    exact attached_relocate_iff hwl hc ha ha
      (h₁ ▸ hframes₂.samePlaces.trans hplaces₃) hi
  have hcarries : Carries t t₄ :=
    { root_eq := hlinks₄.root_eq.trans
        (hplaces₃.root_eq.trans (hframes₂.root_eq.trans hlinks₁.root_eq))
      size_le := Nat.le_of_eq <| by
        rw [hlinks₄.size_eq, hplaces₃.size_eq, hframes₂.samePlaces.size_eq,
          hlinks₁.size_eq]
      kind?_eq := fun hk => by
        rw [hlinks₄.kind?_eq, hplaces₃.kind?_eq, hframes₂.samePlaces.kind?_eq,
          hlinks₁.kind?_eq, hk]
      attached := hiff.mpr }
  have hne : t.root ≠ child := by
    intro heq
    have hchild := attached_child hwl hc ha
    rw [← heq] at hchild
    exact hwl.not_ancestor_root hchild
  refine ⟨h.of_attached_iff hwl₄ hcarries ?_ hiff fun x _ e' he' => ?_, hcarries⟩
  · rw [hlinks₄.name?_eq, h₃, name?_rename hwl₂, if_neg hne, hframes₂.name?_eq,
      hlinks₁.name?_eq]
    exact h.name?_root
  · obtain ⟨e₃, he₃, hname₄, hcontent₄⟩ := hlinks₄.exists_get? he'
    rw [h₃] at he₃
    obtain ⟨e₂, he₂, rfl⟩ := (changedBy_rename hwl₂ child name).exists_of_get? he₃
    rw [h₂] at he₂
    obtain ⟨e₁, he₁, rfl⟩ := (changedBy_modify t₁ child f).exists_of_get? he₂
    obtain ⟨e, he, hname₁, hcontent₁⟩ := hlinks₁.exists_get? he₁
    have htrim : Element.Trimmed e₁ (if x = child then f e₁ else e₁) := .ite hf _ e₁
    refine ⟨e, he, fun hne => ?_, fun d hd => ?_⟩
    · rw [hname₄,
        Element.name_eq_of_frame_eq (renamedElement_frame t₂ child name x _)]
      by_cases hx : x = child
      · rw [if_pos hx]
        exact hname
      · rw [if_neg hx, Element.name_eq_of_frame_eq htrim.frame_eq, hname₁]
        exact hne
    · rw [Element.targets_eq_of_content_eq hcontent₄, targets_renamedElement] at hd
      rw [← Element.targets_eq_of_content_eq hcontent₁]
      exact htrim.targets_subset d hd

end move

/-! ## Any step -/

/-- A step of a stable tree leads to a stable tree, in which everything is what
    it was and what was attached is attached. -/
theorem Stable.step (h : Stable t) (hstep : Step K n t t') :
    Stable t' ∧ Carries t t' := by
  cases hstep with
  | amend hf =>
      obtain ⟨hstable, hsame⟩ := h.amend hf
      exact ⟨hstable, hsame.samePlaces.carries⟩
  | retype hf =>
      obtain ⟨hstable, hsame⟩ := h.amend hf
      exact ⟨hstable, hsame.samePlaces.carries⟩
  | rename hname hroot hf =>
      obtain ⟨hstable, hsame⟩ := (h.rename hname hroot).amend fun e _ =>
        amended_of_trimmed (hf e)
      exact ⟨hstable,
        (samePlaces_rename t _ _).carries.trans hsame.samePlaces.carries⟩
  | create hparent hchildren htoken _ =>
      exact ⟨h.push hparent hchildren htoken, carries_push hparent⟩
  | attach hi hids =>
      exact ⟨h.attach hi fun c hc => (hids c hc).fit, carries_attach hi⟩
  | move hc ha ha' hi hf => exact h.move hc ha ha' hi hf rfl rfl
  | reinsert hc _ ha hname hf hi =>
      exact h.reinsert hc ha hname hf rfl rfl rfl rfl hi

/-- Through all steps a tree stays stable and carries what it had. -/
theorem Stable.steps (h : Stable t) (hsteps : Steps K n t t') :
    Stable t' ∧ Carries t t' := by
  induction hsteps with
  | refl => exact ⟨h, Carries.refl t⟩
  | tail _ hstep ih =>
      obtain ⟨hstable, hcarries⟩ := ih.1.step hstep
      exact ⟨hstable, ih.2.trans hcarries⟩

end Tree

end CodeModel
