import CodeModel.Proofs.ImportNames

/-!
# Imports of a refined tree

Classes come to import what they refer to in the middle of a refinement. After
that, passes rename namespaces and declarations, which gives imports other
names, take properties out and put them back, give members other types and add
constructors.

* **`Complete`**: a class imports what it refers to, under the names that
  imports of it carry.
* **`complete_of_importReferenced`**: after the pass that adds the imports,
  every class does.
* **`Upholds`**: what one of the later steps does to an element: it refers to
  nothing new, and imports what it imported, under the name of the day.
* **`Complete.steps`**: so classes stay complete.

Main statement: `importsComplete_of_refine`.
-/

namespace CodeModel

open CodeModel.Tree

namespace Element

/-- The element imports a declaration under a name. -/
def ImportsAs (e : Element) (d : ElementId) (name : String) : Prop :=
  ∃ i ∈ e.imports, i.target? = some d ∧ i.name = name

end Element

namespace Tree

/-- The types by which a class refers to declarations: what it inherits from,
    what it implements, the values of its properties, methods and indexer, the
    index of the indexer, and the parameters of its methods. -/
inductive Uses (t : Tree) (c : ElementId) : TypeRef → Prop where
  | inherits {decl : ClassDecl} {r : TypeRef} (hc : t.class? c = some decl)
      (hr : decl.inherits = some r) : Uses t c r
  | implements {decl : ClassDecl} {r : TypeRef} (hc : t.class? c = some decl)
      (hr : r ∈ decl.implements) : Uses t c r
  | value {x : ElementId} {r : TypeRef} (hx : x ∈ t.children c)
      (hr : t.valueType? x = some r) : Uses t c r
  | index {x : ElementId} {r : TypeRef} (hx : x ∈ t.children c)
      (hr : t.indexType? x = some r) : Uses t c r
  | parameter {m x : ElementId} {r : TypeRef} (hm : m ∈ t.children c)
      (hmethod : t.kind? m = some .method) (hx : x ∈ t.children m)
      (hr : t.valueType? x = some r) : Uses t c r

/-- The elements whose types are used by a class: its header, its members other
    than classes, and the parameters of its methods. -/
inductive PartOf (t : Tree) (c : ElementId) : ElementId → Prop where
  | header : PartOf t c c
  | member {x : ElementId} (hp : t.parent? x = some c)
      (hkind : t.kind? x ≠ some .classDecl) : PartOf t c x
  | parameter {m x : ElementId} (hp : t.parent? x = some m)
      (hmethod : t.kind? m = some .method) (hm : t.parent? m = some c) :
      PartOf t c x

/-- An element imports a declaration under the name that imports of it carry. -/
def ImportsNamed (t : Tree) (x d : ElementId) : Prop :=
  ∃ i ∈ t.imports x, i.target? = some d ∧ i.name = t.importName d

/-- A class imports all that it refers to, but for itself, for what lies below
    it, and, unless the namespace of its own counts too, for what shares its
    namespace. -/
def Complete (t : Tree) (ownNamespaceToo : Bool) (c : ElementId) : Prop :=
  ∀ x e, PartOf t c x → t.get? x = some e → ∀ d ∈ e.ownTargets, ¬ Within t c d →
    (ownNamespaceToo = false →
      t.containingNamespace? d ≠ t.containingNamespace? c) → t.ImportsNamed c d

/-- In `t'` the element `e'` refers to nothing of its own that `e` did not refer
    to in `t`, and it imports attached declarations that `e` imported, each
    under the name that imports of it carry. -/
structure Upholds (t t' : Tree) (e e' : Element) : Prop where
  ownTargets_subset : ∀ d ∈ e'.ownTargets, d ∈ e.ownTargets
  imports : ∀ d, Attached t d → t.isDeclaration d = true →
    e.ImportsAs d (t.importName d) → e'.ImportsAs d (t'.importName d)

/-- The kinds of steps by which no class comes to refer to anything new. -/
def StepKind.Settled (k : StepKind) : Prop :=
  k ∈ [StepKind.amend, .link, .rename, .construct, .attach, .reinsert]

instance : DecidablePred StepKind.Settled := fun k =>
  inferInstanceAs (Decidable
    (k ∈ [StepKind.amend, .link, .rename, .construct, .attach, .reinsert]))

variable {t t' : Tree} {n : Nat} {K : StepKind → Prop}

/-! ## Elements -/

/-- What is upheld twice is upheld. The tree in between has everything attached
    that the first had. -/
theorem Upholds.trans {t'' : Tree} {e e' e'' : Element} (h : Upholds t t' e e')
    (h' : Upholds t' t'' e' e'') (hc : Carries t t') : Upholds t t'' e e'' where
  ownTargets_subset d hd := h.ownTargets_subset d (h'.ownTargets_subset d hd)
  imports d ha hdecl hi :=
    h'.imports d (hc.attached ha) (hc.isDeclaration hdecl) (h.imports d ha hdecl hi)

theorem upholds_refl (t : Tree) (e : Element) : Upholds t t e e :=
  ⟨fun _ hd => hd, fun _ _ _ hi => hi⟩

/-- Where imports of attached declarations keep their names, an element may keep
    its imports. -/
theorem upholds_of_keys {e e' : Element}
    (htargets : ∀ d ∈ e'.ownTargets, d ∈ e.ownTargets)
    (hkeys : ∀ i ∈ e.imports, ∃ j ∈ e'.imports, j.key = i.key)
    (hnames : ∀ d, Attached t d → t.isDeclaration d = true →
      t'.importName d = t.importName d) : Upholds t t' e e' where
  ownTargets_subset := htargets
  imports d ha hdecl := by
    rintro ⟨i, hi, htarget, hname⟩
    obtain ⟨j, hj, hkey⟩ := hkeys i hi
    obtain ⟨htarget', hname'⟩ := Import.target?_eq_of_key_eq hkey
    exact ⟨j, hj, htarget'.trans htarget,
      (hname'.trans hname).trans (hnames d ha hdecl).symm⟩

/-- A rename gives the imports of everything attached the names that they are to
    carry. -/
theorem upholds_renamedElement (hwl : WellLinked t) (id : ElementId) (name : String)
    (x : ElementId) (e : Element) :
    Upholds t (t.rename id name) e (t.renamedElement id name x e) where
  ownTargets_subset d hd := by
    rw [ownTargets_renamedElement] at hd
    exact hd
  imports d ha hdecl := by
    rintro ⟨i, hi, htarget, hname⟩
    -- An import by itself is a tidy block.
    have htidy : Tidy 0 t [i] := by
      have honly : ∀ j ∈ [i], ∀ d', j.target? = some d' → j.name = t.importName d'
          ∧ Attached t d' := by
        intro j hj d' hd'
        obtain rfl := List.mem_singleton.mp hj
        obtain rfl := Option.some.inj (htarget.symm.trans hd')
        exact ⟨hname, ha⟩
      exact ⟨⟨fun j hj d' hd' _ => (honly j hj d' hd').1, List.pairwise_singleton _
        _⟩, fun j hj d' hd' => Or.inr (honly j hj d' hd').2⟩
    have hrenamed := htidy.rename hwl id name
    have htarget' := (t.target?_renamedImport id name i).trans htarget
    refine ⟨t.renamedImport id name i, ?_, htarget', ?_⟩
    · rw [imports_renamedElement]
      exact List.mem_map_of_mem hi
    · refine hrenamed.consistent.named _ (List.mem_singleton_self _) d htarget' ?_
      exact (samePlaces_rename t id name).carries.isDeclaration hdecl

/-! ## Steps -/

/-- An element may be changed if it refers to nothing new and has imports of the
    same keys. -/
theorem upholds_modify (hwl : WellLinked t) {id : ElementId} {f : Element → Element}
    (hframes : SameFrames t (t.modify id f)) {x : ElementId} {e : Element}
    (hf : x = id → (∀ d ∈ (f e).ownTargets, d ∈ e.ownTargets)
      ∧ ∀ i ∈ e.imports, ∃ j ∈ (f e).imports, j.key = i.key) :
    Upholds t (t.modify id f) e (if x = id then f e else e) := by
  have hnames : ∀ d, Attached t d → t.isDeclaration d = true → _ := fun d _ _ =>
    importName_eq_of_sameAbove hwl (hframes.wellLinked hwl) hframes.root_eq
      (hframes.sameAbove d)
  by_cases hx : x = id
  · rw [if_pos hx]
    exact upholds_of_keys (hf hx).1 (hf hx).2 hnames
  · rw [if_neg hx]
    exact upholds_of_keys (fun _ hd => hd) (fun i hi => ⟨i, hi, rfl⟩) hnames

/-- Taking a property out, noting its name on the wire, renaming it and putting
    it back leaves what elements refer to, and the keys of their imports. -/
theorem upholds_reinsert (h : Stable t) {holder child : ElementId} {name : String}
    {f : Element → Element} (hc : child ∈ t.children holder)
    (hkind : t.kind? child = some .property) (ha : Attached t holder)
    (hname : name ≠ "") (hf : ∀ e, Element.Trimmed e (f e)) {t₁ t₂ t₃ t₄ : Tree}
    (h₁ : t₁ = (t.detach holder child).2) (h₂ : t₂ = t₁.modify child f)
    (h₃ : t₃ = t₂.rename child name) (h₄ : t₄ = t₃.attach holder [child])
    (hi : Insertable t₃ .properties holder [child])
    (hnotes : ∀ e, t.get? child = some e → e.NotesWireName f) {x : ElementId}
    {e e' : Element} (he : t.get? x = some e) (he' : t₄.get? x = some e') :
    Upholds t t₄ e e' := by
  have hwl := h.toWellLinked
  obtain ⟨hstable, hcarries⟩ := h.reinsert hc ha hname hf h₁ h₂ h₃ h₄ hi
  obtain ⟨e₀, e₁, e₂, he₀, hcontent, he₂, hcontent', himports⟩ :=
    hwl.exists_reinserted hc hkind hf h₁ h₂ h₃ h₄ he'
  obtain rfl : e = e₀ := Option.some.inj (he.symm.trans he₀)
  have hnoted : e₂.ownTypes = e₁.ownTypes ∧ e₂.imports = e₁.imports := by
    rw [he₂]
    by_cases hx : x = child
    · rw [if_pos hx]
      have hnotes := hnotes e (hx ▸ he)
      exact ⟨hnotes.ownTypes_eq e₁, hnotes.imports_eq e₁⟩
    · rw [if_neg hx]
      exact ⟨rfl, rfl⟩
  have htargets : e'.ownTargets = e.ownTargets := by
    rw [Element.ownTargets_eq_of_ownTypes_eq
      (Element.ownTypes_eq_of_content_eq hcontent'),
      ownTargets_renamedElement, Element.ownTargets_eq_of_ownTypes_eq hnoted.1,
      Element.ownTargets_eq_of_ownTypes_eq
      (Element.ownTypes_eq_of_content_eq hcontent)]
  refine upholds_of_keys (fun d hd => htargets ▸ hd) (fun i hmem => ?_)
    fun d _ hdecl => ?_
  · refine ⟨i.mapSymbol (·.rename (t₂.shownName child name)), ?_,
      Import.key_eq_iff.mpr
      ⟨rfl, Import.subject?_mapSymbol_rename (unbound_shownName child name) i⟩⟩
    rw [himports, hnoted.2, Element.imports_eq_of_content_eq hcontent]
    exact List.mem_map_of_mem hmem
  · exact importName_eq_of_sameAbove hwl hstable.toWellLinked hcarries.root_eq
      (hwl.sameAbove_reinsert hc hkind hf h₁ h₂ h₃ h₄ hi
        (hcarries.isDeclaration hdecl))

/-- What is settled and was imported under the right name is imported so after a
    step, and no element comes to refer to anything new of its own. -/
theorem upholds_of_step (h : Stable t) (hK : ∀ k, K k → k.Settled)
    (hstep : Step K n t t') {x : ElementId} {e : Element} (he : t.get? x = some e) :
    ∃ e', t'.get? x = some e' ∧ Upholds t t' e e' := by
  have hwl := h.toWellLinked
  obtain ⟨hstable, hc⟩ := h.step hstep
  -- An import keeps its name where all that is above its declaration stays as it
  -- is.
  have hsame : ∀ {d}, SameAbove t t' d →
      t'.importName d = t.importName d := fun hd =>
    importName_eq_of_sameAbove hwl hstable.toWellLinked hc.root_eq hd
  obtain ⟨e', he', -⟩ := kept_of_step h hstep he
  refine ⟨e', he', ?_⟩
  cases hstep with
  | @amend id f hf _ hmended =>
      rw [(changedBy_modify t id f).get?_eq, he, Option.map_some] at he'
      obtain rfl := Option.some.inj he'
      refine upholds_modify hwl (h.amend hf).2 fun hx => ?_
      have hmended := hmended e (hx ▸ he)
      exact ⟨hmended.ownTargets_subset, hmended.keys_subset⟩
  | @rename id name f _ _ hf _ hnotes =>
      rw [(changedBy_modify _ id f).get?_eq, (changedBy_rename hwl id name).get?_eq,
        he, Option.map_some, Option.map_some] at he'
      obtain rfl := Option.some.inj he'
      have hframes :=
        sameFrames_modify (t.rename id name) id fun e => (hf e).frame_eq
      refine (upholds_renamedElement hwl id name x e).trans
        (upholds_modify (hwl.rename id name) hframes fun hx => ?_)
          (samePlaces_rename t id name).carries
      have hnotes := hnotes e (hx ▸ he)
      refine ⟨fun d hd => ?_, fun i hi => ⟨i, ?_, rfl⟩⟩
      · rwa [Element.ownTargets_eq_of_ownTypes_eq (hnotes.ownTypes_eq _)] at hd
      · rwa [hnotes.imports_eq]
  | create hparent =>
      rw [get?_push_of_get? he] at he'
      obtain rfl := Option.some.inj he'
      refine upholds_of_keys (fun _ hd => hd) (fun i hi => ⟨i, hi, rfl⟩)
        fun d ha _ => hsame ?_
      exact hwl.sameAbove_push hparent (hwl.index_lt_of_attached ha)
  | @attach slot holder ids hi hids =>
      rw [(changedBy_attach t holder ids).get?_eq, he, Option.map_some] at he'
      obtain rfl := Option.some.inj he'
      refine upholds_of_keys (fun _ hd => hd) (fun i hi => ⟨i, hi, rfl⟩)
        fun d ha _ => hsame ?_
      exact sameAbove_attach hi fun c hc => (hids c hc).not_within hwl (Or.inr ha)
  | reinsert hc' hkind ha hname hf hi _ hnotes =>
      exact upholds_reinsert h hc' hkind ha hname hf rfl rfl rfl rfl hi
        hnotes he he'
  | retype _ hk => exact absurd (hK _ hk) (by decide)
  | move _ _ _ _ _ hk => exact absurd (hK _ hk) (by decide)

/-- Through settled steps what an element imports under the right name it
    imports under the right name, and it refers to nothing new of its own. -/
theorem upholds_of_steps (h : Stable t) (hK : ∀ k, K k → k.Settled)
    (hsteps : Steps K n t t') {x : ElementId} {e : Element}
    (he : t.get? x = some e) : ∃ e', t'.get? x = some e' ∧ Upholds t t' e e' := by
  induction hsteps with
  | refl => exact ⟨e, he, upholds_refl t e⟩
  | tail hsteps hstep ih =>
      obtain ⟨e₁, he₁, hupholds₁⟩ := ih
      obtain ⟨hs, hc⟩ := h.steps hsteps
      obtain ⟨e₂, he₂, hupholds₂⟩ := upholds_of_step hs hK hstep he₁
      exact ⟨e₂, he₂, hupholds₁.trans hupholds₂ hc⟩

/-- What such steps make are methods that refer to nothing. -/
theorem old_or_unreferring_of_steps (h : Stable t) (hK : ∀ k, K k → k.Settled)
    (hsteps : Steps K n t t') {x : ElementId} {e' : Element}
    (he' : t'.get? x = some e') :
    (∃ e, t.get? x = some e) ∨ e'.kind = .method ∧ e'.ownTargets = [] := by
  induction hsteps generalizing e' with
  | refl => exact Or.inl ⟨e', he'⟩
  | tail hsteps hstep ih =>
      have hs := (h.steps hsteps).1
      rcases old_or_made_of_step hs hstep he' with ⟨e₁, he₁⟩ | ⟨-, -, k, hk, hmade⟩
      · rcases ih he₁ with hold | ⟨hkind, hnone⟩
        · exact Or.inl hold
        · have hkept := kept_of_get? hs (.single hstep) he₁ he'
          obtain ⟨e₂, he₂, hupholds⟩ := upholds_of_step hs hK hstep he₁
          obtain rfl : e₂ = e' := Option.some.inj (he₂.symm.trans he')
          refine Or.inr ⟨(Element.kind_eq_of_nature_eq hkept.nature_eq).trans hkind,
            ?_⟩
          exact List.eq_nil_of_subset_nil fun d hd =>
            hnone ▸ hupholds.ownTargets_subset d hd
      · have hsettled := hK k hk
        cases k with
        | construct =>
            obtain ⟨-, hkind, htargets⟩ := hmade
            refine Or.inr ⟨hkind, List.eq_nil_of_subset_nil fun d hd => ?_⟩
            exact htargets ▸ Element.mem_targets_of_mem_ownTargets hd
        | make => exact absurd hsettled (by decide)
        | copy => exact absurd hsettled (by decide)
        | _ => exact hmade.elim

/-! ## Places -/

/-- Without moves everything keeps its holder. -/
theorem parent?_of_steps (h : Stable t) (hK : ¬ K .move) (hsteps : Steps K n t t')
    {x : ElementId} (hx : x.index < n) : t'.parent? x = t.parent? x := by
  induction hsteps with
  | refl => rfl
  | tail hsteps hstep ih =>
      exact (parent?_of_step (h.steps hsteps).1 hstep hx
        fun hk => absurd hk hK).trans ih

/-- Without moves, all that was there keeps the holders above it. -/
theorem sameHolders_of_steps (h : Stable t) (hK : ¬ K .move)
    (hsteps : Steps K t.size t t') {x : ElementId} (hx : x.index < t.size) :
    SameHolders t t' x := by
  intro a ha
  have hlt := h.toWellLinked.index_lt_of_within hx ha
  obtain ⟨e, he⟩ := Option.isSome_iff_exists.mp ((get?_isSome_iff t a).mpr hlt)
  have hkind := kind?_eq_some_iff.mpr ⟨e, he, rfl⟩
  exact ⟨parent?_of_steps h hK hsteps hlt,
    ((h.steps hsteps).2.kind?_eq hkind).trans hkind.symm⟩

/-- A part of something below the root is below the root. -/
theorem PartOf.ancestor_root {c x : ElementId} (hc : Ancestor t t.root c)
    (hx : PartOf t c x) : Ancestor t t.root x := by
  cases hx with
  | header => exact hc
  | member hp => exact hc.trans (.parent hp)
  | parameter hp _ hm => exact (hc.trans (.parent hm)).trans (.parent hp)

/-- The parts of a class that were there were parts of it. -/
theorem PartOf.of_steps (h : Stable t) (hK : ¬ K .move)
    (hsteps : Steps K t.size t t') {c x : ElementId} (hx : x.index < t.size)
    (hpart : PartOf t' c x) : PartOf t c x := by
  have hsame : ∀ {y : ElementId}, y.index < t.size → t'.parent? y = t.parent? y
      ∧ t'.kind? y = t.kind? y :=
    fun hy => sameHolders_of_steps h hK hsteps hy _ (Or.inl rfl)
  cases hpart with
  | header => exact .header
  | member hp hne =>
      rw [(hsame hx).1] at hp
      rw [(hsame hx).2] at hne
      exact .member hp hne
  | @parameter m x hp hmethod hm =>
      rw [(hsame hx).1] at hp
      have hlt : m.index < t.size :=
        h.toWellLinked.index_lt_of_ancestor (.parent hp)
      rw [(hsame hlt).2] at hmethod
      rw [(hsame hlt).1] at hm
      exact .parameter hp hmethod hm

/-- A class that is attached after such steps was there before. -/
theorem class_of_steps (h : Stable t) (hK : ∀ k, K k → k.Settled)
    (hsteps : Steps K t.size t t') {c : ElementId} (hc : Attached t' c)
    (hkind : t'.kind? c = some .classDecl) :
    Attached t c ∧ t.kind? c = some .classDecl := by
  have hmove : ¬ K .move := fun hk => absurd (hK _ hk) (by decide)
  obtain ⟨e', he', hkind'⟩ := kind?_eq_some_iff.mp hkind
  rcases old_or_unreferring_of_steps h hK hsteps he' with ⟨e, he⟩ | ⟨hmethod, -⟩
  · have hlt := index_lt_of_get? he
    refine ⟨(attached_of_steps h hsteps hc).resolve_right (Nat.not_le.mpr hlt), ?_⟩
    rw [← (sameHolders_of_steps h hmove hsteps hlt c (Or.inl rfl)).2, hkind]
  · rw [hmethod] at hkind'
    cases hkind'

/-! ## Complete classes -/

/-- The import of a tree is that of its element. -/
theorem importsNamed_iff {x d : ElementId} {e : Element} (he : t.get? x = some e) :
    t.ImportsNamed x d ↔ e.ImportsAs d (t.importName d) := by
  rw [ImportsNamed, imports, he]
  rfl

/-- A class is complete when it has come to import, where it must, what it
    referred to before. -/
theorem complete_of_steps (h : Stable t) (hK : ∀ k, K k → k.Settled)
    (hsteps : Steps K t.size t t') {c : ElementId} (hc : Ancestor t t.root c)
    {ownNamespaceToo : Bool} (himports : ∀ x e, PartOf t c x → t.get? x = some e →
      ∀ d ∈ e.ownTargets, ¬ Within t c d → (ownNamespaceToo = false →
      t.containingNamespace? d ≠ t.containingNamespace? c) → t'.ImportsNamed c d) :
    Complete t' ownNamespaceToo c := by
  have hwl := h.toWellLinked
  have hwl' := (h.steps hsteps).1.toWellLinked
  have hmove : ¬ K .move := fun hk => absurd (hK _ hk) (by decide)
  intro x e' hpart' he' d hd' hout hnamespace
  rcases old_or_unreferring_of_steps h hK hsteps he' with ⟨e, he⟩ | ⟨-, hnone⟩
  · obtain ⟨e₁, he₁, hupholds⟩ := upholds_of_steps h hK hsteps he
    obtain rfl : e₁ = e' := Option.some.inj (he₁.symm.trans he')
    have hpart := hpart'.of_steps h hmove hsteps (index_lt_of_get? he)
    have hd := hupholds.ownTargets_subset d hd'
    -- What is referred to was there, so it lies where it lay.
    have hlt : d.index < t.size := hwl.index_lt_of_attached
      ((h.fit x (hpart.ancestor_root hc) e he).2 d
        (Element.mem_targets_of_mem_ownTargets hd)).1
    have hsame := sameHolders_of_steps h hmove hsteps hlt
    have hsame' :=
      sameHolders_of_steps h hmove hsteps (hwl.index_lt_of_attached (Or.inr hc))
    refine himports x e hpart he d hd (fun hin => hout (hsame.within hin))
      fun hown => ?_
    rw [← containingNamespace?_eq_of_sameHolders hwl hwl' hsame,
      ← containingNamespace?_eq_of_sameHolders hwl hwl' hsame']
    exact hnamespace hown
  · rw [hnone] at hd'
    exact absurd hd' List.not_mem_nil

/-- Steps that make no class refer to anything new leave complete classes
    complete. -/
theorem Complete.steps (h : Stable t) (hK : ∀ k, K k → k.Settled)
    (hsteps : Steps K t.size t t') {c : ElementId} (hc : Ancestor t t.root c)
    {ownNamespaceToo : Bool} (hcomplete : Complete t ownNamespaceToo c) :
    Complete t' ownNamespaceToo c := by
  refine complete_of_steps h hK hsteps hc
    fun x e hpart he d hd hout hnamespace => ?_
  obtain ⟨ec, hec⟩ := Option.isSome_iff_exists.mp
    ((get?_isSome_iff t c).mpr (h.toWellLinked.index_lt_of_attached (Or.inr hc)))
  obtain ⟨ec', hec', hupholds⟩ := upholds_of_steps h hK hsteps hec
  obtain ⟨hattached, hdecl⟩ :=
    (h.fit x (hpart.ancestor_root hc) e he).2 d
      (Element.mem_targets_of_mem_ownTargets hd)
  have hbefore := hcomplete x e hpart he d hd hout hnamespace
  exact (importsNamed_iff hec').mpr
    (hupholds.imports d hattached hdecl ((importsNamed_iff hec).mp hbefore))

/-! ## The pass that adds the imports -/

/-- Every use of a class is a type of the class itself or of one of its
    parts. -/
theorem Uses.exists_partOf (hwl : WellLinked t) {c : ElementId} {r : TypeRef}
    (h : Uses t c r) :
    ∃ x e, PartOf t c x ∧ t.get? x = some e ∧ r ∈ e.ownTypes := by
  have hheader : ∀ {decl : ClassDecl}, t.class? c = some decl →
      r ∈ decl.inherits.toList ++ decl.implements →
      ∃ x e, PartOf t c x ∧ t.get? x = some e ∧ r ∈ e.ownTypes := by
    intro decl hc hr
    obtain ⟨e, he, hclass⟩ := Option.bind_eq_some_iff.mp hc
    refine ⟨c, e, .header, he, ?_⟩
    rw [Element.ownTypes, Element.class?_eq_some_iff.mp hclass]
    exact hr
  have hmember : ∀ {x : ElementId} {e : Element}, t.get? x = some e →
      e.indexType? = some r ∨ e.valueType? = some r → e.kind ≠ .classDecl
        ∧ r ∈ e.ownTypes := by
    intro x e he hr
    have hne : e.kind ≠ .classDecl := by
      rcases hr with hr | hr
      · rw [Element.exists_indexType?_iff.mp ⟨r, hr⟩]
        decide
      · exact Element.kind_ne_classDecl_of_valueType? hr
    exact ⟨hne, (Element.mem_ownTypes_iff hne).mpr hr⟩
  have hkind : ∀ {x : ElementId} {e : Element}, t.get? x = some e →
      e.kind ≠ .classDecl → t.kind? x ≠ some .classDecl := by
    intro x e he hne hk
    exact hne (Option.some.inj ((kind?_eq_some_iff.mpr ⟨e, he, rfl⟩).symm.trans hk))
  cases h with
  | inherits hc hr =>
      refine hheader hc (List.mem_append_left _ ?_)
      rw [hr]
      exact List.mem_singleton_self r
  | implements hc hr => exact hheader hc (List.mem_append_right _ hr)
  | @value x _ hx hr =>
      obtain ⟨e, he, hr⟩ := Option.bind_eq_some_iff.mp hr
      obtain ⟨hne, hr⟩ := hmember he (Or.inr hr)
      exact ⟨x, e,
        .member ((hwl.mem_children_iff c x).mp hx) (hkind he hne), he, hr⟩
  | @index x _ hx hr =>
      obtain ⟨e, he, hr⟩ := Option.bind_eq_some_iff.mp hr
      obtain ⟨hne, hr⟩ := hmember he (Or.inl hr)
      exact ⟨x, e,
        .member ((hwl.mem_children_iff c x).mp hx) (hkind he hne), he, hr⟩
  | @parameter m x _ hm hmethod hx hr =>
      obtain ⟨e, he, hr⟩ := Option.bind_eq_some_iff.mp hr
      have hp := (hwl.mem_children_iff m x).mp hx
      exact ⟨x, e, .parameter hp hmethod ((hwl.mem_children_iff c m).mp hm), he,
        (hmember he (Or.inr hr)).2⟩

/-- What the parts of a class refer to is found when its imports are collected. -/
theorem mem_referencedDeclarations (hwl : WellLinked t) {c x d : ElementId}
    {e : Element} (hclass : (t.class? c).isSome) (hpart : PartOf t c x)
    (he : t.get? x = some e) (hd : d ∈ e.ownTargets) :
    d ∈ t.referencedDeclarations c := by
  obtain ⟨r, hr, hd⟩ := List.mem_flatMap.mp hd
  obtain ⟨s, hs, hdef⟩ := List.mem_filterMap.mp hd
  rw [referencedDeclarations, List.mem_eraseDups]
  refine List.mem_filterMap.mpr ⟨s, List.mem_flatMap.mpr ⟨r, ?_, hs⟩, hdef⟩
  have hchild : ∀ {p y}, t.parent? y = some p → y ∈ t.children p := fun {p y} hp =>
    (hwl.mem_children_iff p y).mpr hp
  cases hpart with
  | header =>
      refine List.mem_append_left _ ?_
      obtain ⟨decl, hdecl⟩ := Option.isSome_iff_exists.mp hclass
      rw [headerTypes, hdecl]
      obtain ⟨e₁, he₁, hcontent⟩ := Option.bind_eq_some_iff.mp hdecl
      obtain rfl : e₁ = e := Option.some.inj (he₁.symm.trans he)
      rw [Element.ownTypes, Element.class?_eq_some_iff.mp hcontent] at hr
      exact hr
  | member hp hne =>
      refine List.mem_append_right _ (List.mem_flatMap.mpr ⟨x, hchild hp, ?_⟩)
      rw [memberTypes, he]
      dsimp only
      rw [Element.ownTypes, Element.indexType?, Element.valueType?] at hr
      rw [Element.valueType?]
      cases hcontent : e.content <;> rw [hcontent] at hr
      case classDecl =>
        refine absurd (kind?_eq_some_iff.mpr ⟨e, he, ?_⟩) hne
        rw [Element.kind, hcontent]
        rfl
      case method m =>
        rw [List.mem_singleton.mp hr]
        exact List.mem_cons_self
      all_goals exact hr
  | @parameter m x hp hmethod hm =>
      refine List.mem_append_right _ (List.mem_flatMap.mpr ⟨m, hchild hm, ?_⟩)
      obtain ⟨em, hem, hkind⟩ := kind?_eq_some_iff.mp hmethod
      have hmay := hwl.mayHold_of_mem m x _ _ (hchild hp) hmethod
        (kind?_eq_some_iff.mpr ⟨e, he, rfl⟩)
      have hparameter : e.kind = .parameter := beq_iff_eq.mp hmay
      have hvalue : t.valueType? x = some r := by
        rw [valueType?, he, Option.bind_some]
        refine ((Element.mem_ownTypes_iff (by rw [hparameter]; decide)).mp
          hr).resolve_left fun hindex => ?_
        have hindexer := Element.exists_indexType?_iff.mp ⟨r, hindex⟩
        rw [hparameter] at hindexer
        cases hindexer
      have hmem : x ∈ em.children := by
        have hmem := hchild hp
        rw [children, hem] at hmem
        exact hmem
      rw [memberTypes, hem]
      dsimp only
      unfold Element.kind at hkind
      cases hcontent : em.content <;> rw [hcontent] at hkind
      case method =>
        exact List.mem_cons_of_mem _ (List.mem_filterMap.mpr ⟨x, hmem, hvalue⟩)
      all_goals cases hkind

/-- After its visit a class is complete. -/
theorem complete_of_importOwn {ownNamespaceToo : Bool} (h : Stable t)
    {c : ElementId} (ha : Attached t c) (hclass : (t.class? c).isSome) {u : Unit}
    (hrun : (Edit.importOwn ownNamespaceToo c).run t = .ok u t') :
    Complete t' ownNamespaceToo c := by
  have hwl := h.toWellLinked
  have hc : Ancestor t t.root c := ha.resolve_left (hwl.ne_root_of_class hclass)
  have hsteps : Steps StepKind.Settled t.size t t' :=
    steps_importOwn (by decide) (by decide) h ha hrun
  refine complete_of_steps h (fun _ hk => hk) hsteps hc
    fun x e hpart he d hd hout hnamespace => ?_
  obtain ⟨hattached, -⟩ :=
    (h.fit x (hpart.ancestor_root hc) e he).2 d
      (Element.mem_targets_of_mem_ownTargets hd)
  obtain ⟨ed, hed⟩ := Option.isSome_iff_exists.mp
    ((get?_isSome_iff t d).mpr (hwl.index_lt_of_attached hattached))
  have himport : t.importOf? ownNamespaceToo c d =
      some (.ofSymbol (t.importName d) (.declared ed.name d)) := by
    rw [importOf?, if_neg (by rw [hwl.isWithin_iff]; exact hout), if_neg]
    · rw [name?, hed]
      rfl
    · rintro ⟨hown, hsame⟩
      exact hnamespace (by simpa using hown) hsame
  have hnew : Import.ofSymbol (t.importName d) (.declared ed.name d) ∈
      (t.referencedDeclarations c).filterMap (t.importOf? ownNamespaceToo c) :=
    List.mem_filterMap.mpr ⟨d,
      mem_referencedDeclarations hwl hclass hpart he hd, himport⟩
  rcases run_importOwn_eq_ok hrun with ⟨rfl, hnone⟩ | ⟨-, k, hadd⟩
  · rw [hnone hclass] at hnew
    exact absurd hnew List.not_mem_nil
  · obtain ⟨ec, hec, hblock, rfl⟩ := Edit.run_addImports_eq_ok hadd
    have hframes := sameFrames_modify t c
      (Element.frame_mapImports fun _ => Import.addImports ec.imports
      ((t.referencedDeclarations c).filterMap (t.importOf? ownNamespaceToo c)))
    obtain ⟨j, hj, hkey⟩ : ∃ j ∈ Import.addImports ec.imports
      ((t.referencedDeclarations c).filterMap (t.importOf? ownNamespaceToo c)),
      j.key = _ := Import.exists_mem_addImports_of_mem hnew
    obtain ⟨htarget, hname⟩ := Import.target?_eq_of_key_eq hkey
    refine ⟨j, ?_, htarget, ?_⟩
    · rw [imports, (changedBy_modify t c _).get?_eq, hec, Option.map_some,
        Option.map_some, Option.getD_some, if_pos rfl, Element.imports_mapImports,
        if_pos hblock]
      exact hj
    · rw [importName_eq_of_sameAbove hwl (hframes.wellLinked hwl) hframes.root_eq
        (hframes.sameAbove d)]
      exact hname

/-- After the pass that adds imports every class is complete. -/
theorem complete_of_importReferenced {ownNamespaceToo : Bool} (h : Stable t)
    {u : Unit} (hrun : (Edit.importReferenced ownNamespaceToo).run t = .ok u t')
    {c : ElementId} (hc : Attached t' c) (hkind : t'.kind? c = some .classDecl) :
    Complete t' ownNamespaceToo c := by
  have hvisited : ∀ x ∈ t.descendants t.root, t'.kind? x = some .classDecl →
      Complete t' ownNamespaceToo x := by
    rw [Edit.importReferenced_eq, Edit.crawl] at hrun
    refine settled_of_crawlWith (J := fun _ _ => True) (K := StepKind.Settled)
      (P := fun x s => s.kind? x = some .classDecl → Complete s ownNamespaceToo x)
        ?_ ?_ h trivial hrun
    · intro _ s id _ s' hs hid _ hvisit
      have hsteps := steps_importOwn (K := StepKind.Settled) (n := s.size)
        (by decide) (by decide) hs hid hvisit
      refine ⟨hsteps, trivial, fun hkind => ?_⟩
      obtain ⟨-, hclass⟩ := class_of_steps hs
        (fun _ hk => hk) hsteps ((hs.steps hsteps).2.attached hid) hkind
      exact complete_of_importOwn hs hid (isSome_class?_iff.mpr hclass) hvisit
    · intro s s' x hs hx hsteps hcomplete hkind
      obtain ⟨-, hclass⟩ := class_of_steps hs
        (fun _ hk => hk) hsteps ((hs.steps hsteps).2.attached hx) hkind
      have hne := hs.toWellLinked.ne_root_of_class (isSome_class?_iff.mpr hclass)
      exact (hcomplete hclass).steps hs
        (fun _ hk => hk) hsteps (hx.resolve_left hne)
  have hsteps := steps_importReferenced (K := StepKind.Settled) (by decide)
    (by decide) h (Nat.le_refl _) hrun
  obtain ⟨hattached, hclass⟩ := class_of_steps h (fun _ hk => hk) hsteps hc hkind
  have hne := h.toWellLinked.ne_root_of_class (isSome_class?_iff.mpr hclass)
  exact hvisited c
    (h.toWellLinked.mem_descendants_iff.mpr (hattached.resolve_left hne)) hkind

end Tree

namespace Configuration

variable {c : Configuration} {t t' : Tree} {u : Unit}

/-- After the pass that adds imports, for every target, no pass makes a class
    refer to anything new. -/
theorem passes_eq_append_importReferenced (c : Configuration) :
    ∃ before after, c.passes
      = before ++ .importReferenced (c.language = .typescript) :: after
      ∧ ∀ pass ∈ after, ∀ k ∈ pass.stepKinds, k.Settled := by
  have hsuffix : ∀ pass ∈ c.asyncSuffix, ∀ k ∈ pass.stepKinds, k.Settled := by
    rw [asyncSuffix]
    split <;> simp [Pass.stepKinds, StepKind.Settled]
  have hof : ∀ {b : Bool} (before : List Pass) {rest : List Pass},
      c.passes = before ++ .importReferenced b :: (c.asyncSuffix ++ rest) →
      (∀ pass ∈ rest, ∀ k ∈ pass.stepKinds, k.Settled) →
      ∃ before after, c.passes = before ++ .importReferenced b :: after
        ∧ ∀ pass ∈ after, ∀ k ∈ pass.stepKinds, k.Settled :=
          fun before rest hsplit hrest =>
    ⟨before, c.asyncSuffix ++ rest, hsplit,
      List.forall_mem_append.mpr ⟨hsuffix, hrest⟩⟩
  cases hl : c.language with
  | csharp =>
      apply hof ([.seedImports csharpImports, .moveIntoNamesakes,
        .wrapUnions .innerClasses] ++ c.flattening ++ [.nestQueryClasses])
      · simp only [passes, hl, csharpPasses, List.append_assoc, List.cons_append,
          List.nil_append]
        rfl
      · simp [Pass.stepKinds, StepKind.Settled]
  | java =>
      apply hof ([.seedImports javaImports, .wrapUnions .innerClasses]
        ++ c.flattening ++ [.nestQueryClasses])
      · simp only [passes, hl, javaPasses, List.append_assoc, List.cons_append,
          List.nil_append]
        rfl
      · simp [Pass.stepKinds, StepKind.Settled]
  | typescript =>
      apply hof ([.seedImports typescriptImports, .wrapUnions .siblingClasses] ++
        c.flattening ++ [.escapeReservedNames c.reservedNames (.suffix "_escaped")])
      · simp only [passes, hl, typescriptPasses, List.append_assoc,
          List.cons_append, List.nil_append]
        rfl
      · simp [Pass.stepKinds, StepKind.Settled]
  | go =>
      apply hof
        ([.seedImports goImports, .wrapUnions .siblingClasses] ++ c.flattening)
      · simp only [passes, hl, goPasses, List.append_assoc, List.cons_append,
          List.nil_append]
        rfl
      · simp [Pass.stepKinds, StepKind.Settled]

/-- The classes of a refined tree are complete. -/
theorem complete_of_refine (hwf : WellFormed t) (hrun : (refine c).run t = .ok u t')
    {x : ElementId} (hx : Attached t' x) (hkind : t'.kind? x = some .classDecl) :
    Complete t' (c.language = .typescript) x := by
  obtain ⟨before, after, hsplit, hsettled⟩ := c.passes_eq_append_importReferenced
  obtain ⟨s, m, hs, himport, hm, hafter⟩ := exists_run_of_refine hwf hrun hsplit
  have hsteps : Steps StepKind.Settled m.size m t' :=
    Pipeline.steps_of_forM hsettled hm hafter (Nat.le_refl _)
  obtain ⟨hattached, hclass⟩ := class_of_steps hm (fun _ hk => hk) hsteps hx hkind
  have hne := hm.toWellLinked.ne_root_of_class (isSome_class?_iff.mpr hclass)
  exact (complete_of_importReferenced hs himport hattached hclass).steps hm
    (fun _ hk => hk) hsteps
    (hattached.resolve_left hne)

/-- Imports of a refined tree are complete: whatever an attached class refers
    to, at any depth, by what it inherits from or implements, by the types of
    its members or of the parameters of its methods, it imports under the name
    that imports of it carry. Only the class itself and what lies below it are
    not imported, and, but for TypeScript, what shares its namespace. -/
theorem importsComplete_of_refine (hwf : WellFormed t)
    (hrun : (refine c).run t = .ok u t') {x d : ElementId} (hx : Attached t' x)
    (hkind : t'.kind? x = some .classDecl) {r : TypeRef} (huses : Uses t' x r)
    (hd : d ∈ r.definitions) (hout : ¬ Within t' x d)
    (hnamespace : c.language ≠ .typescript →
      t'.containingNamespace? d ≠ t'.containingNamespace? x) :
    ∃ i ∈ t'.imports x, i.target? = some d ∧ i.name = t'.importName d := by
  obtain ⟨h, hsteps⟩ := Pipeline.steps_of_run hwf (run_of_refine hrun)
  have hwl := (h.steps hsteps).1.toWellLinked
  obtain ⟨y, e, hpart, he, hr⟩ := huses.exists_partOf hwl
  refine complete_of_refine hwf hrun hx hkind y e hpart he d
    (List.mem_flatMap.mpr ⟨r, hr, hd⟩) hout ?_
  intro hown
  exact hnamespace (of_decide_eq_false hown)

/-- A tree of two namespaces, one of a reserved name, with a class in each; a
    method of the one takes the other, or a text. -/
def orderClient : Tree :=
  Operation.runAll
    [.addNamespace ⟨0⟩ "shop.type",
      .addNew .classes ⟨2⟩ (.classDecl "Order" .model),
      .addNamespace ⟨0⟩ "web",
      .addNew .classes ⟨4⟩ (.classDecl "Client" .requestBuilder),
      .addNew .methods ⟨5⟩ (.method "send" .requestExecutor (.external "void")),
      .addNew .parameters ⟨6⟩
        (.parameter "body" .requestBody
          (.union "Body" [.declared "Order" ⟨3⟩, .external "string"]))]
    initial

theorem wellFormed_orderClient : WellFormed orderClient :=
  (Operation.fullyNamed_runAll _ fullyNamed_initial).wellFormed

/-- The wrapper that is made for the body of the request imports the other
    class, by the name that its namespace has got since. -/
theorem importsComplete_of_refine_orderClient :
    ∃ t', (refine { language := .go }).run orderClient = .ok () t'
      ∧ t'.name? ⟨8⟩ = some "Body"
      ∧ ∃ i ∈ t'.imports ⟨8⟩, i.target? = some ⟨3⟩
      ∧ i.name = "shop.typeEscaped" := by
  obtain ⟨t', hrun, hname, hattached, hkind, hchild, htype, hout, hnamespace,
    himport⟩ :
      ∃ t', (refine { language := .go }).run orderClient = .ok () t'
        ∧ t'.name? ⟨8⟩ = some "Body"
        ∧ t'.isAttached ⟨8⟩ = true ∧ t'.kind? ⟨8⟩ = some .classDecl
        ∧ ⟨9⟩ ∈ t'.children ⟨8⟩
        ∧ t'.valueType? ⟨9⟩ = some (.nullable (.declared "Order" ⟨3⟩))
        ∧ t'.isWithin ⟨8⟩ ⟨3⟩ = false
        ∧ t'.containingNamespace? ⟨3⟩ ≠ t'.containingNamespace? ⟨8⟩
        ∧ t'.importName ⟨3⟩ = "shop.typeEscaped" :=
    Pipeline.exists_eq_ok (by decide +kernel)
  obtain ⟨h, hsteps⟩ :=
    Pipeline.steps_of_run wellFormed_orderClient (run_of_refine hrun)
  have hwl := (h.steps hsteps).1.toWellLinked
  have hnot : ¬ Within t' ⟨8⟩ ⟨3⟩ := by
    rw [← hwl.isWithin_iff, hout]
    exact Bool.false_ne_true
  obtain ⟨i, hi, htarget, hi'⟩ :=
    importsComplete_of_refine wellFormed_orderClient hrun
    (hwl.isAttached_iff.mp hattached) hkind (.value hchild htype)
      (List.mem_singleton_self _) hnot
    (fun _ => hnamespace)
  exact ⟨t', hrun, hname, i, hi, htarget, hi'.trans himport⟩

end Configuration

end CodeModel
