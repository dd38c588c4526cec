import CodeModel.Proofs.ImportCompleteness
import CodeModel.Proofs.Keywords

/-!
# Imports of what lies within

A class needs no import of itself or of what lies below it. No pass brings such
an import in: what a class comes to import lies outside it. But what lies
outside may come to lie inside: a class of query parameters moves into the
request builder that takes it, and with all that it holds it then lies below the
builder and below every class around the builder. The builder gives up
its import of the class; the other imports stay.

* **`Rehoused`**: all that a step does to holders and to imports of
  declarations.
* **`brings_of_steps`**, **`brings_or_parent?_of_steps`**: where imports come
  from, and where they go.
* **`within_of_steps`**: what has come to lie below a class, builders have taken
  in.

Main statements: `selfImportFree_of_refine`, for the targets for which nothing
moves, `selfImportFree_iff_of_refine`, which says for every target what imports
of what builders have taken in may have been there, and
`exists_selfImport_of_refine`, two that may not.
-/

namespace CodeModel

open CodeModel.Tree

namespace Tree

/-- Element `x` imports the declaration `d`. -/
def Brings (t : Tree) (x d : ElementId) : Prop :=
  ∃ i ∈ t.imports x, i.target? = some d

/-- No attached class imports itself or what lies below it. -/
def SelfImportFree (t : Tree) : Prop :=
  ∀ x d, Attached t x → t.kind? x = some .classDecl → t.Brings x d → ¬ Within t x d

/-- A class of query parameters that sat directly in a namespace of `t` sits
    directly in a request builder of `t'`. -/
structure TakenIn (t t' : Tree) (builder query : ElementId) : Prop where
  isBuilder : t'.isClassOf builder [.requestBuilder] = true
  isQuery : t'.isClassOf query [.queryParameters] = true
  free : (t.parent? query).any t.isNamespace = true
  held : t'.parent? query = some builder

variable {t t' : Tree} {n : Nat} {K : StepKind → Prop} {x d : ElementId}

/-! ## What one step does -/

/-- What the tree says of an element is what the element says. -/
theorem brings_iff {e : Element} (he : t.get? x = some e) : t.Brings x d ↔
    e.Brings d := by
  rw [Brings, imports, he]
  rfl

theorem exists_of_brings (h : t.Brings x d) :
    ∃ e, t.get? x = some e ∧ e.Brings d := by
  obtain ⟨i, hi, htarget⟩ := h
  rw [imports] at hi
  cases he : t.get? x with
  | none =>
      rw [he] at hi
      exact absurd hi List.not_mem_nil
  | some e =>
      rw [he] at hi
      exact ⟨e, rfl, i, hi, htarget⟩

/-- Changing imports without changing what they are bound to changes nothing
    here. -/
theorem brings_of_imports_eq_map {e e' : Element} {g : Import → Import}
    (h : e'.imports = e.imports.map g) (hg : ∀ i, (g i).target? = i.target?) :
    e'.Brings d ↔ e.Brings d := by
  rw [Element.Brings, Element.Brings, h]
  constructor
  · rintro ⟨i, hi, htarget⟩
    obtain ⟨j, hj, rfl⟩ := List.mem_map.mp hi
    exact ⟨j, hj, (hg j).symm.trans htarget⟩
  · rintro ⟨i, hi, htarget⟩
    exact ⟨g i, List.mem_map_of_mem hi, (hg i).trans htarget⟩

theorem brings_of_imports_eq {e e' : Element} (h : e'.imports = e.imports) :
    e'.Brings d ↔ e.Brings d :=
  brings_of_imports_eq_map (h.trans (List.map_id' _).symm) fun _ => rfl

/-- A change of elements leaves who imports what, if it does so for the one
    element. -/
theorem ChangedBy.brings_iff {F : ElementId → Element → Element}
    (hF : ChangedBy F t t')
    (h : ∀ e, t.get? x = some e → ((F x e).Brings d ↔ e.Brings d)) :
    t'.Brings x d ↔ t.Brings x d := by
  cases he : t.get? x with
  | none =>
      have he' : t'.get? x = none := by rw [hF.get?_eq, he, Option.map_none]
      rw [Brings, Brings, imports, imports, he, he']
  | some e =>
      have he' : t'.get? x = some (F x e) := by rw [hF.get?_eq, he, Option.map_some]
      rw [Tree.brings_iff he, Tree.brings_iff he']
      exact h e he

/-- Joining a slot brings nothing in. -/
theorem brings_attach_iff (holder : ElementId) (ids : List ElementId) :
    (t.attach holder ids).Brings x d ↔ t.Brings x d :=
  (changedBy_attach t holder ids).brings_iff fun _ _ => brings_of_imports_eq rfl

theorem brings_detach_iff {holder child : ElementId}
    (hc : child ∈ t.children holder) :
    (t.detach holder child).2.Brings x d ↔ t.Brings x d :=
  (changedBy_detach hc).brings_iff fun _ _ => brings_of_imports_eq rfl

theorem brings_rebindImports_iff (scope : ElementId) :
    (t.rebindImports scope).Brings x d ↔ t.Brings x d := by
  refine (changedBy_rebindImports t scope).brings_iff fun e _ => ?_
  exact brings_of_imports_eq_map (imports_mapImports_map _ e)
    (target?_refreshImport scope)

theorem brings_rename_iff (hwl : WellLinked t) (id : ElementId) (name : String) :
    (t.rename id name).Brings x d ↔ t.Brings x d := by
  refine (changedBy_rename hwl id name).brings_iff fun e _ => ?_
  exact brings_of_imports_eq_map (imports_renamedElement id name x e)
    (t.target?_renamedImport id name)

/-- A change of one element matters as far as its own imports do. -/
theorem brings_modify_iff {id : ElementId} {f : Element → Element}
    (hf : ∀ e, t.get? id = some e → ((f e).Brings d ↔ e.Brings d)) :
    (t.modify id f).Brings x d ↔ t.Brings x d := by
  refine (changedBy_modify t id f).brings_iff fun e he => ?_
  by_cases hx : x = id
  · rw [if_pos hx]
    exact hf e (hx ▸ he)
  · rw [if_neg hx]

/-- What a step does to the holders of elements and to who imports what. Either
    what was there keeps its holder, and imports what it imported and perhaps
    what lies outside it; or a class moves out of a namespace, and everything
    imports what it imported, unless the class has moved into a class, which
    does not import it any longer. -/
inductive Rehoused (K : StepKind → Prop) (n : Nat) (t t' : Tree) : Prop where
  | kept (hparent : ∀ x, x.index < n → t'.parent? x = t.parent? x)
      (hkeeps : ∀ x d, t.Brings x d → t'.Brings x d)
      (hlinks : ∀ x d, t'.Brings x d → t.Brings x d ∨ K .link ∧ ¬ Within t x d)
  | moved {holder child holder' : ElementId} (hk : K .move)
      (hfrom : t.isNamespace holder = true) (hheld : t.parent? child = some holder)
      (hparent : ∀ x, t'.parent? x = if x = child then some holder'
        else t.parent? x)
      (hplace : t.isNamespace holder' = true ∨ t.isClassOf holder'
        [.requestBuilder] = true ∧ t.isClassOf child [.queryParameters] = true)
      (himports : ∀ x d, t'.Brings x d ↔
        t.Brings x d ∧ (t.kind? x = some .classDecl → x = holder' → d ≠ child))

/-- A move brings nothing in. It takes out the import of what has moved, where a
    builder took it in. -/
theorem brings_move_iff {f : Element → Element} {holder child holder' : ElementId}
    (hc : child ∈ t.children holder) (htakes : TakesIn t f holder' child) :
    ((((t.detach holder child).2.attach holder' [child]).modify holder'
      f).rebindImports child).Brings x d ↔
      t.Brings x d ∧ (t.kind? x = some .classDecl → x = holder' → d ≠ child) := by
  have hlinks : Relinked t ((t.detach holder child).2.attach holder' [child]) :=
    (relinked_detach hc).trans (relinked_attach _ _ _)
  have hold : ((t.detach holder child).2.attach holder' [child]).Brings x d ↔
      t.Brings x d :=
    (brings_attach_iff holder' [child]).trans (brings_detach_iff hc)
  rw [brings_rebindImports_iff, ← hold]
  by_cases hx : x = holder'
  · subst hx
    cases htakes with
    | namespaceDecl hkind hf =>
        rw [brings_modify_iff fun e _ => brings_of_imports_eq (hf e)]
        refine (and_iff_left fun hclass => ?_).symm
        rw [hkind] at hclass
        cases hclass
    | builder hbuilder hquery hf =>
        have hclass := isSome_class?_iff.mp (isSome_class?_of_isClassOf hbuilder)
        obtain ⟨e, he, hkind⟩ :=
          kind?_eq_some_iff.mp ((hlinks.kind?_eq x).trans hclass)
        have he' : (((t.detach holder child).2.attach x [child]).modify x f).get? x
            = some (f e) := by
          rw [(changedBy_modify _ x f).get?_eq, he, Option.map_some, if_pos rfl]
        rw [brings_iff he', brings_iff he, Element.Brings, Element.Brings,
          hf e hkind]
        constructor
        · rintro ⟨i, hi, htarget⟩
          obtain ⟨hi, hne⟩ := List.mem_filter.mp hi
          refine ⟨⟨i, hi, htarget⟩, fun _ _ heq => of_decide_eq_true hne ?_⟩
          rw [htarget, heq]
        · rintro ⟨⟨i, hi, htarget⟩, hne⟩
          refine ⟨i, List.mem_filter.mpr ⟨hi, decide_eq_true ?_⟩, htarget⟩
          rw [htarget]
          exact fun heq => hne hclass rfl (Option.some.inj heq)
  · rw [(changedBy_modify _ holder' f).brings_iff fun e _ => by rw [if_neg hx]]
    exact (and_iff_left fun _ heq => absurd heq hx).symm

/-- Every step does that. -/
theorem rehoused_of_step (h : Stable t) (hstep : Step K n t t') :
    Rehoused K n t t' := by
  have hwl := h.toWellLinked
  have hkept : (∀ x, x.index < n → t'.parent? x = t.parent? x) →
      (∀ x d, t'.Brings x d ↔ t.Brings x d) → Rehoused K n t t' :=
        fun hparent hiff =>
    .kept hparent (fun x d => (hiff x d).mpr) fun x d hb =>
      Or.inl ((hiff x d).mp hb)
  cases hstep with
  | @amend id f hf hk hmended hlinks =>
      have hchange := changedBy_modify t id f
      refine .kept (fun x _ => (h.amend hf).2.samePlaces.parent?_eq x)
        (fun x d hb => ?_) fun x d hb => ?_
      · obtain ⟨e, he, i, hi, htarget⟩ := exists_of_brings hb
        have he' : (t.modify id f).get? x = some (if x = id then f e else e) := by
          rw [hchange.get?_eq, he, Option.map_some]
        refine (brings_iff he').mpr ?_
        by_cases hx : x = id
        · rw [if_pos hx]
          obtain ⟨j, hj, hkey⟩ := (hmended e (hx ▸ he)).keys_subset i hi
          exact ⟨j, hj, (Import.target?_eq_of_key_eq hkey).1.trans htarget⟩
        · rw [if_neg hx]
          exact ⟨i, hi, htarget⟩
      · obtain ⟨e', he', hb⟩ := exists_of_brings hb
        obtain ⟨e, he, rfl⟩ := hchange.exists_of_get? he'
        rw [brings_iff he]
        by_cases hx : x = id
        · rw [if_pos hx] at hb
          rw [hx]
          exact hlinks e (hx ▸ he) d hb
        · rw [if_neg hx] at hb
          exact Or.inl hb
  | @retype id r hf =>
      refine hkept (fun x _ => (h.amend hf).2.samePlaces.parent?_eq x) fun x d => ?_
      exact brings_modify_iff fun e _ =>
        brings_of_imports_eq (Element.imports_mapValueType _ e)
  | @rename id name f hname hroot hf hk hnotes =>
      refine hkept (fun x _ => ?_) fun x d => ?_
      · rw [(sameFrames_modify _ id fun e => (hf e).frame_eq).samePlaces.parent?_eq,
          (samePlaces_rename t id name).parent?_eq]
      · rw [← brings_rename_iff hwl id name]
        refine brings_modify_iff fun e₁ he₁ => ?_
        obtain ⟨e, he, -⟩ := (changedBy_rename hwl id name).exists_of_get? he₁
        exact brings_of_imports_eq ((hnotes e he).imports_eq e₁)
  | @create e k hparent hchildren htoken himports =>
      refine hkept (fun x _ => parent?_push hparent x) fun x d => ?_
      by_cases hx : x = t.nextId
      · rw [Brings, Brings, imports, imports, hx, get?_push_nextId, get?_nextId,
          Option.map_some, himports]
        rfl
      · rw [Brings, Brings, imports, imports, get?_push, if_neg hx]
  | @attach slot holder ids hi hids hk hnew =>
      have hstep : Step (· = .attach) n t (t.attach holder ids) :=
        .attach hi hids rfl hnew
      exact hkept (fun x hx =>
          parent?_of_step h hstep hx fun hmove => by cases hmove) fun x d =>
        brings_attach_iff holder ids
  | @move holder child holder' slot f hc ha ha' hi hf hk hslot hwire hfrom htakes =>
      have hframes := (sameFrames_modify
        ((t.detach holder child).2.attach holder' [child]) holder'
        fun e => (hf e).frame_eq).trans (sameFrames_rebindImports _ child)
      refine .moved hk hfrom ((hwl.mem_children_iff holder child).mp hc)
          (fun x => ?_) ?_ fun x d =>
        brings_move_iff hc htakes
      · rw [hframes.samePlaces.parent?_eq, hi.parent?_attach, parent?_detach hc]
        simp only [List.mem_singleton]
        split <;> rfl
      · cases htakes with
        | namespaceDecl hkind => exact Or.inl (decide_eq_true hkind)
        | builder hbuilder hquery => exact Or.inr ⟨hbuilder, hquery⟩
  | @reinsert holder child name f hc hkind ha hname hf hi hk hnotes =>
      have hstep : Step (· = .reinsert) n t _ :=
        .reinsert hc hkind ha hname hf hi rfl hnotes
      refine hkept (fun x hx =>
        parent?_of_step h hstep hx fun hmove => by cases hmove) fun x d => ?_
      have hwl' := (sameFrames_modify (t.detach holder child).2 child
        fun e => (hf e).frame_eq).wellLinked
        (hwl.detach hc)
      obtain ⟨e, he, -⟩ := kind?_eq_some_iff.mp hkind
      rw [brings_attach_iff, brings_rename_iff hwl', ← brings_detach_iff hc]
      exact brings_modify_iff fun e₁ _ =>
        brings_of_imports_eq ((hnotes e he).imports_eq e₁)

/-! ## Imports along a refinement -/

/-- What is imported below the root is an attached declaration. -/
theorem Stable.declares_of_brings (h : Stable t) (hx : Ancestor t t.root x)
    (hb : t.Brings x d) : Attached t d ∧ t.isDeclaration d = true := by
  obtain ⟨e, he, i, hi, htarget⟩ := exists_of_brings hb
  exact (h.fit x hx e he).2 d (Element.mem_targets_of_target? hi htarget)

/-- What is brought in below the root has been built. -/
theorem Stable.index_lt_of_brings (h : Stable t) (hx : Ancestor t t.root x)
    (hb : t.Brings x d) : d.index < t.size :=
  h.toWellLinked.index_lt_of_attached (h.declares_of_brings hx hb).1

/-- Without steps in which elements come to import declarations, what is
    imported was. -/
theorem brings_of_steps (h : Stable t) (hK : ¬ K .link) (hsteps : Steps K n t t')
    (hb : t'.Brings x d) : t.Brings x d := by
  induction hsteps with
  | refl => exact hb
  | tail hsteps hstep ih =>
      refine ih ?_
      cases rehoused_of_step (h.steps hsteps).1 hstep with
      | kept _ _ hlinks =>
          exact (hlinks x d hb).resolve_right fun hlink => hK hlink.1
      | moved _ _ _ _ _ himports => exact ((himports x d).mp hb).1

/-- Without moves, what was there lies where it lay. -/
theorem within_iff_of_steps (h : Stable t) (hK : ¬ K .move)
    (hsteps : Steps K t.size t t') (hd : d.index < t.size) :
    Within t' x d ↔ Within t x d := by
  have hwl := h.toWellLinked
  have hwl' := (h.steps hsteps).1.toWellLinked
  have hsame :=
    ancestors_eq_of_sameHolders hwl hwl' (sameHolders_of_steps h hK hsteps hd)
  rw [Within, Within, ← hwl.mem_ancestors_iff, ← hwl'.mem_ancestors_iff, hsame]

/-- Without moves, what is imported was, or lies outside. -/
theorem brings_or_outside_of_steps (h : Stable t) (hK : ¬ K .move)
    (hsteps : Steps K t.size t t') (hd : d.index < t.size) (hb : t'.Brings x d) :
    t.Brings x d ∨ ¬ Within t x d := by
  induction hsteps with
  | refl => exact Or.inl hb
  | tail hsteps hstep ih =>
      cases rehoused_of_step (h.steps hsteps).1 hstep with
      | kept _ _ hlinks =>
          rcases hlinks x d hb with hold | ⟨-, hout⟩
          · exact ih hold
          · rw [within_iff_of_steps h hK hsteps hd] at hout
            exact Or.inr hout
      | moved hk => exact absurd hk hK

/-- No class comes to import what it holds. -/
theorem parent?_ne_of_steps (h : Stable t)
    (hsteps : Steps K n t t') (hx : t.kind? x = some .classDecl) (hd : d.index < n)
    (hfree : t.Brings x d → t.parent? d ≠ some x) (hb : t'.Brings x d) :
    t'.parent? d ≠ some x := by
  induction hsteps with
  | refl => exact hfree hb
  | tail hsteps hstep ih =>
      obtain ⟨hs, hc⟩ := h.steps hsteps
      cases rehoused_of_step hs hstep with
      | kept hparent _ hlinks =>
          rw [hparent d hd]
          rcases hlinks x d hb with hold | ⟨-, hout⟩
          · exact ih hold
          · intro hp
            exact hout (Or.inr (.parent hp))
      | @moved holder child holder' _ _ _ hparent _ himports =>
          obtain ⟨hold, hne⟩ := (himports x d).mp hb
          rw [hparent]
          split
          next hchild =>
            intro hp
            exact hne (hc.kind?_eq hx) (Option.some.inj hp).symm hchild
          · exact ih hold

/-- What a class imports it still imports, or has come to hold. -/
theorem brings_or_parent?_of_steps (h : Stable t) (hsteps : Steps K n t t')
    (hx : t.kind? x = some .classDecl) (hd : d.index < n) (hb : t.Brings x d) :
    t'.Brings x d ∨ t'.parent? d = some x := by
  induction hsteps with
  | refl => exact Or.inl hb
  | tail hsteps hstep ih =>
      obtain ⟨hs, hc⟩ := h.steps hsteps
      cases rehoused_of_step hs hstep with
      | kept hparent hkeeps _ =>
          rw [hparent d hd]
          exact ih.imp_left (hkeeps x d)
      | @moved holder child holder' _ hfrom hheld hparent _ himports =>
          rw [hparent, himports]
          rcases ih with hold | hp
          · by_cases htaken : x = holder' ∧ d = child
            · rw [if_pos htaken.2, htaken.1]
              exact Or.inr rfl
            · exact Or.inl ⟨hold, fun _ hholder hchild => htaken ⟨hholder, hchild⟩⟩
          · -- What a class holds does not move.
            refine Or.inr ?_
            rw [if_neg, hp]
            rintro rfl
            obtain rfl := Option.some.inj (hheld.symm.trans hp)
            rw [isNamespace, hc.kind?_eq hx] at hfrom
            exact absurd hfrom (by decide)

/-! ## What comes to lie below a class -/

/-- No namespace lies below a class. -/
theorem WellLinked.not_isNamespace_of_ancestor (hwl : WellLinked t)
    (hx : t.kind? x = some .classDecl) (hbelow : Ancestor t x d) :
    t.isNamespace d = false := by
  have hheld : ∀ {p c : ElementId}, t.isNamespace p = false → t.parent? c = some p →
      t.isNamespace c = false := by
    intro p c hp hc
    rw [isNamespace, decide_eq_false_iff_not] at hp ⊢
    exact fun hkind => hp (hwl.kind?_of_holds_namespace hc hkind)
  have hclass : t.isNamespace x = false := by
    rw [isNamespace, hx]
    rfl
  induction hbelow with
  | parent hp => exact hheld hclass hp
  | above hp _ ih => exact hheld ih hp

/-- Namespaces stay namespaces. -/
theorem Carries.isNamespace (hc : Carries t t') {p : ElementId}
    (hp : t.isNamespace p = true) : t'.isNamespace p = true :=
  decide_eq_true (hc.kind?_eq (of_decide_eq_true hp))

/-- What has another holder than before was in a namespace and is in one, or is
    a class of query parameters in a request builder. -/
theorem moved_of_steps (h : Stable t) (hsteps : Steps K t.size t t')
    (hd : d.index < t.size) {p : ElementId} (hp : t'.parent? d = some p) :
    t.parent? d = some p ∨ (t.parent? d).any t.isNamespace = true
      ∧ (t'.isNamespace p = true
      ∨ t'.isClassOf p [.requestBuilder] = true
        ∧ t'.isClassOf d [.queryParameters] = true) := by
  induction hsteps generalizing p with
  | refl => exact Or.inl hp
  | @tail s s' hsteps hstep ih =>
      obtain ⟨hs, hc⟩ := h.steps hsteps
      obtain ⟨-, hc'⟩ := hs.step hstep
      have hclass : ∀ {y kinds}, s.isClassOf y kinds = true →
          s'.isClassOf y kinds = true :=
        isClassOf_of_steps hs (.single hstep)
      have hplaced : ∀ {q}, (s.isNamespace q = true
            ∨ s.isClassOf q [.requestBuilder] = true
              ∧ s.isClassOf d [.queryParameters] = true) →
          s'.isNamespace q = true
            ∨ s'.isClassOf q [.requestBuilder] = true
              ∧ s'.isClassOf d [.queryParameters] = true :=
        fun hplace => hplace.imp hc'.isNamespace fun hkinds =>
          ⟨hclass hkinds.1, hclass hkinds.2⟩
      cases rehoused_of_step hs hstep with
      | kept hparent =>
          rw [hparent d hd] at hp
          exact (ih hp).imp_right fun hmoved => ⟨hmoved.1, hplaced hmoved.2⟩
      | @moved holder child holder' _ hfrom hheld hparent hplace =>
          rw [hparent] at hp
          split at hp
          next hchild =>
            subst hchild
            obtain rfl := Option.some.inj hp
            refine Or.inr ⟨?_, hplaced hplace⟩
            -- The holder was a namespace from the start, or the class has moved
            -- before.
            rcases ih hheld with hold | hmoved
            · rw [hold, Option.any_some]
              obtain ⟨k, hk⟩ := h.toWellLinked.exists_kind?_of_parent? hold
              have hnamespace :=
                (hc.kind?_eq hk).symm.trans (of_decide_eq_true hfrom)
              exact decide_eq_true (hk.trans hnamespace)
            · exact hmoved.1
          · exact (ih hp).imp_right fun hmoved => ⟨hmoved.1, hplaced hmoved.2⟩

/-- What lies below a class lay there, or at or below the class lies a builder
    that has taken in what it lies in. -/
theorem within_of_steps (h : Stable t) (hsteps : Steps K t.size t t')
    (hx : t.kind? x = some .classDecl) (hd : d.index < t.size)
    (hin : Within t' x d) :
    Within t x d ∨ ∃ builder query, TakenIn t t' builder query ∧ Within t' x builder
      ∧ Within t' query d := by
  obtain ⟨hs, hc⟩ := h.steps hsteps
  have hclass : t'.isNamespace x = false := by
    rw [isNamespace, hc.kind?_eq hx]
    rfl
  rcases hin with rfl | hin
  · exact Or.inl (Or.inl rfl)
  · induction hin with
    | @parent d hp =>
        rcases moved_of_steps h hsteps hd hp
          with hold | ⟨hfree, hnamespace | ⟨hbuilder, hquery⟩⟩
        · exact Or.inl (Or.inr (.parent hold))
        · rw [hclass] at hnamespace
          cases hnamespace
        · exact Or.inr ⟨x, d, ⟨hbuilder, hquery, hfree, hp⟩, Or.inl rfl, Or.inl rfl⟩
    | @above d p hp hxp ih =>
        rcases moved_of_steps h hsteps hd hp
          with hold | ⟨hfree, hnamespace | ⟨hbuilder, hquery⟩⟩
        · rcases ih (h.toWellLinked.index_lt_of_parent? hold)
            with hbefore | ⟨b, q, htaken, hxb, hqp⟩
          · exact Or.inl (hbefore.of_parent? hold)
          · exact Or.inr ⟨b, q, htaken, hxb, hqp.of_parent? hp⟩
        · rw [hs.toWellLinked.not_isNamespace_of_ancestor (hc.kind?_eq hx) hxp]
            at hnamespace
          cases hnamespace
        · exact Or.inr ⟨p, d, ⟨hbuilder, hquery, hfree, hp⟩, Or.inr hxp, Or.inl rfl⟩

/-- Whether no class imports what lies within it can be looked up. -/
theorem WellLinked.selfImportFree (hwl : WellLinked t) (h : ∀ x < t.size,
      ∀ i ∈ t.imports ⟨x⟩, ∀ d ∈ i.target?, t.isWithin ⟨x⟩ d = false) :
    SelfImportFree t := by
  rintro x d hx - ⟨i, hi, htarget⟩ hin
  have hout := h x.index (hwl.index_lt_of_attached hx) i hi d htarget
  rw [hwl.isWithin_iff.mpr hin] at hout
  cases hout

end Tree

namespace Configuration

variable {c : Configuration} {t t' : Tree} {u : Unit}

/-- For every target there is one pass in which classes come to import
    declarations. -/
theorem filter_passes_link (c : Configuration) :
    c.passes.filter (fun pass => .link ∈ pass.stepKinds)
      = [.importReferenced (c.language = .typescript)] := by
  have hflattening : c.flattening.filter
      (fun pass => .link ∈ pass.stepKinds) = [] := by
    rw [flattening]
    split <;> rfl
  have hsuffix : c.asyncSuffix.filter (fun pass => .link ∈ pass.stepKinds) = [] :=
      by
    rw [asyncSuffix]
    split <;> rfl
  rw [passes]
  cases hl : c.language with
  | csharp =>
      simp only [csharpPasses, List.filter_append, hflattening, hsuffix]
      rfl
  | java =>
      simp only [javaPasses, List.filter_append, hflattening, hsuffix]
      rfl
  | typescript =>
      simp only [typescriptPasses, List.filter_append, hflattening, hsuffix]
      rfl
  | go =>
      simp only [goPasses, List.filter_append, hflattening, hsuffix]
      rfl

/-- Before the pass that adds imports no class comes to import a declaration,
    and from then on nothing moves and no declaration is made. -/
theorem exists_steps_of_refine (hwf : WellFormed t)
    (hrun : (refine c).run t = .ok u t') :
    Stable t ∧ ∃ s, Steps (fun k => k ≠ .link) t.size t s
      ∧ Steps StepKind.Settled s.size s t' := by
  obtain ⟨before, after, hpasses, hsettled⟩ := c.passes_eq_append_importReferenced
  have hlinks := c.filter_passes_link
  rw [hpasses, List.filter_append,
    List.filter_cons_of_pos (by simp [Pass.stepKinds])] at hlinks
  have hbefore : before.filter (fun pass => StepKind.link ∈ pass.stepKinds) = [] :=
      by
    have hlength := congrArg List.length hlinks
    rw [List.length_append, List.length_cons, List.length_singleton] at hlength
    exact List.eq_nil_of_length_eq_zero (by omega)
  obtain ⟨h, s, hfirst, hs, hrest⟩ := exists_runs_of_refine hwf hrun hpasses
  refine ⟨h, s, Pipeline.steps_of_forM
    (fun pass hpass k hk hlink => ?_) h hfirst (Nat.le_refl _),
    Pipeline.steps_of_forM (fun pass hpass k hk => ?_) hs hrest (Nat.le_refl _)⟩
  · exact List.filter_eq_nil_iff.mp hbefore pass hpass (decide_eq_true (hlink ▸ hk))
  · rcases List.mem_cons.mp hpass with rfl | hpass
    · rcases List.mem_cons.mp hk with rfl | hk
      · decide
      · rw [List.mem_singleton.mp hk]
        decide
    · exact hsettled pass hpass k hk

/-- An attached class is below the root. -/
theorem ancestor_root_of_class {x : ElementId} (hwl : WellLinked t)
    (hx : Attached t x) (hkind : t.kind? x = some .classDecl) :
    Ancestor t t.root x :=
  hx.resolve_left (hwl.ne_root_of_class (isSome_class?_iff.mpr hkind))

/-- What a class of a refined tree imports from within itself, it imported
    before. -/
theorem brings_of_refine (hwf : WellFormed t) (hrun : (refine c).run t = .ok u t')
    {x d : ElementId} (hx : Attached t' x) (hkind : t'.kind? x = some .classDecl)
    (hb : t'.Brings x d) (hin : Within t' x d) :
    Attached t x ∧ t.kind? x = some .classDecl ∧ t.Brings x d := by
  obtain ⟨h, s, hfirst, hrest⟩ := exists_steps_of_refine hwf hrun
  obtain ⟨hs, -⟩ := h.steps hfirst
  obtain ⟨hs', -⟩ := hs.steps hrest
  have hmove : ¬ StepKind.Settled .move := by decide
  -- What is imported is a declaration, so it was there when classes came to import
  -- declarations.
  have hd : d.index < s.size := by
    obtain ⟨hattached, hdecl⟩ :=
      hs'.declares_of_brings (ancestor_root_of_class hs'.toWellLinked hx hkind) hb
    obtain ⟨e', he'⟩ := Option.isSome_iff_exists.mp
      ((get?_isSome_iff t' d).mpr (hs'.toWellLinked.index_lt_of_attached hattached))
    rcases old_or_unreferring_of_steps hs (fun _ hk => hk) hrest he'
      with ⟨e, he⟩ | ⟨hmethod, -⟩
    · exact index_lt_of_get? he
    · rw [isDeclaration_iff, kind?_eq_some_iff.mpr ⟨e', he', hmethod⟩] at hdecl
      rcases hdecl with hkind | hkind <;> cases hkind
  have hb₀ : t.Brings x d := by
    refine brings_of_steps (K := fun k => k ≠ .link) h
      (fun hne => hne rfl) hfirst ?_
    refine (brings_or_outside_of_steps hs hmove hrest hd hb).resolve_right
      fun hout => hout ?_
    exact (within_iff_of_steps hs hmove hrest hd).mp hin
  obtain ⟨e, he, -⟩ := exists_of_brings hb₀
  obtain ⟨-, hsteps⟩ := Pipeline.steps_of_run hwf (run_of_refine hrun)
  have hkind₀ := kind?_eq_some_iff.mpr ⟨e, he, rfl⟩
  refine ⟨(attached_of_steps h hsteps hx).resolve_right
    (Nat.not_le.mpr (index_lt_of_get? he)), ?_, hb₀⟩
  rw [hkind₀, ← hkind, (h.steps hsteps).2.kind?_eq hkind₀]

/-- For TypeScript and Go nothing moves, and a refined tree is always without
    imports of what lies within. -/
theorem selfImportFree_of_refine (hl : c.language = .typescript ∨ c.language = .go)
    (hwf : WellFormed t) (hfree : t.SelfImportFree)
    (hrun : (refine c).run t = .ok u t') : t'.SelfImportFree := by
  have hflattening : ∀ pass ∈ c.flattening, StepKind.move ∉ pass.stepKinds := by
    rw [flattening]
    split <;> simp [Pass.stepKinds]
  have hsuffix : ∀ pass ∈ c.asyncSuffix, StepKind.move ∉ pass.stepKinds := by
    rw [asyncSuffix]
    split <;> simp [Pass.stepKinds]
  have hpasses : ∀ pass ∈ c.passes, ∀ k ∈ pass.stepKinds, k ≠ StepKind.move := by
    rintro pass hpass _ hk rfl
    revert hk
    revert pass
    rw [passes]
    rcases hl with hl | hl <;> rw [hl]
    · simpa [typescriptPasses, or_imp, forall_and, Pass.stepKinds]
        using ⟨hflattening, hsuffix⟩
    · simpa [goPasses, or_imp, forall_and, Pass.stepKinds]
        using ⟨hflattening, hsuffix⟩
  obtain ⟨h, -⟩ := Pipeline.steps_of_run hwf (run_of_refine hrun)
  obtain ⟨-, hall⟩ := Pipeline.run_eq_ok_iff.mp (run_of_refine hrun)
  have hsteps := Pipeline.steps_of_forM hpasses h hall (Nat.le_refl _)
  intro x d hx hkind hb hin
  obtain ⟨hx₀, hkind₀, hb₀⟩ := brings_of_refine hwf hrun hx hkind hb hin
  have hd :=
    h.index_lt_of_brings (ancestor_root_of_class h.toWellLinked hx₀ hkind₀) hb₀
  exact hfree x d hx₀ hkind₀ hb₀
    ((within_iff_of_steps h (fun hne => hne rfl) hsteps hd).mp hin)

/-- A refined tree is without imports of what lies within exactly when
    every import of what request builders have taken in, by a class at or around
    the builder, is the builder's own import of the class that it has taken in,
    whatever the configuration. -/
theorem selfImportFree_iff_of_refine (hwf : WellFormed t) (hfree : t.SelfImportFree)
    (hrun : (refine c).run t = .ok u t') :
    t'.SelfImportFree ↔ ∀ x d builder query, Attached t x →
      t.kind? x = some .classDecl → t.Brings x d →
      TakenIn t t' builder query → Within t' x builder → Within t' query d →
        x = builder ∧ d = query := by
  obtain ⟨h, hsteps⟩ := Pipeline.steps_of_run hwf (run_of_refine hrun)
  obtain ⟨h', hc⟩ := h.steps hsteps
  have hwl' := h'.toWellLinked
  have hold : ∀ {x d}, Attached t x → t.kind? x = some .classDecl → t.Brings x d →
      d.index < t.size :=
    fun hx hkind =>
      h.index_lt_of_brings (ancestor_root_of_class h.toWellLinked hx hkind)
  constructor
  · intro hfree' x d b q hx hkind hb htaken hxb hqd
    have hin : Within t' x d :=
      hxb.trans ((Within.of_parent? (Or.inl rfl) htaken.held).trans hqd)
    -- The import is there no longer, so the class holds what it imported.
    rcases brings_or_parent?_of_steps h hsteps hkind (hold hx hkind hb) hb
      with hb' | hp
    · exact absurd hin (hfree' x d (hc.attached hx) (hc.kind?_eq hkind) hb')
    · have hxq : Ancestor t' x q := ancestor_of_within_of_parent? hxb htaken.held
      rcases hqd with rfl | hqd
      · exact ⟨Option.some.inj (hp.symm.trans htaken.held), rfl⟩
      · rcases hqd.within_of_parent? hp with rfl | hqx
        · exact absurd hxq (hwl'.acyclic _)
        · exact absurd (hxq.trans hqx) (hwl'.acyclic x)
  · intro hown x d hx' hkind' hb' hin
    obtain ⟨hx, hkind, hb⟩ := brings_of_refine hwf hrun hx' hkind' hb' hin
    have hout := hfree x d hx hkind hb
    rcases within_of_steps h hsteps hkind (hold hx hkind hb) hin
      with hin₀ | ⟨b, q, htaken, hxb, hqd⟩
    · exact hout hin₀
    · obtain ⟨rfl, rfl⟩ := hown x d b q hx hkind hb htaken hxb hqd
      exact parent?_ne_of_steps h hsteps hkind (hold hx hkind hb)
        (fun _ hp => hout (Or.inr (.parent hp))) hb'
        htaken.held

/-- A request builder that takes a class of query parameters and imports it. -/
def importingBuilder : Tree :=
  Operation.runAll
    [.addNew .classes ⟨0⟩ (.classDecl "Query" .queryParameters),
      .addNew .classes ⟨0⟩ (.classDecl "Client" .requestBuilder),
      .addNew .methods ⟨2⟩ (.method "list" .requestExecutor (.external "string")),
      .addNew .parameters ⟨3⟩
        (.parameter "query" .queryParameter (.declared "Query" ⟨1⟩)),
      .addImports ⟨2⟩ [.ofSymbol "Query" (.declared "Query" ⟨1⟩)]]
    initial

theorem wellFormed_importingBuilder : WellFormed importingBuilder :=
  (Operation.fullyNamed_runAll _ fullyNamed_initial).wellFormed

/-- The builder takes the class in, and gives up its import. -/
theorem selfImportFree_of_refine_importingBuilder :
    ∃ t', (refine { language := .java }).run importingBuilder = .ok () t'
      ∧ importingBuilder.Brings ⟨2⟩ ⟨1⟩
      ∧ t'.parent? ⟨1⟩ = some ⟨2⟩ ∧ t'.SelfImportFree := by
  obtain ⟨t', hrun, hheld, hkind⟩ :
      ∃ t', (refine { language := .java }).run importingBuilder = .ok () t'
        ∧ t'.parent? ⟨1⟩ = some ⟨2⟩
        ∧ ∀ q < t'.size, t'.isClassOf ⟨q⟩ [.queryParameters] = true → q = 1 :=
    exists_refine_eq_ok rfl (by decide +kernel)
  have hfree : importingBuilder.SelfImportFree :=
    wellFormed_importingBuilder.toWellLinked.selfImportFree (by decide +kernel)
  have honly : ∀ x < importingBuilder.size, ∀ i ∈ importingBuilder.imports ⟨x⟩,
      ∀ d ∈ i.target?, x = 2 ∧ d = ⟨1⟩ := by
    decide +kernel
  refine ⟨t', hrun, ⟨_, List.mem_cons_self, rfl⟩, hheld, ?_⟩
  refine (selfImportFree_iff_of_refine wellFormed_importingBuilder hfree hrun).mpr
    ?_
  rintro ⟨x⟩ d b ⟨q⟩ - - ⟨i, hi, htarget⟩ htaken - -
  obtain ⟨e, he, -⟩ := exists_of_brings ⟨i, hi, htarget⟩
  obtain ⟨rfl, rfl⟩ := honly x (index_lt_of_get? he) i hi d htarget
  obtain ⟨e, -, he, -⟩ := isClassOf_iff.mp htaken.isQuery
  obtain rfl := hkind q (index_lt_of_get? he) htaken.isQuery
  exact ⟨Option.some.inj (hheld.symm.trans htaken.held), rfl⟩

/-- Refining a tree for a target leaves an import of what lies within, where
    there was none. -/
def LeavesSelfImport (c : Configuration) (t : Tree) : Prop :=
  WellFormed t ∧ ImportsConsistent t ∧ t.validateReferences = .ok ()
    ∧ t.SelfImportFree
    ∧ ∃ t', (refine c).run t = .ok () t' ∧ ¬ t'.SelfImportFree

/-- An import that was left so can be looked up. -/
theorem leavesSelfImport_of_lookup (x d : ElementId)
    (hwf : WellFormed t) (hconsistent : ∀ x < t.size, t.isAttached ⟨x⟩ = true →
      Consistent t (t.imports ⟨x⟩)) (hbound : t.validateReferences = .ok ())
    (hfree : ∀ x < t.size, ∀ i ∈ t.imports ⟨x⟩, ∀ d ∈ i.target?, t.isWithin ⟨x⟩
      d = false) (hlookup : ∃ t', (refine c).run t = .ok () t'
      ∧ t'.isAttached x = true ∧ t'.kind? x = some .classDecl ∧ (t'.imports x).any
      (fun i => i.target? = some d) = true ∧ t'.isWithin x d = true) :
    LeavesSelfImport c t := by
  have hwl := hwf.toWellLinked
  obtain ⟨t', hrun, hattached, hkind, hany, hin⟩ := hlookup
  obtain ⟨h, hsteps⟩ := Pipeline.steps_of_run hwf (run_of_refine hrun)
  have hwl' := (h.steps hsteps).1.toWellLinked
  refine ⟨hwf, hwl.importsConsistent hconsistent, hbound, hwl.selfImportFree hfree,
    t', hrun, fun hfree' => ?_⟩
  obtain ⟨i, hi, htarget⟩ := List.any_eq_true.mp hany
  exact hfree' x d (hwl'.isAttached_iff.mp hattached) hkind
    ⟨i, hi, of_decide_eq_true htarget⟩
    (hwl'.isWithin_iff.mp hin)

/-- A class that imports a class of query parameters and holds the request
    builder that takes it. -/
def importingHolder : Tree :=
  Operation.runAll
    [.addNew .classes ⟨0⟩ (.classDecl "Outer" .custom),
      .addNew .classes ⟨0⟩ (.classDecl "Query" .queryParameters),
      .addNew .innerClasses ⟨1⟩ (.classDecl "Builder" .requestBuilder),
      .addNew .methods ⟨3⟩ (.method "send" .custom (.external "string")),
      .addNew .parameters ⟨4⟩
        (.parameter "q" .queryParameter (.declared "Query" ⟨2⟩)),
      .addImports ⟨1⟩ [.ofSymbol "Query" (.declared "Query" ⟨2⟩)]]
    initial

/-- A request builder that takes a class of query parameters and imports a class
    that this holds. -/
def importingTaker : Tree :=
  Operation.runAll
    [.addNew .classes ⟨0⟩ (.classDecl "Query" .queryParameters),
      .addNew .innerClasses ⟨1⟩ (.classDecl "Page" .custom),
      .addNew .classes ⟨0⟩ (.classDecl "Builder" .requestBuilder),
      .addNew .methods ⟨3⟩ (.method "send" .custom (.external "string")),
      .addNew .parameters ⟨4⟩
        (.parameter "q" .queryParameter (.declared "Query" ⟨1⟩)),
      .addImports ⟨3⟩ [.ofSymbol "Page" (.declared "Page" ⟨2⟩)]]
    initial

/-- Refining can leave an import of what lies within: that of a class around the
    builder, and that of the builder of something that the class it has taken in
    holds. -/
theorem exists_selfImport_of_refine :
    LeavesSelfImport { language := .java } importingHolder
      ∧ LeavesSelfImport { language := .csharp } importingTaker := by
  have hwf : WellFormed importingHolder ∧ WellFormed importingTaker :=
    ⟨(Operation.fullyNamed_runAll _ fullyNamed_initial).wellFormed,
      (Operation.fullyNamed_runAll _ fullyNamed_initial).wellFormed⟩
  constructor
  · exact leavesSelfImport_of_lookup ⟨1⟩ ⟨2⟩ hwf.1 (by decide +kernel)
      (by decide +kernel) (by decide +kernel)
      (exists_refine_eq_ok rfl (by decide +kernel))
  · exact leavesSelfImport_of_lookup ⟨3⟩ ⟨2⟩ hwf.2 (by decide +kernel)
      (by decide +kernel) (by decide +kernel)
      (exists_refine_eq_ok rfl (by decide +kernel))

end Configuration

end CodeModel
