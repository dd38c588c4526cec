import CodeModel.Proofs.Following
import CodeModel.Proofs.RestingMembers

/-!
# Classes that builders take in

A class of query parameters that a method of a request builder takes moves from
its namespace into the builder. Many builders may want one class, and builders
and classes move while the traversal goes on. The first builder of the traversal
gets the class, for then it is in no namespace any more, and what a builder
wants is not changed by what moves otherwise. So where each class ends up can be
told from the tree as it was (`taker?`).

* **`Housed`**: a tree in which some classes have been taken in, each by one
  builder.
* **`Housed.nestClass`, `Housed.nestClasses`**: one more class, and all that a
  builder takes in at its turn.
* **`housed_of_run`**: the whole traversal.

Main statement: `taken_of_nestQueryClasses`, what moves and where to, and what
becomes of everything else.
-/

namespace CodeModel

open CodeModel.Tree

namespace Element

/-- The element with a holder, if it gets one, without the members that are lost
    and with those that are gained. It does not import what it has gained, and
    its other imports are under the names that are told. -/
def rehouse (holder? : Option ElementId) (lost : ElementId → Bool)
    (gained : List ElementId) (told : ElementId → Option String) (e : Element) :
    Element :=
  { e with
    parent := holder?.or e.parent
    children := (e.children.filter fun c => !lost c) ++ gained }.mapImports
        fun block =>
      (block.filter fun i : Import => !i.target?.any gained.contains).map
        (Import.nameBy told)

/-- Of a class, filtering imports is a change of its block. -/
theorem mapClass_filterImports {e : Element} (h : e.kind = .classDecl)
    (p : Import → Bool) :
    (e.mapClass fun c => { c with imports := c.imports.filter p })
      = e.mapImports (·.filter p) := by
  obtain ⟨name, parent, children, description, content⟩ := e
  cases content with
  | classDecl c => rfl
  | _ => cases h

/-- Where nothing moves, an element stays as it is. -/
theorem rehouse_none (e : Element) :
    e.rehouse none (fun _ => false) [] (fun _ => none) = e := by
  have hkeep : ∀ i : Import, i.target?.any List.nil.contains = false := by
    intro i
    cases i.target? <;> rfl
  rw [rehouse, mapImports_of_map_eq]
  · simp
  · simp [Import.nameBy_none, hkeep]

/-- What is gained is not imported any longer, and the rest follows. -/
theorem imports_rehouse (holder? : Option ElementId) (lost : ElementId → Bool)
    (gained : List ElementId) (told : ElementId → Option String) (e : Element) :
    (e.rehouse holder? lost gained told).imports
      = (e.imports.filter fun i => !i.target?.any gained.contains).map
        (Import.nameBy told) := by
  obtain ⟨name, parent, children, description, content⟩ := e
  cases content <;> rfl

/-- Another holder makes no other kind. -/
theorem kind_rehouse (holder? : Option ElementId) (lost : ElementId → Bool)
    (gained : List ElementId) (told : ElementId → Option String) (e : Element) :
    (e.rehouse holder? lost gained told).kind = e.kind := by
  obtain ⟨name, parent, children, description, content⟩ := e
  cases content <;> rfl

end Element

namespace Edit

/-- What is done to one element when builders take in classes. -/
def takeIn (id : ElementId) : Edit Unit := do
  let t ← get
  if !t.isClassOf id [.requestBuilder] then return
  (t.queryClasses id).forM (nestClass id)

/-- The pass is a crawl with one turn for each element. -/
theorem nestQueryClasses_eq : nestQueryClasses = crawl takeIn := rfl

end Edit

namespace Tree

variable {t s s' : Tree} {taker : ElementId → Option ElementId}
  {gained : ElementId → List ElementId} {b q x holder : ElementId}

/-! ## Classes that have been taken in -/

/-- What is at or above an element with the same holders above it is the same. -/
theorem SameHolders.within_iff {d x : ElementId} (h : SameHolders t s d) :
    Within s x d ↔ Within t x d := by
  refine ⟨fun hx => ?_, h.within⟩
  rcases hx with rfl | hx
  · exact Or.inl rfl
  · induction hx with
    | parent hp => exact Or.inr (.parent ((h _ (Or.inl rfl)).1.symm.trans hp))
    | above hp _ ih =>
        have hp' := (h _ (Or.inl rfl)).1.symm.trans hp
        exact (ih (h.above (Or.inr (.parent hp')))).of_parent? hp'

/-- Tree `s` is `t` with the classes of which `taker` tells in the builders
    told, which have gained them: every element has the holder and the members
    that it gets, and imports what moved under its name in `s`. -/
structure Housed (t : Tree) (taker : ElementId → Option ElementId)
    (gained : ElementId → List ElementId) (s : Tree) : Prop where
  wellLinked : WellLinked s
  changed : ChangedBy (fun x e => e.rehouse (taker x) (fun c => (taker c).isSome)
    (gained x) (t.importNameBelow? (fun a => (taker a).isSome) s)) t s
  mem_gained_iff : ∀ b q, q ∈ gained b ↔ taker q = some b
  classes : ∀ b q, taker q = some b → t.kind? q = some .classDecl
    ∧ t.kind? b = some .classDecl
  attached_iff : ∀ x, Attached s x ↔ Attached t x

/-- With nothing taken nothing has changed. -/
theorem housed_refl (hwl : WellLinked t) :
    Housed t (fun _ => none) (fun _ => []) t where
  wellLinked := hwl
  changed := by
    refine (changedBy_refl t).congr fun x e _ => ?_
    have htold : t.importNameBelow? (fun _ => (none : Option ElementId).isSome) t
        = fun _ => none :=
      importNameBelow?_false t t
    rw [htold]
    exact (Element.rehouse_none e).symm
  mem_gained_iff _ _ := by simp
  classes _ _ h := by cases h
  attached_iff _ := Iff.rfl

namespace Housed

variable (h : Housed t taker gained s)

include h

/-- Everything is of the kind it was. -/
theorem kind?_eq (x : ElementId) : s.kind? x = t.kind? x := by
  rw [kind?, kind?, h.changed.get?_eq, Option.map_map]
  cases t.get? x with
  | none => rfl
  | some e => exact congrArg some (Element.kind_rehouse _ _ _ _ e)

/-- What has been taken is held by its taker, and all else by what held it. -/
theorem parent?_eq (x : ElementId) : s.parent? x = (taker x).or (t.parent? x) := by
  rw [parent?, parent?, h.changed.get?_eq]
  cases he : t.get? x with
  | none =>
      cases htaker : taker x with
      | none => rfl
      | some b =>
          obtain ⟨e, he', -⟩ := kind?_eq_some_iff.mp (h.classes b x htaker).1
          rw [he] at he'
          cases he'
  | some e => rfl

/-- Only classes gain. -/
theorem gained_eq_nil {x : ElementId} (hx : t.kind? x ≠ some .classDecl) :
    gained x = [] := by
  refine List.eq_nil_iff_forall_not_mem.mpr fun q hq => hx ?_
  exact (h.classes x q ((h.mem_gained_iff x q).mp hq)).2

/-- An element holds what it held and has not lost, and then what it gained. -/
theorem children_eq (x : ElementId) :
    s.children x = ((t.children x).filter fun c => !(taker c).isSome) ++ gained x :=
      by
  rw [children, children, h.changed.get?_eq]
  cases he : t.get? x with
  | none =>
      rw [h.gained_eq_nil fun hkind => by
        obtain ⟨e, he', -⟩ := kind?_eq_some_iff.mp hkind; rw [he] at he'; cases he']
      rfl
  | some e => rfl

/-- What an element imports it imported before, perhaps under another name, and
    it is nothing that it has gained. -/
theorem exists_of_mem_imports {x : ElementId} {i : Import} (hi : i ∈ s.imports x) :
    ∃ j : Import, i = j.nameBy (t.importNameBelow? (fun a => (taker a).isSome) s)
      ∧ j.target? = i.target?
      ∧ ∀ q ∈ gained x, j.target? ≠ some q := by
  rw [imports, h.changed.get?_eq] at hi
  cases he : t.get? x with
  | none =>
      rw [he] at hi
      exact absurd hi List.not_mem_nil
  | some e =>
      rw [he, Option.map_some, Option.map_some, Option.getD_some,
        Element.imports_rehouse] at hi
      obtain ⟨j, hj, rfl⟩ := List.mem_map.mp hi
      refine ⟨j, rfl, (Import.target?_nameBy _ j).symm, fun q hq htarget => ?_⟩
      have hkept := (List.mem_filter.mp hj).2
      rw [htarget, Option.any_some, List.contains_iff_mem.mpr hq] at hkept
      cases hkept

/-- Members that are no classes stay where they are. -/
theorem childrenOfKind_eq {kind : NodeKind} (hkind : kind ≠ .classDecl)
    (x : ElementId) :
    s.childrenOfKind x kind = t.childrenOfKind x kind := by
  have hgained : (gained x).filter (fun c => decide (t.kind? c = some kind)) = [] :=
      by
    refine List.filter_eq_nil_iff.mpr fun c hc => ?_
    rw [(h.classes x c ((h.mem_gained_iff x c).mp hc)).1]
    simpa using Ne.symm hkind
  rw [childrenOfKind, childrenOfKind, h.children_eq, funext h.kind?_eq,
    List.filter_append, hgained, List.append_nil, List.filter_filter]
  refine List.filter_congr fun c _ => ?_
  cases htaker : taker c with
  | none => simp
  | some b =>
      rw [(h.classes b c htaker).1]
      simpa using Ne.symm hkind

/-- Above what has nothing at or above it that moved, everything is as it was. -/
theorem sameHolders {d : ElementId}
    (hd : ¬ ∃ a, (taker a).isSome = true ∧ Within t a d) : SameHolders t s d := by
  intro a ha
  refine ⟨?_, h.kind?_eq a⟩
  rw [h.parent?_eq]
  cases htaker : taker a with
  | none => rfl
  | some b => exact absurd ⟨a, by rw [htaker]; rfl, ha⟩ hd

end Housed

/-! ## One more class -/

/-- What an element without the imports of some of what it has gained does
    not import when it gains one more. -/
theorem filter_map_nameBy (block : List Import) (gained : List ElementId)
    (q : ElementId) (told told' : ElementId → Option String) :
    ((((block.filter fun i : Import => !i.target?.any gained.contains).map
      (Import.nameBy told)).filter
        fun i => i.target? ≠ some q).map (Import.nameBy told'))
      = (block.filter fun i : Import => !i.target?.any (gained ++ [q]).contains).map
          (Import.nameBy fun d => (told' d).or (told d)) := by
  rw [List.filter_map, List.filter_filter, Import.map_nameBy_map_nameBy]
  refine congrArg _ (List.filter_congr fun i _ => ?_)
  rw [Function.comp_apply, Import.target?_nameBy]
  cases i.target? with
  | none => rfl
  | some d => by_cases hd : d = q <;> simp [hd]

/-- What sits at or below a class that a builder takes in, and nothing else, is
    imported under another name. -/
theorem importName_eq_of_nestClass (hwl : WellLinked s) (hc : q ∈ s.children holder)
    (hi : Insertable (s.detach holder q).2 .innerClasses b [q])
    (hframes : SameFrames ((s.detach holder q).2.attach b [q]) s') {d : ElementId} :
    (Within s' q d ↔ Within s q d)
      ∧ (¬ Within s' q d → s'.importName d = s.importName d) := by
  have hwithin : Within s' q d ↔ Within s q d := by
    rw [hframes.samePlaces.within_iff, hi.within_attach_iff,
      within_child_detach_iff hwl hc]
    refine or_iff_left ?_
    rintro ⟨c, hcm, -, hb⟩
    rw [List.mem_singleton.mp hcm] at *
    exact hi.not_within q (List.mem_singleton_self q) hb
  refine ⟨hwithin, fun hout => ?_⟩
  rw [hwithin] at hout
  have hlinked := hwl.detach hc
  have hdetach := sameAbove_detach hc hout
  have hattach :
      SameAbove (s.detach holder q).2 ((s.detach holder q).2.attach b [q]) d := by
    refine sameAbove_attach hi fun c hcm => ?_
    rw [List.mem_singleton.mp hcm, within_child_detach_iff hwl hc]
    exact hout
  refine importName_eq_of_sameAbove hwl (hframes.wellLinked (hlinked.attach hi)) ?_
    ((hdetach.trans hattach).trans (hframes.sameAbove d))
  exact hframes.root_eq.trans
    ((relinked_detach hc).trans (relinked_attach _ _ _)).root_eq

/-- What becomes of each element when a builder takes in a class. -/
theorem changedBy_nestClass (hwl : WellLinked s) (hp : s.parent? q = some holder)
    {u : Unit} (hrun : (Edit.nestClass b q).run s = .ok u s') :
    ChangedBy
      (fun x e => (linkUp b [q] x (unlink holder q x e)).mapImports fun block =>
      (if x = b then block.filter (fun i : Import => i.target? ≠ some q)
        else block).map
        (Import.nameBy (s'.importNameBelow? (· == q) s'))) s s' := by
  obtain ⟨hi, hs'⟩ := run_nestClass_eq_ok hwl hp hrun
  have hc := (hwl.mem_children_iff holder q).mpr hp
  refine ((((changedBy_detach hc).trans (changedBy_attach _ b [q])).trans
    (changedBy_modify _ b _)).trans (changedBy_of_rebindImports hs')).congr
    fun x e he => ?_
  by_cases hx : x = b
  · subst hx
    have hkind : (linkUp x [q] x (unlink holder q x e)).kind = .classDecl := by
      have hbuilder := hi.holder_kind
      rw [(relinked_detach hc).kind?_eq, kind?, he] at hbuilder
      exact Option.some.inj hbuilder
    simp only [if_pos]
    rw [Element.mapClass_filterImports hkind, Element.mapImports_mapImports]
  · simp only [if_neg hx]

/-- What is left of the members of an element when one more is lost. -/
theorem erase_filter_append {members l : List ElementId} (hq : taker q = none)
    (hmember : q ∈ members ↔ x = holder) (hnodup : members.Nodup) :
    (if x = holder then ((members.filter fun c => !(taker c).isSome) ++ l).erase q
      else (members.filter fun c => !(taker c).isSome) ++ l)
      = (members.filter fun c =>
        !(if c = q then some b else taker c).isSome) ++ l := by
  by_cases hx : x = holder
  · have hmem : q ∈ members.filter fun c => !(taker c).isSome :=
      List.mem_filter.mpr ⟨hmember.mpr hx, by rw [hq]; rfl⟩
    rw [if_pos hx, List.erase_append_left _ hmem, (hnodup.filter _).erase_eq_filter,
      List.filter_filter]
    congr 1
    refine List.filter_congr fun c _ => ?_
    by_cases hc : c = q <;> simp [hc]
  · rw [if_neg hx]
    congr 1
    refine List.filter_congr fun c hc => ?_
    rw [if_neg fun heq : c = q => hx (hmember.mp (heq ▸ hc))]

/-- An element in a tree where some classes have been taken in, when a builder
    takes in one more. -/
theorem nest_rehouse {told told' : ElementId → Option String} {e : Element}
    (hq : taker q = none) (hmember : q ∈ e.children ↔ x = holder)
    (hnodup : e.children.Nodup) :
    ((linkUp b [q] x (unlink holder q x
      (e.rehouse (taker x) (fun c => (taker c).isSome) (gained x) told))).mapImports
      fun block => (if x = b then block.filter
        (fun i : Import => i.target? ≠ some q) else block).map
        (Import.nameBy told'))
      = e.rehouse (if x = q then some b else taker x)
        (fun c => (if c = q then some b else taker c).isSome)
          (if x = b then gained b ++ [q] else gained x)
            (fun d => (told' d).or (told d)) := by
  have hparent :
      (if x ∈ [q] then some b else if x = q then none else (taker x).or e.parent)
      = (if x = q then some b else taker x).or e.parent := by
    by_cases hx : x = q <;> simp [hx]
  have hchildren := erase_filter_append (b := b) (l := gained x) hq hmember hnodup
  have hrelinked : ∀ f : List Import → List Import, ∀ e' : Element,
      linkUp b [q] x (unlink holder q x (e'.mapImports f))
        = (linkUp b [q] x (unlink holder q x e')).mapImports f :=
    fun _ _ => rfl
  rw [Element.rehouse, Element.rehouse, hrelinked, Element.mapImports_mapImports,
    linkUp, unlink]
  dsimp only
  rw [hparent, hchildren]
  by_cases hx : x = b
  · subst hx
    simp only [↓reduceIte, filter_map_nameBy, List.append_assoc]
  · simp only [if_neg hx, Import.map_nameBy_map_nameBy]

/-- A builder takes in one more class. -/
theorem Housed.nestClass (h : Housed t taker gained s) (hwl : WellLinked t)
    (hq : taker q = none) (hbelow : Ancestor t t.root q)
    (hclass : t.kind? q = some .classDecl) (hb : Attached t b) {u : Unit}
    (hrun : (Edit.nestClass b q).run s = .ok u s') :
    Housed t (fun x => if x = q then some b else taker x)
      (fun x => if x = b then gained b ++ [q] else gained x) s' := by
  obtain ⟨holder, hholder⟩ := hbelow.exists_parent?
  have hp : s.parent? q = some holder := by
    rw [h.parent?_eq, hq, Option.none_or, hholder]
  have hc := (h.wellLinked.mem_children_iff holder q).mpr hp
  obtain ⟨hi, hs'⟩ := run_nestClass_eq_ok h.wellLinked hp hrun
  have hlinks :=
    (relinked_detach hc).trans (relinked_attach (s.detach holder q).2 b [q])
  have hkept : SameFrames ((s.detach holder q).2.attach b [q]) s' := by
    rw [hs']
    exact (sameFrames_modify _ b fun e => (Element.trimmed_filterImports
      (fun i => i.target? ≠ some q) e).frame_eq).trans
      (sameFrames_rebindImports _ q)
  have hbuilder : t.kind? b = some .classDecl := by
    rw [← h.kind?_eq, ← (relinked_detach hc).kind?_eq]
    exact hi.holder_kind
  have hkind : ∀ x, s'.kind? x = t.kind? x := fun x => by
    rw [hkept.samePlaces.kind?_eq, hlinks.kind?_eq, h.kind?_eq]
  have hwl' : WellLinked s' := hkept.wellLinked ((h.wellLinked.detach hc).attach hi)
  -- What is told of the class that moves goes before what was told of those that
  -- have moved.
  have htold :
      t.importNameBelow? (fun a => (if a = q then some b else taker a).isSome) s'
        = fun d =>
          (s'.importNameBelow? (· == q) s' d).or
            (t.importNameBelow? (fun a => (taker a).isSome) s d) := by
    funext d
    obtain ⟨hwithin, hname⟩ :=
      importName_eq_of_nestClass (d := d) h.wellLinked hc hi hkept
    refine importNameBelow?_step hwl hwl' (hkind d) ?_ hname
    by_cases hmoved : ∃ a, (taker a).isSome = true ∧ Within t a d
    · obtain ⟨a, ha, hin⟩ := hmoved
      refine iff_of_true ⟨a, ?_, hin⟩ (Or.inr ⟨a, ha, hin⟩)
      by_cases haq : a = q <;> simp [haq, ha]
    · rw [hwithin, (h.sameHolders hmoved).within_iff]
      constructor
      · rintro ⟨a, ha, hin⟩
        by_cases haq : a = q
        · exact Or.inl (haq ▸ hin)
        · exact Or.inr ⟨a, by simpa [haq] using ha, hin⟩
      · rintro (hin | hold)
        · exact ⟨q, by simp, hin⟩
        · exact absurd hold hmoved
  refine ⟨hwl', ?_, fun x y => ?_, fun x y hxy => ?_, fun x => ?_⟩
  · refine (h.changed.trans (changedBy_nestClass h.wellLinked hp hrun)).congr
      fun x e he => ?_
    rw [htold]
    have hmember : q ∈ e.children ↔ x = holder := by
      have hmem := hwl.mem_children_iff x q
      rw [children, he, Option.map_some, Option.getD_some, hholder] at hmem
      rw [hmem, Option.some.injEq, eq_comm]
    have hnodup : e.children.Nodup := by
      have hnodup := hwl.nodup_children x
      rwa [children, he, Option.map_some, Option.getD_some] at hnodup
    exact nest_rehouse hq hmember hnodup
  · by_cases hy : y = q
    · subst hy
      have hout : ∀ x, y ∉ gained x := fun x hmem => by
        rw [(h.mem_gained_iff x y).mp hmem] at hq
        cases hq
      by_cases hx : x = b
      · simp [hx]
      · simp [hx, hout x, Ne.symm hx]
    · by_cases hx : x = b
      · subst hx
        simp [hy, h.mem_gained_iff]
      · simp [hx, hy, h.mem_gained_iff]
  · by_cases hy : y = q
    · rw [if_pos hy] at hxy
      obtain rfl := Option.some.inj hxy
      exact ⟨hy ▸ hclass, hbuilder⟩
    · rw [if_neg hy] at hxy
      exact h.classes x y hxy
  · have hattached : Attached s holder :=
      (h.attached_iff holder).mpr (hbelow.within_of_parent? hholder)
    rw [hkept.samePlaces.attached_iff, attached_relocate_iff h.wellLinked hc
      hattached ((h.attached_iff b).mpr hb) (SamePlaces.refl _) hi, h.attached_iff]

/-- A builder takes in classes one after another. -/
theorem Housed.nestClasses {ids : List ElementId} (h : Housed t taker gained s)
    (hwl : WellLinked t) (hb : Attached t b) (hnodup : ids.Nodup)
    (hfree : ∀ q ∈ ids, taker q = none) (hids : ∀ q ∈ ids, Nestable t q) {u : Unit}
    (hrun : (ids.forM (Edit.nestClass b)).run s = .ok u s') :
    Housed t (fun x => if x ∈ ids then some b else taker x)
      (fun x => if x = b then gained b ++ ids else gained x) s' := by
  induction ids generalizing taker gained s with
  | nil =>
      obtain ⟨-, rfl⟩ := Edit.run_pure_eq_ok_iff.mp hrun
      have hgained : (fun x => if x = b then gained b ++ [] else gained x)
          = gained := by
        funext x
        by_cases hx : x = b <;> simp [hx]
      have htaker : (fun x => if x ∈ ([] : List ElementId) then some b else taker x)
          = taker := by
        funext x
        rw [if_neg List.not_mem_nil]
      rw [hgained, htaker]
      exact h
  | cons q rest ih =>
      obtain ⟨hnotin, hrest⟩ := List.nodup_cons.mp hnodup
      rw [List.forM_eq_forM, List.forM_cons] at hrun
      obtain ⟨_, m, hfirst, hrun⟩ := Edit.run_bind_eq_ok_iff.mp hrun
      have hq := hids q List.mem_cons_self
      have hclass := isSome_class?_iff.mp (isSome_class?_of_isClassOf hq.query)
      have hone :=
        h.nestClass hwl (hfree q List.mem_cons_self) hq.below hclass hb hfirst
      have hall := ih hone hrest (fun x hx => ?_)
        (fun x hx => hids x (List.mem_cons_of_mem _ hx)) hrun
      · have htaker :
            (fun x =>
              if x ∈ rest then some b else if x = q then some b else taker x)
            = fun x => if x ∈ q :: rest then some b else taker x := by
          funext x
          by_cases hx : x = q <;> by_cases hr : x ∈ rest <;> simp [hx, hr]
        have hgained : (fun x =>
          if x = b then (if b = b then gained b ++ [q] else gained b) ++ rest
              else if x = b then gained b ++ [q] else gained x)
            = fun x => if x = b then gained b ++ q :: rest else gained x := by
          funext x
          by_cases hx : x = b <;> simp [hx]
        rw [htaker, hgained] at hall
        exact hall
      · have hne : x ≠ q := fun heq => hnotin (heq ▸ hx)
        rw [if_neg hne]
        exact hfree x (List.mem_cons_of_mem _ hx)

/-! ## What a builder still wants -/

/-- Repetitions are dropped before or after a filter. -/
theorem eraseDups_filter {α : Type} [DecidableEq α] (p : α → Bool) (l : List α) :
    (l.filter p).eraseDups = l.eraseDups.filter p := by
  match l with
  | [] => rfl
  | a :: rest =>
      have ih := eraseDups_filter p (rest.filter fun c => !c == a)
      rw [List.eraseDups_cons]
      cases hp : p a with
      | true =>
          rw [List.filter_cons_of_pos hp, List.filter_cons_of_pos hp,
            List.eraseDups_cons, ← ih, List.filter_filter, List.filter_filter]
          simp only [Bool.and_comm]
      | false =>
          rw [List.filter_cons_of_neg (by simp [hp]),
            List.filter_cons_of_neg (by simp [hp]), ← ih, List.filter_filter]
          congr 1
          refine List.filter_congr fun c _ => ?_
          by_cases hc : c = a
          · rw [hc, hp]
            rfl
          · simp [hc]
termination_by l.length
decreasing_by exact Nat.lt_succ_of_le (List.length_filter_le _ _)

namespace Housed

variable (h : Housed t taker gained s)

include h

/-- Classes are of the kinds that they were. -/
theorem isClassOf_eq (x : ElementId) (kinds : List ClassKind) :
    s.isClassOf x kinds = t.isClassOf x kinds := by
  refine isClassOf_congr ?_
  rw [class?, class?, h.changed.get?_eq]
  cases t.get? x with
  | none => rfl
  | some e =>
      obtain ⟨name, parent, children, description, content⟩ := e
      cases content <;> rfl

/-- Types stay. -/
theorem valueType?_eq (x : ElementId) : s.valueType? x = t.valueType? x := by
  rw [valueType?, valueType?, h.changed.get?_eq]
  cases t.get? x with
  | none => rfl
  | some e => exact Element.valueType?_mapImports _ _

/-- Methods keep their parameters. -/
theorem parameterOfKind?_eq (m : ElementId) (kind : ParameterKind) :
    s.parameterOfKind? m kind = t.parameterOfKind? m kind := by
  rw [parameterOfKind?, parameterOfKind?, h.childrenOfKind_eq (by decide)]
  congr 1
  funext p
  have hparameter : s.parameter? p = t.parameter? p := by
    rw [parameter?, parameter?, h.changed.get?_eq]
    cases t.get? p with
    | none => rfl
    | some e =>
        obtain ⟨name, parent, children, description, content⟩ := e
        cases content <;> rfl
  rw [hparameter]

/-- A class that has been taken in is in no namespace, and any other is where it
    was. -/
theorem free_eq (q : ElementId) :
    (s.parent? q).any s.isNamespace
      = ((taker q).isNone && (t.parent? q).any t.isNamespace) := by
  have hnamespace : s.isNamespace = t.isNamespace := funext fun x => by
    rw [isNamespace, isNamespace, h.kind?_eq]
  rw [h.parent?_eq, hnamespace]
  cases htaker : taker q with
  | none => simp
  | some b => simp [isNamespace, (h.classes b q htaker).2]

/-- A method still takes what it took, unless a builder has it already. -/
theorem queryClass?_eq (m : ElementId) :
    s.queryClass? m = (t.queryClass? m).filter fun q => (taker q).isNone := by
  refine Option.ext fun q => ?_
  rw [Option.filter_eq_some_iff, queryClass?_eq_some_iff, queryClass?_eq_some_iff,
    h.parameterOfKind?_eq, funext h.valueType?_eq, h.isClassOf_eq, h.free_eq,
    Bool.and_eq_true]
  constructor
  · rintro ⟨r, hr, hdef, hkind, hfree, hplace⟩
    exact ⟨⟨r, hr, hdef, hkind, hplace⟩, hfree⟩
  · rintro ⟨⟨r, hr, hdef, hkind, hplace⟩, hfree⟩
    exact ⟨r, hr, hdef, hkind, hfree, hplace⟩

/-- A builder wants what it wanted, but for what has been taken in. -/
theorem queryClasses_eq (b : ElementId) :
    s.queryClasses b = (t.queryClasses b).filter fun q => (taker q).isNone := by
  rw [queryClasses, queryClasses, h.childrenOfKind_eq (by decide),
    funext h.queryClass?_eq, ← eraseDups_filter, List.filter_filterMap]

end Housed

/-! ## One builder after another -/

/-- Whether a request builder has a method that takes the class `q`, which sits
    directly in a namespace. -/
def takes (t : Tree) (b q : ElementId) : Bool :=
  t.isClassOf b [.requestBuilder] && (t.queryClasses b).contains q

/-- The first of some elements that takes the class `q`. -/
def takerAmong? (t : Tree) (done : List ElementId) (q : ElementId) :
    Option ElementId :=
  done.find? (t.takes · q)

/-- What `b` has taken in when some elements have had their turn. -/
def takenAmong (t : Tree) (done : List ElementId) (b : ElementId) :
    List ElementId :=
  (t.queryClasses b).filter fun q => t.takerAmong? done q = some b

/-- The first request builder of the tree, each before what it holds, that takes
    the class `q`. -/
def taker? (t : Tree) (q : ElementId) : Option ElementId :=
  t.takerAmong? (t.descendants t.root) q

/-- The classes that `b` is the first to take, in the order of its methods. -/
def takenBy (t : Tree) (b : ElementId) : List ElementId :=
  t.takenAmong (t.descendants t.root) b

variable {done rest : List ElementId}

/-- Takers are among those that had their turn. -/
theorem mem_of_takerAmong? (h : t.takerAmong? done q = some b) : b ∈ done :=
  List.mem_of_find?_eq_some h

/-- The first taker counts: one more turn matters only to what nobody has
    taken. -/
theorem takerAmong?_append (done : List ElementId) (b q : ElementId) :
    t.takerAmong? (done ++ [b]) q
      = (t.takerAmong? done q).or (if t.takes b q then some b else none) := by
  rw [takerAmong?, List.find?_append, List.find?_singleton]
  rfl

/-- To take a class is to be a builder with a method that takes it. -/
theorem takes_eq_true_iff :
    t.takes b q = true ↔ t.isClassOf b [.requestBuilder] = true
      ∧ q ∈ t.queryClasses b := by
  rw [takes, Bool.and_eq_true, List.contains_iff_mem]

/-- What is no builder takes nothing in at its turn. -/
theorem takerAmong?_append_of_not
    (hother : t.isClassOf b [.requestBuilder] = false) :
    t.takerAmong? (done ++ [b]) = t.takerAmong? done := by
  funext q
  rw [takerAmong?_append, takes, hother, Bool.false_and]
  exact Option.or_none

/-- A builder takes in at its turn what no builder before it takes. -/
theorem takerAmong?_turn (hbuilder : t.isClassOf b [.requestBuilder] = true) :
    (fun q => if q ∈ (t.queryClasses b).filter fun q =>
      (t.takerAmong? done q).isNone then some b
      else t.takerAmong? done q) = t.takerAmong? (done ++ [b]) := by
  funext q
  rw [takerAmong?_append]
  cases htaken : t.takerAmong? done q with
  | none =>
      by_cases hq : q
        ∈ t.queryClasses b <;> simp [List.mem_filter, htaken, takes, hbuilder, hq]
  | some b' => simp [List.mem_filter, htaken]

/-- One more turn adds to its builder what nobody has taken, in the order of its
    methods. -/
theorem takenAmong_turn (hbuilder : t.isClassOf b [.requestBuilder] = true)
    (hnot : b ∉ done) :
    (fun x => if x = b then t.takenAmong done b ++ (t.queryClasses b).filter
      (fun q => (t.takerAmong? done q).isNone)
      else t.takenAmong done x) = t.takenAmong (done ++ [b]) := by
  funext x
  by_cases hx : x = b
  · subst hx
    have hnone : t.takenAmong done x = [] := by
      refine List.filter_eq_nil_iff.mpr fun q _ htaken => hnot ?_
      exact mem_of_takerAmong? (of_decide_eq_true htaken)
    rw [if_pos rfl, hnone, List.nil_append, takenAmong]
    refine List.filter_congr fun q hq => ?_
    rw [takerAmong?_append, takes_eq_true_iff.mpr ⟨hbuilder, hq⟩]
    cases htaken : t.takerAmong? done q with
    | none => simp
    | some b' =>
        have hne : b' ≠ x := fun heq => hnot (heq ▸ mem_of_takerAmong? htaken)
        simp [hne]
  · rw [if_neg hx, takenAmong, takenAmong]
    refine List.filter_congr fun q _ => ?_
    rw [takerAmong?_append]
    cases t.takerAmong? done q with
    | none => by_cases htakes : t.takes b q = true <;> simp [htakes, Ne.symm hx]
    | some b' => simp

/-- What one element does at its turn. -/
theorem Housed.turn (h : Housed t (t.takerAmong? done) (t.takenAmong done) s)
    (hstable : Stable t) (hitems : t.descendants t.root = done ++ b :: rest)
    {u : Unit} (hrun : (Edit.takeIn b).run s = .ok u s') :
    Housed t (t.takerAmong? (done ++ [b])) (t.takenAmong (done ++ [b])) s' := by
  have hwl := hstable.toWellLinked
  obtain ⟨hnot, hbelow⟩ := hwl.turn_of_descendants_eq hitems
  rw [Edit.takeIn, Edit.run_get_bind, h.isClassOf_eq, h.queryClasses_eq] at hrun
  cases hbuilder : t.isClassOf b [.requestBuilder] with
  | false =>
      rw [hbuilder] at hrun
      obtain ⟨-, rfl⟩ := Edit.run_pure_eq_ok_iff.mp hrun
      have htaken : t.takenAmong (done ++ [b]) = t.takenAmong done := by
        funext x
        rw [takenAmong, takenAmong, takerAmong?_append_of_not hbuilder]
      rw [takerAmong?_append_of_not hbuilder, htaken]
      exact h
  | true =>
      rw [hbuilder] at hrun
      rw [← takerAmong?_turn hbuilder, ← takenAmong_turn hbuilder hnot]
      refine h.nestClasses hwl (Or.inr hbelow) ((nodup_eraseDups _).filter _)
        (fun q hq => ?_) (fun q hq => ?_) hrun
      · exact Option.isNone_iff_eq_none.mp (List.mem_filter.mp hq).2
      · exact nestable_of_mem_queryClasses hstable (Or.inr hbelow)
          (isSome_class?_of_isClassOf hbuilder)
          (List.mem_filter.mp hq).1

/-- Every class that a builder takes ends up in the first that does. -/
theorem housed_of_run (hstable : Stable t) {u : Unit}
    (hrun : Edit.nestQueryClasses.run t = .ok u s) :
    Housed t t.taker? t.takenBy s := by
  have hwl := hstable.toWellLinked
  have hnil : t.takenAmong [] = fun _ => [] := by
    funext x
    exact List.filter_eq_nil_iff.mpr fun q _ htaken => by
      simp [takerAmong?] at htaken
  rw [Edit.nestQueryClasses_eq] at hrun
  refine Edit.crawl_done_induction
    (I := fun done s => Housed t (t.takerAmong? done) (t.takenAmong done) s)
      (fun done s x h hx => ?_)
    (fun done b rest s s' hitems h hvisit => h.turn hstable hitems hvisit) ?_ hrun
  · rw [h.wellLinked.isAttached_iff, h.attached_iff]
    exact Or.inr (hwl.mem_descendants_iff.mp hx)
  · rw [hnil]
    exact housed_refl hwl

/-! ## Where every class ends up -/

/-- A method of the request builder `b` takes the class of query parameters `q`,
    which sits directly in a namespace: its first parameter for such a class is
    of this one. Everything is attached. -/
structure Takes (t : Tree) (b q : ElementId) : Prop where
  builder_attached : Attached t b
  builder : t.isClassOf b [.requestBuilder] = true
  attached : Attached t q
  query : t.isClassOf q [.queryParameters] = true
  free : ∃ ns, t.parent? q = some ns ∧ t.kind? ns = some .namespaceDecl
  taken : ∃ m p r, t.parent? m = some b ∧ t.kind? m = some .method
    ∧ t.parameterOfKind? m .queryParameter = some p ∧ t.valueType? p = some r
    ∧ r.definition? = some q

/-- A builder takes a class exactly when it is attached and the check says so;
    then the class is attached, too. -/
theorem Stable.takes_iff (h : Stable t) :
    Takes t b q ↔ Attached t b ∧ t.takes b q = true := by
  have hwl := h.toWellLinked
  have hfree : (∃ ns, t.parent? q = some ns ∧ t.kind? ns = some .namespaceDecl)
      ↔ (t.parent? q).any t.isNamespace = true := by
    rw [Option.any_eq_true]
    exact exists_congr fun ns => and_congr_right fun _ => by
      rw [isNamespace, decide_eq_true_iff]
  rw [takes_eq_true_iff, mem_queryClasses_iff]
  constructor
  · intro htakes
    obtain ⟨m, p, r, hm, hkind, hp, hr, hdef⟩ := htakes.taken
    refine ⟨htakes.builder_attached, htakes.builder, m, ?_, ?_⟩
    · exact List.mem_filter.mpr ⟨(hwl.mem_children_iff b m).mpr hm,
        decide_eq_true hkind⟩
    · exact queryClass?_eq_some_iff.mpr ⟨r, by rw [hp, Option.bind_some, hr], hdef,
        htakes.query, hfree.mp htakes.free⟩
  · rintro ⟨hb, hbuilder, m, hm, hquery⟩
    have hnestable :=
      nestable_of_mem_queryClasses h hb (isSome_class?_of_isClassOf hbuilder)
      (mem_queryClasses_iff.mpr ⟨m, hm, hquery⟩)
    obtain ⟨hmember, hkind⟩ := List.mem_filter.mp hm
    obtain ⟨r, hr, hdef, hclass, hplace⟩ := queryClass?_eq_some_iff.mp hquery
    obtain ⟨p, hp, hr⟩ := Option.bind_eq_some_iff.mp hr
    exact
      { builder_attached := hb
        builder := hbuilder
        attached := Or.inr hnestable.below
        query := hclass
        free := hfree.mpr hplace
        taken := ⟨m, p, r, (hwl.mem_children_iff b m).mp hmember,
          of_decide_eq_true hkind, hp, hr, hdef⟩ }

/-- A class has a taker exactly when some builder takes it. -/
theorem Stable.taker?_isSome_iff (h : Stable t) :
    (t.taker? q).isSome = true ↔ ∃ b, Takes t b q := by
  have hwl := h.toWellLinked
  rw [taker?, takerAmong?, List.find?_isSome]
  refine exists_congr fun b => ?_
  rw [h.takes_iff, hwl.mem_descendants_iff]
  refine and_congr_left fun htakes => ⟨Or.inr, fun hb => hb.resolve_left ?_⟩
  exact hwl.ne_root_of_class
    (isSome_class?_of_isClassOf (takes_eq_true_iff.mp htakes).1)

/-- Tree `s` is `t` with the classes that request builders take in the first
    builder, by the order of the traversal, that takes them. What is left of the
    members of an element comes first, and then what it has taken in, in the
    order of its methods. A builder does not import what it has taken in, and
    imports of classes and enums at or below what has moved are under the names
    that such imports carry. All else is the same in every element. -/
structure Taken (t s : Tree) : Prop where
  moved_iff : ∀ q, s.parent? q ≠ t.parent? q ↔ ∃ b, Takes t b q
  first : ∀ q, (∃ b, Takes t b q) → ∃ b before after, Takes t b q
    ∧ s.parent? q = some b ∧ t.descendants t.root = before ++ b :: after
    ∧ ∀ x ∈ before, ¬ Takes t x q
  children_eq : ∀ x, s.children x
    = ((t.children x).filter fun c => (t.taker? c).isNone) ++ t.takenBy x
  not_imported : ∀ q b, (∃ b', Takes t b' q) → s.parent? q = some b →
    ∀ i ∈ s.imports b, i.target? ≠ some q
  named : ∀ x, ∀ i ∈ s.imports x, ∀ q d, (∃ b, Takes t b q) → Within s q d →
    i.target? = some d → s.isDeclaration d = true → i.name = s.importName d
  changed : ChangedBy
    (fun x e => e.rehouse (t.taker? x) (fun c => (t.taker? c).isSome) (t.takenBy x)
    (t.importNameBelow? (fun a => (t.taker? a).isSome) s)) t s

/-- Whenever builders have taken in the classes of query parameters that they
    take, each is in the first builder that takes it, imports follow, and
    nothing else has changed. -/
theorem taken_of_nestQueryClasses (hwf : WellFormed t)
    (hbound : t.validateReferences = .ok ()) {u : Unit}
    (hrun : Edit.nestQueryClasses.run t = .ok u s) : Taken t s := by
  have hwl := hwf.toWellLinked
  have hstable : Stable t :=
    stable_iff.mpr ⟨hwf, hwl.validateReferences_iff.mp hbound⟩
  have h := housed_of_run hstable hrun
  refine ⟨fun q => ?_, fun q hq => ?_, fun x => ?_, fun q b hq hp i hi htarget =>
    ?_, fun x i hi q d hq hin hd hdecl => ?_, h.changed⟩
  · rw [← hstable.taker?_isSome_iff, h.parent?_eq]
    cases htaker : t.taker? q with
    | none => simp
    | some b =>
        -- The class was in a namespace, and a builder is none.
        have htakes :=
          hstable.taker?_isSome_iff.mp (Option.isSome_of_eq_some htaker)
        obtain ⟨b', hb'⟩ := htakes
        obtain ⟨ns, hp, hkind⟩ := hb'.free
        refine iff_of_true (fun heq => ?_) rfl
        rw [Option.some_or, hp] at heq
        rw [← Option.some.inj heq, (h.classes b q htaker).2] at hkind
        cases hkind
  · obtain ⟨b, htaker⟩ :=
      Option.isSome_iff_exists.mp (hstable.taker?_isSome_iff.mpr hq)
    obtain ⟨htakes, before, after, hitems, hbefore⟩ :=
      List.find?_eq_some_iff_append.mp htaker
    obtain ⟨-, hbelow⟩ := hwl.turn_of_descendants_eq hitems
    refine ⟨b, before, after, hstable.takes_iff.mpr ⟨Or.inr hbelow, htakes⟩, ?_,
      hitems, fun x hx hxq => ?_⟩
    · rw [h.parent?_eq, htaker, Option.some_or]
    · have hnot := hbefore x hx
      rw [(hstable.takes_iff.mp hxq).2] at hnot
      cases hnot
  · rw [h.children_eq]
    congr 1
    exact List.filter_congr fun c _ => by cases t.taker? c <;> rfl
  · obtain ⟨b', htaker⟩ :=
      Option.isSome_iff_exists.mp (hstable.taker?_isSome_iff.mpr hq)
    rw [h.parent?_eq, htaker, Option.some_or] at hp
    obtain rfl := Option.some.inj hp
    obtain ⟨j, -, hsame, hnot⟩ := h.exists_of_mem_imports hi
    exact hnot q ((h.mem_gained_iff b' q).mpr htaker) (hsame.trans htarget)
  · have hmoved : ∃ a, (t.taker? a).isSome = true ∧ Within t a d := by
      by_contra hnone
      rw [(h.sameHolders hnone).within_iff] at hin
      exact hnone ⟨q, hstable.taker?_isSome_iff.mpr hq, hin⟩
    have htold : t.importNameBelow? (fun a => (t.taker? a).isSome) s d
        = some (s.importName d) := by
      rw [isDeclaration, h.kind?_eq] at hdecl
      rw [importNameBelow?, isDeclaration, hdecl, Bool.true_and,
        if_pos (hwl.isBelowSome_iff.mpr hmoved)]
    obtain ⟨j, rfl, hsame, -⟩ := h.exists_of_mem_imports hi
    rw [Import.nameBy, hsame, hd, Option.bind_some, htold]

/-- A tree of two builders that take one class of query parameters, and import
    it. -/
def filterOfTwo : Tree :=
  Operation.runAll
    [.addNamespace ⟨0⟩ "client",
      .addNamespace ⟨0⟩ "models",
      .addNew .classes ⟨2⟩ (.classDecl "Filter" .queryParameters),
      .addNew .classes ⟨1⟩ (.classDecl "Orders" .requestBuilder),
      .addNew .methods ⟨4⟩ (.method "get" .requestExecutor (.external "string")),
      .addNew .parameters ⟨5⟩
        (.parameter "filter" .queryParameter (.declared "Filter" ⟨3⟩)),
      .addNew .classes ⟨1⟩ (.classDecl "Items" .requestBuilder),
      .addNew .methods ⟨7⟩ (.method "get" .requestExecutor (.external "string")),
      .addNew .parameters ⟨8⟩
        (.parameter "filter" .queryParameter (.declared "Filter" ⟨3⟩)),
      .addImports ⟨4⟩ [.ofSymbol "models" (.declared "Filter" ⟨3⟩)],
      .addImports ⟨7⟩ [.ofSymbol "models" (.declared "Filter" ⟨3⟩)]]
    initial

theorem wellFormed_filterOfTwo : WellFormed filterOfTwo :=
  (Operation.fullyNamed_runAll _ fullyNamed_initial).wellFormed

/-- The builder that comes first gets the class and imports it no more, and the
    other imports it by where it is. -/
theorem taken_of_nestQueryClasses_filterOfTwo :
    ∃ s, Edit.nestQueryClasses.run filterOfTwo = .ok () s ∧ s.parent? ⟨3⟩ = some ⟨4⟩
      ∧ s.children ⟨4⟩ = [⟨5⟩, ⟨3⟩]
      ∧ s.imports ⟨4⟩ = []
      ∧ s.imports ⟨7⟩ = [.ofSymbol "client" (.declared "Filter" ⟨3⟩)]
      ∧ (∃ b, Takes filterOfTwo b ⟨3⟩) ∧ Taken filterOfTwo s := by
  obtain ⟨_, s, hrun, hp, hchildren, hgone, himports⟩ := Edit.exists_eq_ok
    (r := Edit.nestQueryClasses.run filterOfTwo)
    (P := fun _ s => s.parent? ⟨3⟩ = some ⟨4⟩ ∧ s.children ⟨4⟩ = [⟨5⟩, ⟨3⟩]
      ∧ s.imports ⟨4⟩ = []
      ∧ s.imports ⟨7⟩ = [.ofSymbol "client" (.declared "Filter" ⟨3⟩)])
        (by decide +kernel)
  have htaken :=
    taken_of_nestQueryClasses wellFormed_filterOfTwo (by decide +kernel) hrun
  have hmoved : s.parent? ⟨3⟩ ≠ filterOfTwo.parent? ⟨3⟩ := by
    rw [hp]
    decide +kernel
  exact ⟨s, hrun, hp, hchildren, hgone, himports,
    (htaken.moved_iff ⟨3⟩).mp hmoved, htaken⟩

end Tree

end CodeModel
