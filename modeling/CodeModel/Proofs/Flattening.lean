import CodeModel.Proofs.InheritanceChains
import CodeModel.Proofs.Successes

/-!
# Flattening class by class

A class that inherits gets copies of the properties that it inherits, and
inherits from nothing any more. The copies always fit: names that the class has
are left out, and of several properties of one name all but the nearest.

* **`WithCopies`**: what is there after properties were copied, before anybody
  holds the copies.
* **`Inherited`**: what is there after one class was given copies.
-/

namespace CodeModel

open CodeModel.Tree

namespace Element

/-- The element with copies after what it holds; a class inherits from nothing
    any more. -/
def takeOver (copies : List ElementId) (e : Element) : Element :=
  ({ e with children := e.children ++ copies }).mapClass fun c =>
    { c with inherits := none }

/-- A class that takes over copies inherits from nothing. -/
theorem class?_takeOver (copies : List ElementId) (e : Element) :
    (e.takeOver copies).class? = e.class?.map fun c =>
      { c with inherits := none } := by
  obtain ⟨name, parent, children, description, content⟩ := e
  cases content <;> rfl

theorem kind_takeOver (copies : List ElementId) (e : Element) :
    (e.takeOver copies).kind = e.kind := by
  obtain ⟨name, parent, children, description, content⟩ := e
  cases content <;> rfl

end Element

namespace Tree

variable {t t' : Tree}

/-! ## Copies of what a class inherits -/

/-- Elements of different names do not collide. -/
theorem collides_eq_false_of_name?_ne {a b : ElementId}
    (h : t.name? a ≠ t.name? b) : t.collides a b = false := by
  rw [name?, name?] at h
  rw [collides]
  cases hx : t.get? a with
  | none => rfl
  | some x =>
      cases hy : t.get? b with
      | none => rfl
      | some y =>
          rw [hx, hy] at h
          have hne : (x.name == y.name) = false :=
            beq_eq_false_iff_ne.mpr fun heq => h (congrArg some heq)
          dsimp only
          rw [hne, Bool.false_and]

/-- The elements kept have names, none of them taken and no two the same. -/
theorem names_firstOfEachName (t : Tree) (taken : List String)
    (ids : List ElementId) :
    (∀ x ∈ t.firstOfEachName taken ids, ∃ name, t.name? x = some name
      ∧ name ∉ taken)
      ∧ (t.firstOfEachName taken ids).Pairwise fun x y =>
        t.name? x ≠ t.name? y := by
  induction ids generalizing taken with
  | nil => exact ⟨fun x hx => absurd hx List.not_mem_nil, .nil⟩
  | cons id rest ih =>
      rw [firstOfEachName]
      cases hname : t.name? id with
      | none => exact ih taken
      | some name =>
          dsimp only
          split
          · exact ih taken
          next hfree =>
            obtain ⟨hnames, happart⟩ := ih (name :: taken)
            refine ⟨fun x hx => ?_, .cons (fun x hx heq => ?_) happart⟩
            · rcases List.mem_cons.mp hx with rfl | hx
              · exact ⟨name, hname, hfree⟩
              · obtain ⟨other, hother, hnot⟩ := hnames x hx
                exact ⟨other, hother, fun hmem =>
                  hnot (List.mem_cons_of_mem _ hmem)⟩
            · obtain ⟨other, hother, hnot⟩ := hnames x hx
              rw [hname, hother] at heq
              exact hnot (Option.some.inj heq ▸ List.mem_cons_self)

/-- Only properties are inherited. -/
theorem kind?_of_mem_inheritedProperties {id p : ElementId}
    (hp : p ∈ t.inheritedProperties id) : t.kind? p = some .property := by
  obtain ⟨c, -, hp⟩ := List.mem_flatMap.mp (mem_of_mem_firstOfEachName hp)
  exact of_decide_eq_true (List.mem_filter.mp hp).2

/-- Tree `s` is `t` with copies of some of its properties, which nobody holds
    yet. Pair by pair `done` has the sources and the copies; a copy is the image
    of its source, and nothing else is new. -/
structure WithCopies (t : Tree) (done : List (ElementId × ElementId)) (s : Tree) :
    Prop where
  wellLinked : WellLinked s
  root_eq : s.root = t.root
  size_le : t.size ≤ s.size
  get?_old : ∀ x, x.index < t.size → s.get? x = t.get? x
  copy : ∀ q ∈ done, t.size ≤ q.2.index ∧ s.kind? q.2 = some .property
    ∧ s.parent? q.2 = none ∧ s.children q.2 = []
  eq_copy : ∀ x, t.size ≤ x.index → (s.get? x).isSome → ∃ q ∈ done, x = q.2
  image : ∀ q ∈ done, ∃ e, t.get? q.1 = some e
    ∧ s.get? q.2 = some (copiedElement q.1 (redirect q.1 q.2) q.1 e)

/-- A copy has the name of its source. -/
theorem WithCopies.name {done : List (ElementId × ElementId)} {s : Tree}
    (h : WithCopies t done s) : ∀ q ∈ done, s.name? q.2 = t.name? q.1 := by
  intro q hq
  obtain ⟨e, he, hcopy⟩ := h.image q hq
  have hframe := Copied.frame_copiedElement q.1 (redirect q.1 q.2) q.1 e
  rw [name?, name?, hcopy, he]
  exact congrArg (fun frame => some frame.2.1) hframe

/-- Properties are copied one after another, and none of the copies is refused.
    The invariant is `WithCopies`, over the pairs of what has been copied. -/
theorem succeeds_cloneProperties (hwl : WellLinked t) {sources : List ElementId}
    (hsources : ∀ p ∈ sources, t.kind? p = some .property) :
    Edit.Succeeds (sources.mapM Edit.cloneSubtree) t fun copies s =>
      copies.length = sources.length ∧ WithCopies t (sources.zip copies) s := by
  refine Edit.succeeds_mapM (I := WithCopies t) ?_
    { wellLinked := hwl
      root_eq := rfl
      size_le := Nat.le_refl _
      get?_old := fun _ _ => rfl
      copy := fun q hq => absurd hq List.not_mem_nil
      eq_copy := fun x hx hsome =>
        absurd ((get?_isSome_iff t x).mp hsome) (Nat.not_lt.mpr hx)
      image := fun q hq => absurd hq List.not_mem_nil }
  intro done s p hp hI
  obtain ⟨e, he, hkind⟩ := kind?_eq_some_iff.mp (hsources p hp)
  have hes : s.get? p = some e := by rw [hI.get?_old p (index_lt_of_get? he), he]
  have hks : s.kind? p = some .property := kind?_eq_some_iff.mpr ⟨e, hes, hkind⟩
  have hne : p ≠ s.root := by
    rintro rfl
    rw [hI.wellLinked.kind?_root] at hks
    cases hks
  refine Edit.succeeds_cloneSubtree hI.wellLinked hes hne fun s' copy hcopied => ?_
  have hchildren := hI.wellLinked.children_of_property hks
  have hwl' := hI.wellLinked.copied hcopied
  have hkeep : ∀ {x ex}, s.get? x = some ex → s'.get? x = some ex := fun hx => by
    rw [hcopied.get?_old _ (index_lt_of_get? hx), hx]
  have hnew := hcopied.get?_copy p e (Or.inl rfl) hes
  rw [hcopied.copy_source, hcopied.image_eq hI.wellLinked hchildren] at hnew
  refine ⟨hwl', hcopied.root_eq.trans hI.root_eq, ?_, fun x hx => ?_,
    fun q hq => ?_, fun x hx hsome => ?_, fun q hq => ?_⟩
  · exact Nat.le_trans hI.size_le (Nat.le_of_lt (index_lt_of_get? hnew))
  · rw [hcopied.get?_old x (Nat.lt_of_lt_of_le hx hI.size_le), hI.get?_old x hx]
  · rcases List.mem_append.mp hq with hq | hq
    · obtain ⟨hle, hk, hfree, hnil⟩ := hI.copy q hq
      obtain ⟨eq, heq, -⟩ := kind?_eq_some_iff.mp hk
      have hlt := index_lt_of_get? heq
      rw [hcopied.kind?_old hlt, hcopied.parent?_old hlt, hcopied.children_old hlt]
      exact ⟨hle, hk, hfree, hnil⟩
    · rw [List.mem_singleton.mp hq]
      have hk := hcopied.kind?_copy (Or.inl rfl) hes
      have hp := hcopied.parent?_copy (Or.inl rfl) hes
      have hc := hcopied.children_copy (Or.inl rfl) hes
      rw [hcopied.copy_source] at hk hp hc
      rw [hk, hp, hc, if_pos rfl, hchildren, hks]
      exact ⟨hI.size_le, rfl, rfl, rfl⟩
  · rcases Nat.lt_or_ge x.index s.size with hlt | hle
    · obtain ⟨q, hq, heq⟩ := hI.eq_copy x hx ((get?_isSome_iff s x).mpr hlt)
      exact ⟨q, List.mem_append_left _ hq, heq⟩
    · obtain ⟨source, es, hin, -, heq⟩ := hcopied.eq_copy x hle hsome
      refine ⟨(p, s.nextId),
        List.mem_append_right _ (List.mem_singleton_self _), ?_⟩
      rw [heq, eq_of_within_of_children_eq_nil hI.wellLinked hchildren hin,
        hcopied.copy_source]
  · rcases List.mem_append.mp hq with hq | hq
    · obtain ⟨eq, heq, hcopy⟩ := hI.image q hq
      exact ⟨eq, heq, hkeep hcopy⟩
    · rw [List.mem_singleton.mp hq]
      exact ⟨e, he, hnew⟩

/-- Every copy is of something. -/
theorem exists_mem_zip {sources copies : List ElementId}
    (hlength : copies.length = sources.length) {c : ElementId} (hc : c ∈ copies) :
    ∃ p ∈ sources, (p, c) ∈ sources.zip copies := by
  rw [← List.map_snd_zip (Nat.le_of_eq hlength)] at hc
  obtain ⟨q, hq, rfl⟩ := List.mem_map.mp hc
  exact ⟨q.1, (List.of_mem_zip hq).1, hq⟩

section inherited

variable {s : Tree} {id : ElementId} {copies : List ElementId}
variable (hlength : copies.length = (t.inheritedProperties id).length)
variable (h : WithCopies t ((t.inheritedProperties id).zip copies) s)

include hlength h

/-- Copies of what a class inherits bear names that nothing in the class bears,
    and no two the same. -/
theorem WithCopies.apart :
    (∀ c ∈ copies, ∀ x ∈ t.children id, s.name? c ≠ t.name? x)
    ∧ copies.Pairwise fun x y => s.name? x ≠ s.name? y := by
  obtain ⟨hnames, happart⟩ :=
    names_firstOfEachName t ((t.children id).filterMap t.name?)
    ((t.inheritanceChain id none).flatMap fun c => t.childrenOfKind c .property)
  constructor
  · intro c hc x hx heq
    obtain ⟨p, hp, hq⟩ := exists_mem_zip hlength hc
    obtain ⟨name, hpname, hfree⟩ := hnames p hp
    exact hfree (List.mem_filterMap.mpr ⟨x, hx, heq ▸ (h.name _ hq).trans hpname⟩)
  · -- Copies have the names of their sources, and these are all different.
    have hzip : (((t.inheritedProperties id).zip copies).map (·.1)).Pairwise
        fun x y => t.name? x ≠ t.name? y := by
      rw [List.map_fst_zip (Nat.le_of_eq hlength.symm)]
      exact happart
    rw [← List.map_snd_zip (Nat.le_of_eq hlength)]
    refine List.pairwise_map.mpr ((List.pairwise_map.mp hzip).imp_of_mem
      fun {p q} hp hq hne => ?_)
    rw [h.name p hp, h.name q hq]
    exact hne

/-- Copies of what a class inherits are fit to become its properties. -/
theorem WithCopies.insertable (hwl : WellLinked t)
    (hclass : t.kind? id = some .classDecl) :
    Insertable s .properties id copies := by
  have hmem : ∀ c ∈ copies, t.size ≤ c.index ∧ s.kind? c = some .property
      ∧ s.parent? c = none ∧ s.children c = [] := by
    intro c hc
    obtain ⟨p, -, hq⟩ := exists_mem_zip hlength hc
    exact h.copy _ hq
  obtain ⟨hapart, hpairs⟩ := h.apart hlength
  obtain ⟨e, he, hkind⟩ := kind?_eq_some_iff.mp hclass
  have hes : s.get? id = some e := by rw [h.get?_old id (index_lt_of_get? he), he]
  exact
    { holder_kind := kind?_eq_some_iff.mpr ⟨e, hes, hkind⟩
      member_kind := fun c hc => (hmem c hc).2.1
      ne_root := fun c hc => by
        rintro rfl
        have hk := (hmem _ hc).2.1
        rw [h.wellLinked.kind?_root] at hk
        cases hk
      free := fun c hc => (hmem c hc).2.2.1
      not_within := fun c hc hin => by
        obtain ⟨hle, -, -, hnil⟩ := hmem c hc
        rw [eq_of_within_of_children_eq_nil h.wellLinked hnil hin] at he
        exact absurd (index_lt_of_get? he) (Nat.not_lt.mpr hle)
      nodup := hpairs.imp fun hne heq => hne (congrArg s.name? heq)
      one_indexer := fun hslot => Slot.noConfusion hslot
      apart_children := fun c hc x hx => by
        rw [children, hes, ← he] at hx
        refine collides_eq_false_of_name?_ne fun heq => hapart c hc x hx ?_
        rw [← heq, name?, name?, h.get?_old x (hwl.index_lt_of_mem_children hx)]
      apart_members := hpairs.imp collides_eq_false_of_name?_ne }

end inherited

/-! ## One class -/

/-- Tree `s'` is `s` after class `id` was given copies of what it inherits: one
    for everything that it inherits, after what it held, under names that
    nothing in the class bears and no two the same. The class inherits from
    nothing then, and everything else is as it was. -/
structure Inherited (s : Tree) (id : ElementId) (copies : List ElementId)
    (s' : Tree) : Prop where
  wellLinked : WellLinked s'
  root_eq : s'.root = s.root
  size_le : s.size ≤ s'.size
  get?_self : ∀ e, s.get? id = some e → s'.get? id = some (e.takeOver copies)
  get?_other : ∀ x, x.index < s.size → x ≠ id → s'.get? x = s.get? x
  eq_copy : ∀ x, s.size ≤ x.index → (s'.get? x).isSome → x ∈ copies
  length_eq : copies.length = (s.inheritedProperties id).length
  image : ∀ q ∈ (s.inheritedProperties id).zip copies, s.size ≤ q.2.index
    ∧ ∃ e, s.get? q.1 = some e ∧ s'.get? q.2
    = some { copiedElement q.1 (redirect q.1 q.2) q.1 e with parent := some id }
  apart : (∀ c ∈ copies, ∀ x ∈ s.children id, s'.name? c ≠ s.name? x)
    ∧ copies.Pairwise fun x y => s'.name? x ≠ s'.name? y

/-- Copies that are linked to a class, which drops its inheritance, are given to
    it. -/
theorem WithCopies.inherited {s s₁ s₂ : Tree} {id : ElementId}
    {copies : List ElementId} {e : Element} (he : s.get? id = some e)
    (hlength : copies.length = (s.inheritedProperties id).length)
    (h : WithCopies s ((s.inheritedProperties id).zip copies) s₁)
    (hlinked : ChangedBy (linkUp id copies) s₁ s₂) (hwl : WellLinked s₂) :
    Inherited s id copies
      (s₂.modify id (Element.mapClass fun c => { c with inherits := none })) := by
  have hget : ∀ x, x ≠ id →
    (s₂.modify id (Element.mapClass fun c => { c with inherits := none })).get? x =
      (s₁.get? x).map (linkUp id copies x) := by
    intro x hx
    rw [get?_modify, if_neg hx, hlinked.get?_eq]
  have hnew : ∀ c ∈ copies, s.size ≤ c.index := by
    intro c hc
    obtain ⟨p, -, hq⟩ := exists_mem_zip hlength hc
    exact (h.copy _ hq).1
  have hne : ∀ c ∈ copies, c ≠ id := by
    rintro c hc rfl
    exact Nat.not_lt.mpr (hnew c hc) (index_lt_of_get? he)
  have hname : ∀ c ∈ copies,
      (s₂.modify id (Element.mapClass fun c => { c with inherits := none })).name? c
        = s₁.name? c := by
    intro c hc
    rw [name?, hget c (hne c hc), name?]
    cases s₁.get? c <;> rfl
  obtain ⟨hapart, hpairs⟩ := h.apart hlength
  exact
    { wellLinked := (sameFrames_modify s₂ id fun e =>
        (Element.trimmed_dropInheritance e).frame_eq).wellLinked hwl
      root_eq := hlinked.root_eq.trans h.root_eq
      size_le := by
        have hsize : s₂.size = s₁.size :=
          size_eq_of_isSome_get? fun x => by rw [hlinked.get?_eq, Option.isSome_map]
        rw [size_modify, hsize]
        exact h.size_le
      get?_self := fun e' he' => by
        have hold : s₁.get? id = some e' := by
          rw [h.get?_old id (index_lt_of_get? he), he']
        have hself : ¬ id ∈ copies := fun hc => hne id hc rfl
        rw [get?_modify, if_pos rfl, hlinked.get?_eq, hold]
        simp [linkUp, hself, Element.takeOver]
      get?_other := fun x hx hxid => by
        have hxc : ¬ x ∈ copies := fun hc => Nat.not_lt.mpr (hnew x hc) hx
        rw [hget x hxid, h.get?_old x hx]
        cases s.get? x <;> simp [linkUp, hxc, hxid]
      eq_copy := fun x hx hsome => by
        have hxid : x ≠ id := by
          rintro rfl
          exact Nat.not_lt.mpr hx (index_lt_of_get? he)
        rw [hget x hxid, Option.isSome_map] at hsome
        obtain ⟨q, hq, rfl⟩ := h.eq_copy x hx hsome
        exact (List.of_mem_zip hq).2
      length_eq := hlength
      image := fun q hq => by
        have hin := (List.of_mem_zip hq).2
        obtain ⟨e', he', hcopy⟩ := h.image q hq
        refine ⟨hnew _ hin, e', he', ?_⟩
        rw [hget _ (hne _ hin), hcopy]
        simp [linkUp, hin, hne _ hin]
      apart := by
        refine ⟨fun c hc => hname c hc ▸ hapart c hc,
          hpairs.imp_of_mem fun {c d} hc hd hcd => ?_⟩
        rw [hname c hc, hname d hd]
        exact hcd }

/-- Copies of what a class inherits can be given to it. -/
theorem WithCopies.succeeds_inherit {s s₁ : Tree}
    {id : ElementId} {copies : List ElementId} (hwl : WellLinked s)
    (hclass : s.kind? id = some .classDecl)
    (hlength : copies.length = (s.inheritedProperties id).length)
    (h : WithCopies s ((s.inheritedProperties id).zip copies) s₁) :
    Edit.Succeeds (Edit.inherit id copies) s₁ fun _ s' =>
      Inherited s id copies s' := by
  have hfit := h.insertable hlength hwl hclass
  obtain ⟨e, he, -⟩ := kind?_eq_some_iff.mp hclass
  have hdrop : ∀ s₂, ChangedBy (linkUp id copies) s₁ s₂ → WellLinked s₂ →
      Edit.Succeeds (Edit.modifyElement id
        (Element.mapClass fun c => { c with inherits := none })) s₂
        fun _ s' => Inherited s id copies s' :=
    fun s₂ hlinked hwl₂ =>
      Edit.succeeds_modifyElement (h.inherited he hlength hlinked hwl₂)
  rw [Edit.inherit]
  cases copies with
  | nil =>
      refine hdrop s₁ ((changedBy_refl s₁).congr fun x e _ => ?_) h.wellLinked
      simp [linkUp]
  | cons c rest =>
      refine (Edit.succeeds_add (Q := fun _ s₂ => ChangedBy (linkUp id (c :: rest))
        s₁ s₂ ∧ WellLinked s₂) h.wellLinked hfit (List.cons_ne_nil _ _)
        ⟨changedBy_attach _ _ _, h.wellLinked.attach hfit⟩).bind ?_
      rintro _ s₂ ⟨hlinked, hwl₂⟩
      exact hdrop s₂ hlinked hwl₂

/-- What is inherited is given to a class in one way. -/
theorem succeeds_inherit {s : Tree} {id : ElementId} (hwl : WellLinked s)
    (hclass : s.kind? id = some .classDecl) :
    Edit.Succeeds ((s.inheritedProperties id).mapM Edit.cloneSubtree
      >>= Edit.inherit id) s fun _ s' =>
      ∃ copies, Inherited s id copies s' := by
  refine (succeeds_cloneProperties hwl fun p hp =>
    kind?_of_mem_inheritedProperties hp).bind ?_
  rintro copies s₁ ⟨hlength, hcopies⟩
  exact (hcopies.succeeds_inherit hwl hclass hlength).mono
    fun _ _ _ h => ⟨copies, h⟩

/-- What a class was given are the copies that were made for it. -/
theorem inherited_of_run {s s₁ s' : Tree} {id : ElementId} {copies : List ElementId}
    {u : Unit} (hwl : WellLinked s) (hclass : s.kind? id = some .classDecl)
    (hclone : ((s.inheritedProperties id).mapM Edit.cloneSubtree).run s
      = .ok copies s₁) (hrun : (Edit.inherit id copies).run s₁ = .ok u s') :
    Inherited s id copies s' := by
  have hsources : ∀ p ∈ s.inheritedProperties id, s.kind? p = some .property :=
    fun p hp => kind?_of_mem_inheritedProperties hp
  obtain ⟨_, _, hmade, hlength, hcopies⟩ := succeeds_cloneProperties hwl hsources
  obtain ⟨rfl, rfl⟩ := EStateM.Result.ok.inj (hclone.symm.trans hmade)
  obtain ⟨_, _, hgiven, hinherited⟩ := hcopies.succeeds_inherit hwl hclass hlength
  obtain ⟨-, rfl⟩ := EStateM.Result.ok.inj (hrun.symm.trans hgiven)
  exact hinherited

namespace Inherited

variable {s s' : Tree} {id c x : ElementId} {copies : List ElementId}
  (h : Inherited s id copies s')

include h

/-- The copies are new properties. -/
theorem kind?_copy (hc : c ∈ copies) :
    s.size ≤ c.index ∧ s'.kind? c = some .property := by
  obtain ⟨p, hp, hq⟩ := exists_mem_zip h.length_eq hc
  obtain ⟨hle, e, he, hcopy⟩ := h.image _ hq
  refine ⟨hle, ?_⟩
  have hkind := kind?_of_mem_inheritedProperties hp
  have hframe :=
    congrArg (·.1.2.2) (Copied.frame_copiedElement p (redirect p c) p e)
  rw [kind?, he] at hkind
  rw [kind?, hcopy, ← hkind]
  exact congrArg some hframe

/-- Of what was there, the class alone is another, and only in its children and
    its inheritance. -/
theorem exists_of_get? {e : Element} (he : s.get? x = some e) :
    s'.get? x = some e ∧ x ≠ id ∨ x = id
      ∧ s'.get? x = some (e.takeOver copies) := by
  by_cases hx : x = id
  · subst hx
    exact Or.inr ⟨rfl, h.get?_self e he⟩
  · exact Or.inl ⟨(h.get?_other x (index_lt_of_get? he) hx).trans he, hx⟩

/-- Names of what was there stay. -/
theorem name?_old (hx : x.index < s.size) : s'.name? x = s.name? x := by
  obtain ⟨e, he⟩ := Option.isSome_iff_exists.mp ((get?_isSome_iff s x).mpr hx)
  rw [name?, name?, he]
  rcases h.exists_of_get? he with ⟨hget, -⟩ | ⟨-, hget⟩
  · rw [hget]
  · rw [hget]
    rfl

theorem kind?_old (hx : x.index < s.size) : s'.kind? x = s.kind? x := by
  obtain ⟨e, he⟩ := Option.isSome_iff_exists.mp ((get?_isSome_iff s x).mpr hx)
  rw [kind?, kind?, he]
  rcases h.exists_of_get? he with ⟨hget, -⟩ | ⟨-, hget⟩
  · rw [hget]
  · rw [hget]
    exact congrArg some (Element.kind_takeOver copies e)

/-- No class is made, and none is lost. -/
theorem isSome_class?_eq (x : ElementId) :
    (s'.class? x).isSome = (s.class? x).isSome := by
  rw [Bool.eq_iff_iff, isSome_class?_iff, isSome_class?_iff]
  rcases Nat.lt_or_ge x.index s.size with hx | hx
  · rw [h.kind?_old hx]
  · refine iff_of_false (fun hk => ?_) (fun hk => ?_)
    · obtain ⟨e, he, -⟩ := kind?_eq_some_iff.mp hk
      have hcopy := (h.kind?_copy (h.eq_copy x hx (by rw [he]; rfl))).2
      rw [hk] at hcopy
      cases hcopy
    · obtain ⟨e, he, -⟩ := kind?_eq_some_iff.mp hk
      exact Nat.not_lt.mpr hx (index_lt_of_get? he)

end Inherited

/-- What a class inherits from is read off the class and off what is a class. -/
theorem parentClass?_congr {x : ElementId} (hx : t'.class? x = t.class? x)
    (hclass : ∀ p, (t'.class? p).isSome = (t.class? p).isSome) :
    t'.parentClass? x = t.parentClass? x := by
  rw [parentClass?, parentClass?, hx]
  simp only [hclass]

/-- A class that was given what it inherits inherits from nothing. -/
theorem Inherited.parentClass?_self {s s' : Tree} {id : ElementId}
    {copies : List ElementId} {e : Element} (h : Inherited s id copies s')
    (he : s.get? id = some e) : s'.parentClass? id = none := by
  have hclass : s'.class? id = e.class?.map fun c =>
      { c with inherits := none } := by
    rw [class?, h.get?_self e he]
    exact Element.class?_takeOver copies e
  rw [parentClass?, hclass]
  cases e.class? <;> rfl

/-- The links of other classes stay. -/
theorem Inherited.parentClass?_other {s s' : Tree} {id x : ElementId}
    {copies : List ElementId} (h : Inherited s id copies s') (hx : x.index < s.size)
    (hne : x ≠ id) : s'.parentClass? x = s.parentClass? x :=
  parentClass?_congr (by rw [class?, class?, h.get?_other x hx hne])
    h.isSome_class?_eq

end Tree

/-! ## All classes -/

namespace Edit

/-- The visit of one element: a class that inherits is given copies of what it
    inherits. -/
def flattenClass (id : ElementId) : Edit Unit := do
  let t ← get
  if (t.parentClass? id).isNone then return
  let copies ← (t.inheritedProperties id).mapM cloneSubtree
  inherit id copies

/-- The pass is a crawl with one turn for each element. -/
theorem flattenInheritance_eq : flattenInheritance = crawl flattenClass := rfl

end Edit

namespace Tree

variable {t : Tree}

/-- An element that inherits is a class, and is given what it inherits. Any
    other is left alone. -/
theorem succeeds_flattenClass {s : Tree} (hwl : WellLinked s) (id : ElementId) :
    Edit.Succeeds (Edit.flattenClass id) s fun _ s' =>
      s.parentClass? id = none ∧ s' = s
        ∨ s.kind? id = some .classDecl ∧ ∃ copies, Inherited s id copies s' := by
  refine Edit.succeeds_get_bind ?_
  cases hp : s.parentClass? id with
  | none => exact Edit.succeeds_pure (Or.inl ⟨rfl, rfl⟩)
  | some p =>
      have hclass := isSome_class?_iff.mp (parentClass?_eq_some hp).1
      exact (succeeds_inherit hwl hclass).mono fun _ _ _ hinherited =>
        Or.inr ⟨hclass, hinherited⟩

/-- A turn passes over what inherits from nothing, and gives a class what it
    inherits. -/
theorem cases_of_flattenClass {s s' : Tree} {id : ElementId} (hwl : WellLinked s)
    (hvisit : (Edit.flattenClass id).run s = .ok () s') :
    s.parentClass? id = none ∧ s' = s ∨ s.kind? id = some .classDecl
      ∧ ∃ copies, Inherited s id copies s' := by
  obtain ⟨_, s₁, hrun, hcases⟩ := succeeds_flattenClass hwl id
  rw [hvisit] at hrun
  obtain ⟨-, rfl⟩ := EStateM.Result.ok.inj hrun
  exact hcases

/-- Whatever inherits from what, flattening is not refused. -/
theorem succeeds_flattenInheritance (h : WellLinked t) :
    Edit.Succeeds Edit.flattenInheritance t fun _ => WellLinked := by
  rw [Edit.flattenInheritance_eq]
  refine Edit.succeeds_crawl
    (fun s id _ hs _ => (succeeds_flattenClass hs id).mono ?_) h
  rintro _ s' - (⟨-, rfl⟩ | ⟨-, copies, hinherited⟩)
  · exact hs
  · exact hinherited.wellLinked

end Tree

end CodeModel
