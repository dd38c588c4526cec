import CodeModel.Proofs.PipelineSteps
import Mathlib.Data.List.Find

/-!
# Imports that keep up

An import of a declaration carries a name that is read off what the declaration
sits in, so it can go stale when anything above the declaration is renamed or
moved. Blocks of imports hold such names without repeats, and new names must not
make two imports the same.

A block is `Consistent` when its names are those that imports of their
declarations carry and no import occurs twice. A step keeps that of every
element whose imports are bound to attached declarations or to what the tree
held from the start (`Tidy.step`), so passes keep it, in any order and with any
parameters.

Main statement: `Pipeline.importsConsistent_of_run`.
-/

namespace CodeModel

namespace Import

/-- Names that only bound references are given leave alone what an import brings
    in. -/
theorem subject?_mapSymbol_rename {f : TypeRef → String}
    (hf : ∀ r : TypeRef, r.definition? = none → f r = r.name) (i : Import) :
    (i.mapSymbol (·.rename f)).subject? = i.subject? := by
  unfold subject? mapSymbol
  rw [Option.map_map]
  cases i.symbol with
  | none => rfl
  | some r =>
      simp only [Option.map_some, Function.comp_apply, TypeRef.definition?_rename]
      cases hdef : r.definition? with
      | some id => rfl
      | none =>
          have hname : (r.rename f).name = f r := by
            obtain ⟨name, target, isNullable, isCollection⟩ := r
            rw [TypeRef.rename]
          rw [hname, hf r hdef]

instance (block : List Import) : Decidable (Distinct block) :=
  inferInstanceAs (Decidable (block.Pairwise fun a b => ¬ SameImport a b))

end Import

namespace Tree

/-- The names of the imports of a block are those that imports of their
    declarations carry, classes and enums alone, and no import occurs twice. -/
structure Consistent (t : Tree) (block : List Import) : Prop where
  named : ∀ i ∈ block, ∀ d, i.target? = some d → t.isDeclaration d = true →
    i.name = t.importName d
  distinct : Import.Distinct block

instance (t : Tree) (block : List Import) : Decidable (Consistent t block) :=
  decidable_of_iff
    ((∀ i ∈ block, ∀ d ∈ i.target?, t.isDeclaration d = true →
      i.name = t.importName d)
      ∧ Import.Distinct block)
    ⟨fun h => ⟨h.1, h.2⟩, fun h => ⟨h.named, h.distinct⟩⟩

/-- The imports of an element; none for a handle without one. -/
def imports (t : Tree) (id : ElementId) : List Import :=
  ((t.get? id).map (·.imports)).getD []

/-- The imports of everything that is attached are consistent. -/
def ImportsConsistent (t : Tree) : Prop :=
  ∀ x, Attached t x → Consistent t (t.imports x)

/-- A consistent block of imports that are bound to attached elements or to some
    of the first `n`. -/
structure Tidy (n : Nat) (t : Tree) (block : List Import) : Prop where
  consistent : Consistent t block
  settled : ∀ i ∈ block, ∀ d, i.target? = some d → d.index < n ∨ Attached t d

/-- An element and all that is above it have the same holder and kind in both
    trees. -/
def SameHolders (t t' : Tree) (d : ElementId) : Prop :=
  ∀ a, Within t a d → t'.parent? a = t.parent? a ∧ t'.kind? a = t.kind? a

/-- An element and all that is above it have the same holder, name and kind in
    both trees. -/
def SameAbove (t t' : Tree) (d : ElementId) : Prop :=
  ∀ a, Within t a d → t'.parent? a = t.parent? a ∧ t'.name? a = t.name? a
    ∧ t'.kind? a = t.kind? a

variable {t t' : Tree} {n : Nat} {K : StepKind → Prop}

/-! ## Names that depend on what is above -/

/-- What holds for an element holds for all that is above it. -/
theorem SameHolders.above {d a : ElementId} (h : SameHolders t t' d)
    (ha : Within t a d) : SameHolders t t' a :=
  fun b hb => h b (hb.trans ha)

/-- An element stays within what it was within. -/
theorem SameHolders.within {d a : ElementId} (h : SameHolders t t' d)
    (ha : Within t a d) : Within t' a d := by
  rcases ha with rfl | ha
  · exact Or.inl rfl
  · induction ha with
    | parent hp => exact Or.inr (.parent ((h _ (Or.inl rfl)).1.trans hp))
    | above hp _ ih =>
        have hp' := (h _ (Or.inl rfl)).1.trans hp
        exact (ih (h.above (Or.inr (.parent hp)))).of_parent? hp'

/-- The way upwards is the same, step by step. -/
theorem ancestorsWithin_eq_of_sameHolders {d : ElementId} (h : SameHolders t t' d)
    (m : Nat) :
    t'.ancestorsWithin m d = t.ancestorsWithin m d := by
  induction m generalizing d with
  | zero => rfl
  | succ m ih =>
      have hparent := (h d (Or.inl rfl)).1
      cases hp : t.parent? d with
      | none => simp [ancestorsWithin, hparent, hp]
      | some p =>
          have habove : SameHolders t t' p := h.above (Or.inr (.parent hp))
          simp only [ancestorsWithin, hparent, hp, ih habove]

theorem ancestors_eq_of_sameHolders (hwl : WellLinked t) (hwl' : WellLinked t')
    {d : ElementId} (h : SameHolders t t' d) : t'.ancestors d = t.ancestors d := by
  have hmax := ancestorsWithin_eq_of_sameHolders h (max t.size t'.size)
  rwa [hwl.ancestorsWithin_eq (by omega),
    hwl'.ancestorsWithin_eq (by omega)] at hmax

theorem containingNamespace?_eq_of_sameHolders (hwl : WellLinked t)
    (hwl' : WellLinked t') {d : ElementId} (h : SameHolders t t' d) :
    t'.containingNamespace? d = t.containingNamespace? d := by
  rw [containingNamespace?, ancestors_eq_of_sameHolders hwl hwl' h]
  refine List.find?_congr fun a ha => ?_
  rw [isNamespace, isNamespace, (h a (Or.inr (hwl.mem_ancestors_iff.mp ha))).2]

theorem SameAbove.sameHolders {d : ElementId} (h : SameAbove t t' d) :
    SameHolders t t' d :=
  fun a ha => ⟨(h a ha).1, (h a ha).2.2⟩

theorem SameAbove.above {d a : ElementId} (h : SameAbove t t' d)
    (ha : Within t a d) : SameAbove t t' a :=
  fun b hb => h b (hb.trans ha)

/-- The dotted name of a namespace is made of its own segments. -/
theorem qualifiedName_of_kind? {s : Tree} {ns : ElementId}
    (h : s.kind? ns = some .namespaceDecl) :
    s.qualifiedName ns = Dotted.join (s.namespaceSegments ns) := by
  rw [qualifiedName, namespaceOf?, h]

/-- The segments of a namespace are read off the namespace and what is above
    it. -/
theorem namespaceSegments_eq_of_sameAbove (hwl : WellLinked t)
    (hwl' : WellLinked t') (hroot : t'.root = t.root) {d : ElementId}
    (h : SameAbove t t' d) :
    t'.namespaceSegments d = t.namespaceSegments d := by
  have hsegment : ∀ a ∈ (d :: t.ancestors d).takeWhile (· ≠ t.root), Within t a d :=
    fun a ha =>
      (List.mem_cons.mp ((List.takeWhile_sublist _).subset ha)).imp Eq.symm
        hwl.mem_ancestors_iff.mp
  have hkinds : ∀ a, Within t a d → t'.isNamespace a = t.isNamespace a :=
      fun a ha => by
    rw [isNamespace, isNamespace, (h a ha).2.2]
  rw [namespaceSegments, hroot, ancestors_eq_of_sameHolders hwl hwl' h.sameHolders,
    List.filter_congr fun a ha => hkinds a (hsegment a ha)]
  refine List.filterMap_congr fun a ha => ?_
  exact (h a (hsegment a (List.mem_of_mem_filter (List.mem_reverse.mp ha)))).2.1

/-- Where an element and all that is above it stay as they are, imports of it
    keep their name. -/
theorem importName_eq_of_sameAbove (hwl : WellLinked t) (hwl' : WellLinked t')
    (hroot : t'.root = t.root) {d : ElementId} (h : SameAbove t t' d) :
    t'.importName d = t.importName d := by
  have hcontaining := containingNamespace?_eq_of_sameHolders hwl hwl' h.sameHolders
  have hqualified : ∀ ns, t.containingNamespace? d = some ns →
      t'.qualifiedName ns = t.qualifiedName ns := by
    intro ns hns
    have hmem := List.mem_of_find?_eq_some hns
    have hself : t.isNamespace ns = true := List.find?_some hns
    have hkind : t.kind? ns = some .namespaceDecl := of_decide_eq_true hself
    have habove : Within t ns d := Or.inr (hwl.mem_ancestors_iff.mp hmem)
    rw [qualifiedName_of_kind? hkind,
      qualifiedName_of_kind? ((h ns habove).2.2.trans hkind),
      namespaceSegments_eq_of_sameAbove hwl hwl' hroot (h.above habove)]
  unfold importName
  rw [hcontaining, (h d (Or.inl rfl)).2.1]
  cases hns : t.containingNamespace? d with
  | none => rfl
  | some ns =>
      dsimp only
      rw [hqualified ns hns]

/-- Two changes that leave an element and what is above it alone leave it alone
    together. -/
theorem SameAbove.trans {t'' : Tree} {d : ElementId} (h : SameAbove t t' d)
    (h' : SameAbove t' t'' d) : SameAbove t t'' d := by
  intro a ha
  obtain ⟨hparent, hname, hkind⟩ := h a ha
  obtain ⟨hparent', hname', hkind'⟩ := h' a (h.sameHolders.within ha)
  exact ⟨hparent'.trans hparent, hname'.trans hname, hkind'.trans hkind⟩

/-- Trees of the same frames agree everywhere. -/
theorem SameFrames.sameAbove (h : SameFrames t t') (d : ElementId) :
    SameAbove t t' d :=
  fun a _ => ⟨h.samePlaces.parent?_eq a, h.name?_eq a, h.samePlaces.kind?_eq a⟩

/-- What is above an element of the arena is in the arena. -/
theorem WellLinked.index_lt_of_within (hwl : WellLinked t) {a d : ElementId}
    (hd : d.index < t.size) (ha : Within t a d) : a.index < t.size := by
  rcases ha with rfl | ha
  · exact hd
  · exact hwl.index_lt_of_ancestor ha

/-- A new element changes nothing above what was there. -/
theorem WellLinked.sameAbove_push (hwl : WellLinked t) {e : Element}
    (hparent : e.parent = none) {d : ElementId} (hd : d.index < t.size) :
    SameAbove t (t.push e) d := by
  intro a ha
  have hget : (t.push e).get? a = t.get? a := by
    have hlt := hwl.index_lt_of_within hd ha
    rw [get?_push, if_neg]
    rintro rfl
    exact Nat.lt_irrefl _ hlt
  exact ⟨parent?_push hparent a, by rw [name?, name?, hget],
    by rw [kind?, kind?, hget]⟩

/-- What does not sit at or below the elements that join a holder keeps all that
    is above it. -/
theorem sameAbove_attach {slot : Slot} {holder : ElementId}
    {ids : List ElementId} (hi : Insertable t slot holder ids) {d : ElementId}
    (hd : ∀ c ∈ ids, ¬ Within t c d) : SameAbove t (t.attach holder ids) d := by
  intro a ha
  have hlinks := relinked_attach t holder ids
  refine ⟨?_, hlinks.name?_eq a, hlinks.kind?_eq a⟩
  rw [hi.parent?_attach, if_neg fun hmem => hd a hmem ha]

/-- Taking a child out changes nothing above what is not within it. -/
theorem sameAbove_detach {holder child : ElementId} (hc : child ∈ t.children holder)
    {d : ElementId} (hd : ¬ Within t child d) :
    SameAbove t (t.detach holder child).2 d := by
  intro a ha
  have hlinks := relinked_detach hc
  refine ⟨?_, hlinks.name?_eq a, hlinks.kind?_eq a⟩
  rw [parent?_detach hc, if_neg]
  rintro rfl
  exact hd ha

theorem WellLinked.sameAbove_rename (hwl : WellLinked t) {id : ElementId}
    (name : String) {d : ElementId} (hd : ¬ Within t id d) :
    SameAbove t (t.rename id name) d := by
  intro a ha
  have hsame := samePlaces_rename t id name
  refine ⟨hsame.parent?_eq a, ?_, hsame.kind?_eq a⟩
  rw [name?_rename hwl, if_neg]
  rintro rfl
  exact hd ha

/-- What is attached, and what was there before, does not sit in a subtree that
    waits to be attached. -/
theorem Pending.not_within {x d : ElementId} (h : Pending n t x)
    (hwl : WellLinked t) (hd : d.index < n ∨ Attached t d) : ¬ Within t x d := by
  intro hx
  rcases hd with hd | hd
  · exact absurd (h.fresh d hx) (Nat.not_le.mpr hd)
  · rcases WellLinked.within_total hd hx with hroot | hroot
    · rcases hroot with heq | hroot
      · exact h.ne_root heq
      · obtain ⟨p, hp⟩ := hroot.exists_parent?
        rw [h.free] at hp
        cases hp
    · rcases hroot with heq | hroot
      · exact h.ne_root heq.symm
      · exact hwl.not_ancestor_root hroot

/-! ## What keeps a block consistent -/

/-- Imports that are bound to nothing are not named anew. -/
theorem refreshImport_of_unbound {scope : ElementId} {i : Import}
    (h : i.target? = none) : t.refreshImport scope i = i := by
  rw [refreshImport, h]

/-- Refreshing does not change what an import is of. -/
theorem subject?_refreshImport (scope : ElementId) (i : Import) :
    (t.refreshImport scope i).subject? = i.subject? := by
  rw [Import.subject?, symbol_refreshImport]
  rfl

namespace Consistent

variable {block : List Import}

theorem nil (t : Tree) : Consistent t [] :=
  ⟨fun _ hi => absurd hi List.not_mem_nil, List.Pairwise.nil⟩

/-- A part of a consistent block is consistent. -/
theorem sublist {block' : List Import} (h : Consistent t block)
    (hsub : List.Sublist block' block) : Consistent t block' :=
  ⟨fun i hi => h.named i (hsub.subset hi), h.distinct.sublist hsub⟩

/-- A block stays consistent where its declarations are imported under the same
    names. -/
theorem carry (h : Consistent t block)
    (hsame : ∀ i ∈ block, ∀ d, i.target? = some d → t'.isDeclaration d = true →
      t.isDeclaration d = true ∧ t'.importName d = t.importName d) :
    Consistent t' block := by
  refine ⟨fun i hi d hd hdecl => ?_, h.distinct⟩
  obtain ⟨hold, hname⟩ := hsame i hi d hd hdecl
  rw [hname]
  exact h.named i hi d hd hold

/-- New names for the imports of what sits at or below `scope` keep a block
    consistent where the names of all other imports stay. -/
theorem refresh (h : Consistent t block) (scope : ElementId)
    (hsame : ∀ i ∈ block, ∀ d, i.target? = some d → t'.isDeclaration d = true →
      t.isDeclaration d = true
      ∧ (t'.isWithin scope d = false → t'.importName d = t.importName d)) :
    Consistent t' (block.map (t'.refreshImport scope)) := by
  -- An import is named anew exactly where its declaration may be imported under
  -- another name.
  have hnamed : ∀ i ∈ block, ∀ d, i.target? = some d → t'.isDeclaration d = true →
      (t'.refreshImport scope i).name = t'.importName d := by
    intro i hi d hd hdecl
    obtain ⟨hold, hname⟩ := hsame i hi d hd hdecl
    rw [refreshImport, hd]
    dsimp only
    cases hin : t'.isWithin scope d with
    | true => rw [hdecl, Bool.and_self, if_pos rfl]
    | false =>
        rw [Bool.false_and, if_neg Bool.false_ne_true, hname hin]
        exact h.named i hi d hd hold
  refine ⟨fun i' hi' d hd hdecl => ?_, ?_⟩
  · obtain ⟨i, hi, rfl⟩ := List.mem_map.mp hi'
    rw [target?_refreshImport] at hd
    exact hnamed i hi d hd hdecl
  · -- Two imports that are now the same bring in the same declaration, so they were
    -- the same before.
    refine List.pairwise_map.mpr (h.distinct.imp_of_mem ?_)
    intro a b ha hb hne heq
    obtain ⟨hname, hsubject⟩ := Import.key_eq_iff.mp heq
    rw [subject?_refreshImport, subject?_refreshImport] at hsubject
    refine hne (Import.key_eq_iff.mpr ⟨?_, hsubject⟩)
    have htarget := Import.target?_eq_of_subject?_eq hsubject
    cases hb' : b.target? with
    | none =>
        rwa [refreshImport_of_unbound (htarget.trans hb'),
          refreshImport_of_unbound hb'] at hname
    | some d =>
        cases hdecl : t'.isDeclaration d with
        | true =>
            have hold := (hsame b hb d hb' hdecl).1
            rw [h.named a ha d (htarget.trans hb') hold, h.named b hb d hb' hold]
        | false =>
            have hkeep : ∀ i : Import, i.target? = some d →
                t'.refreshImport scope i = i := by
              intro i hi
              rw [refreshImport, hi]
              simp [hdecl]
            rwa [hkeep a (htarget.trans hb'), hkeep b hb'] at hname

/-- A block stays consistent when bound references show other names. -/
theorem showNames (h : Consistent t block) {f : TypeRef → String}
    (hf : ∀ r : TypeRef, r.definition? = none → f r = r.name) :
    Consistent t (block.map (·.mapSymbol (·.rename f))) := by
  refine ⟨fun i' hi' d hd hdecl => ?_,
    List.pairwise_map.mpr (h.distinct.imp fun hne heq => ?_)⟩
  · obtain ⟨i, hi, rfl⟩ := List.mem_map.mp hi'
    rw [Import.target?_eq_of_subject?_eq (Import.subject?_mapSymbol_rename hf i)]
      at hd
    exact h.named i hi d hd hdecl
  · obtain ⟨hname, hsubject⟩ := Import.key_eq_iff.mp heq
    rw [Import.subject?_mapSymbol_rename hf, Import.subject?_mapSymbol_rename hf]
      at hsubject
    exact hne (Import.key_eq_iff.mpr ⟨hname, hsubject⟩)

end Consistent

/-! ## Steps -/

theorem imports_mapImports_map (f : Import → Import) (e : Element) :
    (e.mapImports (·.map f)).imports = e.imports.map f := by
  rw [Element.imports_mapImports, Element.imports]
  cases e.imports? <;> rfl

/-- What becomes of an import when an element is renamed: it shows other names
    and may get another one. -/
def renamedImport (t : Tree) (id : ElementId) (name : String)
    (i : Import) : Import :=
  (t.rename id name).refreshImport id (i.mapSymbol (·.rename (t.shownName id name)))

/-- Renaming an element refreshes the imports of every element. -/
theorem imports_renamedElement (id : ElementId) (name : String) (x : ElementId)
    (e : Element) :
    (t.renamedElement id name x e).imports
      = e.imports.map (t.renamedImport id name) := by
  rw [renamedElement, imports_mapImports_map, Element.imports_mapTypes,
    List.map_map]
  by_cases hx : x = id
  · rw [if_pos hx, Element.imports_withName]
    rfl
  · rw [if_neg hx]
    rfl

/-- Unbound references show what they showed. -/
theorem unbound_shownName (id : ElementId) (name : String) (r : TypeRef)
    (hr : r.definition? = none) : t.shownName id name r = r.name := by
  simp [shownName, hr]

/-- A renamed import has the target that it had. -/
theorem target?_renamedImport (t : Tree) (id : ElementId) (name : String)
    (i : Import) :
    (t.renamedImport id name i).target? = i.target? := by
  rw [renamedImport, target?_refreshImport]
  exact Import.target?_eq_of_subject?_eq
    (Import.subject?_mapSymbol_rename (t.unbound_shownName id name) i)

namespace Tidy

variable {block block' : List Import}

/-- A part of a tidy block is tidy. -/
theorem sublist (h : Tidy n t block) (hsub : List.Sublist block' block) :
    Tidy n t block' :=
  ⟨h.consistent.sublist hsub, fun i hi => h.settled i (hsub.subset hi)⟩

/-- What is settled stays settled, also under other names. -/
theorem settled_carry (h : Tidy n t block) (hc : Carries t t')
    (hold : ∀ i ∈ block', ∃ j ∈ block, i.target? = j.target?) :
    ∀ i ∈ block', ∀ d, i.target? = some d → d.index < n ∨ Attached t' d := by
  intro i hi d hd
  obtain ⟨j, hj, htarget⟩ := hold i hi
  exact (h.settled j hj d (htarget ▸ hd)).imp id hc.attached

/-- A tidy block stays tidy where all that is above its declarations stays the
    same. -/
theorem carry (h : Tidy n t block) (hwl : WellLinked t) (hwl' : WellLinked t')
    (hc : Carries t t') (habove : ∀ i ∈ block, ∀ d, i.target? = some d →
      t'.isDeclaration d = true → SameAbove t t' d) : Tidy n t' block := by
  refine ⟨h.consistent.carry fun i hi d hd hdecl => ?_,
    h.settled_carry hc fun i hi => ⟨i, hi, rfl⟩⟩
  have hsame := habove i hi d hd hdecl
  refine ⟨?_, importName_eq_of_sameAbove hwl hwl' hc.root_eq hsame⟩
  rw [isDeclaration, ← (hsame d (Or.inl rfl)).2.2]
  exact hdecl

/-- A tidy block stays tidy when the imports of what sits at or below `scope`
    are named anew and all that is above other declarations stays the same. -/
theorem refresh (h : Tidy n t block) (hwl : WellLinked t) (hwl' : WellLinked t')
    (hc : Carries t t') (scope : ElementId) (hkind : ∀ d, t'.kind? d = t.kind? d)
    (habove : ∀ d, t'.isDeclaration d = true → ¬ Within t' scope d →
      SameAbove t t' d) :
    Tidy n t' (block.map (t'.refreshImport scope)) := by
  refine ⟨h.consistent.refresh scope fun i _ d _ hdecl => ⟨?_, fun hout => ?_⟩,
    h.settled_carry hc fun i' hi' => ?_⟩
  · rw [isDeclaration, ← hkind]
    exact hdecl
  · refine importName_eq_of_sameAbove hwl hwl' hc.root_eq
      (habove d hdecl fun hin => ?_)
    rw [hwl'.isWithin_iff.mpr hin] at hout
    cases hout
  · obtain ⟨i, hi, rfl⟩ := List.mem_map.mp hi'
    exact ⟨i, hi, target?_refreshImport scope i⟩

/-- Showing other names of bound references leaves a block tidy. -/
theorem showNames (h : Tidy n t block) {f : TypeRef → String}
    (hf : ∀ r : TypeRef, r.definition? = none → f r = r.name) :
    Tidy n t (block.map (·.mapSymbol (·.rename f))) := by
  refine ⟨h.consistent.showNames hf, fun i' hi' d hd => ?_⟩
  obtain ⟨i, hi, rfl⟩ := List.mem_map.mp hi'
  rw [Import.target?_eq_of_subject?_eq (Import.subject?_mapSymbol_rename hf i)]
    at hd
  exact h.settled i hi d hd

/-- An amendment keeps the imports of an element tidy. -/
theorem amend {e e' : Element} (h : Tidy n t e.imports) (ha : Amended t e e') :
    Tidy n t e'.imports := by
  have hkeys : ∀ i ∈ e'.imports, ∀ d, i.target? = some d →
      (∃ j ∈ e.imports, j.target? = some d ∧ j.name = i.name) ∨ Attached t d
        ∧ i.name = t.importName d := by
    intro i hi d hd
    rcases ha.imports_named i hi with ⟨j, hj, hkey⟩ | hnew
    · obtain ⟨htarget, hname⟩ := Import.target?_eq_of_key_eq hkey
      exact Or.inl ⟨j, hj, htarget.trans hd, hname⟩
    · exact Or.inr (hnew d hd)
  refine ⟨⟨fun i hi d hd hdecl => ?_, ha.distinct h.consistent.distinct⟩,
    fun i hi d hd => ?_⟩
  · rcases hkeys i hi d hd with ⟨j, hj, htarget, hname⟩ | ⟨-, hname⟩
    · rw [← hname]
      exact h.consistent.named j hj d htarget hdecl
    · exact hname
  · rcases hkeys i hi d hd with ⟨j, hj, htarget, -⟩ | ⟨hattached, -⟩
    · exact h.settled j hj d htarget
    · exact Or.inr hattached

/-- A rename keeps blocks tidy. -/
theorem rename (h : Tidy n t block) (hwl : WellLinked t) (id : ElementId)
    (name : String) :
    Tidy n (t.rename id name) (block.map (t.renamedImport id name)) := by
  have hsame := samePlaces_rename t id name
  have hshown := ((h.showNames (unbound_shownName (t := t) id name)).refresh hwl
    (hwl.rename id name)
    hsame.carries id hsame.kind?_eq fun d _ hout =>
      hwl.sameAbove_rename name fun hin => hout (hsame.within_iff.mpr hin))
  rwa [List.map_map] at hshown

end Tidy

section step

variable {x : ElementId} {slot : Slot} {holder child : ElementId}

/-- An amended element has a tidy block if it had one: what is new among its
    imports is attached and rightly named. -/
theorem Stable.tidy_amend (h : Stable t) {id : ElementId} {f : Element → Element}
    (hf : ∀ e, t.get? id = some e → Amended t e (f e))
    (hx : ∀ e, t.get? x = some e → Tidy n t e.imports) {e' : Element}
    (he' : (t.modify id f).get? x = some e') :
    Tidy n (t.modify id f) e'.imports := by
  obtain ⟨hstable, hsame⟩ := h.amend hf
  obtain ⟨e, he, rfl⟩ := (changedBy_modify t id f).exists_of_get? he'
  have hamended : Tidy n t (if x = id then f e else e).imports := by
    by_cases hxid : x = id
    · rw [if_pos hxid]
      exact (hx e he).amend (hf e (hxid ▸ he))
    · rw [if_neg hxid]
      exact hx e he
  exact hamended.carry h.toWellLinked hstable.toWellLinked hsame.samePlaces.carries
    fun i _ d _ _ => hsame.sameAbove d

/-- A new element leaves blocks tidy: the imports of other elements cannot be
    bound to it. -/
theorem Stable.tidy_push (h : Stable t) (hn : n ≤ t.size) {e : Element}
    (hparent : e.parent = none) (hchildren : e.children = []) (htoken : e.TokenFits)
    {block : List Import} (hx : Tidy n t block) : Tidy n (t.push e) block := by
  refine hx.carry h.toWellLinked (h.push hparent hchildren htoken).toWellLinked
    (carries_push hparent) ?_
  intro i hi d hd _
  refine h.toWellLinked.sameAbove_push hparent ?_
  rcases hx.settled i hi d hd with hlt | hattached
  · exact Nat.lt_of_lt_of_le hlt hn
  · exact h.toWellLinked.index_lt_of_attached hattached

/-- Joining a slot leaves blocks tidy. What joins is newer than anything that
    an import may wait for. -/
theorem Stable.tidy_attach (h : Stable t) {ids : List ElementId}
    (hi : Insertable t slot holder ids) (hids : ∀ c ∈ ids, Pending n t c)
    {block : List Import} (hx : Tidy n t block) :
    Tidy n (t.attach holder ids) block := by
  refine hx.carry h.toWellLinked (h.toWellLinked.attach hi) (carries_attach hi)
    fun i hi' d hd _ => ?_
  refine sameAbove_attach hi fun c hc => ?_
  exact (hids c hc).not_within h.toWellLinked (hx.settled i hi' d hd)

/-- A move names anew the imports of what has moved; what has not moved keeps
    all that is above it. -/
theorem Stable.tidy_move (h : Stable t)
    {holder' : ElementId} {f : Element → Element} (hc : child ∈ t.children holder)
    (ha : Attached t holder) (ha' : Attached t holder')
    (hi : Insertable (t.detach holder child).2 slot holder' [child])
    (hf : ∀ e, Element.Trimmed e (f e)) {t₁ t₂ t₃ t₄ : Tree}
    (h₁ : t₁ = (t.detach holder child).2) (h₂ : t₂ = t₁.attach holder' [child])
    (h₃ : t₃ = t₂.modify holder' f) (h₄ : t₄ = t₃.rebindImports child)
    (hx : ∀ e, t.get? x = some e → Tidy n t e.imports) {e' : Element}
    (he' : t₄.get? x = some e') : Tidy n t₄ e'.imports := by
  have hwl := h.toWellLinked
  obtain ⟨hstable, hcarries⟩ := h.move hc ha ha' hi hf (h₁ ▸ h₂) (h₃ ▸ h₄)
  have hlinks : Relinked t t₂ :=
    h₂ ▸ (h₁ ▸ relinked_detach hc).trans (relinked_attach _ _ _)
  have hframes : SameFrames t₂ t₄ := by
    rw [h₄, h₃]
    exact (sameFrames_modify t₂ holder' fun e => (hf e).frame_eq).trans
      (sameFrames_rebindImports _ child)
  have hwithin : ∀ {d}, Within t child d → Within t₄ child d := fun hin => by
    have hin₁ := (within_child_detach_iff hwl hc).mpr hin
    have hin₂ := hi.within_attach_of_within hin₁
    rw [← h₁, ← h₂] at hin₂
    exact hframes.samePlaces.within_iff.mpr hin₂
  -- What is not below the child now was not below it before, and so has kept all
  -- that is above it.
  have habove : ∀ d, ¬ Within t₄ child d → SameAbove t t₄ d := by
    intro d hout
    have hout₀ : ¬ Within t child d := fun hin => hout (hwithin hin)
    have hdetach := sameAbove_detach hc hout₀
    have hattach : SameAbove (t.detach holder child).2 t₂ d := by
      rw [h₂, h₁]
      refine sameAbove_attach hi fun c hcm => ?_
      rw [List.mem_singleton.mp hcm, within_child_detach_iff hwl hc]
      exact hout₀
    exact (hdetach.trans hattach).trans (hframes.sameAbove d)
  rw [h₄] at he'
  obtain ⟨e₃, he₃, rfl⟩ := (changedBy_rebindImports t₃ child).exists_of_get? he'
  rw [h₃] at he₃
  obtain ⟨e₂, he₂, rfl⟩ := (changedBy_modify t₂ holder' f).exists_of_get? he₃
  obtain ⟨e, he, -, hcontent⟩ := hlinks.exists_get? he₂
  have htrim : List.Sublist (if x = holder' then f e₂ else e₂).imports e.imports :=
      by
    rw [← Element.imports_eq_of_content_eq hcontent]
    exact (Element.Trimmed.ite hf _ e₂).imports_sublist
  have hrefresh : t₃.refreshImport child = t₄.refreshImport child := by
    rw [h₄]
    exact (funext ((sameFrames_rebindImports t₃ child).refreshImport_eq child)).symm
  rw [imports_mapImports_map, hrefresh]
  exact ((hx e he).sublist htrim).refresh hwl hstable.toWellLinked hcarries child
    (fun d => (hframes.samePlaces.kind?_eq d).trans (hlinks.kind?_eq d))
      fun d _ hout => habove d hout

/-- Nothing that is imported sits at or below a property. -/
theorem WellLinked.not_within_property (hwl : WellLinked t)
    (hkind : t.kind? child = some .property) {d : ElementId}
    (hdecl : t.isDeclaration d = true) : ¬ Within t child d := by
  intro hin
  have hscope := hwl.kind?_of_isWithin (hwl.isWithin_iff.mpr hin) hdecl
  rw [isDeclaration_iff, hkind] at hscope
  simp at hscope

section reinsert

variable {name : String} {f : Element → Element} {t₁ t₂ t₃ t₄ : Tree}

/-- Nothing that is imported sits at or below a property that has been taken out
    either. -/
theorem WellLinked.not_within_loose (hwl : WellLinked t)
    (hc : child ∈ t.children holder) (hkind : t.kind? child = some .property)
    (hsame : SamePlaces (t.detach holder child).2 t') {d : ElementId}
    (hdecl : t'.isDeclaration d = true) : ¬ Within t' child d := by
  intro hin
  rw [hsame.within_iff, within_child_detach_iff hwl hc] at hin
  refine hwl.not_within_property hkind ?_ hin
  rw [isDeclaration, ← (relinked_detach hc).kind?_eq, ← hsame.kind?_eq]
  exact hdecl

/-- Taking a property out and putting it back under another name leaves what is
    above declarations. -/
theorem WellLinked.sameAbove_reinsert (hwl : WellLinked t)
    (hc : child ∈ t.children holder) (hkind : t.kind? child = some .property)
    (hf : ∀ e, Element.Trimmed e (f e))
    (h₁ : t₁ = (t.detach holder child).2) (h₂ : t₂ = t₁.modify child f)
    (h₃ : t₃ = t₂.rename child name) (h₄ : t₄ = t₃.attach holder [child])
    (hi : Insertable t₃ .properties holder [child]) {d : ElementId}
    (hdecl : t₄.isDeclaration d = true) : SameAbove t t₄ d := by
  have hlinks₁ : Relinked t t₁ := h₁ ▸ relinked_detach hc
  have hframes₂ : SameFrames t₁ t₂ :=
    h₂ ▸ sameFrames_modify t₁ child fun e => (hf e).frame_eq
  have hplaces₃ : SamePlaces t₂ t₃ := h₃ ▸ samePlaces_rename t₂ child name
  have hwl₂ : WellLinked t₂ := hframes₂.wellLinked (h₁ ▸ hwl.detach hc)
  -- Nothing is below a property, so no declaration changes its place or the names
  -- above it.
  have hdecl₃ : t₃.isDeclaration d = true := by
    rw [isDeclaration, ← (relinked_attach t₃ holder [child]).kind?_eq, ← h₄]
    exact hdecl
  have hdecl₂ : t₂.isDeclaration d = true := by
    rw [isDeclaration, ← hplaces₃.kind?_eq]
    exact hdecl₃
  have hdecl₀ : t.isDeclaration d = true := by
    rw [isDeclaration, ← hlinks₁.kind?_eq, ← hframes₂.samePlaces.kind?_eq]
    exact hdecl₂
  have hsame₂ : SamePlaces (t.detach holder child).2 t₂ := h₁ ▸ hframes₂.samePlaces
  have hdetach : SameAbove t t₁ d :=
    h₁ ▸ sameAbove_detach hc (hwl.not_within_property hkind hdecl₀)
  have hrename : SameAbove t₂ t₃ d :=
    h₃ ▸ hwl₂.sameAbove_rename name (hwl.not_within_loose hc hkind hsame₂ hdecl₂)
  have hattach : SameAbove t₃ t₄ d := by
    rw [h₄]
    refine sameAbove_attach hi fun c hcm => ?_
    rw [List.mem_singleton.mp hcm]
    exact hwl.not_within_loose hc hkind (hsame₂.trans hplaces₃) hdecl₃
  exact ((hdetach.trans (hframes₂.sameAbove d)).trans hrename).trans hattach

/-- An element after a property has been taken out and put back: its content is
    trimmed, if it is the property, and shows the new name, while imports keep
    theirs. -/
theorem WellLinked.exists_reinserted (hwl : WellLinked t)
    (hc : child ∈ t.children holder) (hkind : t.kind? child = some .property)
    (hf : ∀ e, Element.Trimmed e (f e)) (h₁ : t₁ = (t.detach holder child).2)
    (h₂ : t₂ = t₁.modify child f) (h₃ : t₃ = t₂.rename child name)
    (h₄ : t₄ = t₃.attach holder [child]) {e' : Element}
    (he' : t₄.get? x = some e') :
    ∃ e e₁ e₂, t.get? x = some e ∧ e₁.content = e.content
      ∧ e₂ = (if x = child then f e₁ else e₁)
      ∧ e'.content = (t₂.renamedElement child name x e₂).content
      ∧ e'.imports
        = e₂.imports.map (·.mapSymbol (·.rename (t₂.shownName child name))) := by
  have hframes₂ : SameFrames t₁ t₂ :=
    h₂ ▸ sameFrames_modify t₁ child fun e => (hf e).frame_eq
  have hsame₃ : SamePlaces (t.detach holder child).2 t₃ :=
    h₃ ▸ (h₁ ▸ hframes₂.samePlaces).trans (samePlaces_rename t₂ child name)
  have hwl₂ : WellLinked t₂ := hframes₂.wellLinked (h₁ ▸ hwl.detach hc)
  have hkeep : ∀ i, t₃.refreshImport child i = i := by
    refine refreshImport_of_forall fun d hin => ?_
    cases hd : t₃.isDeclaration d with
    | false => rfl
    | true =>
        refine absurd ?_ (hwl.not_within_loose hc hkind hsame₃ hd)
        exact (h₃ ▸ hwl₂.rename child name).isWithin_iff.mp hin
  obtain ⟨e₃, he₃, -, hcontent₄⟩ :=
    (h₄ ▸ relinked_attach t₃ holder [child]).exists_get? he'
  rw [h₃] at he₃
  obtain ⟨e₂, he₂, rfl⟩ := (changedBy_rename hwl₂ child name).exists_of_get? he₃
  rw [h₂] at he₂
  obtain ⟨e₁, he₁, rfl⟩ := (changedBy_modify t₁ child f).exists_of_get? he₂
  obtain ⟨e, he, -, hcontent₁⟩ := (h₁ ▸ relinked_detach hc).exists_get? he₁
  refine ⟨e, e₁, _, he, hcontent₁, rfl, hcontent₄, ?_⟩
  rw [Element.imports_eq_of_content_eq hcontent₄, imports_renamedElement]
  refine List.map_congr_left fun i _ => ?_
  rw [renamedImport, ← h₃, hkeep]

/-- A property that is taken out and put back under another name holds nothing
    that is imported. -/
theorem Stable.tidy_reinsert (h : Stable t) (hc : child ∈ t.children holder)
    (hkind : t.kind? child = some .property) (ha : Attached t holder)
    (hname : name ≠ "") (hf : ∀ e, Element.Trimmed e (f e))
    (h₁ : t₁ = (t.detach holder child).2) (h₂ : t₂ = t₁.modify child f)
    (h₃ : t₃ = t₂.rename child name) (h₄ : t₄ = t₃.attach holder [child])
    (hi : Insertable t₃ .properties holder [child])
    (hx : ∀ e, t.get? x = some e → Tidy n t e.imports) {e' : Element}
    (he' : t₄.get? x = some e') : Tidy n t₄ e'.imports := by
  have hwl := h.toWellLinked
  obtain ⟨hstable, hcarries⟩ := h.reinsert hc ha hname hf h₁ h₂ h₃ h₄ hi
  obtain ⟨e, e₁, e₂, he, hcontent, rfl, -, himports⟩ :=
    hwl.exists_reinserted hc hkind hf h₁ h₂ h₃ h₄ he'
  have htrim : List.Sublist (if x = child then f e₁ else e₁).imports e.imports := by
    rw [← Element.imports_eq_of_content_eq hcontent]
    exact (Element.Trimmed.ite hf _ e₁).imports_sublist
  rw [himports]
  exact (((hx e he).sublist htrim).showNames (unbound_shownName child name)).carry
    hwl
    hstable.toWellLinked hcarries fun i _ d _ hd =>
      hwl.sameAbove_reinsert hc hkind hf h₁ h₂ h₃ h₄ hi hd

end reinsert

end step

/-- A step keeps the imports of every element tidy. -/
theorem Tidy.step (h : Stable t) (hn : n ≤ t.size) (hstep : Step K n t t')
    {x : ElementId} (hx : ∀ e, t.get? x = some e → Tidy n t e.imports)
    {e' : Element} (he' : t'.get? x = some e') : Tidy n t' e'.imports := by
  cases hstep with
  | amend hf => exact h.tidy_amend hf hx he'
  | retype hf => exact h.tidy_amend hf hx he'
  | @rename id name f hname hroot hf =>
      refine (h.rename hname hroot).tidy_amend
        (fun e _ => amended_of_trimmed (hf e)) (fun e₁ he₁ => ?_) he'
      obtain ⟨e, he, rfl⟩ :=
        (changedBy_rename h.toWellLinked id name).exists_of_get? he₁
      rw [imports_renamedElement]
      exact (hx e he).rename h.toWellLinked id name
  | @create e k hparent hchildren htoken himports =>
      rw [get?_push] at he'
      by_cases hxn : x = t.nextId
      · rw [if_pos hxn] at he'
        rw [← Option.some.inj he', himports]
        exact ⟨Consistent.nil _, fun i hi => absurd hi List.not_mem_nil⟩
      · rw [if_neg hxn] at he'
        exact h.tidy_push hn hparent hchildren htoken (hx e' he')
  | @attach slot holder ids hi hids =>
      obtain ⟨e, he, -, hcontent⟩ := (relinked_attach t holder ids).exists_get? he'
      rw [Element.imports_eq_of_content_eq hcontent]
      exact h.tidy_attach hi hids (hx e he)
  | move hc ha ha' hi hf => exact h.tidy_move hc ha ha' hi hf rfl rfl rfl rfl hx he'
  | reinsert hc hkind ha hname hf hi =>
      exact h.tidy_reinsert hc hkind ha hname hf rfl rfl rfl rfl hi hx he'

theorem tidy_nil (n : Nat) (t : Tree) : Tidy n t [] :=
  ⟨Consistent.nil t, fun _ hi => absurd hi List.not_mem_nil⟩

theorem tidy_imports_iff {x : ElementId} :
    Tidy n t (t.imports x) ↔ ∀ e, t.get? x = some e → Tidy n t e.imports := by
  rw [imports]
  cases t.get? x with
  | none => simp [tidy_nil]
  | some e => simp

/-- Steps keep the imports of every element tidy. -/
theorem Tidy.steps (h : Stable t) (hn : n ≤ t.size) (hsteps : Steps K n t t')
    {x : ElementId} (hx : Tidy n t (t.imports x)) : Tidy n t' (t'.imports x) := by
  induction hsteps with
  | refl => exact hx
  | tail hsteps hstep ih =>
      obtain ⟨hs, hc⟩ := h.steps hsteps
      refine tidy_imports_iff.mpr fun e' he' => ?_
      exact Tidy.step hs (Nat.le_trans hn hc.size_le) hstep
        (tidy_imports_iff.mp ih) he'

/-- Beyond the arena there are no imports. -/
theorem imports_eq_nil_of_size_le {x : ElementId} (hx : t.size ≤ x.index) :
    t.imports x = [] := by
  rw [imports, get?_eq_none_of_size_le hx]
  rfl

/-- Imports of what sits below the root are bound to attached elements. -/
theorem Stable.attached_of_target? (h : Stable t) {x : ElementId}
    (hx : Ancestor t t.root x) {i : Import} (hi : i ∈ t.imports x) {d : ElementId}
    (hd : i.target? = some d) : Attached t d := by
  rw [imports] at hi
  cases he : t.get? x with
  | none =>
      rw [he] at hi
      exact absurd hi List.not_mem_nil
  | some e =>
      rw [he] at hi
      exact ((h.fit x hx e he).2 d (Element.mem_targets_of_target? hi hd)).1

/-- Whether all imports are consistent can be looked up. -/
theorem WellLinked.importsConsistent (hwl : WellLinked t)
    (h : ∀ x < t.size, t.isAttached ⟨x⟩ = true → Consistent t (t.imports ⟨x⟩)) :
    ImportsConsistent t :=
  fun x hx => h x.index (hwl.index_lt_of_attached hx) (hwl.isAttached_iff.mpr hx)

end Tree

namespace Pipeline

open CodeModel.Tree

variable {t t' : Tree} {u : Unit}

/-- Imports never go stale: whatever the passes of a pipeline, their order and
    their parameters, if it succeeds on a well-formed tree in which the imports
    of everything attached are consistent and those of the root are bound to
    elements of the tree, the imports of everything attached are consistent
    afterwards. So are those of an element that is not attached, if they were
    and were bound to elements of the tree. -/
theorem importsConsistent_of_run {p : Pipeline} (hwf : WellFormed t)
    (hconsistent : ImportsConsistent t)
    (hroot : ∀ i ∈ t.imports t.root, ∀ d ∈ i.target?, d.index < t.size)
    (hrun : p.run.run t = .ok u t') :
    ImportsConsistent t' ∧ ∀ x, Tidy t.size t (t.imports x) →
      Consistent t' (t'.imports x) := by
  obtain ⟨h, hsteps⟩ := steps_of_run hwf hrun
  have hkeep : ∀ x, Tidy t.size t (t.imports x) → Consistent t' (t'.imports x) :=
    fun x hx =>
      (Tidy.steps h (Nat.le_refl _) hsteps hx).consistent
  refine ⟨fun x hx => hkeep x ?_, hkeep⟩
  -- An element that is attached at the end was so at the start, or is new and
  -- without imports then.
  rcases attached_of_steps h hsteps hx with hattached | hnew
  · refine ⟨hconsistent x hattached, fun i hi d hd => ?_⟩
    rcases hattached with rfl | hbelow
    · exact Or.inl (hroot i hi d hd)
    · exact Or.inr (h.attached_of_target? hbelow hi hd)
  · rw [imports_eq_nil_of_size_le hnew]
    exact tidy_nil _ t

/-- A tree with a class in a namespace and three classes that import it: one
    attached, one not, and one not attached with an import that is out of
    date. -/
def importingClasses : Tree :=
  Operation.runAll
    [.addNamespace ⟨0⟩ "shop",
      .addNew .classes ⟨1⟩ (.classDecl "Order" .model),
      .addNew .classes ⟨0⟩ (.classDecl "Client" .custom),
      .addImports ⟨3⟩ [.ofSymbol "shop" (.declared "Order" ⟨2⟩)],
      .create (.classDecl "Draft" .custom),
      .addImports ⟨4⟩ [.ofSymbol "shop" (.declared "Order" ⟨2⟩)],
      .create (.classDecl "Relic" .custom),
      .addImports ⟨5⟩ [.ofSymbol "shop" (.declared "Order" ⟨2⟩),
        .ofSymbol "store" (.declared "Order" ⟨2⟩)]]
    initial

/-- A tree with a property of a union type and an import of the root that is
    bound to the place where the wrapper of the union will be made. -/
def forestalledWrapper : Tree :=
  Operation.runAll
    [.addNew .classes ⟨0⟩ (.classDecl "Client" .custom),
      .addNew .properties ⟨1⟩
        (.property "value" .custom
          (.union "Value" [.external "string", .external "int"])),
      .addImports ⟨0⟩ [.ofSymbol "values" (.declared "Value" ⟨3⟩)]]
    initial

theorem wellFormed_importingClasses : WellFormed importingClasses :=
  (Operation.fullyNamed_runAll _ fullyNamed_initial).wellFormed

theorem wellFormed_forestalledWrapper : WellFormed forestalledWrapper :=
  (Operation.fullyNamed_runAll _ fullyNamed_initial).wellFormed

theorem importsConsistent_importingClasses : ImportsConsistent importingClasses :=
  wellFormed_importingClasses.toWellLinked.importsConsistent (by decide +kernel)

theorem importsConsistent_forestalledWrapper :
    ImportsConsistent forestalledWrapper :=
  wellFormed_forestalledWrapper.toWellLinked.importsConsistent (by decide +kernel)

/-- Capitalizing a namespace reaches the imports of what it holds, also those of
    a detached class. -/
theorem importsConsistent_of_run_importingClasses :
    ∃ t', (⟨.csharp, [.capitalizeNamespaces]⟩ : Pipeline).run.run importingClasses
      = .ok () t'
      ∧ ImportsConsistent t' ∧ Consistent t' (t'.imports ⟨4⟩)
      ∧ t'.imports ⟨3⟩ = [.ofSymbol "Shop" (.declared "Order" ⟨2⟩)]
      ∧ t'.imports ⟨4⟩ = [.ofSymbol "Shop" (.declared "Order" ⟨2⟩)] := by
  obtain ⟨t', hrun, hclient, hdraft⟩ :
      ∃ t', (⟨.csharp, [.capitalizeNamespaces]⟩ : Pipeline).run.run importingClasses
        = .ok () t'
        ∧ t'.imports ⟨3⟩ = [.ofSymbol "Shop" (.declared "Order" ⟨2⟩)]
        ∧ t'.imports ⟨4⟩ = [.ofSymbol "Shop" (.declared "Order" ⟨2⟩)] :=
          exists_eq_ok (by decide +kernel)
  have hroot : ∀ i ∈ importingClasses.imports importingClasses.root,
    ∀ d ∈ i.target?,
      d.index < importingClasses.size := by decide +kernel
  have htidy : Tidy importingClasses.size importingClasses
      (importingClasses.imports ⟨4⟩) := by
    have hbound : ∀ i ∈ importingClasses.imports ⟨4⟩, ∀ d ∈ i.target?,
        d.index < importingClasses.size := by decide +kernel
    exact ⟨by decide +kernel, fun i hi d hd => Or.inl (hbound i hi d hd)⟩
  obtain ⟨hconsistent, hdetached⟩ :=
    importsConsistent_of_run wellFormed_importingClasses
      importsConsistent_importingClasses hroot hrun
  exact ⟨t', hrun, hconsistent, hdetached ⟨4⟩ htidy, hclient, hdraft⟩

/-- A run may make two imports of a detached class the same, where one was out
    of date, and may put a declaration in the place that an import of the root
    was bound to. -/
theorem not_importsConsistent_of_run :
    (∃ t', (⟨.csharp, [.capitalizeNamespaces]⟩ : Pipeline).run.run importingClasses
      = .ok () t'
      ∧ WellFormed importingClasses ∧ ImportsConsistent importingClasses
      ∧ (∀ x < importingClasses.size,
        Import.Distinct (importingClasses.imports ⟨x⟩))
      ∧ ¬ Import.Distinct (t'.imports ⟨5⟩))
    ∧ ∃ t', (⟨.java, [.wrapUnions .siblingClasses]⟩ : Pipeline).run.run
      forestalledWrapper = .ok () t'
      ∧ WellFormed forestalledWrapper ∧ ImportsConsistent forestalledWrapper
      ∧ (∀ x < forestalledWrapper.size,
        Import.Distinct (forestalledWrapper.imports ⟨x⟩))
      ∧ ¬ ImportsConsistent t' := by
  constructor
  · obtain ⟨t', hrun, hrepeated⟩ :
        ∃ t', (⟨.csharp, [.capitalizeNamespaces]⟩ : Pipeline).run.run
          importingClasses = .ok () t'
          ∧ ¬ Import.Distinct (t'.imports ⟨5⟩) := exists_eq_ok (by decide +kernel)
    refine ⟨t', hrun, wellFormed_importingClasses,
      importsConsistent_importingClasses, ?_, hrepeated⟩
    decide +kernel
  · obtain ⟨t', hrun, himports, hdecl, hname⟩ :
        ∃ t', (⟨.java, [.wrapUnions .siblingClasses]⟩ : Pipeline).run.run
          forestalledWrapper = .ok () t'
          ∧ t'.imports t'.root = [.ofSymbol "values" (.declared "Value" ⟨3⟩)]
          ∧ t'.isDeclaration ⟨3⟩ = true ∧ t'.importName ⟨3⟩ = "Value" :=
            ⟨_, rfl, rfl, rfl, rfl⟩
    refine ⟨t', hrun, wellFormed_forestalledWrapper,
      importsConsistent_forestalledWrapper, ?_, fun h => ?_⟩
    · decide +kernel
    · have hnamed := (h t'.root (Or.inl rfl)).named
      rw [himports] at hnamed
      have hstale := hnamed _ (List.mem_singleton_self _) ⟨3⟩ rfl hdecl
      rw [hname] at hstale
      exact absurd hstale (by decide)

end Pipeline

end CodeModel
