import CodeModel.Proofs.CheckingPasses
import CodeModel.Proofs.NamingPasses
import CodeModel.Proofs.PipelineSteps
import Mathlib.Data.List.DropRight

/-!
# Names of siblings

Elements that join a holder are compared with those that it has. A new name is
compared with nothing, and neither is a new signature. So whether a refined tree
has siblings that collide is settled by the names that the passes give, from the
last pass on that moves or makes elements: these give every element the face of
`Configuration.plannedFaces`, and what comes after them is checked.

Main statements: `siblingsApart_iff_of_refine`, the refined tree has no siblings
that collide exactly when the planned faces do not, and
`exists_collision_of_refine`, they do for some tree without such siblings.
-/

namespace CodeModel

open CodeModel.Tree

namespace Pass

/-- Whether the pass moves elements, or makes others than constructors. -/
def restructures : Pass → Bool
  | moveIntoNamesakes | wrapUnions _ | flattenInheritance | nestQueryClasses => true
  | _ => false

end Pass

namespace Pipeline

variable {t t' : Tree} {u : Unit} {language : Language}

/-- The tree that a list of passes leaves, whether or not one of them was
    refused. -/
def treeAfter (language : Language) (passes : List Pass) (t : Tree) : Tree :=
  match (passes.forM (runPass language)).run t with
  | .ok _ t' => t'
  | .error _ t' => t'

/-- Where the passes run, the tree after them is the one that they give. -/
theorem treeAfter_eq {passes : List Pass}
    (hrun : (passes.forM (runPass language)).run t = .ok u t') :
    treeAfter language passes t = t' := by
  rw [treeAfter, hrun]

/-- Passes that keep every element in its place lead from labels to what they
    make of them. -/
theorem labelled_of_forM {passes : List Pass} {L : Labels} {s s' : Tree}
    (h : Labelled t L s) (hwl : WellLinked t)
    (hkeeps : ∀ pass ∈ passes, pass.keepsPlaces = true)
    (hrun : (passes.forM (runPass language)).run s = .ok u s') :
    Labelled t (passes.foldl (fun L pass => L.after t pass (t.descendants t.root))
      L) s' := by
  induction passes generalizing L s with
  | nil =>
      rw [run_forM_nil_eq_ok_iff] at hrun
      rw [hrun]
      exact h
  | cons pass rest ih =>
      obtain ⟨s₁, hfirst, hrest⟩ := run_forM_cons_eq_ok_iff.mp hrun
      have hone := h.apply hwl (hkeeps pass List.mem_cons_self) hfirst
      exact ih hone
        (fun pass hpass => hkeeps pass (List.mem_cons_of_mem _ hpass)) hrest

/-- Constructors make no collision and end none. -/
theorem apartAt_iff_of_constructors {passes : List Pass} (h : Stable t) (hpasses :
      ∀ pass ∈ passes, ∃ inheritingToo, pass = .addConstructors inheritingToo)
    (hrun : (passes.forM (runPass language)).run t = .ok u t') (x : ElementId) :
    t'.ApartAt x ↔ t.ApartAt x := by
  induction passes generalizing t with
  | nil => rw [run_forM_nil_eq_ok_iff.mp hrun]
  | cons pass rest ih =>
      obtain ⟨s, hfirst, hrest⟩ := run_forM_cons_eq_ok_iff.mp hrun
      obtain ⟨inheritingToo, rfl⟩ := hpasses pass List.mem_cons_self
      have hs := (Pass.stable_apply _ h hfirst).1
      rw [ih hs
        (fun pass hpass => hpasses pass (List.mem_cons_of_mem _ hpass)) hrest]
      exact apartAt_iff_of_addConstructors h.toWellLinked hfirst x

end Pipeline

/-! ## The stretches of a pipeline -/

namespace Configuration

/-- The passes up to the last that moves or makes elements. -/
def structuralPasses (c : Configuration) : List Pass :=
  c.passes.rdropWhile fun pass => !pass.restructures

/-- The passes after these that keep every element in its place. -/
def namingPasses (c : Configuration) : List Pass :=
  (c.passes.rtakeWhile fun pass => !pass.restructures).takeWhile Pass.keepsPlaces

/-- The passes that come last. -/
def closingPasses (c : Configuration) : List Pass :=
  (c.passes.rtakeWhile fun pass => !pass.restructures).dropWhile Pass.keepsPlaces

/-- The passes of a configuration are those that build and move, those that
    name, and those that close. -/
theorem passes_eq_append (c : Configuration) :
    c.passes = c.structuralPasses ++ (c.namingPasses ++ c.closingPasses) := by
  show c.passes = c.passes.rdropWhile _
    ++ (List.takeWhile _ (c.passes.rtakeWhile _) ++ List.dropWhile _ _)
  rw [List.takeWhile_append_dropWhile]
  show c.passes = (c.passes.reverse.dropWhile _).reverse
    ++ (c.passes.reverse.takeWhile _).reverse
  rw [← List.reverse_append, List.takeWhile_append_dropWhile, List.reverse_reverse]

/-- Passes that name keep every element in its place. -/
theorem keepsPlaces_of_mem_namingPasses {c : Configuration} {pass : Pass}
    (h : pass ∈ c.namingPasses) : pass.keepsPlaces = true :=
  List.mem_takeWhile_imp h

/-- The passes that come last tell properties from their classes, if the target
    is C#, and add constructors. -/
theorem closingPasses_eq (c : Configuration) :
    ∃ constructors, c.closingPasses =
        (if c.language = .csharp then [.disambiguateProperties "_prop"] else [])
          ++ constructors
      ∧ ∀ pass ∈ constructors, ∃ inheritingToo,
        pass = .addConstructors inheritingToo := by
  have hone : ∀ b, ∀ pass ∈ [Pass.addConstructors b], ∃ inheritingToo,
      pass = .addConstructors inheritingToo :=
    fun b pass hpass => ⟨b, List.mem_singleton.mp hpass⟩
  have hnone : ∀ pass ∈ ([] : List Pass), ∃ inheritingToo,
      pass = .addConstructors inheritingToo :=
    fun pass hpass => absurd hpass List.not_mem_nil
  have hclosing : ∀ passes, c.passes = passes → c.closingPasses =
      (passes.rtakeWhile fun pass => !pass.restructures).dropWhile
        Pass.keepsPlaces := by
    rintro _ rfl
    rfl
  cases hl : c.language with
  | csharp =>
      refine ⟨_, ?_, hone false⟩
      rw [hclosing c.csharpPasses (by rw [passes, hl]), csharpPasses, flattening,
        asyncSuffix]
      cases c.flattensInheritance <;> cases c.usesNativeAsync <;> rfl
  | java =>
      refine ⟨_, ?_, hone true⟩
      rw [hclosing c.javaPasses (by rw [passes, hl]), javaPasses, flattening,
        asyncSuffix]
      cases c.flattensInheritance <;> cases c.usesNativeAsync <;> rfl
  | typescript =>
      refine ⟨_, ?_, hnone⟩
      rw [hclosing c.typescriptPasses (by rw [passes, hl]), typescriptPasses,
        flattening, asyncSuffix]
      cases c.flattensInheritance <;> cases c.usesNativeAsync <;> rfl
  | go =>
      refine ⟨_, ?_, hone true⟩
      rw [hclosing c.goPasses (by rw [passes, hl]), goPasses, flattening,
        asyncSuffix]
      cases c.flattensInheritance <;> cases c.usesNativeAsync <;> rfl

/-! ## Planned faces -/

/-- The tree that the passes leave which move or make elements. -/
def structured (c : Configuration) (t : Tree) : Tree :=
  Pipeline.treeAfter c.language c.structuralPasses t

/-- The labels that the passes after these give. -/
def plannedLabels (c : Configuration) (m : Tree) : Labels :=
  c.namingPasses.foldl
    (fun L pass => L.after m pass (m.descendants m.root)) m.labels

/-- The property of a class that is then told from it, and so compared with the
    other members. -/
def toldProperty? (c : Configuration) (m : Tree) (holder : ElementId) :
    Option ElementId :=
  if c.language = .csharp ∧ holder ∈ m.descendants m.root then
    (m.childrenOfKind holder .property).find? fun p =>
      (c.plannedLabels m).name p = (c.plannedLabels m).name holder
  else none

/-- The faces that the passes give to the elements of a holder, but for the
    property told from it. -/
def plannedFaces (c : Configuration) (m : Tree) (holder : ElementId) : List Face :=
  ((m.children holder).filter fun x => some x ≠ c.toldProperty? m holder).filterMap
    (m.faceUnder? (c.plannedLabels m))

/-- No holder is to hold faces that collide. -/
def PlannedApart (c : Configuration) (m : Tree) : Prop :=
  ∀ holder, Face.Apart (c.plannedFaces m holder)

variable {c : Configuration} {m s t t' : Tree} {u : Unit}

/-- Only the holders of the arena are to be looked at. -/
theorem plannedApart_iff (c : Configuration) (m : Tree) :
    c.PlannedApart m ↔ ∀ holder ∈ m.ids, Face.Apart (c.plannedFaces m holder) := by
  constructor
  · exact fun h holder _ => h holder
  · intro h holder
    cases he : m.get? holder with
    | none =>
        rw [plannedFaces, children, he]
        exact List.Pairwise.nil
    | some e =>
        exact h holder (List.mem_map.mpr
          ⟨holder.index, List.mem_range.mpr (index_lt_of_get? he), rfl⟩)

instance (c : Configuration) (m : Tree) : Decidable (c.PlannedApart m) :=
  decidable_of_iff _ (c.plannedApart_iff m).symm

/-- In a tree that shows the planned labels the faces of a holder are the
    planned ones. -/
theorem facesBut_eq_plannedFaces (h : Labelled m (c.plannedLabels m) s)
    (hlanguage : c.language = .csharp) (holder : ElementId) :
    s.facesBut holder
      (if holder ∈ s.descendants s.root then s.namesakeProperty? holder else none) =
      c.plannedFaces m holder := by
  have hnamesake : s.namesakeProperty? holder
      = (m.childrenOfKind holder .property).find? fun p =>
      (c.plannedLabels m).name p = (c.plannedLabels m).name holder := by
    have hname : ∀ {x}, (s.get? x).isSome →
        s.name? x = some ((c.plannedLabels m).name x) := by
      intro x hx
      obtain ⟨e, he⟩ := Option.isSome_iff_exists.mp hx
      rw [name?, he, Option.map_some, h.name_eq x e he]
    rw [namesakeProperty?, h.places.childrenOfKind_eq]
    refine List.find?_congr fun p hp => ?_
    obtain ⟨hc, -⟩ := List.mem_filter.mp hp
    rw [← h.places.children_eq] at hc
    obtain ⟨e, he, -⟩ := mem_children_iff_exists.mp hc
    obtain ⟨d, hd, -⟩ := h.wellLinked.exists_of_mem_children hc
    rw [hname (by rw [hd]; rfl), hname (by rw [he]; rfl)]
    simp
  have htold :
      (if holder ∈ s.descendants s.root then s.namesakeProperty? holder else none)
        = c.toldProperty? m holder := by
    rw [toldProperty?, hnamesake, h.places.root_eq, h.places.descendants_eq]
    simp [hlanguage]
  rw [htold, facesBut, plannedFaces, h.places.children_eq, funext h.face?_eq]

/-- A holder of a refined tree is apart exactly when its planned faces are. -/
theorem apartAt_iff_of_refine (hwf : WellFormed t)
    (hrun : (refine c).run t = .ok u t') (holder : ElementId) :
    t'.ApartAt holder ↔ Face.Apart (c.plannedFaces (c.structured t) holder) := by
  have hpipeline := run_of_refine hrun
  obtain ⟨h, -⟩ := Pipeline.steps_of_run hwf hpipeline
  obtain ⟨-, hpasses⟩ := Pipeline.run_eq_ok_iff.mp hpipeline
  have hsplit : (c.structuralPasses ++ (c.namingPasses ++ c.closingPasses))
      = (Pipeline.ofConfiguration c).passes :=
    c.passes_eq_append.symm
  rw [← hsplit, Pipeline.run_forM_append_eq_ok_iff] at hpasses
  obtain ⟨m, hstructural, hpasses⟩ := hpasses
  obtain ⟨s, hnaming, hclosing⟩ := Pipeline.run_forM_append_eq_ok_iff.mp hpasses
  have hm : Stable m := (Pipeline.stable_of_forM h hstructural).1
  have hs : Stable s := (Pipeline.stable_of_forM hm hnaming).1
  have hstructured : c.structured t = m := Pipeline.treeAfter_eq hstructural
  rw [hstructured]
  have hlabelled : Labelled m (c.plannedLabels m) s :=
    Pipeline.labelled_of_forM (labelled_labels hm.toWellLinked) hm.toWellLinked
      (fun pass hpass => keepsPlaces_of_mem_namingPasses hpass) hnaming
  obtain ⟨constructors, hclosing_eq, hconstructors⟩ := c.closingPasses_eq
  rw [hclosing_eq] at hclosing
  by_cases hlanguage : c.language = .csharp
  · -- The property that bears the name of its class is compared with the others.
    rw [if_pos hlanguage] at hclosing
    obtain ⟨s', hfirst, hrest⟩ := Pipeline.run_forM_cons_eq_ok_iff.mp hclosing
    have hs' : Stable s' := (Pass.stable_apply _ hs hfirst).1
    rw [Pipeline.apartAt_iff_of_constructors hs' hconstructors hrest,
      apartAt_iff_of_disambiguateProperties hs hfirst,
      facesBut_eq_plannedFaces hlabelled hlanguage]
  · rw [if_neg hlanguage, List.nil_append] at hclosing
    have htold : c.toldProperty? m holder = none := if_neg fun h => hlanguage h.1
    have hplanned : c.plannedFaces m holder = s.faces holder := by
      rw [hlabelled.faces_eq, plannedFaces, htold]
      congr 1
      exact List.filter_eq_self.mpr fun x _ => rfl
    rw [Pipeline.apartAt_iff_of_constructors hs hconstructors hclosing,
      apartAt_iff, hplanned]

/-- A refined tree has no siblings that collide exactly when the planned faces
    do not: the faces of the elements under the names that the passes give after
    the last of them that moves or makes elements. Only the property that bears
    the name of its class is looked at again. -/
theorem siblingsApart_iff_of_refine (hwf : WellFormed t)
    (hrun : (refine c).run t = .ok u t') :
    t'.SiblingsApart ↔ c.PlannedApart (c.structured t) :=
  forall_congr' fun holder => apartAt_iff_of_refine hwf hrun holder

/-- A target without native asynchronous methods and with few keywords. -/
def suffixing : Configuration where
  language := .go
  nativeAsync := some false

/-- A client with an asynchronous method and a property of a reserved name. -/
def keywordClient : Tree :=
  Operation.runAll
    [.addNew .classes ⟨0⟩ (.classDecl "Client" .requestBuilder),
      .addNew .methods ⟨1⟩
        (.asynchronous (.method "get" .requestExecutor (.external "string"))),
      .addNew .properties ⟨1⟩ (.property "type" .custom (.external "string"))]
    initial

theorem wellFormed_keywordClient : WellFormed keywordClient :=
  (Operation.fullyNamed_runAll _ fullyNamed_initial).wellFormed

/-- The members of the client get names that no other member has. -/
theorem siblingsApart_of_refine_keywordClient :
    ∃ t', (refine suffixing).run keywordClient = .ok () t'
      ∧ (t'.children ⟨1⟩).map t'.name? = [some "getAsync", some "typeEscaped"]
      ∧ t'.SiblingsApart := by
  obtain ⟨t', hrun, hnames⟩ :
      ∃ t', (refine suffixing).run keywordClient = .ok () t'
        ∧ (t'.children ⟨1⟩).map t'.name? = [some "getAsync", some "typeEscaped"] :=
    Pipeline.exists_eq_ok (by decide +kernel)
  have hplanned : suffixing.PlannedApart (suffixing.structured keywordClient) := by
    decide +kernel
  exact ⟨t', hrun, hnames,
    (siblingsApart_iff_of_refine wellFormed_keywordClient hrun).mpr hplanned⟩

/-- A client with an asynchronous method and one that bears the name which the
    other will get. -/
def suffixedClient : Tree :=
  Operation.runAll
    [.addNew .classes ⟨0⟩ (.classDecl "Client" .requestBuilder),
      .addNew .methods ⟨1⟩
        (.asynchronous (.method "get" .requestExecutor (.external "string"))),
      .addNew .methods ⟨1⟩ (.method "getAsync" .custom (.external "string"))]
    initial

/-- Refining can make siblings collide: the suffix for asynchronous methods
    gives a method the name of the method beside it. -/
theorem exists_collision_of_refine :
    WellFormed suffixedClient ∧ suffixedClient.validateReferences = .ok ()
      ∧ suffixedClient.SiblingsApart
      ∧ suffixing.validate = .ok ()
      ∧ ∃ t', (refine suffixing).run suffixedClient = .ok () t'
      ∧ ¬ t'.SiblingsApart := by
  have hwf : WellFormed suffixedClient :=
    (Operation.fullyNamed_runAll _ fullyNamed_initial).wellFormed
  have hrun : ∃ t', (refine suffixing).run suffixedClient = .ok () t'
      ∧ ¬ t'.SiblingsApart :=
    Pipeline.exists_eq_ok (by decide +kernel)
  exact ⟨hwf, by decide +kernel, by decide +kernel, by decide +kernel, hrun⟩

end Configuration

end CodeModel
