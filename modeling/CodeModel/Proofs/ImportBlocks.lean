import CodeModel.Proofs.Amendments
import CodeModel.Proofs.ImportNames
import CodeModel.Tree.Operation
import Mathlib.Data.List.Induction

/-!
# Blocks of imports

A block of imports is a set that remembers an order: it grows at its end, by the
imports that bring in what nothing before them does. What an addition leaves out
it compares with the block as far as it has grown. Since to bring in the same is
an equivalence, it comes to the same to compare with all imports that stood
there or were given before, also with those that were left out themselves.

* **`sameImport_iff`**: when two imports bring in the same, by cases.
* **`additions`**: what is new in a list of imports, and `addImports_eq_append`:
  it is what a block grows by.
* **`RefusesImports`**: when imports are not taken, and why.

Main statement: `run_addImports_exact`, by which imports go to the end of the
block of a class or namespace, or leave no trace.
-/

namespace CodeModel

namespace Import

variable {a b i j : Import} {block new : List Import}

/-! ## What is the same -/

/-- Two symbols of modules of one name stand for the same: both for the module
    as a whole, both for one declaration, or both for what is known by one name
    alone. -/
inductive SameSymbol : Option TypeRef → Option TypeRef → Prop where
  | whole : SameSymbol none none
  | declaration {r s : TypeRef} {d : ElementId} (hr : r.definition? = some d)
      (hs : s.definition? = some d) : SameSymbol (some r) (some s)
  | named {r s : TypeRef} (hr : r.definition? = none) (hs : s.definition? = none)
      (hname : r.name = s.name) : SameSymbol (some r) (some s)

/-- Symbols stand for the same when the imports of them bring in the same
    subject. -/
theorem sameSymbol_iff :
    SameSymbol a.symbol b.symbol ↔ a.subject? = b.subject? := by
  rw [subject?, subject?]
  generalize a.symbol = x, b.symbol = y
  constructor
  · rintro (_ | ⟨hr, hs⟩ | ⟨hr, hs, hname⟩)
    · rfl
    · simp [hr, hs]
    · simp [hr, hs, hname]
  · intro h
    rcases x with _ | r <;> rcases y with _ | s
    · exact .whole
    · cases h
    · cases h
    · cases hr : r.definition? <;> cases hs : s.definition? <;> simp [hr, hs] at h
      · exact .named hr hs h
      · exact .declaration hr (h ▸ hs)

/-- Two imports are the same when they import from modules of one name and their
    symbols stand for the same. -/
theorem sameImport_iff :
    SameImport a b ↔ a.name = b.name ∧ SameSymbol a.symbol b.symbol := by
  rw [sameSymbol_iff]
  exact key_eq_iff

/-! ## What is new -/

/-- The imports of `new` that the block does not have: those that are the same
    neither as one of the block nor as one that stands before them in `new`. -/
def additions (block new : List Import) : List Import :=
  (new.zipIdx.filter fun p : Import × Nat =>
    ∀ j ∈ block ++ new.take p.2, ¬ SameImport j p.1).map Prod.fst

theorem additions_nil (block : List Import) : additions block [] = [] := rfl

/-- One more import is new if it is the same as none before it, and whether
    those before it are new does not depend on it. -/
theorem additions_append_singleton (block new : List Import) (i : Import) :
    additions block (new ++ [i]) =
      additions block new ++ if ∀ j ∈ block ++ new, ¬ SameImport j i then [i]
        else [] := by
  have hbefore : (new.zipIdx.filter fun p : Import × Nat =>
    ∀ j ∈ block ++ (new ++ [i]).take p.2, ¬ SameImport j p.1)
      = new.zipIdx.filter fun p : Import × Nat =>
        ∀ j ∈ block ++ new.take p.2, ¬ SameImport j p.1 := by
    refine List.filter_congr fun p hp => ?_
    have hlt : p.2 < new.length := by
      have := List.snd_lt_add_of_mem_zipIdx hp
      omega
    rw [List.take_append_of_le_length (Nat.le_of_lt hlt)]
  rw [additions, List.zipIdx_append, List.filter_append, List.map_append, hbefore]
  congr 1
  rw [List.zipIdx_singleton, Nat.zero_add, List.filter_singleton, List.take_left]
  by_cases hnew : ∀ j ∈ block ++ new, ¬ SameImport j i
  · rw [if_pos hnew, decide_eq_true hnew]
    rfl
  · rw [if_neg hnew, decide_eq_false hnew]
    rfl

/-- What is added to a block is left out exactly when it is the same as one
    before it. -/
theorem exists_sameImport_addImports_iff :
    (∃ j ∈ addImports block new, SameImport j i) ↔
      ∃ j ∈ block ++ new, SameImport j i := by
  constructor
  · rintro ⟨j, hj, hsame⟩
    exact ⟨j, List.mem_append.mpr (mem_addImports hj), hsame⟩
  · rintro ⟨j, hj, hsame⟩
    rcases List.mem_append.mp hj with hj | hj
    · exact ⟨j, mem_addImports_of_mem hj, hsame⟩
    · -- What was left out is the same as one that is there, which is then the same
      -- as this one.
      obtain ⟨k, hk, hkey⟩ : ∃ k ∈ addImports block new, k.key = j.key :=
        exists_mem_addImports_of_mem hj
      exact ⟨k, hk, sameImport_equivalence.trans hkey hsame⟩

/-- A block grows at its end, by what is new. -/
theorem addImports_eq_append (block new : List Import) :
    addImports block new = block ++ additions block new := by
  induction new using List.reverseRecOn with
  | nil => rw [additions_nil, List.append_nil]; rfl
  | append_singleton new i ih =>
      have hstep : addImports block (new ++ [i])
          = addImport (addImports block new) i := by
        rw [addImports, List.foldl_append]
        rfl
      rw [hstep, additions_append_singleton, ← List.append_assoc, ← ih]
      rcases addImport_eq (addImports block new) i with ⟨heq, hsome⟩ | ⟨heq, hnone⟩
      · obtain ⟨j, hj, hsame⟩ := exists_sameImport_addImports_iff.mp hsome
        rw [heq, if_neg fun h => h j hj hsame, List.append_nil]
      · have hnew : ∀ j ∈ block ++ new, ¬ SameImport j i := fun j hj hsame => by
          obtain ⟨k, hk, hsame'⟩ :=
            exists_sameImport_addImports_iff.mpr ⟨j, hj, hsame⟩
          exact hnone k hk hsame'
        rw [heq, if_pos hnew]

/-- What has been added once adds nothing. -/
theorem additions_addImports (block new : List Import) :
    additions (addImports block new) new = [] := by
  rw [additions, List.map_eq_nil_iff, List.filter_eq_nil_iff]
  intro p hp hall
  obtain ⟨k, hk, hkey⟩ : ∃ k ∈ addImports block new, k.key = p.1.key :=
    exists_mem_addImports_of_mem (List.fst_mem_of_mem_zipIdx hp)
  exact of_decide_eq_true hall k (List.mem_append_left _ hk) hkey

end Import

namespace Element

/-- Namespaces and classes have a block of imports. -/
theorem imports?_isSome_iff (e : Element) :
    e.imports?.isSome ↔ e.kind ∈ [.namespaceDecl, .classDecl] := by
  obtain ⟨name, parent, children, description, content⟩ := e
  cases content <;> simp [imports?, kind, Content.kind]

end Element

namespace Tree

variable {t : Tree} {target : ElementId} {new : List Import}

/-- Why a tree does not take imports: there are none, one has no name, there is
    nothing to take them, or it is neither a class nor a namespace. The first of
    these causes is given. -/
inductive RefusesImports (t : Tree) (target : ElementId) (new : List Import) :
    ModelError → Prop where
  | nothing (h : new = []) : RefusesImports t target new (.empty "usings")
  | unnamed {i : Import} (hi : i ∈ new) (h : i.name = "") :
      RefusesImports t target new (.empty "using name")
  | absent (hne : new ≠ []) (hnames : ∀ i ∈ new, i.name ≠ "")
      (h : t.get? target = none) : RefusesImports t target new (.missing "target")
  | blockless {e : Element} (hne : new ≠ []) (hnames : ∀ i ∈ new, i.name ≠ "")
      (he : t.get? target = some e) (h : e.kind ∉ [.namespaceDecl, .classDecl]) :
      RefusesImports t target new (.noImportBlock e.name)

end Tree

namespace Edit

open CodeModel.Tree

variable {t : Tree} {target : ElementId} {new : List Import}

/-- The block of a class or namespace grows by what is new. -/
theorem run_addImports_of_kind {e : Element} (he : t.get? target = some e)
    (hkind : e.kind ∈ [.namespaceDecl, .classDecl]) (hne : new ≠ [])
    (hnames : ∀ i ∈ new, i.name ≠ "") :
    (addImports target new).run t = .ok (Import.additions e.imports new).length
      (t.modify target (Element.mapImports fun _ =>
        e.imports ++ Import.additions e.imports new)) := by
  obtain ⟨block, hblock⟩ :=
    Option.isSome_iff_exists.mp (e.imports?_isSome_iff.mpr hkind)
  have himports : e.imports = block := by
    rw [Element.imports, hblock, Option.getD_some]
  rw [run_addImports_of_named hne hnames, he, himports]
  simp only [hblock, Import.addImports_eq_append, List.length_append,
    Nat.add_sub_cancel_left]

/-- An import without a name keeps the others out. -/
theorem run_addImports_of_unnamed {i : Import} (hi : i ∈ new)
    (hname : i.name = "") :
    (addImports target new).run t = .error (.empty "using name") t := by
  have hsome : ¬ new.isEmpty = true := fun h =>
    List.ne_nil_of_mem hi (List.isEmpty_iff.mp h)
  have hunnamed : (new.any fun i => i.name.isEmpty) = true :=
    List.any_eq_true.mpr ⟨i, hi, String.isEmpty_iff.mpr hname⟩
  simp only [addImports, changeWith, EStateM.run, if_neg hsome, if_pos hunnamed]

/-- Imports are refused for the first of the causes that there are, and change
    nothing then. -/
theorem run_addImports_eq_error_iff {err : ModelError} {t' : Tree} :
    (addImports target new).run t = .error err t' ↔
      t' = t ∧ RefusesImports t target new err := by
  constructor
  · intro h
    by_cases hne : new = []
    · subst hne
      obtain ⟨rfl, rfl⟩ := EStateM.Result.error.inj h
      exact ⟨rfl, .nothing rfl⟩
    by_cases hnames : ∀ i ∈ new, i.name ≠ ""
    · rw [run_addImports_of_named hne hnames] at h
      split at h
      next hnone =>
        obtain ⟨rfl, rfl⟩ := EStateM.Result.error.inj h
        exact ⟨rfl, .absent hne hnames hnone⟩
      next e he =>
        split at h
        next hblock =>
          obtain ⟨rfl, rfl⟩ := EStateM.Result.error.inj h
          refine ⟨rfl, .blockless hne hnames he ?_⟩
          rw [← e.imports?_isSome_iff, hblock]
          exact Bool.false_ne_true
        next => cases h
    · push Not at hnames
      obtain ⟨i, hi, hname⟩ := hnames
      rw [run_addImports_of_unnamed hi hname] at h
      obtain ⟨rfl, rfl⟩ := EStateM.Result.error.inj h
      exact ⟨rfl, .unnamed hi hname⟩
  · rintro ⟨rfl, h⟩
    cases h with
    | nothing h => rw [h]; rfl
    | unnamed hi h => exact run_addImports_of_unnamed hi h
    | absent hne hnames h => rw [run_addImports_of_named hne hnames, h]
    | blockless hne hnames he h =>
        rw [← Element.imports?_isSome_iff, Option.not_isSome_iff_eq_none] at h
        rw [run_addImports_of_named hne hnames, he]
        simp only [h]

/-- Imports that a block has already change nothing. -/
theorem run_addImports_again {e : Element} (he : t.get? target = some e)
    (hkind : e.kind ∈ [.namespaceDecl, .classDecl]) (hne : new ≠ [])
    (hnames : ∀ i ∈ new, i.name ≠ "")
    (hnothing : Import.additions e.imports new = []) :
    (addImports target new).run t = .ok 0 t := by
  have hkept : (t.modify target (Element.mapImports fun _ => e.imports)) = t := by
    refine eq_of_get?_eq rfl fun x => ?_
    rw [get?_modify]
    split
    next hx => rw [hx, he, Option.map_some, Element.mapImports_of_map_eq rfl]
    next => rfl
  rw [run_addImports_of_kind he hkind hne hnames, hnothing, List.append_nil, hkept]
  rfl

/-- To be the same import is an equivalence. A class or namespace takes every
    list of imports that is not empty and has a name for each: its block grows
    at its end by what is new in the list, in order, and as many are reported.
    Nothing else in the tree is changed, a block that says nothing twice still
    does not, and the same list once more changes nothing. Any other list is
    refused, for the first of the causes, and changes nothing either. -/
theorem run_addImports_exact (t : Tree) (target : ElementId) (new : List Import) :
    Equivalence Import.SameImport
      ∧ (∀ a b, Import.SameImport a b ↔
        a.name = b.name ∧ Import.SameSymbol a.symbol b.symbol)
      ∧ (∀ e, t.get? target = some e → e.kind ∈ [.namespaceDecl, .classDecl] →
          new ≠ [] → (∀ i ∈ new, i.name ≠ "") →
          ∃ t', (addImports target new).run t
            = .ok (Import.additions e.imports new).length t'
            ∧ t'.imports target = e.imports ++ Import.additions e.imports new
            ∧ ChangedBy (fun id e' => if id = target then
                e'.mapImports fun _ =>
                  e.imports ++ Import.additions e.imports new else e') t t'
            ∧ (Import.Distinct e.imports → Import.Distinct (t'.imports target))
            ∧ (addImports target new).run t' = .ok 0 t')
      ∧ ∀ err t', (addImports target new).run t = .error err t' ↔
        t' = t ∧ RefusesImports t target new err := by
  refine ⟨Import.sameImport_equivalence, fun _ _ => Import.sameImport_iff, ?_,
    fun _ _ => run_addImports_eq_error_iff⟩
  intro e he hkind hne hnames
  have hchanged := changedBy_modify t target
    (Element.mapImports fun _ => e.imports ++ Import.additions e.imports new)
  have hrun := run_addImports_of_kind he hkind hne hnames
  generalize t.modify target _ = t' at hchanged hrun
  obtain ⟨e', he', rfl⟩ : ∃ e', t'.get? target = some e'
      ∧ e' = e.mapImports fun _ => e.imports ++ Import.additions e.imports new := by
    refine ⟨_, ?_, rfl⟩
    rw [hchanged.get?_eq, he, Option.map_some, if_pos rfl]
  have hkind' :
      (e.mapImports fun _ => e.imports ++ Import.additions e.imports new).kind
      ∈ [.namespaceDecl, .classDecl] := by
    rwa [Element.kind_eq_of_frame_eq (Element.frame_mapImports _ e)]
  have himports :
      (e.mapImports fun _ => e.imports ++ Import.additions e.imports new).imports
      = Import.addImports e.imports new := by
    rw [Element.imports_mapImports, if_pos (e.imports?_isSome_iff.mpr hkind),
      Import.addImports_eq_append]
  have hblock : t'.imports target = Import.addImports e.imports new := by
    rw [imports, he', Option.map_some, Option.getD_some, himports]
  refine ⟨t', hrun, ?_, hchanged, fun hdistinct => ?_, ?_⟩
  · rw [hblock, Import.addImports_eq_append]
  · rw [hblock]
    exact Import.distinct_addImports hdistinct new
  · refine run_addImports_again he' hkind' hne hnames ?_
    rw [himports, Import.additions_addImports]

/-- A class that imports another one from a namespace, and has a property. -/
def importerOfOrder : Tree :=
  Operation.runAll
    [.addNamespace ⟨0⟩ "shop",
      .addNew .classes ⟨1⟩ (.classDecl "Order" .model),
      .addNew .classes ⟨0⟩ (.classDecl "Client" .custom),
      .addImports ⟨3⟩ [.ofSymbol "shop" (.declared "Order" ⟨2⟩)],
      .addNew .properties ⟨3⟩ (.property "order" .custom (.declared "Order" ⟨2⟩))]
    initial

/-- Of five imports two are new: not the one that is there, though it shows
    another name, and not what is given twice. What is known by the name of the
    class alone is not the class. A property takes none. -/
theorem run_addImports_exact_importerOfOrder :
    (∃ t', (addImports ⟨3⟩
      [.ofSymbol "shop" (.declared "Purchase" ⟨2⟩), .ofModule "shop",
          .ofSymbol "shop" (.external "Order"), .ofModule "shop",
            .ofSymbol "shop" (.external "Order")]).run
            importerOfOrder = .ok 2 t'
        ∧ t'.imports ⟨3⟩
          = [.ofSymbol "shop" (.declared "Order" ⟨2⟩), .ofModule "shop",
            .ofSymbol "shop" (.external "Order")]
        ∧ Import.Distinct (t'.imports ⟨3⟩))
      ∧ (addImports ⟨4⟩ [.ofModule "shop"]).run importerOfOrder
        = .error (.noImportBlock "order") importerOfOrder := by
  obtain ⟨client, hclient, hkind, himports⟩ : ∃ e, importerOfOrder.get? ⟨3⟩ = some e
    ∧ e.kind = .classDecl
      ∧ e.imports = [.ofSymbol "shop" (.declared "Order" ⟨2⟩)] := ⟨_, rfl, rfl, rfl⟩
  obtain ⟨property, hproperty, hname, hmember⟩ : ∃ e,
    importerOfOrder.get? ⟨4⟩ = some e ∧ e.name = "order"
      ∧ e.kind = .property := ⟨_, rfl, rfl, rfl⟩
  constructor
  · obtain ⟨t', hrun, hblock, -, hdistinct, -⟩ :=
      (run_addImports_exact importerOfOrder ⟨3⟩ _).2.2.1 client hclient
      (by rw [hkind]; decide)
        (List.cons_ne_nil (.ofSymbol "shop" (.declared "Purchase" ⟨2⟩))
        [.ofModule "shop", .ofSymbol "shop" (.external "Order"), .ofModule "shop",
          .ofSymbol "shop" (.external "Order")]) (by decide)
    rw [himports] at hrun hblock hdistinct
    exact ⟨t', hrun, hblock, hdistinct (List.pairwise_singleton _ _)⟩
  · rw [← hname]
    exact ((run_addImports_exact importerOfOrder ⟨4⟩ [.ofModule "shop"]).2.2.2 _
      _).mpr
      ⟨rfl, .blockless (by decide) (by decide) hproperty (by rw [hmember]; decide)⟩

end Edit

end CodeModel
