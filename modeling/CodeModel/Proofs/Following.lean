import CodeModel.Proofs.Counterparts
import CodeModel.Proofs.ImportNames
import CodeModel.Proofs.Labels

/-!
# What follows a change of names

A new name for an element, and a new place for a class, show elsewhere: a
reference shows the name of the declaration that it is bound to, and an import
the name that imports of its declaration carry. What follows one change and then
another follows the two of them at once, so after a traversal references and
imports can be told from the tree as it was and from the names of the tree that
is left.

* **`Import.nameBy`, `Element.follow`**: imports and references under the names
  that are told of declarations.
* **`importNameBelow?`**: the names told of what sits at or below the elements
  that have changed.
* **`renamedElement_eq_follow`, `refreshImport_eq_nameBy`**: a rename and a move
  in these terms.

Main statements: `Element.follow_follow`, and `importNameBelow?_step`, by which
one more element changes.
-/

namespace CodeModel

/-! ## One change and then another -/

mutual

/-- Names given one after another are given at once. -/
theorem TypeRef.rename_rename_eq (f g : TypeRef → String) :
    ∀ r : TypeRef, (r.rename f).rename g = r.rename fun s => g (s.rename f)
  | ⟨name, target, isNullable, isCollection⟩ => by
      simp only [TypeRef.rename, TypeTarget.rename_rename_eq f g target]

/-- Two renamings of a target are one. -/
theorem TypeTarget.rename_rename_eq (f g : TypeRef → String) :
    ∀ target : TypeTarget, (target.rename f).rename g = target.rename
      fun s => g (s.rename f)
  | .external => rfl
  | .declared _ => rfl
  | .union members => by
      simp only [TypeTarget.rename, TypeRef.renameAll_renameAll_eq f g members]

/-- Two renamings of a list are one, member by member. -/
theorem TypeRef.renameAll_renameAll_eq (f g : TypeRef → String) :
    ∀ rs : List TypeRef, TypeRef.renameAll g (TypeRef.renameAll f rs)
      = TypeRef.renameAll (fun s => g (s.rename f)) rs
  | [] => rfl
  | r :: rest => by
      simp only [TypeRef.renameAll, TypeRef.rename_rename_eq f g r,
        TypeRef.renameAll_renameAll_eq f g rest]

end

namespace TypeRef

/-- The name that a reference shows when `names` tells of declarations. -/
def shownBy (names : ElementId → Option String) (r : TypeRef) : String :=
  (r.definition?.bind names).getD r.name

/-- Of two renamings by declaration the later counts, where it tells of a
    name. -/
theorem rename_shownBy_shownBy (names names' : ElementId → Option String)
    (r : TypeRef) :
    (r.rename (shownBy names)).rename (shownBy names')
      = r.rename (shownBy fun d => (names' d).or (names d)) := by
  rw [rename_rename_eq]
  congr 1
  funext s
  rw [shownBy, shownBy, definition?_rename, name_rename, shownBy]
  cases hd : s.definition? with
  | none => rfl
  | some d => cases hn : names' d <;> simp [hn]

end TypeRef

namespace Import

/-- The import under the name that is told of its declaration, and as it is if
    none is. -/
def nameBy (told : ElementId → Option String) (i : Import) : Import :=
  match i.target?.bind told with
  | some name => { i with name }
  | none => i

/-- Where nothing is told, an import stays as it is. -/
theorem nameBy_none : nameBy (fun _ => none) = id := by
  funext i
  rw [nameBy, Option.bind_fun_none]
  rfl

/-- An import that gets another name keeps its symbol. -/
theorem symbol_nameBy (told : ElementId → Option String) (i : Import) :
    (i.nameBy told).symbol = i.symbol := by
  rw [nameBy]
  cases i.target?.bind told <;> rfl

theorem target?_nameBy (told : ElementId → Option String) (i : Import) :
    (i.nameBy told).target? = i.target? := by
  rw [target?, target?, symbol_nameBy]

/-- Of two namings the later counts, where it tells of a name. -/
theorem nameBy_nameBy (told told' : ElementId → Option String) (i : Import) :
    (i.nameBy told).nameBy told' = i.nameBy fun d => (told' d).or (told d) := by
  rw [nameBy, target?_nameBy, nameBy, nameBy]
  cases hd : i.target? with
  | none => rfl
  | some d => cases h' : told' d <;> cases h : told d <;> simp [h, h']

/-- The same holds of a whole block. -/
theorem map_nameBy_map_nameBy (told told' : ElementId → Option String)
    (block : List Import) :
    (block.map (nameBy told)).map (nameBy told')
      = block.map (nameBy fun d => (told' d).or (told d)) := by
  rw [List.map_map]
  exact List.map_congr_left fun i _ => nameBy_nameBy told told' i

/-- Naming an import and renaming its symbol do not touch one another. -/
theorem nameBy_mapSymbol_rename (told : ElementId → Option String)
    (f : TypeRef → String) (i : Import) :
    (i.nameBy told).mapSymbol (·.rename f) = (i.mapSymbol (·.rename f)).nameBy
      told := by
  have htarget : (i.mapSymbol (·.rename f)).target? = i.target? := by
    rw [target?, target?, mapSymbol]
    cases i.symbol with
    | none => rfl
    | some r => exact TypeRef.definition?_rename f r
  rw [nameBy, nameBy, htarget]
  cases i.target?.bind told <;> rfl

end Import

namespace Element

/-- The element with its references under the names that `names` tells of
    declarations, and its imports under those that `told` tells of them. -/
def follow (names told : ElementId → Option String) (e : Element) : Element :=
  (e.mapTypes (·.rename (TypeRef.shownBy names))).mapImports
    (·.map (Import.nameBy told))

/-- Two changes of types are one. -/
theorem mapTypes_mapTypes (f g : TypeRef → TypeRef) (e : Element) :
    (e.mapTypes f).mapTypes g = e.mapTypes fun r => g (f r) := by
  obtain ⟨name, parent, children, description, content⟩ := e
  cases content <;> simp [mapTypes, mapContent, Content.mapTypes, Import.mapSymbol,
    Function.comp_def]

/-- Two changes of imports are one. -/
theorem mapImports_mapImports (f g : List Import → List Import) (e : Element) :
    (e.mapImports f).mapImports g = e.mapImports fun l => g (f l) := by
  obtain ⟨name, parent, children, description, content⟩ := e
  cases content <;> rfl

/-- The names of imports and the names that their symbols show are changed in
    either order. -/
theorem mapTypes_mapImports_nameBy (told : ElementId → Option String)
    (f : TypeRef → String) (e : Element) :
    (e.mapImports (·.map (Import.nameBy told))).mapTypes (·.rename f)
      = (e.mapTypes (·.rename f)).mapImports (·.map (Import.nameBy told)) := by
  obtain ⟨name, parent, children, description, content⟩ := e
  cases content <;>
    simp [mapTypes, mapImports, mapContent, Content.mapTypes,
      Import.nameBy_mapSymbol_rename, Function.comp_def]

/-- What follows one change and then another follows both. Where the two tell of
    one declaration, the later holds. -/
theorem follow_follow (names told names' told' : ElementId → Option String)
    (e : Element) :
    (e.follow names told).follow names' told'
      = e.follow (fun d => (names' d).or (names d)) fun d =>
        (told' d).or (told d) := by
  have hnames : (fun r : TypeRef =>
    (r.rename (TypeRef.shownBy names)).rename (TypeRef.shownBy names'))
      = fun r => r.rename (TypeRef.shownBy fun d => (names' d).or (names d)) :=
    funext (TypeRef.rename_shownBy_shownBy names names')
  have htold : (fun block : List Import =>
    (block.map (Import.nameBy told)).map (Import.nameBy told'))
      = fun block => block.map (Import.nameBy fun d => (told' d).or (told d)) :=
    funext (Import.map_nameBy_map_nameBy told told')
  rw [follow, follow, follow, mapTypes_mapImports_nameBy, mapTypes_mapTypes,
    mapImports_mapImports, hnames, htold]

/-- An element can be named before or after it follows. -/
theorem follow_withName (names told : ElementId → Option String) (name : String)
    (e : Element) :
    (e.follow names told).withName name = (e.withName name).follow names told := by
  obtain ⟨oldName, parent, children, description, content⟩ := e
  cases content <;> rfl

/-- Its name on the wire can be noted before or after. -/
theorem follow_keepWireName (names told : ElementId → Option String) (name : String)
    (e : Element) :
    (e.follow names told).keepWireName name = (e.keepWireName name).follow names
      told := by
  obtain ⟨oldName, parent, children, description, content⟩ := e
  cases content <;> rfl

/-- An element that follows is what it was in every slot, under the names that
    are told. -/
theorem matches_follow {names told : ElementId → Option String}
    {shown : TypeRef → String → Prop} {named : Import → String → Prop}
    (hshown : ∀ r : TypeRef, shown r (r.shownBy names))
    (hnamed : ∀ i : Import, named i ((i.target?.bind told).getD i.name))
    (e : Element) :
    e.content.Matches (TypeRef.Matches shown fun d => d)
      (Import.Matches (TypeRef.Matches shown fun d => d) named)
      (fun a b => b = a) (fun a b => b = a) (e.follow names told).content := by
  have htypes : ∀ r : TypeRef,
      r.Matches shown (fun d => d) (r.rename (TypeRef.shownBy names)) :=
    TypeRef.matches_rename hshown
  have himport : ∀ i : Import, i.Matches (TypeRef.Matches shown fun d => d) named
      ((i.mapSymbol (·.rename (TypeRef.shownBy names))).nameBy told) := by
    intro i
    have hmatches := i.matches_mapSymbol htypes
    rw [← Import.nameBy_mapSymbol_rename]
    refine ⟨?_, ?_, ?_⟩
    · have hname : (i.nameBy told).name = (i.target?.bind told).getD i.name := by
        rw [Import.nameBy]
        cases i.target?.bind told <;> rfl
      exact hname ▸ hnamed i
    · rw [Import.mapSymbol, Import.symbol_nameBy]
      exact hmatches.symbol
    · rw [Import.mapSymbol, Import.nameBy]
      cases i.target?.bind told <;> rfl
  have himports : ∀ block : List Import,
      List.Forall₂ (Import.Matches (TypeRef.Matches shown fun d => d) named) block
        ((block.map (·.mapSymbol (·.rename (TypeRef.shownBy names)))).map
          (Import.nameBy told)) := by
    intro block
    rw [List.map_map]
    exact List.forall₂_map_right_iff.mpr
      (List.forall₂_same.mpr fun i _ => himport i)
  obtain ⟨name, parent, children, description, content⟩ := e
  -- The slots but for the imports are as a change of types leaves them.
  have hcontent := Content.matches_mapTypes htypes content
  cases content with
  | namespaceDecl block => exact .namespaceDecl (himports block)
  | classDecl c =>
      cases hcontent with
      | classDecl hkind htoken hinherits himplements _ hwire =>
          exact .classDecl hkind htoken hinherits himplements
            (himports c.imports) hwire
  | enumDecl options => exact .enumDecl options
  | method m => exact .method rfl rfl (htypes _)
  | property p => exact .property rfl (htypes _) rfl rfl
  | parameter p => exact .parameter rfl (htypes _) rfl
  | indexer i => exact .indexer (htypes _) (htypes _)

/-- What follows keeps its own name. -/
theorem name_follow (names told : ElementId → Option String) (e : Element) :
    (e.follow names told).name = e.name :=
  rfl

theorem frame_follow (names told : ElementId → Option String) (e : Element) :
    (e.follow names told).frame = e.frame := by
  rw [follow, frame_mapImports, frame_mapTypes]

/-- Where nothing is told, nothing follows. -/
theorem follow_none (e : Element) :
    e.follow (fun _ => none) (fun _ => none) = e := by
  have hshown : TypeRef.shownBy (fun _ => none) = fun r : TypeRef => r.name := by
    funext r
    rw [TypeRef.shownBy, Option.bind_fun_none]
    rfl
  rw [follow, hshown, mapTypes_rename_name, Import.nameBy_none]
  exact mapImports_of_map_eq (List.map_id _)

end Element

namespace Tree

variable {t s s' : Tree} {id d : ElementId} {moved moved' : ElementId → Bool}

/-! ## Names told of what sits below a change -/

/-- Whether an element is one of `moved` or sits below one. -/
def isBelowSome (t : Tree) (moved : ElementId → Bool) (d : ElementId) : Bool :=
  (d :: t.ancestors d).any moved

/-- The name that imports of `d` carry in `s`, if it is a class or an enum at or
    below one of `moved`. -/
def importNameBelow? (t : Tree) (moved : ElementId → Bool) (s : Tree)
    (d : ElementId) : Option String :=
  if t.isDeclaration d && t.isBelowSome moved d then some (s.importName d) else none

/-- Something that moved is above an element exactly when the check says so. -/
theorem WellLinked.isBelowSome_iff (hwl : WellLinked t) :
    t.isBelowSome moved d = true ↔ ∃ a, moved a = true ∧ Within t a d := by
  rw [isBelowSome, List.any_eq_true]
  refine exists_congr fun a => ?_
  rw [and_comm, List.mem_cons, hwl.mem_ancestors_iff, Within, eq_comm (a := a)]

/-- Where nothing moved no import gets a name. -/
theorem importNameBelow?_false (t s : Tree) :
    t.importNameBelow? (fun _ => false) s = fun _ => none := by
  funext d
  rw [importNameBelow?, isBelowSome]
  simp

/-- Refreshing imports below one element is naming them by what moved, where
    that element did. -/
theorem refreshImport_eq_nameBy (t : Tree) (scope : ElementId) (i : Import) :
    t.refreshImport scope i = i.nameBy (t.importNameBelow? (· == scope) t) := by
  rw [refreshImport, Import.nameBy]
  cases hd : i.target? with
  | none => rfl
  | some d =>
      have hwithin : t.isBelowSome (· == scope) d = t.isWithin scope d := by
        rw [isBelowSome, isWithin, isAncestor, List.any_cons, List.any_beq']
      dsimp only [Option.bind_some]
      rw [importNameBelow?, hwithin, Bool.and_comm]
      cases t.isDeclaration d && t.isWithin scope d <;> rfl

/-- Imports that are named anew carry the names that they have in the tree that
    is left. -/
theorem changedBy_of_rebindImports {scope : ElementId}
    (h : s' = s.rebindImports scope) :
    ChangedBy (fun _ e =>
      e.mapImports (·.map (Import.nameBy (s'.importNameBelow? (· == scope) s'))))
      s s' := by
  subst h
  refine (changedBy_rebindImports s scope).congr fun x e _ => ?_
  have hnamed : s.refreshImport scope
      = Import.nameBy ((s.rebindImports scope).importNameBelow?
        (· == scope) (s.rebindImports scope)) := by
    funext i
    rw [← refreshImport_eq_nameBy,
      (sameFrames_rebindImports s scope).refreshImport_eq]
  rw [hnamed]

/-- One more element has changed: what sits at or below it is told anew, and of
    all else what was told before. -/
theorem importNameBelow?_step (hwl : WellLinked t) (hwl' : WellLinked s')
    (hkind : s'.kind? d = t.kind? d)
    (hbelow : (∃ a, moved' a = true ∧ Within t a d) ↔
      Within s' id d ∨ ∃ a, moved a = true ∧ Within t a d)
    (hname : ¬ Within s' id d → s'.importName d = s.importName d) :
    t.importNameBelow? moved' s' d = (s'.importNameBelow? (· == id) s' d).or
      (t.importNameBelow? moved s d) := by
  have hdecl : s'.isDeclaration d = t.isDeclaration d := by
    rw [isDeclaration, isDeclaration, hkind]
  have hself : s'.isBelowSome (· == id) d = true ↔ Within s' id d := by
    simp [hwl'.isBelowSome_iff]
  have hsome : t.isBelowSome moved' d
      = (s'.isBelowSome (· == id) d || t.isBelowSome moved d) := by
    rw [Bool.eq_iff_iff, Bool.or_eq_true, hself, hwl.isBelowSome_iff,
      hwl.isBelowSome_iff, hbelow]
  rw [importNameBelow?, importNameBelow?, importNameBelow?, hdecl, hsome]
  cases t.isDeclaration d with
  | false => rfl
  | true =>
      cases hin : s'.isBelowSome (· == id) d with
      | true => rfl
      | false =>
          rw [hname fun h => by rw [hself.mpr h] at hin; cases hin]
          rfl

/-! ## A rename -/

/-- A renaming of one element is a name of its own and a change that follows. -/
theorem renamedElement_eq_follow (id : ElementId) (name : String) (x : ElementId)
    (e : Element) :
    t.renamedElement id name x e = (if x = id then e.withName name else e).follow
      (fun d => if t.isDeclaration d = true ∧ d = id then some name else none)
      ((t.rename id name).importNameBelow? (· == id) (t.rename id name)) := by
  have hshown : t.shownName id name
      = TypeRef.shownBy fun d => if t.isDeclaration d = true
        ∧ d = id then some name else none := by
    funext r
    rw [shownName, TypeRef.shownBy]
    cases r.definition? with
    | none => simp
    | some d =>
        by_cases hd : d = id
        · subst hd
          by_cases hdecl : t.isDeclaration d = true <;> simp [hdecl]
        · simp [hd]
  have hnamed : (t.rename id name).refreshImport id
      = Import.nameBy
        ((t.rename id name).importNameBelow? (· == id) (t.rename id name)) :=
    funext (refreshImport_eq_nameBy (t.rename id name) id)
  rw [renamedElement, hshown, hnamed, Element.follow]

end Tree

end CodeModel
