import CodeModel.Encoding.Pipeline

/-!
# What is written is read back

The written form of a tree, of a pipeline and of a configuration determines it:
reading the form gives the value that was written, whatever the value is. The
tree need not be well formed, and the options of a configuration need not be
valid.

A reader undoes a writer (`ReadsBack`). Lists and absent values keep that
(`ReadsBack.list`, `ReadsBack.option`), and records keep it field by field, so
each kind of value has one short lemma made of those of its parts. Only type
references call for an induction. Their reader stops at a given depth, so the
induction says that every depth from that of the form on suffices
(`TypeRef.ofJsonWithin?_toJson`).

Main statement: `written_forms_read_back`.
-/

namespace CodeModel

/-- A reader gives back every value from its written form, and no form is that
    of an absent value. -/
structure ReadsBack {α : Type} (write : α → Json) (read : Json → Option α) :
    Prop where
  read_write : ∀ a, read (write a) = some a
  ne_null : ∀ a, write a ≠ .null

/-! ## Lists, absent values and texts -/

namespace ReadsBack

variable {α : Type} {write : α → Json} {read : Json → Option α}

/-- A list is read back item by item. -/
theorem mapM_map (h : ReadsBack write read) (items : List α) :
    (items.map write).mapM read = some items := by
  induction items with
  | nil => rfl
  | cons a rest ih => rw [List.map_cons, List.mapM_cons, h.read_write a, ih]; rfl

theorem list (h : ReadsBack write read) :
    ReadsBack (Json.ofList write) (Json.list? read) where
  read_write := h.mapM_map
  ne_null _ := nofun

/-- An absent value is told from every other, which is why no form may be
    `null`. -/
theorem option?_ofOption (h : ReadsBack write read) (o : Option α) :
    (Json.ofOption write o).option? read = some o := by
  cases o with
  | none => rfl
  | some a =>
      rw [Json.ofOption, Json.option?, h.read_write a]
      · rfl
      · exact h.ne_null a

theorem string : ReadsBack Json.string Json.string? where
  read_write _ := rfl
  ne_null _ := nofun

theorem bool : ReadsBack Json.bool Json.bool? where
  read_write _ := rfl
  ne_null _ := nofun

end ReadsBack

/-! ## Records -/

namespace Record

variable {α : Type}

/-- The first field of a record is found by its name. -/
@[simp]
theorem required_cons_self (name : String) (j : Json) (r : Record)
    (read : Json → Option α) :
    required ((name, j) :: r) name read = read j := by
  simp [required]

/-- Any other name is looked for among the later fields. -/
theorem required_cons_of_ne {name other : String} (h : name ≠ other) (j : Json)
    (r : Record) (read : Json → Option α) :
    required ((other, j) :: r) name read = required r name read := by
  simp [required, List.lookup_cons, beq_false_of_ne h]

/-- So is a field that may be missing. -/
theorem optional_cons_self (name : String) (j : Json) (r : Record)
    (read : Json → Option α) :
    optional ((name, j) :: r) name read = j.option? read := by
  simp [optional]

/-- Any other name is looked for among the later fields. -/
theorem optional_cons_of_ne {name other : String} (h : name ≠ other) (j : Json)
    (r : Record) (read : Json → Option α) :
    optional ((other, j) :: r) name read = optional r name read := by
  simp [optional, List.lookup_cons, beq_false_of_ne h]

end Record

/-! ## Type references -/

theorem ElementId.readsBack : ReadsBack ElementId.toJson ElementId.ofJson? where
  read_write := ElementId.ofJson?_toJson
  ne_null _ := nofun

mutual

/-- Any depth from that of the written form on suffices to read it. -/
theorem TypeRef.ofJsonWithin?_toJson :
    ∀ (r : TypeRef) {n : Nat}, r.toJson.depth ≤ n →
      TypeRef.ofJsonWithin? n r.toJson = some r
  | ⟨name, target, isNullable, isCollection⟩, 0, h => by
      simp [TypeRef.toJson, Json.depth] at h
  | ⟨name, target, isNullable, isCollection⟩, n + 1, h => by
      have hn : target.toJson.depth ≤ n := by
        simp only [TypeRef.toJson, Json.depth, Json.depthOfFields] at h
        omega
      have htarget : TypeTarget.ofJsonWith? (TypeRef.ofJsonWithin? n) target.toJson
          = some target :=
        TypeTarget.ofJsonWith?_toJson target hn
      simp [TypeRef.toJson, TypeRef.ofJsonWithin?, Json.record?,
        Record.required_cons_of_ne, Json.string?, Json.bool?, htarget]

/-- A target is read back, given fuel for its depth. The recursion is that of
    the written form. -/
theorem TypeTarget.ofJsonWith?_toJson :
    ∀ (t : TypeTarget) {n : Nat}, t.toJson.depth ≤ n →
      TypeTarget.ofJsonWith? (TypeRef.ofJsonWithin? n) t.toJson = some t
  | .external, _, _ => rfl
  | .declared _, _, _ => rfl
  | .union members, n, h => by
      have hn : Json.depthOfItems (TypeRef.toJsonAll members) ≤ n := by
        simp only [TypeTarget.toJson, Json.ofVariant, Json.depth,
          Json.depthOfFields] at h
        omega
      have hmembers : (TypeRef.toJsonAll members).mapM (TypeRef.ofJsonWithin? n)
          = some members :=
        TypeRef.mapM_ofJsonWithin?_toJsonAll members hn
      simp [TypeTarget.toJson, TypeTarget.ofJsonWith?, Json.ofVariant,
        Json.variant?, Json.list?, hmembers]

theorem TypeRef.mapM_ofJsonWithin?_toJsonAll :
    ∀ (rs : List TypeRef) {n : Nat}, Json.depthOfItems (TypeRef.toJsonAll rs) ≤ n →
      (TypeRef.toJsonAll rs).mapM (TypeRef.ofJsonWithin? n) = some rs
  | [], _, _ => rfl
  | r :: rest, n, h => by
      have hn : r.toJson.depth ≤ n
          ∧ Json.depthOfItems (TypeRef.toJsonAll rest) ≤ n := by
        simp only [TypeRef.toJsonAll, Json.depthOfItems] at h
        omega
      rw [TypeRef.toJsonAll, List.mapM_cons, TypeRef.ofJsonWithin?_toJson r hn.1,
        TypeRef.mapM_ofJsonWithin?_toJsonAll rest hn.2]
      rfl

end

theorem TypeRef.readsBack : ReadsBack TypeRef.toJson TypeRef.ofJson? where
  read_write r := TypeRef.ofJsonWithin?_toJson r (Nat.le_refl _)
  ne_null r := by
    cases r
    exact nofun

/-! ## Elements and trees -/

theorem Import.readsBack : ReadsBack Import.toJson Import.ofJson? where
  read_write i := by
    simp [Import.toJson, Import.ofJson?, Json.record?, Record.optional_cons_self,
      Record.optional_cons_of_ne, Json.string?, TypeRef.readsBack.option?_ofOption,
      ReadsBack.string.option?_ofOption]
  ne_null _ := nofun

theorem ClassKind.readsBack :
    ReadsBack (fun k : ClassKind => .string k.label) ClassKind.ofJson? where
  read_write := ClassKind.ofLabel?_label
  ne_null _ := nofun

/-- A class is read back field by field. -/
theorem ClassDecl.ofJson?_toJson (c : ClassDecl) : ofJson? c.toJson = some c := by
  simp [toJson, ofJson?, Json.record?, Record.required_cons_of_ne,
    Record.optional_cons_self, Record.optional_cons_of_ne, Json.string?,
    ClassKind.readsBack.read_write c.kind, TypeRef.readsBack.option?_ofOption,
    TypeRef.readsBack.list.read_write, Import.readsBack.list.read_write,
    ReadsBack.string.option?_ofOption]

theorem MethodDecl.ofJson?_toJson (m : MethodDecl) : ofJson? m.toJson = some m := by
  simp [toJson, ofJson?, Json.record?, Record.required_cons_of_ne, Json.bool?,
    Json.plain?, Json.variant?, MethodKind.ofLabel?_label,
    TypeRef.readsBack.read_write]

theorem PropertyDecl.ofJson?_toJson (p : PropertyDecl) :
    ofJson? p.toJson = some p := by
  simp [toJson, ofJson?, Json.record?, Record.required_cons_of_ne,
    Record.optional_cons_self, Record.optional_cons_of_ne, Json.plain?,
    Json.variant?, PropertyKind.ofLabel?_label, TypeRef.readsBack.read_write,
    ReadsBack.string.option?_ofOption]

theorem ParameterDecl.ofJson?_toJson (p : ParameterDecl) :
    ofJson? p.toJson = some p := by
  simp [toJson, ofJson?, Json.record?, Record.required_cons_of_ne,
    Record.optional_cons_self, Record.optional_cons_of_ne, Json.plain?,
    Json.variant?, ParameterKind.ofLabel?_label, TypeRef.readsBack.read_write,
    ReadsBack.string.option?_ofOption]

theorem IndexerDecl.ofJson?_toJson (i : IndexerDecl) :
    ofJson? i.toJson = some i := by
  simp [toJson, ofJson?, Json.record?, Record.required_cons_of_ne,
    TypeRef.readsBack.read_write]

/-- The content of every kind of element is read back, the variant telling the
    kind. -/
theorem Content.readsBack : ReadsBack Content.toJson Content.ofJson? where
  read_write
    | .namespaceDecl imports => by
        simp [Content.toJson, Content.ofJson?, Content.kind, Json.ofVariant,
          Json.variant?, Json.record?, NodeKind.ofLabel?_label,
          Import.readsBack.list.read_write]
    | .classDecl c => by
        simp [Content.toJson, Content.ofJson?, Content.kind, Json.ofVariant,
          Json.variant?, NodeKind.ofLabel?_label, ClassDecl.ofJson?_toJson]
    | .enumDecl options => by
        simp [Content.toJson, Content.ofJson?, Content.kind, Json.ofVariant,
          Json.variant?, Json.record?, NodeKind.ofLabel?_label,
          ReadsBack.string.list.read_write]
    | .method m => by
        simp [Content.toJson, Content.ofJson?, Content.kind, Json.ofVariant,
          Json.variant?, NodeKind.ofLabel?_label, MethodDecl.ofJson?_toJson]
    | .property p => by
        simp [Content.toJson, Content.ofJson?, Content.kind, Json.ofVariant,
          Json.variant?, NodeKind.ofLabel?_label, PropertyDecl.ofJson?_toJson]
    | .parameter p => by
        simp [Content.toJson, Content.ofJson?, Content.kind, Json.ofVariant,
          Json.variant?, NodeKind.ofLabel?_label, ParameterDecl.ofJson?_toJson]
    | .indexer i => by
        simp [Content.toJson, Content.ofJson?, Content.kind, Json.ofVariant,
          Json.variant?, NodeKind.ofLabel?_label, IndexerDecl.ofJson?_toJson]
  ne_null _ := nofun

/-- An element is read back with its links. -/
theorem Element.readsBack : ReadsBack Element.toJson Element.ofJson? where
  read_write e := by
    simp [Element.toJson, Element.ofJson?, Json.record?, Record.required_cons_of_ne,
      Record.optional_cons_self, Record.optional_cons_of_ne, Json.string?,
      ElementId.readsBack.option?_ofOption, ElementId.readsBack.list.read_write,
      ReadsBack.string.option?_ofOption, Content.readsBack.read_write]
  ne_null _ := nofun

/-- A tree is read back, elements and root. -/
theorem Tree.ofJson?_toJson (t : Tree) : ofJson? t.toJson = some t := by
  simp [toJson, ofJson?, Json.record?, Record.required_cons_of_ne,
    Element.readsBack.list.read_write, ElementId.readsBack.read_write]

/-! ## Passes and pipelines -/

theorem ImportSpec.readsBack : ReadsBack ImportSpec.toJson ImportSpec.ofJson? where
  read_write s := by
    simp [ImportSpec.toJson, ImportSpec.ofJson?, Json.record?,
      Record.optional_cons_self, Record.optional_cons_of_ne, Json.string?,
      ReadsBack.string.option?_ofOption]
  ne_null _ := nofun

theorem DefaultImport.readsBack :
    ReadsBack DefaultImport.toJson DefaultImport.ofJson? where
  read_write d := by
    simp [DefaultImport.toJson, DefaultImport.ofJson?, Json.record?,
      Record.required_cons_of_ne, ClassKind.readsBack.list.read_write,
      ImportSpec.readsBack.read_write]
  ne_null _ := nofun

/-- The names of a set ascend, so they are held in the order in which they are
    written. -/
theorem ReservedNames.ofJson?_toJson (r : ReservedNames) :
    ofJson? r.toJson = some r := by
  have hpairs : r.toList.map (fun n => (n, ())) = r.names.entries := by
    rw [toList, NameMap.names, List.map_map]
    exact List.map_id _
  have hheld : ofStored r.toList = r := by
    rw [ofStored, hpairs]
    exact congrArg ReservedNames.mk
      (NameMap.ext (NameMap.entries_ofList r.names.ascending))
  simp [toJson, ofJson?, Json.record?, ReadsBack.string.list.read_write, hheld]

theorem EscapeStyle.ofJson?_toJson : ∀ s : EscapeStyle, ofJson? s.toJson = some s
  | atSign => rfl
  | suffix _ => rfl

theorem AdditionalDataCorrection.readsBack :
    ReadsBack AdditionalDataCorrection.toJson AdditionalDataCorrection.ofJson? where
  read_write a := by
    simp [AdditionalDataCorrection.toJson, AdditionalDataCorrection.ofJson?,
      Json.record?, Record.required_cons_of_ne, Json.string?]
  ne_null _ := nofun

/-- A table of renames ascends by name, so it is held in the order in which it
    is written. -/
theorem TypeCorrections.renamesOfJson?_object (m : NameMap String) :
    renamesOfJson?
      (.object (m.entries.map fun (name, renamed) => (name, .string renamed)))
      = some m := by
  have hentries : ∀ entries : List (String × String),
      (entries.map fun e => (e.1, Json.string e.2)).mapM
        (fun f : String × Json => f.2.string?.map (f.1, ·)) = some entries := by
    intro entries
    induction entries with
    | nil => rfl
    | cons e rest ih => rw [List.map_cons, List.mapM_cons, ih]; rfl
  have hheld : NameMap.ofList m.entries = m :=
    NameMap.ext (NameMap.entries_ofList m.ascending)
  rw [renamesOfJson?, hentries m.entries, Option.map_some, hheld]

/-- So are corrections. Their table is read back as it was, since its entries
    ascend. -/
theorem TypeCorrections.ofJson?_toJson (c : TypeCorrections) :
    ofJson? c.toJson = some c := by
  simp only [toJson, ofJson?, Json.record?, Option.bind_eq_bind, Option.bind_some,
    Record.required_cons_self, renamesOfJson?_object]
  simp [Record.optional_cons_self, Record.optional_cons_of_ne,
    AdditionalDataCorrection.readsBack.option?_ofOption,
    ReadsBack.string.option?_ofOption]

namespace Pass

variable {α β : Type}

/-- One parameter of a pass is read by its field. -/
theorem ofParameter?_object (field : String) (read : Json → Option α) (j : Json) :
    ofParameter? field read (.object [(field, j)]) = read j := by
  simp [ofParameter?, Json.fields?]

/-- Two parameters are read by theirs. -/
theorem ofParameters?_object {first second : String} (h : second ≠ first)
    (readFirst : Json → Option α) (readSecond : Json → Option β) {i j : Json}
    {a : α} {b : β} (hfirst : readFirst i = some a)
    (hsecond : readSecond j = some b) :
    ofParameters? first readFirst second readSecond
      (.object [(first, i), (second, j)]) = some (a, b) := by
  simp [ofParameters?, Json.fields?, Record.required_cons_of_ne h, hfirst, hsecond]

/-- A variant whose name does not stand for a pass without parameters is read
    with its content. -/
theorem ofJson?_ofVariant {name : String} (h : ofPlainName? name = none)
    (content : Json) :
    ofJson? (.ofVariant name content) = ofVariant? name content := by
  simp [ofJson?, Json.ofVariant, Json.variant?, h]

/-- Every pass is read back with its parameters, the variant telling the
    pass. -/
theorem readsBack : ReadsBack toJson ofJson? where
  read_write
    | seedImports defaults => by
        rw [toJson, ofJson?_ofVariant rfl, ofVariant?, ofParameter?_object,
          DefaultImport.readsBack.list.read_write]
        rfl
    | moveIntoNamesakes => rfl
    | wrapUnions placement => by cases placement <;> rfl
    | flattenInheritance => rfl
    | importReferenced _ => rfl
    | addAsyncSuffix _ => rfl
    | nestQueryClasses => rfl
    | implementInModels interface spec => by
        rw [toJson, ofJson?_ofVariant rfl, ofVariant?,
          ofParameters?_object (by decide) _ _ (ReadsBack.string.read_write _)
          (ImportSpec.readsBack.read_write spec)]
        rfl
    | capitalizeNamespaces => rfl
    | replaceBinary typeName spec => by
        rw [toJson, ofJson?_ofVariant rfl, ofVariant?,
          ofParameters?_object (by decide) _ _ (ReadsBack.string.read_write _)
          (ImportSpec.readsBack.read_write spec)]
        rfl
    | makeEnumPropertiesNullable => rfl
    | escapeReservedNames reserved style => by
        rw [toJson, ofJson?_ofVariant rfl, ofVariant?, ofParameters?_object
          (by decide) _ _ (ReservedNames.ofJson?_toJson reserved)
          (EscapeStyle.ofJson?_toJson style)]
        rfl
    | disambiguateProperties _ => rfl
    | addConstructors _ => rfl
    | correctTypes corrections => by
        rw [toJson, ofJson?_ofVariant rfl, ofVariant?, ofParameter?_object,
          TypeCorrections.ofJson?_toJson]
        rfl
    | resolveImportPaths => rfl
  ne_null pass := by cases pass <;> nofun

end Pass

/-- A pipeline is read back, pass by pass. -/
theorem Pipeline.ofJson?_toJson (p : Pipeline) : ofJson? p.toJson = some p := by
  simp [toJson, ofJson?, Json.record?, Record.required_cons_of_ne,
    Language.ofJson?_toJson, Pass.readsBack.list.read_write]

/-! ## Configurations -/

/-- A configuration is read back; fields that may be missing are written all the
    same. -/
theorem Configuration.ofJson?_toJson (c : Configuration) :
    ofJson? c.toJson = some c := by
  simp [toJson, ofJson?, Record.withDefault, Record.optional_cons_self,
    Record.optional_cons_of_ne, List.lookup_cons, Language.ofJson?_toJson,
    ReadsBack.bool.option?_ofOption, ReadsBack.string.list.read_write]

/-! ## The result -/

/-- The written forms of trees, pipelines and configurations read back as the
    values that were written, without a condition on the values. -/
theorem written_forms_read_back :
    (∀ t : Tree, Tree.ofJson? t.toJson = some t)
      ∧ (∀ p : Pipeline, Pipeline.ofJson? p.toJson = some p)
      ∧ ∀ c : Configuration, Configuration.ofJson? c.toJson = some c :=
  ⟨Tree.ofJson?_toJson, Pipeline.ofJson?_toJson, Configuration.ofJson?_toJson⟩

end CodeModel
