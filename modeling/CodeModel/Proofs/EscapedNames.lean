import CodeModel.Proofs.CheckingPasses
import CodeModel.Proofs.Keywords
import CodeModel.Proofs.NamingPasses

/-!
# Escaped names

A reserved name is escaped once, and the name that results is not looked at
again. Passes after that give names too: two put an ending to names, and
constructors, which are never escaped, are new. So a refined tree is without
reserved names when what is made of a name is not reserved: an escaped name, and
a name with an ending that comes later.

* **`Unreserved`**: no element below the root that could be escaped bears a
  reserved name.
* **`Configuration.EscapesApart`**: what is made of names for a target is never
  reserved.
* **`escapesApart_of_unmarked`**: so it is when no additional name bears a mark
  of what the target makes of names; no keyword does.

Main statements: `unreserved_of_refine`, and `exists_reserved_of_refine`, the
three ways in which a reserved name can be left.
-/

namespace CodeModel

open CodeModel.Tree

/-! ## Letter case -/

namespace Text

/-- Without a capital sigma every character is lowercased on its own. -/
theorem lowerFrom_eq_flatMap {ending : List Char} (hsigma : 'Σ' ∉ ending)
    (before : List Char) :
    lowerFrom before ending = ending.flatMap lowerChar := by
  induction ending generalizing before with
  | nil => rfl
  | cons c rest ih =>
      have hc : c ≠ 'Σ' := fun heq => hsigma (heq ▸ List.mem_cons_self)
      rw [lowerFrom, List.flatMap_cons, ih fun hmem =>
        hsigma (List.mem_cons_of_mem _ hmem), if_neg hc]

/-- An ending without a capital sigma is lowercased as it would be alone. -/
theorem flatMap_lowerChar_suffix {ending : List Char} (hsigma : 'Σ' ∉ ending)
    (before front : List Char) :
    ending.flatMap lowerChar <:+ lowerFrom before (front ++ ending) := by
  induction front generalizing before with
  | nil => exact (lowerFrom_eq_flatMap hsigma before).symm ▸ List.suffix_rfl
  | cons c rest ih => exact (ih (c :: before)).trans (List.suffix_append _ _)

/-- A name ends in the lower case of its ending, if no letter of the ending
    depends on what is around it. Only the sigma does. -/
theorem suffix_lowercase_append {ending : String} (hsigma : 'Σ' ∉ ending.toList)
    (name : String) :
    ending.toList.flatMap lowerChar <:+ (lowercase (name ++ ending)).toList := by
  rw [lowercase, String.toList_append, String.toList_ofList]
  exact flatMap_lowerChar_suffix hsigma [] name.toList

/-- A start without a capital sigma is lowercased as it would be alone. -/
theorem flatMap_lowerChar_prefix {start : List Char} (hsigma : 'Σ' ∉ start)
    (before rest : List Char) :
    start.flatMap lowerChar <+: lowerFrom before (start ++ rest) := by
  induction start generalizing before with
  | nil => exact List.nil_prefix
  | cons c start ih =>
      have hc : c ≠ 'Σ' := fun heq => hsigma (heq ▸ List.mem_cons_self)
      rw [List.cons_append, lowerFrom, List.flatMap_cons, if_neg hc]
      exact (List.prefix_append_right_inj _).mpr
        (ih (fun hmem => hsigma (List.mem_cons_of_mem _ hmem)) _)

/-- In the same way it begins with the lower case of its start. -/
theorem prefix_lowercase_append {start : String} (hsigma : 'Σ' ∉ start.toList)
    (name : String) :
    start.toList.flatMap lowerChar <+: (lowercase (start ++ name)).toList := by
  rw [lowercase, String.toList_append, String.toList_ofList]
  exact flatMap_lowerChar_prefix hsigma [] name.toList

end Text

/-! ## What is reserved -/

/-- The reserved names are the keywords and the additional names, in whatever
    case. -/
theorem Configuration.contains_reservedNames_iff {c : Configuration}
    {name : String} :
    c.reservedNames.contains name = true
      ↔ (∃ keyword ∈ c.language.keywords, Text.lowercase keyword
        = Text.lowercase name)
        ∨ ∃ extra ∈ c.additionalReservedNames, Text.lowercase (Text.trim extra)
          = Text.lowercase name := by
  have hempty : (NameMap.empty : NameMap Unit).contains (Text.lowercase name)
    = false := rfl
  simp only [reservedNames, ReservedNames.withAdditional, ReservedNames.contains,
    Language.reservedNames, ReservedNames.ofList, ReservedNames.ofStored,
    NameMap.ofList, NameMap.contains_insertAll_iff, hempty, Bool.false_eq_true,
    false_or, List.map_map, List.mem_map, Function.comp]

/-- The element is neither an indexer nor a constructor. These keep their
    names. -/
def Element.MayBeEscaped (e : Element) : Prop :=
  e.kind ≠ .indexer ∧ ∀ m ∈ e.method?, m.kind ≠ .constructor
    ∧ m.kind ≠ .clientConstructor

/-- What may be escaped is what the escape looks for. -/
theorem Element.isEscapable_iff {e : Element} :
    e.isEscapable = true ↔ e.MayBeEscaped := by
  obtain ⟨name, parent, children, description, content⟩ := e
  rw [MayBeEscaped, isEscapable, method?, kind]
  cases content with
  | method m =>
      cases hkind : m.kind <;> simp [Content.kind, MethodKind.isConstructor, hkind]
  | _ => simp [Content.kind]

namespace Tree

variable {t t' : Tree} {reserved : ReservedNames} {pass : Pass}

/-- No element below the root has a reserved name, but for those whose names are
    never escaped. -/
def Unreserved (reserved : ReservedNames) (t : Tree) : Prop :=
  ∀ x e, Ancestor t t.root x → t.get? x = some e → e.MayBeEscaped →
    reserved.contains e.name = false

/-- No reserved name is borne, said by the kinds and by the check of the
    pass. -/
theorem unreserved_iff :
    Unreserved reserved t ↔ ∀ x e, Ancestor t t.root x → t.get? x = some e →
    e.isEscapable = true → reserved.contains e.name = false := by
  simp only [Unreserved, Element.isEscapable_iff]

/-! ## Passes that keep every element in its place -/

/-- What a pass makes of a name, when it keeps every element in its place. -/
theorem exists_of_keepsPlaces (hwl : WellLinked t)
    (hkeeps : pass.keepsPlaces = true) {u : Unit}
    (hrun : pass.apply.run t = .ok u t') {x : ElementId} {e' : Element}
    (hx : Ancestor t' t'.root x) (he' : t'.get? x = some e') :
    ∃ e, Ancestor t t.root x ∧ t.get? x = some e ∧ e'.role = e.role
      ∧ e'.name = (pass.newName? e.role e.name).getD e.name := by
  have hlabelled := (labelled_labels hwl).apply hwl hkeeps hrun
  have hplaces := hlabelled.places
  rw [hplaces.root_eq, hplaces.ancestor_iff] at hx
  obtain ⟨e, he, -⟩ := hplaces.exists_get? he'
  have hsketch := hlabelled.sketch_eq x
  rw [he, he'] at hsketch
  refine ⟨e, hx, he, congrArg Prod.fst (Option.some.inj hsketch), ?_⟩
  have hname : t.labels.name x = e.name :=
    ((labelled_labels hwl).name_eq x e he).symm
  rw [hlabelled.name_eq x e' he']
  dsimp only [Labels.after]
  rw [if_pos (hwl.mem_descendants_iff.mpr hx),
    (labelled_labels hwl).newName?_eq he, hname]

/-- A pass that keeps places bears no reserved name in if its rule for names
    does not. -/
theorem Unreserved.keepsPlaces (hu : Unreserved reserved t) (h : Stable t)
    (hkeeps : pass.keepsPlaces = true)
    (hrule : ∀ role name, name ≠ "" → reserved.contains name = false →
      ∀ new, pass.newName? role name = some new → reserved.contains new = false)
    {u : Unit} (hrun : pass.apply.run t = .ok u t') : Unreserved reserved t' := by
  refine unreserved_iff.mpr fun x e' hx he' hescapable => ?_
  obtain ⟨e, hbelow, he, hrole, hname⟩ :=
    exists_of_keepsPlaces h.toWellLinked hkeeps hrun hx he'
  rw [Element.isEscapable_eq_role, hrole, ← Element.isEscapable_eq_role]
    at hescapable
  have hold := unreserved_iff.mp hu x e hbelow he hescapable
  rw [hname]
  cases hnew : pass.newName? e.role e.name with
  | none => exact hold
  | some new => exact hrule e.role e.name (h.fit x hbelow e he).1 hold new hnew

/-- What escaping leaves is unreserved when what it makes of reserved names is. -/
theorem unreserved_of_escapeReservedNames {style : EscapeStyle} (h : Stable t)
    (hstyle : ∀ name, name ≠ "" → reserved.contains name = true →
      reserved.contains (style.apply name) = false) {u : Unit}
    (hrun : (Pass.escapeReservedNames reserved style).apply.run t = .ok u t') :
    Unreserved reserved t' := by
  refine unreserved_iff.mpr fun x e' hx he' hescapable => ?_
  obtain ⟨e, hbelow, he, hrole, hname⟩ :=
    exists_of_keepsPlaces h.toWellLinked rfl hrun hx he'
  have hrule : (Pass.escapeReservedNames reserved style).newName? e.role e.name =
      if e.role.isEscapable && reserved.contains e.name
        then some (style.apply e.name) else none := by
    cases e.role <;> rfl
  rw [Element.isEscapable_eq_role, hrole] at hescapable
  rw [hname, hrule, hescapable, Bool.true_and]
  cases hold : reserved.contains e.name with
  | false => exact hold
  | true => exact hstyle e.name (h.fit x hbelow e he).1 hold

/-! ## Passes that look at the members -/

/-- The one property that gets another name gets no reserved one. -/
theorem Unreserved.disambiguateProperty {suffix : String} {id : ElementId}
    (hu : Unreserved reserved t) (h : Stable t) (hid : Attached t id)
    (hsuffix : ∀ name, name ≠ "" → reserved.contains name = false →
      reserved.contains (name ++ suffix) = false) {u : Unit}
    (hrun : (Edit.disambiguateProperty suffix id).run t = .ok u t') :
    Unreserved reserved t' := by
  have hsteps : Steps (fun k => k = .reinsert) t.size t t' :=
    steps_disambiguateProperty rfl h hid hrun
  have hroot := (h.steps hsteps).2.root_eq
  rcases run_disambiguateProperty_eq_ok h.toWellLinked hrun with
    ⟨rfl, -⟩ | ⟨name, property, s, hclass, hp, hname, -, hs, hinsertable, rfl⟩
  · exact hu
  · obtain ⟨hc, hkind⟩ := List.mem_filter.mp (List.mem_of_find?_eq_some hp)
    have hkind := of_decide_eq_true hkind
    obtain ⟨hfaces, -, -⟩ := face?_reinsert h.toWellLinked hc hkind
      (fun e => Element.place_eq_of_frame_eq (Element.frame_keepWireName name e))
      (Element.parameterType?_keepWireName name) hs hinsertable
    refine unreserved_iff.mpr fun x e' hx he' hescapable => ?_
    by_cases hproperty : x = property
    · -- The name of the class is not reserved, for classes are escaped like
      -- anything else.
      obtain ⟨c, hget, hckind⟩ := kind?_eq_some_iff.mp hclass
      have hbelow : Ancestor t t.root id := by
        refine hid.resolve_left ?_
        rintro rfl
        rw [h.toWellLinked.kind?_root] at hclass
        cases hclass
      have hcname : c.name = name := by
        rw [name?, hget] at hname
        exact Option.some.inj hname
      have hcescapable : c.isEscapable = true := by
        unfold Element.kind at hckind
        rw [Element.isEscapable]
        cases hcc : c.content <;> rw [hcc] at hckind <;> first | rfl | cases hckind
      have hframes := sameFrames_modify (t.detach id property).2 property
        (Element.frame_keepWireName name)
      obtain ⟨e, he, hnamed, -⟩ := (relinked_attach s id [property]).exists_get? he'
      have hshown : s.name? property = some e.name := by
        rw [← hproperty, name?, he, Option.map_some]
      rw [hs, name?_rename (hframes.wellLinked (h.toWellLinked.detach hc)),
        if_pos rfl] at hshown
      obtain ⟨_, -, hnew⟩ := Option.map_eq_some_iff.mp hshown
      rw [hnamed, ← hnew]
      exact hsuffix name (hcname ▸ (h.fit id hbelow c hget).1)
        (hcname ▸ unreserved_iff.mp hu id c hbelow hget hcescapable)
    · -- Every other element is where it was, and is called what it was.
      have hface := hfaces x hproperty
      rw [face?, he', Option.map_some] at hface
      obtain ⟨e, he, heq⟩ := Option.map_eq_some_iff.mp hface.symm
      have hrole : e.role = e'.role := congrArg Face.role heq
      have hsame : e.name = e'.name := congrArg Face.name heq
      rw [hroot] at hx
      have hbelow : Ancestor t t.root x := by
        rcases attached_of_steps h hsteps (Or.inr (hroot ▸ hx)) with hold | hnew
        · refine hold.resolve_left ?_
          rintro rfl
          exact (h.steps hsteps).1.toWellLinked.not_ancestor_root (hroot ▸ hx)
        · exact absurd (index_lt_of_get? he) (Nat.not_lt.mpr hnew)
      rw [← hsame]
      refine unreserved_iff.mp hu x e hbelow he ?_
      rw [Element.isEscapable_eq_role, hrole, ← Element.isEscapable_eq_role]
      exact hescapable

/-- Visit by visit, the ending for properties brings no reserved name in. -/
theorem Unreserved.disambiguateProperties {suffix : String}
    (hu : Unreserved reserved t) (h : Stable t) (hsuffix : ∀ name, name ≠ "" →
      reserved.contains name = false → reserved.contains (name ++ suffix) = false)
    {u : Unit} (hrun : (Edit.disambiguateProperties suffix).run t = .ok u t') :
    Unreserved reserved t' := by
  refine (Edit.crawl_induction (I := fun s => Stable s ∧ Unreserved reserved s) ?_
    ⟨h, hu⟩ hrun).2
  rintro s id s' ⟨hs, hus⟩ ha hvisit
  have hid := hs.toWellLinked.isAttached_iff.mp ha
  have hsteps : Steps (fun _ => True) s.size s s' :=
    steps_disambiguateProperty trivial hs hid hvisit
  exact ⟨(hs.steps hsteps).1, hus.disambiguateProperty hs hid hsuffix hvisit⟩

/-- Constructors are never escaped. -/
theorem Unreserved.addConstructors {inheritingToo : Bool}
    (hu : Unreserved reserved t) (h : Stable t) {u : Unit}
    (hrun : (Edit.addConstructors inheritingToo).run t = .ok u t') :
    Unreserved reserved t' := by
  refine (Edit.crawl_induction (I := fun s => Stable s ∧ Unreserved reserved s) ?_
    ⟨h, hu⟩ hrun).2
  rintro s id s' ⟨hs, hus⟩ _ hvisit
  rw [Edit.run_get_bind] at hvisit
  split at hvisit
  · obtain ⟨_, hadd⟩ := Edit.run_discard_eq_ok_iff.mp hvisit
    have hsteps : Steps (fun _ => True) s.size s s' :=
      steps_addConstructor trivial trivial hs (Nat.le_refl _) hadd
    obtain ⟨hs', hc⟩ := hs.steps hsteps
    obtain ⟨-, -, hinsert⟩ := Edit.run_addNew_eq_ok hadd
    refine ⟨hs', unreserved_iff.mpr fun x e' hx he' hescapable => ?_⟩
    have hattached := attached_of_steps hs hsteps (Or.inr hx)
    obtain ⟨-, -, -, -, -, rfl⟩ := (insert_eq_ok_iff _ _ _ _ _).mp hinsert
    obtain ⟨e, he, hname, hcontent⟩ := (relinked_attach _ _ _).exists_get? he'
    rw [get?_push] at he
    split at he
    · rw [Element.isEscapable, hcontent, ← Option.some.inj he] at hescapable
      cases hescapable
    · rw [Element.isEscapable, hcontent] at hescapable
      rw [hname]
      refine unreserved_iff.mp hus x e ?_ he hescapable
      refine (hattached.resolve_right
        (Nat.not_le.mpr (index_lt_of_get? he))).resolve_left ?_
      rintro rfl
      exact hs'.toWellLinked.not_ancestor_root (hc.root_eq ▸ hx)
  · exact (Edit.run_pure_eq_ok_iff.mp hvisit).2 ▸ ⟨hs, hus⟩

end Tree

/-! ## Passes after the escape -/

namespace Pass

/-- What keeps names unreserved, for a pass that comes after the escape. -/
def KeepsUnreserved (reserved : ReservedNames) : Pass → Prop
  | addAsyncSuffix suffix => ∀ name, name ≠ "" → reserved.contains name = false →
      ¬ suffix.toList <:+ name.toList → reserved.contains (name ++ suffix) = false
  | disambiguateProperties suffix =>
      ∀ name, name ≠ "" → reserved.contains name = false →
      reserved.contains (name ++ suffix) = false
  | addConstructors _ | seedImports _ | importReferenced _ | implementInModels _
      _ | replaceBinary _ _
  | makeEnumPropertiesNullable | correctTypes _ | resolveImportPaths => True
  | _ => False

/-- Pass by pass: what is named anew is not reserved, and what is made has fixed
    names that are not. -/
theorem unreserved_apply {pass : Pass} {reserved : ReservedNames} {t t' : Tree}
    {u : Unit} (h : Stable t) (hu : Unreserved reserved t)
    (hkeeps : pass.KeepsUnreserved reserved) (hrun : pass.apply.run t = .ok u t') :
    Unreserved reserved t' := by
  have hquiet : pass.keepsPlaces = true →
    (∀ role name, pass.newName? role name = none) →
      Unreserved reserved t' := fun hplaces hnone =>
    hu.keepsPlaces h hplaces
      (fun role name _ _ new hnew => by rw [hnone] at hnew; cases hnew) hrun
  cases pass with
  | seedImports defaults => exact hquiet rfl fun _ _ => rfl
  | importReferenced ownNamespaceToo => exact hquiet rfl fun _ _ => rfl
  | implementInModels interface spec => exact hquiet rfl fun _ _ => rfl
  | replaceBinary typeName spec => exact hquiet rfl fun _ _ => rfl
  | makeEnumPropertiesNullable => exact hquiet rfl fun _ _ => rfl
  | correctTypes corrections => exact hquiet rfl fun _ _ => rfl
  | resolveImportPaths => exact hquiet rfl fun _ _ => rfl
  | addAsyncSuffix suffix =>
      refine hu.keepsPlaces h rfl (fun role name hne hold new hnew => ?_) hrun
      obtain ⟨hends, rfl⟩ : ¬ suffix.toList <:+ name.toList
          ∧ name ++ suffix = new := by
        cases role with
        | method kind isAsync =>
            cases isAsync with
            | false => cases hnew
            | true =>
                rw [newName?] at hnew
                split at hnew
                · cases hnew
                next hends => exact ⟨hends, Option.some.inj hnew⟩
        | property kind => cases hnew
        | other kind => cases hnew
      exact hkeeps name hne hold hends
  | disambiguateProperties suffix => exact hu.disambiguateProperties h hkeeps hrun
  | addConstructors inheritingToo => exact hu.addConstructors h hrun
  | moveIntoNamesakes => exact hkeeps.elim
  | wrapUnions placement => exact hkeeps.elim
  | flattenInheritance => exact hkeeps.elim
  | nestQueryClasses => exact hkeeps.elim
  | capitalizeNamespaces => exact hkeeps.elim
  | escapeReservedNames reserved style => exact hkeeps.elim

end Pass

/-- What every pass keeps a list of passes keeps. -/
theorem Pipeline.unreserved_of_forM {passes : List Pass} {reserved : ReservedNames}
    {t t' : Tree} {u : Unit} {language : Language} (h : Stable t)
    (hu : Unreserved reserved t)
    (hkeeps : ∀ pass ∈ passes, pass.KeepsUnreserved reserved)
    (hrun : (passes.forM (runPass language)).run t = .ok u t') :
    Unreserved reserved t' := by
  induction passes generalizing t with
  | nil => exact run_forM_nil_eq_ok_iff.mp hrun ▸ hu
  | cons pass rest ih =>
      obtain ⟨s, hfirst, hrest⟩ := run_forM_cons_eq_ok_iff.mp hrun
      exact ih (pass.stable_apply h hfirst).1
        (Pass.unreserved_apply h hu (hkeeps pass List.mem_cons_self) hfirst)
        (fun q hq => hkeeps q (List.mem_cons_of_mem _ hq)) hrest

namespace Language

/-- How reserved names are escaped for a target. -/
def escapeStyle : Language → EscapeStyle
  | csharp => .atSign
  | java => .suffix "_escaped"
  | typescript => .suffix "_escaped"
  | go => .suffix "Escaped"

/-- The endings that are put to names for a target. -/
def endings : Language → List String
  | csharp => ["_prop"]
  | java => ["_escaped"]
  | typescript => ["_escaped", "Async"]
  | go => ["Escaped"]

/-- Whether a name in lower case bears a mark of what is made of names for a
    target. -/
def marks (l : Language) (name : String) : Bool :=
  (l = csharp && ("@".toList.flatMap Text.lowerChar).isPrefixOf name.toList)
    || l.endings.any fun ending =>
      (ending.toList.flatMap Text.lowerChar).isSuffixOf name.toList

/-- No keyword is like a name that is made. -/
theorem marks_keyword (l : Language) :
    ∀ keyword ∈ l.keywords, l.marks (Text.lowercase keyword) = false := by
  have hunmarked : ∀ keyword ∈ l.keywords, l.marks keyword = false := by
    cases l <;> decide +kernel
  intro keyword hmem
  rw [l.lowercase_keyword keyword hmem]
  exact hunmarked keyword hmem

/-- An ending of a language is recognised in lower case. -/
theorem marks_append {l : Language} {ending : String} (hmem : ending ∈ l.endings)
    (name : String) :
    l.marks (Text.lowercase (name ++ ending)) = true := by
  have hsigma : 'Σ' ∉ ending.toList := by
    revert ending
    cases l <;> decide
  refine Bool.or_eq_true_iff.mpr (Or.inr (List.any_eq_true.mpr ⟨ending, hmem, ?_⟩))
  exact List.isSuffixOf_iff_suffix.mpr (Text.suffix_lowercase_append hsigma name)

/-- Every escaped name bears a mark. -/
theorem marks_escaped (l : Language) (name : String) :
    l.marks (Text.lowercase (l.escapeStyle.apply name)) = true := by
  cases l with
  | csharp =>
      have hsigma : 'Σ' ∉ "@".toList := by decide
      have hstart := List.isPrefixOf_iff_prefix.mpr
        (Text.prefix_lowercase_append hsigma (Text.capitalize name))
      exact Bool.or_eq_true_iff.mpr
        (Or.inl (Bool.and_eq_true_iff.mpr ⟨rfl, hstart⟩))
  | java => exact marks_append (by decide) name
  | typescript => exact marks_append (by decide) name
  | go => exact marks_append (by decide) name

end Language

namespace Configuration

/-- What is made of names for a target is never reserved: no escaped name is,
    and neither is what becomes of a name by an ending that comes after the
    escape. That is the suffix of asynchronous methods for TypeScript, and for
    C# the ending of properties that bear the name of their class. -/
structure EscapesApart (c : Configuration) : Prop where
  escaped : ∀ name, name ≠ "" → c.reservedNames.contains name = true →
    c.reservedNames.contains (c.language.escapeStyle.apply name) = false
  suffixed : c.language = .typescript → c.usesNativeAsync = false →
    ∀ name, name ≠ "" → c.reservedNames.contains name = false → ¬ "Async".toList
    <:+ name.toList → c.reservedNames.contains (name ++ "Async") = false
  told : c.language = .csharp → ∀ name, name ≠ "" →
    c.reservedNames.contains name = false →
    c.reservedNames.contains (name ++ "_prop") = false

variable {c : Configuration} {t t' : Tree} {u : Unit}

/-- For every target reserved names are escaped, and what comes after that keeps
    names unreserved. -/
theorem exists_passes_eq_escape (c : Configuration) :
    ∃ before after, c.passes = before ++ .escapeReservedNames c.reservedNames
      c.language.escapeStyle :: after
      ∧ (c.EscapesApart → ∀ pass ∈ after, pass.KeepsUnreserved c.reservedNames) :=
        by
  cases hl : c.language with
  | csharp =>
      refine ⟨[.seedImports csharpImports, .moveIntoNamesakes,
        .wrapUnions .innerClasses] ++ c.flattening
        ++ [.nestQueryClasses, .importReferenced false] ++ c.asyncSuffix
        ++ [.implementInModels "IParsable" (.ofModule csharpSerialization),
        .capitalizeNamespaces, .replaceBinary "Stream" (.ofModule "System.IO"),
        .makeEnumPropertiesNullable],
        [.disambiguateProperties "_prop", .addConstructors false], ?_, ?_⟩
      · simp [passes, csharpPasses, Language.escapeStyle, hl]
      · intro hapart pass hpass
        simp only [List.mem_cons, List.not_mem_nil, or_false] at hpass
        rcases hpass with rfl | rfl
        · exact hapart.told hl
        · trivial
  | java =>
      refine ⟨[.seedImports javaImports, .wrapUnions .innerClasses] ++ c.flattening
        ++ [.nestQueryClasses, .importReferenced false] ++ c.asyncSuffix
        ++ [.implementInModels "Parsable" (.ofSymbol javaSerialization "Parsable"),
        .replaceBinary "InputStream" (.ofSymbol "java.io" "InputStream"),
        .makeEnumPropertiesNullable], [.addConstructors true], ?_, ?_⟩
      · simp [passes, javaPasses, Language.escapeStyle, hl]
      · intro _ pass hpass
        rw [List.mem_singleton.mp hpass]
        trivial
  | typescript =>
      refine ⟨[.seedImports typescriptImports, .wrapUnions .siblingClasses]
        ++ c.flattening,
        [.importReferenced true] ++ c.asyncSuffix ++ [.resolveImportPaths,
        .implementInModels "Parsable" (.ofSymbol typescriptAbstractions "Parsable"),
        .correctTypes typescriptCorrections, .makeEnumPropertiesNullable], ?_, ?_⟩
      · simp [passes, typescriptPasses, Language.escapeStyle, hl]
      · intro hapart pass hpass
        simp only [asyncSuffix, List.mem_append, List.mem_cons, List.not_mem_nil,
          or_false] at hpass
        rcases hpass with (rfl | hpass) | rfl | rfl | rfl | rfl
        · trivial
        · cases hasync : c.usesNativeAsync with
          | true => simp [hasync] at hpass
          | false =>
              simp only [hasync, Bool.false_eq_true, if_false,
                List.mem_singleton] at hpass
              rw [hpass]
              exact hapart.suffixed hl hasync
        all_goals trivial
  | go =>
      refine ⟨[.seedImports goImports, .wrapUnions .siblingClasses] ++ c.flattening
        ++ [.importReferenced false] ++ c.asyncSuffix
        ++ [.implementInModels "Parsable" (.ofSymbol goSerialization "Parsable"),
        .makeEnumPropertiesNullable], [.addConstructors true], ?_, ?_⟩
      · simp [passes, goPasses, Language.escapeStyle, hl]
      · intro _ pass hpass
        rw [List.mem_singleton.mp hpass]
        trivial

/-- Where no additional name bears a mark of the target, what is made of names
    is never reserved. -/
theorem escapesApart_of_unmarked (h : ∀ extra ∈ c.additionalReservedNames,
      c.language.marks (Text.lowercase (Text.trim extra)) = false) :
    c.EscapesApart := by
  have hmade : ∀ name, c.language.marks (Text.lowercase name) = true →
      c.reservedNames.contains name = false := by
    intro name hmarked
    refine Bool.eq_false_iff.mpr fun hcontains => ?_
    rcases contains_reservedNames_iff.mp hcontains
      with ⟨keyword, hmem, heq⟩ | ⟨extra, hmem, heq⟩
    · rw [← heq, c.language.marks_keyword keyword hmem] at hmarked
      cases hmarked
    · rw [← heq, h extra hmem] at hmarked
      cases hmarked
  constructor
  · intro name _ _
    exact hmade _ (Language.marks_escaped _ name)
  · intro hl _ name _ _ _
    exact hmade _ (Language.marks_append (hl ▸ by decide) name)
  · intro hl name _ _
    exact hmade _ (Language.marks_append (hl ▸ by decide) name)

/-- The keywords alone never come back. -/
theorem escapesApart_of_no_additional (h : c.additionalReservedNames = []) :
    c.EscapesApart :=
  escapesApart_of_unmarked (h ▸ List.forall_mem_nil _)

/-- A refined tree has no reserved names, if what is made of names for the
    target never is one: whatever the options and the additional names. -/
theorem unreserved_of_refine (hapart : c.EscapesApart) (hwf : WellFormed t)
    (hrun : (refine c).run t = .ok u t') : t'.Unreserved c.reservedNames := by
  obtain ⟨before, after, hpasses, hkeeps⟩ := c.exists_passes_eq_escape
  obtain ⟨s, m, hs, hescape, hm, hafter⟩ := exists_run_of_refine hwf hrun hpasses
  exact Pipeline.unreserved_of_forM hm
    (unreserved_of_escapeReservedNames hs hapart.escaped hescape)
    (hkeeps hapart) hafter

/-- TypeScript with a suffix for asynchronous methods and a further reserved
    name. -/
def reservingClients : Configuration where
  language := .typescript
  nativeAsync := some false
  additionalReservedNames := [" Client "]

/-- A client of a reserved name, with members whose names are keywords. -/
def keywordMembers : Tree :=
  Operation.runAll
    [.addNew .classes ⟨0⟩ (.classDecl "CLIENT" .requestBuilder),
      .addNew .methods ⟨1⟩
        (.asynchronous (.method "delete" .requestExecutor (.external "string"))),
      .addNew .properties ⟨1⟩ (.property "Type" .custom (.external "string"))]
    initial

theorem wellFormed_keywordMembers : WellFormed keywordMembers :=
  (Operation.fullyNamed_runAll _ fullyNamed_initial).wellFormed

/-- Names are escaped in whatever case they are written, and before the suffix. -/
theorem unreserved_of_refine_keywordMembers :
    ∃ t', (refine reservingClients).run keywordMembers = .ok () t'
      ∧ [⟨1⟩, ⟨2⟩, ⟨3⟩].map t'.name?
        = [some "CLIENT_escaped", some "delete_escapedAsync", some "Type_escaped"]
      ∧ t'.Unreserved reservingClients.reservedNames := by
  obtain ⟨t', hrun, hnames⟩ :
      ∃ t', (refine reservingClients).run keywordMembers = .ok () t'
        ∧ [⟨1⟩, ⟨2⟩, ⟨3⟩].map t'.name? =
          [some "CLIENT_escaped", some "delete_escapedAsync",
            some "Type_escaped"] :=
    exists_refine_eq_ok (by decide +kernel) (by decide +kernel)
  have hapart : reservingClients.EscapesApart :=
    escapesApart_of_unmarked (by decide +kernel)
  exact ⟨t', hrun, hnames,
    unreserved_of_refine hapart wellFormed_keywordMembers hrun⟩

/-- Refining a tree for a target leaves an element with a reserved name. -/
def LeavesReserved (c : Configuration) (t : Tree) : Prop :=
  WellFormed t ∧ t.validateReferences = .ok () ∧ c.validate = .ok ()
    ∧ ∃ t', (refine c).run t = .ok () t' ∧ ¬ t'.Unreserved c.reservedNames

/-- An element that was left so can be looked up. -/
theorem leavesReserved_of_lookup (x : ElementId) (name : String)
    (hwf : WellFormed t) (hbound : t.validateReferences = .ok ())
    (hreserved : ∃ extra ∈ c.additionalReservedNames,
      Text.lowercase (Text.trim extra) = Text.lowercase name)
    (hlookup : ∃ t', (refine c).run t = .ok () t' ∧ t'.isAncestor t'.root x = true
      ∧ (t'.get? x).any (fun e => e.isEscapable && e.name = name) = true) :
    LeavesReserved c t := by
  obtain ⟨t', hrun, hbelow, hany⟩ := hlookup
  refine ⟨hwf, hbound, validate_of_refine hrun, t', hrun, fun hunreserved => ?_⟩
  obtain ⟨e, he, hnamed⟩ := (Option.any_eq_true _ _).mp hany
  obtain ⟨hescapable, hname⟩ := Bool.and_eq_true_iff.mp hnamed
  have hfree :=
    unreserved_iff.mp hunreserved x e (isAncestor_imp_ancestor hbelow) he hescapable
  rw [of_decide_eq_true hname,
    contains_reservedNames_iff.mpr (Or.inr hreserved)] at hfree
  cases hfree

/-- The tree of one class with an asynchronous method and a property, of given
    names. -/
def classNamed (className methodName propertyName : String) : Tree :=
  Operation.runAll
    [.addNew .classes ⟨0⟩ (.classDecl className .custom),
      .addNew .methods ⟨1⟩
        (.asynchronous (.method methodName .custom (.external "string"))),
      .addNew .properties ⟨1⟩ (.property propertyName .custom (.external "string"))]
    initial

/-- Refining can leave a reserved name: one that the suffix for asynchronous
    methods makes of an unreserved name, one that is the escaped form of
    another, and one that a property gets to be told from its class. -/
theorem exists_reserved_of_refine :
    LeavesReserved
        { language := .typescript, nativeAsync := some false,
          additionalReservedNames := ["loadAsync"] }
        (classNamed "Client" "load" "size")
      ∧ LeavesReserved
        { language := .go, additionalReservedNames := ["breakEscaped"] }
        (classNamed "break" "load" "size")
      ∧ LeavesReserved
        { language := .csharp, additionalReservedNames := ["item_prop"] }
        (classNamed "Item" "load" "Item") := by
  have hwf : ∀ className methodName propertyName,
      WellFormed (classNamed className methodName propertyName) :=
    fun _ _ _ => (Operation.fullyNamed_runAll _ fullyNamed_initial).wellFormed
  refine ⟨?_, ?_, ?_⟩
  · exact leavesReserved_of_lookup ⟨2⟩ "loadAsync" (hwf _ _ _) (by decide +kernel)
      (by decide +kernel)
      (exists_refine_eq_ok (by decide +kernel) (by decide +kernel))
  · exact leavesReserved_of_lookup ⟨1⟩ "breakEscaped" (hwf _ _ _)
      (by decide +kernel) (by decide +kernel)
      (exists_refine_eq_ok (by decide +kernel) (by decide +kernel))
  · exact leavesReserved_of_lookup ⟨3⟩ "Item_prop" (hwf _ _ _) (by decide +kernel)
      (by decide +kernel)
      (exists_refine_eq_ok (by decide +kernel) (by decide +kernel))

end Configuration

end CodeModel
