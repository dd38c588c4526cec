import CodeModel.Proofs.EscapedNames
import CodeModel.Proofs.Following
import CodeModel.Proofs.Keywords
import CodeModel.Proofs.RenameReach
import CodeModel.Proofs.Successes

/-!
# Escaped names

Reserved names are escaped one element after another, and each escape names
references and imports anew elsewhere. The elements do not get in each other's
way: an escape changes no name but one, so each element is escaped from the name
that it had, and the imports that have followed one escape and then another
carry the names of the tree in which the two of them have been made.

* **`RenamedBy`**: a tree in which some elements have other names, and
  everything else follows.
* **`RenamedBy.rename`**: one more element.
* **`renamedBy_of_escapes`**: the whole traversal, which is never refused.

Main statement: `escaped_of_escapeReservedNames`, what the traversal makes of a
tree and when no reserved name is left.
-/

namespace CodeModel

open CodeModel.Tree

/-- Escaping leaves no name empty. -/
theorem EscapeStyle.apply_ne_empty (style : EscapeStyle) {name : String}
    (h : name ≠ "") : style.apply name ≠ "" := by
  intro hempty
  cases style with
  | atSign =>
      obtain ⟨hat, -⟩ := String.append_eq_empty_iff.mp hempty
      exact absurd hat (by decide)
  | suffix ending =>
      obtain ⟨hname, -⟩ := String.append_eq_empty_iff.mp hempty
      exact h hname

namespace Element

/-- The element under another name, if it gets one. A class or property notes
    the name that it had. -/
def renameTo (name? : Option String) (e : Element) : Element :=
  match name? with
  | some name => (e.withName name).keepWireName e.name
  | none => e

/-- The name is the new one, if there is one. -/
theorem name_renameTo (name? : Option String) (e : Element) :
    (e.renameTo name?).name = name?.getD e.name := by
  cases name? <;> rfl

theorem place_renameTo (name? : Option String) (e : Element) :
    (e.renameTo name?).place = e.place := by
  cases name? with
  | none => rfl
  | some name =>
      rw [renameTo, place_eq_of_frame_eq (frame_keepWireName e.name _),
        place_withName]

theorem isEscapable_follow (names told : ElementId → Option String) (e : Element) :
    (e.follow names told).isEscapable = e.isEscapable := by
  obtain ⟨name, parent, children, description, content⟩ := e
  cases content <;> rfl

theorem isEscapable_renameTo (name? : Option String) (e : Element) :
    (e.renameTo name?).isEscapable = e.isEscapable := by
  obtain ⟨name, parent, children, description, content⟩ := e
  cases name? <;> cases content <;> rfl

/-- An element that gets another name and follows is what it was in every slot,
    under the names that are told. The header of a class repeats the name, and
    the name that it had is noted. -/
theorem matches_renameTo_follow {names told : ElementId → Option String}
    {shown : TypeRef → String → Prop} {named : Import → String → Prop}
    (hshown : ∀ r : TypeRef, shown r (r.shownBy names))
    (hnamed : ∀ i : Import, named i ((i.target?.bind told).getD i.name))
    (name? : Option String) (e : Element) :
    e.content.Matches (TypeRef.Matches shown fun d => d)
      (Import.Matches (TypeRef.Matches shown fun d => d) named)
      (fun a b => b = name?.getD a)
      (fun w w' => w' = if name?.isSome then some (w.getD e.name) else w)
      ((e.renameTo name?).follow names told).content := by
  have hfollow := matches_follow hshown hnamed (e.renameTo name?)
  obtain ⟨oldName, parent, children, description, content⟩ := e
  cases name? with
  | none => exact hfollow
  | some name =>
      cases content with
      | classDecl c =>
          cases hfollow with
          | classDecl hkind htoken hinherits himplements himports hwire =>
              exact .classDecl hkind htoken hinherits himplements himports hwire
      | property p =>
          cases hfollow with
          | property hkind htype hwire hdefault =>
              exact .property hkind htype hwire hdefault
      | namespaceDecl block =>
          cases hfollow with
          | namespaceDecl himports => exact .namespaceDecl himports
      | enumDecl options => exact .enumDecl options
      | method m =>
          cases hfollow with
          | method hkind hasync hreturn => exact .method hkind hasync hreturn
      | parameter p =>
          cases hfollow with
          | parameter hkind htype hdefault => exact .parameter hkind htype hdefault
      | indexer i =>
          cases hfollow with
          | indexer hindex hreturn => exact .indexer hindex hreturn

/-- What follows a renaming keeps its name on the wire. -/
theorem wireSlot?_follow (names told : ElementId → Option String) (e : Element) :
    (e.follow names told).wireSlot? = e.wireSlot? := by
  rw [follow, wireSlot?_mapImports, wireSlot?_mapTypes]

end Element

namespace Edit

/-- What is done to one element when reserved names are escaped. -/
def escapeOwn (reserved : ReservedNames) (style : EscapeStyle) (id : ElementId) :
    Edit Unit := do
  let e ← inspect (·.element id)
  if e.isEscapable && reserved.contains e.name then
    setName id (style.apply e.name)
    modifyElement id (Element.keepWireName e.name)

/-- The pass is a crawl with one turn for each element. -/
theorem escapeReservedNames_eq (reserved : ReservedNames) (style : EscapeStyle) :
    escapeReservedNames reserved style = crawl (escapeOwn reserved style) := rfl

end Edit

namespace Tree

variable {t s : Tree} {id x : ElementId} {e : Element}
  {names : ElementId → Option String} {reserved : ReservedNames}
  {style : EscapeStyle}

/-! ## Elements under other names -/

/-- What `names` tells of classes and enums. -/
def declarationName? (t : Tree) (names : ElementId → Option String)
    (d : ElementId) : Option String :=
  if t.isDeclaration d then names d else none

/-- Tree `s` is `t` with the elements of which `names` tells under the names
    told. References to them show these names, and imports of what sits at or
    below them carry the names that they have in `s`. -/
structure RenamedBy (names : ElementId → Option String) (t s : Tree) : Prop where
  wellLinked : WellLinked s
  changed :
    ChangedBy (fun x e => (e.renameTo (names x)).follow (t.declarationName? names)
    (t.importNameBelow? (fun a => (names a).isSome) s)) t s

/-- With no new names nothing changes. -/
theorem renamedBy_refl (hwl : WellLinked t) : RenamedBy (fun _ => none) t t where
  wellLinked := hwl
  changed := by
    refine (changedBy_refl t).congr fun x e _ => ?_
    have hnames : t.declarationName? (fun _ => none) = fun _ => none := by
      funext d
      rw [declarationName?, ite_self]
    have htold : t.importNameBelow? (fun _ => (none : Option String).isSome) t
        = fun _ => none :=
      importNameBelow?_false t t
    rw [hnames, htold, Element.follow_none, Element.renameTo]

/-- Renaming moves nothing. -/
theorem RenamedBy.places (h : RenamedBy names t s) : SamePlaces t s :=
  h.changed.samePlaces fun x e _ => by
    rw [Element.place_eq_of_frame_eq (Element.frame_follow _ _ _),
      Element.place_renameTo]

/-- Elements have the names told, and those of which nothing is told keep
    theirs. -/
theorem RenamedBy.name?_eq (h : RenamedBy names t s) (he : t.get? x = some e) :
    s.name? x = some ((names x).getD e.name) := by
  rw [name?, h.changed.get?_eq, he, Option.map_some, Option.map_some,
    Element.name_follow, Element.name_renameTo]

/-- One more element is renamed. What is told of it is told last, and nothing
    was told of it before. -/
theorem RenamedBy.rename (h : RenamedBy names t s) (hwl : WellLinked t)
    (hid : names id = none) (he : t.get? id = some e) (name : String) :
    RenamedBy (fun x => if x = id then some name else names x) t
      ((s.rename id name).modify id (Element.keepWireName e.name)) := by
  have hplaces := h.places
  have hkept : SameFrames (s.rename id name)
      ((s.rename id name).modify id (Element.keepWireName e.name)) :=
    sameFrames_modify _ id (Element.frame_keepWireName e.name)
  have hrenamed := h.wellLinked.rename id name
  have hplaces' := hplaces.trans (samePlaces_rename s id name)
  refine ⟨hkept.wellLinked hrenamed, ?_⟩
  -- What is told of the one element goes before what was told of the others.
  have hnames : t.declarationName? (fun x => if x = id then some name else names x)
      = fun d => (if s.isDeclaration d = true ∧ d = id then some name else none).or
        (t.declarationName? names d) := by
    funext d
    rw [declarationName?, declarationName?, ← hplaces.isDeclaration_eq d]
    cases s.isDeclaration d <;> by_cases hd : d = id <;> simp [hd]
  have htold :
      t.importNameBelow? (fun a => (if a = id then some name else names a).isSome)
          ((s.rename id name).modify id (Element.keepWireName e.name))
        = fun d =>
          ((s.rename id name).importNameBelow? (· == id) (s.rename id name) d).or
            (t.importNameBelow? (fun a => (names a).isSome) s d) := by
    funext d
    have hsame :
        t.importNameBelow? (fun a => (if a = id then some name else names a).isSome)
            ((s.rename id name).modify id (Element.keepWireName e.name)) d
          = t.importNameBelow?
            (fun a => (if a = id then some name else names a).isSome)
            (s.rename id name) d := by
      rw [importNameBelow?, importNameBelow?, hkept.importName_eq]
    rw [hsame]
    refine importNameBelow?_step hwl hrenamed (hplaces'.kind?_eq d) ?_
      fun hout => ?_
    · rw [hplaces'.within_iff]
      constructor
      · rintro ⟨a, ha, hin⟩
        by_cases haid : a = id
        · exact Or.inl (haid ▸ hin)
        · exact Or.inr ⟨a, by simpa [haid] using ha, hin⟩
      · rintro (hin | ⟨a, ha, hin⟩)
        · exact ⟨id, by simp, hin⟩
        · refine ⟨a, ?_, hin⟩
          by_cases haid : a = id <;> simp [haid, ha]
    · rw [(samePlaces_rename s id name).within_iff] at hout
      exact importName_eq_of_sameAbove h.wellLinked hrenamed
        (samePlaces_rename s id name).root_eq
        (h.wellLinked.sameAbove_rename name hout)
  refine ((h.changed.trans (changedBy_rename h.wellLinked id name)).trans
    (changedBy_modify _ id _)).congr
    fun x ex hex => ?_
  rw [renamedElement_eq_follow, hnames, htold]
  by_cases hx : x = id
  · subst hx
    obtain rfl : e = ex := Option.some.inj (he.symm.trans hex)
    simp only [if_pos, hid, Element.renameTo, Element.follow_withName,
      Element.follow_follow, Element.follow_keepWireName]
  · simp only [if_neg hx, Element.follow_follow]

/-! ## Escapes one after another -/

/-- The escaped name of an element below the root, if its name is reserved and
    its kind does not keep such names. -/
def escapedName? (t : Tree) (reserved : ReservedNames) (style : EscapeStyle)
    (x : ElementId) : Option String :=
  match t.get? x with
  | some e =>
      if t.isAncestor t.root x && e.isEscapable && reserved.contains e.name
        then some (style.apply e.name) else none
  | none => none

/-- An element gets an escaped name exactly when it is below the root, may be
    escaped, and has a reserved name. -/
theorem WellLinked.escapedName?_eq_some_iff (hwl : WellLinked t) {name : String} :
    t.escapedName? reserved style x = some name ↔
      Ancestor t t.root x ∧ ∃ e, t.get? x = some e ∧ e.isEscapable = true
        ∧ reserved.contains e.name = true
        ∧ style.apply e.name = name := by
  rw [escapedName?]
  cases t.get? x with
  | none => simp
  | some e => simp [Option.ite_none_right_eq_some, hwl.isAncestor_iff, and_assoc]

/-- Below the root the rule reads as a choice. -/
theorem WellLinked.escapedName?_eq (hwl : WellLinked t) (he : t.get? x = some e)
    (hbelow : Ancestor t t.root x) :
    t.escapedName? reserved style x
      = if e.isEscapable && reserved.contains e.name then some (style.apply e.name)
        else none := by
  rw [escapedName?, he]
  dsimp only
  rw [hwl.isAncestor_iff.mpr hbelow, Bool.true_and]

/-- The escaped names of the elements that have had their turn. -/
def escapedAmong (t : Tree) (reserved : ReservedNames) (style : EscapeStyle)
    (done : List ElementId) (x : ElementId) : Option String :=
  if x ∈ done then t.escapedName? reserved style x else none

/-- One turn more: the element whose turn it was gets its escaped name, and all
    others are as before. -/
theorem escapedAmong_append (done : List ElementId) (id : ElementId) :
    t.escapedAmong reserved style (done ++ [id])
      = fun x => if x = id then t.escapedName? reserved style id
        else t.escapedAmong reserved style done x := by
  funext x
  rw [escapedAmong, escapedAmong]
  by_cases hx : x = id
  · simp [hx]
  · simp [hx]

/-- The visit of one element escapes its name if that is reserved, and what it
    does so far is done for one more. -/
theorem succeeds_escapeOwn (hwf : WellFormed t) {done rest : List ElementId}
    (hitems : t.descendants t.root = done ++ id :: rest)
    (h : RenamedBy (t.escapedAmong reserved style done) t s) :
    Edit.Succeeds (Edit.escapeOwn reserved style id) s fun _ s' =>
      RenamedBy (t.escapedAmong reserved style (done ++ [id])) t s' := by
  have hwl := hwf.toWellLinked
  obtain ⟨hnot, hbelow⟩ := hwl.turn_of_descendants_eq hitems
  have hnone : t.escapedAmong reserved style done id = none := if_neg hnot
  obtain ⟨e, he⟩ := Option.isSome_iff_exists.mp hbelow.isSome_get?
  -- The element has the name that it had, for it is not among those that have been
  -- renamed.
  obtain ⟨e', he', hname, hescapable⟩ : ∃ e', s.get? id = some e' ∧ e'.name = e.name
      ∧ e'.isEscapable = e.isEscapable := by
    refine ⟨_, by rw [h.changed.get?_eq, he, Option.map_some], ?_, ?_⟩
    · rw [Element.name_follow, Element.name_renameTo, hnone, Option.getD_none]
    · rw [Element.isEscapable_follow, Element.isEscapable_renameTo]
  refine (Edit.succeeds_element (Q := fun x s' => e' = x ∧ s = s') he'
    ⟨rfl, rfl⟩).bind ?_
  rintro _ _ ⟨rfl, rfl⟩
  rw [escapedAmong_append, hwl.escapedName?_eq he hbelow, hname, hescapable]
  cases e.isEscapable && reserved.contains e.name with
  | true =>
      simp only [↓reduceIte]
      have hroot : id ≠ s.root := by
        rw [h.places.root_eq]
        rintro rfl
        exact hwl.not_ancestor_root hbelow
      have hne := style.apply_ne_empty (hwf.name_ne_empty id e he hbelow)
      refine (Edit.succeeds_setName (Q := fun _ s' =>
        s' = s.rename id (style.apply e.name)) hne hroot he' rfl).bind ?_
      rintro _ _ rfl
      exact Edit.succeeds_modifyElement (h.rename hwl hnone he (style.apply e.name))
  | false =>
      have hsame :
          (fun x => if x = id then none else t.escapedAmong reserved style done x)
          = t.escapedAmong reserved style done := by
        funext x
        by_cases hx : x = id
        · rw [if_pos hx, hx, hnone]
        · rw [if_neg hx]
      simp only [Bool.false_eq_true, ↓reduceIte, hsame]
      exact Edit.succeeds_pure h

/-- Reserved names are always escaped, each from what it was in the tree at the
    beginning. -/
theorem renamedBy_of_escapes (hwf : WellFormed t) (reserved : ReservedNames)
    (style : EscapeStyle) :
    ∃ s, (Edit.escapeReservedNames reserved style).run t = .ok () s
      ∧ RenamedBy (t.escapedName? reserved style) t s := by
  have hwl := hwf.toWellLinked
  have hnil : t.escapedAmong reserved style [] = fun _ => none := by
    funext x
    rw [escapedAmong, if_neg List.not_mem_nil]
  have hall : t.escapedAmong reserved style (t.descendants t.root)
      = t.escapedName? reserved style := by
    funext x
    rw [escapedAmong]
    split
    · rfl
    next hout =>
      refine (Option.eq_none_iff_forall_ne_some.mpr fun name hname => hout ?_).symm
      exact hwl.mem_descendants_iff.mpr (hwl.escapedName?_eq_some_iff.mp hname).1
  have hcrawl : Edit.Succeeds (Edit.escapeReservedNames reserved style) t fun _ s =>
      RenamedBy (t.escapedAmong reserved style (t.descendants t.root)) t s := by
    rw [Edit.escapeReservedNames_eq, Edit.crawl]
    refine Edit.succeeds_crawlWith_done
      (I := fun done (_ : Unit) s =>
        RenamedBy (t.escapedAmong reserved style done) t s)
      (fun done _ s id h hid => ?_)
        (fun done id rest _ s hitems h => succeeds_escapeOwn hwf hitems h)
      (hnil ▸ renamedBy_refl hwl)
    rw [h.wellLinked.isAttached_iff, h.places.attached_iff]
    exact Or.inr (hwl.mem_descendants_iff.mp hid)
  obtain ⟨_, s, hrun, h⟩ := hcrawl
  exact ⟨s, hrun, hall ▸ h⟩

/-! ## What is escaped -/

/-- Element `x` of tree `t` is `e`, sits below the root and has a reserved name,
    and it is neither an indexer nor a constructor. -/
structure BearsReserved (reserved : ReservedNames) (t : Tree) (x : ElementId)
    (e : Element) : Prop where
  get?_eq : t.get? x = some e
  below : Ancestor t t.root x
  mayBeEscaped : e.MayBeEscaped
  reserved : reserved.contains e.name = true

/-- Escaped names are for what bears reserved names. -/
theorem WellLinked.escapedName?_eq_some_iff_bearsReserved (hwl : WellLinked t)
    {name : String} :
    t.escapedName? reserved style x = some name ↔
      ∃ e, BearsReserved reserved t x e ∧ style.apply e.name = name := by
  rw [hwl.escapedName?_eq_some_iff]
  constructor
  · rintro ⟨hbelow, e, he, hkind, hmem, hname⟩
    exact ⟨e, ⟨he, hbelow, Element.isEscapable_iff.mp hkind, hmem⟩, hname⟩
  · rintro ⟨e, ⟨he, hbelow, hkind, hmem⟩, hname⟩
    exact ⟨hbelow, e, he, Element.isEscapable_iff.mpr hkind, hmem, hname⟩

/-- So an element gets one exactly when it bears a reserved name. -/
theorem WellLinked.isSome_escapedName?_iff (hwl : WellLinked t) :
    (t.escapedName? reserved style x).isSome ↔
      ∃ e, BearsReserved reserved t x e := by
  rw [Option.isSome_iff_exists]
  simp only [hwl.escapedName?_eq_some_iff_bearsReserved]
  exact ⟨fun ⟨_, e, he, _⟩ => ⟨e, he⟩, fun ⟨e, he⟩ => ⟨_, e, he, rfl⟩⟩

theorem BearsReserved.escapedName?_eq (h : BearsReserved reserved t x e)
    (hwl : WellLinked t) :
    t.escapedName? reserved style x = some (style.apply e.name) :=
  hwl.escapedName?_eq_some_iff_bearsReserved.mpr ⟨e, h, rfl⟩

/-- What bears no reserved name gets none. -/
theorem WellLinked.escapedName?_eq_none (hwl : WellLinked t)
    (he : t.get? x = some e) (hnot : ¬ BearsReserved reserved t x e) :
    t.escapedName? reserved style x = none := by
  refine Option.eq_none_iff_forall_ne_some.mpr fun name hname => hnot ?_
  obtain ⟨e₀, hbears, -⟩ := hwl.escapedName?_eq_some_iff_bearsReserved.mp hname
  obtain rfl : e = e₀ := Option.some.inj (he.symm.trans hbears.get?_eq)
  exact hbears

/-- A reference that showed what `r` shows in tree `t` shows `name` after the
    escape: the escaped name of the class or enum that it is bound to, if that
    is escaped, and otherwise what it showed. -/
structure ShowsEscaped (reserved : ReservedNames) (style : EscapeStyle) (t : Tree)
    (r : TypeRef) (name : String) : Prop where
  bound : ∀ d e, r.definition? = some d → BearsReserved reserved t d e →
    e.kind = .classDecl ∨ e.kind = .enumDecl → name = style.apply e.name
  other : (∀ d e, r.definition? = some d → BearsReserved reserved t d e →
    ¬ (e.kind = .classDecl ∨ e.kind = .enumDecl)) → name = r.name

/-- An import that was `i` in tree `t` is of `name` after the escape, which
    leaves tree `s`: if it is bound to a class or an enum at or below what is
    escaped, of the name that imports of that carry in `s`, and otherwise of the
    name that it had. -/
structure ImportsEscaped (reserved : ReservedNames) (t s : Tree) (i : Import)
    (name : String) : Prop where
  bound : ∀ d a e, i.target? = some d → t.isDeclaration d = true →
    BearsReserved reserved t a e → Within t a d → name = s.importName d
  other : (∀ d a e, i.target? = some d → t.isDeclaration d = true →
    BearsReserved reserved t a e → ¬ Within t a d) → name = i.name

/-- A declaration is a class or an enum. -/
theorem isDeclaration_eq_true_iff (he : t.get? x = some e) :
    t.isDeclaration x = true ↔ e.kind = .classDecl ∨ e.kind = .enumDecl := by
  rw [isDeclaration_iff, kind?, he, Option.map_some, Option.some.injEq,
    Option.some.injEq]

/-- A reference shows the escaped name of what it is bound to, if that is
    escaped, and what it showed otherwise. -/
theorem WellLinked.showsEscaped (hwl : WellLinked t) (r : TypeRef) :
    ShowsEscaped reserved style t r
      (r.shownBy (t.declarationName? (t.escapedName? reserved style))) := by
  constructor
  · intro d e hd hbears hkind
    rw [TypeRef.shownBy, hd, Option.bind_some, declarationName?,
      if_pos ((isDeclaration_eq_true_iff hbears.get?_eq).mpr hkind),
      hbears.escapedName?_eq hwl, Option.getD_some]
  · intro hother
    rw [TypeRef.shownBy]
    cases hd : r.definition? with
    | none => rfl
    | some d =>
        rw [Option.bind_some, declarationName?]
        split
        next hdecl =>
          cases hname : t.escapedName? reserved style d with
          | none => rfl
          | some name =>
              obtain ⟨e, hbears, -⟩ :=
                hwl.escapedName?_eq_some_iff_bearsReserved.mp hname
              exact absurd ((isDeclaration_eq_true_iff hbears.get?_eq).mp hdecl)
                (hother d e hd hbears)
        next => rfl

/-- An import of what sits at or below something escaped gets the name that it
    then carries, and others keep theirs. -/
theorem WellLinked.importsEscaped (hwl : WellLinked t) (s : Tree) (i : Import) :
    ImportsEscaped reserved t s i ((i.target?.bind
      (t.importNameBelow? (fun a => (t.escapedName? reserved style a).isSome)
        s)).getD i.name) := by
  have hbelow : ∀ d,
      t.isBelowSome (fun a => (t.escapedName? reserved style a).isSome) d = true ↔
      ∃ a e, BearsReserved reserved t a e ∧ Within t a d := by
    intro d
    rw [hwl.isBelowSome_iff]
    simp only [hwl.isSome_escapedName?_iff]
    exact ⟨fun ⟨a, ⟨e, he⟩, hin⟩ => ⟨a, e, he, hin⟩,
      fun ⟨a, e, he, hin⟩ => ⟨a, ⟨e, he⟩, hin⟩⟩
  constructor
  · intro d a e hd hdecl hbears hin
    rw [hd, Option.bind_some, importNameBelow?, hdecl, (hbelow d).mpr
      ⟨a, e, hbears, hin⟩, Bool.and_self, if_pos rfl, Option.getD_some]
  · intro hother
    cases hd : i.target? with
    | none => rfl
    | some d =>
        rw [Option.bind_some, importNameBelow?, if_neg, Option.getD_none]
        intro h
        obtain ⟨hdecl, hsome⟩ := Bool.and_eq_true_iff.mp h
        obtain ⟨a, e, hbears, hin⟩ := (hbelow d).mp hsome
        exact hother d a e hd hdecl hbears hin

/-- Element `x` of tree `t` was `e` and is `e'` after the escape, which leaves
    tree `s`. Its types, in any slot and at any depth, and its imports follow
    what is escaped. If it is escaped itself, the header of a class repeats the
    escaped name, and a class or property is known on the wire by the name that
    it was known by. All other data are the same. -/
structure EscapedElement (reserved : ReservedNames) (style : EscapeStyle)
    (t s : Tree) (x : ElementId) (e e' : Element) : Prop where
  description_eq : e'.description = e.description
  content : e.content.Matches (TypeRef.Matches (ShowsEscaped reserved style t)
    fun d => d) (Import.Matches (TypeRef.Matches (ShowsEscaped reserved style t)
    fun d => d) (ImportsEscaped reserved t s))
    (fun a b => (BearsReserved reserved t x e → b = style.apply e.name)
    ∧ (¬ BearsReserved reserved t x e → b = a))
    (fun w w' => (BearsReserved reserved t x e → w' = some (w.getD e.name))
    ∧ (¬ BearsReserved reserved t x e → w' = w)) e'.content

/-- Tree `s` is `t` with reserved names escaped. What is below the root, does
    not keep reserved names and bears one is called by the escaped name, and
    everything else keeps its name; a class or a property that is escaped is
    known on the wire by the name that it was known by; references to what is
    escaped, and imports of what sits at or below it, follow, slot by slot
    (`content`) and as one change of every element (`changed`). All else is the
    same. -/
structure Escaped (reserved : ReservedNames) (style : EscapeStyle) (t s : Tree) :
    Prop where
  places : SamePlaces t s
  escaped : ∀ x e, BearsReserved reserved t x e →
    s.name? x = some (style.apply e.name)
  kept : ∀ x e, t.get? x = some e → ¬ BearsReserved reserved t x e →
    s.name? x = some e.name
  wire : ∀ x e slot, BearsReserved reserved t x e → e.wireSlot? = some slot →
    ∃ e', s.get? x = some e' ∧ e'.wireSlot? = some (some (slot.getD e.name))
  content : ∀ x e, t.get? x = some e →
    ∃ e', s.get? x = some e' ∧ EscapedElement reserved style t s x e e'
  changed :
    ChangedBy (fun x e => (e.renameTo (t.escapedName? reserved style x)).follow
    (t.declarationName? (t.escapedName? reserved style))
    (t.importNameBelow? (fun a => (t.escapedName? reserved style a).isSome) s)) t s

/-- What the whole change makes of an element, said slot by slot. -/
theorem WellLinked.escapedElement (hwl : WellLinked t) (he : t.get? x = some e)
    (s : Tree) :
    EscapedElement reserved style t s x e
      ((e.renameTo (t.escapedName? reserved style x)).follow
      (t.declarationName? (t.escapedName? reserved style))
      (t.importNameBelow? (fun a => (t.escapedName? reserved style a).isSome) s))
        where
  description_eq := by
    cases t.escapedName? reserved style x <;> rfl
  content := by
    refine (Element.matches_renameTo_follow hwl.showsEscaped (hwl.importsEscaped s)
      (t.escapedName? reserved style x) e).imp
      (fun a b hb => ⟨fun h => ?_, fun h => ?_⟩)
      fun w w' hw => ⟨fun h => ?_, fun h => ?_⟩
    · rw [hb, h.escapedName?_eq hwl, Option.getD_some]
    · rw [hb, hwl.escapedName?_eq_none he h, Option.getD_none]
    · rw [hw, h.escapedName?_eq hwl, Option.isSome_some, if_pos rfl]
    · rw [hw, hwl.escapedName?_eq_none he h, Option.isSome_none,
        if_neg Bool.false_ne_true]

/-- A tree renamed by the escaped names is one with reserved names escaped. -/
theorem RenamedBy.escaped (h : RenamedBy (t.escapedName? reserved style) t s)
    (hwl : WellLinked t) : Escaped reserved style t s where
  places := h.places
  escaped x e hbears := by
    rw [h.name?_eq hbears.get?_eq, hbears.escapedName?_eq hwl, Option.getD_some]
  kept x e he hout := by
    rw [h.name?_eq he, hwl.escapedName?_eq_none he hout, Option.getD_none]
  wire x e slot hbears hslot := by
    refine ⟨_, by rw [h.changed.get?_eq, hbears.get?_eq, Option.map_some], ?_⟩
    rw [Element.wireSlot?_follow, hbears.escapedName?_eq hwl,
      Element.renameTo, (Element.notesWireName_keepWireName e).wireSlot?_eq _
      (Element.wireSlot?_withName _ e), hslot, Option.map_some]
  content x e he :=
    ⟨_, by rw [h.changed.get?_eq, he, Option.map_some], hwl.escapedElement he s⟩
  changed := h.changed

/-- No reserved name is left when what is made of reserved names is none. -/
theorem RenamedBy.unreserved (h : RenamedBy (t.escapedName? reserved style) t s)
    (hwl : WellLinked t) (hstyle : ∀ name, reserved.contains name = true →
      reserved.contains (style.apply name) = false) : Unreserved reserved s := by
  refine unreserved_iff.mpr fun x e' hbelow he' hkind => ?_
  obtain ⟨e, he, rfl⟩ := h.changed.exists_of_get? he'
  rw [h.places.root_eq, h.places.ancestor_iff] at hbelow
  rw [Element.isEscapable_follow, Element.isEscapable_renameTo] at hkind
  rw [Element.name_follow, Element.name_renameTo]
  rw [hwl.escapedName?_eq he hbelow, hkind, Bool.true_and]
  cases hmem : reserved.contains e.name with
  | true => exact hstyle e.name hmem
  | false => exact hmem

/-- References and imports that showed current names before the escapes show
    current names after them. -/
theorem current_of_escapes (hwl : WellLinked t) {u : Unit}
    (hrun : (Edit.escapeReservedNames reserved style).run t = .ok u s) :
    (t.ReferencesCurrent → s.ReferencesCurrent)
      ∧ (t.ImportsCurrent → s.ImportsCurrent) := by
  have hvisit : ∀ a id b, WellLinked a →
      (Edit.escapeOwn reserved style id).run a = .ok () b →
      WellLinked b ∧ (a.ReferencesCurrent → b.ReferencesCurrent)
        ∧ (a.ImportsCurrent → b.ImportsCurrent) := by
    intro a id b hwl hone
    obtain ⟨e, a₁, helement, hrest⟩ := Edit.run_bind_eq_ok_iff.mp hone
    obtain ⟨-, rfl⟩ := Edit.run_element_eq_ok_iff.mp helement
    split at hrest
    · obtain ⟨_, a₂, hset, hkeep⟩ := Edit.run_bind_eq_ok_iff.mp hrest
      obtain ⟨-, -, -, rfl⟩ := Edit.run_setName_eq_ok hset
      rw [Edit.run_modifyElement_eq_ok_iff] at hkeep
      subst hkeep
      have hframe := Element.frame_keepWireName e.name
      exact ⟨(sameFrames_modify _ id hframe).wellLinked (hwl.rename id _), fun h =>
        (h.rename hwl id _).modify hframe (Element.references_keepWireName e.name)
        id, fun h =>
        (h.rename hwl id _).modify hframe (Element.imports_keepWireName e.name) id⟩
    · obtain ⟨-, rfl⟩ := Edit.run_pure_eq_ok_iff.mp hrest
      exact ⟨hwl, fun h => h, fun h => h⟩
  rw [Edit.escapeReservedNames_eq] at hrun
  refine (Edit.crawl_induction (I := fun b => WellLinked b ∧ (t.ReferencesCurrent →
    b.ReferencesCurrent) ∧ (t.ImportsCurrent → b.ImportsCurrent)) ?_
    ⟨hwl, fun h => h, fun h => h⟩ hrun).2
  rintro a id b ⟨hwl, hrefs, himports⟩ - hone
  obtain ⟨hwl', hrefs', himports'⟩ := hvisit a id b hwl hone
  exact ⟨hwl', hrefs' ∘ hrefs, himports' ∘ himports⟩

/-- Reserved names are always escaped: exactly the elements below the root that
    have one and do not keep it are called by the escaped name of their own,
    everything that shows their names follows, and nothing else changes.
    References and imports that showed current names still do. If no escaped
    name is reserved, none is left. -/
theorem escaped_of_escapeReservedNames (hwf : WellFormed t)
    (reserved : ReservedNames) (style : EscapeStyle) :
    ∃ s, (Edit.escapeReservedNames reserved style).run t = .ok () s
      ∧ Escaped reserved style t s
      ∧ (t.ReferencesCurrent → s.ReferencesCurrent)
      ∧ (t.ImportsCurrent → s.ImportsCurrent)
      ∧ ((∀ name, reserved.contains name = true →
        reserved.contains (style.apply name) = false) →
        Unreserved reserved s) := by
  have hwl := hwf.toWellLinked
  obtain ⟨s, hrun, hrenamed⟩ := renamedBy_of_escapes hwf reserved style
  obtain ⟨hrefs, himports⟩ := current_of_escapes hwl hrun
  exact ⟨s, hrun, hrenamed.escaped hwl, hrefs, himports, hrenamed.unreserved hwl⟩

/-- A tree with a class of a reserved name in a namespace of one, with a
    property of its name, and with another class that imports it and refers to
    it. -/
def classInEvent : Tree :=
  Operation.runAll
    [.addNamespace ⟨0⟩ "event",
      .addNew .classes ⟨1⟩ (.classDecl "Class" .model),
      .addNew .properties ⟨2⟩ (.property "class" .custom (.external "string")),
      .addNew .classes ⟨0⟩ (.classDecl "Client" .custom),
      .addImports ⟨4⟩ [.ofSymbol "event" (.declared "Class" ⟨2⟩)],
      .addNew .properties ⟨4⟩ (.property "value" .custom (.declared "Class" ⟨2⟩))]
    initial

theorem wellFormed_classInEvent : WellFormed classInEvent :=
  (Operation.fullyNamed_runAll _ fullyNamed_initial).wellFormed

/-- The namespace is escaped before the class, and the import follows both of
    them. -/
theorem escaped_of_escapeReservedNames_classInEvent :
    let reserved := ({ language := .csharp } : Configuration).reservedNames
    ∃ s, (Edit.escapeReservedNames reserved .atSign).run classInEvent = .ok () s
      ∧ [⟨1⟩, ⟨2⟩, ⟨3⟩, ⟨4⟩].map s.name?
        = [some "@Event", some "@Class", some "@Class", some "Client"]
      ∧ s.imports ⟨4⟩ = [.ofSymbol "@Event" (.declared "@Class" ⟨2⟩)]
      ∧ s.valueType? ⟨5⟩ = some (.declared "@Class" ⟨2⟩)
      ∧ Unreserved reserved s := by
  intro reserved
  have hapart : ({ language := .csharp } : Configuration).EscapesApart :=
    Configuration.escapesApart_of_no_additional rfl
  have hlisted : reserved = Language.csharp.listedNames.withAdditional [] := by
    rw [← Language.reservedNames_eq]
    rfl
  have hempty : reserved.contains "" = false := by
    rw [hlisted]
    decide +kernel
  have hstyle : ∀ name, reserved.contains name = true →
      reserved.contains (EscapeStyle.atSign.apply name) = false := by
    intro name hmem
    refine hapart.escaped name ?_ hmem
    rintro rfl
    rw [hempty] at hmem
    cases hmem
  obtain ⟨s, hrun, -, -, -, hunreserved⟩ :=
    escaped_of_escapeReservedNames wellFormed_classInEvent reserved .atSign
  rw [hlisted] at hrun
  obtain ⟨_, s', hrun', hnames, himports, hvalue⟩ := Edit.exists_eq_ok
    (r := (Edit.escapeReservedNames (Language.csharp.listedNames.withAdditional [])
      .atSign).run classInEvent)
    (P := fun _ s =>
      [⟨1⟩, ⟨2⟩, ⟨3⟩, ⟨4⟩].map s.name?
        = [some "@Event", some "@Class", some "@Class", some "Client"]
        ∧ s.imports ⟨4⟩ = [.ofSymbol "@Event" (.declared "@Class" ⟨2⟩)]
        ∧ s.valueType? ⟨5⟩ = some (.declared "@Class" ⟨2⟩)) (by decide +kernel)
  obtain ⟨-, rfl⟩ := EStateM.Result.ok.inj (hrun.symm.trans hrun')
  exact ⟨s, by rw [hlisted, hrun], hnames, himports, hvalue, hunreserved hstyle⟩

end Tree

end CodeModel
