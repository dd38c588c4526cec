import CodeModel.Proofs.Capitals
import CodeModel.Proofs.Labels
import CodeModel.Proofs.Resting
import CodeModel.Proofs.Totality
import CodeModel.Proofs.UnionLowering

/-!
# Settled members

What one visit settles here, another visit can touch: a method and its
parameters share their class, whose imports grow with each of them; names are
read from afar; elements are made, and classes move. For each pass there is a
relation between the trees before and after a visit that says what it leaves
alone, and what has been settled stays so along that relation.

* **`BinaryReplaced`**: types are as they were or have been replaced, which
  happens once.
* **`Capitalized`**: capitals are given once, for capitals of capitals are the
  same capitals.
* **`AddsMembers`**: elements are made, but no class.
* **`Gathered`**: classes leave namespaces, and none comes into one.

Main statements: `rests_replaceBinary`, `rests_addAsyncSuffix`,
`rests_capitalizeNamespaces`, `rests_wrapUnions`, `rests_addConstructors`,
`rests_flattenInheritance` and `rests_nestQueryClasses`, by `settled_of_steps`
where elements are made or moved.
-/

namespace CodeModel

open CodeModel.Tree

/-! ## Binary data -/

mutual

/-- Names that stay what they are once they have been given are given once. -/
theorem TypeRef.rename_rename {f : TypeRef → String}
    (hf : ∀ r : TypeRef, f (r.rename f) = f r) :
    ∀ r : TypeRef, (r.rename f).rename f = r.rename f
  | ⟨name, target, isNullable, isCollection⟩ => by
      have hname := hf ⟨name, target, isNullable, isCollection⟩
      rw [TypeRef.rename] at hname ⊢
      rw [TypeRef.rename, hname, TypeTarget.rename_rename hf target]

/-- Renaming twice by names that settle at once is renaming once. -/
theorem TypeTarget.rename_rename {f : TypeRef → String}
    (hf : ∀ r : TypeRef, f (r.rename f) = f r) :
    ∀ target : TypeTarget, (target.rename f).rename f = target.rename f
  | .external => rfl
  | .declared _ => rfl
  | .union members => by
      rw [TypeTarget.rename, TypeTarget.rename,
        TypeRef.renameAll_renameAll hf members]

theorem TypeRef.renameAll_renameAll {f : TypeRef → String}
    (hf : ∀ r : TypeRef, f (r.rename f) = f r) :
    ∀ rs : List TypeRef, TypeRef.renameAll f (TypeRef.renameAll f rs)
      = TypeRef.renameAll f rs
  | [] => rfl
  | r :: rest => by
      rw [TypeRef.renameAll, TypeRef.renameAll, TypeRef.rename_rename hf r,
        TypeRef.renameAll_renameAll hf rest]

end

namespace TypeRef

/-- A replaced type is binary only if the native name is that of binary data. -/
theorem isBinary_rename (typeName : String) (r : TypeRef) :
    (r.replaceBinary typeName).isBinary = (r.isBinary && typeName == binaryName) :=
      by
  obtain ⟨name, target, isNullable, isCollection⟩ := r
  rw [replaceBinary, rename, isBinary, isBinary]
  cases target with
  | external =>
      by_cases hname : name
        = binaryName <;> simp [isExternal, TypeTarget.rename, hname]
  | _ => rfl

/-- A reference to binary data that has been replaced stays as it is. -/
theorem replaceBinary_replaceBinary (typeName : String) (r : TypeRef) :
    (r.replaceBinary typeName).replaceBinary typeName = r.replaceBinary typeName :=
      by
  refine rename_rename (fun r => ?_) r
  have hbinary := isBinary_rename typeName r
  rw [replaceBinary] at hbinary
  rw [hbinary, name_rename]
  cases r.isBinary <;> simp

/-- Replacing brings in no binary data. -/
theorem holdsBinary_of_replaceBinary {typeName : String} {r : TypeRef}
    (h : (r.replaceBinary typeName).holdsBinary = true) : r.holdsBinary = true := by
  rw [holdsBinary, replaceBinary, walk_rename, List.any_map] at h
  obtain ⟨s, hs, hbinary⟩ := List.any_eq_true.mp h
  refine List.any_eq_true.mpr ⟨s, hs, ?_⟩
  have hkept := isBinary_rename typeName s
  rw [replaceBinary] at hkept
  rw [Function.comp_apply, hkept, Bool.and_eq_true] at hbinary
  exact hbinary.1

end TypeRef

namespace Element

/-- A change that the value does not need leaves its element alone. -/
theorem mapValueType_eq_self {e : Element} {f : TypeRef → TypeRef}
    (h : ∀ r, e.valueType? = some r → f r = r) : e.mapValueType f = e := by
  obtain ⟨name, parent, children, description, content⟩ := e
  cases content with
  | method m =>
      show (⟨name, parent, children, description,
        .method { m with returnType := f m.returnType }⟩ : Element) = _
      rw [h m.returnType rfl]
  | property p =>
      show (⟨name, parent, children, description,
        .property { p with type := f p.type }⟩ : Element) = _
      rw [h p.type rfl]
  | parameter p =>
      show (⟨name, parent, children, description,
        .parameter { p with type := f p.type }⟩ : Element) = _
      rw [h p.type rfl]
  | indexer i =>
      show (⟨name, parent, children, description,
        .indexer { i with returnType := f i.returnType }⟩ : Element) = _
      rw [h i.returnType rfl]
  | _ => rfl

end Element

/-- What is absorbed stays so while what was held is held. -/
theorem Import.Absorbs.mono {block block' new : List Import} (h : Absorbs block new)
    (hkept : ∀ i ∈ block, ∃ j ∈ block', j.key = i.key) : Absorbs block' new where
  ne_nil := h.ne_nil
  named := h.named
  held i hi := by
    obtain ⟨j, hj, hkey⟩ := h.held i hi
    obtain ⟨k, hk, hkey'⟩ := hkept j hj
    exact ⟨k, hk, hkey'.trans hkey⟩

namespace Tree

variable {t t' t'' : Tree} {typeName : String}

theorem SamePlaces.typeHolders_eq (h : SamePlaces t t') (id : ElementId) :
    t'.typeHolders id = t.typeHolders id := by
  rw [typeHolders, typeHolders, h.kind?_eq, h.childrenOfKind_eq]

/-- From `t` to `t'` some types have been replaced where they stood, and imports
    have been added. -/
structure BinaryReplaced (typeName : String) (t t' : Tree) : Prop where
  places : SamePlaces t t'
  value : ∀ x, t'.valueType? x = t.valueType? x
    ∨ t'.valueType? x = (t.valueType? x).map (TypeRef.replaceBinary typeName)
  held : ∀ x, ∀ i ∈ t.imports x, ∃ j ∈ t'.imports x, j.key = i.key

theorem BinaryReplaced.refl (typeName : String) (t : Tree) :
    BinaryReplaced typeName t t :=
  ⟨.refl t, fun _ => Or.inl rfl, fun _ i hi => ⟨i, hi, rfl⟩⟩

/-- Replacements one after another are one. -/
theorem BinaryReplaced.trans (h : BinaryReplaced typeName t t')
    (h' : BinaryReplaced typeName t' t'') : BinaryReplaced typeName t t'' where
  places := h.places.trans h'.places
  value x := by
    rcases h'.value x with heq | heq <;> rcases h.value x
      with heq₀ | heq₀ <;> rw [heq, heq₀]
    · exact Or.inl rfl
    · exact Or.inr rfl
    · exact Or.inr rfl
    · rw [Option.map_map]
      exact Or.inr (congrArg (Option.map · _)
        (funext (TypeRef.replaceBinary_replaceBinary typeName)))
  held x i hi := by
    obtain ⟨j, hj, hkey⟩ := h.held x i hi
    obtain ⟨k, hk, hkey'⟩ := h'.held x j hj
    exact ⟨k, hk, hkey'.trans hkey⟩

/-- A type that replacing leaves alone is as it was. -/
theorem BinaryReplaced.valueType?_eq (h : BinaryReplaced typeName t t')
    {x : ElementId}
    (hx : ∀ r, t.valueType? x = some r → r.replaceBinary typeName = r) :
    t'.valueType? x = t.valueType? x := by
  rcases h.value x with heq | heq
  · exact heq
  · rw [heq]
    cases hr : t.valueType? x with
    | none => rfl
    | some r => exact congrArg some (hx r hr)

/-- Modifying one element is such a replacement if its place and its imports are
    kept. -/
theorem binaryReplaced_modify {id : ElementId}
    {f : Element → Element} (hplace : ∀ e, (f e).place = e.place)
    (hvalue : ∀ e, (f e).valueType? = e.valueType?
      ∨ (f e).valueType? = e.valueType?.map (TypeRef.replaceBinary typeName))
    (hheld : ∀ e, t.get? id = some e →
      ∀ i ∈ e.imports, ∃ j ∈ (f e).imports, j.key = i.key) :
    BinaryReplaced typeName t (t.modify id f) where
  places := (changedBy_modify t id f).samePlaces fun x e _ => by
    by_cases hx : x = id
    · rw [if_pos hx, hplace]
    · rw [if_neg hx]
  value x := by
    rw [valueType?, valueType?, get?_modify]
    by_cases hx : x = id
    · rw [if_pos hx]
      cases t.get? x with
      | none => exact Or.inl rfl
      | some e => exact hvalue e
    · rw [if_neg hx]
      exact Or.inl rfl
  held x i hi := by
    rw [imports, get?_modify]
    rw [imports] at hi
    by_cases hx : x = id
    · subst hx
      rw [if_pos rfl]
      cases he : t.get? x with
      | none =>
          rw [he] at hi
          exact absurd hi List.not_mem_nil
      | some e =>
          rw [he] at hi
          exact hheld e he i hi
    · rw [if_neg hx]
      exact ⟨i, hi, rfl⟩

end Tree

namespace Edit

variable {t t' : Tree} {typeName : String}

/-- A loop rests if each of its turns does. -/
theorem rests_forM {α : Type} {visit : α → Edit Unit} {items : List α}
    (h : ∀ a ∈ items, Rests (visit a) t) : Rests (items.forM visit) t := by
  rw [List.forM_eq_forM]
  induction items with
  | nil => rfl
  | cons a rest ih =>
      rw [List.forM_cons]
      exact (h a List.mem_cons_self).bind
        (ih fun b hb => h b (List.mem_cons_of_mem _ hb))

/-- Types that are replaced one after another all are such that replacing leaves
    them alone. -/
theorem binaryReplaced_of_forM {ids : List ElementId}
    {u : Unit} (hrun : (ids.forM fun h => modifyElement h
      (Element.mapValueType (TypeRef.replaceBinary typeName))).run t = .ok u t') :
    BinaryReplaced typeName t t'
      ∧ ∀ h ∈ ids, ∀ r, t'.valueType? h = some r →
        r.replaceBinary typeName = r := by
  rw [List.forM_eq_forM] at hrun
  induction ids generalizing t with
  | nil =>
      exact (run_pure_eq_ok_iff.mp hrun).2 ▸ ⟨.refl _ _, fun h hh =>
        absurd hh List.not_mem_nil⟩
  | cons id rest ih =>
      rw [List.forM_cons] at hrun
      obtain ⟨_, s, hfirst, hrest⟩ := run_bind_eq_ok_iff.mp hrun
      obtain rfl := run_modifyElement_eq_ok_iff.mp hfirst
      obtain ⟨hreplaced, hfixed⟩ := ih hrest
      have hone : BinaryReplaced typeName t
          (t.modify id (Element.mapValueType (TypeRef.replaceBinary typeName))) :=
        binaryReplaced_modify
          (fun e => Element.place_eq_of_frame_eq (Element.frame_mapValueType _ e))
          (fun e => Or.inr (Element.valueType?_mapValueType _ e))
          fun e _ => (Element.mended_mapValueType_rename _ e).keys_subset
      refine ⟨hone.trans hreplaced, fun h hh r hr => ?_⟩
      rcases List.mem_cons.mp hh with rfl | hh
      · have hfirst : ∀ r,
            (t.modify h
              (Element.mapValueType (TypeRef.replaceBinary typeName))).valueType?
              h = some r →
            r.replaceBinary typeName = r := by
          intro r hr
          rw [valueType?, get?_modify, if_pos rfl] at hr
          obtain ⟨e, he, hr⟩ := Option.bind_eq_some_iff.mp hr
          obtain ⟨e₀, -, rfl⟩ := Option.map_eq_some_iff.mp he
          rw [Element.valueType?_mapValueType] at hr
          obtain ⟨r₀, -, rfl⟩ := Option.map_eq_some_iff.mp hr
          exact TypeRef.replaceBinary_replaceBinary typeName r₀
        exact hfirst r (hreplaced.valueType?_eq hfirst ▸ hr)
      · exact hfixed h hh r hr

/-- A member whose types have been replaced, so that replacing leaves them
    alone, and whose owner has the import for that. It may still hold binary
    data, if the native name is that of binary data. -/
structure BinarySettled (typeName : String) (spec : ImportSpec) (x : ElementId)
    (t : Tree) : Prop where
  fixed : ∀ h ∈ t.typeHolders x, ∀ r, t.valueType? h = some r →
    r.replaceBinary typeName = r
  absorbs : (t.typeHolders x).any
    (fun h => (t.valueType? h).any TypeRef.holdsBinary) = true →
    ∀ owner, t.parent? x = some owner → (t.class? owner).isSome →
    Import.Absorbs (t.imports owner) [spec.toImport]

/-- A member that is settled stays so. -/
theorem BinarySettled.mono {spec : ImportSpec} {x : ElementId}
    (hx : BinarySettled typeName spec x t) (h : BinaryReplaced typeName t t') :
    BinarySettled typeName spec x t' := by
  have hholders := h.places.typeHolders_eq x
  have hvalue : ∀ z ∈ t.typeHolders x, t'.valueType? z = t.valueType? z :=
    fun z hz => h.valueType?_eq (hx.fixed z hz)
  refine ⟨fun z hz r hr => ?_, fun htouched owner hp hclass => ?_⟩
  · rw [hholders] at hz
    exact hx.fixed z hz r (hvalue z hz ▸ hr)
  · rw [hholders] at htouched
    obtain ⟨z, hz, hbinary⟩ := List.any_eq_true.mp htouched
    rw [h.places.parent?_eq] at hp
    rw [isSome_class?_iff, h.places.kind?_eq, ← isSome_class?_iff] at hclass
    refine (hx.absorbs (List.any_eq_true.mpr ⟨z, hz, hvalue z hz ▸ hbinary⟩) owner
      hp hclass).mono (h.held owner)

/-- What is done to one member when binary data is named by a native type. -/
def replaceOwn (typeName : String) (spec : ImportSpec) (id : ElementId) :
    Edit Unit := do
  let t ← get
  let holders := t.typeHolders id
  let touched := holders.any fun h => (t.valueType? h).any TypeRef.holdsBinary
  holders.forM fun h =>
    modifyElement h (Element.mapValueType (TypeRef.replaceBinary typeName))
  match t.parent? id with
  | none => return
  | some owner =>
      if touched && (t.class? owner).isSome then
        discard <| addImports owner [spec.toImport]

/-- The pass is a crawl with one turn for each element. -/
theorem replaceBinary_eq (typeName : String) (spec : ImportSpec) :
    replaceBinary typeName spec = crawl (replaceOwn typeName spec) := rfl

/-- A member whose types have been replaced and whose owner got the import, if
    there was something to replace, is settled: there is something to replace
    afterwards only if there was before. -/
theorem binarySettled_of_absorbs {spec : ImportSpec} {id : ElementId}
    (h : BinaryReplaced typeName t t')
    (hfixed : ∀ x ∈ t.typeHolders id, ∀ r, t'.valueType? x = some r →
      r.replaceBinary typeName = r) (habsorbs : (t.typeHolders id).any
      (fun x => (t.valueType? x).any TypeRef.holdsBinary) = true →
      ∀ owner, t.parent? id = some owner → (t.class? owner).isSome →
      Import.Absorbs (t'.imports owner) [spec.toImport]) :
    BinarySettled typeName spec id t' := by
  have hholders := h.places.typeHolders_eq id
  refine ⟨hholders ▸ hfixed, fun htouched owner hp hclass => ?_⟩
  rw [h.places.parent?_eq] at hp
  rw [isSome_class?_iff, h.places.kind?_eq, ← isSome_class?_iff] at hclass
  refine habsorbs ?_ owner hp hclass
  rw [hholders] at htouched
  obtain ⟨x, hx, hbinary⟩ := List.any_eq_true.mp htouched
  refine List.any_eq_true.mpr ⟨x, hx, ?_⟩
  rcases h.value x with heq | heq
  · rwa [heq] at hbinary
  · rw [heq, Option.any_map] at hbinary
    obtain ⟨r, hr, hbinary⟩ := (Option.any_eq_true _ _).mp hbinary
    exact (Option.any_eq_true _ _).mpr
      ⟨r, hr, TypeRef.holdsBinary_of_replaceBinary hbinary⟩

/-- What a visit leaves, replacing leaves alone, and the owner has the import
    for what was replaced. -/
theorem binarySettled_of_replaceOwn {spec : ImportSpec} {id : ElementId} {u : Unit}
    (hrun : (replaceOwn typeName spec id).run t = .ok u t') :
    BinaryReplaced typeName t t' ∧ BinarySettled typeName spec id t' := by
  rw [replaceOwn, run_get_bind] at hrun
  obtain ⟨_, s, hmodify, hrest⟩ := run_bind_eq_ok_iff.mp hrun
  obtain ⟨hreplaced, hfixed⟩ := binaryReplaced_of_forM hmodify
  have hsettled : ∀ s', BinaryReplaced typeName s s' →
      ((t.typeHolders id).any
        (fun x => (t.valueType? x).any TypeRef.holdsBinary) = true →
        ∀ owner, t.parent? id = some owner → (t.class? owner).isSome →
          Import.Absorbs (s'.imports owner) [spec.toImport]) →
      BinaryReplaced typeName t s' ∧ BinarySettled typeName spec id s' :=
        fun s' hlast habsorbs =>
    ⟨hreplaced.trans hlast, binarySettled_of_absorbs (hreplaced.trans hlast)
      (fun x hx => hlast.valueType?_eq (hfixed x hx) ▸ hfixed x hx) habsorbs⟩
  cases hp : t.parent? id with
  | none =>
      rw [hp] at hrest
      obtain rfl := (run_pure_eq_ok_iff.mp hrest).2
      exact hsettled s (.refl _ s) fun _ owner howner =>
        absurd (hp.symm.trans howner) (by simp)
  | some owner =>
      rw [hp] at hrest
      dsimp only at hrest
      split at hrest
      next =>
        obtain ⟨k, hadd⟩ := run_discard_eq_ok_iff.mp hrest
        obtain ⟨e, he, hblock, rfl, habsorbs⟩ := absorbs_of_run_addImports hadd
        refine hsettled _ (binaryReplaced_modify (Element.place_mapImports _)
          (fun e' => Or.inl (Element.valueType?_mapImports _ e')) fun e' he' => ?_)
          fun _ owner' howner _ => ?_
        · obtain rfl := Option.some.inj (he.symm.trans he')
          exact (Element.mended_addImports e _).keys_subset
        · obtain rfl : owner = owner' := Option.some.inj (hp.symm.trans howner)
          rw [imports, get?_modify, if_pos rfl, he, Option.map_some,
            Option.map_some, Option.getD_some, Element.imports_mapImports,
            if_pos hblock]
          exact habsorbs
      next hcalm =>
        obtain rfl := (run_pure_eq_ok_iff.mp hrest).2
        refine hsettled s (.refl _ s)
          fun htouched owner' howner hclass => absurd ?_ hcalm
        obtain rfl : owner = owner' := Option.some.inj (hp.symm.trans howner)
        exact Bool.and_eq_true_iff.mpr ⟨htouched, hclass⟩

/-- Every member is settled after its turn and stays so, and the pass rests. -/
theorem rests_replaceBinary {spec : ImportSpec} (hwl : WellLinked t) {u : Unit}
    (hrun : (replaceBinary typeName spec).run t = .ok u t') :
    Rests (replaceBinary typeName spec) t' := by
  rw [replaceBinary_eq] at hrun ⊢
  obtain ⟨hsame, hsettled⟩ :=
    settled_of_crawl (J := SamePlaces t) (C := BinarySettled typeName spec)
    (fun s id hs hid => isAttached_of_samePlaces hwl hs hid)
    (fun s id s' hs _ hone => by
      obtain ⟨hreplaced, hid⟩ := binarySettled_of_replaceOwn hone
      exact ⟨hs.trans hreplaced.places, hid, fun x _ _ hx => hx.mono hreplaced⟩)
        (.refl t) hrun
  refine rests_crawl fun x hx => ?_
  rw [hsame.root_eq, hsame.descendants_eq] at hx
  have hx := hsettled x hx
  rw [Rests, replaceOwn, run_get_bind]
  refine Rests.bind (rests_forM fun h hh => rests_modifyElement fun e he => ?_) ?_
  · refine Element.mapValueType_eq_self fun r hr => hx.fixed h hh r ?_
    rw [valueType?, he]
    exact hr
  · cases hp : t'.parent? x with
    | none => rfl
    | some owner =>
        dsimp only
        split
        next htouched =>
          obtain ⟨hbinary, hclass⟩ := Bool.and_eq_true_iff.mp htouched
          obtain ⟨c, hc⟩ := Option.isSome_iff_exists.mp hclass
          obtain ⟨e, he, himports⟩ := exists_imports?_of_class? hc
          have habsorbs := hx.absorbs hbinary owner hp hclass
          rw [imports, he] at habsorbs
          exact rests_addImports he (by rw [himports]; rfl) habsorbs
        next => rfl

end Edit

/-! ## Names -/

theorem Element.kind_of_method? {e : Element} {m : MethodDecl}
    (h : e.method? = some m) : e.kind = .method := by
  obtain ⟨name, parent, children, description, content⟩ := e
  cases content with
  | method _ => rfl
  | _ => cases h

theorem Element.kind_of_property? {e : Element} {d : PropertyDecl}
    (h : e.property? = some d) : e.kind = .property := by
  obtain ⟨name, parent, children, description, content⟩ := e
  cases content with
  | property p => rfl
  | _ => cases h

namespace Tree

variable {t t' : Tree}

/-- The rename of a method shows nowhere else. -/
theorem rename_method {id : ElementId} (hkind : t.kind? id = some .method)
    (name : String) :
    t.rename id name = t.modify id (Element.withName name) := by
  rw [rename, hkind]

end Tree

namespace Edit

variable {t t' : Tree}

/-- A method that got its suffix ends in it, so that a second run passes it
    over. -/
theorem rests_addAsyncSuffix {suffix : String} (hwl : WellLinked t) {u : Unit}
    (hrun : (addAsyncSuffix suffix).run t = .ok u t') :
    Rests (addAsyncSuffix suffix) t' := by
  refine rests_crawl_of_elements (J := fun _ => True) (D := fun _ e =>
    e.method?.any (·.isAsync) = true → suffix.toList <:+ e.name.toList) hwl trivial
    ?_ ?_ hrun
  · intro s id s' _ _ hone
    refine ⟨trivial, ?_⟩
    rw [run_get_bind] at hone
    split at hone
    next hnone =>
      obtain ⟨-, rfl⟩ := run_pure_eq_ok_iff.mp hone
      refine settledAt_self fun e he hasync => ?_
      rw [unsuffixedAsync?, he] at hnone
      by_contra hlacks
      dsimp only at hnone
      rw [if_pos ⟨hasync, hlacks⟩] at hnone
      cases hnone
    next name hname =>
      obtain ⟨-, -, ⟨e, he⟩, rfl⟩ := run_setName_eq_ok hone
      rw [unsuffixedAsync?, he] at hname
      dsimp only at hname
      split at hname
      next hasync =>
        obtain rfl := Option.some.inj hname
        have hkind : s.kind? id = some .method := by
          obtain ⟨m, hm, -⟩ := (Option.any_eq_true _ _).mp hasync.1
          rw [kind?, he, Option.map_some, Element.kind_of_method? hm]
        rw [rename_method hkind]
        refine ⟨_, rfl, Element.place_withName _, fun e' _ _ => ?_⟩
        show suffix.toList <:+ (e.name ++ suffix).toList
        rw [String.toList_append]
        exact List.suffix_append _ _
      next => cases hname
  · intro s id e _ _ he hsettled
    rw [Rests, run_get_bind]
    have hnone : s.unsuffixedAsync? suffix id = none := by
      rw [unsuffixedAsync?, he]
      exact if_neg fun h => h.2 (hsettled h.1)
    rw [hnone]
    rfl

/-- The name of a namespace has been capitalized. -/
def Capitalized (x : ElementId) (t : Tree) : Prop :=
  t.kind? x = some .namespaceDecl → ∀ name, t.name? x = some name →
    Text.capitalize name = name

/-- To capitalize a capital changes nothing, whatever the letter. -/
theorem rests_capitalizeNamespaces (hwl : WellLinked t) {u : Unit}
    (hrun : capitalizeNamespaces.run t = .ok u t') :
    Rests capitalizeNamespaces t' := by
  obtain ⟨⟨hsame, -⟩, hsettled⟩ := settled_of_crawl
    (J := fun s => SamePlaces t s ∧ WellLinked s) (C := Capitalized)
    (fun s id hs hid => isAttached_of_samePlaces hwl hs.1 hid)
    (fun s id s' hs _ hone => by
      obtain ⟨e, s₁, helement, hrest⟩ := run_bind_eq_ok_iff.mp hone
      obtain ⟨he, rfl⟩ := run_element_eq_ok_iff.mp helement
      split at hrest
      next hlower =>
        obtain ⟨-, -, -, rfl⟩ := run_setName_eq_ok hrest
        refine ⟨⟨hs.1.trans (samePlaces_rename _ _ _), hs.2.rename _ _⟩,
          fun _ name hname => ?_, ?_⟩
        · rw [name?_rename hs.2, if_pos rfl, name?, he] at hname
          obtain rfl := Option.some.inj hname
          exact Text.capitalize_capitalize e.name
        · intro x _ hne hx hkind name hname
          rw [(samePlaces_rename _ _ _).kind?_eq] at hkind
          rw [name?_rename hs.2, if_neg hne] at hname
          exact hx hkind name hname
      next hdone =>
        obtain ⟨-, rfl⟩ := run_pure_eq_ok_iff.mp hrest
        refine ⟨hs, fun hkind name hname => ?_, fun _ _ _ hx => hx⟩
        rw [kind?, he] at hkind
        rw [name?, he] at hname
        obtain rfl := Option.some.inj hname
        exact not_not.mp fun hne => hdone ⟨Option.some.inj hkind, hne⟩)
    ⟨.refl t, hwl⟩ hrun
  refine rests_crawl fun x hx => ?_
  rw [hsame.root_eq, hsame.descendants_eq] at hx
  obtain ⟨e, he⟩ := Option.isSome_iff_exists.mp
    ((hsame.isSome_get? x).trans (hwl.mem_descendants_iff.mp hx).isSome_get?)
  refine run_bind_eq_ok_iff.mpr ⟨e, t', run_element_eq_ok_iff.mpr ⟨he, rfl⟩, ?_⟩
  rw [if_neg]
  · rfl
  · rintro ⟨hkind, hlower⟩
    refine hlower (hsettled x hx ?_ e.name ?_)
    · rw [kind?, he, Option.map_some, hkind]
    · rw [name?, he, Option.map_some]

end Edit

/-! ## New elements -/

namespace Tree

variable {s t t' : Tree} {n : Nat} {K : StepKind → Prop}

/-- What is below the root after some steps was below it before, or is new. -/
theorem below_of_steps (h : Stable t) (hsteps : Steps K n t t') {x : ElementId}
    (hx : x ∈ t'.descendants t'.root) : x ∈ t.descendants t.root ∨ n ≤ x.index := by
  obtain ⟨h', hcarries⟩ := h.steps hsteps
  have hbelow := h'.toWellLinked.mem_descendants_iff.mp hx
  refine (attached_of_steps h hsteps (Or.inr hbelow)).imp_left fun hattached => ?_
  refine h.toWellLinked.mem_descendants_iff.mpr (hattached.resolve_left ?_)
  rintro rfl
  rw [hcarries.root_eq] at hbelow
  exact h'.toWellLinked.acyclic _ (hcarries.root_eq ▸ hbelow)

/-- What an element holds besides its name and its links. -/
def content? (t : Tree) (id : ElementId) : Option Content :=
  (t.get? id).map (·.content)

/-- Other links hold no other content. -/
theorem Relinked.content?_eq (h : Relinked t t') (x : ElementId) :
    t'.content? x = t.content? x := by
  have hread : ∀ s : Tree, s.content? x = ((s.get? x).map Element.detached).map
      (·.content) := by
    intro s
    rw [content?]
    cases s.get? x <;> rfl
  rw [hread, hread, h.detached_eq]

section content

variable {x : ElementId} (h : t'.content? x = t.content? x)

include h

theorem kind?_congr : t'.kind? x = t.kind? x := by
  have hread : ∀ s : Tree, s.kind? x = (s.content? x).map Content.kind := by
    intro s
    rw [kind?, content?]
    cases s.get? x <;> rfl
  rw [hread, hread, h]

/-- What is read off the content of an element is the same. -/
theorem bind_get?_congr {α : Type} {g : Element → Option α}
    (hg : ∀ e e' : Element, e'.content = e.content → g e' = g e) :
    (t'.get? x).bind g = (t.get? x).bind g := by
  rw [content?, content?] at h
  cases he : t.get? x with
  | none =>
      rw [he] at h
      rw [Option.map_eq_none_iff.mp h]
  | some e =>
      rw [he] at h
      obtain ⟨e', he', hcontent⟩ := Option.map_eq_some_iff.mp h
      rw [he']
      exact hg e e' hcontent

theorem class?_congr : t'.class? x = t.class? x :=
  bind_get?_congr h fun e e' hcontent => by
    rw [Element.class?, Element.class?, hcontent]

theorem property?_congr : t'.property? x = t.property? x :=
  bind_get?_congr h fun e e' hcontent => by
    rw [Element.property?, Element.property?, hcontent]

theorem method?_congr : t'.method? x = t.method? x :=
  bind_get?_congr h fun e e' hcontent => by
    rw [Element.method?, Element.method?, hcontent]

theorem parameter?_congr : t'.parameter? x = t.parameter? x :=
  bind_get?_congr h fun e e' hcontent => by
    rw [Element.parameter?, Element.parameter?, hcontent]

theorem valueType?_congr : t'.valueType? x = t.valueType? x :=
  bind_get?_congr h fun e e' hcontent => by
    rw [Element.valueType?, Element.valueType?, hcontent]

end content

/-- Tree `t'` is `t` with other links and more elements, none of them a class. -/
structure AddsMembers (t t' : Tree) : Prop where
  content?_eq : ∀ x, (t.get? x).isSome → t'.content? x = t.content? x
  noClass : ∀ x, t.class? x = none → t'.class? x = none

theorem relinked_refl (t : Tree) : Relinked t t :=
  ⟨rfl, fun _ => rfl⟩

/-- Other links make no class. -/
theorem Relinked.addsMembers (h : Relinked t t') : AddsMembers t t' where
  content?_eq x _ := h.content?_eq x
  noClass x hx := by rw [class?_congr (h.content?_eq x), hx]

/-- What adds members twice adds members. -/
theorem AddsMembers.trans {t'' : Tree} (h : AddsMembers t t')
    (h' : AddsMembers t' t'') : AddsMembers t t'' where
  content?_eq x hx := by
    have hsome : (t'.get? x).isSome := by
      have heq := congrArg Option.isSome (h.content?_eq x hx)
      rw [content?, content?, Option.isSome_map, Option.isSome_map] at heq
      rw [heq, hx]
    rw [h'.content?_eq x hsome, h.content?_eq x hx]
  noClass x hx := h'.noClass x (h.noClass x hx)

/-- An element that is no class is a member at most. -/
theorem addsMembers_push {e : Element} (he : e.class? = none) :
    AddsMembers t (t.push e) where
  content?_eq x hx := by
    obtain ⟨e₀, he₀⟩ := Option.isSome_iff_exists.mp hx
    rw [content?, content?, get?_push_of_get? he₀, he₀]
  noClass x hx := by
    rw [class?, get?_push]
    split
    · exact he
    · exact hx

/-- By kind the same children are there, if children and contents are. -/
theorem childrenOfKind_congr {x : ElementId}
    (hchildren : t'.children x = t.children x)
    (hcontents : ∀ c ∈ t.children x, t'.content? c = t.content? c)
    (kind : NodeKind) :
    t'.childrenOfKind x kind = t.childrenOfKind x kind := by
  rw [childrenOfKind, childrenOfKind, hchildren]
  exact List.filter_congr fun c hc => by rw [kind?_congr (hcontents c hc)]

/-- Whether a class lacks a constructor is read off itself and its members. -/
theorem lacksConstructor_congr {x : ElementId} (inheritingToo : Bool)
    (hx : t'.content? x = t.content? x) (hchildren : t'.children x = t.children x)
    (hcontents : ∀ c ∈ t.children x, t'.content? c = t.content? c) :
    t'.lacksConstructor inheritingToo x = t.lacksConstructor inheritingToo x := by
  have hkinds := childrenOfKind_congr hchildren hcontents
  have hmember : ∀ {kind c}, c ∈ t.childrenOfKind x kind →
      t'.content? c = t.content? c :=
    fun hc => hcontents _ (List.mem_filter.mp hc).1
  have hdefaults : t'.hasDefaults x = t.hasDefaults x := by
    rw [hasDefaults, hasDefaults, hkinds, List.filterMap_congr fun c hc =>
      property?_congr (hmember hc)]
  have hconstructor : t'.hasConstructor x = t.hasConstructor x := by
    rw [hasConstructor, hasConstructor, hkinds, List.filterMap_congr fun c hc =>
      method?_congr (hmember hc)]
  rw [lacksConstructor, lacksConstructor, class?_congr hx, hdefaults, hconstructor]

end Tree

namespace Edit

variable {t t' : Tree}

/-- What every visit makes of the element that it visits, by steps, and all
    other visits leave alone, holds of all that is below the root in the end,
    unless it is new. -/
theorem settled_of_steps {J : Tree → Prop} {C : ElementId → Tree → Prop}
    {visit : ElementId → Edit Unit} (hvisit : ∀ s id s', Stable s →
      t.size ≤ s.size → Attached s id → id ∈ t.descendants t.root →
      J s → (visit id).run s = .ok () s' → Steps (fun _ => True) t.size s s' ∧ J s'
      ∧ C id s' ∧ ∀ x, (s.get? x).isSome → x ≠ id → C x s → C x s') (h : Stable t)
    (hJ : J t) {u : Unit} (hrun : (crawl visit).run t = .ok u t') :
    Stable t' ∧ J t' ∧ ∀ x ∈ t'.descendants t'.root, C x t' ∨ t.size ≤ x.index
      ∧ x.index < t'.size := by
  have hattached : ∀ {s x}, Carries t s → x ∈ t.descendants t.root → Attached s x :=
    fun hc hx =>
      hc.attached (Or.inr (h.toWellLinked.mem_descendants_iff.mp hx))
  obtain ⟨⟨hsteps, hJ'⟩, hsettled⟩ := settled_of_crawl
    (J := fun s => Steps (fun _ => True) t.size t s ∧ J s) (C := C)
    (fun s id hs hid => by
      obtain ⟨hstable, hcarries⟩ := h.steps hs.1
      exact hstable.toWellLinked.isAttached_iff.mpr (hattached hcarries hid))
    (fun s id s' hs hid hone => by
      obtain ⟨hstable, hcarries⟩ := h.steps hs.1
      obtain ⟨hsteps, hJ', hid', hothers⟩ :=
        hvisit s id s' hstable hcarries.size_le (hattached hcarries hid)
          hid hs.2 hone
      refine ⟨⟨hs.1.trans hsteps, hJ'⟩, hid', fun x hx hne => hothers x ?_ hne⟩
      exact (get?_isSome_iff s x).mpr
        (hstable.toWellLinked.index_lt_of_attached (hattached hcarries hx)))
    ⟨.refl, hJ⟩ hrun
  obtain ⟨hstable', -⟩ := h.steps hsteps
  refine ⟨hstable', hJ', fun x hx => ?_⟩
  exact (below_of_steps h hsteps hx).imp (hsettled x) fun hnew =>
    ⟨hnew, hstable'.toWellLinked.index_lt_of_mem_descendants hx⟩

/-- After the pass the value of no attached element is of a union type, so that
    a second run finds nothing to wrap. -/
theorem rests_wrapUnions {placement : WrapperPlacement} (h : Stable t) {u : Unit}
    (hrun : (wrapUnions placement).run t = .ok u t') :
    Rests (wrapUnions placement) t' := by
  obtain ⟨h', -⟩ := (Pass.wrapUnions placement).stable_apply h hrun
  obtain ⟨_, s, hagain, rfl⟩ :=
    succeeds_wrapUnions placement h'.toWellLinked (lowered_of_wrapUnions h hrun)
  exact hagain

end Edit

namespace Tree

variable {t t' : Tree}

/-- A class that has been given a constructor lacks none, and every other lacks
    one if it did. -/
theorem lacksConstructor_of_addNew {id y : ElementId} {owner : String}
    (inheritingToo : Bool) (hwl : WellLinked t)
    (hrun : (Edit.addNew .methods id (defaultConstructor owner)).run t = .ok y t') :
    t'.lacksConstructor inheritingToo id = false
      ∧ (∀ x, (t.get? x).isSome → x ≠ id →
          t'.lacksConstructor inheritingToo x = t.lacksConstructor inheritingToo x)
      ∧ ∀ x, t.class? x = none → t'.class? x = none := by
  obtain ⟨-, -, hinsert⟩ := Edit.run_addNew_eq_ok hrun
  have htoken : (defaultConstructor owner).detached.TokenFits :=
    Element.tokenFits_of_kind_ne (fun hkind => NodeKind.noConfusion hkind)
  obtain ⟨hinsertable, rfl⟩ :=
    insertable_of_insert (hwl.push rfl rfl htoken) hinsert
  have hadds : AddsMembers t
      ((t.push (defaultConstructor owner).detached).attach id [t.nextId]) :=
    (addsMembers_push rfl).trans (relinked_attach _ _ _).addsMembers
  have hnew :
      ((t.push (defaultConstructor owner).detached).attach id [t.nextId]).content?
      t.nextId = some (defaultConstructor owner).detached.content := by
    rw [(relinked_attach _ _ _).content?_eq, content?, get?_push_nextId]
    rfl
  refine ⟨?_, fun x hx hne => ?_, hadds.noClass⟩
  · have hconstructor :
        ((t.push (defaultConstructor owner).detached).attach id
          [t.nextId]).hasConstructor id = true := by
      obtain ⟨e, he, hmethod⟩ := Option.map_eq_some_iff.mp hnew
      refine List.any_eq_true.mpr
        ⟨⟨.constructor, .external "void", false⟩,
          List.mem_filterMap.mpr ⟨t.nextId, ?_, ?_⟩, rfl⟩
      · rw [hinsertable.childrenOfKind_attach, if_pos rfl]
        refine List.mem_append_right _
          (List.mem_filter.mpr ⟨List.mem_singleton_self _, ?_⟩)
        rw [kind?, get?_push_nextId]
        rfl
      · rw [method?, he, Option.bind_some, Element.method?, hmethod]
        rfl
    rw [lacksConstructor]
    cases Tree.class? _ id with
    | none => rfl
    | some c =>
        dsimp only
        rw [hconstructor, Bool.not_true, Bool.and_false]
  · refine lacksConstructor_congr inheritingToo (hadds.content?_eq x hx) ?_
      fun c hc => hadds.content?_eq c ?_
    · rw [hinsertable.children_attach, if_neg hne, children_push rfl]
    · obtain ⟨e, he, -⟩ := hwl.exists_of_mem_children hc
      rw [he]
      rfl

end Tree

namespace Edit

variable {t t' : Tree}

/-- A class that got a constructor has one, and classes that are added to later
    are not asked again. -/
theorem rests_addConstructors {inheritingToo : Bool} (h : Stable t) {u : Unit}
    (hrun : (addConstructors inheritingToo).run t = .ok u t') :
    Rests (addConstructors inheritingToo) t' := by
  obtain ⟨-, hmembers, hsettled⟩ :=
    settled_of_steps (J := fun s => ∀ x, t.size ≤ x.index → s.class? x = none)
    (C := fun x s => s.lacksConstructor inheritingToo x = false)
    (fun s id s' hs hn _ _ hnone hone => by
      rw [run_get_bind] at hone
      split at hone
      next =>
        obtain ⟨_, hadd⟩ := run_discard_eq_ok_iff.mp hone
        obtain ⟨hdone, hothers, hkept⟩ :=
          lacksConstructor_of_addNew inheritingToo hs.toWellLinked hadd
        refine ⟨steps_addConstructor trivial trivial hs hn hadd,
          fun x hx => hkept x (hnone x hx), hdone, ?_⟩
        intro x hx hne hlacks
        rw [hothers x hx hne, hlacks]
      next hlacks =>
        obtain ⟨-, rfl⟩ := run_pure_eq_ok_iff.mp hone
        exact ⟨.refl, hnone, Bool.eq_false_iff.mpr hlacks, fun _ _ _ hx => hx⟩)
    h (fun x hx => by rw [class?, get?_eq_none_of_size_le hx]; rfl) hrun
  refine rests_crawl fun x hx => ?_
  have hlacks : t'.lacksConstructor inheritingToo x = false := by
    rcases hsettled x hx with hdone | ⟨hnew, -⟩
    · exact hdone
    · rw [lacksConstructor, hmembers x hnew]
  rw [Rests, run_get_bind, hlacks]
  rfl

end Edit

/-! ## Flattening -/

theorem Element.class?_eq_none_of_kind {e : Element} (h : e.kind ≠ .classDecl) :
    e.class? = none := by
  obtain ⟨name, parent, children, description, content⟩ := e
  cases content with
  | classDecl c => exact absurd rfl h
  | _ => rfl

namespace Tree

variable {t t' : Tree}

/-- Copies of properties are members. -/
theorem addsMembers_of_cloneProperties {sources copies : List ElementId}
    (h : Stable t)
    (hsources : ∀ p ∈ sources, t.kind? p = some .property ∧ Ancestor t t.root p)
    (hrun : (sources.mapM Edit.cloneSubtree).run t = .ok copies t') :
    AddsMembers t t' := by
  refine (Edit.mapM_induction (I := fun _ s => Steps (fun _ => True) t.size t s
    ∧ AddsMembers t s) ?_ ⟨.refl, (relinked_refl t).addsMembers⟩ hrun).2
  rintro _ s p copy s' hp ⟨hsteps, hadds⟩ hone
  obtain ⟨hs, hcarries⟩ := h.steps hsteps
  obtain ⟨hkind, hbelow⟩ := hcarries.property hs (hsources p hp)
  obtain ⟨-, -, -, -, -, -, -, hstep, -⟩ :=
    steps_cloneProperty (K := fun _ => True) trivial hs
    hcarries.size_le hkind hbelow hone
  obtain ⟨e, image, he, -, rfl, -⟩ := run_cloneProperty_eq_ok hs hkind hbelow hone
  refine ⟨hsteps.tail hstep,
    hadds.trans (addsMembers_push (Element.class?_eq_none_of_kind ?_))⟩
  have hcopy : (copiedElement p image p e).kind = e.kind :=
    congrArg (·.1.2.2) (Copied.frame_copiedElement p image p e)
  have hproperty : e.kind = .property := by
    rw [kind?, he] at hkind
    exact Option.some.inj hkind
  rw [hcopy, hproperty]
  decide

/-- A class that inherits from no class still does not when it is the same and
    no class is made. -/
theorem parentClass?_eq_none {x : ElementId} (h : t.parentClass? x = none)
    (hx : t'.class? x = t.class? x)
    (hnone : ∀ p, t.class? p = none → t'.class? p = none) :
    t'.parentClass? x = none := by
  rw [parentClass?] at h ⊢
  rw [hx]
  cases hr : (t.class? x).bind (·.inherits) with
  | none => rfl
  | some r =>
      rw [hr] at h
      dsimp only at h ⊢
      cases hd : r.definition? with
      | none => rfl
      | some p =>
          rw [hd] at h
          dsimp only at h ⊢
          split at h
          · cases h
          next hp => rw [hnone p (Option.not_isSome_iff_eq_none.mp hp)]; rfl

/-- A class that has been flattened inherits from no class, and for every other
    nothing has changed. -/
theorem parentClass?_of_inherit {id : ElementId} {copies : List ElementId}
    (hwl : WellLinked t) {u : Unit}
    (hrun : (Edit.inherit id copies).run t = .ok u t') :
    t'.parentClass? id = none ∧ (∀ x, x ≠ id → t'.class? x = t.class? x)
      ∧ ∀ x, t.class? x = none → t'.class? x = none := by
  obtain ⟨s, hrelinked, rfl⟩ : ∃ s, Relinked t s
      ∧ t' = s.modify id (Element.mapClass fun c => { c with inherits := none }) :=
        by
    rw [Edit.inherit] at hrun
    split at hrun
    · obtain ⟨_, s, hadd, hmodify⟩ := Edit.run_bind_eq_ok_iff.mp hrun
      obtain ⟨-, rfl⟩ := insertable_of_insert hwl (Edit.run_add_eq_ok_iff.mp hadd)
      exact ⟨_, relinked_attach _ _ _,
        (Edit.run_modifyElement_eq_ok_iff.mp hmodify).symm⟩
    · exact ⟨t, relinked_refl t, (Edit.run_modifyElement_eq_ok_iff.mp hrun).symm⟩
  have hid :
    (s.modify id (Element.mapClass fun c => { c with inherits := none })).class? id
      = (s.class? id).map fun c => { c with inherits := none } := by
    rw [class?, class?, get?_modify, if_pos rfl]
    cases s.get? id with
    | none => rfl
    | some e =>
        obtain ⟨name, parent, children, description, content⟩ := e
        cases content <;> rfl
  have hother : ∀ x, x ≠ id →
      (s.modify id (Element.mapClass fun c => { c with inherits := none })).class? x
        = t.class? x := by
    intro x hx
    rw [class?, get?_modify, if_neg hx]
    exact class?_congr (hrelinked.content?_eq x)
  refine ⟨?_, hother, fun x hx => ?_⟩
  · rw [parentClass?, hid]
    cases s.class? id <;> rfl
  · by_cases hxid : x = id
    · rw [hxid, hid, class?_congr (hrelinked.content?_eq id), ← hxid, hx]
      rfl
    · rw [hother x hxid, hx]

end Tree

namespace Edit

variable {t t' : Tree}

/-- After the pass nothing inherits, so that a second run finds nothing to
    copy. -/
theorem rests_flattenInheritance (h : Stable t) {u : Unit}
    (hrun : flattenInheritance.run t = .ok u t') : Rests flattenInheritance t' := by
  obtain ⟨-, hmembers, hsettled⟩ :=
    settled_of_steps (J := fun s => ∀ x, t.size ≤ x.index → s.class? x = none)
    (C := fun x s => s.parentClass? x = none)
    (fun s id s' hs hn hid _ hnone hone => by
      rw [run_get_bind] at hone
      split at hone
      next hparent =>
        obtain ⟨-, rfl⟩ := run_pure_eq_ok_iff.mp hone
        exact ⟨.refl, hnone, Option.isNone_iff_eq_none.mp hparent,
          fun _ _ _ hx => hx⟩
      next hparent =>
        obtain ⟨copies, s₁, hclone, hrest⟩ := run_bind_eq_ok_iff.mp hone
        have hbelow := hs.ancestor_of_parentClass? hid hparent
        have hsources := fun p hp =>
          hs.of_mem_inheritedProperties (p := p) hbelow hp
        have hadds := addsMembers_of_cloneProperties hs hsources hclone
        have hcloned :=
          steps_cloneProperties (K := fun _ => True) trivial hs hn hsources hclone
        obtain ⟨hdone, hothers, hnew⟩ :=
          parentClass?_of_inherit (hs.steps hcloned.1).1.toWellLinked hrest
        have hkept : ∀ x, s.class? x = none → s'.class? x = none := fun x hx =>
          hnew x (hadds.noClass x hx)
        refine
          ⟨(steps_inherit trivial trivial trivial hs hn hid hparent hclone hrest).1,
          fun x hx => hkept x (hnone x hx), hdone, fun x hx hne hflat => ?_⟩
        exact parentClass?_eq_none hflat
          ((hothers x hne).trans (class?_congr (hadds.content?_eq x hx))) hkept)
    h (fun x hx => by rw [class?, get?_eq_none_of_size_le hx]; rfl) hrun
  refine rests_crawl fun x hx => ?_
  have hparent : t'.parentClass? x = none := by
    rcases hsettled x hx with hdone | ⟨hnew, -⟩
    · exact hdone
    · rw [parentClass?, hmembers x hnew]
      rfl
  rw [Rests, run_get_bind, hparent]
  rfl

end Edit

/-! ## Moves into builders -/

namespace Tree

variable {t t' t'' : Tree}

/-- From `t` to `t'` classes have left namespaces, and nothing else has that
    builders look at when they take classes in: no class has come into a
    namespace, and what a method takes can no more be taken in than before. -/
structure Gathered (t t' : Tree) : Prop where
  size_eq : t'.size = t.size
  methods_eq : ∀ x, t'.childrenOfKind x .method = t.childrenOfKind x .method
  isClassOf_eq : ∀ x kinds, t'.isClassOf x kinds = t.isClassOf x kinds
  query : ∀ m d, t'.queryClass? m = some d → t.queryClass? m = some d
  free : ∀ x, (t'.parent? x).any t'.isNamespace = true →
    (t.parent? x).any t.isNamespace = true

theorem Gathered.refl (t : Tree) : Gathered t t :=
  ⟨rfl, fun _ => rfl, fun _ _ => rfl, fun _ _ h => h, fun _ h => h⟩

/-- Gathering twice is gathering. -/
theorem Gathered.trans (h : Gathered t t') (h' : Gathered t' t'') :
    Gathered t t'' where
  size_eq := h'.size_eq.trans h.size_eq
  methods_eq x := (h'.methods_eq x).trans (h.methods_eq x)
  isClassOf_eq x kinds := (h'.isClassOf_eq x kinds).trans (h.isClassOf_eq x kinds)
  query m d hd := h.query m d (h'.query m d hd)
  free x hx := h.free x (h'.free x hx)

/-- Whether an element is a class of given kinds depends on what kind of class
    it is. -/
theorem isClassOf_congr {s s' : Tree} {x : ElementId} {kinds : List ClassKind}
    (h : (s'.class? x).map (·.kind) = (s.class? x).map (·.kind)) :
    s'.isClassOf x kinds = s.isClassOf x kinds := by
  have hread : ∀ s : Tree, s.isClassOf x kinds
      = (((s.class? x).map (·.kind)).map kinds.contains).getD false := by
    intro s
    rw [isClassOf]
    cases s.class? x <;> rfl
  rw [hread, hread, h]

/-- A builder that takes a class in changes the place of the class, and
    imports. -/
theorem sameButImports_of_nestClass {builder id holder : ElementId}
    (hwl : WellLinked t) (hp : t.parent? id = some holder) {u : Unit}
    (hrun : (Edit.nestClass builder id).run t = .ok u t') :
    Insertable (t.detach holder id).2 .innerClasses builder [id]
      ∧ SameButImports ((t.detach holder id).2.attach builder [id]) t' := by
  obtain ⟨hinsertable, rfl⟩ := run_nestClass_eq_ok hwl hp hrun
  refine ⟨hinsertable, ((changedBy_modify _ builder _).trans
    (changedBy_rebindImports _ id)).sameButImports fun x e => ?_⟩
  rw [Element.bare_mapImports]
  split
  · obtain ⟨name, parent, children, description, content⟩ := e
    cases content <;> rfl
  · rfl

/-- A class that a builder has taken in is in no namespace. -/
theorem gathered_of_nestClass {builder id : ElementId} (h : Stable t)
    (hbuilder : t.isClassOf builder [.requestBuilder] = true) (hid : Nestable t id)
    {u : Unit} (hrun : (Edit.nestClass builder id).run t = .ok u t') :
    Gathered t t' ∧ (t'.parent? id).any t'.isNamespace = false := by
  have hwl := h.toWellLinked
  obtain ⟨holder, hp⟩ := hid.below.exists_parent?
  have hc := (hwl.mem_children_iff holder id).mpr hp
  obtain ⟨hinsertable, hsame⟩ := sameButImports_of_nestClass hwl hp hrun
  have hplaces := hsame.sameFrames.samePlaces
  have hrelinked :=
    (relinked_detach hc).trans (relinked_attach (t.detach holder id).2 builder [id])
  have hcontent := hrelinked.content?_eq
  have hclass : t.kind? id = some .classDecl :=
    isSome_class?_iff.mp (isSome_class?_of_isClassOf hid.query)
  have hmembers : ∀ x kind, kind ≠ .classDecl →
      t'.childrenOfKind x kind = t.childrenOfKind x kind := by
    intro x kind hkind
    rw [hplaces.childrenOfKind_eq,
      hinsertable.childrenOfKind_attach_of_ne (Ne.symm hkind), childrenOfKind_detach
      hwl hc (fun heq => hkind (Option.some.inj (heq.symm.trans hclass)))]
  have hparameter : ∀ x, t'.parameter? x = t.parameter? x := fun x =>
    (hsame.bind_eq Element.parameter?_bare x).trans (parameter?_congr (hcontent x))
  have hvalue : t'.valueType? = t.valueType? := funext fun x =>
    (hsame.bind_eq (Element.valueType?_mapImports _) x).trans
      (valueType?_congr (hcontent x))
  have hkinds : ∀ x kinds, t'.isClassOf x kinds = t.isClassOf x kinds :=
    fun x kinds =>
      isClassOf_congr (by rw [hsame.class_eq fun _ => rfl, class?_congr (hcontent x)])
  have hnamespace : t'.isNamespace = t.isNamespace := funext fun x => by
    rw [hplaces.isNamespace_eq, isNamespace, isNamespace, hrelinked.kind?_eq]
  have hparent : ∀ x, t'.parent? x = if x = id then some builder
      else t.parent? x := by
    intro x
    rw [hplaces.parent?_eq, hinsertable.parent?_attach, parent?_detach hc]
    by_cases hx : x = id <;> simp [hx]
  -- A builder is a class and no namespace.
  have hout : (t'.parent? id).any t'.isNamespace = false := by
    rw [hparent, if_pos rfl, Option.any_some, hnamespace, isNamespace,
      isSome_class?_iff.mp (isSome_class?_of_isClassOf hbuilder)]
    rfl
  have hfree : ∀ x, (t'.parent? x).any t'.isNamespace = true →
      (t.parent? x).any t.isNamespace = true := by
    intro x hx
    by_cases hxid : x = id
    · rw [hxid, hout] at hx
      cases hx
    · rwa [hparent, if_neg hxid, hnamespace] at hx
  refine ⟨⟨hplaces.size_eq.trans hrelinked.size_eq,
    fun x => hmembers x _ (by decide), hkinds, fun m d hd => ?_, hfree⟩, hout⟩
  obtain ⟨r, hr, hdef, hquery, hin⟩ := queryClass?_eq_some_iff.mp hd
  refine queryClass?_eq_some_iff.mpr ⟨r, ?_, hdef, hkinds d _ ▸ hquery, hfree d hin⟩
  rwa [hvalue, parameterOfKind?, hmembers m _ (by decide), funext hparameter] at hr

/-- Of the classes that a builder has taken in one after another, none is in a
    namespace. -/
theorem gathered_of_nestClasses {builder : ElementId} {ids : List ElementId}
    (h : Stable t) (hb : Attached t builder)
    (hbuilder : t.isClassOf builder [.requestBuilder] = true) (hnodup : ids.Nodup)
    (hids : ∀ id ∈ ids, Nestable t id) {u : Unit}
    (hrun : (ids.forM (Edit.nestClass builder)).run t = .ok u t') :
    Gathered t t' ∧ ∀ id ∈ ids, (t'.parent? id).any t'.isNamespace = false := by
  induction ids generalizing t with
  | nil =>
      exact (Edit.run_pure_eq_ok_iff.mp hrun).2 ▸ ⟨.refl t, fun id hid =>
        absurd hid List.not_mem_nil⟩
  | cons id rest ih =>
      obtain ⟨hnotin, hrest⟩ := List.nodup_cons.mp hnodup
      rw [List.forM_eq_forM, List.forM_cons] at hrun
      obtain ⟨_, s, hfirst, hrun⟩ := Edit.run_bind_eq_ok_iff.mp hrun
      have hid := hids id List.mem_cons_self
      obtain ⟨hstep, hothers⟩ :=
        step_nestClass (K := fun _ => True) (n := t.size) trivial h hb hbuilder
        hid hfirst
      obtain ⟨hone, hout⟩ := gathered_of_nestClass h hbuilder hid hfirst
      obtain ⟨hs, hcarries⟩ := h.step hstep
      obtain ⟨hall, houts⟩ :=
        ih hs (hcarries.attached hb) (hone.isClassOf_eq builder _ ▸ hbuilder) hrest
        (fun x hx => (hids x (List.mem_cons_of_mem _ hx)).step h hstep
          (hothers x fun heq => hnotin (heq ▸ hx))) hrun
      refine ⟨hone.trans hall, fun x hx => ?_⟩
      rcases List.mem_cons.mp hx with rfl | hx
      · refine Bool.eq_false_iff.mpr fun hin => ?_
        rw [hall.free x hin] at hout
        cases hout
      · exact houts x hx

/-- The classes that a builder looks for are those that its methods take. -/
theorem mem_queryClasses_iff {builder d : ElementId} :
    d ∈ t.queryClasses builder ↔
      ∃ m ∈ t.childrenOfKind builder .method, t.queryClass? m = some d := by
  rw [queryClasses, List.mem_eraseDups, List.mem_filterMap]

/-- A builder looks for nothing that it did not look for before. -/
theorem Gathered.mem_queryClasses (h : Gathered t t') {builder d : ElementId}
    (hd : d ∈ t'.queryClasses builder) : d ∈ t.queryClasses builder := by
  obtain ⟨m, hm, hquery⟩ := mem_queryClasses_iff.mp hd
  exact mem_queryClasses_iff.mpr ⟨m, h.methods_eq builder ▸ hm, h.query m d hquery⟩

end Tree

namespace Edit

variable {t t' : Tree}

/-- What a builder could take in it has, and later turns bring nothing into a
    namespace. -/
theorem rests_nestQueryClasses (h : Stable t) {u : Unit}
    (hrun : nestQueryClasses.run t = .ok u t') : Rests nestQueryClasses t' := by
  obtain ⟨-, hsize, hsettled⟩ := settled_of_steps (J := fun s => s.size = t.size)
    (C := fun x s => s.isClassOf x [.requestBuilder] = true → s.queryClasses x = [])
    (fun s id s' hs hn hid _ hsize hone => by
      rw [run_get_bind] at hone
      split at hone
      next hother =>
        obtain ⟨-, rfl⟩ := run_pure_eq_ok_iff.mp hone
        refine ⟨.refl, hsize, fun hbuilder => ?_, fun _ _ _ hx => hx⟩
        rw [hbuilder] at hother
        cases hother
      next hkind =>
        have hbuilder : s.isClassOf id [.requestBuilder] = true := by
          simpa using hkind
        have hids : ∀ x ∈ s.queryClasses id, Nestable s x := fun _ hx =>
          nestable_of_mem_queryClasses hs hid
            (isSome_class?_of_isClassOf hbuilder) hx
        obtain ⟨hall, hout⟩ :=
          gathered_of_nestClasses hs hid hbuilder (nodup_eraseDups _) hids hone
        refine ⟨steps_nestClasses trivial hs hid hbuilder (nodup_eraseDups _) hids
          hone, hall.size_eq.trans hsize, fun _ => ?_, fun x _ _ hx hxb => ?_⟩
        · refine List.eq_nil_iff_forall_not_mem.mpr fun d hd => ?_
          obtain ⟨m, -, hquery⟩ := mem_queryClasses_iff.mp hd
          obtain ⟨-, -, -, -, hin⟩ := queryClass?_eq_some_iff.mp hquery
          rw [hout d (hall.mem_queryClasses hd)] at hin
          cases hin
        · rw [hall.isClassOf_eq] at hxb
          refine List.eq_nil_iff_forall_not_mem.mpr fun d hd => ?_
          exact List.eq_nil_iff_forall_not_mem.mp (hx hxb) d
            (hall.mem_queryClasses hd))
    h rfl hrun
  refine rests_crawl fun x hx => ?_
  rw [Rests, run_get_bind]
  split
  · rfl
  next hkind =>
    have hbuilder : t'.isClassOf x [.requestBuilder] = true := by simpa using hkind
    rw [(hsettled x hx).resolve_right (fun hnew => by omega) hbuilder]
    rfl

end Edit

end CodeModel
