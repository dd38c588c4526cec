import CodeModel.Proofs.Copies
import CodeModel.Proofs.Keeping
import CodeModel.Proofs.PassSteps
import CodeModel.Refine.Flattening
import CodeModel.Refine.UnionWrapper

/-!
# Passes that make elements, as steps

Flattening copies properties, and the lowering of unions makes classes with
members. What they make is pending until it joins a slot: it is new, nobody
holds it, and all of it is fit to be attached.

* **`steps_flattenInheritance`**: what a class inherits is copied from attached
  classes.
* **`steps_createWrapper`**: a wrapper is made whole before it joins its scope.
* **`steps_standIn`**: by induction on the type, all wrappers for a union are
  attached classes.
-/

namespace CodeModel

namespace Edit

/-- What is done to a class once what it inherits has been copied. -/
def inherit (id : ElementId) (copies : List ElementId) : Edit Unit := do
  if !copies.isEmpty then add .properties id copies
  modifyElement id (Element.mapClass fun c => { c with inherits := none })

/-- What is done to a wrapper once its properties are in it. -/
def finishWrapper (site : WrapperSite) (name : String) (wrapper : ElementId) :
    Edit ElementId := do
  let serializer ← addNew .methods wrapper wrapperSerializer
  discard <| addNew .parameters serializer wrapperWriter
  discard <| addNew .methods wrapper (wrapperDeserializer name)
  add site.slot site.scope [wrapper]
  return wrapper

/-- The reference to a wrapper that takes the place of a union. -/
def referTo (wrapper : ElementId) (isNullable isCollection : Bool) (w : Wrappers) :
    Edit (TypeRef × Wrappers) := do
  let e ← inspect (·.element wrapper)
  return (⟨e.name, .declared wrapper, isNullable, isCollection⟩, w)

end Edit

namespace Tree

variable {t t' : Tree} {n : Nat} {K : StepKind → Prop}

/-! ## Copies of properties -/

/-- Properties hold nothing. -/
theorem WellLinked.children_of_property (hwl : WellLinked t) {id : ElementId}
    (h : t.kind? id = some .property) : t.children id = [] := by
  refine List.eq_nil_iff_forall_not_mem.mpr fun c hc => ?_
  obtain ⟨e, he, -⟩ := hwl.exists_of_mem_children hc
  have hmay := hwl.mayHold_of_mem id c _ _ hc h (kind?_eq_some_iff.mpr ⟨e, he, rfl⟩)
  cases hmay

/-- What holds nothing has nothing within it but itself. -/
theorem eq_of_within_of_children_eq_nil (hwl : WellLinked t) {a b : ElementId}
    (ha : t.children a = []) (h : Within t a b) : b = a := by
  rcases h with rfl | h
  · rfl
  · obtain ⟨c, hp, -⟩ := h.exists_child
    rw [← hwl.mem_children_iff, ha] at hp
    exact absurd hp List.not_mem_nil

/-- The copy of an element that holds nothing is one new element. -/
theorem Copied.eq_push (hwl : WellLinked t) {source : ElementId}
    {copy : ElementId → ElementId} {e : Element} (he : t.get? source = some e)
    (hchildren : t.children source = []) (h : Copied t t' source copy) :
    t' = t.push (copiedElement source copy source e) := by
  refine eq_of_get?_eq h.root_eq fun x => ?_
  rw [get?_push]
  rcases h.trichotomy x with hx | ⟨s, es, hs, hes, rfl⟩ | hnone
  · rw [h.get?_old x hx, if_neg]
    rintro rfl
    exact absurd hx (Nat.lt_irrefl _)
  · obtain rfl := eq_of_within_of_children_eq_nil hwl hchildren hs
    obtain rfl : e = es := Option.some.inj (he.symm.trans hes)
    rw [h.copy_source, if_pos rfl, ← h.copy_source, h.get?_copy s e (Or.inl rfl) he]
  · have hne : x ≠ t.nextId := by
      rintro rfl
      rw [← h.copy_source, h.get?_copy source e (Or.inl rfl) he] at hnone
      cases hnone
    have hold : ¬ x.index < t.size := by
      intro hx
      obtain ⟨ex, hex⟩ := Option.isSome_iff_exists.mp ((get?_isSome_iff t x).mpr hx)
      rw [h.get?_old x hx, hex] at hnone
      cases hnone
    rw [if_neg hne, hnone, get?_eq_none_of_size_le (Nat.le_of_not_lt hold)]

/-- Where references lead in the copy of one element: those to the element
    itself lead to the copy. -/
def redirect (source copy x : ElementId) : ElementId :=
  if x = source then copy else x

/-- Of a source that holds nothing there is one copy, and all else stays. -/
theorem Copied.image_eq (hwl : WellLinked t) {source : ElementId}
    {copy : ElementId → ElementId} (hchildren : t.children source = [])
    (h : Copied t t' source copy) : copy = redirect source t.nextId := by
  funext x
  rw [redirect]
  split
  next heq => rw [heq, h.copy_source]
  next hne =>
    exact h.copy_outside x fun hin =>
      hne (eq_of_within_of_children_eq_nil hwl hchildren hin)

/-- The copy of an attached property is one new element, which refers to what
    the property refers to. -/
theorem run_cloneProperty_eq_ok {source copy : ElementId} (h : Stable t)
    (hkind : t.kind? source = some .property) (ha : Ancestor t t.root source)
    (hrun : (Edit.cloneSubtree source).run t = .ok copy t') :
    ∃ e image, t.get? source = some e ∧ copy = t.nextId
      ∧ t' = t.push (copiedElement source image source e)
      ∧ ∀ d ∈ e.targets, image d = d := by
  have hwl := h.toWellLinked
  obtain ⟨e, he, -⟩ := kind?_eq_some_iff.mp hkind
  have hchildren := hwl.children_of_property hkind
  rw [Edit.cloneSubtree, Edit.run_changeWith_eq_ok_iff] at hrun
  obtain ⟨-, rfl, image, hcopied⟩ := copied_of_cloneSubtree hwl hrun
  refine ⟨e, image, he, rfl, hcopied.eq_push hwl he hchildren, fun d hd =>
    hcopied.copy_outside d fun hin => ?_⟩
  -- The one thing copied is not a declaration.
  have hdecl := ((h.fit source ha e he).2 d hd).2
  rw [eq_of_within_of_children_eq_nil hwl hchildren hin, isDeclaration_iff,
    hkind] at hdecl
  rcases hdecl with hk | hk <;> cases hk

/-- The copy of an attached property is pending. -/
theorem steps_cloneProperty {source copy : ElementId} (hk : K .copy) (h : Stable t)
    (hn : n ≤ t.size) (hkind : t.kind? source = some .property)
    (ha : Ancestor t t.root source)
    (hrun : (Edit.cloneSubtree source).run t = .ok copy t') :
    ∃ es e, t.get? source = some es ∧ e.wireName? = es.wireName? ∧ e.parent = none
      ∧ copy = t.nextId
      ∧ t' = t.push e ∧ Step K n t t' ∧ Pending n t' copy := by
  have hwl := h.toWellLinked
  obtain ⟨e, image, he, rfl, rfl, houtside⟩ :=
    run_cloneProperty_eq_ok h hkind ha hrun
  have hek : e.kind = .property := by
    rw [kind?, he] at hkind
    exact Option.some.inj hkind
  have hframe := Copied.frame_copiedElement source image source e
  have hnil : e.children = [] := by
    have hchildren := hwl.children_of_property hkind
    rw [children, he] at hchildren
    exact hchildren
  have hparent : (copiedElement source image source e).parent = none := by
    have hp := congrArg (·.1.1) hframe
    dsimp only [Element.frame, Element.place] at hp
    rw [hp, if_pos rfl]
  have hkids : (copiedElement source image source e).children = [] := by
    have hc := congrArg (·.1.2.1) hframe
    dsimp only [Element.frame, Element.place] at hc
    rw [hc, hnil]
    rfl
  have hname : (copiedElement source image source e).name = e.name := by
    have hname := congrArg (·.2.1) hframe
    exact hname
  have hnone : e.imports = [] := by
    unfold Element.kind Content.kind at hek
    rw [Element.imports, Element.imports?]
    cases hc : e.content <;> rw [hc] at hek
    case property => rfl
    all_goals cases hek
  have htoken : (copiedElement source image source e).TokenFits :=
    Copied.tokenFits_copiedElement fun c hc => hwl.token_eq_name source e c he hc
  have himports : (copiedElement source image source e).imports = [] := by
    rw [copiedElement, Element.imports_mapTypes]
    show e.imports.map _ = []
    rw [hnone]
    rfl
  have htargets : (copiedElement source image source e).targets
      = e.targets.map image := by
    rw [copiedElement, Element.targets_rebind]
    rfl
  have hindex : (copiedElement source image source e).kind ≠ .indexer := by
    have hk := congrArg (·.1.2.2) hframe
    dsimp only [Element.frame, Element.place] at hk
    rw [hk, hek]
    decide
  have hwire : (copiedElement source image source e).wireName? = e.wireName? :=
    Element.wireName?_eq hname (Element.wireSlot?_mapTypes _ _)
  have hmade : Made t (copiedElement source image source e) .copy :=
    ⟨source, e, ha, he, fun hfree =>
      Element.unionFree_rebind (fun r hr => hfree r hr)⟩
  obtain ⟨hne, hbound⟩ := h.fit source ha e he
  refine ⟨e, _, he, hwire, hparent, rfl, rfl,
    .create hparent hkids htoken himports hk hmade hindex, ?_⟩
  refine pending_push_nextId h hn hparent (hname ▸ hne) fun d hd => ?_
  rw [htargets] at hd
  obtain ⟨s, hs, rfl⟩ := List.mem_map.mp hd
  rw [houtside s hs]
  exact hbound s hs

/-! ## Flattening -/

/-- A class inherits from a class, and refers to it. -/
theorem parentClass?_eq_some {id p : ElementId} (h : t.parentClass? id = some p) :
    (t.class? id).isSome ∧ (t.class? p).isSome ∧ ∃ e, t.get? id = some e
      ∧ p ∈ e.targets := by
  rw [parentClass?] at h
  cases hr : (t.class? id).bind (·.inherits) with
  | none => rw [hr] at h; cases h
  | some r =>
      rw [hr] at h
      dsimp only at h
      cases hd : r.definition? with
      | none => rw [hd] at h; cases h
      | some q =>
          rw [hd] at h
          dsimp only at h
          split at h
          next hq =>
            obtain rfl : q = p := Option.some.inj h
            obtain ⟨c, hc, hinherits⟩ := Option.bind_eq_some_iff.mp hr
            obtain ⟨e, he, hclass⟩ := Option.bind_eq_some_iff.mp hc
            refine ⟨by rw [hc]; rfl, hq, e, he, Element.mem_targets_iff.mpr
              ⟨r, ?_, TypeRef.mem_definitions_of_definition? hd⟩⟩
            rw [Element.typeSlots, Element.class?_eq_some_iff.mp hclass]
            show r
              ∈ c.inherits.toList ++ c.implements ++ c.imports.filterMap (·.symbol)
            rw [hinherits]
            exact List.mem_append_left _
              (List.mem_append_left _ (List.mem_singleton_self r))
          · cases h

/-- An attached class with a class above it is below the root. -/
theorem Stable.ancestor_of_parentClass? (h : Stable t) {id : ElementId}
    (ha : Attached t id) (hparent : ¬ (t.parentClass? id).isNone = true) :
    Ancestor t t.root id := by
  obtain ⟨p, hp⟩ : ∃ p, t.parentClass? id = some p := by
    cases hp : t.parentClass? id with
    | none => rw [hp] at hparent; exact absurd rfl hparent
    | some p => exact ⟨p, rfl⟩
  exact ha.resolve_left
    (h.toWellLinked.ne_root_of_class (parentClass?_eq_some hp).1)

/-- Every class above an attached class is attached. -/
theorem Stable.ancestor_of_mem_inheritanceWithin (h : Stable t) {m : Nat}
    {barred : List ElementId} {id c : ElementId} (hid : Ancestor t t.root id)
    (hc : c ∈ t.inheritanceWithin m barred id) : Ancestor t t.root c := by
  -- On the levels left: each class on the way up is bound by an attached one, and
  -- so attached itself.
  induction m generalizing barred id with
  | zero => exact absurd hc List.not_mem_nil
  | succ m ih =>
      rw [inheritanceWithin] at hc
      cases hp : t.parentClass? id with
      | none => rw [hp] at hc; exact absurd hc List.not_mem_nil
      | some p =>
          rw [hp] at hc
          obtain ⟨-, hclass, e, he, htarget⟩ := parentClass?_eq_some hp
          have hp' : Ancestor t t.root p :=
            ((h.fit id hid e he).2 p htarget).1.resolve_left
              (h.toWellLinked.ne_root_of_class hclass)
          dsimp only at hc
          split at hc
          · exact absurd hc List.not_mem_nil
          · rcases List.mem_cons.mp hc with rfl | hc
            · exact hp'
            · exact ih hp' hc

/-- Every first of a name is one of those listed. -/
theorem mem_of_mem_firstOfEachName {taken : List String} {ids : List ElementId}
    {id : ElementId} (h : id ∈ t.firstOfEachName taken ids) : id ∈ ids := by
  induction ids generalizing taken with
  | nil => exact h
  | cons x rest ih =>
      rw [firstOfEachName] at h
      split at h
      · exact List.mem_cons_of_mem _ (ih h)
      · split at h
        · exact List.mem_cons_of_mem _ (ih h)
        · rcases List.mem_cons.mp h with rfl | h
          · exact List.mem_cons_self
          · exact List.mem_cons_of_mem _ (ih h)

/-- A class inherits properties of attached classes. -/
theorem Stable.of_mem_inheritedProperties (h : Stable t) {id p : ElementId}
    (hid : Ancestor t t.root id) (hp : p ∈ t.inheritedProperties id) :
    t.kind? p = some .property ∧ Ancestor t t.root p := by
  obtain ⟨c, hc, hp⟩ := List.mem_flatMap.mp (mem_of_mem_firstOfEachName hp)
  obtain ⟨hmem, hkind⟩ := List.mem_filter.mp hp
  refine ⟨of_decide_eq_true hkind, ?_⟩
  exact (h.ancestor_of_mem_inheritanceWithin hid hc).trans
    (.parent ((h.toWellLinked.mem_children_iff c p).mp hmem))

/-- A property and its copy go by one name on the wire, which is what the
    property was called when it was copied. -/
def SameWireName (t : Tree) (w : Option String) (source copy : ElementId) : Prop :=
  w.isSome ∧ t.wireName? source = w ∧ t.wireName? copy = w

/-- That two elements go by one name on the wire survives every step. -/
theorem SameWireName.steps (h : Stable t) (hsteps : Steps K n t t')
    {w : Option String} {source copy : ElementId}
    (hw : SameWireName t w source copy) : SameWireName t' w source copy := by
  have hkeep : ∀ {x}, t.wireName? x = w → t'.wireName? x = w := by
    intro x hx
    obtain ⟨name, hname⟩ := Option.isSome_iff_exists.mp hw.1
    rw [hname] at hx ⊢
    obtain ⟨e, he, hwire⟩ := Option.bind_eq_some_iff.mp hx
    obtain ⟨e', he', hkept⟩ := kept_of_steps h hsteps he
    rw [wireName?, he', Option.bind_some, hkept.wireName?_eq, hwire]
  exact ⟨hw.1, hkeep hw.2.1, hkeep hw.2.2⟩

/-- A property below the root stays one. -/
theorem Carries.property (hc : Carries t t') (h' : Stable t') {p : ElementId}
    (hp : t.kind? p = some .property ∧ Ancestor t t.root p) :
    t'.kind? p = some .property ∧ Ancestor t' t'.root p := by
  have hkind := hc.kind?_eq hp.1
  refine ⟨hkind, (hc.attached (Or.inr hp.2)).resolve_left ?_⟩
  rintro rfl
  rw [h'.toWellLinked.kind?_root] at hkind
  cases hkind

/-- Copies of attached properties are pending, and go by the names of their
    sources on the wire. -/
theorem steps_cloneProperties {sources copies : List ElementId} (hk : K .copy)
    (h : Stable t) (hn : n ≤ t.size)
    (hsources : ∀ p ∈ sources, t.kind? p = some .property ∧ Ancestor t t.root p)
    (hrun : (sources.mapM Edit.cloneSubtree).run t = .ok copies t') :
    Steps K n t t' ∧ (∀ c ∈ copies, Pending n t' c)
      ∧ ∀ q ∈ sources.zip copies, SameWireName t' (t.wireName? q.1) q.1 q.2 := by
  -- The copies made so far wait outside the tree, and making the next one leaves
  -- them there.
  obtain ⟨hlength, hsteps, hdone⟩ := Edit.mapM_zip_induction
    (I := fun done s => Steps K n t s
      ∧ ∀ q ∈ done, Pending n s q.2 ∧ SameWireName s (t.wireName? q.1) q.1 q.2)
    (fun done s p copy s' hp => by
      rintro ⟨hsteps, hdone⟩ hone
      obtain ⟨hs, hcarries⟩ := h.steps hsteps
      have hkind := (hsources p hp).1
      obtain ⟨hkind', hbelow'⟩ := hcarries.property hs (hsources p hp)
      obtain ⟨es, e, hes, hwire, he, rfl, rfl, hstep, hpending⟩ :=
        steps_cloneProperty hk hs
        (Nat.le_trans hn hcarries.size_le) hkind' hbelow' hone
      refine ⟨hsteps.tail hstep, fun q hq => ?_⟩
      rcases List.mem_append.mp hq with hq | hq
      · exact ⟨(hdone q hq).1.push he, (hdone q hq).2.steps hs (.single hstep)⟩
      · rw [List.mem_singleton.mp hq]
        refine ⟨hpending, ?_⟩
        -- The property is called what it was called before the first copy was made.
        obtain ⟨e₀, he₀, hkind₀⟩ := kind?_eq_some_iff.mp hkind
        obtain ⟨es', hes', hkept⟩ := kept_of_steps h hsteps he₀
        obtain rfl : es' = es := Option.some.inj (hes'.symm.trans hes)
        have hread : t.wireName? p = es'.wireName? := by
          rw [wireName?, he₀, Option.bind_some, hkept.wireName?_eq]
        have hsome : es'.wireName?.isSome := by
          rw [hkept.wireName?_eq]
          exact Element.isSome_wireName?_of_property hkind₀
        rw [hread]
        refine ⟨hsome, ?_, ?_⟩
        · rw [wireName?, get?_push_of_get? hes, Option.bind_some]
        · rw [wireName?, get?_push_nextId, Option.bind_some, hwire])
    ⟨.refl, fun q hq => absurd hq List.not_mem_nil⟩ hrun
  refine ⟨hsteps, fun c hc => ?_, fun q hq => (hdone q hq).2⟩
  rw [← List.map_snd_zip (Nat.le_of_eq hlength)] at hc
  obtain ⟨q, hq, rfl⟩ := List.mem_map.mp hc
  exact (hdone q hq).1

/-- A class is given copies of what it inherits, and inherits no longer. -/
theorem steps_inherit {id : ElementId} {copies : List ElementId} {t₁ : Tree}
    (hcopy : K .copy) (hattach : K .attach) (hamend : K .amend) (h : Stable t)
    (hn : n ≤ t.size) (ha : Attached t id)
    (hparent : ¬ (t.parentClass? id).isNone = true) (hclone :
      ((t.inheritedProperties id).mapM Edit.cloneSubtree).run t = .ok copies t₁)
    {u : Unit} (hrest : (Edit.inherit id copies).run t₁ = .ok u t') :
    Steps K n t t'
      ∧ ∀ q ∈ (t.inheritedProperties id).zip copies,
        SameWireName t' (t.wireName? q.1) q.1 q.2 := by
  have hid := h.ancestor_of_parentClass? ha hparent
  obtain ⟨hsteps, hpending, hwire⟩ := steps_cloneProperties hcopy h hn
    (fun p hp => h.of_mem_inheritedProperties hid hp) hclone
  obtain ⟨h₁, -⟩ := h.steps hsteps
  have hdrop : ∀ s, Step K n s
      (s.modify id (Element.mapClass fun c => { c with inherits := none })) :=
    fun s => .amend
      (fun e _ => amended_of_trimmed (Element.trimmed_dropInheritance e)) hamend
      (fun e _ => Element.mended_dropInheritance e)
      fun e _ => linksOutward_of_eq (Element.imports_dropInheritance e)
  have hafter : Steps K n t₁ t' := by
    rw [Edit.inherit] at hrest
    split at hrest
    · obtain ⟨_, t₂, hadd, hmodify⟩ := Edit.run_bind_eq_ok_iff.mp hrest
      obtain ⟨hinsertable, rfl⟩ :=
        insertable_of_insert h₁.toWellLinked (Edit.run_add_eq_ok_iff.mp hadd)
      rw [Edit.run_modifyElement_eq_ok_iff] at hmodify
      rw [← hmodify]
      have hstep : Step K n t₁ (t₁.attach id copies) :=
        .attach hinsertable hpending hattach fun hslot => Slot.noConfusion hslot
      exact (Relation.ReflTransGen.single hstep).tail (hdrop _)
    · rw [Edit.run_modifyElement_eq_ok_iff] at hrest
      rw [← hrest]
      exact .single (hdrop _)
  exact ⟨hsteps.trans hafter, fun q hq => (hwire q hq).steps h₁ hafter⟩

/-- The pass is a sequence of steps: each class copies, attaches and drops its
    inheritance in its turn. -/
theorem steps_flattenInheritance (hcopy : K .copy) (hattach : K .attach)
    (hamend : K .amend) (h : Stable t) (hn : n ≤ t.size) {u : Unit}
    (hrun : Edit.flattenInheritance.run t = .ok u t') : Steps K n t t' := by
  refine steps_of_crawl ?_ h hn hrun
  intro t id t' hstable hn ha hrun
  rw [Edit.run_get_bind] at hrun
  split at hrun
  · exact (Edit.run_pure_eq_ok_iff.mp hrun).2 ▸ .refl
  next hparent =>
    obtain ⟨copies, t₁, hclone, hrest⟩ := Edit.run_bind_eq_ok_iff.mp hrun
    exact (steps_inherit hcopy hattach hamend hstable hn ha hparent hclone hrest).1

/-! ## Wrappers -/

/-- An element just made joins a slot, and a subtree that was pending is still
    so. -/
theorem steps_addNew_pending {slot : Slot} {holder id x : ElementId} {e : Element}
    (hmake : K .make) (hattach : K .attach) (h : Stable t) (hn : n ≤ t.size)
    (htoken : e.TokenFits) (himports : e.imports = [])
    (hbound : ∀ d ∈ e.targets, Attached t d ∧ t.isDeclaration d = true)
    (hfree : e.UnionFree) (hindex : e.kind ≠ .indexer)
    (hnew : slot = .parameters → n ≤ holder.index) (hx : Pending n t x)
    (hrun : (Edit.addNew slot holder e).run t = .ok id t') :
    Steps K n t t' ∧ Pending n t' x ∧ n ≤ id.index := by
  refine ⟨steps_of_addNew (k := .make) h hn htoken himports hbound hmake hattach
    hfree hindex hnew hrun, ?_⟩
  obtain ⟨hname, rfl, hinsert⟩ := Edit.run_addNew_eq_ok hrun
  have hstable : Stable (t.push e.detached) := h.push rfl rfl htoken
  obtain ⟨hinsertable, rfl⟩ := insertable_of_insert hstable.toWellLinked hinsert
  have hpending : Pending n (t.push e.detached) t.nextId :=
    pending_push_nextId h hn rfl hname hbound
  refine ⟨(hx.push rfl).attach hinsertable
    (fun c hc => List.mem_singleton.mp hc ▸ hpending) fun hmem => ?_, hn⟩
  have hsome := hx.isSome
  rw [List.mem_singleton.mp hmem, get?_nextId] at hsome
  cases hsome

/-- An element just made is pending, and so is what was. -/
theorem step_create_pending {id : ElementId} {e : Element} (hmake : K .make)
    (h : Stable t) (hn : n ≤ t.size) (htoken : e.TokenFits)
    (himports : e.imports = [])
    (hbound : ∀ d ∈ e.targets, Attached t d ∧ t.isDeclaration d = true)
    (hfree : e.UnionFree) (hindex : e.kind ≠ .indexer)
    (hrun : (Edit.create e).run t = .ok id t') :
    Step K n t t' ∧ Pending n t' id ∧ ∀ x, Pending n t x → Pending n t' x
      ∧ x ≠ id := by
  obtain ⟨hname, rfl, rfl⟩ := Edit.run_create_eq_ok hrun
  have hmade : Made t e.detached .make := hfree
  refine ⟨.create rfl rfl htoken himports hmake hmade hindex,
    pending_push_nextId h hn rfl hname hbound, fun x hx => ?_⟩
  refine ⟨hx.push rfl, fun heq => ?_⟩
  have hsome := hx.isSome
  rw [heq, get?_nextId] at hsome
  cases hsome

/-- The members of a class go into it while it is pending. -/
theorem steps_createProperties {properties : List (String × TypeRef)}
    {ids : List ElementId} {x : ElementId} (hmake : K .make) (h : Stable t)
    (hn : n ≤ t.size) (hfree : ∀ p ∈ properties, p.2.isUnion = false)
    (hbound : ∀ p ∈ properties, ∀ d ∈ p.2.definitions, Attached t d
      ∧ t.isDeclaration d = true) (hx : Pending n t x)
    (hrun : (properties.mapM fun p => Edit.create (wrapperProperty p.1 p.2)).run
      t = .ok ids t') :
    Steps K n t t' ∧ Pending n t' x ∧ ∀ i ∈ ids, Pending n t' i ∧ x ≠ i := by
  refine Edit.mapM_induction
    (I := fun ids s => Steps K n t s ∧ Pending n s x ∧ ∀ i ∈ ids, Pending n s i
      ∧ x ≠ i) ?_
    ⟨.refl, hx, fun i hi => absurd hi List.not_mem_nil⟩ hrun
  rintro ids s p id s' hp ⟨hsteps, hxs, hids⟩ hcreate
  obtain ⟨hs, hcarries⟩ := h.steps hsteps
  have htargets : ∀ d ∈ (wrapperProperty p.1 p.2).targets, Attached s d
      ∧ s.isDeclaration d = true := by
    intro d hd
    obtain ⟨r, hr, hdef⟩ := Element.mem_targets_iff.mp hd
    obtain rfl : r = p.2 := List.mem_singleton.mp hr
    obtain ⟨ha, hdecl⟩ := hbound p hp d hdef
    exact ⟨hcarries.attached ha, hcarries.isDeclaration hdecl⟩
  have htoken : (wrapperProperty p.1 p.2).TokenFits :=
    Element.tokenFits_of_kind_ne (fun hkind => NodeKind.noConfusion hkind)
  have hvalue : (wrapperProperty p.1 p.2).UnionFree := fun r hr =>
    Option.some.inj hr ▸ hfree p hp
  obtain ⟨hstep, hnew, hold⟩ :=
    step_create_pending hmake hs (Nat.le_trans hn hcarries.size_le) htoken rfl
    htargets hvalue (fun hkind => NodeKind.noConfusion hkind) hcreate
  refine ⟨hsteps.tail hstep, (hold x hxs).1, fun i hi => ?_⟩
  rcases List.mem_append.mp hi with hi | hi
  · exact ⟨(hold i (hids i hi).1).1, (hids i hi).2⟩
  · rw [List.mem_singleton.mp hi]
    exact ⟨hnew, (hold x hxs).2⟩

/-- A pending class gets its two methods and joins its scope. -/
theorem steps_finishWrapper {site : WrapperSite}
    {name : String} {x wrapper : ElementId} (hmake : K .make) (hattach : K .attach)
    (h : Stable t) (hn : n ≤ t.size) (hscope : Attached t site.scope)
    (hslot : site.slot.memberKind = .classDecl) (hx : Pending n t x)
    (hrun : (Edit.finishWrapper site name x).run t = .ok wrapper t') :
    Steps K n t t' ∧ Attached t' wrapper ∧ t'.isDeclaration wrapper = true := by
  have hfree : ∀ {s : Tree} {e : Element}, e.targets = [] →
      ∀ d ∈ e.targets, Attached s d ∧ s.isDeclaration d = true := by
    intro s e hnil d hd
    rw [hnil] at hd
    exact absurd hd List.not_mem_nil
  have hmethod : NodeKind.method ≠ .classDecl := by decide
  have hparameter : NodeKind.parameter ≠ .classDecl := by decide
  have hserializerFits : wrapperSerializer.TokenFits :=
    Element.tokenFits_of_kind_ne hmethod
  have hwriterFits : wrapperWriter.TokenFits :=
    Element.tokenFits_of_kind_ne hparameter
  have hdeserializerFits : (wrapperDeserializer name).TokenFits :=
    Element.tokenFits_of_kind_ne hmethod
  obtain ⟨serializer, t₁, hserializer, hrest⟩ := Edit.run_bind_eq_ok_iff.mp hrun
  obtain ⟨_, t₂, hwriter, hrest₂⟩ := Edit.run_bind_eq_ok_iff.mp hrest
  obtain ⟨_, t₃, hdeserializer, hrest₃⟩ := Edit.run_bind_eq_ok_iff.mp hrest₂
  obtain ⟨_, t₄, hadd, hpure⟩ := Edit.run_bind_eq_ok_iff.mp hrest₃
  obtain ⟨_, hwriter⟩ := Edit.run_discard_eq_ok_iff.mp hwriter
  obtain ⟨_, hdeserializer⟩ := Edit.run_discard_eq_ok_iff.mp hdeserializer
  obtain ⟨rfl, rfl⟩ := Edit.run_pure_eq_ok_iff.mp hpure
  have hexternal : ∀ {e : Element} {name : String}, e.valueType?
      = some (.external name) → e.UnionFree := by
    intro e name he r hr
    rw [← Option.some.inj (he.symm.trans hr)]
    rfl
  have hmethods : Slot.methods = .parameters → n ≤ x.index :=
    fun hslot => Slot.noConfusion hslot
  -- The wrapper stays pending while its methods are made, for none of them is the
  -- wrapper itself.
  obtain ⟨hsteps₁, hx₁, hnew⟩ :=
    steps_addNew_pending hmake hattach h hn hserializerFits rfl (hfree rfl)
    (hexternal rfl) (fun hkind => NodeKind.noConfusion hkind) hmethods hx
      hserializer
  obtain ⟨h₁, hc₁⟩ := h.steps hsteps₁
  obtain ⟨hsteps₂, hx₂, -⟩ :=
    steps_addNew_pending hmake hattach h₁ (Nat.le_trans hn hc₁.size_le)
    hwriterFits rfl (hfree rfl) (hexternal rfl)
      (fun hkind => NodeKind.noConfusion hkind) (fun _ => hnew) hx₁
    hwriter
  obtain ⟨h₂, hc₂⟩ := h.steps (hsteps₁.trans hsteps₂)
  obtain ⟨hsteps₃, hx₃, -⟩ :=
    steps_addNew_pending hmake hattach h₂ (Nat.le_trans hn hc₂.size_le)
    hdeserializerFits rfl (hfree rfl) (hexternal rfl)
      (fun hkind => NodeKind.noConfusion hkind) hmethods hx₂
    hdeserializer
  obtain ⟨h₃, hc₃⟩ := h.steps ((hsteps₁.trans hsteps₂).trans hsteps₃)
  obtain ⟨hinsertable, rfl⟩ :=
    insertable_of_insert h₃.toWellLinked (Edit.run_add_eq_ok_iff.mp hadd)
  have hstep : Step K n t₃ (t₃.attach site.scope [x]) := by
    refine .attach hinsertable (fun c hc => List.mem_singleton.mp hc ▸ hx₃) hattach
      fun hparameters => ?_
    rw [hparameters] at hslot
    cases hslot
  refine ⟨((hsteps₁.trans hsteps₂).trans hsteps₃).tail hstep, ?_, ?_⟩
  · exact (hinsertable.attached_attach_iff (hc₃.attached hscope)).mpr
      (Or.inr ⟨x, List.mem_singleton_self x, Or.inl rfl⟩)
  · refine isDeclaration_iff.mpr (Or.inl ?_)
    rw [(relinked_attach t₃ site.scope [x]).kind?_eq,
      hinsertable.member_kind x (List.mem_singleton_self x), hslot]

/-- A wrapper is made by steps, and then it is an attached class. -/
theorem steps_createWrapper {site : WrapperSite} {unionName : String}
    {members : List TypeRef} {properties : List (String × TypeRef)}
    {wrapper : ElementId} (hmake : K .make) (hattach : K .attach)
    (h : Stable t) (hn : n ≤ t.size) (hscope : Attached t site.scope)
    (hslot : site.slot.memberKind = .classDecl)
    (hfree : ∀ p ∈ properties, p.2.isUnion = false)
    (hbound : ∀ p ∈ properties, ∀ d ∈ p.2.definitions, Attached t d
      ∧ t.isDeclaration d = true)
    (hrun : (Edit.createWrapper site unionName members properties).run t
      = .ok wrapper t') :
    Steps K n t t' ∧ Attached t' wrapper ∧ t'.isDeclaration wrapper = true := by
  rw [Edit.createWrapper, Edit.run_get_bind] at hrun
  dsimp only at hrun
  obtain ⟨w, t₁, hcreate, hrest⟩ := Edit.run_bind_eq_ok_iff.mp hrun
  obtain ⟨ids, t₂, hproperties, hrest₂⟩ := Edit.run_bind_eq_ok_iff.mp hrest
  have htoken : (wrapperClass
      (t.availableName site.scope (Text.capitalize unionName)) members).TokenFits :=
    fun c hc => Option.some.inj hc ▸ rfl
  have hvalue :
      (wrapperClass (t.availableName site.scope (Text.capitalize unionName))
      members).UnionFree := by
    intro r hr
    cases hr
  obtain ⟨hstep, hw₁, -⟩ := step_create_pending hmake h hn htoken rfl
    (fun d hd => absurd hd List.not_mem_nil) hvalue
      (fun hkind => NodeKind.noConfusion hkind) hcreate
  obtain ⟨h₁, hc₁⟩ := h.step hstep
  obtain ⟨hsteps₂, hw₂, hids⟩ :=
    steps_createProperties hmake h₁ (Nat.le_trans hn hc₁.size_le) hfree
    (fun p hp d hd =>
      ⟨hc₁.attached (hbound p hp d hd).1, hc₁.isDeclaration (hbound p hp d hd).2⟩)
    hw₁ hproperties
  have hsteps₂ : Steps K n t t₂ :=
    (Relation.ReflTransGen.single hstep).trans hsteps₂
  obtain ⟨h₂, hc₂⟩ := h.steps hsteps₂
  have hn₂ := Nat.le_trans hn hc₂.size_le
  split at hrest₂
  · obtain ⟨_, t₃, hadd, hrest₃⟩ := Edit.run_bind_eq_ok_iff.mp hrest₂
    obtain ⟨hinsertable, rfl⟩ :=
      insertable_of_insert h₂.toWellLinked (Edit.run_add_eq_ok_iff.mp hadd)
    -- There are properties to hold: they join the wrapper before it joins its
    -- scope.
    have hpending : ∀ i ∈ ids, Pending n t₂ i := fun i hi => (hids i hi).1
    have hstep₃ : Step K n t₂ (t₂.attach w ids) :=
      .attach hinsertable hpending hattach fun hslot => Slot.noConfusion hslot
    have hw₃ := hw₂.attach hinsertable hpending fun hmem => (hids w hmem).2 rfl
    obtain ⟨h₃, hc₃⟩ := h₂.step hstep₃
    obtain ⟨hsteps, hwrapper⟩ :=
      steps_finishWrapper hmake hattach h₃ (Nat.le_trans hn₂ hc₃.size_le)
      (hc₃.attached (hc₂.attached hscope)) hslot hw₃ hrest₃
    exact ⟨(hsteps₂.tail hstep₃).trans hsteps, hwrapper⟩
  · obtain ⟨hsteps, hwrapper⟩ := steps_finishWrapper hmake hattach h₂ hn₂
      (hc₂.attached hscope) hslot hw₂ hrest₂
    exact ⟨hsteps₂.trans hsteps, hwrapper⟩

/-! ## Unions -/

/-- All wrappers made so far are attached classes. -/
def WrappersFit (t : Tree) (w : Wrappers) : Prop :=
  ∀ p ∈ w, Attached t p.2 ∧ t.isDeclaration p.2 = true

/-- Wrappers that fit stay fit. -/
theorem WrappersFit.carry (hc : Carries t t') {w : Wrappers} (h : WrappersFit t w) :
    WrappersFit t' w :=
  fun p hp => ⟨hc.attached (h p hp).1, hc.isDeclaration (h p hp).2⟩

/-- What some references lead to is attached. -/
def RefersFit (t : Tree) (definitions : List ElementId) : Prop :=
  ∀ d ∈ definitions, Attached t d ∧ t.isDeclaration d = true

/-- What is referred to stays fit to be. -/
theorem RefersFit.carry (hc : Carries t t') {ds : List ElementId}
    (h : RefersFit t ds) : RefersFit t' ds :=
  fun d hd => ⟨hc.attached (h d hd).1, hc.isDeclaration (h d hd).2⟩

/-- A reference to an attached class is fit, whatever name it shows. -/
theorem run_referTo_eq_ok {wrapper : ElementId}
    {isNullable isCollection : Bool} {w w' : Wrappers} {r' : TypeRef}
    (hwrapper : Attached t wrapper ∧ t.isDeclaration wrapper = true) (hrun :
      (Edit.referTo wrapper isNullable isCollection w).run t = .ok (r', w') t') :
    t' = t ∧ w' = w ∧ RefersFit t r'.definitions ∧ r'.isUnion = false := by
  obtain ⟨e, t₁, helement, hpure⟩ := Edit.run_bind_eq_ok_iff.mp hrun
  obtain ⟨-, rfl⟩ := Edit.run_element_eq_ok_iff.mp helement
  obtain ⟨heq, rfl⟩ := Edit.run_pure_eq_ok_iff.mp hpure
  obtain ⟨rfl, rfl⟩ := Prod.mk.inj heq
  refine ⟨rfl, rfl, fun d hd => ?_, rfl⟩
  have hsame :
    (TypeRef.mk e.name (.declared wrapper) isNullable isCollection).definitions
    = [wrapper] := rfl
  rw [hsame, List.mem_singleton] at hd
  exact hd ▸ hwrapper

mutual

/-- Standing in for a reference is a sequence of steps, by recursion over the
    reference along with the one for its alternatives below. The table keeps
    fit, and the new reference is to what is attached. -/
theorem steps_standIn {site : WrapperSite} {n : Nat}
    {K : StepKind → Prop} (hmake : K .make) (hattach : K .attach)
    (hslot : site.slot.memberKind = .classDecl) :
    ∀ (r : TypeRef) (w : Wrappers) {t t' : Tree} {r' : TypeRef} {w' : Wrappers},
      Stable t →
      n ≤ t.size → Attached t site.scope → WrappersFit t w →
        RefersFit t r.definitions →
      (Edit.standIn site w r).run t = .ok (r', w') t' →
      Steps K n t t' ∧ WrappersFit t' w' ∧ RefersFit t' r'.definitions
        ∧ r'.isUnion = false
  | ⟨name, .external, isNullable, isCollection⟩, w, t, t', r', w', _, _, _, hw,
      hr, hrun =>
      by
      obtain ⟨heq, rfl⟩ := Edit.run_pure_eq_ok_iff.mp hrun
      obtain ⟨rfl, rfl⟩ := Prod.mk.inj heq
      exact ⟨.refl, hw, hr, rfl⟩
  | ⟨name, .declared id, isNullable, isCollection⟩, w, t, t', r', w', _, _, _, hw,
      hr, hrun =>
      by
      obtain ⟨heq, rfl⟩ := Edit.run_pure_eq_ok_iff.mp hrun
      obtain ⟨rfl, rfl⟩ := Prod.mk.inj heq
      exact ⟨.refl, hw, hr, rfl⟩
  | ⟨name, .union members, isNullable, isCollection⟩, w, t, t', r', w', h, hn,
      hscope, hw, hr, hrun =>
      by
      rw [Edit.standIn] at hrun
      dsimp only at hrun
      cases hl : List.lookup (⟨site.scope, members⟩ : WrapperKey) w with
      | some wrapper =>
          -- There is a wrapper for these alternatives in this scope.
          rw [hl] at hrun
          obtain ⟨_, t₁, hpure, hrefer⟩ := Edit.run_bind_eq_ok_iff.mp hrun
          obtain ⟨rfl, rfl⟩ := Edit.run_pure_eq_ok_iff.mp hpure
          have hmem : ((⟨site.scope, members⟩ : WrapperKey), wrapper) ∈ w := by
            obtain ⟨before, after, heq, -⟩ := List.lookup_eq_some_iff.mp hl
            rw [heq]
            exact List.mem_append_right _ List.mem_cons_self
          obtain ⟨rfl, rfl, hfit⟩ := run_referTo_eq_ok (hw _ hmem) hrefer
          exact ⟨.refl, hw, hfit⟩
      | none =>
          rw [hl] at hrun
          obtain ⟨⟨properties, w₁⟩, t₁, halternatives, hrest⟩ :=
            Edit.run_bind_eq_ok_iff.mp hrun
          obtain ⟨wrapper, t₂, hcreate, hrest₂⟩ := Edit.run_bind_eq_ok_iff.mp hrest
          obtain ⟨_, t₃, hpure, hrefer⟩ := Edit.run_bind_eq_ok_iff.mp hrest₂
          obtain ⟨rfl, rfl⟩ := Edit.run_pure_eq_ok_iff.mp hpure
          have hmembers : ∀ m ∈ members, RefersFit t m.definitions := by
            intro m hm d hd
            refine hr d ?_
            rw [TypeRef.definitions_union]
            exact List.mem_flatMap.mpr ⟨m, hm, hd⟩
          -- Alternatives that are unions get wrappers first, which this one then
          -- refers to.
          obtain ⟨hsteps₁, hw₁, hproperties⟩ :=
            steps_alternatives hmake hattach hslot members w [] h hn hscope hw
              hmembers halternatives
          obtain ⟨h₁, hc₁⟩ := h.steps hsteps₁
          obtain ⟨hsteps₂, hwrapper⟩ :=
            steps_createWrapper hmake hattach h₁ (Nat.le_trans hn hc₁.size_le)
            (hc₁.attached hscope) hslot (fun p hp => (hproperties p hp).2)
            (fun p hp => (hproperties p hp).1) hcreate
          obtain ⟨h₂, hc₂⟩ := h₁.steps hsteps₂
          obtain ⟨rfl, rfl, hfit⟩ := run_referTo_eq_ok hwrapper hrefer
          refine ⟨hsteps₁.trans hsteps₂, fun p hp => ?_, hfit⟩
          rcases List.mem_cons.mp hp with rfl | hp
          · exact hwrapper
          · exact hw₁.carry hc₂ p hp

/-- So is standing in for the alternatives of a union, one after another. -/
theorem steps_alternatives {site : WrapperSite} {n : Nat} {K : StepKind → Prop}
    (hmake : K .make) (hattach : K .attach)
    (hslot : site.slot.memberKind = .classDecl) :
    ∀ (members : List TypeRef) (w : Wrappers) (taken : List String) {t t' : Tree}
      {properties : List (String × TypeRef)} {w' : Wrappers}, Stable t →
      n ≤ t.size → Attached t site.scope → WrappersFit t w →
      (∀ m ∈ members, RefersFit t m.definitions) →
      (Edit.alternatives site w taken members).run t = .ok (properties, w') t' →
      Steps K n t t' ∧ WrappersFit t' w'
        ∧ ∀ p ∈ properties, RefersFit t' p.2.definitions ∧ p.2.isUnion = false
  | [], w, taken, t, t', properties, w', _, _, _, hw, _, hrun => by
      obtain ⟨heq, rfl⟩ := Edit.run_pure_eq_ok_iff.mp hrun
      obtain ⟨rfl, rfl⟩ := Prod.mk.inj heq
      exact ⟨.refl, hw, fun p hp => absurd hp List.not_mem_nil⟩
  | member :: rest, w, taken, t, t', properties, w', h, hn, hscope, hw, hr, hrun =>
      by
      rw [Edit.alternatives] at hrun
      dsimp only at hrun
      have hrest : ∀ m ∈ rest, RefersFit t m.definitions := fun m hm =>
        hr m (List.mem_cons_of_mem _ hm)
      split at hrun
      · exact steps_alternatives hmake hattach hslot rest w taken h hn hscope hw
          hrest hrun
      · obtain ⟨⟨type, w₁⟩, t₁, hfirst, hrun₂⟩ := Edit.run_bind_eq_ok_iff.mp hrun
        obtain ⟨⟨properties', w₂⟩, t₂, halternatives, hpure⟩ :=
          Edit.run_bind_eq_ok_iff.mp hrun₂
        obtain ⟨heq, rfl⟩ := Edit.run_pure_eq_ok_iff.mp hpure
        obtain ⟨rfl, rfl⟩ := Prod.mk.inj heq
        obtain ⟨hsteps₁, hw₁, htype, hfree⟩ :=
          steps_standIn hmake hattach hslot member w h hn hscope hw
            (hr member List.mem_cons_self) hfirst
        obtain ⟨h₁, hc₁⟩ := h.steps hsteps₁
        obtain ⟨hsteps₂, hw₂, hproperties⟩ :=
          steps_alternatives hmake hattach hslot rest w₁ _ h₁
          (Nat.le_trans hn hc₁.size_le) (hc₁.attached hscope) hw₁
            (fun m hm => (hrest m hm).carry hc₁)
          halternatives
        obtain ⟨-, hc₂⟩ := h₁.steps hsteps₂
        refine ⟨hsteps₁.trans hsteps₂, hw₂, fun p hp => ?_⟩
        rcases List.mem_cons.mp hp with rfl | hp
        · have hsame : type.nullable.definitions = type.definitions :=
            TypeRef.definitions_eq_of_target_eq rfl
          exact ⟨hsame ▸ htype.carry hc₂, hfree⟩
        · exact hproperties p hp

end

/-- The class that owns the use of a type by an element below the root is
    attached. -/
theorem attached_of_typeOwner? (hwl : WellLinked t) {id owner : ElementId}
    (hid : Ancestor t t.root id) (h : t.typeOwner? id = some owner) :
    Attached t owner := by
  have hparent : ∀ {x p}, Attached t x → t.parent? x = some p → Attached t p := by
    intro x p hx hp
    rcases hx with rfl | hx
    · rw [hwl.parent?_root] at hp
      cases hp
    · exact hx.within_of_parent? hp
  rw [typeOwner?] at h
  have howner := (Option.filter_eq_some_iff.mp h).1
  -- A parameter is owned by what holds its method.
  split at howner
  · obtain ⟨p, hp, hpp⟩ := Option.bind_eq_some_iff.mp howner
    exact hparent (hparent (Or.inr hid) hp) hpp
  · exact hparent (Or.inr hid) howner

/-- The namespace that contains something attached is attached. -/
theorem attached_of_containingNamespace? (hwl : WellLinked t) {id ns : ElementId}
    (hid : Attached t id) (h : t.containingNamespace? id = some ns) :
    Attached t ns := by
  have hmem : ns ∈ t.ancestors id := List.mem_of_find?_eq_some h
  rcases WellLinked.within_total hid (Or.inr (hwl.mem_ancestors_iff.mp hmem))
    with hns | hroot
  · exact hns
  · rcases hroot with heq | hroot
    · exact Or.inl heq.symm
    · exact absurd hroot hwl.not_ancestor_root

/-- Where wrappers go is looked up. -/
theorem eq_of_run_wrapperSite {placement : WrapperPlacement} {owner : ElementId}
    {site : WrapperSite}
    (hrun : (Edit.wrapperSite placement owner).run t = .ok site t') : t' = t := by
  cases placement with
  | innerClasses => exact (Edit.run_pure_eq_ok_iff.mp hrun).2.symm
  | siblingClasses =>
      rw [Edit.wrapperSite, Edit.run_get_bind] at hrun
      cases hscope : t.containingNamespace? owner with
      | none =>
          rw [hscope] at hrun
          exact absurd hrun Edit.run_throw_ne_ok
      | some scope =>
          rw [hscope] at hrun
          exact (Edit.run_pure_eq_ok_iff.mp hrun).2.symm

/-- To ask for the site of wrappers changes nothing; the site is attached and
    takes classes. -/
theorem run_wrapperSite_eq_ok (hwl : WellLinked t) {placement : WrapperPlacement}
    {owner : ElementId} {site : WrapperSite} (howner : Attached t owner)
    (hrun : (Edit.wrapperSite placement owner).run t = .ok site t') :
    t' = t ∧ Attached t site.scope ∧ site.slot.memberKind = .classDecl := by
  cases placement with
  | innerClasses =>
      obtain ⟨rfl, rfl⟩ := Edit.run_pure_eq_ok_iff.mp hrun
      exact ⟨rfl, howner, rfl⟩
  | siblingClasses =>
      rw [Edit.wrapperSite, Edit.run_get_bind] at hrun
      cases hscope : t.containingNamespace? owner with
      | none =>
          rw [hscope] at hrun
          exact absurd hrun Edit.run_throw_ne_ok
      | some scope =>
          rw [hscope] at hrun
          obtain ⟨rfl, rfl⟩ := Edit.run_pure_eq_ok_iff.mp hrun
          exact ⟨rfl, attached_of_containingNamespace? hwl howner hscope, rfl⟩

/-- What stands for the value of an element may be anything that refers to
    attached declarations, if the value had no bound type. -/
theorem amended_setValueType {r : TypeRef} (hr : RefersFit t r.definitions)
    (hfree : r.isUnion = false) {e : Element}
    (he : e.valueType?.bind TypeRef.binding? = none) :
    Amended t e (e.mapValueType fun _ => r) := by
  refine amended_of_eq (Element.frame_mapValueType _ e)
    (fun d hd => ?_) (Element.imports_mapValueType _ e)
    (Element.holds_setValueType hfree he)
  rw [Element.mapValueType, Element.targets_mapContent] at hd
  rw [Element.targets_eq_flatMap, Element.typeSlots]
  cases hc : e.content <;> rw [hc] at hd
  case method m =>
    rw [Content.typeSlots, List.flatMap_cons, List.flatMap_nil,
      List.append_nil] at hd
    exact Or.inr (hr d hd)
  case property p =>
    rw [Content.typeSlots, List.flatMap_cons, List.flatMap_nil,
      List.append_nil] at hd
    exact Or.inr (hr d hd)
  case parameter p =>
    rw [Content.typeSlots, List.flatMap_cons, List.flatMap_nil,
      List.append_nil] at hd
    exact Or.inr (hr d hd)
  case indexer i =>
    simp only [Content.typeSlots, List.flatMap_cons, List.flatMap_nil,
      List.append_nil, List.mem_append] at hd ⊢
    rcases hd with hd | hd
    · exact Or.inl (Or.inl hd)
    · exact Or.inr (hr d hd)
  all_goals exact Or.inl hd

/-- The kinds of steps by which wrappers are made. -/
def StepKind.Making (k : StepKind) : Prop :=
  k = .make ∨ k = .attach

/-- While elements are made and attached, what is there keeps its content. -/
theorem content_of_step (hstep : Step StepKind.Making n t t') {x : ElementId}
    {e : Element} (he : t.get? x = some e) :
    ∃ e', t'.get? x = some e' ∧ e'.content = e.content := by
  have hother : ∀ {k : StepKind}, k.Making → k ≠ .make → k ≠ .attach → False :=
    fun hk hm ha =>
      hk.elim hm ha
  cases hstep with
  | create => exact ⟨e, get?_push_of_get? he, rfl⟩
  | @attach slot holder ids =>
      refine ⟨linkUp holder ids x e, ?_, rfl⟩
      rw [(changedBy_attach t holder ids).get?_eq, he, Option.map_some]
  | amend _ hk => exact (hother hk (by decide) (by decide)).elim
  | retype _ hk => exact (hother hk (by decide) (by decide)).elim
  | rename _ _ _ hk => exact (hother hk (by decide) (by decide)).elim
  | move _ _ _ _ _ hk => exact (hother hk (by decide) (by decide)).elim
  | reinsert _ _ _ _ _ _ hk => exact (hother hk (by decide) (by decide)).elim

/-- Making wrappers leaves what was there what it was. -/
theorem content_of_steps (hsteps : Steps StepKind.Making n t t') {x : ElementId}
    {e : Element} (he : t.get? x = some e) :
    ∃ e', t'.get? x = some e' ∧ e'.content = e.content := by
  induction hsteps with
  | refl => exact ⟨e, he, rfl⟩
  | tail _ hstep ih =>
      obtain ⟨e₁, he₁, hcontent₁⟩ := ih
      obtain ⟨e₂, he₂, hcontent₂⟩ := content_of_step hstep he₁
      exact ⟨e₂, he₂, hcontent₂.trans hcontent₁⟩

/-- Lowering one use is a sequence of steps, after which the element refers to
    no union. -/
theorem steps_wrapUnion {placement : WrapperPlacement} {w w' : Wrappers}
    {id : ElementId} (hmake : K .make) (hattach : K .attach) (hretype : K .retype)
    (h : Stable t) (hn : n ≤ t.size) (ha : Attached t id) (hw : WrappersFit t w)
    (hrun : (Edit.wrapUnion placement w id).run t = .ok w' t') :
    Steps K n t t' ∧ WrappersFit t' w' ∧ ∀ e, t'.get? id = some e →
      e.UnionFree := by
  rw [Edit.wrapUnion, Edit.run_get_bind] at hrun
  cases htype : t.unionType? id with
  | none =>
      rw [htype] at hrun
      obtain ⟨rfl, rfl⟩ := Edit.run_pure_eq_ok_iff.mp hrun
      refine ⟨.refl, hw, fun e he r hr => ?_⟩
      have hvalue : t.valueType? id = some r := by
        rw [valueType?, he, Option.bind_some, hr]
      rw [unionType?, hvalue] at htype
      simpa using htype
  | some type =>
      rw [htype] at hrun
      dsimp only at hrun
      obtain ⟨hvalue, hunion⟩ := Option.filter_eq_some_iff.mp htype
      obtain ⟨e, he, hv⟩ := Option.bind_eq_some_iff.mp hvalue
      -- The root is a namespace, and a namespace has no type.
      have hid : Ancestor t t.root id := by
        refine ha.resolve_left ?_
        rintro rfl
        obtain ⟨er, her, hkind⟩ := h.toWellLinked.exists_root
        obtain rfl : er = e := Option.some.inj (her.symm.trans he)
        rw [Element.valueType?_eq_none_of_namespace hkind] at hv
        cases hv
      have htypeFit : RefersFit t type.definitions :=
        fun d hd => (h.fit id hid e he).2 d
        (Element.mem_targets_iff.mpr
          ⟨type, Element.mem_typeSlots_of_valueType? hv, hd⟩)
      cases howner : t.typeOwner? id with
      | none =>
          rw [howner] at hrun
          exact absurd hrun Edit.run_throw_ne_ok
      | some owner =>
          rw [howner] at hrun
          obtain ⟨site, t₁, hsite, hrest⟩ := Edit.run_bind_eq_ok_iff.mp hrun
          obtain ⟨⟨r', w₁⟩, t₂, hstand, hrest₂⟩ := Edit.run_bind_eq_ok_iff.mp hrest
          obtain ⟨_, t₃, hmodify, hpure⟩ := Edit.run_bind_eq_ok_iff.mp hrest₂
          obtain ⟨rfl, hscope, hslot⟩ := run_wrapperSite_eq_ok h.toWellLinked
            (attached_of_typeOwner? h.toWellLinked hid howner) hsite
          obtain ⟨hsteps, hw₁, hfit, hfree⟩ :=
            steps_standIn hmake hattach hslot type w h hn hscope hw htypeFit hstand
          obtain ⟨hmaking, -⟩ :=
            steps_standIn (K := StepKind.Making) (n := n) (Or.inl rfl)
            (Or.inr rfl) hslot
            type w h hn hscope hw htypeFit hstand
          rw [Edit.run_modifyElement_eq_ok_iff] at hmodify
          obtain ⟨rfl, rfl⟩ := Edit.run_pure_eq_ok_iff.mp hpure
          -- Making wrappers has left the union where it was, so no binding is lost
          -- with it.
          have hnone : ∀ e₂, t₂.get? id = some e₂ →
              e₂.valueType?.bind TypeRef.binding? = none := by
            intro e₂ he₂
            obtain ⟨e₂', he₂', hcontent⟩ := content_of_steps hmaking he
            obtain rfl : e₂' = e₂ := Option.some.inj (he₂'.symm.trans he₂)
            have hsame : e₂'.valueType? = e.valueType? := by
              rw [Element.valueType?, Element.valueType?, hcontent]
            rw [hsame, hv, Option.bind_some, TypeRef.binding?,
              TypeRef.definition?_eq_none_of_isUnion hunion, Option.map_none]
          have hstep : Step K n t₂ t₃ :=
            hmodify ▸ .retype
              (fun e₂ he₂ => amended_setValueType hfit hfree (hnone e₂ he₂)) hretype
          obtain ⟨h₂, -⟩ := h.steps hsteps
          refine ⟨hsteps.tail hstep, hw₁.carry (h₂.step hstep).2,
            fun e₃ he₃ r hr => ?_⟩
          rw [← hmodify, (changedBy_modify t₂ id _).get?_eq] at he₃
          obtain ⟨e₂, -, rfl⟩ := Option.map_eq_some_iff.mp he₃
          rw [if_pos rfl, Element.valueType?_mapValueType] at hr
          obtain ⟨_, -, rfl⟩ := Option.map_eq_some_iff.mp hr
          exact hfree

theorem steps_wrapUnions {placement : WrapperPlacement} (hmake : K .make)
    (hattach : K .attach) (hretype : K .retype) (h : Stable t) (hn : n ≤ t.size)
    {u : Unit} (hrun : (Edit.wrapUnions placement).run t = .ok u t') :
    Steps K n t t' := by
  obtain ⟨w, hrun⟩ := Edit.run_discard_eq_ok_iff.mp hrun
  refine (Edit.crawlWith_induction (I := fun w s => Steps K n t s ∧ WrappersFit s w)
    ?_ ⟨.refl, fun p hp => absurd hp List.not_mem_nil⟩ hrun).1
  rintro w s id w' s' ⟨hsteps, hw⟩ ha hvisit
  obtain ⟨hs, hc⟩ := h.steps hsteps
  obtain ⟨hsteps', hw', -⟩ :=
    steps_wrapUnion hmake hattach hretype hs (Nat.le_trans hn hc.size_le)
    (hs.toWellLinked.isAttached_iff.mp ha) hw hvisit
  exact ⟨hsteps.trans hsteps', hw'⟩

end Tree

end CodeModel
