import CodeModel.Proofs.DottedNamespaces

/-!
# Namespaces that are refused

A dotted path of namespaces is made segment by segment. It is refused at the
first segment that is empty, or that names something else than a namespace where
it would be made, and what the segments before it made stays.

* **`insert_ofNamespace`**: a new namespace is refused by a namesake in its
  holder and by nothing else.
* **`run_enterNamespaces_eq_error`**: the two ways to be refused on the way,
  each with the tree that is left.

Main statements: `run_addNamespace_refused_iff`, a refusal leaves the tree alone
exactly when the path could not be begun or led to namespaces up to an empty
segment, and `exists_leftover_of_refused`, where it does not.
-/

namespace CodeModel

/-- Segments that are words stand before the first that is empty. -/
theorem Dotted.takeWhile_append_of_words {words rest : List String}
    (h : "" ∉ words) :
    (words ++ rest).takeWhile (· ≠ "") = words ++ rest.takeWhile (· ≠ "") :=
  List.takeWhile_append_of_pos fun _ hx => decide_eq_true fun heq => h (heq ▸ hx)

namespace Tree

variable {t t' : Tree} {holder n : ElementId} {s : String}

/-- The check of a kind passes what is there and of that kind. -/
theorem expectKind_eq_ok_iff {id : ElementId} {kind : NodeKind} {argument : String}
    {e : Element} :
    t.expectKind id kind argument = .ok e ↔ t.get? id = some e ∧ e.kind = kind := by
  rw [expectKind]
  cases t.get? id with
  | none => simp
  | some e' =>
      dsimp only
      split_ifs with hkind
      · constructor
        · intro h
          obtain rfl := Except.ok.inj h
          exact ⟨rfl, hkind⟩
        · rintro ⟨heq, -⟩
          rw [Option.some.inj heq]
      · refine iff_of_false (fun h => by cases h) ?_
        rintro ⟨heq, hk⟩
        exact hkind (Option.some.inj heq ▸ hk)

/-- A path from a namespace leads to a namespace. -/
theorem kind?_of_walk? {p : ElementId} {segments : List String}
    (hp : t.kind? p = some .namespaceDecl) (h : t.walk? p segments = some n) :
    t.kind? n = some .namespaceDecl := by
  induction segments generalizing p with
  | nil => exact Option.some.inj h ▸ hp
  | cons s rest ih =>
      rw [walk?_cons, Option.bind_eq_some_iff] at h
      obtain ⟨c, hc, hrest⟩ := h
      exact ih (child?_spec hc).2.1 hrest

/-- A path that goes on where nothing leads on leads nowhere. -/
theorem isSome_walk?_append_iff {p m : ElementId} {found missing : List String}
    (hfound : t.walk? p found = some m)
    (hstop : ∀ s ∈ missing.head?, t.child? m s .namespaceDecl = none) :
    (t.walk? p (found ++ missing)).isSome ↔ missing = [] := by
  rw [walk?_append, hfound, Option.bind_some]
  cases missing with
  | nil => simp
  | cons s rest => simp [walk?_cons, hstop s rfl]

namespace Chained

variable {names : List String}

/-- A chain of no namespaces is nothing new. -/
theorem eq_of_nil (h : Chained t holder [] n t') : n = holder ∧ t' = t := by
  refine ⟨h.end_eq, eq_of_get?_eq h.root_eq fun x => ?_⟩
  rcases Nat.lt_or_ge x.index t.size with hx | hx
  · rw [h.get?_old x hx]
    cases t.get? x <;> simp
  · rw [get?_eq_none_of_size_le hx, get?_eq_none_of_size_le (h.size_eq ▸ hx)]

/-- A chain changes the tree unless it is empty. -/
theorem eq_iff (h : Chained t holder names n t') : t' = t ↔ names = [] := by
  constructor
  · rintro rfl
    have hsize := h.size_eq
    exact List.length_eq_zero_iff.mp (by omega)
  · rintro rfl
    exact h.eq_of_nil.2

/-- The end of a chain holds nothing. -/
theorem children_end (h : Chained t holder names n t') (hne : names ≠ []) :
    t'.children n = [] := by
  obtain ⟨k, hk⟩ : ∃ k, names.length = k + 1 := ⟨names.length - 1, by
    have := List.length_pos_iff.mpr hne
    omega⟩
  have hlast : names[k]? = some (names.getLast hne) := by
    rw [List.getLast_eq_getElem, List.getElem?_eq_getElem (by omega)]
    simp [hk]
  rw [h.end_eq, hk, children, h.get?_new k _ hlast, if_neg (by omega)]
  rfl

end Chained

/-- A new namespace collides with whatever bears its name. -/
theorem collides_ofNamespace {x : ElementId} {e : Element} (he : t.get? x = some e)
    (s : String) :
    (t.push (Element.ofNamespace s)).collides x t.nextId
      = decide (t.name? x = some s) := by
  have hapart : ∀ b, Content.coexist b e.content (.namespaceDecl []) = false := by
    cases e.content <;> exact fun _ => rfl
  rw [collides, get?_push_of_get? he, get?_push_nextId, name?, he]
  show (e.name == s && !Content.coexist _ e.content (.namespaceDecl []))
    = decide (some e.name = some s)
  rw [hapart, Bool.not_false, Bool.and_true]
  exact Bool.eq_iff_iff.mpr (by simp)

/-- A new namespace may join a namespace unless a member of it bears the name. -/
theorem checkMember_ofNamespace (hwl : WellLinked t) {e : Element}
    (he : t.get? holder = some e) (s : String) :
    (t.push (Element.ofNamespace s)).checkMember .namespaces holder e.name []
      t.nextId =
      if t.hasMember holder s then .error (.nameTaken s e.name) else .ok () := by
  have hne : holder ≠ t.nextId := by
    rintro rfl
    exact Nat.lt_irrefl _ (index_lt_of_get? he)
  have hnew : (t.push (Element.ofNamespace s)).get? t.nextId
    = some (Element.ofNamespace s) := get?_push_nextId
  have hroot : t.nextId ≠ t.root := by
    obtain ⟨er, her, -⟩ := hwl.exists_root
    intro heq
    exact Nat.lt_irrefl _ (heq ▸ index_lt_of_get? her : t.nextId.index < t.size)
  have hheld : ¬ (t.nextId = (t.push (Element.ofNamespace s)).root
      ∨ (Element.ofNamespace s).parent.isSome = true) := by
    rintro (h | h)
    · exact hroot h
    · cases h
  -- The new namespace holds nothing, so it is not above its holder.
  have hbelow : ¬ (t.nextId = holder
      ∨ (t.push (Element.ofNamespace s)).isAncestor t.nextId holder = true) := by
    rintro (h | h)
    · exact hne h.symm
    · refine hne (eq_of_within_of_children_eq_nil (hwl.push rfl rfl
        (Edit.tokenFits_ofNamespace s)) ?_ (Or.inr (isAncestor_imp_ancestor h)))
      rw [children, hnew]
      rfl
  have hany : ((t.push (Element.ofNamespace s)).children holder ++ []).any
      (fun c => (t.push (Element.ofNamespace s)).collides c t.nextId)
        = t.hasMember holder s := by
    have hchildren : (t.push (Element.ofNamespace s)).children holder
        = t.children holder := by
      rw [children, children, get?_push_of_get? he, he]
    rw [List.append_nil, hchildren, hasMember, Bool.eq_iff_iff, List.any_eq_true,
      List.any_eq_true]
    refine exists_congr fun x => and_congr_right fun hx => ?_
    obtain ⟨ex, hex, -⟩ := hwl.exists_of_mem_children hx
    rw [collides_ofNamespace hex]
  rw [checkMember, hnew]
  dsimp only
  rw [if_neg (fun h => h rfl), if_neg hheld, if_neg hbelow, if_neg List.not_mem_nil,
    if_neg (fun h => by cases h.1), hany]
  rfl

/-- A new namespace is refused by a namesake in its holder and by nothing else. -/
theorem insert_ofNamespace (hwl : WellLinked t) {e : Element}
    (he : t.get? holder = some e) (hkind : e.kind = .namespaceDecl) (s : String) :
    (t.push (Element.ofNamespace s)).insert .namespaces holder [t.nextId] =
      if t.hasMember holder s then .error (.nameTaken s e.name)
        else .ok (t.withNamespace holder s) := by
  have hexpect : (t.push (Element.ofNamespace s)).expectKind holder
      Slot.namespaces.holderKind Slot.namespaces.holderArgument = .ok e :=
    expectKind_eq_ok_iff.mpr ⟨get?_push_of_get? he, hkind⟩
  rw [Tree.insert, hexpect]
  dsimp only
  rw [checkMembers, checkMember_ofNamespace hwl he]
  cases t.hasMember holder s <;> rfl

end Tree

namespace Edit

open CodeModel.Tree

variable {α β σ : Type} {t t' : Tree} {p holder n : ElementId} {name s : String}
  {err : ModelError}

/-! ## Refusals -/

/-- A sequence fails when its first part does, or when its second does where the
    first ended. -/
theorem run_bind_eq_error_iff {m : Edit α} {f : α → Edit β} {t t'' : Tree} :
    (m >>= f).run t = .error err t'' ↔
      m.run t = .error err t'' ∨ ∃ a t', m.run t = .ok a t'
        ∧ (f a).run t' = .error err t'' := by
  show EStateM.bind m f t = .error err t'' ↔ _
  rw [EStateM.bind]
  simp only [EStateM.run]
  cases m t with
  | ok a t' =>
      constructor
      · intro h
        exact Or.inr ⟨a, t', rfl, h⟩
      · rintro (h | ⟨a', s, heq, h⟩)
        · cases h
        · obtain ⟨rfl, rfl⟩ := EStateM.Result.ok.inj heq
          exact h
  | error e t' => simp

/-- A refused change leaves the tree as it was. -/
theorem run_change_eq_error_iff {f : Tree → Except ModelError Tree} :
    (change f).run t = .error err t' ↔ f t = .error err ∧ t' = t := by
  simp only [change, EStateM.run]
  cases f t <;> simp [eq_comm]

theorem run_inspect_eq_error_iff {f : Tree → Except ModelError α} :
    (inspect f).run t = .error err t' ↔ f t = .error err ∧ t' = t := by
  simp only [inspect, EStateM.run]
  cases f t <;> simp [eq_comm]

/-- A sequence is refused by one of its steps, after all steps before it went
    through. -/
theorem exists_of_foldlM_eq_error {step : σ → α → Edit σ} {items : List α} {a : σ}
    (h : (items.foldlM step a).run t = .error err t') :
    ∃ before x after b s, items = before ++ x :: after
      ∧ (before.foldlM step a).run t = .ok b s
      ∧ (step b x).run s = .error err t' := by
  induction items generalizing a t with
  | nil => cases h
  | cons x rest ih =>
      rw [List.foldlM_cons, run_bind_eq_error_iff] at h
      rcases h with h | ⟨b, s, hfirst, h⟩
      · exact ⟨[], x, rest, a, t, rfl, rfl, h⟩
      · obtain ⟨before, y, after, c, s', hsplit, hbefore, hy⟩ := ih h
        refine ⟨x :: before, y, after, c, s',
          by rw [hsplit, List.cons_append], ?_, hy⟩
        rw [List.foldlM_cons, run_bind_eq_ok_iff]
        exact ⟨b, s, hfirst, hbefore⟩

/-! ## One segment -/

/-- A namespace with a name is made. -/
theorem run_create_eq (hs : s ≠ "") :
    (create (Element.ofNamespace s)).run t
      = .ok t.nextId (t.push (Element.ofNamespace s)) := by
  rw [create, run_changeWith_eq_ok_iff, if_neg]
  · rfl
  · exact fun hempty => hs (String.isEmpty_iff.mp hempty)

/-- One segment is refused when it is empty, or when what bears its name is no
    namespace. Then the namespace that could not be put there has been made. -/
theorem run_enterNamespace_eq_error (hwl : WellLinked t) {e : Element}
    (he : t.get? holder = some e) (hkind : e.kind = .namespaceDecl)
    (h : (enterNamespace holder s).run t = .error err t') :
    s = "" ∧ err = .empty "namespace segment" ∧ t' = t
      ∨ s ≠ "" ∧ t.child? holder s .namespaceDecl = none
        ∧ t.hasMember holder s = true
        ∧ err = .nameTaken s e.name ∧ t' = t.push (Element.ofNamespace s) := by
  by_cases hs : s = ""
  · subst hs
    have hempty : "".isEmpty = true := rfl
    rw [enterNamespace, if_pos hempty] at h
    cases h
    exact Or.inl ⟨rfl, rfl, rfl⟩
  · refine Or.inr ⟨hs, ?_⟩
    rw [run_enterNamespace t hs] at h
    cases hchild : t.child? holder s .namespaceDecl with
    | some c =>
        rw [hchild] at h
        cases h
    | none =>
        rw [hchild] at h
        refine ⟨rfl, ?_⟩
        rw [addNew] at h
        rcases run_bind_eq_error_iff.mp h with h | ⟨id, t₁, hcreate, h⟩
        · rw [run_create_eq hs] at h
          cases h
        · rw [run_create_eq hs] at hcreate
          obtain ⟨rfl, rfl⟩ := EStateM.Result.ok.inj hcreate
          rcases run_bind_eq_error_iff.mp h with h | ⟨_, _, _, h⟩
          · rw [add, run_change_eq_error_iff, insert_ofNamespace hwl he hkind] at h
            obtain ⟨hinsert, rfl⟩ := h
            split_ifs at hinsert with hmember
            exact ⟨hmember, (Except.error.inj hinsert).symm, rfl⟩
          · cases h

/-! ## A path -/

/-- A path is refused at an empty segment, after the segments before it were
    followed or made, or at the first segment that is missing, when what bears
    its name is no namespace. -/
theorem run_enterNamespaces_eq_error (hwl : WellLinked t)
    (hkind : t.kind? p = some .namespaceDecl) {segments : List String}
    (h : (segments.foldlM enterNamespace p).run t = .error err t') :
    ∃ found m, t.walk? p found = some m ∧ "" ∉ found
      ∧ ((∃ made rest n, segments = found ++ made ++ "" :: rest ∧ "" ∉ made
            ∧ (∀ s ∈ made.head?, t.child? m s .namespaceDecl = none)
            ∧ Chained t m made n t'
            ∧ err = .empty "namespace segment")
          ∨ ∃ s rest e, segments = found ++ s :: rest ∧ s ≠ ""
            ∧ t.child? m s .namespaceDecl = none
            ∧ t.hasMember m s = true ∧ t.get? m = some e ∧ err = .nameTaken s e.name
            ∧ t' = t.push (Element.ofNamespace s)) := by
  obtain ⟨before, s, after, n, t₁, hsplit, hbefore, hs⟩ :=
    exists_of_foldlM_eq_error h
  obtain ⟨e, he, -⟩ := kind?_eq_some_iff.mp hkind
  obtain ⟨hwl₁, hwords, hwalk, found, made, m, rfl, hfound, hstop, hchain⟩ :=
    run_enterNamespaces hwl (index_lt_of_get? he) hbefore
  have hkind₁ : t₁.kind? n = some .namespaceDecl := by
    refine kind?_of_walk? ?_ hwalk
    rw [(hchain.sameAbove hwl (index_lt_of_get? he) p (Or.inl rfl)).2.2, hkind]
  obtain ⟨en, hen, hkn⟩ := kind?_eq_some_iff.mp hkind₁
  have hnot : ∀ {l : List String}, (∀ x ∈ l, x ∈ found ++ made) → "" ∉ l :=
    fun hl hmem => hwords "" (hl _ hmem) rfl
  refine ⟨found, m, hfound, hnot fun x hx => List.mem_append_left _ hx, ?_⟩
  rcases run_enterNamespace_eq_error hwl₁ hen hkn hs
    with ⟨rfl, rfl, rfl⟩ | ⟨hne, hnone, hmember, rfl, rfl⟩
  · exact Or.inl ⟨made, after, n, hsplit, hnot fun x hx =>
      List.mem_append_right _ hx, hstop, hchain, rfl⟩
  · -- A namespace that was just made holds nothing that could bear the name.
    obtain rfl : made = [] := by
      by_contra hmade
      rw [hasMember, hchain.children_end hmade] at hmember
      cases hmember
    obtain ⟨rfl, rfl⟩ := hchain.eq_of_nil
    rw [List.append_nil] at hsplit
    exact Or.inr ⟨s, after, en, hsplit, hne, hnone, hmember, hen, rfl, rfl⟩

/-- A path is refused before it is begun, or on its way. -/
theorem run_addNamespace_eq_error
    (h : (addNamespace p name).run t = .error err t') :
    (name = "" ∨ t.kind? p ≠ some .namespaceDecl) ∧ t' = t
      ∨ (name ≠ "" ∧ t.kind? p = some .namespaceDecl)
        ∧ ((Dotted.split (t.relativePath p name)).foldlM enterNamespace p).run t
          = .error err t' := by
  by_cases hname : name = ""
  · subst hname
    have hempty : "".isEmpty = true := rfl
    rw [addNamespace, if_pos hempty] at h
    cases h
    exact Or.inl ⟨Or.inl rfl, rfl⟩
  rw [addNamespace,
    if_neg (fun hempty => hname (String.isEmpty_iff.mp hempty))] at h
  have hpath : (inspect (fun t => t.expectKind p .namespaceDecl "parent") >>=
      fun _ => get >>= fun t =>
      (Dotted.split (t.relativePath p name)).foldlM enterNamespace p).run t
        = .error err t' := h
  rcases run_bind_eq_error_iff.mp hpath with h | ⟨e, t₁, hexpect, h⟩
  · obtain ⟨herr, rfl⟩ := run_inspect_eq_error_iff.mp h
    refine Or.inl ⟨Or.inr fun hkind => ?_, rfl⟩
    obtain ⟨e, he⟩ := kind?_eq_some_iff.mp hkind
    rw [expectKind_eq_ok_iff.mpr he] at herr
    cases herr
  · obtain ⟨hok, rfl⟩ := run_inspect_eq_ok_iff.mp hexpect
    exact Or.inr ⟨⟨hname, kind?_eq_some_iff.mpr ⟨e, expectKind_eq_ok_iff.mp hok⟩⟩,
      h⟩

/-- A refusal leaves the tree as it was exactly when there was no path to begin,
    or when the segments before the first empty one all lead somewhere.
    Otherwise it leaves what the segments up to the refusal made: the namespaces
    up to an empty segment, or a namespace for which there is no room, that
    nobody holds. -/
theorem run_addNamespace_refused_iff (hwf : WellFormed t)
    (h : (addNamespace p name).run t = .error err t') :
    (t' = t ↔ name = "" ∨ t.kind? p ≠ some .namespaceDecl
        ∨ "" ∈ Dotted.split (t.relativePath p name)
          ∧ (t.walk? p
            ((Dotted.split (t.relativePath p name)).takeWhile (· ≠ ""))).isSome)
      ∧ (t' ≠ t → ∃ found m, t.walk? p found = some m
          ∧ ((∃ made rest n, Dotted.split (t.relativePath p name)
            = found ++ made ++ "" :: rest
                ∧ made ≠ [] ∧ Chained t m made n t'
                  ∧ err = .empty "namespace segment")
            ∨ ∃ s rest e, Dotted.split (t.relativePath p name) = found ++ s :: rest
                ∧ t.get? m = some e ∧ t.hasMember m s = true
                ∧ t.child? m s .namespaceDecl = none
                ∧ t' = t.push (Element.ofNamespace s)
                  ∧ err = .nameTaken s e.name)) := by
  have hwl := hwf.toWellLinked
  rcases run_addNamespace_eq_error h with ⟨hnot, rfl⟩ | ⟨⟨hname, hkind⟩, hrun⟩
  · refine ⟨iff_of_true rfl ?_, fun hne => absurd rfl hne⟩
    exact hnot.imp_right Or.inl
  · obtain ⟨found, m, hfound, hwords, hcase⟩ :=
      run_enterNamespaces_eq_error hwl hkind hrun
    have hbegun : ¬ (name = "" ∨ t.kind? p ≠ some .namespaceDecl) :=
      fun hnot => hnot.elim hname fun hother => hother hkind
    rcases hcase with ⟨made, rest, n, hsplit, hmade, hstop, hchain, rfl⟩ |
      ⟨s, rest, e, hsplit, hs, hnone, hmember, he, rfl, rfl⟩
    · -- What stands before the empty segment was followed as far as it led, and
      -- made from there on.
      have hbefore : (Dotted.split (t.relativePath p name)).takeWhile (· ≠ "")
          = found ++ made := by
        have hboth : "" ∉ found ++ made := fun hmem =>
          (List.mem_append.mp hmem).elim hwords hmade
        rw [hsplit, Dotted.takeWhile_append_of_words hboth]
        simp
      have hempty : "" ∈ Dotted.split (t.relativePath p name) := by
        rw [hsplit]
        exact List.mem_append_right _ List.mem_cons_self
      rw [hbefore, isSome_walk?_append_iff hfound hstop, hchain.eq_iff]
      refine ⟨⟨fun hnil => Or.inr (Or.inr ⟨hempty, hnil⟩), fun hor => ?_⟩,
        fun hne => ?_⟩
      · rw [← or_assoc] at hor
        exact (hor.resolve_left hbegun).2
      · exact ⟨found, m, hfound, Or.inl ⟨made, rest, n, hsplit, fun hnil =>
          hne (hchain.eq_iff.mpr hnil), hchain, rfl⟩⟩
    · have hbefore : (Dotted.split (t.relativePath p name)).takeWhile (· ≠ "") =
          found ++ s :: rest.takeWhile (· ≠ "") := by
        rw [hsplit, Dotted.takeWhile_append_of_words hwords]
        simp [hs]
      have hstop : ∀ x ∈ (s :: rest.takeWhile (· ≠ "")).head?,
          t.child? m x .namespaceDecl = none := by
        intro x hx
        exact Option.some.inj hx ▸ hnone
      have hne : t.push (Element.ofNamespace s) ≠ t := by
        intro heq
        have hsize := congrArg size heq
        rw [size_push] at hsize
        omega
      rw [hbefore, isSome_walk?_append_iff hfound hstop]
      refine ⟨iff_of_false hne fun hor => ?_, fun _ => ?_⟩
      · rw [← or_assoc] at hor
        exact List.cons_ne_nil _ _ (hor.resolve_left hbegun).2
      · exact ⟨found, m, hfound,
          Or.inr ⟨s, rest, e, hsplit, he, hmember, hnone, rfl, rfl⟩⟩

/-- A tree with a namespace of one class. -/
def shopOfOrders : Tree :=
  Operation.runAll [.addNamespace ⟨0⟩ "shop",
    .addNew .classes ⟨1⟩ (.classDecl "Order" .model)] initial

theorem wellFormed_shopOfOrders : WellFormed shopOfOrders :=
  (Operation.fullyNamed_runAll _ fullyNamed_initial).wellFormed

/-- A path that is empty after namespaces that are there is refused without a
    trace. After a namespace that had to be made it is not, and neither is one
    that the class stands in the way of. -/
theorem run_addNamespace_refused_shopOfOrders :
    (∃ err, (addNamespace ⟨0⟩ "shop..items").run shopOfOrders
      = .error err shopOfOrders)
      ∧ (∃ err t', (addNamespace ⟨0⟩ "shop.items..old").run shopOfOrders
        = .error err t' ∧ t' ≠ shopOfOrders)
      ∧ ∃ err t', (addNamespace ⟨0⟩ "shop.Order.old").run shopOfOrders
        = .error err t' ∧ t' ≠ shopOfOrders := by
  have hrefused : ∀ path ∈ ["shop..items", "shop.items..old", "shop.Order.old"],
      ∃ err t', (addNamespace ⟨0⟩ path).run shopOfOrders = .error err t' := by
    intro path hpath
    have hall : ∀ path ∈ ["shop..items", "shop.items..old", "shop.Order.old"],
        (match (addNamespace ⟨0⟩ path).run shopOfOrders with
          | .ok _ _ => false
          | .error _ _ => true) = true := by decide +kernel
    have hno := hall path hpath
    cases hrun : (addNamespace ⟨0⟩ path).run shopOfOrders with
    | ok n t' =>
        rw [hrun] at hno
        cases hno
    | error err t' => exact ⟨err, t', rfl⟩
  refine ⟨?_, ?_, ?_⟩
  · obtain ⟨err, t', h⟩ := hrefused "shop..items" (by decide)
    obtain rfl := (run_addNamespace_refused_iff wellFormed_shopOfOrders h).1.mpr
      (Or.inr (Or.inr (by decide +kernel)))
    exact ⟨err, h⟩
  · obtain ⟨err, t', h⟩ := hrefused "shop.items..old" (by decide)
    exact ⟨err, t', h, fun heq =>
      absurd ((run_addNamespace_refused_iff wellFormed_shopOfOrders h).1.mp heq)
      (by decide +kernel)⟩
  · obtain ⟨err, t', h⟩ := hrefused "shop.Order.old" (by decide)
    exact ⟨err, t', h, fun heq =>
      absurd ((run_addNamespace_refused_iff wellFormed_shopOfOrders h).1.mp heq)
      (by decide +kernel)⟩

/-- A refused path may leave a namespace that the root holds, and it may leave
    one that nobody holds. -/
theorem exists_leftover_of_refused :
    (∃ err t', (addNamespace ⟨0⟩ "a..b").run initial = .error err t' ∧ t' ≠ initial
        ∧ t'.root = ⟨0⟩ ∧ t'.childrenOfKind ⟨0⟩ .namespaceDecl = [⟨1⟩])
      ∧ ∃ err t', (addNamespace ⟨1⟩ "Order").run shopOfOrders = .error err t'
      ∧ t' ≠ shopOfOrders
        ∧ t'.kind? ⟨3⟩ = some .namespaceDecl ∧ t'.parent? ⟨3⟩ = none := by
  have hroot : (match (addNamespace ⟨0⟩ "a..b").run initial with
      | .ok _ _ => false
      | .error _ t' => decide (t' ≠ initial ∧ t'.root = ⟨0⟩
          ∧ t'.childrenOfKind ⟨0⟩ .namespaceDecl = [⟨1⟩])) = true := by
            decide +kernel
  have hfree : (match (addNamespace ⟨1⟩ "Order").run shopOfOrders with
      | .ok _ _ => false
      | .error _ t' =>
          decide (t' ≠ shopOfOrders ∧ t'.kind? ⟨3⟩ = some .namespaceDecl
          ∧ t'.parent? ⟨3⟩ = none)) = true := by decide +kernel
  constructor
  · cases hrun : (addNamespace ⟨0⟩ "a..b").run initial with
    | ok n t' => rw [hrun] at hroot; cases hroot
    | error err t' =>
        rw [hrun] at hroot; exact ⟨err, t', rfl, of_decide_eq_true hroot⟩
  · cases hrun : (addNamespace ⟨1⟩ "Order").run shopOfOrders with
    | ok n t' => rw [hrun] at hfree; cases hfree
    | error err t' =>
        rw [hrun] at hfree; exact ⟨err, t', rfl, of_decide_eq_true hfree⟩

end Edit

end CodeModel
