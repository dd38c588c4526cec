import CodeModel.Proofs.DottedNamespaces

/-!
# Looking up one and looking up all

What lies below an element is looked up by name in two ways. The search for one
looks at what an element holds before it looks further down, and follows a
dotted path segment by segment. The search for all goes through everything below
and compares names, for a dotted path those of whole namespaces.

* **`findWithin_eq_none_iff`**: the search for one gives up only when nothing at
  any depth bears the name.
* **`Below`**: the path by which a namespace is reached from another; it is what
  the dotted name of the one has and that of the other has not
  (`Below.relativePath_qualifiedName`).
* **`ApartBelow.filter_answersTo`**: where names tell namespaces apart, the
  search for all gives what a dotted path leads to, and that alone.

Main statement: `lookups_agree`, one is found exactly when all are not none, and
it is among them. In a tree that operations have made that holds below every
element (`FullyNamed.exists_lookups`).
-/

namespace CodeModel

namespace Dotted

/-- A path that begins with the start is cut after it. -/
theorem relativeTo_append {start : String} (hstart : start ≠ "") (rest : String) :
    relativeTo start (start ++ "." ++ rest) = rest := by
  have hlist : (start ++ "." ++ rest).toList
      = start.toList ++ ['.'] ++ rest.toList := by
    rw [String.toList_append, String.toList_append]
    rfl
  have hprefix :
      (start.toList ++ ['.']).isPrefixOf (start ++ "." ++ rest).toList = true := by
    rw [hlist]
    exact List.isPrefixOf_iff_prefix.mpr (List.prefix_append _ _)
  have hdrop : (start.toList ++ ['.'] ++ rest.toList).drop (start.toList.length + 1)
      = rest.toList :=
    List.drop_left' (by rw [List.length_append, List.length_singleton])
  rw [relativeTo, if_neg (fun hempty => hstart (String.isEmpty_iff.mp hempty)),
    if_pos hprefix, hlist, hdrop, String.ofList_toList]

/-- Two lists of segments are joined by one more dot. -/
theorem join_append {before after : List String} (hbefore : before ≠ [])
    (hafter : after ≠ []) :
    join (before ++ after) = join before ++ "." ++ join after :=
  String.intercalate_append_of_ne_nil hbefore hafter

end Dotted

namespace Tree

variable {t : Tree} {start p c id x : ElementId} {name : String}
  {kind : NodeKind} {n : Nat}

/-! ## Level by level -/

/-- What is found lies below and bears the name. -/
theorem findWithin_spec (h : t.findWithin name kind n id = some x) :
    x ∈ t.descendantsWithin n id ∧ t.isNamed x name kind = true := by
  induction n generalizing id with
  | zero => cases h
  | succ n ih =>
      rw [findWithin] at h
      cases hchild : t.child? id name kind with
      | some found =>
          rw [hchild] at h
          obtain rfl := Option.some.inj h
          have hheld : found ∈ t.children id := List.mem_of_find?_eq_some hchild
          refine ⟨List.mem_flatMap.mpr ⟨found, hheld, List.mem_cons_self⟩, ?_⟩
          exact List.find?_some (p := fun c => t.isNamed c name kind) hchild
      | none =>
          rw [hchild] at h
          obtain ⟨c, hc, hfound⟩ := List.exists_of_findSome?_eq_some h
          obtain ⟨hbelow, hnamed⟩ := ih hfound
          exact ⟨List.mem_flatMap.mpr ⟨c, hc, List.mem_cons_of_mem _ hbelow⟩,
            hnamed⟩

/-- Nothing is found only where nothing bears the name at any depth. -/
theorem findWithin_eq_none_iff :
    t.findWithin name kind n id = none ↔
      ∀ x ∈ t.descendantsWithin n id, t.isNamed x name kind = false := by
  constructor
  · induction n generalizing id with
    | zero => exact fun _ x hx => absurd hx List.not_mem_nil
    | succ n ih =>
        intro h x hx
        rw [findWithin] at h
        cases hchild : t.child? id name kind with
        | some found =>
            rw [hchild] at h
            cases h
        | none =>
            rw [hchild] at h
            obtain ⟨c, hc, hx⟩ := List.mem_flatMap.mp hx
            rcases List.mem_cons.mp hx with rfl | hx
            · exact Bool.eq_false_iff.mpr (List.find?_eq_none.mp hchild x hc)
            · exact ih (List.findSome?_eq_none_iff.mp h c hc) x hx
  · intro h
    by_contra hsome
    obtain ⟨x, hx⟩ := Option.ne_none_iff_exists'.mp hsome
    obtain ⟨hbelow, hnamed⟩ := findWithin_spec hx
    rw [h x hbelow] at hnamed
    cases hnamed

/-! ## Segment by segment -/

/-- The namespaces below an element are told apart by their names: none holds a
    dot, and no two namespaces of one holder bear one name. -/
structure ApartBelow (t : Tree) (start : ElementId) : Prop where
  undotted : ∀ n name, Ancestor t start n → t.kind? n = some .namespaceDecl →
    t.name? n = some name → ¬ Dotted.HasDot name
  apart : ∀ p c c', Within t start p → c ∈ t.childrenOfKind p .namespaceDecl →
    c' ∈ t.childrenOfKind p .namespaceDecl → t.name? c = t.name? c' → c = c'

/-- Where the attached namespaces are told apart, those below an attached
    element are. -/
theorem NamespacesApart.below (h : NamespacesApart t) (hstart : Attached t start) :
    ApartBelow t start := by
  have hbelow : ∀ {n}, Ancestor t start n → Ancestor t t.root n := fun hn => by
    rcases hstart with rfl | hstart
    · exact hn
    · exact hstart.trans hn
  constructor
  · exact fun n name hn hkind hname =>
      h.undotted n name (Or.inr (hbelow hn)) hkind hname
  · rintro p c c' (rfl | hp)
    · exact h.apart p c c' hstart
    · exact h.apart p c c' (Or.inr (hbelow hp))

/-- Namespace `x` is reached from `start` by the segments `path`, of which there
    are some, and which hold no dots. -/
structure Below (t : Tree) (start x : ElementId) (path : List String) : Prop where
  walk?_eq : t.walk? start path = some x
  ne_nil : path ≠ []
  undotted : ∀ s ∈ path, ¬ Dotted.HasDot s

/-- A path of one segment or more leads to something below. -/
theorem WellLinked.ancestor_of_walk? (hwl : WellLinked t) {path : List String}
    (hpath : path ≠ []) (h : t.walk? start path = some x) :
    Ancestor t start x ∧ t.kind? x = some .namespaceDecl := by
  induction path generalizing start with
  | nil => exact absurd rfl hpath
  | cons s rest ih =>
      rw [walk?_cons, Option.bind_eq_some_iff] at h
      obtain ⟨c, hc, hrest⟩ := h
      obtain ⟨hheld, hkind, -⟩ := child?_spec hc
      have hbelow : Ancestor t start c :=
        .parent ((hwl.mem_children_iff start c).mp hheld)
      cases rest with
      | nil =>
          obtain rfl := Option.some.inj hrest
          exact ⟨hbelow, hkind⟩
      | cons s' more =>
          obtain ⟨hx, hkindx⟩ := ih (List.cons_ne_nil _ _) hrest
          exact ⟨hbelow.trans hx, hkindx⟩

/-- A namespace that an element holds is found under its name. -/
theorem ApartBelow.child?_eq (hapart : ApartBelow t start) (hwl : WellLinked t)
    (hp : t.parent? c = some p) (hwithin : Within t start p)
    (hkind : t.kind? c = some .namespaceDecl) (hname : t.name? c = some name) :
    t.child? p name .namespaceDecl = some c :=
  hwl.child?_eq_some hp hkind hname fun y hy z hz =>
    hapart.apart p y z hwithin hy hz

/-- Each namespace below is reached by some path, and then `start` is a
    namespace, too. -/
theorem ApartBelow.exists_below (hapart : ApartBelow t start) (hwl : WellLinked t)
    (h : Ancestor t start x) (hkind : t.kind? x = some .namespaceDecl) :
    t.kind? start = some .namespaceDecl ∧ ∃ path, Below t start x path := by
  induction h with
  | @parent x hp =>
      obtain ⟨e, he, -⟩ := kind?_eq_some_iff.mp hkind
      have hname : t.name? x = some e.name := by rw [name?, he]; rfl
      have hchild := hapart.child?_eq hwl hp (Or.inl rfl) hkind hname
      refine ⟨hwl.kind?_of_holds_namespace hp hkind, [e.name], ?_,
        List.cons_ne_nil _ _, ?_⟩
      · rw [walk?_cons, hchild, Option.bind_some, walk?_nil]
      · intro s hs
        rw [List.mem_singleton.mp hs]
        exact hapart.undotted x _ (.parent hp) hkind hname
  | @above x p hp ha ih =>
      obtain ⟨e, he, -⟩ := kind?_eq_some_iff.mp hkind
      have hname : t.name? x = some e.name := by rw [name?, he]; rfl
      have hchild := hapart.child?_eq hwl hp (Or.inr ha) hkind hname
      obtain ⟨hstart, path, hpath⟩ := ih (hwl.kind?_of_holds_namespace hp hkind)
      refine ⟨hstart, path ++ [e.name], ?_, by simp, ?_⟩
      · rw [walk?_append, hpath.walk?_eq, Option.bind_some, walk?_cons, hchild,
          Option.bind_some, walk?_nil]
      · intro s hs
        rcases List.mem_append.mp hs with hs | hs
        · exact hpath.undotted s hs
        · rw [List.mem_singleton.mp hs]
          exact hapart.undotted x _ (.above hp ha) hkind hname

/-- The segments of a namespace but the root end in its name. -/
theorem WellLinked.exists_namespaceSegments_eq (hwl : WellLinked t)
    (hkind : t.kind? x = some .namespaceDecl) (hroot : x ≠ t.root)
    (hname : t.name? x = some name) :
    ∃ before, t.namespaceSegments x = before ++ [name] := by
  cases hp : t.parent? x with
  | some p => exact ⟨_, hwl.namespaceSegments_of_parent? hp hkind hname⟩
  | none =>
      refine ⟨[], ?_⟩
      have hself : t.isNamespace x = true := decide_eq_true hkind
      rw [namespaceSegments, ancestors, ancestorsWithin_of_parent?_eq_none hp,
        List.takeWhile_cons_of_pos (by simpa using hroot), List.takeWhile_nil,
        List.filter_cons_of_pos hself]
      simp [hname]

/-- Taken relative to where the path starts, the dotted name of a namespace
    below is the path. For a start without a dotted name, the whole name is. -/
theorem Below.relativePath_qualifiedName {path : List String}
    (h : Below t start x path) (hwl : WellLinked t)
    (hkind : t.kind? start = some .namespaceDecl)
    (hnamed : start = t.root ∨ t.name? start ≠ some "") :
    t.relativePath start (t.qualifiedName x) = Dotted.join path := by
  have hx := (hwl.ancestor_of_walk? h.ne_nil h.walk?_eq).2
  rw [relativePath, qualifiedName_of_kind? hkind, qualifiedName_of_kind? hx,
    hwl.namespaceSegments_of_walk? h.walk?_eq]
  by_cases hroot : start = t.root
  · rw [hroot, namespaceSegments_root]
    rfl
  · obtain ⟨e, he, -⟩ := kind?_eq_some_iff.mp hkind
    have hname : t.name? start = some e.name := by rw [name?, he]; rfl
    have hne : e.name ≠ "" := fun hempty =>
      hnamed.resolve_left hroot (hempty ▸ hname)
    obtain ⟨before, hsegments⟩ := hwl.exists_namespaceSegments_eq hkind hroot hname
    have hdotted : Dotted.join (before ++ [e.name]) ≠ "" := by
      cases before with
      | nil => simpa [Dotted.join] using hne
      | cons s rest =>
          rw [Dotted.join_append (List.cons_ne_nil _ _) (List.cons_ne_nil _ _)]
          simp
    rw [hsegments, Dotted.join_append (by simp) h.ne_nil,
      Dotted.relativeTo_append hdotted]

/-- A namespace below is found under its dotted name. -/
theorem Below.namespaceAt?_qualifiedName {path : List String}
    (h : Below t start x path) (hwl : WellLinked t)
    (hkind : t.kind? start = some .namespaceDecl)
    (hnamed : start = t.root ∨ t.name? start ≠ some "") :
    t.namespaceAt? start (t.qualifiedName x) = some x := by
  show t.walk? start
    (Dotted.split (t.relativePath start (t.qualifiedName x))) = some x
  rw [h.relativePath_qualifiedName hwl hkind hnamed,
    Dotted.split_join h.ne_nil h.undotted]
  exact h.walk?_eq

/-! ## One and all -/

/-- What is found under a path is below. -/
theorem WellLinked.ancestor_of_namespaceAt? (hwl : WellLinked t)
    (h : t.namespaceAt? start name = some x) :
    Ancestor t start x ∧ t.kind? x = some .namespaceDecl := by
  refine hwl.ancestor_of_walk? (fun hnil => ?_) h
  exact Dotted.splitChars_ne_nil _ (List.map_eq_nil_iff.mp hnil)

/-- To a dotted path answers what it leads to, and nothing else. -/
theorem ApartBelow.answersTo_iff (hapart : ApartBelow t start) (hwl : WellLinked t)
    (hnamed : start = t.root ∨ t.name? start ≠ some "")
    (hdotted : kind = .namespaceDecl ∧ Dotted.HasDot name)
    (hx : Ancestor t start x) :
    t.answersTo start name kind x = true ↔ t.namespaceAt? start name = some x := by
  rw [answersTo, if_pos hdotted, decide_eq_true_iff]
  constructor
  · rintro ⟨hkind, rfl | hpath⟩
    · obtain ⟨hstart, path, hbelow⟩ :=
        hapart.exists_below hwl hx (of_decide_eq_true hkind)
      exact hbelow.namespaceAt?_qualifiedName hwl hstart hnamed
    · exact hpath
  · intro hpath
    exact ⟨decide_eq_true (hwl.ancestor_of_namespaceAt? hpath).2, Or.inr hpath⟩

/-- The search for all gives what a dotted path leads to, once. -/
theorem ApartBelow.filter_answersTo (hapart : ApartBelow t start)
    (hwl : WellLinked t) (hnamed : start = t.root ∨ t.name? start ≠ some "")
    (hdotted : kind = .namespaceDecl ∧ Dotted.HasDot name) :
    (t.descendants start).filter (t.answersTo start name kind)
      = (t.namespaceAt? start name).toList := by
  have hmem : ∀ x, x ∈ (t.descendants start).filter (t.answersTo start name kind)
      ↔ t.namespaceAt? start name = some x := by
    intro x
    rw [List.mem_filter, hwl.mem_descendants_iff]
    constructor
    · exact fun ⟨hbelow, hanswers⟩ =>
        (hapart.answersTo_iff hwl hnamed hdotted hbelow).mp hanswers
    · intro hpath
      have hbelow := (hwl.ancestor_of_namespaceAt? hpath).1
      exact ⟨hbelow, (hapart.answersTo_iff hwl hnamed hdotted hbelow).mpr hpath⟩
  have hnodup :
      ((t.descendants start).filter (t.answersTo start name kind)).Nodup :=
    (hwl.nodup_descendants start).filter _
  cases hfound : t.namespaceAt? start name with
  | none =>
      refine List.eq_nil_iff_forall_not_mem.mpr fun x hx => ?_
      rw [hmem, hfound] at hx
      cases hx
  | some found =>
      refine List.perm_singleton.mp
        ((List.perm_ext_iff_of_nodup hnodup (List.nodup_singleton _)).mpr
        fun x => ?_)
      rw [hmem, hfound, List.mem_singleton]
      exact ⟨fun h => (Option.some.inj h).symm, fun h => congrArg some h.symm⟩

/-- The search below `start` for one element of a name and a kind finds `found`,
    and the search for all of them finds `all`. One is found exactly when all
    are not none, and it is among them. What is held directly comes first,
    unless a dotted path is looked up: then there is one answer at most. -/
structure LookupsAgree (t : Tree) (start : ElementId) (name : String)
    (kind : NodeKind) (found : Option ElementId) (all : List ElementId) : Prop where
  findChild?_eq : t.findChild? start name kind = .ok found
  findChildren_eq : t.findChildren start name kind = .ok all
  eq_none_iff : found = none ↔ all = []
  mem : ∀ x, found = some x → x ∈ all
  direct : ¬ (kind = .namespaceDecl ∧ Dotted.HasDot name) →
    ∀ c, t.child? start name kind = some c → found = some c
  length_le : kind = .namespaceDecl ∧ Dotted.HasDot name → all.length ≤ 1

/-- Below an element that is the root or has a name, the two searches agree. -/
theorem ApartBelow.exists_lookups {e : Element} (hapart : ApartBelow t start)
    (hwl : WellLinked t) (he : t.get? start = some e)
    (hnamed : start = t.root ∨ e.name ≠ "") (hname : name ≠ "") (kind : NodeKind) :
    ∃ found all, LookupsAgree t start name kind found all := by
  by_cases hdotted : kind = .namespaceDecl ∧ Dotted.HasDot name
  · -- Both follow the path, the search for all by the names of whole namespaces as
    -- well.
    have hname? : start = t.root ∨ t.name? start ≠ some "" :=
      hnamed.imp_right fun hne h =>
        hne (by rw [name?, he] at h; exact Option.some.inj h)
    refine ⟨t.namespaceAt? start name, (t.namespaceAt? start name).toList, ?_, ?_,
      ?_, ?_, fun hno => absurd hdotted hno, fun _ => ?_⟩
    · rw [findChild?, checkSearch_eq_ok he hname, if_pos hdotted]
      rfl
    · rw [findChildren, checkSearch_eq_ok he hname,
        hapart.filter_answersTo hwl hname? hdotted]
      rfl
    all_goals cases t.namespaceAt? start name <;> simp
  · -- Both look at single names, in another order.
    have hanswers : ∀ x, t.answersTo start name kind x = t.isNamed x name kind :=
        fun x => by
      rw [answersTo, if_neg hdotted]
    refine ⟨t.findWithin name kind t.size start, (t.descendants start).filter
      (t.answersTo start name kind), ?_, ?_, ?_, ?_, ?_, fun h => absurd h hdotted⟩
    · rw [findChild?, checkSearch_eq_ok he hname, if_neg hdotted]
      rfl
    · rw [findChildren, checkSearch_eq_ok he hname]
      rfl
    · rw [findWithin_eq_none_iff, List.filter_eq_nil_iff]
      simp only [hanswers, Bool.not_eq_true]
      rfl
    · intro x hx
      obtain ⟨hbelow, hnamedx⟩ := findWithin_spec hx
      exact List.mem_filter.mpr ⟨hbelow, (hanswers x).trans hnamedx⟩
    · intro _ c hc
      exact findWithin_of_child? hc (Nat.zero_lt_of_lt (index_lt_of_get? he))

/-- In a tree that operations have made, the two searches agree below every
    element that there is, whether it is attached or not. -/
theorem FullyNamed.exists_lookups (h : FullyNamed t) (hapart : ApartBelow t start)
    (hlive : (t.get? start).isSome) (hname : name ≠ "") (kind : NodeKind) :
    ∃ found all, LookupsAgree t start name kind found all := by
  obtain ⟨e, he⟩ := Option.isSome_iff_exists.mp hlive
  exact hapart.exists_lookups h.toWellLinked he
    ((eq_or_ne start t.root).imp_right (h.name_ne_empty start e he)) hname kind

/-- One is found exactly when all are not none, and it is among them. Of what is
    held directly the first of the name is found, unless a dotted path is looked
    up: then there is one answer at most. What is attached has a name or is the
    root. A namespace by itself without a name, which no operation makes, would
    start the dotted names of what it holds with a dot. -/
theorem lookups_agree (hwf : WellFormed t) (hapart : ApartBelow t start)
    (hlive : Attached t start ∨ ∃ e, t.get? start = some e ∧ e.name ≠ "")
    (hname : name ≠ "") (kind : NodeKind) :
    ∃ found all, t.findChild? start name kind = .ok found
      ∧ t.findChildren start name kind = .ok all
      ∧ (found = none ↔ all = []) ∧ (∀ x, found = some x → x ∈ all)
      ∧ (¬ (kind = .namespaceDecl ∧ Dotted.HasDot name) →
        ∀ c, t.child? start name kind = some c → found = some c)
      ∧ (kind = .namespaceDecl ∧ Dotted.HasDot name → all.length ≤ 1) := by
  have hwl := hwf.toWellLinked
  obtain ⟨e, he, hnamed⟩ : ∃ e, t.get? start = some e
      ∧ (start = t.root ∨ e.name ≠ "") := by
    rcases hlive with (rfl | hbelow) | ⟨e, he, hne⟩
    · obtain ⟨e, he, -⟩ := hwl.exists_root
      exact ⟨e, he, Or.inl rfl⟩
    · obtain ⟨e, he⟩ := Option.isSome_iff_exists.mp hbelow.isSome_get?
      exact ⟨e, he, Or.inr (hwf.name_ne_empty start e he hbelow)⟩
    · exact ⟨e, he, Or.inr hne⟩
  obtain ⟨found, all, h⟩ := hapart.exists_lookups hwl he hnamed hname kind
  exact ⟨found, all, h.findChild?_eq, h.findChildren_eq, h.eq_none_iff, h.mem,
    h.direct, h.length_le⟩

end Tree

namespace Edit

open CodeModel.Tree

/-- A namespace that repeats the name of an outer one is looked up from the
    outer one: by the dotted name of the whole it is the only answer, and by its
    own word it is found behind what bears another name. -/
theorem lookups_agree_shopInOrders :
    Attached shopInOrders ⟨1⟩
      ∧ shopInOrders.findChild? ⟨1⟩ "shop.orders.shop" .namespaceDecl
        = .ok (some ⟨3⟩)
      ∧ shopInOrders.findChildren ⟨1⟩ "shop.orders.shop" .namespaceDecl = .ok [⟨3⟩]
      ∧ shopInOrders.findChild? ⟨1⟩ "shop" .namespaceDecl = .ok (some ⟨3⟩)
      ∧ ∃ all, shopInOrders.findChildren ⟨1⟩ "shop" .namespaceDecl = .ok all
      ∧ ⟨3⟩ ∈ all := by
  have hattached : Attached shopInOrders ⟨1⟩ :=
    wellFormed_shopInOrders.toWellLinked.isAttached_iff.mp (by decide +kernel)
  have hapart := namespacesApart_shopInOrders.below hattached
  have hdotted : shopInOrders.findChild? ⟨1⟩ "shop.orders.shop" .namespaceDecl
      = .ok (some ⟨3⟩) := by
    decide +kernel
  have hword : shopInOrders.findChild? ⟨1⟩ "shop" .namespaceDecl = .ok (some ⟨3⟩) :=
      by
    decide +kernel
  refine ⟨hattached, hdotted, ?_, hword, ?_⟩
  · obtain ⟨found, all, hone, hall, -, hmem, -, hmost⟩ :=
      lookups_agree wellFormed_shopInOrders hapart (Or.inl hattached)
        (show "shop.orders.shop" ≠ "" by decide) .namespaceDecl
    obtain rfl := Except.ok.inj (hone.symm.trans hdotted)
    have hlength : all.length ≤ 1 := hmost (by decide +kernel)
    obtain ⟨x, rfl⟩ := List.length_eq_one_iff.mp
      (Nat.le_antisymm hlength (List.length_pos_of_mem (hmem _ rfl)))
    rw [hall, List.mem_singleton.mp (hmem _ rfl)]
  · obtain ⟨found, all, hone, hall, -, hmem, -⟩ :=
      lookups_agree wellFormed_shopInOrders hapart (Or.inl hattached)
        (show "shop" ≠ "" by decide) .namespaceDecl
    obtain rfl := Except.ok.inj (hone.symm.trans hword)
    exact ⟨all, hall, hmem _ rfl⟩

end Edit

end CodeModel
