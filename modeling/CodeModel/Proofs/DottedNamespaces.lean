import CodeModel.Proofs.ImportNames
import CodeModel.Proofs.Operations

/-!
# Namespaces by their dotted names

A dotted path leads from namespace to namespace, a segment at a time (`walk?`).
Making a namespace follows the path as far as it leads and goes on with
namespaces that are new; looking one up follows it and makes nothing. Both take
a path that repeats the dotted name of where it starts relative to that.

* **`namespaceSegments_of_walk?`**: a path that leads somewhere is the end of
  the segments of where it leads.
* **`run_enterNamespaces`**: making a path leaves a tree in which it leads to
  the namespace that was given, with a chain of new namespaces where the path
  had led nowhere (`Chained`), and is otherwise the same.
* **`spelledOut_of_attached`**: the segments of an attached namespace lead to it
  from the root, if no name holds a dot and no two namespaces of one holder bear
  one name.
* **`run_addNamespace_exact`**: what is made under a path is found under it, and
  nothing is made twice.
-/

namespace CodeModel

namespace Dotted

/-- A path without a dot is relative already. -/
theorem relativeTo_of_not_hasDot {start path : String} (h : ¬ HasDot path) :
    relativeTo start path = path := by
  rw [relativeTo]
  split_ifs with hempty hprefix
  · rfl
  · exact absurd ((List.isPrefixOf_iff_prefix.mp hprefix).subset (by simp)) h
  · rfl

theorem split_of_not_hasDot {path : String} (h : ¬ HasDot path) :
    split path = [path] := by
  rw [split, splitChars_word h, List.map_singleton, String.ofList_toList]

end Dotted

namespace Tree

variable {t t' : Tree} {p holder n c : ElementId} {name s : String}
  {kind : NodeKind}

/-! ## Elements by name -/

theorem isNamed_iff {id : ElementId} :
    t.isNamed id name kind = true ↔
      t.kind? id = some kind ∧ t.name? id = some name := by
  rw [isNamed, kind?, name?]
  cases t.get? id <;> simp

/-- What is found by name and kind is held, and is of that kind and name. -/
theorem child?_spec (h : t.child? p name kind = some c) :
    c ∈ t.children p ∧ t.kind? c = some kind ∧ t.name? c = some name := by
  have hnamed : t.isNamed c name kind = true :=
    List.find?_some (p := fun c => t.isNamed c name kind) h
  exact ⟨List.mem_of_find?_eq_some h, isNamed_iff.mp hnamed⟩

/-- The one element of a name and kind that another holds is the first. -/
theorem child?_eq_some (hc : c ∈ t.children p)
    (hkind : t.kind? c = some kind) (hname : t.name? c = some name)
    (hone : ∀ x ∈ t.children p, t.kind? x = some kind →
      t.name? x = some name → x = c) : t.child? p name kind = some c := by
  obtain ⟨x, hx⟩ : ∃ x, t.child? p name kind = some x :=
    Option.isSome_iff_exists.mp
      (List.find?_isSome.mpr ⟨c, hc, isNamed_iff.mpr ⟨hkind, hname⟩⟩)
  obtain ⟨hmem, hkindx, hnamex⟩ := child?_spec hx
  rw [hx, hone x hmem hkindx hnamex]

/-- Where no two elements of a kind that one holds bear one name, each is the
    first of its name. -/
theorem WellLinked.child?_eq_some (hwl : WellLinked t) (hp : t.parent? c = some p)
    (hkind : t.kind? c = some kind) (hname : t.name? c = some name)
    (hapart : ∀ x ∈ t.childrenOfKind p kind, ∀ y ∈ t.childrenOfKind p kind,
      t.name? x = t.name? y → x = y) : t.child? p name kind = some c := by
  have hc := (hwl.mem_children_iff p c).mpr hp
  refine Tree.child?_eq_some hc hkind hname fun x hx hkindx hnamex => ?_
  exact hapart x (List.mem_filter.mpr ⟨hx, decide_eq_true hkindx⟩) c
    (List.mem_filter.mpr ⟨hc, decide_eq_true hkind⟩) (hnamex.trans hname.symm)

/-- What is held directly is found first. -/
theorem findWithin_of_child? {k : Nat} (h : t.child? p name kind = some c)
    (hk : 0 < k) : t.findWithin name kind k p = some c := by
  obtain ⟨m, rfl⟩ : ∃ m, k = m + 1 := ⟨k - 1, by omega⟩
  rw [findWithin, h]

/-- A search from an element that is there goes ahead. -/
theorem checkSearch_eq_ok {e : Element} (he : t.get? p = some e)
    (hname : name ≠ "") : t.checkSearch p name = .ok () := by
  rw [checkSearch, if_neg (by simpa using hname), he]

/-! ## Following a path -/

/-- The namespace reached from another by some segments. -/
def walk? (t : Tree) (start : ElementId) (segments : List String) :
    Option ElementId :=
  segments.foldlM (fun id segment => t.child? id segment .namespaceDecl) start

@[simp]
theorem walk?_nil (t : Tree) (start : ElementId) : t.walk? start [] = some start :=
  rfl

/-- The first segment is looked up among the children, the others from there. -/
theorem walk?_cons (t : Tree) (start : ElementId) (s : String)
    (rest : List String) :
    t.walk? start (s :: rest) = (t.child? start s .namespaceDecl).bind
      fun c => t.walk? c rest := by
  rw [walk?, List.foldlM_cons]
  rfl

/-- A path is walked in two parts. -/
theorem walk?_append (t : Tree) (start : ElementId) (before after : List String) :
    t.walk? start (before ++ after) = (t.walk? start before).bind
      fun m => t.walk? m after := by
  rw [walk?, List.foldlM_append]
  rfl

/-- The segments of a namespace are those of its holder and its own name. -/
theorem WellLinked.namespaceSegments_of_parent? (hwl : WellLinked t)
    (hp : t.parent? c = some p) (hkind : t.kind? c = some .namespaceDecl)
    (hname : t.name? c = some s) :
    t.namespaceSegments c = t.namespaceSegments p ++ [s] := by
  have hroot : c ≠ t.root := by
    rintro rfl
    rw [hwl.parent?_root] at hp
    cases hp
  have hself : t.isNamespace c = true := decide_eq_true hkind
  rw [namespaceSegments, hwl.ancestors_of_parent? hp, List.takeWhile_cons_of_pos
    (by simpa using hroot), List.filter_cons_of_pos hself, List.reverse_cons,
    List.filterMap_append, namespaceSegments]
  simp only [List.filterMap_cons, List.filterMap_nil, hname]

/-- A path that leads somewhere is the end of the segments of where it leads. -/
theorem WellLinked.namespaceSegments_of_walk? (hwl : WellLinked t)
    {segments : List String} (h : t.walk? p segments = some n) :
    t.namespaceSegments n = t.namespaceSegments p ++ segments := by
  induction segments generalizing p with
  | nil =>
      obtain rfl := Option.some.inj h
      rw [List.append_nil]
  | cons s rest ih =>
      rw [walk?_cons, Option.bind_eq_some_iff] at h
      obtain ⟨c, hc, hrest⟩ := h
      obtain ⟨hmem, hkind, hname⟩ := child?_spec hc
      rw [ih hrest,
        hwl.namespaceSegments_of_parent? ((hwl.mem_children_iff p c).mp hmem) hkind
        hname, List.append_assoc, List.singleton_append]

/-- A search for a namespace finds what the path leads to. Without a dot in it
    the path is one segment, and the search looks at what is held directly
    before it looks further down. -/
theorem findChild?_of_walk? {e : Element} (he : t.get? p = some e)
    (hname : name ≠ "")
    (h : t.walk? p (Dotted.split (t.relativePath p name)) = some n) :
    t.findChild? p name .namespaceDecl = .ok (some n) := by
  rw [findChild?, checkSearch_eq_ok he hname]
  by_cases hdot : Dotted.HasDot name
  · simp only [hdot, and_self, if_true]
    exact congrArg Except.ok h
  · rw [relativePath, Dotted.relativeTo_of_not_hasDot hdot,
      Dotted.split_of_not_hasDot hdot, walk?_cons, Option.bind_eq_some_iff] at h
    obtain ⟨c, hc, hcn⟩ := h
    obtain rfl := Option.some.inj hcn
    have hfound : t.findWithin name .namespaceDecl t.size p = some c :=
      findWithin_of_child? hc (Nat.zero_lt_of_lt (index_lt_of_get? he))
    simp only [hdot, and_false, if_false]
    exact congrArg Except.ok hfound

/-! ## Namespaces that their dotted names tell apart -/

/-- The attached namespaces of a tree are told apart by their dotted names: no
    name of a namespace holds a dot, and no two namespaces of one holder bear
    one name. -/
structure NamespacesApart (t : Tree) : Prop where
  undotted : ∀ n name, Attached t n → t.kind? n = some .namespaceDecl →
    t.name? n = some name → ¬ Dotted.HasDot name
  apart : ∀ p c c', Attached t p → c ∈ t.childrenOfKind p .namespaceDecl →
    c' ∈ t.childrenOfKind p .namespaceDecl → t.name? c = t.name? c' → c = c'

/-- The segments of a namespace lead to it from the root, and each of them is a
    word: not empty, and without a dot. -/
structure SpelledOut (t : Tree) (n : ElementId) : Prop where
  walk?_eq : t.walk? t.root (t.namespaceSegments n) = some n
  words : ∀ s ∈ t.namespaceSegments n, s ≠ "" ∧ ¬ Dotted.HasDot s

/-- The root has no segments. -/
theorem namespaceSegments_root (t : Tree) : t.namespaceSegments t.root = [] := by
  rw [namespaceSegments, List.takeWhile_cons_of_neg (by simp)]
  rfl

theorem spelledOut_root (t : Tree) : SpelledOut t t.root := by
  constructor <;> rw [namespaceSegments_root]
  · rfl
  · exact nofun

/-- A namespace that is the one of its name in its holder is spelled out if the
    holder is. -/
theorem SpelledOut.child (hwf : WellFormed t) (hapart : NamespacesApart t)
    (h : SpelledOut t p) (hp : t.parent? c = some p) (hattached : Attached t p)
    (hkind : t.kind? c = some .namespaceDecl) : SpelledOut t c := by
  have hwl := hwf.toWellLinked
  obtain ⟨e, he, -⟩ := kind?_eq_some_iff.mp hkind
  have hname : t.name? c = some e.name := by rw [name?, he]; rfl
  have hbelow : Ancestor t t.root c := ancestor_of_within_of_parent? hattached hp
  have hchild : t.child? p e.name .namespaceDecl = some c :=
    hwl.child?_eq_some hp hkind hname fun x hx y hy =>
      hapart.apart p x y hattached hx hy
  constructor <;> rw [hwl.namespaceSegments_of_parent? hp hkind hname]
  · rw [walk?_append, h.walk?_eq, Option.bind_some, walk?_cons, hchild,
      Option.bind_some, walk?_nil]
  · intro s hs
    rcases List.mem_append.mp hs with hs | hs
    · exact h.words s hs
    · obtain rfl := List.mem_singleton.mp hs
      exact ⟨hwf.name_ne_empty c e he hbelow,
        hapart.undotted c _ (Or.inr hbelow) hkind hname⟩

/-- Attached namespaces are spelled out, if their dotted names tell them apart. -/
theorem spelledOut_of_attached (hwf : WellFormed t) (hapart : NamespacesApart t)
    (hn : Attached t n) (hkind : t.kind? n = some .namespaceDecl) :
    SpelledOut t n := by
  rcases hn with rfl | hn
  · exact spelledOut_root t
  · induction hn with
    | parent hp => exact (spelledOut_root t).child hwf hapart hp (Or.inl rfl) hkind
    | above hp ha ih =>
        exact (ih (hwf.toWellLinked.kind?_of_holds_namespace hp hkind)).child hwf
          hapart hp (Or.inr ha) hkind

/-- From the root a path is taken as it is. -/
theorem WellLinked.relativePath_root (hwl : WellLinked t) (path : String) :
    t.relativePath t.root path = path := by
  rw [relativePath, qualifiedName_of_kind? hwl.kind?_root, namespaceSegments_root]
  rfl

/-- The dotted name of a namespace that is spelled out splits into its
    segments. -/
theorem SpelledOut.split_qualifiedName (h : SpelledOut t n) (hne : n ≠ t.root)
    (hkind : t.kind? n = some .namespaceDecl) :
    Dotted.split (t.qualifiedName n) = t.namespaceSegments n := by
  rw [qualifiedName_of_kind? hkind]
  refine Dotted.split_join (fun hnil => hne ?_) fun s hs => (h.words s hs).2
  have hwalk := h.walk?_eq
  rw [hnil] at hwalk
  exact (Option.some.inj hwalk).symm

/-! ## Chains of new namespaces -/

/-- The places of a chain of new namespaces that hangs from `holder`: the
    holder, then the new ones in order. -/
def chainPlace (t : Tree) (holder : ElementId) : Nat → ElementId
  | 0 => holder
  | k + 1 => ⟨t.size + k⟩

/-- Tree `t'` is `t` with a chain of new namespaces at the end of what `holder`
    holds, one for each name and each holding the next, and `n` is its end: the
    holder itself if nothing is new. What was there is otherwise as it was. -/
structure Chained (t : Tree) (holder : ElementId) (names : List String)
    (n : ElementId) (t' : Tree) : Prop where
  end_eq : n = t.chainPlace holder names.length
  root_eq : t'.root = t.root
  size_eq : t'.size = t.size + names.length
  get?_old : ∀ x, x.index < t.size → t'.get? x = (t.get? x).map fun e =>
    { e with
      children :=
        if x = holder ∧ names ≠ [] then e.children ++ [t.nextId] else e.children }
  get?_new : ∀ k s, names[k]? = some s →
    t'.get? (t.chainPlace holder (k + 1)) = some
      { Element.ofNamespace s with
        parent := some (t.chainPlace holder k)
        children :=
          if k + 1 < names.length then [t.chainPlace holder (k + 2)] else [] }

/-- With no names nothing is new. -/
theorem Chained.nil (t : Tree) (holder : ElementId) :
    Chained t holder [] holder t where
  end_eq := rfl
  root_eq := rfl
  size_eq := rfl
  get?_old x _ := by simp
  get?_new k s hs := by simp at hs

/-- Tree `t` with a new namespace at the end of what `holder` holds. -/
def withNamespace (t : Tree) (holder : ElementId) (s : String) : Tree :=
  (t.push (Element.ofNamespace s)).attach holder [t.nextId]

theorem get?_withNamespace (t : Tree) (holder : ElementId) (s : String)
    (x : ElementId) :
    (t.withNamespace holder s).get? x =
      ((t.push (Element.ofNamespace s)).get? x).map (linkUp holder [t.nextId] x) :=
  (changedBy_attach _ holder [t.nextId]).get?_eq x

/-- A namespace more is one element more. -/
theorem size_withNamespace (t : Tree) (holder : ElementId) (s : String) :
    (t.withNamespace holder s).size = t.size + 1 := by
  rw [withNamespace, (relinked_attach _ holder _).size_eq, size_push]

theorem get?_nextId_withNamespace (hholder : holder.index < t.size) (s : String) :
    (t.withNamespace holder s).get? t.nextId
      = some { Element.ofNamespace s with parent := some holder } := by
  have hne : t.nextId ≠ holder := by
    rintro rfl
    exact Nat.lt_irrefl _ hholder
  rw [get?_withNamespace, get?_push_nextId]
  simp [linkUp, hne]

/-- A chain that hangs from a new namespace is one with the namespace. -/
theorem Chained.cons {rest : List String} (hholder : holder.index < t.size)
    (h : Chained (t.withNamespace holder s) t.nextId rest n t') :
    Chained t holder (s :: rest) n t' := by
  have hsize := size_withNamespace t holder s
  have hplace : ∀ k, (t.withNamespace holder s).chainPlace t.nextId k
      = t.chainPlace holder (k + 1) := by
    intro k
    cases k with
    | zero => rfl
    | succ k => exact congrArg ElementId.mk (by omega)
  exact
    { end_eq := h.end_eq.trans (hplace rest.length)
      root_eq := h.root_eq.trans (changedBy_attach _ holder _).root_eq
      size_eq := by
        rw [h.size_eq, hsize, List.length_cons]
        omega
      get?_old := fun x hx => by
        have hne : x ≠ t.nextId := by
          rintro rfl
          exact Nat.lt_irrefl _ hx
        rw [h.get?_old x (by omega), get?_withNamespace, get?_push, if_neg hne,
          Option.map_map]
        cases t.get? x with
        | none => rfl
        | some e => simp [linkUp, hne]
      get?_new := fun k s' hs => by
        cases k with
        | zero =>
            obtain rfl := Option.some.inj hs
            have hnext :
                (t.withNamespace holder s).nextId = t.chainPlace holder 2 :=
              congrArg ElementId.mk hsize
            show t'.get? t.nextId = _
            rw [h.get?_old t.nextId (by rw [hsize]; exact Nat.lt_succ_self _),
              get?_nextId_withNamespace hholder, hnext]
            cases rest <;> simp [Element.ofNamespace, chainPlace]
        | succ k =>
            have hnew := h.get?_new k s' hs
            rw [hplace, hplace, hplace] at hnew
            rw [hnew]
            simp only [List.length_cons, Nat.add_lt_add_iff_right] }

namespace Chained

variable {names : List String} (h : Chained t holder names n t')

include h

/-- Names and kinds of what was there are the same. -/
theorem isNamed_eq {x : ElementId} (hx : x.index < t.size) :
    t'.isNamed x name kind = t.isNamed x name kind := by
  rw [isNamed, isNamed, h.get?_old x hx]
  cases t.get? x <;> rfl

/-- What was found under a name is found under it still: the holder gains a
    child at the end. -/
theorem child?_eq_some (hwl : WellLinked t) (hc : t.child? p name kind = some c) :
    t'.child? p name kind = some c := by
  obtain ⟨e, he, -⟩ := mem_children_iff_exists.mp (child?_spec hc).1
  obtain ⟨more, hmore⟩ : ∃ more, t'.children p = t.children p ++ more := by
    rw [children, children, h.get?_old p (index_lt_of_get? he), he]
    by_cases hp : p = holder ∧ names ≠ []
    · exact ⟨[t.nextId], by simp [hp]⟩
    · exact ⟨[], by simp [hp]⟩
  have hsame : (t.children p).find? (t'.isNamed · name kind) =
      (t.children p).find? (t.isNamed · name kind) := by
    exact List.find?_congr fun x hx =>
      h.isNamed_eq (hwl.index_lt_of_mem_children hx)
  rw [child?, hmore, List.find?_append, hsame, ← child?, hc]
  rfl

/-- All that is above what was there is the same. -/
theorem sameAbove (hwl : WellLinked t) {d : ElementId} (hd : d.index < t.size) :
    SameAbove t t' d := by
  intro a ha
  have hget := h.get?_old a (hwl.index_lt_of_within hd ha)
  rw [parent?, parent?, name?, name?, kind?, kind?, hget]
  cases t.get? a <;> exact ⟨rfl, rfl, rfl⟩

end Chained

/-- One new namespace is a chain of one. -/
theorem chained_withNamespace (hholder : holder.index < t.size) (s : String) :
    Chained t holder [s] t.nextId (t.withNamespace holder s) :=
  .cons hholder (.nil _ _)

/-- What was not there is found once it is made. -/
theorem child?_withNamespace (hwl : WellLinked t) (hholder : holder.index < t.size)
    (hnone : t.child? holder s .namespaceDecl = none) :
    (t.withNamespace holder s).child? holder s .namespaceDecl = some t.nextId := by
  have hnew := get?_nextId_withNamespace hholder s
  have hchildren : (t.withNamespace holder s).children holder
      = t.children holder ++ [t.nextId] := by
    obtain ⟨e, he⟩ :=
      Option.isSome_iff_exists.mp ((get?_isSome_iff t holder).mpr hholder)
    rw [children, children,
      (chained_withNamespace hholder s).get?_old holder hholder, he]
    simp
  refine child?_eq_some (by simp [hchildren]) (by rw [kind?, hnew]; rfl)
    (by rw [name?, hnew]; rfl) ?_
  intro x hx hkind hname
  rw [hchildren] at hx
  rcases List.mem_append.mp hx with hx | hx
  · have hnamed : _ = t.isNamed x s .namespaceDecl :=
      (chained_withNamespace hholder s).isNamed_eq (hwl.index_lt_of_mem_children hx)
    rw [isNamed_iff.mpr ⟨hkind, hname⟩] at hnamed
    exact absurd hnamed.symm (List.find?_eq_none.mp hnone x hx)
  · exact List.mem_singleton.mp hx

end Tree

namespace Edit

open CodeModel.Tree

variable {t t' : Tree} {p holder n : ElementId} {name s : String}

/-! ## Making a path -/

/-- Entering a segment is finding it or making it; the segment is not empty, so
    nothing is refused. -/
theorem run_enterNamespace (t : Tree) (hs : s ≠ "") :
    (enterNamespace holder s).run t =
    ((match t.child? holder s .namespaceDecl with
      | some existing => pure existing
      | none => addNew .namespaces holder (Element.ofNamespace s)) :
          Edit ElementId).run t := by
  rw [enterNamespace, if_neg (by simpa using hs)]
  rfl

/-- One segment: a namespace that is there is taken, and one that is not is
    made. -/
theorem run_enterNamespace_eq_ok (hwl : WellLinked t)
    (h : (enterNamespace holder s).run t = .ok n t') :
    s ≠ "" ∧ (t.child? holder s .namespaceDecl = some n ∧ t' = t
      ∨ t.child? holder s .namespaceDecl = none ∧ n = t.nextId
        ∧ t' = t.withNamespace holder s
        ∧ WellLinked t') := by
  have hs : s ≠ "" := by
    rintro rfl
    have hempty : "".isEmpty = true := rfl
    rw [enterNamespace, if_pos hempty] at h
    cases h
  refine ⟨hs, ?_⟩
  rw [run_enterNamespace t hs] at h
  cases hchild : t.child? holder s .namespaceDecl with
  | some c =>
      rw [hchild, run_pure_eq_ok_iff] at h
      obtain ⟨rfl, rfl⟩ := h
      exact Or.inl ⟨rfl, rfl⟩
  | none =>
      rw [hchild] at h
      obtain ⟨-, rfl, hinsert⟩ := run_addNew_eq_ok h
      have hwl₁ : WellLinked (t.push (Element.ofNamespace s)) :=
        hwl.push rfl rfl (tokenFits_ofNamespace s)
      obtain ⟨hfit, rfl⟩ := insertable_of_insert hwl₁ hinsert
      exact Or.inr ⟨rfl, rfl, rfl, hwl₁.attach hfit⟩

/-- A path that leads somewhere is entered without making anything. -/
theorem run_enterNamespaces_of_walk? {segments : List String}
    (hwords : ∀ s ∈ segments, s ≠ "") (h : t.walk? p segments = some n) :
    (segments.foldlM enterNamespace p).run t = .ok n t := by
  induction segments generalizing p with
  | nil =>
      obtain rfl := Option.some.inj h
      rfl
  | cons s rest ih =>
      rw [walk?_cons, Option.bind_eq_some_iff] at h
      obtain ⟨c, hc, hrest⟩ := h
      rw [List.foldlM_cons, run_bind_eq_ok_iff]
      obtain ⟨hs, hwords⟩ := List.forall_mem_cons.mp hwords
      refine ⟨c, t, ?_, ih hwords hrest⟩
      rw [run_enterNamespace t hs, hc]
      rfl

/-- A path is followed as far as it leads, and what is missing is made.
    Afterwards it leads all the way. -/
theorem run_enterNamespaces (hwl : WellLinked t) (hholder : holder.index < t.size)
    {segments : List String}
    (h : (segments.foldlM enterNamespace holder).run t = .ok n t') :
    WellLinked t' ∧ (∀ s ∈ segments, s ≠ "") ∧ t'.walk? holder segments = some n
      ∧ ∃ found missing m, segments = found ++ missing
      ∧ t.walk? holder found = some m
        ∧ (∀ s ∈ missing.head?, t.child? m s .namespaceDecl = none)
        ∧ Chained t m missing n t' := by
  induction segments generalizing t holder with
  | nil =>
      rw [List.foldlM_nil, run_pure_eq_ok_iff] at h
      obtain ⟨rfl, rfl⟩ := h
      exact ⟨hwl, nofun, rfl, [], [], holder, rfl, rfl, nofun, .nil t holder⟩
  | cons s rest ih =>
      rw [List.foldlM_cons, run_bind_eq_ok_iff] at h
      obtain ⟨c, t₁, hfirst, hrest⟩ := h
      obtain ⟨hs, ⟨hchild, rfl⟩ | ⟨hnone, rfl, rfl, hwl₁⟩⟩ :=
        run_enterNamespace_eq_ok hwl hfirst
      · -- The path leads on.
        obtain ⟨hwl', hwords, hwalk, found, missing, m, hsplit, hfound, hstop,
            hchain⟩ :=
          ih hwl (hwl.index_lt_of_mem_children (child?_spec hchild).1) hrest
        refine ⟨hwl', List.forall_mem_cons.mpr ⟨hs, hwords⟩, ?_, s :: found,
          missing, m, ?_, ?_, hstop, hchain⟩
        · rw [walk?_cons, hchain.child?_eq_some hwl hchild]
          exact hwalk
        · rw [hsplit, List.cons_append]
        · rw [walk?_cons, hchild]
          exact hfound
      · -- The path ends here. Nothing is below the new namespace, so all that is
        -- left is missing.
        have hsize := size_withNamespace t holder s
        obtain ⟨hwl', hwords, hwalk, found, missing, m, hsplit, hfound, -,
            hchain⟩ :=
          ih hwl₁ (by rw [hsize]; exact Nat.lt_succ_self _) hrest
        have hempty : (t.withNamespace holder s).children t.nextId = [] := by
          rw [children, get?_nextId_withNamespace hholder]
          rfl
        obtain rfl : found = [] := by
          cases found with
          | nil => rfl
          | cons x xs =>
              rw [walk?_cons, child?, hempty] at hfound
              cases hfound
        obtain rfl := Option.some.inj hfound
        rw [List.nil_append] at hsplit
        subst hsplit
        refine ⟨hwl', List.forall_mem_cons.mpr ⟨hs, hwords⟩, ?_, [], s :: rest,
          holder, rfl, rfl, ?_, hchain.cons hholder⟩
        · rw [walk?_cons,
            hchain.child?_eq_some hwl₁ (child?_withNamespace hwl hholder hnone)]
          exact hwalk
        · intro x hx
          obtain rfl := Option.some.inj hx
          exact hnone

/-- A call succeeds exactly when there is a name, the start is a namespace, and
    the segments can be entered one after another. -/
theorem run_addNamespace_eq_ok_iff :
    (addNamespace p name).run t = .ok n t' ↔
      name ≠ "" ∧ t.kind? p = some .namespaceDecl
      ∧ ((Dotted.split (t.relativePath p name)).foldlM enterNamespace p).run t
        = .ok n t' := by
  by_cases hname : name = ""
  · subst hname
    have hempty : "".isEmpty = true := rfl
    rw [addNamespace, if_pos hempty]
    refine iff_of_false (fun h => ?_) fun h => h.1 rfl
    cases h
  · rw [addNamespace, if_neg (by simpa using hname), kind?_eq_some_iff]
    show (inspect (fun t => t.expectKind p .namespaceDecl "parent") >>=
        fun _ => get >>= fun t =>
      (Dotted.split (t.relativePath p name)).foldlM enterNamespace p).run t = _ ↔ _
    simp only [run_bind_eq_ok_iff, run_inspect_eq_ok_iff, run_get_bind, expectKind]
    constructor
    · rintro ⟨e, t₁, ⟨hkind, rfl⟩, hrun⟩
      cases he : t.get? p with
      | none => simp [he] at hkind
      | some e' =>
          simp only [he] at hkind
          split_ifs at hkind with hk
          exact ⟨hname, ⟨e', rfl, hk⟩, hrun⟩
    · rintro ⟨-, ⟨e, he, hk⟩, hrun⟩
      exact ⟨e, t, ⟨by simp [he, hk], rfl⟩, hrun⟩

/-- What is made under a path is found under it, and nothing is made twice: the
    segments of the namespace are those of where the path starts and those of
    the path taken relative to it, the path was followed as far as it led, and
    only what was missing is new. Where the dotted names of namespaces tell them
    apart, an attached namespace is found under its dotted name from the root,
    and making that gives the namespace. -/
theorem run_addNamespace_exact (hwf : WellFormed t) :
    (∀ p name n t', (addNamespace p name).run t = .ok n t' →
        t'.namespaceSegments n
          = t.namespaceSegments p ++ Dotted.split (t.relativePath p name)
          ∧ (∃ found missing m, Dotted.split (t.relativePath p name)
            = found ++ missing
              ∧ t.walk? p found = some m
              ∧ (∀ s ∈ missing.head?, t.child? m s .namespaceDecl = none)
              ∧ Chained t m missing n t')
          ∧ t'.findChild? p name .namespaceDecl = .ok (some n)
            ∧ (addNamespace p name).run t' = .ok n t')
      ∧ (NamespacesApart t → ∀ n, Attached t n → n ≠ t.root →
        t.kind? n = some .namespaceDecl →
          t.findChild? t.root (t.qualifiedName n) .namespaceDecl = .ok (some n)
            ∧ (addNamespace t.root (t.qualifiedName n)).run t = .ok n t) := by
  have hwl := hwf.toWellLinked
  constructor
  · intro p name n t' h
    obtain ⟨hname, hkind, hrun⟩ := run_addNamespace_eq_ok_iff.mp h
    obtain ⟨e, he, -⟩ := kind?_eq_some_iff.mp hkind
    obtain ⟨hwl', hwords, hwalk, found, missing, m, hsplit, hfound, hstop,
        hchain⟩ :=
      run_enterNamespaces hwl (index_lt_of_get? he) hrun
    have hsame : SameAbove t t' p := hchain.sameAbove hwl (index_lt_of_get? he)
    have hkind' : t'.kind? p = some .namespaceDecl :=
      (hsame p (Or.inl rfl)).2.2.trans hkind
    obtain ⟨e', he', -⟩ := kind?_eq_some_iff.mp hkind'
    have hsegments :=
      namespaceSegments_eq_of_sameAbove hwl hwl' hchain.root_eq hsame
    have hrelative : t'.relativePath p name = t.relativePath p name := by
      rw [relativePath, relativePath, qualifiedName_of_kind? hkind,
        qualifiedName_of_kind? hkind', hsegments]
    refine ⟨?_, ⟨found, missing, m, hsplit, hfound, hstop, hchain⟩, ?_, ?_⟩
    · rw [hwl'.namespaceSegments_of_walk? hwalk, hsegments]
    · exact findChild?_of_walk? he' hname (hrelative ▸ hwalk)
    · refine run_addNamespace_eq_ok_iff.mpr ⟨hname, hkind', ?_⟩
      rw [hrelative]
      exact run_enterNamespaces_of_walk? hwords hwalk
  · intro hapart n hn hne hkind
    have hspelled := spelledOut_of_attached hwf hapart hn hkind
    have hsplit : Dotted.split (t.relativePath t.root (t.qualifiedName n))
        = t.namespaceSegments n := by
      rw [hwl.relativePath_root, hspelled.split_qualifiedName hne hkind]
    have hname : t.qualifiedName n ≠ "" := by
      intro hempty
      rw [hwl.relativePath_root, hempty] at hsplit
      exact (hspelled.words "" (hsplit ▸ List.mem_singleton_self "")).1 rfl
    obtain ⟨e, he, -⟩ := hwl.exists_root
    refine ⟨findChild?_of_walk? he hname (hsplit ▸ hspelled.walk?_eq), ?_⟩
    refine run_addNamespace_eq_ok_iff.mpr ⟨hname, hwl.kind?_root, ?_⟩
    rw [hsplit]
    exact run_enterNamespaces_of_walk? (fun s hs => (hspelled.words s hs).1)
      hspelled.walk?_eq

/-- A tree with a namespace in which a namespace holds one that repeats the name
    of the first. -/
def shopInOrders : Tree :=
  Operation.runAll [.addNamespace ⟨0⟩ "shop.orders",
    .addNamespace ⟨2⟩ "shop"] initial

theorem wellFormed_shopInOrders : WellFormed shopInOrders :=
  (Operation.fullyNamed_runAll _ fullyNamed_initial).wellFormed

theorem namespacesApart_shopInOrders : NamespacesApart shopInOrders where
  undotted n name hn _ hname := by
    have hall : ∀ i < shopInOrders.size, ∀ name ∈ shopInOrders.name? ⟨i⟩,
        ¬ Dotted.HasDot name := by
      decide +kernel
    exact hall n.index
      (wellFormed_shopInOrders.toWellLinked.index_lt_of_attached hn) name hname
  apart p c c' hp hc hc' hname := by
    have hall : ∀ i < shopInOrders.size,
      ∀ c ∈ shopInOrders.childrenOfKind ⟨i⟩ .namespaceDecl,
        ∀ c' ∈ shopInOrders.childrenOfKind ⟨i⟩ .namespaceDecl,
        shopInOrders.name? c = shopInOrders.name? c' → c = c' := by decide +kernel
    exact hall p.index
      (wellFormed_shopInOrders.toWellLinked.index_lt_of_attached hp) c hc
      c' hc' hname

/-- A path that repeats the name of where it starts is taken relative to it: its
    first segment is there, and the other two are made. The namespace that
    repeats the name of an outer one is told apart from it. -/
theorem run_addNamespace_exact_shopInOrders :
    (∃ t', (addNamespace ⟨1⟩ "shop.orders.items.old").run shopInOrders = .ok ⟨5⟩ t'
        ∧ t'.namespaceSegments ⟨5⟩ = ["shop", "orders", "items", "old"]
        ∧ t'.size = 6 ∧ t'.children ⟨2⟩ = [⟨3⟩, ⟨4⟩] ∧ t'.children ⟨4⟩ = [⟨5⟩]
        ∧ t'.findChild? ⟨1⟩ "shop.orders.items.old" .namespaceDecl = .ok (some ⟨5⟩)
        ∧ (addNamespace ⟨1⟩ "shop.orders.items.old").run t' = .ok ⟨5⟩ t')
      ∧ shopInOrders.qualifiedName ⟨3⟩ = "shop.orders.shop"
      ∧ shopInOrders.findChild? ⟨0⟩ "shop.orders.shop" .namespaceDecl
        = .ok (some ⟨3⟩)
      ∧ (addNamespace ⟨0⟩ "shop.orders.shop").run shopInOrders
        = .ok ⟨3⟩ shopInOrders := by
  obtain ⟨hmade, hfound⟩ := run_addNamespace_exact wellFormed_shopInOrders
  constructor
  · have hok :
        (match (addNamespace ⟨1⟩ "shop.orders.items.old").run shopInOrders with
        | .ok n t' =>
            decide (n = ⟨5⟩ ∧ t'.size = 6 ∧ t'.children ⟨2⟩ = [⟨3⟩, ⟨4⟩]
              ∧ t'.children ⟨4⟩ = [⟨5⟩])
        | .error _ _ => false) = true := by decide +kernel
    cases hrun : (addNamespace ⟨1⟩ "shop.orders.items.old").run shopInOrders with
    | error err t' =>
        rw [hrun] at hok
        exact absurd hok Bool.false_ne_true
    | ok n t' =>
        rw [hrun] at hok
        obtain ⟨rfl, hsize, horders, hitems⟩ := of_decide_eq_true hok
        obtain ⟨hsegments, -, hsearch, hagain⟩ := hmade _ _ _ _ hrun
        have hfull : shopInOrders.namespaceSegments ⟨1⟩
            ++ Dotted.split (shopInOrders.relativePath ⟨1⟩ "shop.orders.items.old")
              = ["shop", "orders", "items", "old"] := by decide +kernel
        exact ⟨t', rfl, hsegments.trans hfull, hsize, horders, hitems,
          hsearch, hagain⟩
  · have hname : shopInOrders.qualifiedName ⟨3⟩ = "shop.orders.shop" := by
      decide +kernel
    have hattached : Attached shopInOrders ⟨3⟩ :=
      wellFormed_shopInOrders.toWellLinked.isAttached_iff.mp (by decide +kernel)
    have hthree := hfound namespacesApart_shopInOrders ⟨3⟩ hattached
      (by decide +kernel) (by decide +kernel)
    have hroot : shopInOrders.root = ⟨0⟩ := by decide +kernel
    rw [hname, hroot] at hthree
    exact ⟨hname, hthree⟩

end Edit

end CodeModel
