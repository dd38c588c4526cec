import CodeModel.Proofs.Elementwise
import Mathlib.Tactic.SplitIfs

/-!
# Links under the operations

Making an element, putting a batch of elements into a slot and taking an element
out of its holder: each keeps a tree well linked, and each is described by what
it does to holders, children and what is above an element.

Main statements: `WellLinked.push`, `WellLinked.attach` and `WellLinked.detach`,
and `insertable_of_insert`, by which a batch that a tree accepts is fit to be
attached.
-/

namespace CodeModel

/-- Only one slot takes indexers. -/
theorem Slot.eq_indexer_of_memberKind {slot : Slot}
    (h : slot.memberKind = .indexer) : slot = .indexer := by
  cases slot <;> first | rfl | cases h

namespace Tree

variable {t t' : Tree}

/-! ## Ancestors -/

/-- Beyond the arena there is nothing. -/
theorem get?_eq_none_of_size_le {id : ElementId} (h : t.size ≤ id.index) :
    t.get? id = none := by
  have hiff := get?_isSome_iff t id
  cases hg : t.get? id with
  | none => rfl
  | some e =>
      rw [hg] at hiff
      have := hiff.mp rfl
      omega

@[simp]
theorem get?_nextId (t : Tree) : t.get? t.nextId = none :=
  get?_eq_none_of_size_le (Nat.le_refl t.size)

/-- What is there is within the arena. -/
theorem index_lt_of_get? {id : ElementId} {e : Element} (h : t.get? id = some e) :
    id.index < t.size :=
  (get?_isSome_iff t id).mp (by rw [h]; rfl)

/-- A tree is its root and its elements. -/
theorem eq_of_get?_eq (hroot : t'.root = t.root)
    (h : ∀ id, t'.get? id = t.get? id) : t' = t := by
  obtain ⟨elements, root⟩ := t
  obtain ⟨elements', root'⟩ := t'
  obtain rfl : root' = root := hroot
  have helements : elements' = elements := Array.ext_getElem? fun i => h ⟨i⟩
  rw [helements]

/-- Modifying an element into itself changes nothing. -/
theorem modify_self (t : Tree) (id : ElementId) : (t.modify id fun e => e) = t := by
  refine eq_of_get?_eq rfl fun x => ?_
  rw [get?_modify]
  by_cases hx : x = id
  · rw [if_pos hx, Option.map_id_fun']
    rfl
  · rw [if_neg hx]

theorem parent?_eq_some_iff {id p : ElementId} :
    t.parent? id = some p ↔ ∃ e, t.get? id = some e ∧ e.parent = some p :=
  Option.bind_eq_some_iff

theorem kind?_eq_some_iff {id : ElementId} {k : NodeKind} :
    t.kind? id = some k ↔ ∃ e, t.get? id = some e ∧ e.kind = k :=
  Option.map_eq_some_iff

theorem isSome_of_kind? {id : ElementId} {k : NodeKind} (h : t.kind? id = some k) :
    (t.get? id).isSome := by
  obtain ⟨e, he, -⟩ := kind?_eq_some_iff.mp h
  exact Option.isSome_of_eq_some he

theorem mem_children_iff_exists {p c : ElementId} :
    c ∈ t.children p ↔ ∃ e, t.get? p = some e ∧ c ∈ e.children := by
  rw [children]
  cases t.get? p <;> simp

/-- A member of a name is a child that bears it. -/
theorem hasMember_eq_true_iff {holder : ElementId} {name : String} :
    t.hasMember holder name = true ↔
      ∃ c ∈ t.children holder, t.name? c = some name := by
  rw [hasMember, List.any_eq_true]
  exact exists_congr fun c => and_congr_right fun _ => decide_eq_true_iff

/-- No member of a name is no child that bears it. -/
theorem hasMember_eq_false_iff {holder : ElementId} {name : String} :
    t.hasMember holder name = false ↔
      ∀ c ∈ t.children holder, t.name? c ≠ some name := by
  rw [Bool.eq_false_iff, ne_eq, hasMember_eq_true_iff]
  exact ⟨fun h c hc hname => h ⟨c, hc, hname⟩, fun h ⟨c, hc, hname⟩ => h c hc hname⟩

/-- What has something above it has a holder. -/
theorem Ancestor.exists_parent? {a id : ElementId} (h : Ancestor t a id) :
    ∃ p, t.parent? id = some p := by
  cases h with
  | parent hp => exact ⟨a, hp⟩
  | above hp _ => exact ⟨_, hp⟩

/-- What has something above it is an element. -/
theorem Ancestor.isSome_get? {a id : ElementId} (h : Ancestor t a id) :
    (t.get? id).isSome := by
  obtain ⟨p, hp⟩ := h.exists_parent?
  obtain ⟨e, he, -⟩ := parent?_eq_some_iff.mp hp
  rw [he]
  rfl

/-- What is within an element is an element. -/
theorem isSome_of_within {a id : ElementId} (ha : (t.get? a).isSome)
    (h : Within t a id) : (t.get? id).isSome := by
  rcases h with rfl | h
  · exact ha
  · exact h.isSome_get?

/-- An element above another is its holder or above its holder. -/
theorem Ancestor.within_of_parent? {a id p : ElementId} (h : Ancestor t a id)
    (hp : t.parent? id = some p) : Within t a p := by
  cases h with
  | parent h =>
      rw [hp] at h
      exact Or.inl (Option.some.inj h)
  | above h ha =>
      rw [hp] at h
      exact Or.inr (Option.some.inj h ▸ ha)

/-- Being within is transitive. -/
theorem Within.trans {a b c : ElementId} (h : Within t a b) (h' : Within t b c) :
    Within t a c := by
  rcases h' with rfl | h'
  · exact h
  · rcases h with rfl | h
    · exact Or.inr h'
    · exact Or.inr (h.trans h')

/-- What something within holds is within. -/
theorem Within.of_parent? {a p c : ElementId} (h : Within t a p)
    (hp : t.parent? c = some p) : Within t a c :=
  h.trans (Or.inr (.parent hp))

theorem ancestor_of_within_of_parent? {a p c : ElementId} (h : Within t a p)
    (hp : t.parent? c = some p) : Ancestor t a c := by
  rcases h with rfl | h
  · exact .parent hp
  · exact .above hp h

/-- Classes are told by their kind. -/
theorem isSome_class?_iff {id : ElementId} :
    (t.class? id).isSome ↔ t.kind? id = some .classDecl := by
  rw [class?, kind?]
  cases t.get? id with
  | none => simp
  | some e =>
      obtain ⟨name, parent, children, description, content⟩ := e
      cases content <;> simp [Element.class?, Element.kind, Content.kind]

namespace WellLinked

/-- The check on ancestors and its meaning agree, since in a linked tree no way
    upwards is longer than the arena. -/
theorem isWithin_iff (hwl : WellLinked t) {scope id : ElementId} :
    t.isWithin scope id = true ↔ Within t scope id := by
  rw [isWithin, Within, Bool.or_eq_true, hwl.isAncestor_iff, beq_iff_eq]

/-- The check on attachment and its meaning agree. -/
theorem isAttached_iff (hwl : WellLinked t) {id : ElementId} :
    t.isAttached id = true ↔ Attached t id :=
  hwl.isWithin_iff

/-- The root is there, a namespace. -/
theorem exists_root (hwl : WellLinked t) :
    ∃ e, t.get? t.root = some e ∧ e.kind = .namespaceDecl :=
  kind?_eq_some_iff.mp hwl.kind?_root

theorem isSome_get?_root (hwl : WellLinked t) : (t.get? t.root).isSome :=
  isSome_of_kind? hwl.kind?_root

/-- A class is not the root. -/
theorem ne_root_of_class (hwl : WellLinked t) {id : ElementId}
    (h : (t.class? id).isSome) : id ≠ t.root := by
  rintro rfl
  have hkind := isSome_class?_iff.mp h
  rw [hwl.kind?_root] at hkind
  cases hkind

/-- Nothing is above the root. -/
theorem not_ancestor_root (hwl : WellLinked t) {a : ElementId} :
    ¬ Ancestor t a t.root := by
  intro h
  obtain ⟨p, hp⟩ := h.exists_parent?
  rw [hwl.parent?_root] at hp
  cases hp

/-- What is attached is within the arena. -/
theorem index_lt_of_attached (hwl : WellLinked t) {id : ElementId}
    (h : Attached t id) : id.index < t.size := by
  obtain ⟨e, he, -⟩ := hwl.exists_root
  exact (get?_isSome_iff t id).mp (isSome_of_within (by rw [he]; rfl) h)

/-- What an element holds is in the arena. -/
theorem exists_of_mem_children (hwl : WellLinked t) {p c : ElementId}
    (h : c ∈ t.children p) : ∃ e, t.get? c = some e ∧ e.parent = some p :=
  parent?_eq_some_iff.mp ((hwl.mem_children_iff p c).mp h)

/-- What is held is within the arena. -/
theorem index_lt_of_mem_children (hwl : WellLinked t) {p c : ElementId}
    (h : c ∈ t.children p) : c.index < t.size := by
  obtain ⟨e, he, -⟩ := hwl.exists_of_mem_children h
  exact index_lt_of_get? he

/-- What holds something is an element of some kind. -/
theorem exists_kind?_of_parent? (hwl : WellLinked t) {p c : ElementId}
    (hp : t.parent? c = some p) : ∃ k, t.kind? p = some k := by
  obtain ⟨e, he⟩ := Option.isSome_iff_exists.mp
    ((get?_isSome_iff t p).mpr (hwl.index_lt_of_parent? hp))
  exact ⟨e.kind, kind?_eq_some_iff.mpr ⟨e, he, rfl⟩⟩

/-- Only namespaces hold namespaces. -/
theorem kind?_of_holds_namespace (hwl : WellLinked t) {p c : ElementId}
    (hp : t.parent? c = some p) (hkind : t.kind? c = some .namespaceDecl) :
    t.kind? p = some .namespaceDecl := by
  obtain ⟨k, hk⟩ := hwl.exists_kind?_of_parent? hp
  have hmay :=
    hwl.mayHold_of_mem p c _ _ ((hwl.mem_children_iff p c).mpr hp) hk hkind
  obtain rfl : k = .namespaceDecl := by
    revert hmay
    cases k <;> decide
  exact hk

end WellLinked

/-! ## Making an element -/

section push

variable {e : Element}

/-- A new element does not change who holds what. -/
theorem parent?_push (hparent : e.parent = none) (id : ElementId) :
    (t.push e).parent? id = t.parent? id := by
  rw [parent?, parent?, get?_push]
  by_cases h : id = t.nextId
  · rw [if_pos h, h, get?_nextId]
    exact hparent
  · rw [if_neg h]

theorem children_push (hchildren : e.children = []) (id : ElementId) :
    (t.push e).children id = t.children id := by
  rw [children, children, get?_push]
  by_cases h : id = t.nextId
  · rw [if_pos h, h, get?_nextId]
    exact hchildren
  · rw [if_neg h]

/-- What was there is still there. -/
theorem get?_push_of_get? {id : ElementId} {e' : Element}
    (h : t.get? id = some e') : (t.push e).get? id = some e' := by
  rw [get?_push, if_neg ?_, h]
  rintro rfl
  rw [get?_nextId] at h
  cases h

theorem get?_push_nextId : (t.push e).get? t.nextId = some e := by
  rw [get?_push, if_pos rfl]

theorem kind?_push_of_kind? {id : ElementId} {k : NodeKind}
    (h : t.kind? id = some k) : (t.push e).kind? id = some k := by
  obtain ⟨e', he', hk⟩ := kind?_eq_some_iff.mp h
  exact kind?_eq_some_iff.mpr ⟨e', get?_push_of_get? he', hk⟩

/-- A new element is above nothing and has nothing above it. -/
theorem ancestor_push_iff (hparent : e.parent = none) {a id : ElementId} :
    Ancestor (t.push e) a id ↔ Ancestor t a id := by
  constructor
  · intro h
    induction h with
    | parent hp => exact .parent (parent?_push hparent _ ▸ hp)
    | above hp _ ih => exact .above (parent?_push hparent _ ▸ hp) ih
  · intro h
    induction h with
    | parent hp => exact .parent ((parent?_push hparent _).trans hp)
    | above hp _ ih => exact .above ((parent?_push hparent _).trans hp) ih

theorem within_push_iff (hparent : e.parent = none) {scope id : ElementId} :
    Within (t.push e) scope id ↔ Within t scope id := by
  rw [Within, Within, ancestor_push_iff hparent]

/-- By kind elements hold what they held. -/
theorem WellLinked.childrenOfKind_push (hwl : WellLinked t)
    (hchildren : e.children = []) (id : ElementId) (kind : NodeKind) :
    (t.push e).childrenOfKind id kind = t.childrenOfKind id kind := by
  rw [childrenOfKind, childrenOfKind, children_push hchildren]
  refine List.filter_congr fun c hc => ?_
  obtain ⟨ec, hec, -⟩ := hwl.exists_of_mem_children hc
  rw [kind?, kind?, get?_push_of_get? hec, hec]

/-- A detached element may join the arena. -/
theorem WellLinked.push (hwl : WellLinked t) (hparent : e.parent = none)
    (hchildren : e.children = []) (htoken : e.TokenFits) :
    WellLinked (t.push e) where
  kind?_root := kind?_push_of_kind? hwl.kind?_root
  parent?_root := by
    rw [parent?_push hparent]
    exact hwl.parent?_root
  mem_children_iff p c := by
    rw [children_push hchildren, parent?_push hparent]
    exact hwl.mem_children_iff p c
  nodup_children p := by
    rw [children_push hchildren]
    exact hwl.nodup_children p
  acyclic id h := hwl.acyclic id ((ancestor_push_iff hparent).mp h)
  mayHold_of_mem p c k m hc hp hm := by
    rw [children_push hchildren] at hc
    obtain ⟨ep, hep, -⟩ := mem_children_iff_exists.mp hc
    obtain ⟨ec, hec, -⟩ := hwl.exists_of_mem_children hc
    refine hwl.mayHold_of_mem p c k m hc ?_ ?_
    · rw [kind?, get?_push_of_get? hep] at hp
      rw [kind?, hep]
      exact hp
    · rw [kind?, get?_push_of_get? hec] at hm
      rw [kind?, hec]
      exact hm
  length_indexers id := by
    rw [hwl.childrenOfKind_push hchildren]
    exact hwl.length_indexers id
  token_eq_name id e' c he' hc := by
    rw [get?_push] at he'
    by_cases h : id = t.nextId
    · rw [if_pos h] at he'
      exact htoken c (Option.some.inj he' ▸ hc) |>.trans
        (by rw [Option.some.inj he'])
    · rw [if_neg h] at he'
      exact hwl.token_eq_name id e' c he' hc

end push

/-! ## Joining a slot -/

section insert

variable {slot : Slot} {holder : ElementId} {ids : List ElementId}

/-- What a batch of elements has to be to go into a slot of a holder. The holder
    has the slot and the elements are of the kind that it takes; none of them is
    the root, held already, above the holder or listed twice; a class gets one
    indexer if it has none; and no element collides with one that the holder has
    or one before it. -/
structure Insertable (t : Tree) (slot : Slot) (holder : ElementId)
    (ids : List ElementId) : Prop where
  holder_kind : t.kind? holder = some slot.holderKind
  member_kind : ∀ c ∈ ids, t.kind? c = some slot.memberKind
  ne_root : ∀ c ∈ ids, c ≠ t.root
  free : ∀ c ∈ ids, t.parent? c = none
  not_within : ∀ c ∈ ids, ¬ Within t c holder
  nodup : ids.Nodup
  one_indexer : slot = .indexer → t.childrenOfKind holder .indexer = []
    ∧ ids.length ≤ 1
  apart_children : ∀ c ∈ ids, ∀ x ∈ t.children holder, t.collides x c = false
  apart_members : ids.Pairwise fun x c => t.collides x c = false

/-- The check of one member passes exactly when the member meets every condition
    of the slot. -/
theorem checkMember_eq_ok_iff {holderName : String} {earlier : List ElementId}
    {child : ElementId} :
    t.checkMember slot holder holderName earlier child = .ok () ↔
      ∃ e, t.get? child = some e ∧ e.kind = slot.memberKind ∧ child ≠ t.root
        ∧ e.parent = none
        ∧ child ≠ holder ∧ t.isAncestor child holder = false ∧ child ∉ earlier
        ∧ (e.kind = .indexer → t.indexer? holder = none
          ∧ ∀ c ∈ earlier, t.kind? c ≠ some .indexer)
        ∧ ∀ c ∈ t.children holder ++ earlier, t.collides c child = false := by
  rw [checkMember]
  cases hg : t.get? child with
  | none => simp
  | some e =>
      constructor
      · intro h
        dsimp only at h
        split_ifs at h with hkind hheld hbelow htwice hindexer htaken
        refine ⟨e, rfl, by simpa using hkind, fun hr => hheld (Or.inl hr), ?_,
          fun hh => hbelow (Or.inl hh), ?_, htwice, fun hk => ?_, fun c hc => ?_⟩
        · cases hp : e.parent with
          | none => rfl
          | some p => exact absurd (Or.inr (by rw [hp]; rfl)) hheld
        · cases ha : t.isAncestor child holder with
          | false => rfl
          | true => exact absurd (Or.inr ha) hbelow
        · simp only [not_and, not_or] at hindexer
          obtain ⟨h₁, h₂⟩ := hindexer hk
          refine ⟨by simpa using h₁, by simpa using h₂⟩
        · cases hcol : t.collides c child with
          | false => rfl
          | true => exact absurd (List.any_eq_true.mpr ⟨c, hc, hcol⟩) htaken
      · rintro ⟨e', heq, hkind, hroot, hfree, hne, habove, htwice,
          hindexer, happart⟩
        obtain rfl := Option.some.inj heq
        dsimp only
        rw [if_neg (by simpa using hkind), if_neg (by simp [hroot, hfree]),
          if_neg (by simp [hne, habove]), if_neg htwice, if_neg ?_, if_neg ?_]
        · intro h
          obtain ⟨c, hc, hcol⟩ := List.any_eq_true.mp h
          rw [happart c hc] at hcol
          cases hcol
        · rintro ⟨hk, h | h⟩
          · rw [(hindexer hk).1] at h
            cases h
          · obtain ⟨c, hc, hkc⟩ := List.any_eq_true.mp h
            exact (hindexer hk).2 c hc (of_decide_eq_true hkc)

/-- A batch passes when each of its elements passes after those before it. -/
theorem checkMembers_eq_ok_iff {holderName : String} {earlier : List ElementId} :
    t.checkMembers slot holder holderName earlier ids = .ok () ↔
      ∀ before c after, ids = before ++ c :: after →
        t.checkMember slot holder holderName (earlier ++ before) c = .ok () := by
  induction ids generalizing earlier with
  | nil => simp [checkMembers]
  | cons d rest ih =>
      rw [checkMembers]
      constructor
      · intro h before c after hsplit
        cases hd : t.checkMember slot holder holderName earlier d with
        | error e => simp [hd] at h
        | ok u =>
            simp only [hd] at h
            cases before with
            | nil =>
                obtain ⟨rfl, rfl⟩ := List.cons.inj hsplit
                rw [List.append_nil]
                exact hd
            | cons x before =>
                obtain ⟨rfl, hrest⟩ := List.cons.inj hsplit
                have hlater := ih.mp h before c after hrest
                rwa [List.append_assoc] at hlater
      · intro h
        have hd := h [] d rest rfl
        rw [List.append_nil] at hd
        rw [hd]
        refine ih.mpr fun before c after hsplit => ?_
        have hlater := h (d :: before) c after (by rw [hsplit]; rfl)
        rwa [List.append_assoc]

/-- A relation from whatever stands before an entry to the entry holds between
    all pairs. -/
theorem pairwise_of_append_cons {α : Type} {R : α → α → Prop} {l : List α}
    (h : ∀ before c after, l = before ++ c :: after → ∀ x ∈ before, R x c) :
    l.Pairwise R := by
  induction l with
  | nil => exact .nil
  | cons d rest ih =>
      refine .cons (fun c hc => ?_) (ih fun before c after hsplit x hx => ?_)
      · obtain ⟨before, after, hsplit⟩ := List.append_of_mem hc
        exact h (d :: before) c after (by rw [hsplit]; rfl) d List.mem_cons_self
      · exact h (d :: before) c after (by rw [hsplit]; rfl) x
          (List.mem_cons_of_mem _ hx)

/-- A batch that a tree accepts is fit to go into the slot, and the result is
    the tree with its links. -/
theorem insertable_of_insert (hwl : WellLinked t)
    (h : t.insert slot holder ids = .ok t') :
    Insertable t slot holder ids ∧ t' = t.attach holder ids := by
  obtain ⟨e, he, hkind, hne, hcheck, rfl⟩ :=
    (insert_eq_ok_iff t t' slot holder ids).mp h
  rw [checkMembers_eq_ok_iff] at hcheck
  -- What the check says of one member, whatever joined before it.
  have hmember : ∀ c ∈ ids, ∃ e, t.get? c = some e ∧ e.kind = slot.memberKind
      ∧ c ≠ t.root ∧ e.parent = none
      ∧ ¬ Within t c holder ∧ (∀ x ∈ t.children holder, t.collides x c = false)
      ∧ (e.kind = .indexer → t.indexer? holder = none) := by
    intro c hc
    obtain ⟨before, after, hsplit⟩ := List.append_of_mem hc
    obtain ⟨ec, hg, hk, hroot, hfree, hne, habove, -, hix, hap⟩ :=
      checkMember_eq_ok_iff.mp (hcheck before c after hsplit)
    refine ⟨ec, hg, hk, hroot, hfree, ?_, fun x hx => hap x (by simp [hx]),
      fun hi => (hix hi).1⟩
    rintro (h | h)
    · exact hne h.symm
    · rw [← hwl.isAncestor_iff, habove] at h
      cases h
  -- What it says of a member and one that comes before it in the batch.
  have hpairs : ids.Pairwise fun x c =>
      x ≠ c ∧ t.collides x c = false
        ∧ (t.kind? c = some .indexer → t.kind? x ≠ some .indexer) := by
    refine pairwise_of_append_cons fun before c after hsplit x hx => ?_
    obtain ⟨ec, hg, -, -, -, -, -, htwice, hix, hap⟩ :=
      checkMember_eq_ok_iff.mp (hcheck before c after hsplit)
    rw [List.nil_append] at htwice hix hap
    refine ⟨fun heq => htwice (heq ▸ hx), hap x (by simp [hx]),
      fun hk => (hix ?_).2 x hx⟩
    rw [kind?, hg] at hk
    exact Option.some.inj hk
  refine ⟨?_, rfl⟩
  exact
    { holder_kind := kind?_eq_some_iff.mpr ⟨e, he, hkind⟩
      member_kind := fun c hc => by
        obtain ⟨ec, hg, hk, -⟩ := hmember c hc
        exact kind?_eq_some_iff.mpr ⟨ec, hg, hk⟩
      ne_root := fun c hc => by
        obtain ⟨ec, -, -, hroot, -⟩ := hmember c hc
        exact hroot
      free := fun c hc => by
        obtain ⟨ec, hg, -, -, hfree, -⟩ := hmember c hc
        rw [parent?, hg]
        exact hfree
      not_within := fun c hc => by
        obtain ⟨ec, -, -, -, -, hnot, -⟩ := hmember c hc
        exact hnot
      nodup := hpairs.imp fun h => h.1
      one_indexer := fun hslot => by
        subst hslot
        cases ids with
        | nil => exact absurd rfl hne
        | cons c rest =>
            obtain ⟨ec, hg, hk, -, -, -, -, hix⟩ := hmember c List.mem_cons_self
            refine ⟨List.head?_eq_none_iff.mp (hix hk), ?_⟩
            cases rest with
            | nil => exact Nat.le_refl 1
            | cons d rest =>
                obtain ⟨ed, hgd, hkd, -⟩ := hmember d (by simp)
                obtain ⟨-, -, hone⟩ :=
                  List.rel_of_pairwise_cons hpairs List.mem_cons_self
                exact absurd (kind?_eq_some_iff.mpr ⟨ec, hg, hk⟩)
                  (hone (kind?_eq_some_iff.mpr ⟨ed, hgd, hkd⟩))
      apart_children := fun c hc => by
        obtain ⟨ec, -, -, -, -, -, hap, -⟩ := hmember c hc
        exact hap
      apart_members := hpairs.imp fun h => h.2.1 }

namespace Insertable

variable (h : Insertable t slot holder ids)

include h

/-- After joining, the holder of the batch is the new one, and all others have
    theirs. -/
theorem parent?_attach (id : ElementId) :
    (t.attach holder ids).parent? id = if id ∈ ids then some holder
      else t.parent? id := by
  rw [parent?, parent?, (changedBy_attach t holder ids).get?_eq]
  by_cases hid : id ∈ ids
  · obtain ⟨e, he, -⟩ := kind?_eq_some_iff.mp (h.member_kind id hid)
    simp [he, linkUp, hid]
  · cases t.get? id <;> simp [linkUp, hid]

/-- The batch comes last among the children of the holder. -/
theorem children_attach (id : ElementId) :
    (t.attach holder ids).children id =
      if id = holder then t.children holder ++ ids else t.children id := by
  unfold children
  rw [(changedBy_attach t holder ids).get?_eq]
  by_cases hid : id = holder
  · subst hid
    obtain ⟨e, he, -⟩ := kind?_eq_some_iff.mp h.holder_kind
    simp [he, linkUp]
  · cases t.get? id <;> simp [linkUp, hid]

/-- Joining takes nothing away from its holder. -/
theorem parent?_attach_of_parent? {id p : ElementId} (hp : t.parent? id = some p) :
    (t.attach holder ids).parent? id = some p := by
  rw [h.parent?_attach, if_neg, hp]
  intro hid
  rw [h.free id hid] at hp
  cases hp

theorem ancestor_attach_of_ancestor {a b : ElementId} (ha : Ancestor t a b) :
    Ancestor (t.attach holder ids) a b := by
  induction ha with
  | parent hp => exact .parent (h.parent?_attach_of_parent? hp)
  | above hp _ ih => exact .above (h.parent?_attach_of_parent? hp) ih

theorem within_attach_of_within {a b : ElementId} (ha : Within t a b) :
    Within (t.attach holder ids) a b :=
  ha.imp id h.ancestor_attach_of_ancestor

/-- What is above an element once a batch has joined a holder: what was, and for
    what lies at or below the batch the holder and what is above it. -/
theorem ancestor_attach_iff {a b : ElementId} :
    Ancestor (t.attach holder ids) a b ↔
      Ancestor t a b ∨ ∃ c ∈ ids, Within t c b ∧ Within t a holder := by
  constructor
  · intro ha
    -- The way up changes where it reaches the batch: from there on it is the way up
    -- from the holder.
    induction ha with
    | @parent b hp =>
        rw [h.parent?_attach] at hp
        by_cases hb : b ∈ ids
        · rw [if_pos hb] at hp
          exact Or.inr ⟨b, hb, Or.inl rfl, Or.inl (Option.some.inj hp)⟩
        · rw [if_neg hb] at hp
          exact Or.inl (.parent hp)
    | @above b p hp _ ih =>
        rw [h.parent?_attach] at hp
        by_cases hb : b ∈ ids
        · rw [if_pos hb] at hp
          obtain rfl := Option.some.inj hp
          refine Or.inr ⟨b, hb, Or.inl rfl, ?_⟩
          rcases ih with ha | ⟨c, hc, hwithin, -⟩
          · exact Or.inr ha
          · -- No member holds the holder, so the way up reaches the batch once.
            exact absurd hwithin (h.not_within c hc)
        · rw [if_neg hb] at hp
          rcases ih with ha | ⟨c, hc, hwithin, ha⟩
          · exact Or.inl (.above hp ha)
          · exact Or.inr ⟨c, hc, hwithin.of_parent? hp, ha⟩
  · rintro (ha | ⟨c, hc, hwithin, ha⟩)
    · exact h.ancestor_attach_of_ancestor ha
    · have hp : (t.attach holder ids).parent? c = some holder := by
        rw [h.parent?_attach, if_pos hc]
      have hac := ancestor_of_within_of_parent? (h.within_attach_of_within ha) hp
      rcases h.within_attach_of_within hwithin with rfl | hcb
      · exact hac
      · exact hac.trans hcb

/-- After joining, something is within what it was within, and what joined is
    within all that the holder is within. -/
theorem within_attach_iff {a b : ElementId} :
    Within (t.attach holder ids) a b ↔ Within t a b ∨ ∃ c ∈ ids, Within t c b
      ∧ Within t a holder := by
  rw [Within, h.ancestor_attach_iff, ← or_assoc]
  exact Iff.rfl

/-- What a batch joined is attached, if the holder is; nothing else changes. -/
theorem attached_attach_iff (hholder : Attached t holder) {b : ElementId} :
    Attached (t.attach holder ids) b ↔ Attached t b ∨ ∃ c ∈ ids, Within t c b := by
  rw [Attached, Attached, (changedBy_attach t holder ids).root_eq,
    h.within_attach_iff]
  have hdrop : (∃ c ∈ ids, Within t c b ∧ Within t t.root holder) ↔
      ∃ c ∈ ids, Within t c b :=
    exists_congr fun c => and_congr_right fun _ => and_iff_left hholder
  rw [hdrop]

end Insertable

end insert

/-! ## Other links, the same elements -/

/-- Tree `t'` differs from `t` in links only. -/
structure Relinked (t t' : Tree) : Prop where
  root_eq : t'.root = t.root
  detached_eq : ∀ id, (t'.get? id).map Element.detached
    = (t.get? id).map Element.detached

theorem relinked_attach (t : Tree) (holder : ElementId) (ids : List ElementId) :
    Relinked t (t.attach holder ids) := by
  refine ⟨(changedBy_attach t holder ids).root_eq, fun id => ?_⟩
  rw [(changedBy_attach t holder ids).get?_eq]
  cases t.get? id <;> rfl

theorem relinked_detach {holder child : ElementId}
    (hc : child ∈ t.children holder) : Relinked t (t.detach holder child).2 := by
  refine ⟨(changedBy_detach hc).root_eq, fun id => ?_⟩
  rw [(changedBy_detach hc).get?_eq]
  cases t.get? id <;> rfl

namespace Relinked

theorem trans {t'' : Tree} (h : Relinked t t') (h' : Relinked t' t'') :
    Relinked t t'' :=
  ⟨h'.root_eq.trans h.root_eq, fun id =>
    (h'.detached_eq id).trans (h.detached_eq id)⟩

/-- Every element has its name and its content. -/
theorem exists_get? (h : Relinked t t') {id : ElementId} {e' : Element}
    (he : t'.get? id = some e') :
    ∃ e, t.get? id = some e ∧ e'.name = e.name ∧ e'.content = e.content := by
  have hd := h.detached_eq id
  rw [he] at hd
  obtain ⟨e, hg, heq⟩ := Option.map_eq_some_iff.mp hd.symm
  have hname : e'.detached.name = e.detached.name := congrArg Element.name heq.symm
  have hcontent : e'.detached.content = e.detached.content :=
    congrArg Element.content heq.symm
  exact ⟨e, hg, hname, hcontent⟩

/-- Links do not change kinds. -/
theorem kind?_eq (h : Relinked t t') (id : ElementId) :
    t'.kind? id = t.kind? id := by
  have hread : ∀ s : Tree, s.kind? id = ((s.get? id).map Element.detached).map
      Element.kind := by
    intro s
    rw [kind?]
    cases s.get? id <;> rfl
  rw [hread, hread, h.detached_eq]

theorem name?_eq (h : Relinked t t') (id : ElementId) :
    t'.name? id = t.name? id := by
  have hread : ∀ s : Tree, s.name? id = ((s.get? id).map Element.detached).map
      (·.name) := by
    intro s
    rw [name?]
    cases s.get? id <;> rfl
  rw [hread, hread, h.detached_eq]

theorem size_eq (h : Relinked t t') : t'.size = t.size := by
  refine size_eq_of_isSome_get? fun id => ?_
  rw [← Option.isSome_map (f := Element.detached), h.detached_eq, Option.isSome_map]

theorem tokenFits (h : Relinked t t') (hwl : WellLinked t) {id : ElementId}
    {e' : Element} (he' : t'.get? id = some e') : e'.TokenFits := by
  obtain ⟨e, he, hname, hcontent⟩ := h.exists_get? he'
  intro c hc
  rw [Element.class?, hcontent] at hc
  rw [hname]
  exact hwl.token_eq_name id e c he hc

end Relinked

/-! ## Joining a slot, well linked -/

/-- A holder may hold what its slots take. -/
theorem mayHold_slot (slot : Slot) :
    slot.holderKind.mayHold slot.memberKind = true := by
  cases slot <;> rfl

/-- After joining, the batch is last by kind, too. -/
theorem Insertable.childrenOfKind_attach {slot : Slot} {holder : ElementId}
    {ids : List ElementId} (h : Insertable t slot holder ids) (id : ElementId)
    (kind : NodeKind) :
    (t.attach holder ids).childrenOfKind id kind =
      if id = holder
        then t.childrenOfKind holder kind ++ ids.filter (t.kind? · = some kind)
      else t.childrenOfKind id kind := by
  rw [childrenOfKind, childrenOfKind, h.children_attach,
    funext (relinked_attach t holder ids).kind?_eq]
  by_cases hid : id = holder
  · rw [if_pos hid, if_pos hid, List.filter_append]
  · rw [if_neg hid, if_neg hid]
    rfl

/-- Elements of other kinds may join a holder. -/
theorem Insertable.childrenOfKind_attach_of_ne {slot : Slot} {holder : ElementId}
    {ids : List ElementId} {kind : NodeKind} (h : Insertable t slot holder ids)
    (hkind : slot.memberKind ≠ kind) (id : ElementId) :
    (t.attach holder ids).childrenOfKind id kind = t.childrenOfKind id kind := by
  have hnone : ids.filter (t.kind? · = some kind) = [] := by
    refine List.filter_eq_nil_iff.mpr fun c hc => ?_
    rw [h.member_kind c hc]
    simpa using hkind
  rw [h.childrenOfKind_attach, hnone, List.append_nil]
  by_cases hid : id = holder
  · rw [if_pos hid, hid]
  · rw [if_neg hid]

/-- A batch that fits a slot may join it. -/
theorem WellLinked.attach {slot : Slot} {holder : ElementId} {ids : List ElementId}
    (hwl : WellLinked t) (h : Insertable t slot holder ids) :
    WellLinked (t.attach holder ids) := by
  have hsame := relinked_attach t holder ids
  exact
    { kind?_root := by
        rw [hsame.root_eq, hsame.kind?_eq]
        exact hwl.kind?_root
      parent?_root := by
        rw [hsame.root_eq, h.parent?_attach, if_neg fun hr => h.ne_root _ hr rfl]
        exact hwl.parent?_root
      mem_children_iff := fun p c => by
        rw [h.children_attach, h.parent?_attach]
        by_cases hp : p = holder <;> by_cases hc : c ∈ ids
        · simp [hp, hc]
        · simp [hp, hc, hwl.mem_children_iff]
        · have hne : holder ≠ p := fun heq => hp heq.symm
          simp [hp, hc, hwl.mem_children_iff, h.free c hc, hne]
        · simp [hp, hc, hwl.mem_children_iff]
      nodup_children := fun p => by
        rw [h.children_attach]
        by_cases hp : p = holder
        · rw [if_pos hp]
          refine List.nodup_append.mpr ⟨hwl.nodup_children holder, h.nodup,
            fun x hx c hc heq => ?_⟩
          rw [heq, hwl.mem_children_iff, h.free c hc] at hx
          cases hx
        · rw [if_neg hp]
          exact hwl.nodup_children p
      acyclic := fun x hx => by
        rcases h.ancestor_attach_iff.mp hx with hx | ⟨c, hc, hcx, hxh⟩
        · exact hwl.acyclic x hx
        · exact h.not_within c hc (hcx.trans hxh)
      mayHold_of_mem := fun p c k m hmem hk hm => by
        rw [h.children_attach] at hmem
        rw [hsame.kind?_eq] at hk hm
        by_cases hp : p = holder
        · rw [if_pos hp, List.mem_append] at hmem
          rcases hmem with hmem | hmem
          · exact hwl.mayHold_of_mem holder c k m hmem (hp ▸ hk) hm
          · rw [hp, h.holder_kind] at hk
            rw [h.member_kind c hmem] at hm
            rw [← Option.some.inj hk, ← Option.some.inj hm]
            exact mayHold_slot slot
        · rw [if_neg hp] at hmem
          exact hwl.mayHold_of_mem p c k m hmem hk hm
      length_indexers := fun p => by
        by_cases hslot : slot = .indexer
        · obtain ⟨hnone, hone⟩ := h.one_indexer hslot
          rw [h.childrenOfKind_attach]
          by_cases hp : p = holder
          · have hle := List.length_filter_le
              (fun c => decide (t.kind? c = some .indexer)) ids
            rw [if_pos hp, hnone, List.nil_append]
            omega
          · rw [if_neg hp]
            exact hwl.length_indexers p
        · rw [h.childrenOfKind_attach_of_ne (fun hkind => hslot ?_)]
          · exact hwl.length_indexers p
          · cases slot <;> first | rfl | cases hkind
      token_eq_name := fun _ _ c he hc => hsame.tokenFits hwl he c hc }

/-! ## Leaving a holder -/

section detach

variable {holder child : ElementId}

/-- What is taken out has no holder. -/
theorem parent?_detach (hc : child ∈ t.children holder) (id : ElementId) :
    (t.detach holder child).2.parent? id = if id = child
      then none else t.parent? id := by
  rw [parent?, parent?, (changedBy_detach hc).get?_eq]
  by_cases hid : id = child
  · cases t.get? id <;> simp [unlink, hid]
  · cases t.get? id <;> simp [unlink, hid]

theorem children_detach (hc : child ∈ t.children holder) (id : ElementId) :
    (t.detach holder child).2.children id =
      if id = holder then (t.children holder).erase child else t.children id := by
  unfold children
  rw [(changedBy_detach hc).get?_eq]
  by_cases hid : id = holder
  · subst hid
    cases t.get? id <;> simp [unlink]
  · cases t.get? id <;> simp [unlink, hid]

/-- Taking something out puts nothing above anything. -/
theorem ancestor_of_ancestor_detach (hc : child ∈ t.children holder)
    {a b : ElementId} (ha : Ancestor (t.detach holder child).2 a b) :
    Ancestor t a b := by
  have hold : ∀ {x p}, (t.detach holder child).2.parent? x = some p →
      t.parent? x = some p := by
    intro x p hp
    rw [parent?_detach hc] at hp
    by_cases hx : x = child
    · rw [if_pos hx] at hp
      cases hp
    · rwa [if_neg hx] at hp
  induction ha with
  | parent hp => exact .parent (hold hp)
  | above hp _ ih => exact .above (hold hp) ih

/-- What was above an element and is no longer was above the child taken out,
    and the element lies at or below the child. -/
theorem ancestor_detach_of_ancestor (hc : child ∈ t.children holder)
    {a b : ElementId} (ha : Ancestor t a b) :
    Ancestor (t.detach holder child).2 a b
      ∨ Within (t.detach holder child).2 child b ∧ Ancestor t a child := by
  induction ha with
  | @parent b hp =>
      by_cases hb : b = child
      · exact Or.inr ⟨Or.inl hb, hb ▸ .parent hp⟩
      · refine Or.inl (.parent ?_)
        rw [parent?_detach hc, if_neg hb, hp]
  | @above b p hp hap ih =>
      by_cases hb : b = child
      · exact Or.inr ⟨Or.inl hb, hb ▸ .above hp hap⟩
      · have hp' : (t.detach holder child).2.parent? b = some p := by
          rw [parent?_detach hc, if_neg hb, hp]
        rcases ih with ha | ⟨hwithin, ha⟩
        · exact Or.inl (.above hp' ha)
        · exact Or.inr ⟨hwithin.of_parent? hp', ha⟩

/-- What is taken out keeps what is below it. -/
theorem within_child_detach_iff (hwl : WellLinked t)
    (hc : child ∈ t.children holder) {b : ElementId} :
    Within (t.detach holder child).2 child b ↔ Within t child b := by
  refine or_congr_right ⟨ancestor_of_ancestor_detach hc, fun h => ?_⟩
  rcases ancestor_detach_of_ancestor hc h with h | ⟨-, h⟩
  · exact h
  · exact absurd h (hwl.acyclic child)

/-- What lies at or below the child taken out is no longer attached; nothing
    else changes. -/
theorem attached_detach_iff (hwl : WellLinked t) (hc : child ∈ t.children holder)
    {b : ElementId} :
    Attached (t.detach holder child).2 b ↔ Attached t b ∧ ¬ Within t child b := by
  have hroot := (relinked_detach hc).root_eq
  have hparent := (hwl.mem_children_iff holder child).mp hc
  have hne : t.root ≠ child := by
    intro heq
    rw [← heq, hwl.parent?_root] at hparent
    cases hparent
  rw [Attached, hroot]
  constructor
  · intro h
    refine ⟨h.imp id (ancestor_of_ancestor_detach hc), fun hwithin => ?_⟩
    -- Nothing is above the child any more, so a way up from below it ends there.
    have hout : ∀ {x}, Within (t.detach holder child).2 child x →
        ¬ Within (t.detach holder child).2 t.root x := by
      have htop : ∀ {a}, ¬ Ancestor (t.detach holder child).2 a child := by
        intro a ha
        obtain ⟨p, hp⟩ := ha.exists_parent?
        rw [parent?_detach hc, if_pos rfl] at hp
        cases hp
      rintro x (rfl | hx) hr
      · exact hr.elim (fun heq => hne heq.symm) htop
      · induction hx with
        | parent hp =>
            rcases hr with rfl | hr
            · rw [parent?_detach hc, if_neg hne, hwl.parent?_root] at hp
              cases hp
            · rcases hr.within_of_parent? hp with heq | hr
              · exact hne heq.symm
              · exact htop hr
        | above hp _ ih =>
            rcases hr with rfl | hr
            · rw [parent?_detach hc, if_neg hne, hwl.parent?_root] at hp
              cases hp
            · exact ih (hr.within_of_parent? hp)
    exact hout ((within_child_detach_iff hwl hc).mpr hwithin) h
  · rintro ⟨h, hnot⟩
    rcases h with rfl | h
    · exact Or.inl rfl
    · rcases ancestor_detach_of_ancestor hc h with h | ⟨hwithin, -⟩
      · exact Or.inr h
      · exact absurd ((within_child_detach_iff hwl hc).mp hwithin) hnot

/-- A child may be taken out of its holder. -/
theorem WellLinked.detach (hwl : WellLinked t) (hc : child ∈ t.children holder) :
    WellLinked (t.detach holder child).2 := by
  have hsame := relinked_detach hc
  have hparent := (hwl.mem_children_iff holder child).mp hc
  have hsub : ∀ p, List.Sublist ((t.detach holder child).2.children p)
      (t.children p) := by
    intro p
    rw [children_detach hc]
    split
    · next hp =>
        rw [hp]
        exact List.erase_sublist
    · exact List.Sublist.refl _
  exact
    { kind?_root := by
        rw [hsame.root_eq, hsame.kind?_eq]
        exact hwl.kind?_root
      parent?_root := by
        rw [hsame.root_eq, parent?_detach hc, hwl.parent?_root, ite_self]
      mem_children_iff := fun p c => by
        rw [children_detach hc, parent?_detach hc]
        by_cases hp : p = holder
        · rw [if_pos hp, hp, (hwl.nodup_children holder).mem_erase_iff,
            hwl.mem_children_iff]
          by_cases hcc : c = child
          · simp [hcc]
          · simp [hcc]
        · rw [if_neg hp, hwl.mem_children_iff]
          by_cases hcc : c = child
          · have hne : holder ≠ p := fun heq => hp heq.symm
            simp [hcc, hparent, hne]
          · rw [if_neg hcc]
      nodup_children := fun p => (hwl.nodup_children p).sublist (hsub p)
      acyclic := fun x hx => hwl.acyclic x (ancestor_of_ancestor_detach hc hx)
      mayHold_of_mem := fun p c k m hmem hk hm => by
        rw [hsame.kind?_eq] at hk hm
        exact hwl.mayHold_of_mem p c k m ((hsub p).subset hmem) hk hm
      length_indexers := fun p => by
        rw [childrenOfKind, funext hsame.kind?_eq]
        exact Nat.le_trans ((hsub p).filter _).length_le (hwl.length_indexers p)
      token_eq_name := fun _ _ c he hc => hsame.tokenFits hwl he c hc }

end detach

end Tree

end CodeModel
