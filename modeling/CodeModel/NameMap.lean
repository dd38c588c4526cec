/-!
# Maps from names, sorted by code point

A `NameMap` holds at most one value for each name and lists its entries in
ascending order of the names, character by character. Keyword sets and tables of
renames are such maps, so their written form does not depend on the order in
which names came in.

Main statement: `insert` changes the value at one name only (`get?_insert`).
-/

namespace CodeModel

/-- Puts an entry at its place in an ascending list, or replaces the value of
    its name. -/
def insertEntry {α : Type} (name : String) (value : α) : List (String × α) →
    List (String × α)
  | [] => [(name, value)]
  | (n, v) :: rest =>
      if name < n then (name, value) :: (n, v) :: rest
      else if name = n then (name, value) :: rest
      else (n, v) :: insertEntry name value rest

/-- Entries whose names ascend strictly. -/
def Ascending {α : Type} (entries : List (String × α)) : Prop :=
  entries.Pairwise fun a b => a.1 < b.1

/-- A map from names to values, kept as a list whose entries ascend by name; so
    no two of them have one name. -/
structure NameMap (α : Type) where
  entries : List (String × α)
  ascending : Ascending entries

/-- An entry of the longer list is the new one or was there. -/
theorem mem_insertEntry {α : Type} {name : String} {value : α}
    {entries : List (String × α)} {e : String × α}
    (h : e ∈ insertEntry name value entries) : e = (name, value) ∨ e ∈ entries := by
  induction entries with
  | nil => exact Or.inl (List.mem_singleton.mp h)
  | cons head rest ih =>
      obtain ⟨n, v⟩ := head
      rw [insertEntry] at h
      split at h
      · rcases List.mem_cons.mp h with h | h
        · exact Or.inl h
        · exact Or.inr h
      · split at h
        · rcases List.mem_cons.mp h with h | h
          · exact Or.inl h
          · exact Or.inr (List.mem_cons_of_mem _ h)
        · rcases List.mem_cons.mp h with h | h
          · exact Or.inr (h ▸ List.mem_cons_self)
          · exact (ih h).imp id (List.mem_cons_of_mem _)

/-- Entering a pair keeps the names in order: the case that matters is that of a
    name between two others. -/
theorem ascending_insertEntry {α : Type} (name : String) (value : α)
    {entries : List (String × α)} (h : Ascending entries) :
    Ascending (insertEntry name value entries) := by
  induction entries with
  | nil => exact List.pairwise_singleton ..
  | cons head rest ih =>
      obtain ⟨n, v⟩ := head
      obtain ⟨hfirst, hrest⟩ := List.pairwise_cons.mp h
      rw [insertEntry]
      split
      · next hlt =>
        refine List.pairwise_cons.mpr ⟨?_, h⟩
        intro e he
        rcases List.mem_cons.mp he with he | he
        · exact he ▸ hlt
        · exact String.lt_trans hlt (hfirst e he)
      · next hge =>
        split
        · next heq =>
            exact List.pairwise_cons.mpr ⟨fun e he => heq ▸ hfirst e he, hrest⟩
        · next hne =>
          refine List.pairwise_cons.mpr ⟨?_, ih hrest⟩
          intro e he
          rcases mem_insertEntry he with he | he
          · have hle : n ≤ name := String.not_lt.mp hge
            rcases Decidable.em (n < name) with hlt | hnlt
            · exact he ▸ hlt
            · exact absurd (String.le_antisymm (String.not_lt.mp hnlt) hle) hne
          · exact hfirst e he

/-- An entry that comes after all others goes to the end. -/
theorem insertEntry_eq_append {α : Type} {name : String} {value : α}
    {entries : List (String × α)} (h : ∀ e ∈ entries, e.1 < name) :
    insertEntry name value entries = entries ++ [(name, value)] := by
  induction entries with
  | nil => rfl
  | cons head rest ih =>
      obtain ⟨n, v⟩ := head
      have hn : n < name := h (n, v) List.mem_cons_self
      have hne : name ≠ n := fun heq => String.lt_irrefl n (heq ▸ hn)
      rw [insertEntry, if_neg (String.lt_asymm hn), if_neg hne, ih fun e he =>
        h e (List.mem_cons_of_mem _ he), List.cons_append]

namespace NameMap

variable {α : Type}

instance [DecidableEq α] : DecidableEq (NameMap α) := fun a b =>
  decidable_of_iff (a.entries = b.entries)
    ⟨fun h => by cases a; cases b; cases h; rfl, fun h => h ▸ rfl⟩

/-- A map is its entries. -/
@[ext]
theorem ext {a b : NameMap α} (h : a.entries = b.entries) : a = b := by
  cases a; cases b; cases h; rfl

/-- The map that holds nothing. -/
def empty : NameMap α :=
  ⟨[], List.Pairwise.nil⟩

instance : Inhabited (NameMap α) := ⟨empty⟩

/-- The value of a name. -/
def get? (m : NameMap α) (name : String) : Option α :=
  m.entries.lookup name

/-- Whether the map has a value for a name. -/
def contains (m : NameMap α) (name : String) : Bool :=
  (m.get? name).isSome

/-- The number of names. -/
def size (m : NameMap α) : Nat :=
  m.entries.length

/-- The names, ascending. -/
def names (m : NameMap α) : List String :=
  m.entries.map (·.1)

/-- Gives a name a value, in place of the one it has. -/
def insert (m : NameMap α) (name : String) (value : α) : NameMap α :=
  ⟨insertEntry name value m.entries, ascending_insertEntry name value m.ascending⟩

/-- Enters pairs one after another; of two for one name the later wins. -/
def insertAll (m : NameMap α) (pairs : List (String × α)) : NameMap α :=
  pairs.foldl (fun m e => m.insert e.1 e.2) m

/-- The map of some pairs; of two for one name the later wins. -/
def ofList (pairs : List (String × α)) : NameMap α :=
  empty.insertAll pairs

/-- After entering a pair its name leads to the new value, and every other name
    where it led. -/
theorem lookup_insertEntry (name n : String) (value : α)
    (entries : List (String × α)) (h : Ascending entries) :
    (insertEntry name value entries).lookup n
      = if n = name then some value else entries.lookup n := by
  induction entries with
  | nil =>
      by_cases hn : n = name
      · simp [insertEntry, hn]
      · have hb : (n == name) = false := beq_false_of_ne hn
        simp [insertEntry, List.lookup_cons, hn, hb]
  | cons head rest ih =>
      obtain ⟨k, v⟩ := head
      obtain ⟨-, hrest⟩ := List.pairwise_cons.mp h
      rw [insertEntry]
      split
      · next hlt =>
        by_cases hn : n = name
        · simp [hn]
        · have hb : (n == name) = false := beq_false_of_ne hn
          simp [List.lookup_cons, hn, hb]
      · split
        · next heq =>
          subst heq
          by_cases hn : n = name
          · simp [hn]
          · have hb : (n == name) = false := beq_false_of_ne hn
            simp [List.lookup_cons, hn, hb]
        · next hne =>
          by_cases hk : n = k
          · subst hk
            have hn : n ≠ name := fun hc => hne hc.symm
            simp [hn]
          · have hb : (n == k) = false := beq_false_of_ne hk
            simp only [List.lookup_cons, hb]
            exact ih hrest

/-- An insertion is seen at its own name and nowhere else. -/
theorem get?_insert (m : NameMap α) (name n : String) (value : α) :
    (m.insert name value).get? n = if n = name then some value else m.get? n :=
  lookup_insertEntry name n value m.entries m.ascending

/-- What is entered is held, beside what was there before. -/
theorem contains_insertAll_iff {m : NameMap α} {pairs : List (String × α)}
    {name : String} :
    (m.insertAll pairs).contains name = true ↔
      m.contains name = true ∨ name ∈ pairs.map (·.1) := by
  induction pairs generalizing m with
  | nil => simp [insertAll]
  | cons e rest ih =>
      have hstep : (m.insert e.1 e.2).contains name = true ↔
          m.contains name = true ∨ name = e.1 := by
        rw [contains, get?_insert, contains]
        split <;> simp [*]
      rw [insertAll, List.foldl_cons, ← insertAll, ih, hstep, List.map_cons,
        List.mem_cons, or_assoc]

/-- Entries that come after all that are held go to the end. -/
theorem entries_insertAll {m : NameMap α} {pairs : List (String × α)}
    (h : Ascending (m.entries ++ pairs)) :
    (m.insertAll pairs).entries = m.entries ++ pairs := by
  induction pairs generalizing m with
  | nil => rw [insertAll, List.foldl_nil, List.append_nil]
  | cons e rest ih =>
      have hafter : ∀ d ∈ m.entries, d.1 < e.1 := fun d hd =>
        (List.pairwise_append.mp h).2.2 d hd e List.mem_cons_self
      have hinsert : (m.insert e.1 e.2).entries = m.entries ++ [e] :=
        insertEntry_eq_append hafter
      rw [List.append_cons, ← hinsert] at h
      rw [insertAll, List.foldl_cons, ← insertAll, ih h, hinsert,
        ← List.append_cons]

/-- Ascending entries are held as they come. -/
theorem entries_ofList {pairs : List (String × α)} (h : Ascending pairs) :
    (ofList pairs).entries = pairs :=
  entries_insertAll (m := empty) h

end NameMap

end CodeModel
