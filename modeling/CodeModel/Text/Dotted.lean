/-!
# Dotted paths

Namespaces are written as segments joined by dots. Splitting keeps empty
segments, so that `a..b` has three of them and the empty text has one.

Main statements: joining what was split gives the text back (`join_split`), and
splitting what was joined gives the segments back when there is one at least and
none holds a dot (`split_join`).
-/

namespace CodeModel.Dotted

/-- Splits a list of characters at every dot. -/
def splitChars : List Char → List (List Char)
  | [] => [[]]
  | c :: cs =>
      if c = '.' then [] :: splitChars cs
      else
        match splitChars cs with
        | [] => [[c]]
        | word :: words => (c :: word) :: words

/-- The segments of a dotted path. -/
def split (path : String) : List String :=
  (splitChars path.toList).map String.ofList

/-- The dotted path of some segments. -/
def join (segments : List String) : String :=
  ".".intercalate segments

/-- Whether a path holds a dot. -/
def HasDot (path : String) : Prop :=
  '.' ∈ path.toList

instance (path : String) : Decidable (HasDot path) :=
  inferInstanceAs (Decidable ('.' ∈ path.toList))

/-- What follows `start` and a dot in `path`, or `path` itself when it does not
    begin so. An empty `start` is the start of every path and removes
    nothing. -/
def relativeTo (start path : String) : String :=
  if start.isEmpty then path
  else if (start.toList ++ ['.']).isPrefixOf path.toList then
    String.ofList (path.toList.drop (start.toList.length + 1))
  else path

/-- There is always a first segment. -/
theorem splitChars_ne_nil (cs : List Char) : splitChars cs ≠ [] := by
  cases cs with
  | nil => simp [splitChars]
  | cons c cs =>
      rw [splitChars]
      split
      · simp
      · split <;> simp

/-- Putting the dots back gives the characters back. -/
theorem intercalate_splitChars (cs : List Char) :
    ['.'].intercalate (splitChars cs) = cs := by
  induction cs with
  | nil => simp [splitChars, List.intercalate]
  | cons c cs ih =>
      rw [splitChars]
      split
      · next h =>
        subst h
        obtain ⟨word, words, hw⟩ :=
          List.exists_cons_of_ne_nil (splitChars_ne_nil cs)
        rw [hw] at ih ⊢
        simp [List.intercalate, List.intersperse] at ih ⊢
        exact ih
      · next h =>
        obtain ⟨word, words, hw⟩ :=
          List.exists_cons_of_ne_nil (splitChars_ne_nil cs)
        rw [hw] at ih ⊢
        cases words with
        | nil => simpa [List.intercalate, List.intersperse] using ih
        | cons w ws => simpa [List.intercalate, List.intersperse] using ih

/-- A path is its segments, joined by dots. -/
theorem join_split (path : String) : join (split path) = path := by
  apply String.toList_inj.mp
  simp only [join, split, String.toList_intercalate, List.map_map]
  have h : (String.toList ∘ String.ofList) = id := by
    funext l; simp
  rw [h, List.map_id]
  exact intercalate_splitChars path.toList

/-- A word without a dot is one segment. -/
theorem splitChars_word {word : List Char} (h : '.' ∉ word) :
    splitChars word = [word] := by
  induction word with
  | nil => rfl
  | cons c cs ih =>
      simp only [List.mem_cons, not_or] at h
      rw [splitChars, if_neg (fun hc => h.1 hc.symm), ih h.2]

/-- A word without a dot and a dot after it make the first segment. -/
theorem splitChars_word_dot {word : List Char} (h : '.' ∉ word) (rest : List Char) :
    splitChars (word ++ '.' :: rest) = word :: splitChars rest := by
  induction word with
  | nil => simp [splitChars]
  | cons c cs ih =>
      simp only [List.mem_cons, not_or] at h
      rw [List.cons_append]
      conv => lhs; unfold splitChars
      rw [if_neg (fun hc => h.1 hc.symm), ih h.2]

/-- Segments without dots are got back from their path. -/
theorem split_join {segments : List String} (hne : segments ≠ [])
    (h : ∀ s ∈ segments, ¬ HasDot s) : split (join segments) = segments := by
  induction segments with
  | nil => exact absurd rfl hne
  | cons s rest ih =>
      have hs : '.' ∉ s.toList := h s List.mem_cons_self
      cases rest with
      | nil => simp [split, join, splitChars_word hs]
      | cons t ts =>
          have ih := ih (by simp) (fun x hx => h x (List.mem_cons_of_mem _ hx))
          have hsplit : splitChars (join (s :: t :: ts)).toList
              = s.toList :: splitChars (join (t :: ts)).toList := by
            have happ : (join (s :: t :: ts)).toList
                = s.toList ++ '.' :: (join (t :: ts)).toList := by
              simp only [join, String.intercalate_cons_cons, String.toList_append]
              simp
            rw [happ, splitChars_word_dot hs]
          simp only [split] at ih ⊢
          rw [hsplit, List.map_cons, ih, String.ofList_toList]

end CodeModel.Dotted
