import Mathlib

/-!
# Reading a text as markup

`read` takes a text apart as HTML does outside of scripts: `<` before a letter, `/`, `!` or
`?` opens a tag, a comment or the like, which goes up to the next `>`, and `&` may begin a
character reference. Everything else stands for itself.

`Inert t` says that no markup begins anywhere in `t`. A text is read as its characters, by
themselves or between tags, if and only if it is inert (`read_text_iff`).
-/

namespace Markup

/-- The named character references. The names consist of letters and digits, most with a
semicolon at the end. -/
structure Entities where
  names : List (List Char)
  word : ∀ w ∈ names, w ≠ [] ∧ ∀ c ∈ w, c.isAlphanum = true ∨ c = ';'

/-- A piece of what is read. -/
inductive Token
  | char (c : Char)
  | tag (t : List Char)
  | ref (r : List Char)
  deriving DecidableEq, Repr

/-- Does `<` open a tag, a comment or the like before this? -/
def opens (s : List Char) : Bool := s.head?.any fun c => c.isAlpha || c = '/' || c = '!' || c = '?'

/-- A hexadecimal digit. -/
def isHex (c : Char) : Bool := c.isDigit || c.isAlpha && c.toLower ≤ 'f'

/-- The length of the reference by number that this begins with. -/
def numeric (s : List Char) : Option ℕ :=
  match s with
  | '#' :: x :: d =>
    if x = 'x' ∨ x = 'X' then
      if d.head?.any isHex then some (2 + (d.takeWhile isHex).length) else none
    else if x.isDigit then some (1 + ((x :: d).takeWhile Char.isDigit).length) else none
  | _ => none

/-- The longest name that this begins with. -/
def named (E : Entities) (s : List Char) : Option (List Char) :=
  (E.names.filter fun w => w.isPrefixOf s).argmax List.length

/-- The length of the character reference that `&` begins before this. -/
def reference (E : Entities) (s : List Char) : Option ℕ :=
  ((numeric s).map fun k => if s[k]? = some ';' then k + 1 else k).or ((named E s).map List.length)

/-- Does markup begin here? -/
def begins (E : Entities) : List Char → Bool
  | '<' :: s => opens s
  | '&' :: s => (reference E s).isSome
  | _ => false

/-- **Inert**: no markup begins anywhere in the text. -/
def Inert (E : Entities) (t : List Char) : Prop := ∀ s, s <:+ t → begins E s = false

/-- Where the reader stands: in the text, after some more characters, or in a tag. -/
inductive Mode
  | text (skip : ℕ)
  | tag (t : List Char)

/-- Read a text. A tag that does not end is dropped. -/
def read (E : Entities) : Mode → List Char → List Token
  | _, [] => []
  | .tag t, c :: s => if c = '>' then .tag t :: read E (.text 0) s else read E (.tag (t ++ [c])) s
  | .text (k + 1), _ :: s => read E (.text k) s
  | .text 0, c :: s =>
    if begins E (c :: s) then
      if c = '<' then read E (.tag []) s
      else .ref (s.take ((reference E s).getD 0)) :: read E (.text ((reference E s).getD 0)) s
    else .char c :: read E (.text 0) s

variable {E : Entities}

/-! ## Tokens -/

theorem read_char {c : Char} {s : List Char} (h : begins E (c :: s) = false) :
    read E (.text 0) (c :: s) = .char c :: read E (.text 0) s := by
  rw [read, h, if_neg Bool.false_ne_true]

/-- What is read in a tag begins with the tag, if it ends. -/
theorem read_tag_cases (s t : List Char) :
    read E (.tag t) s = [] ∨ ∃ t' ts, read E (.tag t) s = .tag t' :: ts := by
  induction s generalizing t with
  | nil => exact Or.inl (by rw [read])
  | cons c s ih =>
    rw [read]
    split
    · exact Or.inr ⟨t, _, rfl⟩
    · exact ih _

/-- Where markup begins, the character is not read as itself. -/
theorem read_markup {c : Char} {s : List Char} (h : begins E (c :: s) = true) (ts : List Token) :
    read E (.text 0) (c :: s) ≠ .char c :: ts := by
  rw [read, if_pos h]
  intro heq
  split at heq
  · rcases read_tag_cases (E := E) s [] with h | ⟨t', ts', h⟩
    · rw [h] at heq; cases heq
    · rw [h] at heq; cases heq
  · cases heq

/-- A tag. -/
theorem read_tag {t : List Char} (ht : '>' ∉ t) (pre s : List Char) :
    read E (.tag pre) (t ++ '>' :: s) = .tag (pre ++ t) :: read E (.text 0) s := by
  induction t generalizing pre with
  | nil => simp [read]
  | cons c t ih =>
    simp only [List.mem_cons, not_or] at ht
    rw [List.cons_append, read, if_neg (Ne.symm ht.1), ih ht.2, List.append_assoc]
    rfl

theorem read_open {t : List Char} (ho : opens t = true) (ht : '>' ∉ t) (s : List Char) :
    read E (.text 0) ('<' :: (t ++ '>' :: s)) = .tag t :: read E (.text 0) s := by
  have hb : begins E ('<' :: (t ++ '>' :: s)) = true := by
    cases t with
    | nil => cases ho
    | cons c t => exact ho
  rw [read, if_pos hb, if_pos rfl, read_tag ht, List.nil_append]

/-! ## Texts between tags -/

/-- Nothing that could go on with markup from before. -/
def Stops (s : List Char) : Prop :=
  ∀ c ∈ s.head?, c.isAlphanum = false ∧ c ≠ ';' ∧ c ≠ '#' ∧ c ≠ '/' ∧ c ≠ '!' ∧ c ≠ '?'

theorem stops_nil : Stops [] := by
  intro c hc
  cases hc

theorem isAlphanum_of_isHex {c : Char} (h : isHex c = true) : c.isAlphanum = true := by
  unfold isHex at h
  unfold Char.isAlphanum
  cases hd : c.isDigit <;> simp_all

theorem opens_append {s : List Char} (hs : Stops s) (t : List Char) : opens (t ++ s) = opens t := by
  cases t with
  | cons c t => rfl
  | nil =>
    cases s with
    | nil => rfl
    | cons c s =>
      obtain ⟨ha, -, -, h1, h2, h3⟩ := hs c rfl
      have : c.isAlpha = false := by
        rw [Char.isAlphanum, Bool.or_eq_false_iff] at ha
        exact ha.1
      simp [opens, this, h1, h2, h3]

theorem Stops.head_isHex {s : List Char} (hs : Stops s) : s.head?.any isHex = false := by
  cases s with
  | nil => rfl
  | cons c s =>
    cases hx : isHex c with
    | false => simpa using hx
    | true =>
      have := (hs c rfl).1
      rw [isAlphanum_of_isHex hx] at this
      cases this

theorem numeric_append {s : List Char} (hs : Stops s) (t : List Char) :
    (numeric (t ++ s)).isSome = (numeric t).isSome := by
  match t with
  | [] =>
    cases s with
    | nil => rfl
    | cons c s =>
      have hc := (hs c rfl).2.2.1
      have : numeric (c :: s) = none := by
        unfold numeric
        split
        · rename_i heq
          exact absurd (List.cons.inj heq).1 hc
        · rfl
      rw [List.nil_append, this]
      rfl
  | [x] =>
    by_cases hx : x = '#'
    · subst hx
      cases s with
      | nil => rfl
      | cons c s =>
        have ha := (hs c rfl).1
        have hx : ¬ (c = 'x' ∨ c = 'X') := by
          rintro (rfl | rfl) <;> cases ha
        have hd : c.isDigit = false := by
          rw [Char.isAlphanum, Bool.or_eq_false_iff] at ha
          exact ha.2
        simp [numeric, hx, hd]
    · simp [numeric, hx]
  | x :: y :: d =>
    by_cases hx : x = '#'
    · subst hx
      have hhead : (d ++ s).head?.any isHex = d.head?.any isHex := by
        cases d with
        | nil => rw [List.nil_append, hs.head_isHex]; rfl
        | cons z d => rfl
      simp only [List.cons_append, numeric, hhead]
      split <;> split <;> rfl
    · simp [numeric, hx]

theorem named_isSome {s : List Char} : (named E s).isSome = true ↔ ∃ w ∈ E.names, w <+: s := by
  rw [named, Option.isSome_iff_ne_none, ne_eq, List.argmax_eq_none, List.filter_eq_nil_iff]
  simp

/-- A name does not go past where the text stops. -/
theorem prefix_of_stops {s w : List Char} (hs : Stops s) (hw : w ∈ E.names) {t : List Char}
    (h : w <+: t ++ s) : w <+: t := by
  obtain ⟨v, hv⟩ := h
  rcases List.append_eq_append_iff.1 hv with ⟨a, ha, -⟩ | ⟨u, hu, hs'⟩
  · exact ⟨a, ha.symm⟩
  · cases u with
    | nil => exact ⟨[], by rw [hu]; simp⟩
    | cons c u =>
      -- a character of the name would be where the text stops
      obtain ⟨hc, hc', -⟩ := hs c (by rw [hs']; rfl)
      rcases (E.word w hw).2 c (by simp [hu]) with h | h
      · rw [hc] at h
        cases h
      · exact absurd h hc'

theorem named_append {s : List Char} (hs : Stops s) (t : List Char) :
    (named E (t ++ s)).isSome = (named E t).isSome := by
  rw [Bool.eq_iff_iff, named_isSome, named_isSome]
  constructor
  · rintro ⟨w, hw, h⟩
    exact ⟨w, hw, prefix_of_stops hs hw h⟩
  · rintro ⟨w, hw, h⟩
    exact ⟨w, hw, h.trans (List.prefix_append t s)⟩

theorem reference_append {s : List Char} (hs : Stops s) (t : List Char) :
    (reference E (t ++ s)).isSome = (reference E t).isSome := by
  simp only [reference, Option.isSome_or, Option.isSome_map, numeric_append hs, named_append hs]

/-- **What begins in a text does not depend on what comes after it.** -/
theorem begins_append {s : List Char} (hs : Stops s) (c : Char) (t : List Char) :
    begins E (c :: (t ++ s)) = begins E (c :: t) := by
  by_cases hlt : c = '<'
  · subst hlt
    exact opens_append hs t
  · by_cases hamp : c = '&'
    · subst hamp
      exact reference_append hs t
    · simp [begins, hlt, hamp]

theorem inert_nil : Inert E [] := by
  intro s hs
  rw [List.suffix_nil.1 hs]
  rfl

theorem inert_cons {c : Char} {t : List Char} :
    Inert E (c :: t) ↔ begins E (c :: t) = false ∧ Inert E t := by
  constructor
  · intro h
    exact ⟨h _ (List.suffix_refl _), fun s hs => h s (hs.trans (List.suffix_cons c t))⟩
  · rintro ⟨hc, ht⟩ s hs
    rcases List.suffix_cons_iff.1 hs with rfl | hs
    · exact hc
    · exact ht s hs

/-- **A text is read as its characters if and only if it is inert.** -/
theorem read_text_iff {s : List Char} (hs : Stops s) (t : List Char) (ts : List Token) :
    read E (.text 0) (t ++ s) = t.map Token.char ++ ts ↔ Inert E t ∧ read E (.text 0) s = ts := by
  induction t with
  | nil => simp [inert_nil]
  | cons c t ih =>
    rw [List.cons_append, inert_cons]
    cases hb : begins E (c :: t) with
    | true =>
      -- what is read does not begin with `c`
      constructor
      · intro h
        exact absurd h (read_markup ((begins_append hs c t).trans hb) _)
      · rintro ⟨⟨h, -⟩, -⟩
        cases h
    | false =>
      rw [read_char ((begins_append hs c t).trans hb), List.map_cons, List.cons_append,
        List.cons_inj_right, ih]
      simp

end Markup
