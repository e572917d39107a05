import Mathlib

/-!
# Cutting a stream

A reader takes a first piece off a stream that it sees bit by bit. A `Cut` says where the
piece ends, as far as the bits seen so far tell, and more bits do not change what they tell.
So it makes no difference in which bits the stream is seen (`read_of_pos`).

* `never`, `after`, `fixed`: the whole stream, a piece that ends with a separator, a piece of a length.
* `atMost`: the piece of another cut, or as much of it as a length takes.
-/

/-- Where the first piece of a stream ends, as far as a prefix of the stream tells. -/
structure Cut (α : Type) where
  pos : List α → Option ℕ
  le_length : ∀ {b k}, pos b = some k → k ≤ b.length
  stable : ∀ {b k}, pos b = some k → ∀ c, pos (b ++ c) = some k

namespace Cut

variable {α : Type}

/-- The piece is the whole stream. -/
def never : Cut α := ⟨fun _ => none, nofun, nofun⟩

/-- The piece has a fixed length. -/
def fixed (n : ℕ) : Cut α where
  pos b := if n ≤ b.length then some n else none
  le_length {b k} h := by
    split at h
    · cases h; assumption
    · cases h
  stable {b k} h c := by
    split at h
    · cases h
      rw [if_pos (by rw [List.length_append]; omega)]
    · cases h

/-- The piece ends with the first separator. -/
def after [DecidableEq α] (sep : α) : Cut α where
  pos b := (b.findIdx? (· = sep)).map (· + 1)
  le_length {b k} h := by
    obtain ⟨i, hi, rfl⟩ := Option.map_eq_some_iff.1 h
    exact (List.findIdx?_eq_some_iff_getElem.1 hi).1
  stable {b k} h c := by
    obtain ⟨i, hi, rfl⟩ := Option.map_eq_some_iff.1 h
    rw [List.findIdx?_append, hi]
    rfl

/-- The piece of another cut, or its first `n` elements if it has more. -/
def atMost (n : ℕ) (c : Cut α) : Cut α where
  pos b := match c.pos (b.take n) with
    | some k => some k
    | none => if n ≤ b.length then some n else none
  le_length {b k} h := by
    split at h
    · rename_i j hj
      cases h
      have := c.le_length hj
      rw [List.length_take] at this
      omega
    · split at h
      · cases h; assumption
      · cases h
  stable {b k} h d := by
    -- a long enough prefix shows the same `n` elements, and in a short one they are all
    rcases Nat.lt_or_ge b.length n with hn | hn
    · rw [List.take_of_length_le hn.le, if_neg (by omega)] at h
      have hk : c.pos b = some k := by
        split at h
        · rename_i j hj
          rw [hj, h]
        · cases h
      rw [List.take_append, List.take_of_length_le hn.le, c.stable hk]
    · rw [List.take_append_of_le_length hn, List.length_append]
      split at h
      · exact h
      · rw [if_pos hn] at h
        rw [if_pos (by omega)]
        exact h

variable (c : Cut α)

/-- **Reading the first piece** of a stream, given whether the stream is closed at its end: the
piece and the rest, or nothing while the end of the piece may be yet to come. -/
def read (closed : Bool) (b : List α) : Option (List α × List α) :=
  match c.pos b with
  | some k => some (b.take k, b.drop k)
  | none => if closed then some (b, []) else none

variable {c}

/-- **A piece whose end is seen** is the same whatever follows. -/
theorem read_of_pos {b d : List α} {k : ℕ} (h : c.pos b = some k) (closed : Bool) :
    c.read closed (b ++ d) = some (b.take k, b.drop k ++ d) := by
  have hk := c.le_length h
  rw [read, c.stable h d]
  simp only [List.take_append_of_le_length hk, List.drop_append_of_le_length hk]

/-- A piece whose end is not seen is the rest of a closed stream. -/
theorem read_of_none {b : List α} (h : c.pos b = none) (closed : Bool) :
    c.read closed b = if closed then some (b, []) else none := by
  rw [read, h]

/-- **What is read and what is left is what there was.** -/
theorem read_append {closed : Bool} {b v r : List α} (h : c.read closed b = some (v, r)) : v ++ r = b := by
  unfold read at h
  split at h
  · cases h
    exact List.take_append_drop _ b
  · split at h
    · cases h
      exact List.append_nil b
    · cases h

/-! ## Where the cuts are -/

@[simp] theorem never_pos (b : List α) : (never : Cut α).pos b = none := rfl

theorem fixed_pos (n : ℕ) (b : List α) : (fixed n).pos b = if n ≤ b.length then some n else none := rfl

theorem atMost_pos (n : ℕ) (b : List α) : (atMost n c).pos b =
    match c.pos (b.take n) with
    | some k => some k
    | none => if n ≤ b.length then some n else none := rfl

variable [DecidableEq α] {sep : α}

theorem after_pos (b : List α) : (after sep).pos b = (b.findIdx? (· = sep)).map (· + 1) := rfl

theorem findIdx?_sep_eq_none {b : List α} : b.findIdx? (· = sep) = none ↔ sep ∉ b := by
  rw [List.findIdx?_eq_none_iff]
  constructor
  · intro h hmem
    simpa using h sep hmem
  · intro h x hx
    have hne : x ≠ sep := fun heq => h (heq ▸ hx)
    simpa using hne

theorem after_pos_eq_none {b : List α} : (after sep).pos b = none ↔ sep ∉ b := by
  rw [after_pos, Option.map_eq_none_iff, findIdx?_sep_eq_none]

/-- A separator after a prefix without one. -/
theorem after_pos_append {b d : List α} (hb : sep ∉ b) :
    (after sep).pos (b ++ d) = ((after sep).pos d).map (b.length + ·) := by
  rw [after_pos, after_pos, List.findIdx?_append, findIdx?_sep_eq_none.2 hb, Option.none_or]
  cases List.findIdx? (· = sep) d with
  | none => rfl
  | some i => simp only [Option.map_some, Option.some.injEq]; omega

theorem after_pos_line {l : List α} (hl : sep ∉ l) (t : List α) :
    (after sep).pos (l ++ sep :: t) = some (l.length + 1) := by
  have hsep : (after sep).pos (sep :: t) = some 1 := by simp [after_pos, List.findIdx?_cons]
  rw [after_pos_append hl, hsep, Option.map_some]

/-- **The first piece of a text with a separator** is its first line. -/
theorem after_read_line {l : List α} (hl : sep ∉ l) (t : List α) (closed : Bool) :
    (after sep).read closed (l ++ sep :: t) = some (l ++ [sep], t) := by
  rw [read, after_pos_line hl]
  have hlen : (l ++ [sep]).length = l.length + 1 := by simp
  have hsplit : l ++ sep :: t = (l ++ [sep]) ++ t := by simp
  simp only [hsplit, ← hlen, List.take_left, List.drop_left]

end Cut
