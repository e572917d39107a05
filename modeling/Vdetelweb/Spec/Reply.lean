import Vdetelweb.Spec.Response

/-!
# Replies of the management protocol

What `get_response` is for: a reply is an optional data block, its lines closed by
an end marker of the switch's choice, followed by one status line. `Reply.encode`
is what the switch writes and `Reply.decode` the dictionary that stands for it.
-/

namespace Vdetelweb

open Lines

/-- A decimal digit. -/
def IsDigit (c : Char) : Prop := '0' ≤ c ∧ c ≤ '9'

instance (c : Char) : Decidable (IsDigit c) := inferInstanceAs (Decidable (_ ∧ _))

/-- A data block: the end marker, and the lines before it. -/
structure DataBlock where
  marker : Bytes
  lines : List Bytes
  marker_ne : marker ≠ []
  marker_bare : '\'' ∉ marker ∧ '\n' ∉ marker
  lines_bare : ∀ l ∈ lines, '\n' ∉ l ∧ l ≠ marker

/-- A reply: an optional data block, a four-digit status code with a first digit 1 to
9, and a message. -/
structure Reply where
  block : Option DataBlock
  code : Bytes
  message : Bytes
  code_length : code.length = 4
  code_digits : ∀ c ∈ code, IsDigit c
  code_head : code.head? ≠ some '0'
  message_bare : '\n' ∉ message

/-- The line that opens a data block. -/
def DataBlock.header (b : DataBlock) : Bytes := headerText ++ [' ', '\''] ++ b.marker ++ ['\'']

/-- The lines of a data block, from its header to its end marker. -/
def DataBlock.all (b : DataBlock) : List Bytes := b.header :: (b.lines ++ [b.marker])

/-- The lines before the status line. -/
def Reply.body (r : Reply) : List Bytes := (r.block.map DataBlock.all).getD []

/-- The data lines. -/
def Reply.data (r : Reply) : List Bytes := (r.block.map DataBlock.lines).getD []

/-- What the switch writes. -/
def Reply.encode (r : Reply) : Bytes := unlines '\n' (r.body ++ [r.code ++ r.message])

/-- The dictionary that stands for the reply. -/
def Reply.decode (r : Reply) : Response :=
  ⟨r.encode, unlines '\n' r.data, r.code, r.message⟩

/-- The line reads as a number as far as the status test looks: its first four
characters, or all of it when it is shorter, are digits, the first of them 1 to 8 (or
the line is a lone 9). -/
def NumberLike (l : Bytes) : Prop :=
  l.head?.any ('0' < ·) = true ∧ strLe l ['9'] = true ∧ ∀ c ∈ l.take 4, IsDigit c

instance (l : Bytes) : Decidable (NumberLike l) :=
  @instDecidableAnd _ _ _ (@instDecidableAnd _ _ _ (List.decidableBAll _ _))

/-- No data line and no end marker reads as a header or as a number, and the status
code does not begin with 9. -/
def Reply.Readable (r : Reply) : Prop :=
  (∀ b ∈ r.block, ∀ l ∈ b.marker :: b.lines, isHeader l = false ∧ ¬ NumberLike l) ∧
    r.code.head? ≠ some '9'

/-! ## The lines of a reply -/

variable (r : Reply)

theorem DataBlock.header_bare (b : DataBlock) : '\n' ∉ b.header := by
  have h : '\n' ∉ headerText ++ [' ', '\''] := by decide
  simp only [DataBlock.header, List.mem_append, not_or] at h ⊢
  exact ⟨⟨h, b.marker_bare.2⟩, by decide⟩

theorem Reply.lines_bare : ∀ l ∈ r.body ++ [r.code ++ r.message], '\n' ∉ l := by
  intro l hl
  rcases List.mem_append.1 hl with hl | hl
  · cases hb : r.block with
    | none => simp [Reply.body, hb] at hl
    | some b =>
      simp only [Reply.body, hb, Option.map_some, Option.getD_some, DataBlock.all,
        List.mem_cons, List.mem_append, List.not_mem_nil, or_false] at hl
      rcases hl with rfl | hl | rfl
      · exact b.header_bare
      · exact (b.lines_bare l hl).1
      · exact b.marker_bare.2
  · rw [List.mem_singleton.1 hl, List.mem_append, not_or]
    refine ⟨fun h => ?_, r.message_bare⟩
    exact absurd (r.code_digits _ h) (by decide)

theorem Reply.data_bare : ∀ l ∈ r.data, '\n' ∉ l := by
  intro l hl
  cases hb : r.block with
  | none => simp [Reply.data, hb] at hl
  | some b => exact (b.lines_bare l (by simpa [Reply.data, hb] using hl)).1

theorem Reply.code_ne : r.code ≠ [] := by
  intro h; have := r.code_length; rw [h] at this; cases this

end Vdetelweb
