import Vdetelweb.Lib.Words
import Vdetelweb.Spec.Help

/-!
# Syntax cells

What the `SYNTAX` column of the help table is for: a cell is a sequence of items with
blanks between them, and an item is the name of an argument or a sequence in brackets,
which may be left out.
-/

namespace Vdetelweb

theorem words_eq (b : Bytes) : words b = Words.words (isSpace false) b := by
  unfold words Words.words
  congr 1
  funext w
  cases w <;> rfl

/-- The name of an argument. -/
structure Name where
  text : Bytes
  word : Words.IsWord (isSpace false) text
  bare : '[' ∉ text ∧ ']' ∉ text

/-- What stands between two items. -/
structure Gap where
  text : Bytes
  ne : text ≠ []
  blank : ∀ c ∈ text, isSpace false c = true

/-- A cell: a name, a group in brackets, or one cell after the other. -/
inductive Cell
  | name (n : Name)
  | group (s : Cell)
  | seq (s : Cell) (gap : Gap) (t : Cell)

namespace Cell

/-- What the switch writes. -/
def text : Cell → Bytes
  | name n => n.text
  | group s => ['['] ++ s.text ++ [']']
  | seq s gap t => s.text ++ gap.text ++ t.text

/-- For each name, in order: does it lie inside of a group, given whether the cell does? -/
def inside : Cell → Bool → List Bool
  | name _, b => [b]
  | group s, _ => s.inside true
  | seq s _ t, b => s.inside b ++ t.inside b

/-- Does a name stand in the cell outside of its groups? -/
def hasName : Cell → Bool
  | name _ => true
  | group _ => false
  | seq s _ t => s.hasName || t.hasName

/-- **Every name in brackets has a pair of its own**: a group that a name stands in has
nothing else in it. -/
def Alone : Cell → Prop
  | name _ => True
  | group s => ((∃ n, s = name n) ∨ s.hasName = false) ∧ s.Alone
  | seq s _ t => s.Alone ∧ t.Alone

end Cell

end Vdetelweb
