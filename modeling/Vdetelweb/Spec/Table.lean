import Vdetelweb.Lib.Words
import Vdetelweb.Spec.Help
import Vdetelweb.Spec.Reply

/-!
# Help tables

What `list_commands` is for: the switch answers `help` with a table that has a header, a
rule, and a row for each command, with the rows of sections in between. `HelpTable.records`
are the records that stand for it.
-/

namespace Vdetelweb

/-- What the row of a section has in it. -/
def sectionMark : Bytes := "====".toList

/-- What the rule under the header has in it. -/
def ruleMark : Bytes := "------------".toList

/-- `a` fills its column, or the line ends in it. -/
def Fits (width : ℕ) (a rest : Bytes) : Prop :=
  a.length = width ∨ a.length ≤ width ∧ rest = []

/-- The row of a command: the cells of the three columns with their padding, and what stands
before the first column. -/
structure CommandRow (c0 c1 c2 : ℕ) where
  margin : Bytes
  path : Bytes
  usage : Bytes
  help : Bytes
  margin_fits : Fits c0 margin (path ++ (usage ++ help))
  path_fits : Fits (c1 - c0) path (usage ++ help)
  usage_fits : Fits (c2 - c1) usage help
  letter : ∃ c t, margin ++ (path ++ (usage ++ help)) = c :: t ∧ c.isAlpha = true
  bare : '\n' ∉ margin ++ (path ++ (usage ++ help))
  unmarked : find sectionMark (margin ++ (path ++ (usage ++ help))) = none

/-- The row of a section. -/
structure SectionRow where
  text : Bytes
  bare : '\n' ∉ text
  marked : find sectionMark text ≠ none

/-- A row of the table. -/
inductive TableRow (c0 c1 c2 : ℕ)
  | command (r : CommandRow c0 c1 c2)
  | menu (s : SectionRow)

/-- A help table. The titles stand at the columns of the header. -/
structure HelpTable where
  c0 : ℕ
  c1 : ℕ
  c2 : ℕ
  columns : c0 < c1 ∧ c1 < c2
  header : Bytes
  rule : Bytes
  rows : List (TableRow c0 c1 c2)
  titles : find "COMMAND PATH".toList header = some c0 ∧ find "SYNTAX".toList header = some c1 ∧
    find "HELP".toList header = some c2
  rule_rule : find ruleMark rule ≠ none
  bare : '\n' ∉ header ∧ '\n' ∉ rule

variable {c0 c1 c2 : ℕ}

/-- The line of a command. -/
def CommandRow.text (r : CommandRow c0 c1 c2) : Bytes := r.margin ++ (r.path ++ (r.usage ++ r.help))

/-- The record that stands for the row: the trimmed cells, and the words of the second. -/
def CommandRow.record (r : CommandRow c0 c1 c2) (index : ℕ) : Record where
  index := index
  cmd := strip r.path
  args := Words.words (isSpace false) r.usage
  text_args := strip r.usage
  help := strip r.help
  text := r.text

/-- The line of a row. -/
def TableRow.text : TableRow c0 c1 c2 → Bytes
  | command r => r.text
  | menu s => s.text

/-- The command of a row. -/
def TableRow.command? : TableRow c0 c1 c2 → Option (CommandRow c0 c1 c2)
  | command r => some r
  | menu _ => none

namespace HelpTable

/-- The lines of the table. -/
def lines (t : HelpTable) : List Bytes := t.header :: t.rule :: t.rows.map TableRow.text

/-- Its commands. -/
def commands (t : HelpTable) : List (CommandRow t.c0 t.c1 t.c2) := t.rows.filterMap TableRow.command?

/-- **The records that stand for the table**, one for each command, in order. -/
def records (t : HelpTable) : List Record := t.commands.mapIdx fun index r => r.record index

end HelpTable

/-- A help table as the switch sends it: the data block of a reply. -/
structure HelpReply where
  table : HelpTable
  reply : Reply
  block : DataBlock
  carried : reply.block = some block ∧ block.lines = table.lines

/-! ## Cells -/

theorem Fits.take {width : ℕ} {a rest : Bytes} (h : Fits width a rest) : (a ++ rest).take width = a := by
  rcases h with h | ⟨h, rfl⟩
  · exact List.take_left' h
  · rw [List.append_nil]
    exact List.take_of_length_le h

theorem Fits.drop {width : ℕ} {a rest : Bytes} (h : Fits width a rest) : (a ++ rest).drop width = rest := by
  rcases h with h | ⟨h, rfl⟩
  · exact List.drop_left' h
  · rw [List.append_nil]
    exact List.drop_of_length_le h

theorem slice_eq (s : Bytes) (a b : ℕ) : slice s a b = (s.drop a).take (b - a) := by
  rw [slice, List.drop_take]

/-- **The cells are what stands in the columns.** -/
theorem CommandRow.cells (r : CommandRow c0 c1 c2) (h : c0 ≤ c1 ∧ c1 ≤ c2) :
    slice r.text c0 c1 = r.path ∧ slice r.text c1 c2 = r.usage ∧ r.text.drop c2 = r.help := by
  have h0 : r.text.drop c0 = r.path ++ (r.usage ++ r.help) := r.margin_fits.drop
  have h1 : r.text.drop c1 = r.usage ++ r.help := by
    have := congrArg (List.drop (c1 - c0)) h0
    rwa [List.drop_drop, Nat.add_sub_cancel' h.1, r.path_fits.drop] at this
  have h2 : r.text.drop c2 = r.help := by
    have := congrArg (List.drop (c2 - c1)) h1
    rwa [List.drop_drop, Nat.add_sub_cancel' h.2, r.usage_fits.drop] at this
  rw [slice_eq, slice_eq, h0, h1, r.path_fits.take, r.usage_fits.take]
  exact ⟨rfl, rfl, h2⟩

end Vdetelweb
