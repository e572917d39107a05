import Vdetelweb.Spec.Mgmt

/-!
# `list_commands`

The help table of the switch, cut into records at the columns of its header
(`Vde2Mgmt.py`). Line numbers are those of that file.
-/

namespace Vdetelweb

/-- `s.find(sub)`, with `none` for -1. -/
def find (sub s : Bytes) : Option ℕ :=
  (List.range (s.length + 1)).find? fun i => sub.isPrefixOf (s.drop i)

/-- `s[a:b]`. -/
def slice (s : Bytes) (a b : ℕ) : Bytes := (s.take b).drop a

/-- `s.split()`. -/
def words (s : Bytes) : List Bytes := (s.splitOnP (isSpace false)).filter (· ≠ [])

/-- The variables of the loop over the lines of the help text. -/
structure Scan where
  start : Bool := false
  help_line : List Bytes := []
  column_index : List ℕ := []
  deriving DecidableEq, Repr

/-- The body of that loop. -/
def scanLine (v : Scan) (i : Bytes) : Scan :=
  if v.start then
    if 0 < i.length ∧ find "====".toList i = none then { v with help_line := v.help_line ++ [i] }
    else v
  else
    -- the columns of all the lines above the rule are collected
    { v with
      column_index := v.column_index ++ (find "COMMAND PATH".toList i).toList ++
        (find "SYNTAX".toList i).toList ++ (find "HELP".toList i).toList
      start := (find "------------".toList i).isSome }

variable {n : ℕ}

namespace Vde2Mgmt

/-- The dictionary of one row; the columns are looked up in the order of its entries. -/
def row (column_index : List ℕ) (count_row : ℕ) (i : Bytes) : Act (Vde2Mgmt n) Record :=
  match column_index with
  | c0 :: c1 :: c2 :: _ => pure
    { index := count_row
      cmd := strip (slice i c0 c1)
      args := words (strip (slice i c1 c2))
      text_args := strip (slice i c1 c2)
      help := strip (i.drop c2)
      text := i }
  | [_, _] => Act.raise .indexError 84
  | _ => Act.raise .indexError 83

/-- The loop of the `finally` clause, from row `count_row` on. -/
def addRows (column_index : List ℕ) : ℕ → List Bytes → Act (Vde2Mgmt n) Unit
  | _, [] => pure ()
  | count_row, i :: is => do
    let command ← row column_index count_row i
    Act.modify fun m => { m with HELP_COMMANDS := m.HELP_COMMANDS ++ [command] }
    addRows column_index (count_row + 1) is

/-- `list_commands()`. An exception before the `finally` clause leaves no rows. -/
def listCommands : Act (Vde2Mgmt n) (List Record) := do
  Act.modify fun m => { m with HELP_COMMANDS := [] }
  let mgmt_response ← Act.attempt (exchange (.str "help".toList) 55)
  let v := match mgmt_response with
    | some r => (r.text.splitOn '\n').foldl scanLine {}
    | none => {}
  addRows v.column_index 0 v.help_line
  return (← Act.get).HELP_COMMANDS

end Vde2Mgmt

end Vdetelweb
