import Mathlib
import Vdetelweb.Spec.Help

/-!
# The command tree

`makeCommandsTree` (`utils.py`) builds a tree of dictionaries in place, and puts the
records of the help table themselves into it. So dictionaries are objects on a heap, and
a record that lies on the path of another command is changed by it. Line numbers are
those of `utils.py`.
-/

namespace Vdetelweb

/-- A dictionary object. -/
abbrev Ref := ℕ

/-- A value of a dictionary. -/
inductive Val
  | int (i : ℕ)
  | str (b : Bytes)
  | list (l : List Bytes)
  | dict (r : Ref)
  deriving DecidableEq, Repr

/-- The contents of a dictionary. -/
abbrev Dict := AList fun _ : Bytes => Val

/-- The dictionaries, those from `next` on not yet created. -/
structure Heap where
  dict : Ref → Dict
  next : Ref

namespace Heap

/-- `d.get(k)`. -/
def get (h : Heap) (r : Ref) (k : Bytes) : Option Val := (h.dict r).lookup k

/-- `d[k] = v`. -/
def set (h : Heap) (r : Ref) (k : Bytes) (v : Val) : Heap :=
  { h with dict := Function.update h.dict r ((h.dict r).insert k v) }

/-- `{}`, at `h.next`. -/
def alloc (h : Heap) : Heap :=
  { dict := Function.update h.dict h.next ∅, next := h.next + 1 }

/-- `'__index' in d`. -/
def isLeaf (h : Heap) (r : Ref) : Prop := "__index".toList ∈ h.dict r

instance (h : Heap) (r : Ref) : Decidable (h.isLeaf r) := inferInstanceAs (Decidable (_ ∈ _))

end Heap

/-- The dictionary of a record. -/
def Record.dict (i : Record) : Dict :=
  ((((((∅ : Dict).insert "text".toList (.str i.text)).insert "help".toList (.str i.help)).insert
    "text_args".toList (.str i.text_args)).insert "args".toList (.list i.args)).insert
    "cmd".toList (.str i.cmd)).insert "__index".toList (.int i.index)

/-- The records of a help table, one dictionary each, and an empty dictionary after
them. -/
def Heap.load (cmds : List Record) : Heap where
  dict r := match cmds[r]? with
    | some i => i.dict
    | none => ∅
  next := cmds.length + 1

/-- The body of the loop over the nodes of a path, where `tree_level` is the dictionary
`r`; it gives the next level. -/
def enter (i : Ref) (last node : Bytes) (r : Ref) : Act Heap Val := do
  if (← Act.get).get r node = none then
    Act.modify fun h => h.alloc.set r node (.dict h.next)
  -- a node like the last one is taken for it, wherever it stands in the path
  if node = last then
    Act.modify fun h => h.set r node (.dict i)
  Act.ofOption ((← Act.get).get r node) .keyError 55

/-- That loop. A level that is not a dictionary cannot be entered: a number has no `in`,
and a string or a list cannot be indexed by a string. -/
def descend (i : Ref) (last : Bytes) : List Bytes → Val → Act Heap Unit
  | [], _ => pure ()
  | node :: cmds, .dict r => do
    let tree_level ← enter i last node r
    descend i last cmds tree_level
  | _ :: _, .int _ => Act.raise .typeError 50
  | node :: _, .str s =>
    Act.raise .typeError (if ¬ node <:+: s then 51 else if node = last then 53 else 55)
  | node :: _, .list l =>
    Act.raise .typeError (if node ∉ l then 51 else if node = last then 53 else 55)

/-- `i['cmd'].split('/')`. -/
def splitCmd (i : Ref) : Act Heap (List Bytes) := do
  match (← Act.get).get i "cmd".toList with
  | some (.str cmd) => return cmd.splitOn '/'
  | some _ => Act.raise .attributeError 47
  | none => Act.raise .keyError 47

/-- `makeCommandsTree(cmds_tree, cmds_dict)`. -/
def makeCommandsTree (cmds_tree : Ref) : List Ref → Act Heap Unit
  | [] => pure ()
  | i :: cmds_dict => do
    let cmds ← splitCmd i
    descend i (cmds.getLastD []) cmds (.dict cmds_tree)
    makeCommandsTree cmds_tree cmds_dict

variable {n : ℕ}

/-- `commands_tree()`: the heap, and the tree in it. -/
def Vde2Mgmt.commandsTree : Act (Vde2Mgmt n) (Heap × Ref) := do
  if (← Act.get).HELP_COMMANDS = [] then
    let _ ← listCommands
  let cmds := (← Act.get).HELP_COMMANDS
  match makeCommandsTree cmds.length (List.range cmds.length) (.load cmds) with
  | (.ret _, h) => return (h, cmds.length)
  | (.raise e l, _) => Act.raise e l
  | (.block, _) => fun m => (.block, m)

end Vdetelweb
