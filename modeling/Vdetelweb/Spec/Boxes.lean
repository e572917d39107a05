import Vdetelweb.Lib.CString
import Vdetelweb.Lib.Linked
import Vdetelweb.Spec.Adapter
import Vdetelweb.Spec.Recv

/-!
# The list of sockets in memory

`head_sock` and `tail_sock` of `pycoutils.c`, with the nodes that `malloc` hands out, and the
boxes of the callers, which no function frees. An operation that the C language does not
define (a pointer that is `NULL` or not live, a copy that does not fit, a string with no
terminator), or that does not come to an end, is `none`. What is printed is left out, but not
the walk along the list that `checkSockets` makes for it.
-/

namespace Vdetelweb

open CString Linked

/-- An address. A pointer is an `Option Addr`, and `none` is `NULL`. -/
abbrev Addr := ℕ

/-- A `char *` that is an argument. -/
abbrev CStr := {s : Bytes // nul ∉ s}

/-- The size of the field `name`. -/
def nameSize : ℕ := 50

/-- A `struct socket_box`, without the port and the address that are in no use here. -/
structure Box where
  s : Addr
  callback : Option Addr := none
  deriving DecidableEq, Repr

/-- What an `sbList` has beside `next`. -/
structure BoxNode where
  name : Bytes
  socbox : Addr
  deriving DecidableEq, Repr

/-- A block of memory for an `sbList`, with what happens to stand there. -/
structure Block where
  addr : Addr
  cell : Cell Addr BoxNode
  sized : cell.value.name.length = nameSize

/-- The global variables, and the memory behind them. -/
structure BoxList where
  nodes : Memory Addr BoxNode := ∅
  boxes : Finmap (fun _ : Addr => Box) := ∅
  head_sock : Option Addr := none
  tail_sock : Option Addr := none

/-- `strcmp(name, field) == 0`. -/
def strcmpZero (name : CStr) (field : Bytes) : Option Bool :=
  (read nul field).toOption.map fun s => s = name.1

namespace BoxList

variable (l : BoxList)

/-- `checkSockets`. -/
def checkSockets : Option Unit :=
  (search l.nodes (fun node => (read nul node.name).toOption.map fun _ => false) l.head_sock).map fun _ => ()

/-- `malloc(sizeof(sbList))`: the pointer, and the memory. -/
def malloc : Option Block → Option Addr × BoxList
  | none => (none, l)
  | some block => (some block.addr, { l with nodes := l.nodes.insert block.addr block.cell })

/-- The assignments to the fields of a new node. -/
def fill (node newbox : Addr) (name : CStr) (callback : Option Addr) : Option BoxList := do
  let c : Cell Addr BoxNode ← l.nodes.lookup node
  let name ← (strcpy nul c.value.name name.1).toOption
  let box : Box ← l.boxes.lookup newbox
  return { l with
    nodes := l.nodes.insert node ⟨⟨name, newbox⟩, none⟩
    boxes := l.boxes.insert newbox { box with callback } }

/-- `socketBoxAdd`, with what `malloc` finds. -/
def socketBoxAdd (newbox : Addr) (name : CStr) (callback : Option Addr) (block : Option Block) :
    Option (ℤ × BoxList) := do
  -- the first line prints its socket
  let _ ← l.boxes.lookup newbox
  match l.head_sock with
  | none =>
    let (head_sock, l) := l.malloc block
    let l := { l with head_sock }
    match head_sock with
    | none => return (-1, l)
    | some node =>
      let l ← l.fill node newbox name callback
      let l := { l with tail_sock := l.head_sock }
      l.checkSockets
      return (0, l)
  | some _ =>
    let tail ← l.tail_sock
    let c : Cell Addr BoxNode ← l.nodes.lookup tail
    let (next, l) := l.malloc block
    let l := { l with nodes := l.nodes.insert tail { c with next }, tail_sock := next }
    match next with
    | none => return (-1, l)
    | some node =>
      let l ← l.fill node newbox name callback
      l.checkSockets
      return (0, l)

/-- `socketBoxFind`. -/
def socketBoxFind (name : CStr) : Option (Option Addr) :=
  search l.nodes (fun node => strcmpZero name node.name) l.head_sock

/-- `socketFindAddress`, with the array that `name` points to. -/
def socketFindAddress (s : Addr) (name : Bytes) : Option (ℤ × Bytes) := do
  let current ← search l.nodes (fun node => (l.boxes.lookup node.socbox).map fun box => box.s = s) l.head_sock
  match current with
  | none => return (NOT_OK, name)
  | some current =>
    let c : Cell Addr BoxNode ← l.nodes.lookup current
    let field ← (read nul c.value.name).toOption
    let name ← (strcpy nul name field).toOption
    return (IS_OK, name)

/-- `socketBoxDelete`. -/
def socketBoxDelete (name : CStr) : Option (ℤ × BoxList) := do
  let current ← l.head_sock
  let c : Cell Addr BoxNode ← l.nodes.lookup current
  if ← strcmpZero name c.value.name then
    let l := { l with head_sock := c.next, nodes := l.nodes.erase current }
    l.checkSockets
    return (IS_OK, l)
  match ← preceding l.nodes (fun node => strcmpZero name node.name) current with
  | none =>
    l.checkSockets
    return (-1, l)
  | some current =>
    let c : Cell Addr BoxNode ← l.nodes.lookup current
    let tail_sock := if l.tail_sock = c.next then some current else l.tail_sock
    let tmp ← c.next
    let d : Cell Addr BoxNode ← l.nodes.lookup tmp
    let l := { l with
      tail_sock
      nodes := (l.nodes.insert current { c with next := d.next }).erase tmp }
    l.checkSockets
    return (IS_OK, l)

end BoxList

/-! ## Runs -/

/-- An operation on the list. Before an addition the caller sets up a box: `calloc`, and the
socket that the stack answers with. -/
inductive BoxOp
  | calloc (newbox s : Addr)
  | add (newbox : Addr) (name : CStr) (callback : Option Addr) (block : Option Block)
  | find (name : CStr)
  | findAddress (s : Addr) (name : Bytes)
  | delete (name : CStr)

/-- The list after an operation. -/
def BoxList.run (l : BoxList) : BoxOp → Option BoxList
  | .calloc newbox s => some { l with boxes := l.boxes.insert newbox { s } }
  | .add newbox name callback block => (l.socketBoxAdd newbox name callback block).map Prod.snd
  | .find name => (l.socketBoxFind name).map fun _ => l
  | .findAddress s name => (l.socketFindAddress s name).map fun _ => l
  | .delete name => (l.socketBoxDelete name).map Prod.snd

/-- An operation after others. -/
def BoxList.step (l : Option BoxList) (e : BoxOp) : Option BoxList := l.bind (·.run e)

end Vdetelweb
