import Vdetelweb.Spec.Boxes

/-!
# The named lists

`pycoutils.c` has eleven lists, each with variables of its own and with functions that are
copies of each other. The nodes are laid out alike (a name, a pointer to the object, `next`),
so a node of any list is a `BoxNode` here. The generic functions say which variables are
assigned, and each function of the source is one of them at its own variables. `mdnsrAdd`
reads a variable of another list, and has its own body.

As in the list of sockets, what the C language does not define is `none`.
-/

namespace Vdetelweb

open CString Linked

inductive ListName
  | dev | sock | link4 | link6 | mreq | mreqsrc | kvv | tftps | mdnsr | rtree | note
  deriving DecidableEq, Repr

/-- The global variables of the lists, and the memory behind them. The sockets have no `pos`. -/
structure Lists where
  nodes : Memory Addr BoxNode := ∅
  boxes : Finmap (fun _ : Addr => Box) := ∅
  head : ListName → Option Addr := fun _ => none
  tail : ListName → Option Addr := fun _ => none
  pos : ListName → Option Addr := fun _ => none

namespace Lists

variable (g : Lists)

def setHead (x : ListName) (p : Option Addr) : Lists := { g with head := Function.update g.head x p }

def setTail (x : ListName) (p : Option Addr) : Lists := { g with tail := Function.update g.tail x p }

def setPos (x : ListName) (p : Option Addr) : Lists := { g with pos := Function.update g.pos x p }

/-- A cell is written. -/
def write (k : Addr) (c : Cell Addr BoxNode) : Lists := { g with nodes := g.nodes.insert k c }

/-- `free`. -/
def free (k : Addr) : Lists := { g with nodes := g.nodes.erase k }

/-- `malloc`: the pointer, and the memory. -/
def malloc : Option Block → Option Addr × Lists
  | none => (none, g)
  | some block => (some block.addr, g.write block.addr block.cell)

/-- The assignments to the fields of a new node. -/
def fill (node item : Addr) (name : CStr) : Option Lists := do
  let c : Cell Addr BoxNode ← g.nodes.lookup node
  let name ← (strcpy nul c.value.name name.1).toOption
  return g.write node ⟨⟨name, item⟩, none⟩

/-! ## The generic functions -/

/-- An `Add` to an empty list, which assigns `head_x` and `tail_t`. -/
def addFirst (x t : ListName) (item : Addr) (name : CStr) (block : Option Block) : Option (ℤ × Lists) := do
  let (head, g) := g.malloc block
  let g := g.setHead x head
  match head with
  | none => return (-1, g)
  | some node =>
    let g ← g.fill node item name
    return (0, g.setTail t (g.head x))

/-- An `Add` to a list that is not empty. -/
def addBehind (x : ListName) (item : Addr) (name : CStr) (block : Option Block) : Option (ℤ × Lists) := do
  let tail ← g.tail x
  let c : Cell Addr BoxNode ← g.nodes.lookup tail
  let (next, g) := g.malloc block
  let g := (g.write tail { c with next }).setTail x next
  match next with
  | none => return (-1, g)
  | some node =>
    let g ← g.fill node item name
    return (0, g)

def add (x t : ListName) (item : Addr) (name : CStr) (block : Option Block) : Option (ℤ × Lists) :=
  match g.head x with
  | none => g.addFirst x t item name block
  | some _ => g.addBehind x item name block

/-- A `Find`, which sets `pos_x`. -/
def find (x : ListName) (found missing : ℤ) (name : CStr) : Option (ℤ × Lists) := do
  let pos ← search g.nodes (fun node => strcmpZero name node.name) (g.head x)
  return (if pos.isSome then found else missing, g.setPos x pos)

/-- A `Delete`, which assigns `head_h` if it is the first node that goes. -/
def delete (x h : ListName) (name : CStr) : Option (ℤ × Lists) := do
  let current ← g.head x
  let c : Cell Addr BoxNode ← g.nodes.lookup current
  if ← strcmpZero name c.value.name then
    return (IS_OK, (g.setHead h c.next).free current)
  match ← preceding g.nodes (fun node => strcmpZero name node.name) current with
  | none => return (-1, g)
  | some current =>
    let c : Cell Addr BoxNode ← g.nodes.lookup current
    let tmp ← c.next
    let d : Cell Addr BoxNode ← g.nodes.lookup tmp
    return (IS_OK, (g.write current { c with next := d.next }).free tmp)

/-! ## The functions of each list -/

/-- `name` is that of the device. -/
def deviceAdd (newdev : Addr) (name : CStr) (block : Option Block) := g.add .dev .dev newdev name block
def deviceFind (name : CStr) := g.find .dev IS_OK (-1) name
def deviceDelete (name : CStr) := g.delete .dev .dev name

def link4Add (newlink : Addr) (name : CStr) (block : Option Block) := g.add .link4 .link4 newlink name block
def link4Find (name : CStr) := g.find .link4 1 0 name
def link4Delete (name : CStr) := g.delete .link4 .link4 name

def link6Add (newlink : Addr) (name : CStr) (block : Option Block) := g.add .link6 .link6 newlink name block
def link6Find (name : CStr) := g.find .link6 1 0 name
def link6Delete (name : CStr) := g.delete .link6 .link6 name

def mreqAdd (newmreq : Addr) (name : CStr) (block : Option Block) := g.add .mreq .mreq newmreq name block
def mreqFind (name : CStr) := g.find .mreq 1 0 name
def mreqDelete (name : CStr) := g.delete .mreq .mreq name

/-- The first node goes to `tail_mreq`. -/
def mreqsrcAdd (newmreqsrc : Addr) (name : CStr) (block : Option Block) :=
  g.add .mreqsrc .mreq newmreqsrc name block
def mreqsrcFind (name : CStr) := g.find .mreqsrc 1 0 name
def mreqsrcDelete (name : CStr) := g.delete .mreqsrc .mreqsrc name

def kvvAdd (newvector : Addr) (name : CStr) (block : Option Block) := g.add .kvv .kvv newvector name block
def kvvFind (name : CStr) := g.find .kvv 1 0 name
def kvvDelete (name : CStr) := g.delete .kvv .kvv name

def tftpsAdd (newsession : Addr) (name : CStr) (block : Option Block) := g.add .tftps .tftps newsession name block
def tftpsFind (name : CStr) := g.find .tftps 1 0 name
/-- What comes after the first node goes to `head_kvv`. -/
def tftpsDelete (name : CStr) := g.delete .tftps .kvv name

/-- Behind the first node, the new one is written to where `tail_kvv->next` points. -/
def mdnsrAdd (newrecord : Addr) (name : CStr) (block : Option Block) : Option (ℤ × Lists) :=
  match g.head .mdnsr with
  | none => g.addFirst .mdnsr .mdnsr newrecord name block
  | some _ => do
    let tail ← g.tail .mdnsr
    let c : Cell Addr BoxNode ← g.nodes.lookup tail
    let (next, g) := g.malloc block
    let g := g.write tail { c with next }
    let tail_kvv ← g.tail .kvv
    let d : Cell Addr BoxNode ← g.nodes.lookup tail_kvv
    let g := g.setTail .mdnsr d.next
    -- `tail_kvv` is compared with `NULL` only here
    let node ← d.next
    let g ← g.fill node newrecord name
    return (0, g)
def mdnsrFind (name : CStr) := g.find .mdnsr 1 0 name
def mdnsrDelete (name : CStr) := g.delete .mdnsr .mdnsr name

def rtreeAdd (newrtree : Addr) (name : CStr) (block : Option Block) := g.add .rtree .rtree newrtree name block
def rtreeFind (name : CStr) := g.find .rtree 1 0 name
def rtreeDelete (name : CStr) := g.delete .rtree .rtree name

def noteAdd (newnote : Addr) (name : CStr) (block : Option Block) := g.add .note .note newnote name block
def noteFind (name : CStr) := g.find .note 1 0 name
def noteDelete (name : CStr) := g.delete .note .note name

/-- The list of sockets, with the memory. -/
def boxList : BoxList := ⟨g.nodes, g.boxes, g.head .sock, g.tail .sock⟩

/-- The list of sockets and the memory are as in `l`. -/
def putBoxList (l : BoxList) : Lists :=
  { (g.setHead .sock l.head_sock).setTail .sock l.tail_sock with nodes := l.nodes, boxes := l.boxes }

end Lists

/-! ## Operations -/

/-- An `Add`, with what `malloc` finds, or a `Delete`. Only a socket comes with a `callback`. -/
inductive ListOp
  | add (item : Addr) (name : CStr) (callback : Option Addr) (block : Option Block)
  | delete (name : CStr)

/-- What an operation on a list returns, and the state after it. -/
def ListName.run (x : ListName) (op : ListOp) (g : Lists) : Option (ℤ × Lists) :=
  match op with
  | .add item name callback block => match x with
    | .dev => g.deviceAdd item name block
    | .sock => (g.boxList.socketBoxAdd item name callback block).map (Prod.map id g.putBoxList)
    | .link4 => g.link4Add item name block
    | .link6 => g.link6Add item name block
    | .mreq => g.mreqAdd item name block
    | .mreqsrc => g.mreqsrcAdd item name block
    | .kvv => g.kvvAdd item name block
    | .tftps => g.tftpsAdd item name block
    | .mdnsr => g.mdnsrAdd item name block
    | .rtree => g.rtreeAdd item name block
    | .note => g.noteAdd item name block
  | .delete name => match x with
    | .dev => g.deviceDelete name
    | .sock => (g.boxList.socketBoxDelete name).map (Prod.map id g.putBoxList)
    | .link4 => g.link4Delete name
    | .link6 => g.link6Delete name
    | .mreq => g.mreqDelete name
    | .mreqsrc => g.mreqsrcDelete name
    | .kvv => g.kvvDelete name
    | .tftps => g.tftpsDelete name
    | .mdnsr => g.mdnsrDelete name
    | .rtree => g.rtreeDelete name
    | .note => g.noteDelete name

/-- A list whose three functions are written the same way. -/
inductive PlainList
  | dev | link4 | link6 | mreq | kvv | rtree | note
  deriving DecidableEq, Repr

/-- An operation on such a list, with memory for what is added. -/
inductive NamedOp
  | add (item : Addr) (name : CStr) (block : Block)
  | find (name : CStr)
  | delete (name : CStr)

namespace PlainList

def list : PlainList → ListName
  | .dev => .dev
  | .link4 => .link4
  | .link6 => .link6
  | .mreq => .mreq
  | .kvv => .kvv
  | .rtree => .rtree
  | .note => .note

def run (x : PlainList) (op : NamedOp) (g : Lists) : Option (ℤ × Lists) :=
  match op with
  | .add item name block => x.list.run (.add item name none (some block)) g
  | .delete name => x.list.run (.delete name) g
  | .find name => match x with
    | .dev => g.deviceFind name
    | .link4 => g.link4Find name
    | .link6 => g.link6Find name
    | .mreq => g.mreqFind name
    | .kvv => g.kvvFind name
    | .rtree => g.rtreeFind name
    | .note => g.noteFind name

/-- An operation after others. -/
def step (x : PlainList) (g : Option Lists) (op : NamedOp) : Option Lists :=
  g.bind fun g => (x.run op g).map Prod.snd

end PlainList

end Vdetelweb
