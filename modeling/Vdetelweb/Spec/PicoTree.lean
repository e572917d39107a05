import Vdetelweb.Lib.TreeCells

/-!
# The trees of the stack

`pico_tree.c`. The nodes are in memory, with the addresses of their parents and children, and `LEAF` is
a node as well, which all trees have in common. A dereference of what is not allocated is `none`, as
is a loop that does not end in the turns that are given. An address that was freed is not given again.
-/

namespace Vdetelweb

open Function Trees

/-- The colour of a node. -/
inductive Color
  | RED
  | BLACK
  deriving DecidableEq, Repr

/-- What is in a node apart from the pointers. -/
structure NodeValue (K : Type) where
  keyValue : Option K
  color : Color

/-- `struct pico_tree_node`. -/
abbrev PicoTreeNode (K : Type) := Cell (NodeValue K)

/-- The address of `LEAF`. -/
abbrev LEAF : ℕ := 0

/-- A tree, with the nodes that are allocated and the address of the next one. -/
structure PicoTree (K : Type) where
  root : ℕ
  node : ℕ → Option (PicoTreeNode K)
  next : ℕ

namespace PicoTree

variable {K : Type} (t : PicoTree K)

/-- The cell of `LEAF`. -/
def leafNode (color : Color) : PicoTreeNode K := ⟨LEAF, LEAF, LEAF, ⟨none, color⟩⟩

/-- `PICO_TREE_DECLARE`. -/
def empty (color : Color) : PicoTree K := ⟨LEAF, update (fun _ => none) LEAF (some (leafNode color)), 1⟩

/-- An assignment to fields of a node. -/
def set (a : ℕ) (f : PicoTreeNode K → PicoTreeNode K) : Option (PicoTree K) :=
  (t.node a).map fun n => { t with node := update t.node a (some (f n)) }

/-- `node->color = color`. -/
def setColor (a : ℕ) (color : Color) : Option (PicoTree K) :=
  t.set a fun n => { n with value := { n.value with color := color } }

/-- `node->parent = parent`. -/
def setParent (a parent : ℕ) : Option (PicoTree K) := t.set a fun n => { n with parent := parent }

/-- `if (IS_NOT_LEAF(node)) node->parent = parent`. -/
def adopt (a parent : ℕ) : Option (PicoTree K) := if a = LEAF then some t else t.setParent a parent

/-- `node->leftChild = child` or `node->rightChild = child`. -/
def setChild (d : Side) (a child : ℕ) : Option (PicoTree K) := t.set a (Cell.setChild d child)

/-- The parent of the node `a` gets the child `b` for it. It is looked first whether `a` is the child on
the side `d`. -/
def replaceChild (d : Side) (parent a b : ℕ) : Option (PicoTree K) :=
  if parent = LEAF then some { t with root := b }
  else do
    let p ← t.node parent
    if a = p.child d then t.setChild d parent b else t.setChild d.other parent b

/-! ## Rotations -/

/-- The end of a rotation, when the child `temp` of the node gave it the child `inner`. -/
def turn (d : Side) (node temp inner : ℕ) : Option (PicoTree K) := do
  let t ← t.adopt inner node
  let n ← t.node node
  let t ← t.setParent temp n.parent
  let t ← t.replaceChild d n.parent node temp
  let t ← t.setChild d temp node
  t.setParent node temp

/-- `rotateToLeft`. -/
def rotateToLeft (node : ℕ) : Option (PicoTree K) := do
  let n ← t.node node
  let temp := n.rightChild
  if temp = LEAF then some t
  else do
    let tmp ← t.node temp
    let t ← t.setChild .right node tmp.leftChild
    t.turn .left node temp tmp.leftChild

/-- `rotateToRight`. Here the child is assigned before it is looked whether there is one to rotate. -/
def rotateToRight (node : ℕ) : Option (PicoTree K) := do
  let n ← t.node node
  let temp := n.leftChild
  let tmp ← t.node temp
  let t ← t.setChild .left node tmp.rightChild
  if temp = LEAF then some t else t.turn .right node temp tmp.rightChild

/-- The rotation to a side. -/
def rotateTo : Side → ℕ → Option (PicoTree K)
  | .left => t.rotateToLeft
  | .right => t.rotateToRight

/-! ## Search -/

section Search

variable (compare : K → K → ℤ)

/-- The loop of `pico_tree_findNode` and `pico_tree_findKey`. -/
def findLoop (key : K) : ℕ → ℕ → Option (Option ℕ)
  | 0, _ => none
  | turns + 1, found =>
    if found = LEAF then some none
    else do
      let n ← t.node found
      let k ← n.value.keyValue
      let result := compare k key
      if result = 0 then some (some found)
      else if result < 0 then findLoop key turns n.rightChild
      else findLoop key turns n.leftChild

/-- `pico_tree_findNode`. -/
def findNode (key : K) : Option (Option ℕ) := t.findLoop compare key (t.next + 1) t.root

/-- `pico_tree_findKey`. -/
def findKey (key : K) : Option (Option K) := do
  match ← t.findNode compare key with
  | none => some none
  | some found => do
    let n ← t.node found
    some n.value.keyValue

/-- The loops of `pico_tree_firstNode` and `pico_tree_lastNode`. -/
def endLoop (d : Side) : ℕ → ℕ → Option ℕ
  | 0, _ => none
  | turns + 1, node => do
    let n ← t.node node
    if n.child d = LEAF then some node else endLoop d turns (n.child d)

/-- `pico_tree_firstNode`. -/
def firstNode (node : ℕ) : Option ℕ := t.endLoop .left (t.next + 1) node

/-- `pico_tree_lastNode`. -/
def lastNode (node : ℕ) : Option ℕ := t.endLoop .right (t.next + 1) node

/-- `pico_tree_first`. -/
def first : Option (Option K) := do
  let a ← t.firstNode t.root
  let n ← t.node a
  some n.value.keyValue

/-- `pico_tree_last`. -/
def last : Option (Option K) := do
  let a ← t.lastNode t.root
  let n ← t.node a
  some n.value.keyValue

/-- The loop of `pico_tree_next` over the parents. -/
def nextLoop : ℕ → ℕ → Option ℕ
  | 0, _ => none
  | turns + 1, node => do
    let n ← t.node node
    if n.parent = LEAF then some n.parent
    else do
      let p ← t.node n.parent
      if node = p.rightChild then nextLoop turns n.parent else some n.parent

/-- The part of `pico_tree_next` for a node with no right child. -/
def nextAbove (node parent : ℕ) : Option ℕ :=
  if parent = LEAF then t.nextLoop (t.next + 1) node
  else do
    let p ← t.node parent
    if node = p.leftChild then some parent else t.nextLoop (t.next + 1) node

/-- `pico_tree_next`. -/
def nextNode (node : ℕ) : Option ℕ := do
  let n ← t.node node
  if n.rightChild = LEAF then t.nextAbove node n.parent else t.firstNode n.rightChild

/-- The loop of `pico_tree_prev` over the parents. It looks whether the node is `LEAF`, and not its parent. -/
def prevLoop : ℕ → ℕ → Option ℕ
  | 0, _ => none
  | turns + 1, node => do
    let n ← t.node node
    if node = LEAF then some n.parent
    else do
      let p ← t.node n.parent
      if node = p.leftChild then prevLoop turns n.parent else some n.parent

/-- The part of `pico_tree_prev` for a node with no left child. -/
def prevAbove (node parent : ℕ) : Option ℕ :=
  if parent = LEAF then t.prevLoop (t.next + 1) node
  else do
    let p ← t.node parent
    if node = p.rightChild then some parent else t.prevLoop (t.next + 1) node

/-- `pico_tree_prev`. -/
def prevNode (node : ℕ) : Option ℕ := do
  let n ← t.node node
  if n.leftChild = LEAF then t.prevAbove node n.parent else t.lastNode n.leftChild

/-! ## `pico_tree_insert` -/

/-- `create_node`, when it is given memory. -/
def create_node (key : K) : PicoTree K :=
  { t with node := update t.node t.next (some ⟨LEAF, LEAF, LEAF, ⟨some key, .RED⟩⟩), next := t.next + 1 }

/-- The search for the place of the new node: the node below which it comes. -/
def placeLoop (key : K) : ℕ → ℕ → ℕ → Option ℕ
  | 0, _, _ => none
  | turns + 1, last_node, temp =>
    if temp = LEAF then some last_node
    else do
      let n ← t.node temp
      let k ← n.value.keyValue
      if compare key k < 0 then placeLoop key turns temp n.leftChild
      else placeLoop key turns temp n.rightChild

/-- The connections to the new node. -/
def connect (insert last_node : ℕ) (key : K) : Option (PicoTree K) := do
  let t ← t.setParent insert last_node
  if last_node = LEAF then some { t with root := insert }
  else do
    let n ← t.node last_node
    let k ← n.value.keyValue
    if compare key k < 0 then t.setChild .left last_node insert else t.setChild .right last_node insert

end Search

/-- The first rotation of `fix_insert_collisions`, when the node is the child of its parent on the side
of its uncle: the node, and the tree. -/
def innerTurn (d : Side) (node parent : ℕ) : Option (ℕ × PicoTree K) := do
  let p ← t.node parent
  if node = p.child d.other then do
    let t ← t.rotateTo d parent
    some (parent, t)
  else some (node, t)

/-- The second rotation, with the colours. -/
def outerTurn (d : Side) (node : ℕ) : Option (ℕ × PicoTree K) := do
  let n ← t.node node
  let t ← t.setColor n.parent .BLACK
  let p ← t.node n.parent
  let t ← t.setColor p.parent .RED
  let t ← t.rotateTo d.other p.parent
  some (node, t)

/-- The part of `fix_insert_collisions` for a black uncle. -/
def rotateCollision (d : Side) (node parent : ℕ) : Option (ℕ × PicoTree K) := do
  let (node, t) ← t.innerTurn d node parent
  t.outerTurn d node

/-- The part of `fix_insert_collisions` for a red uncle. -/
def recolorCollision (parent uncle granpa : ℕ) : Option (ℕ × PicoTree K) := do
  let t ← t.setColor parent .BLACK
  let t ← t.setColor uncle .BLACK
  let t ← t.setColor granpa .RED
  some (granpa, t)

/-- A turn of the loop of `fix_insert_collisions`, when the parent is the child on the side `d`. -/
def fixInsertSide (d : Side) (node parent granpa : ℕ) : Option (ℕ × PicoTree K) := do
  let g ← t.node granpa
  let temp ← t.node (g.child d.other)
  match temp.value.color with
  | .RED => t.recolorCollision parent (g.child d.other) granpa
  | .BLACK => t.rotateCollision d node parent

/-- A turn of the loop of `fix_insert_collisions`. -/
def fixInsertTurn (node parent granpa : ℕ) : Option (ℕ × PicoTree K) := do
  let g ← t.node granpa
  if parent = g.rightChild then t.fixInsertSide .right node parent granpa
  else if parent = g.leftChild then t.fixInsertSide .left node parent granpa
  else some (node, t)

/-- `fix_insert_collisions`, in so many turns. -/
def fixInsertLoop : ℕ → ℕ → PicoTree K → Option (PicoTree K)
  | 0, _, _ => none
  | turns + 1, node, t => do
    let n ← t.node node
    let p ← t.node n.parent
    if p.value.color = .RED ∧ p.parent ≠ LEAF then do
      let (node, t) ← t.fixInsertTurn node n.parent p.parent
      fixInsertLoop turns node t
    else t.setColor t.root .BLACK

/-- `fix_insert_collisions`. -/
def fix_insert_collisions (node : ℕ) : Option (PicoTree K) := fixInsertLoop (t.next + 1) node t

/-- What `pico_tree_insert` returns: a key that is in already, `&LEAF` if there is no memory, or `NULL`. -/
inductive Inserted (K : Type)
  | already (key : K)
  | noMemory
  | done
  deriving DecidableEq, Repr

/-- `pico_tree_insert`, after the search for the key. -/
def insertNew (compare : K → K → ℤ) (key : K) : Option (PicoTree K) := do
  let insert := t.next
  let t := t.create_node key
  let last_node ← t.placeLoop compare key (t.next + 1) LEAF t.root
  let t ← t.connect compare insert last_node key
  t.fix_insert_collisions insert

/-- **`pico_tree_insert`**. `zalloc` says whether it is given memory. -/
def insert (compare : K → K → ℤ) (zalloc : Bool) (key : K) : Option (Inserted K × PicoTree K) := do
  match ← if t.root = LEAF then some none else t.findKey compare key with
  | some k => some (.already k, t)
  | none =>
    if zalloc then (t.insertNew compare key).map fun t => (.done, t)
    else some (.noMemory, t)

/-! ## `pico_tree_delete` -/

/-- `switchNodes`. -/
def switchNodes (nodeA nodeB : ℕ) : Option (PicoTree K) := do
  let a ← t.node nodeA
  let t ← if a.parent ≠ LEAF ∧ nodeA = LEAF then some t else t.replaceChild .left a.parent nodeA nodeB
  let a ← t.node nodeA
  t.adopt nodeB a.parent

/-- The first part of `pico_tree_delete_node`, which takes `min` out of its place. -/
def takeMin (d min : ℕ) : Option (PicoTree K) := do
  let m ← t.node min
  if m.parent = d ∧ m.rightChild ≠ LEAF then t.setParent m.rightChild min
  else do
    let t ← t.switchNodes min m.rightChild
    let dn ← t.node d
    let t ← t.setChild .right min dn.rightChild
    t.adopt dn.rightChild min

/-- The second part, which puts it in the place of `d`. -/
def putMin (d min : ℕ) : Option (PicoTree K) := do
  let t ← t.switchNodes d min
  let dn ← t.node d
  let t ← t.setChild .left min dn.leftChild
  let t ← t.adopt dn.leftChild min
  let dn ← t.node d
  t.setColor min dn.value.color

/-- `pico_tree_delete_node`: the colour, `*temp`, and the tree. -/
def delete_node (d : ℕ) : Option (Color × ℕ × PicoTree K) := do
  let dn ← t.node d
  let min ← t.firstNode dn.rightChild
  let m ← t.node min
  let t ← t.takeMin d min
  let t ← t.putMin d min
  some (m.value.color, m.rightChild, t)

/-- `pico_tree_delete_check_switch`. -/
def delete_check_switch (delete : ℕ) : Option (Color × ℕ × PicoTree K) := do
  let d ← t.node delete
  if d.leftChild = LEAF then
    (t.switchNodes delete d.rightChild).map fun t => (d.value.color, d.rightChild, t)
  else if d.rightChild = LEAF then
    (t.switchNodes delete d.leftChild).map fun t => (d.value.color, d.leftChild, t)
  else t.delete_node delete

/-- The part of `fix_delete_collisions` for a red sibling: the sibling then, and the tree. -/
def redSibling (d : Side) (node parent temp : ℕ) : Option (ℕ × PicoTree K) := do
  let tmp ← t.node temp
  if tmp.value.color = .RED then do
    let t ← t.setColor temp .BLACK
    let t ← t.setColor parent .RED
    let t ← t.rotateTo d parent
    let n ← t.node node
    let p ← t.node n.parent
    some (p.child d.other, t)
  else some (temp, t)

/-- Are the children of the sibling black? -/
def blackChildren (d : Side) (temp : ℕ) : Option Bool := do
  let tmp ← t.node temp
  let near ← t.node (tmp.child d)
  if near.value.color = .BLACK then do
    let far ← t.node (tmp.child d.other)
    some (far.value.color = .BLACK)
  else some false

/-- The rotation of the sibling, when its far child is black: the sibling then, and the tree. -/
def farBlack (d : Side) (temp : ℕ) : Option (ℕ × PicoTree K) := do
  let tmp ← t.node temp
  let far ← t.node (tmp.child d.other)
  if far.value.color = .BLACK then do
    let t ← t.setColor (tmp.child d) .BLACK
    let t ← t.setColor temp .RED
    let t ← t.rotateTo d.other temp
    let tmp ← t.node temp
    let p ← t.node tmp.parent
    some (p.child d.other, t)
  else some (temp, t)

/-- The last case of `fix_delete_collisions`, after which the loop ends. -/
def rotateSibling (d : Side) (node temp : ℕ) : Option (ℕ × PicoTree K) := do
  let (temp, t) ← t.farBlack d temp
  let n ← t.node node
  let p ← t.node n.parent
  let t ← t.setColor temp p.value.color
  let t ← t.setColor n.parent .BLACK
  let tmp ← t.node temp
  let t ← t.setColor (tmp.child d.other) .BLACK
  let t ← t.rotateTo d n.parent
  some (t.root, t)

/-- A turn of the loop of `fix_delete_collisions`, when the node is the child on the side `d`. -/
def fixDeleteSide (d : Side) (node : ℕ) : Option (ℕ × PicoTree K) := do
  let n ← t.node node
  let p ← t.node n.parent
  let (temp, t) ← t.redSibling d node n.parent (p.child d.other)
  if ← t.blackChildren d temp then do
    let t ← t.setColor temp .RED
    let n ← t.node node
    some (n.parent, t)
  else t.rotateSibling d node temp

/-- A turn of the loop of `fix_delete_collisions`. -/
def fixDeleteTurn (node : ℕ) : Option (ℕ × PicoTree K) := do
  let n ← t.node node
  let p ← t.node n.parent
  if node = p.leftChild then t.fixDeleteSide .left node else t.fixDeleteSide .right node

/-- `fix_delete_collisions`, in so many turns. -/
def fixDeleteLoop : ℕ → ℕ → PicoTree K → Option (PicoTree K)
  | 0, _, _ => none
  | turns + 1, node, t => do
    let n ← t.node node
    if node ≠ t.root ∧ n.value.color = .BLACK ∧ node ≠ LEAF then do
      let (node, t) ← t.fixDeleteTurn node
      fixDeleteLoop turns node t
    else t.setColor node .BLACK

/-- `fix_delete_collisions`. -/
def fix_delete_collisions (node : ℕ) : Option (PicoTree K) := fixDeleteLoop (t.next + 2) node t

/-- `if_nodecolor_black_fix_collisions`. -/
def if_nodecolor_black_fix_collisions (temp : ℕ) : Color → Option (PicoTree K)
  | .RED => some t
  | .BLACK => t.fix_delete_collisions temp

/-- `PICO_FREE` of a node. -/
def free (a : ℕ) : Option (PicoTree K) :=
  (t.node a).map fun _ => { t with node := update t.node a none }

/-- **`pico_tree_delete`**: the key that was in the tree. -/
def delete (compare : K → K → ℤ) (key : K) : Option (Option K × PicoTree K) := do
  match ← t.findNode compare key with
  | none => some (none, t)
  | some delete => do
    let d ← t.node delete
    let (nodeColor, temp, t) ← t.delete_check_switch delete
    let t ← t.if_nodecolor_black_fix_collisions temp nodeColor
    let t ← t.free delete
    some (d.value.keyValue, t)

/-! ## `pico_tree_foreach` -/

/-- Where the macros begin, on the way to the right or to the left. -/
def startNode : Side → ℕ → Option ℕ
  | .right => t.firstNode
  | .left => t.lastNode

/-- The node that is next on the way. -/
def stepNode : Side → ℕ → Option ℕ
  | .right => t.nextNode
  | .left => t.prevNode

/-- The loop of `pico_tree_foreach` and `pico_tree_foreach_reverse`: the keys that it comes to. -/
def foreachLoop (d : Side) : ℕ → ℕ → Option (List (Option K))
  | 0, _ => none
  | turns + 1, idx =>
    if idx = LEAF then some []
    else do
      let n ← t.node idx
      let idx2 ← t.stepNode d idx
      let rest ← foreachLoop d turns idx2
      some (n.value.keyValue :: rest)

/-- `pico_tree_foreach`, on the way to the right, and `pico_tree_foreach_reverse`. -/
def foreach (d : Side) : Option (List (Option K)) := do
  let idx ← t.startNode d t.root
  t.foreachLoop d (t.next + 1) idx

/-- The loop of the safe macros, with a body that deletes some of the keys: those that it comes to, and the
tree then. -/
def foreachSafeLoop (compare : K → K → ℤ) (p : K → Bool) (d : Side) : ℕ → ℕ → PicoTree K → Option (List K × PicoTree K)
  | 0, _, _ => none
  | turns + 1, idx, t =>
    if idx = LEAF then some ([], t)
    else do
      let idx2 ← t.stepNode d idx
      let n ← t.node idx
      let k ← n.value.keyValue
      let (_, t) ← if p k then t.delete compare k else some (none, t)
      let (ks, t) ← foreachSafeLoop compare p d turns idx2 t
      some (k :: ks, t)

/-- `pico_tree_foreach_safe` and `pico_tree_foreach_reverse_safe`, with such a body. -/
def foreachSafe (compare : K → K → ℤ) (p : K → Bool) (d : Side) : Option (List K × PicoTree K) := do
  let idx ← t.startNode d t.root
  foreachSafeLoop compare p d (t.next + 1) idx t

/-! ## Calls -/

/-- A call on a tree. `LEAF` may be painted by a call on another tree. -/
inductive Call (K : Type)
  | insert (zalloc : Bool) (key : K)
  | delete (key : K)
  | findKey (key : K)
  | first
  | last
  | elsewhere (color : Color)

/-- What it returns. -/
inductive Answer (K : Type)
  | inserted (r : Inserted K)
  | key (k : Option K)
  | nothing
  deriving DecidableEq

/-- The call. -/
def call (compare : K → K → ℤ) : Call K → Option (Answer K × PicoTree K)
  | .insert zalloc key => (t.insert compare zalloc key).map fun r => (.inserted r.1, r.2)
  | .delete key => (t.delete compare key).map fun r => (.key r.1, r.2)
  | .findKey key => (t.findKey compare key).map fun k => (.key k, t)
  | .first => t.first.map fun k => (.key k, t)
  | .last => t.last.map fun k => (.key k, t)
  | .elsewhere color => (t.setColor LEAF color).map fun t => (.nothing, t)

/-- Calls one after the other. -/
def run (compare : K → K → ℤ) (t : PicoTree K) : List (Call K) → Option (List (Answer K) × PicoTree K)
  | [] => some ([], t)
  | c :: cs => do
    let (answer, t) ← t.call compare c
    let (answers, t) ← run compare t cs
    some (answer :: answers, t)

end PicoTree

end Vdetelweb
