import Vdetelweb.Spec.Adapter

/-!
# Opening, accepting and closing sockets

`Socket` keeps its objects in `existing_sockets`, and goes through the adapter to `pycoclib`:
three tables, each with its own time to take a name in or out. A call in which C follows a pointer
that is `NULL` does not return. Line numbers are those of `picotcpadapter.py`, and of `socket.py`
for `Socket.close`.
-/

namespace Vdetelweb

/-- A name that `__init__` makes. -/
def defaultName (counter : ℕ) : Bytes := "__".toList ++ counter.repr.toList

/-- A name that `socketAccept` makes, of a counter that is an `int`. -/
def autoName (count : BitVec 32) : Bytes := "__autosocket_".toList ++ (toString count.toInt).toList

/-! ## `pycoclib` -/

namespace Adapter

/-- `socketOpen` of `pycoclib`. What `socketBoxAdd` answers is not looked at. -/
def pycoclibOpen (sname : Bytes) (answer : Except Refusal ℕ) (memory : Bool) (a : Adapter) : Option (ℤ × Adapter) :=
  match answer with
  | .error .memory => some (NOT_OK, a)
  | .error .parse => some (PARSE_FAIL, a)
  | .error .stack => some (ERROR, a)
  | .ok s => do
    let (_, a) ← a.socketBoxAdd sname s memory
    some (IS_OK, a)

/-- `socketClose` of `pycoclib`. Its own failure and one of `pico_socket_close` are told apart
by what is deleted. -/
def pycoclibClose (ssocket : Bytes) (parsed closed : Bool) (a : Adapter) : ℤ × Adapter :=
  if parsed then
    match a.socketBoxFind ssocket with
    | none => (NOT_OK, a)
    | some _ => (if closed then IS_OK else ERROR, a.socketBoxDelete ssocket)
  else (NOT_OK, a)

/-- `socketAccept` of `pycoclib`: a code, or the name of the new socket. What `socketBoxAdd` answers
is not looked at. -/
def pycoclibAccept (ssocket : Bytes) (answer : Except Refusal ℕ) (memory : Bool) (a : Adapter) :
    Option (Except ℤ Bytes × Adapter) :=
  match answer, a.socketBoxFind ssocket with
  | .error .parse, _ => some (.error PARSE_FAIL, a)
  | .error .memory, _ => some (.error NOT_OK, a)
  | _, none => some (.error NOT_OK, a)
  | .error .stack, some _ => some (.error ERROR, a)
  | .ok s, some _ => do
    let name := autoName a.autoSocketCount
    let (_, a) ← { a with autoSocketCount := a.autoSocketCount + 1 }.socketBoxAdd name s memory
    some (.ok name, a)

end Adapter

/-! ## `PicoTCPAdapter` -/

/-- A piece of code over the tables of the adapter. -/
abbrev AdapterAct : Type → Type := Effect.Act PycoExc Adapter

/-- `socketOpen`. The entry is made before the result is looked at. -/
def socketOpen (sock_name : Bytes) (answer : Except Refusal ℕ) (memory : Bool) : AdapterAct (Option ℤ) := fun a =>
  if (a.open_sockets sock_name).isSome then (.ret none, a)
  else match a.pycoclibOpen sock_name answer memory with
    | none => (.block, a)
    | some (result, a) => (some <$> checkError result : AdapterAct (Option ℤ)) (a.addOpenSocket sock_name)

/-- `socketClose`. -/
def socketClose (sock_name : Bytes) (parsed closed : Bool) : AdapterAct ℤ := fun a =>
  let (result, a) := a.pycoclibClose sock_name parsed closed
  match a.open_sockets sock_name with
  | none => (.raise .keyError 429, a)
  | some _ =>
    let a := a.delOpenSocket sock_name
    if result = PARSE_FAIL then (.raise .parse 434, a)
    else if result = NOT_OK then (.raise .configuration 436, a)
    else (.ret result, a)

/-- `socketAccept`. A code has no first element, so that no test of it is come to. -/
def socketAccept (sock_name : Bytes) (answer : Except Refusal ℕ) (memory : Bool) : AdapterAct Bytes := fun a =>
  match a.open_sockets sock_name with
  | none => (.raise .keyError 477, a)
  | some o => match o.pAccept with
    | none => (.block, a)
    | some o =>
      match (a.putOpenSocket sock_name o).pycoclibAccept sock_name answer memory with
      | none => (.block, a)
      | some (.error _, a) => (.raise .typeError 481, a)
      | some (.ok new_sock_name, a) => (.ret new_sock_name, a.addOpenSocket new_sock_name)

/-! ## `Socket` -/

/-- The adapter, the class variables of `Socket`, and the names of its objects that are not
closed, which no variable keeps. -/
structure SocketModule extends Adapter where
  existing_sockets : Finset Bytes := ∅
  DEFAULT_NAME_COUNTER : ℕ := 0
  live : List Bytes := []

/-- A piece of code over all of them. -/
abbrev SocketAct : Type → Type := Effect.Act PycoExc SocketModule

/-- A piece of code of the adapter. -/
def onAdapter {α : Type} (x : AdapterAct α) : SocketAct α := fun m =>
  ((x m.toAdapter).1, { m with toAdapter := (x m.toAdapter).2 })

/-- `Socket.existing_sockets[self.name] = self`. -/
def register (name : Bytes) : SocketAct Unit := Effect.Act.modify fun m =>
  { m with existing_sockets := insert name m.existing_sockets, live := m.live ++ [name] }

/-- **`Socket()`**, with a default name. -/
def createSocket (answer : Except Refusal ℕ) (memory : Bool) : SocketAct Unit := do
  let name := defaultName (← Effect.Act.get).DEFAULT_NAME_COUNTER
  Effect.Act.modify fun m => { m with DEFAULT_NAME_COUNTER := m.DEFAULT_NAME_COUNTER + 1 }
  let _ ← onAdapter (socketOpen name answer memory)
  register name

/-- **`Socket.accept`** on an object of this name. The new object is not opened again. -/
def acceptSocket (name : Bytes) (answer : Except Refusal ℕ) (memory : Bool) : SocketAct Unit := do
  let new_name ← onAdapter (socketAccept name answer memory)
  register new_name

/-- **`Socket.close`** on an object of this name. -/
def closeSocket (name : Bytes) (parsed closed : Bool) : SocketAct Unit := do
  if name ∉ (← Effect.Act.get).existing_sockets then Effect.Act.raise .keyError 339
  Effect.Act.modify fun m =>
    { m with existing_sockets := m.existing_sockets.erase name, live := m.live.erase name }
  let _ ← onAdapter (socketClose name parsed closed)

/-! ## Runs -/

/-- What may happen, with what the stack and `pycoclib` answer, and whether there is memory for a
node of the list. -/
inductive SocketOp
  | create (answer : Except Refusal ℕ) (memory : Bool)
  | accept (name : Bytes) (answer : Except Refusal ℕ) (memory : Bool)
  | close (name : Bytes) (parsed closed : Bool)
  | wakeup (ev s : ℕ)

/-- The piece of code that is run. -/
def SocketOp.act : SocketOp → SocketAct Unit
  | create answer memory => createSocket answer memory
  | accept name answer memory => acceptSocket name answer memory
  | close name parsed closed => closeSocket name parsed closed
  | wakeup ev s => Effect.Act.modify fun m => { m with toAdapter := m.dummyWakeupCallback ev s }

/-- One step. A call of `accept` that waits changes nothing, and is a step again later. -/
def SocketModule.step (m : SocketModule) (e : SocketOp) : SocketModule := (e.act m).2

end Vdetelweb
