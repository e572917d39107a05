import Vdetelweb.Spec.Sockets

/-!
# The events of a connection

From its handshake on, the stack reports what happens to a connection through
`dummy_wakeup_callback`, which looks for its name in C and then calls `_socket_callback`.
Meanwhile the connection is accepted: `pico_socket_accept` returns it, `socketBoxAdd` gives it
a name, and `_add_open_socket` its semaphores. Then it can be received from. Any of these steps
may come between any others.
-/

namespace Vdetelweb

open Adapter

/-- `read_check`: the wait at the beginning of `socketRecv`. -/
def readCheck (sock_name : Bytes) : AdapterAct Unit := fun a =>
  match a.open_sockets sock_name with
  | none => (.raise .keyError 338, a)
  | some o => match o.pRead with
    | none => (.block, a)
    | some o => (.ret (), a.putOpenSocket sock_name { o with read_written_characters := 0 })

/-- How far the connection has been accepted. -/
inductive AcceptPhase
  | waiting | accepted | listed | opened
  deriving DecidableEq, Repr

/-- Where the callback is that is running: in C, before it has looked for the name, or on its
way to Python. -/
inductive Wakeup
  | lookup (ev : ℕ)
  | python (ev : ℕ) (socket : Bytes)
  deriving DecidableEq, Repr

/-- A connection: its socket in the stack, the data that is undelivered, whether the peer has
closed or an error has occurred, and whether a call of `socketRecv` is past its wait. -/
structure Connection where
  adapter : Adapter
  s : ℕ
  name : Bytes := []
  phase : AcceptPhase := .waiting
  unread : Bytes := []
  closed : Bool := false
  failed : Bool := false
  running : Option Wakeup := none
  reading : Bool := false

/-- What may happen. Data arrives with an event that has `RD`. -/
inductive ConnStep
  | event (ev : ℕ) (data : Bytes)
  | lookup
  | python
  | accept
  | list (memory : Bool)
  | open
  | recv
  | take (len : ℕ)
  | finish

namespace Connection

variable (c : Connection)

/-- The stack reports an event, unless a callback is still running. -/
def event (ev : ℕ) (data : Bytes) : Connection :=
  match c.running with
  | some _ => c
  | none => { c with
      unread := if hasEvent ev PICO_SOCK_EV_RD then c.unread ++ data else c.unread
      closed := c.closed || hasEvent ev PICO_SOCK_EV_CLOSE || hasEvent ev PICO_SOCK_EV_FIN
      failed := c.failed || hasEvent ev PICO_SOCK_EV_ERR
      running := some (.lookup ev) }

/-- `dummy_wakeup_callback` up to the call of Python. -/
def lookup : Connection :=
  match c.running with
  | some (.lookup ev) =>
    let socket := c.adapter.socketFindAddress c.s
    { c with running := (c.adapter.socketBoxFind socket).map fun _ => .python ev socket }
  | _ => c

/-- The call of Python. -/
def python : Connection :=
  match c.running with
  | some (.python ev socket) => { c with adapter := c.adapter.socketCallback ev socket, running := none }
  | _ => c

/-- `pico_socket_accept` returns the connection. -/
def accept : Connection :=
  match c.phase with
  | .waiting => { c with phase := .accepted }
  | _ => c

/-- `socketBoxAdd`, under the next name. If it follows a pointer that is `NULL`, the accept goes no
further. -/
def list (memory : Bool) : Connection :=
  match c.phase with
  | .accepted =>
    let name := autoName c.adapter.autoSocketCount
    match { c.adapter with autoSocketCount := c.adapter.autoSocketCount + 1 }.socketBoxAdd name c.s memory with
    | none => c
    | some (_, adapter) => { c with
        adapter := adapter
        name := name
        phase := .listed }
  | _ => c

/-- `_add_open_socket`. -/
def openSocket : Connection :=
  match c.phase with
  | .listed => { c with adapter := c.adapter.addOpenSocket c.name, phase := .opened }
  | _ => c

/-- A call of `socketRecv` begins, or waits. -/
def recv : Connection :=
  match c.phase, c.reading with
  | .opened, false =>
    match readCheck c.name c.adapter with
    | (.ret _, a) => { c with adapter := a, reading := true }
    | _ => c
  | _, _ => c

/-- `pico_socket_recv` hands out data. -/
def take (len : ℕ) : Connection := if c.reading then { c with unread := c.unread.drop len } else c

/-- There is no more data, and the call returns. -/
def finish : Connection := if c.reading ∧ c.unread = [] then { c with reading := false } else c

/-- One step. -/
def step : ConnStep → Connection
  | .event ev data => c.event ev data
  | .lookup => c.lookup
  | .python => c.python
  | .accept => c.accept
  | .list memory => c.list memory
  | .open => c.openSocket
  | .recv => c.recv
  | .take len => c.take len
  | .finish => c.finish

/-- After the handshake, whatever else there is in the tables. -/
def start (a : Adapter) (s : ℕ) : Connection := { adapter := a, s := s }

end Connection

end Vdetelweb
