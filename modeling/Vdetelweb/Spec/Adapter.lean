import Vdetelweb.Spec.Py

/-!
# The adapter for `picotcp`

What `picotcpadapter.py` and the socket functions of `pycoclib.c` keep: `open_sockets`, with
the semaphores of each socket, and the list of sockets in C. What the stack itself answers
is a parameter of each operation. Line numbers are those of `picotcpadapter.py`.
-/

namespace Vdetelweb

/-- The exceptions of `pycotcp`, and those of Python that its code can meet. -/
inductive PycoExc
  | configuration | library | parse | keyError | typeError
  deriving DecidableEq, Repr

/-- The codes of `pycoclib`. -/
def IS_OK : ℤ := 0
def NOT_OK : ℤ := -1
def PARSE_FAIL : ℤ := -2
def ERROR : ℤ := -3

/-- `check_error`, on a number. -/
def checkError {σ : Type} (result : ℤ) : Effect.Act PycoExc σ ℤ :=
  if result = PARSE_FAIL then Effect.Act.raise .configuration 128
  else if result = NOT_OK then Effect.Act.raise .configuration 130
  else if result = ERROR then Effect.Act.raise .library 132
  else pure result

/-! ## Semaphores -/

/-- An entry of `open_sockets`. -/
structure SockObj where
  accept_semaphore : ℕ := 0
  accept_count : ℤ := 0
  accept_written_characters : ℕ := 0
  read_semaphore : ℕ := 0
  read_count : ℤ := 0
  read_written_characters : ℕ := 0
  write_semaphore : ℕ := 0
  write_count : ℤ := 0
  deriving DecidableEq, Repr

/-- `unlock_sem`: whether it has released the semaphore, and the semaphore. -/
def unlockSem (semaphore : ℕ) (count : ℤ) : Bool × ℕ :=
  if 0 < count then (false, semaphore) else (true, semaphore + 1)

/-- `waiton_sem`: `none` while there is nothing to acquire. -/
def waitonSem : ℕ → Option ℕ
  | 0 => none
  | semaphore + 1 => some semaphore

namespace SockObj

variable (o : SockObj)

/-- `V_accept`. -/
def vAccept : SockObj :=
  { o with
    accept_semaphore := o.accept_semaphore + 1
    accept_count := o.accept_count + 1
    accept_written_characters := o.accept_written_characters + 1 }

/-- `P_accept`. -/
def pAccept : Option SockObj :=
  (waitonSem o.accept_semaphore).map fun semaphore =>
    { o with accept_semaphore := semaphore, accept_count := o.accept_count - 1 }

/-- `V_read`. -/
def vRead : SockObj :=
  let (unlocked, semaphore) := unlockSem o.read_semaphore o.read_count
  { o with
    read_semaphore := semaphore
    read_count := if unlocked then o.read_count + 1 else o.read_count
    read_written_characters := o.read_written_characters + 1 }

/-- `P_read`. -/
def pRead : Option SockObj :=
  (waitonSem o.read_semaphore).map fun semaphore =>
    { o with read_semaphore := semaphore, read_count := o.read_count - 1 }

/-- `V_write`. -/
def vWrite : SockObj :=
  let (unlocked, semaphore) := unlockSem o.write_semaphore o.write_count
  { o with
    write_semaphore := semaphore
    write_count := if unlocked then o.write_count + 1 else o.write_count }

end SockObj

/-! ## Tables -/

/-- A `socket_box` in the list of `pycoclib`: the name, and the socket of the stack. Every box
has the callback `_socket_callback`. -/
structure SocketBox where
  name : Bytes
  s : ℕ
  deriving DecidableEq, Repr

/-- The global variables of `picotcpadapter` and of `pycoclib`. Of `tail_sock` there is whether it
is a node: it is `NULL` after a `malloc` that failed. -/
structure Adapter where
  open_sockets : Bytes → Option SockObj := fun _ => none
  sockets : List SocketBox := []
  tail_sock : Bool := false
  autoSocketCount : BitVec 32 := 0

/-- Why a function of `pycoclib` fails: there is no memory, its arguments are turned down, or
the stack refuses. -/
inductive Refusal
  | memory | parse | stack
  deriving DecidableEq, Repr

namespace Adapter

variable (a : Adapter)

/-- `open_sockets[sock_name] = sock_obj`. -/
def putOpenSocket (sock_name : Bytes) (sock_obj : SockObj) : Adapter :=
  { a with open_sockets := Function.update a.open_sockets sock_name (some sock_obj) }

/-- `_add_open_socket`. -/
def addOpenSocket (sock_name : Bytes) : Adapter := a.putOpenSocket sock_name {}

/-- `del open_sockets[sock_name]`. -/
def delOpenSocket (sock_name : Bytes) : Adapter :=
  { a with open_sockets := Function.update a.open_sockets sock_name none }

theorem putOpenSocket_self (sock_name : Bytes) (o : SockObj) :
    (a.putOpenSocket sock_name o).open_sockets sock_name = some o := Function.update_self ..

theorem putOpenSocket_of_ne {sock_name x : Bytes} (hx : x ≠ sock_name) (o : SockObj) :
    (a.putOpenSocket sock_name o).open_sockets x = a.open_sockets x := Function.update_of_ne hx ..

theorem putOpenSocket_isSome (sock_name : Bytes) (o : SockObj) (x : Bytes) :
    ((a.putOpenSocket sock_name o).open_sockets x).isSome ↔ (a.open_sockets x).isSome ∨ x = sock_name := by
  by_cases hx : x = sock_name
  · subst hx
    simp [putOpenSocket_self]
  · simp [putOpenSocket_of_ne a hx, hx]

theorem delOpenSocket_isSome (sock_name x : Bytes) :
    ((a.delOpenSocket sock_name).open_sockets x).isSome ↔ (a.open_sockets x).isSome ∧ x ≠ sock_name := by
  unfold delOpenSocket
  by_cases hx : x = sock_name
  · simp [hx, Function.update_self]
  · simp [hx, Function.update_of_ne]

/-- `socketBoxAdd`, and whether `malloc` finds memory. `none` if it follows `tail_sock` to `NULL`. -/
def socketBoxAdd (name : Bytes) (s : ℕ) (memory : Bool) : Option (ℤ × Adapter) :=
  if a.sockets = [] then
    if memory then some (0, { a with sockets := [⟨name, s⟩], tail_sock := true })
    else some (-1, a)
  else if a.tail_sock then
    if memory then some (0, { a with sockets := a.sockets ++ [⟨name, s⟩] })
    else some (-1, { a with tail_sock := false })
  else none

/-- `tail_sock` is a node, if it is looked at. -/
def Tailed : Prop := a.sockets ≠ [] → a.tail_sock = true

variable {a}

/-- **With memory** there is a box more. -/
theorem Tailed.add (h : a.Tailed) (name : Bytes) (s : ℕ) : a.socketBoxAdd name s true =
    some (0, { a with sockets := a.sockets ++ [⟨name, s⟩], tail_sock := true }) := by
  unfold socketBoxAdd
  by_cases hempty : a.sockets = []
  · rw [if_pos hempty, hempty]
    rfl
  · have htail := h hempty
    rw [if_neg hempty, if_pos htail, if_pos rfl, htail]

/-- **Without** the boxes are those that there were. -/
theorem Tailed.add_none (h : a.Tailed) (name : Bytes) (s : ℕ) :
    ∃ tail, a.socketBoxAdd name s false = some (-1, { a with tail_sock := tail }) := by
  unfold socketBoxAdd
  by_cases hempty : a.sockets = []
  · exact ⟨a.tail_sock, by rw [if_pos hempty]; rfl⟩
  · exact ⟨false, by rw [if_neg hempty, if_pos (h hempty)]; rfl⟩

variable (a)

/-- `socketBoxFind`. -/
def socketBoxFind (name : Bytes) : Option SocketBox := a.sockets.find? fun box => box.name = name

/-- `socketFindAddress`: the name, which stays empty if there is none. -/
def socketFindAddress (s : ℕ) : Bytes := ((a.sockets.find? fun box => box.s = s).map SocketBox.name).getD []

/-- `socketBoxDelete`. -/
def socketBoxDelete (name : Bytes) : Adapter :=
  { a with sockets := a.sockets.eraseP fun box => box.name = name }

/-- A box that is deleted is not the one that `tail_sock` is left at. -/
theorem Tailed.delete {a : Adapter} (h : a.Tailed) (name : Bytes) : (a.socketBoxDelete name).Tailed := by
  intro hne
  refine h fun hempty => hne ?_
  unfold socketBoxDelete
  rw [hempty]
  rfl

/-! ## Callbacks -/

/-- `if param & ev`. -/
def hasEvent (param ev : ℕ) : Bool := param &&& ev ≠ 0

def PICO_SOCK_EV_RD : ℕ := 1
def PICO_SOCK_EV_WR : ℕ := 2
def PICO_SOCK_EV_CONN : ℕ := 4
def PICO_SOCK_EV_CLOSE : ℕ := 8
def PICO_SOCK_EV_FIN : ℕ := 16
def PICO_SOCK_EV_ERR : ℕ := 128

/-- `try: V(open_sockets[socket]) except: pass`. -/
def tryV (V : SockObj → SockObj) (socket : Bytes) : Adapter :=
  match a.open_sockets socket with
  | some o => a.putOpenSocket socket (V o)
  | none => a

/-- `_socket_callback`. A close, a `FIN` and an error are passed over. -/
def socketCallback (param : ℕ) (socket : Bytes) : Adapter :=
  -- without an entry the first test raises, and the others are not come to
  if hasEvent param PICO_SOCK_EV_CONN ∧ a.open_sockets socket = none then a
  else
    let a := if hasEvent param PICO_SOCK_EV_CONN then a.tryV SockObj.vAccept socket else a
    let a := if hasEvent param PICO_SOCK_EV_RD then a.tryV SockObj.vRead socket else a
    if hasEvent param PICO_SOCK_EV_WR then a.tryV SockObj.vWrite socket else a

/-- `dummy_wakeup_callback`. -/
def dummyWakeupCallback (ev s : ℕ) : Adapter :=
  let socket := a.socketFindAddress s
  match a.socketBoxFind socket with
  | some _ => a.socketCallback ev socket
  | none => a

end Adapter

end Vdetelweb
