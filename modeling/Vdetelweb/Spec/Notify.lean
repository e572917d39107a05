import Vdetelweb.Spec.Adapter
import Vdetelweb.Spec.Recv

/-!
# The read side of a socket, statement by statement

The stack's thread runs `V_read` each time it has queued data, and a reader calls
`socketRecv` again and again. The two share the read semaphore, its count and a pipe, and
any statement of the one may come between any two of the other. The pipes are modelled by
the number of bytes in them. Line numbers are those of `picotcpadapter.py`.

The accept side is simpler, since its pipe is only written: there the steps are whole calls.
-/

namespace Vdetelweb

/-- The statement of `V_read` that comes next, while the callback runs. -/
inductive VReadAt
  | idle
  | unlock
  | count
  | write
  | written
  deriving DecidableEq, Repr

/-- The statement of `socketRecv` that comes next. The first waits for the semaphore. -/
inductive RecvAt
  | acquire
  | count
  | read
  | clear
  | drain
  deriving DecidableEq, Repr

/-- The read side of an open socket: the data in the stack, the entry of `open_sockets`, the
bytes in the pipe, where the two threads stand, and what the calls of `socketRecv` have returned. -/
structure ReadSide where
  queue : Bytes := []
  sock_obj : SockObj := {}
  pipe : ℕ := 0
  callback : VReadAt := .idle
  reader : RecvAt := .acquire
  returned : List (Except CString.Fault Bytes) := []

/-- A step. The last statement of `socketRecv` takes the pieces in which the stack hands out its
queue. -/
inductive ReadStep (n : ℕ)
  | arrive (data : {b : Bytes // b ≠ []})
  | callback
  | reader
  | drain (chunks : List (Chunk n))

namespace ReadSide

variable (w : ReadSide)

/-- The next statement of `V_read`. The pipe takes `capacity` bytes, and `os.write` waits while it
is full. -/
def vRead (capacity : ℕ) : Option ReadSide :=
  match w.callback with
  | .idle => none
  | .unlock =>
    let (unlocked, semaphore) := unlockSem w.sock_obj.read_semaphore w.sock_obj.read_count
    some { w with
      sock_obj := { w.sock_obj with read_semaphore := semaphore }
      callback := if unlocked then .count else .write }
  | .count => some { w with
      sock_obj := { w.sock_obj with read_count := w.sock_obj.read_count + 1 }
      callback := .write }
  | .write => if w.pipe < capacity then some { w with pipe := w.pipe + 1, callback := .written } else none
  | .written => some { w with
      sock_obj := { w.sock_obj with
        read_written_characters := w.sock_obj.read_written_characters + 1 }
      callback := .idle }

/-- The next statement of `socketRecv`, up to its call of `pycoclib`. `os.read` waits if something
is asked for and there is nothing in the pipe. -/
def readCheck : Option ReadSide :=
  match w.reader with
  | .acquire => (waitonSem w.sock_obj.read_semaphore).map fun semaphore => { w with
      sock_obj := { w.sock_obj with read_semaphore := semaphore }
      reader := .count }
  | .count => some { w with
      sock_obj := { w.sock_obj with read_count := w.sock_obj.read_count - 1 }
      reader := .read }
  | .read =>
    if w.sock_obj.read_written_characters = 0 ∨ 0 < w.pipe then
      some { w with
        pipe := w.pipe - min w.sock_obj.read_written_characters w.pipe
        reader := .clear }
    else none
  | .clear => some { w with
      sock_obj := { w.sock_obj with read_written_characters := 0 }
      reader := .drain }
  | .drain => none

/-- `pycoclib.socketRecv` takes all that is queued. -/
def drain {n : ℕ} (chunks : List (Chunk n)) : Option ReadSide :=
  if w.reader = .drain ∧ joined chunks = w.queue then
    some { w with queue := [], reader := .acquire, returned := w.returned ++ [Vdetelweb.socketRecv chunks] }
  else none

/-- A step, `none` if it cannot be taken. The stack's thread queues data when no callback runs. -/
def tryStep (capacity : ℕ) {n : ℕ} : ReadStep n → Option ReadSide
  | .arrive data =>
    if w.callback = .idle then some { w with queue := w.queue ++ data.1, callback := .unlock } else none
  | .callback => w.vRead capacity
  | .reader => w.readCheck
  | .drain chunks => w.drain chunks

/-- A step that cannot be taken is left out. -/
def step (capacity : ℕ) {n : ℕ} (w : ReadSide) (e : ReadStep n) : ReadSide := (w.tryStep capacity e).getD w

end ReadSide

/-! ## The accept side -/

/-- The accept side of a listening socket: the entry of `open_sockets`, the bytes in the pipe whose
read end `fileno` gives to `select`, and whether the stack's thread waits in `os.write`. -/
structure AcceptSide where
  sock_obj : SockObj := {}
  pipe : ℕ := 0
  stuck : Bool := false
  deriving DecidableEq, Repr

/-- A connection is signalled, or `socketAccept` is called. -/
inductive AcceptStep
  | signal
  | accept
  deriving DecidableEq, Repr

namespace AcceptSide

variable (w : AcceptSide)

/-- `V_accept`. If the pipe is full the thread stays in `os.write`. -/
def vAccept (capacity : ℕ) : AcceptSide :=
  if w.pipe < capacity then { w with sock_obj := w.sock_obj.vAccept, pipe := w.pipe + 1 }
  else { w with
    sock_obj := { w.sock_obj with
      accept_semaphore := w.sock_obj.accept_semaphore + 1
      accept_count := w.sock_obj.accept_count + 1 }
    stuck := true }

/-- `socketAccept`: `none` while it waits for the semaphore. It does not read the pipe. -/
def socketAccept : Option AcceptSide := w.sock_obj.pAccept.map fun o => { w with sock_obj := o }

/-- A step. A thread that is stuck signals nothing, and a call that waits is left out. -/
def step (capacity : ℕ) (w : AcceptSide) : AcceptStep → AcceptSide
  | .signal => if w.stuck then w else w.vAccept capacity
  | .accept => w.socketAccept.getD w

end AcceptSide

end Vdetelweb
