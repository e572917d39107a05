import Vdetelweb.Spec.Mgmt
import Vdetelweb.Spec.Reply

/-!
# The two threads and the switch

`main` starts the web thread and the telnet thread on one `Vde2Mgmt`. A call of
`send` or `showinfo` is three steps: it writes its command, it receives until a
status line, and `send` appends to the histories. Between any two steps of a call the
other thread and the switch may take theirs.

The switch answers the commands in the order they were written: the `k`-th reply is
for the `k`-th command, and `k` is the ticket of the call that wrote it. Its replies
wait in the socket, where `recv` may find them cut in any way.
-/

namespace Vdetelweb

/-- The threads. -/
inductive Client
  | web | telnet
  deriving DecidableEq, Repr

/-- What a thread calls. -/
inductive Call
  | send (cmd : PyStr)
  | showinfo
  deriving DecidableEq, Repr

/-- What the call writes. -/
def Call.text : Call → PyStr
  | .send cmd => cmd.strip
  | .showinfo => .str "showinfo".toList

/-- The first step of the call. -/
def Call.start {n : ℕ} : Call → Act (Vde2Mgmt n) Unit
  | .send cmd => do
    Vde2Mgmt.note (.call cmd)
    Vde2Mgmt.sendall cmd.strip 31
  | .showinfo => Vde2Mgmt.sendall (.str "showinfo".toList) 42

/-- Where a thread is: outside any call, waiting for its reply, or about to append. -/
inductive Phase
  | idle
  | waiting (ticket : ℕ) (call : Call)
  | received (ticket : ℕ) (cmd : PyStr) (r : Response)
  deriving DecidableEq, Repr

/-- A call that has ended: its ticket, if its command was written, and how it ended. -/
structure Ended where
  call : Call
  ticket : Option ℕ
  out : Out (Option Response)
  deriving DecidableEq, Repr

/-- The shared object, the commands written and the replies given so far, and the
threads. -/
structure World (n : ℕ) where
  mgmt : Vde2Mgmt n
  written : List (List Char) := []
  answered : List Reply := []
  phase : Client → Phase := fun _ => .idle
  ended : List Ended := []

/-- Who takes the next step. -/
inductive Action (n : ℕ)
  | write (c : Client) (call : Call)
  | answer (r : Reply) (cs : List (Chunk n))
  | deliver (cs : List (Chunk n))
  | receive (c : Client)
  | append (c : Client)

variable {n : ℕ}

namespace World

/-- The thread writes its command; if it cannot, the call returns an empty string. -/
def write (w : World n) (c : Client) (call : Call) : World n :=
  match w.phase c with
  | .idle =>
    match call.start w.mgmt with
    | (.ret _, m) => { w with
        mgmt := m
        written := w.written ++ [call.text.text]
        phase := Function.update w.phase c (.waiting w.written.length call) }
    | (_, m) => { w with mgmt := m, ended := w.ended ++ [⟨call, none, .ret none⟩] }
  | _ => w

/-- The switch answers the oldest command that has no reply yet. -/
def answer (w : World n) (r : Reply) (cs : List (Chunk n)) : World n :=
  if w.answered.length < w.written.length ∧ joined cs = r.encode then
    { w with
      answered := w.answered ++ [r]
      mgmt := { w.mgmt with
        socket := { w.mgmt.socket with chunks := w.mgmt.socket.chunks ++ cs } } }
  else w

/-- What waits in the socket will be received in these chunks. -/
def deliver (w : World n) (cs : List (Chunk n)) : World n :=
  if joined cs = w.mgmt.socket.bytes then
    { w with mgmt := { w.mgmt with socket := { w.mgmt.socket with chunks := cs } } }
  else w

/-- The thread receives until a status line. While there is none it waits; `showinfo`
returns what it received. -/
def receive (w : World n) (c : Client) : World n :=
  match w.phase c with
  | .waiting k call =>
    match Vde2Mgmt.response w.mgmt, call with
    -- no status line yet: the step is taken again when there is more to receive
    | (.block, _), _ => w
    | (.ret r, m), .send cmd =>
      { w with mgmt := m, phase := Function.update w.phase c (.received k cmd r) }
    | (.ret r, m), .showinfo =>
      { w with
        mgmt := m
        phase := Function.update w.phase c .idle
        ended := w.ended ++ [⟨call, some k, .ret (some r)⟩] }
    | (.raise _ _, m), _ =>
      { w with
        mgmt := m
        phase := Function.update w.phase c .idle
        ended := w.ended ++ [⟨call, some k, .ret none⟩] }
  | _ => w

/-- `send` appends to the histories and ends. -/
def append (w : World n) (c : Client) : World n :=
  match w.phase c with
  | .received k cmd r =>
    let out := match (Vde2Mgmt.addHistory cmd.strip r.text w.mgmt).1 with
      | .ret _ => .ret (some r)
      | .raise e l => .raise e l
      | .block => .block
    { w with
      mgmt := (Vde2Mgmt.addHistory cmd.strip r.text w.mgmt).2
      phase := Function.update w.phase c .idle
      ended := w.ended ++ [⟨.send cmd, some k, out⟩] }
  | _ => w

/-- One step. -/
def step (w : World n) : Action n → World n
  | .write c call => w.write c call
  | .answer r cs => w.answer r cs
  | .deliver cs => w.deliver cs
  | .receive c => w.receive c
  | .append c => w.append c

/-- Both threads are idle and nothing has been written since `__init__`. -/
def start (n : ℕ) (info : SysInfo) : World n :=
  { mgmt := { socket := ⟨[], false⟩, SYS_INFO := info } }

end World

end Vdetelweb
