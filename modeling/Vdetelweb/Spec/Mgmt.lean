import Vdetelweb.Spec.Response

/-!
# `Vde2Mgmt`

The object that both front ends share (`Vde2Mgmt.py`): the management socket, the
configuration, and the three command logs. Line numbers are those of that file.

`log` is not part of the program. It records what the program does, in order: the
calls of `authenticate` and their decisions, the calls of `send`, what is written to
the management socket, the calls of `get_response` and what they return, and what is
sent to a telnet client.
-/

namespace Vdetelweb

/-- `hashlib`, which the repository does not contain: `sha1(b).hexdigest()`. -/
class Hashlib where
  sha1 : Bytes → Bytes

/-- The entries of the configuration that `authenticate` reads. `parseConfig` always
sets a user name, but a password only if the file has one. -/
structure Config where
  username : Bytes
  password : Option Bytes
  deriving DecidableEq, Repr

/-- `SYS_INFO`. -/
structure SysInfo where
  terminalPrefix : Bytes
  config : Config
  deriving DecidableEq, Repr

/-- A record of `HELP_COMMANDS`: one line of the switch's help. -/
structure Record where
  index : ℕ
  cmd : Bytes
  args : List Bytes
  text_args : Bytes
  help : Bytes
  text : Bytes
  deriving DecidableEq, Repr

/-- What is recorded of a run. -/
inductive Event
  | ask (username password : Bytes)
  | auth (username password : Bytes) (accepted : Bool)
  | call (cmd : PyStr)
  | write (b : Bytes)
  | await
  | answer (r : Response)
  | tell (b : Bytes)
  deriving DecidableEq, Repr

/-- The object, with `BUFFER_SIZE = n`. -/
structure Vde2Mgmt (n : ℕ) where
  socket : Stream n
  SYS_INFO : SysInfo
  CMD_HISTORY : List Bytes := []
  HELP_COMMANDS : List Record := []
  HISTORY : List PyStr := []
  HISTORY_HTML : List PyStr := []
  log : List Event := []

variable {n : ℕ}

namespace Vde2Mgmt

/-- `__init__`: one `recv` discards the greeting. -/
def init (socket : Stream n) (system_info : SysInfo) : Out (Vde2Mgmt n) :=
  match socket.recv with
  | (some _, socket) => .ret { socket := socket, SYS_INFO := system_info }
  | (none, _) => .block

/-- Record an event. -/
def note (e : Event) : Act (Vde2Mgmt n) Unit := Act.modify fun m => { m with log := m.log ++ [e] }

/-- `is_required_arg`. -/
def isRequiredArg (arg : Bytes) : Bool :=
  if 2 < arg.length ∧ arg.head? = some '[' ∧ arg.getLast? = some ']' then false else true

/-- `self.socket.sendall(cmd)`. -/
def sendall (cmd : PyStr) (line : ℕ) : Act (Vde2Mgmt n) Unit :=
  if cmd.sendable then note (.write cmd.text) else Act.raise .unicodeEncodeError line

/-- `get_response` on the socket of the object. -/
def receive : Act (Vde2Mgmt n) Response := fun m =>
  ((getResponse m.socket).1, { m with socket := (getResponse m.socket).2 })

/-- `utils.get_response(self.socket, self.BUFFER_SIZE)`. -/
def response : Act (Vde2Mgmt n) Response := do
  note .await
  let r ← receive
  note (.answer r)
  return r

/-- A command, and the wait for its reply. -/
def exchange (cmd : PyStr) (line : ℕ) : Act (Vde2Mgmt n) Response := do
  sendall cmd line
  response

/-- The entry of `HISTORY_HTML` for a command. -/
def htmlEntry (terminalPrefix : Bytes) (cmd : PyStr) : Option PyStr :=
  ((PyStr.str ("<tprfx>".toList ++ terminalPrefix ++ "</tprfx>".toList ++ "<tcmd>".toList)).add
    cmd).bind fun s => s.add (.str "</tcmd>\n".toList)

/-- The entry of `HISTORY` for a command. -/
def plainEntry (terminalPrefix : Bytes) (cmd : PyStr) : Option PyStr :=
  (PyStr.str terminalPrefix).add cmd

/-- The first branch of `add_history`. What goes into `CMD_HISTORY` is a literal. -/
def addCommand (cmd : PyStr) : Act (Vde2Mgmt n) Unit := do
  Act.modify fun m => { m with CMD_HISTORY := m.CMD_HISTORY ++ ["cmd".toList] }
  let m ← Act.get
  let h ← Act.ofOption (htmlEntry m.SYS_INFO.terminalPrefix cmd) .unicodeDecodeError 114
  Act.modify fun m => { m with HISTORY_HTML := m.HISTORY_HTML ++ [h] }
  let p ← Act.ofOption (plainEntry m.SYS_INFO.terminalPrefix cmd) .unicodeDecodeError 115
  Act.modify fun m => { m with HISTORY := m.HISTORY ++ [p] }

/-- The second branch of `add_history`. -/
def addResponse (res : Bytes) : Act (Vde2Mgmt n) Unit :=
  Act.modify fun m => { m with
    HISTORY_HTML := m.HISTORY_HTML ++ [.str res]
    HISTORY := m.HISTORY ++ [.str res] }

/-- `add_history(cmd=cmd, res=res)`. -/
def addHistory (cmd : PyStr) (res : Bytes) : Act (Vde2Mgmt n) PyStr := do
  if cmd.text ≠ [] then addCommand cmd
  if res ≠ [] then addResponse res
  -- no caller reads it, but it may raise
  Act.ofOption ((cmd.add (.str ['\n'])).bind fun s => s.add (.str res)) .unicodeDecodeError 120

/-- `send(cmd)`: `none` is the empty string that stands for a failed exchange. -/
def send (cmd : PyStr) : Act (Vde2Mgmt n) (Option Response) := do
  note (.call cmd)
  let mgmt_response ← Act.attempt (exchange cmd.strip 31)
  -- the `finally` clause makes no entry for a failed exchange
  if let some r := mgmt_response then
    let _ ← addHistory cmd.strip r.text
  return mgmt_response

/-- `showinfo()`. -/
def showinfo : Act (Vde2Mgmt n) (Option Response) :=
  Act.attempt (exchange (.str "showinfo".toList) 42)

/-- `authenticate(username, password)`. -/
def authenticate [Hashlib] (username password : Bytes) : Act (Vde2Mgmt n) Bool := do
  note (.ask username password)
  let config := (← Act.get).SYS_INFO.config
  let accepted ←
    -- the digests are compared for the right user name only
    if config.username = username then do
      let digest ← Act.ofOption config.password .keyError 124
      pure (decide (Hashlib.sha1 password = digest))
    else pure false
  note (.auth username password accepted)
  return accepted

end Vde2Mgmt

end Vdetelweb
