import Vdetelweb.Spec.Mgmt

/-!
# The telnet server

The accept loop of `telnet.py` as a state machine: where the loop stands, and what it
does with the next thing a client does. Line numbers are those of that file. The socket
calls themselves do not raise.
-/

namespace Vdetelweb

/-- Where the server stands: in `accept`, in one of the three calls of `recv`, in
`get_response` for ever, or out of the loop with an exception. -/
inductive Telnet
  | accepting
  | readUser
  | readPsw (user : Bytes)
  | shell
  | hung
  | down (e : Exc) (line : ℕ)
  deriving DecidableEq, Repr

/-- What a client does: it connects, or `recv` returns data, empty at end of file. -/
inductive Input
  | accept
  | recv (data : Bytes)
  deriving DecidableEq, Repr

/-- What `\w` matches in a `str`. -/
def isWord (c : Char) : Bool := c.isAlphanum || c = '_'

/-- `re.sub(r'\W+', '', data)`. -/
def word (data : Bytes) : Bytes := data.filter isWord

variable {n : ℕ} [Hashlib]

namespace Telnet

/-- `conn.sendall(b)`. -/
def tell (b : Bytes) : Act (Vde2Mgmt n) Unit := Vde2Mgmt.note (.tell b)

/-- `conn.sendall(mgmt.SYS_INFO['terminal_prefix'])`. -/
def prompt : Act (Vde2Mgmt n) Unit := do
  tell (← Act.get).SYS_INFO.terminalPrefix

/-- After `accept`. -/
def greet : Act (Vde2Mgmt n) Telnet := do
  tell "\nUsername:".toList
  return .readUser

/-- In the loop that reads the user name. -/
def readUserLoop (data : Bytes) : Act (Vde2Mgmt n) Telnet := do
  let user := strip (word data)
  if user = [] then return .readUser
  tell "Password:".toList
  return .readPsw user

/-- `mgmt.showinfo()['text']`, the welcome message; a failed `showinfo` is a string. -/
def welcome : Act (Vde2Mgmt n) Unit := do
  let info ← Act.ofOption (← Vde2Mgmt.showinfo) .typeError 49
  tell ("\n".toList ++ info.text ++ "\n".toList)
  prompt

/-- In the loop that reads the password, and the login after it. -/
def readPswLoop (user data : Bytes) : Act (Vde2Mgmt n) Telnet := do
  let psw := strip (word data)
  if psw = [] then return .readPsw user
  if ← Vde2Mgmt.authenticate user psw then
    welcome
    return .shell
  else
    tell "\nCould not verify your account.\r\r\nInccorrect username or password".toList
    return .accepting

/-- Is the data passed on to the switch? -/
def forwarded (data : Bytes) : Bool :=
  strip data ≠ "__history".toList && !(data = "\n".toList || data = "\r\n".toList)

/-- The two branches for the data of a command. `get_history` returns a list, which
cannot be added to a string; a failed `send` returns a string, which has no `raw`. -/
def command (data : Bytes) : Act (Vde2Mgmt n) Unit := do
  if strip data = "__history".toList then
    Act.raise .typeError 59
  else if forwarded data then
    let r ← Act.ofOption (← Vde2Mgmt.send (.str data)) .typeError 62
    tell (r.raw ++ "\n".toList)

/-- `time.sleep(.5)`: the module does not import `time`. -/
def sleep : Act (Vde2Mgmt n) Unit := Act.raise .nameError 64

/-- In the loop that reads commands. -/
def shellLoop (data : Bytes) : Act (Vde2Mgmt n) Telnet := do
  command data
  sleep
  prompt
  return .shell

/-- What the server does with an input it waits for. -/
def act : Telnet → Input → Option (Act (Vde2Mgmt n) Telnet)
  | accepting, .accept => some greet
  | readUser, .recv data => some (readUserLoop data)
  | readPsw user, .recv data => some (readPswLoop user data)
  | shell, .recv data => some (shellLoop data)
  | _, _ => none

/-- Where the server stands after a piece of code. -/
def after : Out Telnet → Telnet
  | .ret t => t
  | .raise e l => down e l
  | .block => hung

end Telnet

/-- The server and the object it shares. -/
structure Server (n : ℕ) where
  mgmt : Vde2Mgmt n
  telnet : Telnet := .accepting

/-- One step. An input the server does not wait for is left where it is. -/
def Server.step (w : Server n) (i : Input) : Server n :=
  match w.telnet.act i with
  | some x => ⟨(x w.mgmt).2, .after (x w.mgmt).1⟩
  | none => w

/-- The run of one connection whose `recv` calls return the given data. -/
def Server.session (m : Vde2Mgmt n) (received : List Bytes) : Server n :=
  (Input.accept :: received.map Input.recv).foldl Server.step { mgmt := m }

end Vdetelweb
