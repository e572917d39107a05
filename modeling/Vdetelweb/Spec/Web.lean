import Vdetelweb.Lib.Walk
import Vdetelweb.Spec.Tree

/-!
# The web server

The views of `web.py` and the rules they are registered under. A view is a closure in
the source; here it is a `Handler`, the variables it closes over, and `Handler.view` is
what it does with a request. Line numbers are those of `web.py`. Rendering is left out: a
response holds what is handed to the template or to `jsonify`.
-/

namespace Vdetelweb

/-- The method of a request. -/
inductive Method
  | get | head | post | other
  deriving DecidableEq, Repr

/-- What a view reads of `request`: the credentials of HTTP Basic, and the form, whose
values are `unicode`. -/
structure Request where
  method : Method
  authorization : Option (Bytes × Bytes)
  form : Bytes → Option (List Char)

/-- `mgmt_response` in `send_command`. -/
inductive Answer
  | empty
  | invalid (text : Bytes)
  | reply (r : Response)
  deriving DecidableEq, Repr

/-- What a view returns. -/
inductive HttpResponse
  | unauthorized
  | command (command : Bytes) (response : Answer) (terminalPrefix : Bytes)
  | form (cmd_path_menu : Bytes) (cmd : Ref)
  | menu (cmd_path_menu : Bytes) (cmds : Ref)
  | resource (resource : Bytes) (commands : Ref) (terminalPrefix : Bytes)
  | index (showinfo : Bytes)
  | api (commands : Ref) (terminalPrefix : Bytes) (showinfo : Option Response)
  | home (cmds : List Bytes)
  | history (history : List PyStr)
  | help (cmds : List Ref)
  deriving DecidableEq, Repr

/-- The dictionaries that the views read. -/
structure Site where
  heap : Heap
  help_tree : Ref
  help_list : List Ref

variable {n : ℕ}

/-- A view function. -/
def View (n : ℕ) : Type := Request → Act (Vde2Mgmt n) HttpResponse

/-- `@requires_auth`. -/
def requiresAuth [Hashlib] (f : View n) : View n := fun request =>
  match request.authorization with
  | none => return .unauthorized
  | some (username, password) => do
    if ← Vde2Mgmt.authenticate username password then f request else return .unauthorized

/-! ## Commands -/

/-- The variables of the loop in `send_command`. -/
structure Line where
  send_command : PyStr
  cmd_is_correct : Bool := true
  mgmt_response : Answer := .empty
  deriving DecidableEq, Repr

/-- What a missing required argument is answered with. -/
def requiredText (i : Bytes) : Bytes :=
  "Invalid: argument ".toList ++ i ++ " is required!".toList

/-- `for i in cmd_dict['args']`. A value is put after the command; an empty one is an
error if the argument is required. -/
def readArgs (request : Request) : List Bytes → Line → Act (Vde2Mgmt n) Line
  | [], v => pure v
  | i :: args, v => do
    let value ← Act.ofOption (request.form i) .keyError 59
    if value ≠ [] then
      let send_command ← Act.ofOption (v.send_command.add ⟨true, ' ' :: value⟩) .unicodeDecodeError 60
      readArgs request args { v with send_command := send_command }
    else if Vde2Mgmt.isRequiredArg i then
      readArgs request args { v with
        cmd_is_correct := false
        mgmt_response := .invalid (requiredText i) }
    else readArgs request args v

/-- What a `for` loop over the value goes through. -/
def Val.iter (h : Heap) : Val → Option (List Bytes)
  | .int _ => none
  | .str s => some (s.map fun c => [c])
  | .list l => some l
  | .dict r => some (h.dict r).keys

/-- `cmd_dict['cmd']`. A value that is not a string raises when it is used. -/
def cmdOf (h : Heap) (cmd_dict : Ref) (line : ℕ) : Act (Vde2Mgmt n) Bytes :=
  match h.get cmd_dict "cmd".toList with
  | some (.str b) => pure b
  | some _ => Act.raise .typeError line
  | none => Act.raise .keyError line

/-- `cmd_dict['args']`, iterated over. -/
def argsOf (h : Heap) (cmd_dict : Ref) : Act (Vde2Mgmt n) (List Bytes) := do
  let v ← Act.ofOption (h.get cmd_dict "args".toList) .keyError 58
  Act.ofOption (v.iter h) .typeError 58

/-- The branch of `send_command` for a POST. -/
def postCommand (h : Heap) (cmd_dict : Ref) (request : Request) : Act (Vde2Mgmt n) Answer := do
  let cmd ← cmdOf h cmd_dict 56
  let args ← argsOf h cmd_dict
  let v ← readArgs request args ⟨.str cmd, true, .empty⟩
  if v.cmd_is_correct then
    match ← Vde2Mgmt.send v.send_command with
    | some r => return .reply r
    | none => return .empty
  else return v.mgmt_response

section

variable [Hashlib]

/-- `send_command(k, cmd_dict, mgmt)`. -/
def sendCommand (h : Heap) (cmd_dict : Ref) : View n := requiresAuth fun request => do
  let mgmt_response ← (if request.method = .post then postCommand h cmd_dict request
    else pure .empty)
  let cmd ← cmdOf h cmd_dict 69
  return .command cmd mgmt_response (← Act.get).SYS_INFO.terminalPrefix

/-- `cmds_form(cmd_string, cmd_dict)`. -/
def cmdsForm (h : Heap) (cmd_string : Bytes) (cmd_dict : Ref) : View n := requiresAuth fun _ =>
  if h.isLeaf cmd_dict then return .form cmd_string cmd_dict
  else return .menu cmd_string cmd_dict

/-- `cmds_api(cmd_string, cmd_dict)`. -/
def cmdsApi (cmd_string : Bytes) (cmd_dict : Ref) : View n := requiresAuth fun _ => do
  return .resource cmd_string cmd_dict (← Act.get).SYS_INFO.terminalPrefix

/-! ## Fixed pages -/

/-- `/`. A failed `showinfo` is a string, which has no `text`. -/
def index : View n := requiresAuth fun _ => do
  let res ← Act.ofOption (← Vde2Mgmt.showinfo) .typeError 122
  return .index res.text

/-- `/api`. -/
def api (help_tree : Ref) : View n := requiresAuth fun _ => do
  let res ← Vde2Mgmt.showinfo
  return .api help_tree (← Act.get).SYS_INFO.terminalPrefix res

/-- `/__home`. -/
def home (h : Heap) (help_tree : Ref) : View n := requiresAuth fun _ =>
  return .home (h.dict help_tree).keys

/-- `/__history`. -/
def history : View n := requiresAuth fun _ => do
  return .history (← Act.get).HISTORY_HTML

/-- `/__help`. -/
def help (help_list : List Ref) : View n := requiresAuth fun _ =>
  return .help help_list

end

/-! ## Rules -/

/-- A view with the variables it closes over. -/
inductive Handler
  | index | api | home | history | help
  | sendCommand (cmd_dict : Ref)
  | cmdsForm (cmd_string : Bytes) (cmd_dict : Ref)
  | cmdsApi (cmd_string : Bytes) (cmd_dict : Ref)
  deriving DecidableEq, Repr

/-- What the view does. -/
def Handler.view [Hashlib] (site : Site) : Handler → View n
  | .index => Vdetelweb.index
  | .api => Vdetelweb.api site.help_tree
  | .home => Vdetelweb.home site.heap site.help_tree
  | .history => Vdetelweb.history
  | .help => Vdetelweb.help site.help_list
  | .sendCommand cmd_dict => Vdetelweb.sendCommand site.heap cmd_dict
  | .cmdsForm cmd_string cmd_dict => Vdetelweb.cmdsForm site.heap cmd_string cmd_dict
  | .cmdsApi cmd_string cmd_dict => Vdetelweb.cmdsApi cmd_string cmd_dict

/-- What `add_url_rule` is given. -/
structure Rule where
  rule : Bytes
  endpoint : Bytes
  handler : Handler
  method : Method
  deriving DecidableEq, Repr

/-- The rule for a command. -/
def postRule (new_path : Bytes) (v : Ref) : Rule :=
  ⟨"/api".toList ++ new_path, new_path, .sendCommand v, .post⟩

/-- The rule for a page. -/
def pageRule (new_path k : Bytes) (v : Ref) : Rule :=
  ⟨new_path, "menu_".toList ++ new_path, .cmdsForm k v, .get⟩

/-- The rule for a resource. -/
def apiRule (new_path k : Bytes) (v : Ref) : Rule :=
  ⟨"/api".toList ++ new_path, "api_".toList ++ new_path, .cmdsApi k v, .get⟩

/-- `create_commands_urls(mgmt, commands_dict_tree, path)`, `none` when it recurses more
than `depth` levels deep. Python does not say in which order `items()` come. -/
def createCommandsUrls (h : Heap) : ℕ → Ref → Bytes → Option (List Rule)
  | 0, _, _ => none
  | depth + 1, commands_dict_tree, path =>
    Walk.gather ((h.dict commands_dict_tree).entries.map fun e =>
      match e.2 with
      | .dict v => do
        let new_path := path ++ '/' :: e.1
        -- what is below a record is not visited
        let rules ← if h.isLeaf v then pure [postRule new_path v]
          else createCommandsUrls h depth v new_path
        return rules ++ [pageRule new_path e.1 v, apiRule new_path e.1 v]
      | _ => some [])

/-- The rules of the fixed pages. -/
def fixedRules : List Rule :=
  [⟨"/".toList, "index".toList, .index, .get⟩,
    ⟨"/api".toList, "api".toList, .api, .get⟩,
    ⟨"/__home".toList, "home".toList, .home, .get⟩,
    ⟨"/__history".toList, "history".toList, .history, .get⟩,
    ⟨"/__help".toList, "help".toList, .help, .get⟩]

/-- `web(mgmt_object)` after `list_commands`, up to `app.run`: what the views read, and the
rules. -/
def webUrls (depth : ℕ) (help_list : List Record) : Act (Vde2Mgmt n) (Site × List Rule) := do
  let (heap, help_tree) ← Vde2Mgmt.commandsTree
  let rules ← Act.ofOption (createCommandsUrls heap depth help_tree []) .runtimeError 41
  return (⟨heap, help_tree, List.range help_list.length⟩, fixedRules ++ rules)

/-- `web(mgmt_object)`. -/
def web (depth : ℕ) : Act (Vde2Mgmt n) (Site × List Rule) := do
  let help_list ← Vde2Mgmt.listCommands
  webUrls depth help_list

/-- Does Flask call the view of the rule for a request with this method? -/
def Rule.takes (r : Rule) (m : Method) : Bool := m = r.method || (r.method = .get && m = .head)

end Vdetelweb
