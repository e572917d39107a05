import Vdetelweb.Spec.Telnet
import Vdetelweb.Spec.Web

/-!
# Both front ends

The web server and the telnet server on one `Vde2Mgmt`, and a trace of what they do on
behalf of whom: every HTTP request and every telnet connection has a number.
-/

namespace Vdetelweb

/-- On whose behalf something is done. -/
inductive Peer
  | request (k : ℕ)
  | connection (k : ℕ)
  deriving DecidableEq, Repr

/-- The web server: before its rules are registered, or serving. -/
inductive Web
  | starting
  | serving (site : Site) (rules : List Rule)

/-- What happens: `web()` ends its start-up, with any command tree, and leaves the shared
object in any state; a request reaches the view of the `i`-th rule; a telnet client does
something. -/
inductive Happening (n : ℕ)
  | serve (m : Vde2Mgmt n) (site : Site) (depth : ℕ)
  | http (i : ℕ) (request : Request)
  | telnet (i : Input)

/-- The two servers, and the trace from the end of the start-up on. -/
structure Service (n : ℕ) where
  mgmt : Vde2Mgmt n
  web : Web := .starting
  telnet : Telnet := .accepting
  requests : ℕ := 0
  connections : ℕ := 0
  trace : List (Peer × Event) := []

variable {n : ℕ}

namespace Service

/-- Run a piece of code on behalf of a peer: how it ends, and the service with what was
done recorded in the trace. -/
def exec {α : Type} (w : Service n) (who : Peer) (x : Act (Vde2Mgmt n) α) : Out α × Service n :=
  ((x { w.mgmt with log := [] }).1, { w with
    mgmt := (x { w.mgmt with log := [] }).2
    trace := w.trace ++ (x { w.mgmt with log := [] }).2.log.map (Prod.mk who) })

variable [Hashlib]

/-- A request that Flask passes to the view of a rule. However the view ends, also if it waits for
ever, others reach theirs. -/
def http (w : Service n) (site : Site) (r : Rule) (request : Request) : Service n :=
  { (w.exec (.request w.requests) (r.handler.view site request)).2 with requests := w.requests + 1 }

/-- A telnet client does something; each `accept` begins a new connection. -/
def telnetStep (w : Service n) (i : Input) : Service n :=
  match w.telnet.act i with
  | some x =>
    let k := if i = .accept then w.connections + 1 else w.connections
    { (w.exec (.connection k) x).2 with
      telnet := .after (w.exec (.connection k) x).1
      connections := k }
  | none => w

/-- One step. -/
def step (w : Service n) : Happening n → Service n
  | .serve m site depth =>
    match w.web, createCommandsUrls site.heap depth site.help_tree [] with
    | .starting, some rules => { w with mgmt := m, web := .serving site (fixedRules ++ rules) }
    | _, _ => w
  | .http i request =>
    match w.web with
    | .serving site rules =>
      match rules[i]? with
      | some r => if r.takes request.method then w.http site r request else w
      | none => w
    | _ => w
  | .telnet i => w.telnetStep i

end Service

end Vdetelweb
