import Vdetelweb.Spec.PicoTree

/-!
# The routes of the stack

The table of routes of `pico_ipv4.c`, which is a tree: `pico_ipv4_route_add`, `pico_ipv4_route_del`, the
search for a route, and what becomes of the table when a link is deleted. An address is what is in memory,
in network order, and the machine is little-endian.
-/

namespace Vdetelweb

open Trees

/-- `struct pico_ip4`. -/
abbrev Ip4 := BitVec 32

/-- `long_be`. -/
def long_be (le : BitVec 32) : BitVec 32 :=
  le.extractLsb' 0 8 ++ le.extractLsb' 8 8 ++ le.extractLsb' 16 8 ++ le.extractLsb' 24 8

/-- `PICO_IP4_BCAST`. -/
def PICO_IP4_BCAST : Ip4 := 0xffffffff

/-- `struct pico_ipv4_route`. A link is its address, and there may be none. -/
structure Route where
  dest : Ip4
  netmask : Ip4
  gateway : Ip4
  link : Option ℕ
  metric : BitVec 32
  deriving DecidableEq, Repr

/-- `pico_ipv4_compare`. -/
def pico_ipv4_compare (a b : Ip4) : ℤ := if a.toNat < b.toNat then -1 else if b.toNat < a.toNat then 1 else 0

/-- `ipv4_route_compare`. -/
def ipv4_route_compare (a b : Route) : ℤ :=
  let a_nm := (long_be a.netmask).toNat
  let b_nm := (long_be b.netmask).toNat
  if a_nm < b_nm then -1
  else if b_nm < a_nm then 1
  else
    let cmp := pico_ipv4_compare a.dest b.dest
    if cmp ≠ 0 then cmp
    else if a.metric.toNat < b.metric.toNat then -1
    else if b.metric.toNat < a.metric.toNat then 1
    else 0

/-- The errors of the calls. -/
inductive RouteErr
  | PICO_ERR_EINVAL
  | PICO_ERR_ENOMEM
  | PICO_ERR_EHOSTUNREACH
  | PICO_ERR_ENETUNREACH
  deriving DecidableEq, Repr

/-- The table, and the link of `default_bcast_route`. -/
structure Routing where
  routes : PicoTree Route
  bcast : Option ℕ

namespace Routing

/-- `default_bcast_route`. -/
def default_bcast_route (bcast : Option ℕ) : Route := ⟨PICO_IP4_BCAST, PICO_IP4_BCAST, 0, bcast, 1000⟩

/-- Does the route lead to the address? -/
def leads (addr : Ip4) (r : Route) : Bool := addr &&& r.netmask = r.dest

/-- The loop of `route_find`. -/
def findLoop (t : PicoTree Route) (addr : Ip4) : ℕ → ℕ → Option (Option Route)
  | 0, _ => none
  | turns + 1, index =>
    if index = LEAF then some none
    else do
      let n ← t.node index
      let r ← n.value.keyValue
      if leads addr r then some (some r)
      else do
        let index ← t.prevNode index
        findLoop t addr turns index

variable (s : Routing)

/-- **`route_find`.** -/
def route_find (addr : Ip4) : Option (Option Route) :=
  if addr ≠ PICO_IP4_BCAST then do
    let index ← s.routes.lastNode s.routes.root
    findLoop s.routes addr (s.routes.next + 1) index
  else some (some (default_bcast_route s.bcast))

/-- What is looked for in the table. The gateway and the link are not set. -/
def test (address netmask : Ip4) (metric : BitVec 32) : Route := ⟨address, netmask, 0, none, metric⟩

/-- The link of a new route. -/
def newLink (gateway : Ip4) (link : Option ℕ) : Option (Except RouteErr (Option ℕ)) :=
  if gateway = 0 then some (.ok link)
  else do
    match ← s.route_find gateway with
    | none => some (.error .PICO_ERR_EHOSTUNREACH)
    | some r => some (if r.gateway ≠ 0 then .error .PICO_ERR_ENETUNREACH else .ok r.link)

/-- **`pico_ipv4_route_add`**. `zalloc` says whether it is given memory for the route, and `node` for a node of
the tree. What `pico_tree_insert` returns is not looked at. -/
def pico_ipv4_route_add (zalloc node : Bool) (address netmask gateway : Ip4) (metric : BitVec 32) (link : Option ℕ) :
    Option (Except RouteErr Unit × Routing) := do
  match ← s.routes.findKey ipv4_route_compare (test address netmask metric) with
  | some _ => some (.error .PICO_ERR_EINVAL, s)
  | none =>
    if zalloc then do
      match ← s.newLink gateway link with
      | .error e => some (.error e, s)
      | .ok none => some (.error .PICO_ERR_EINVAL, s)
      | .ok (some l) => do
        let (_, t) ← s.routes.insert ipv4_route_compare node ⟨address, netmask, gateway, some l, metric⟩
        some (.ok (), { s with routes := t })
    else some (.error .PICO_ERR_ENOMEM, s)

/-- **`pico_ipv4_route_del`.** -/
def pico_ipv4_route_del (address netmask : Ip4) (metric : BitVec 32) : Option (Except RouteErr Unit × Routing) := do
  match ← s.routes.findKey ipv4_route_compare (test address netmask metric) with
  | some found => do
    let (_, t) ← s.routes.delete ipv4_route_compare found
    some (.ok (), { s with routes := t })
  | none => some (.error .PICO_ERR_EINVAL, s)

/-- The loop of `pico_ipv4_cleanup_routes`. -/
def cleanupLoop (link : ℕ) : ℕ → ℕ → Routing → Option Routing
  | 0, _, _ => none
  | turns + 1, index, s =>
    if index = LEAF then some s
    else do
      let tmp ← s.routes.nextNode index
      let n ← s.routes.node index
      let route ← n.value.keyValue
      let (_, s) ← if route.link = some link then s.pico_ipv4_route_del route.dest route.netmask route.metric
        else some (.ok (), s)
      cleanupLoop link turns tmp s

/-- `pico_ipv4_cleanup_routes`. -/
def pico_ipv4_cleanup_routes (link : ℕ) : Option Routing := do
  let index ← s.routes.firstNode s.routes.root
  cleanupLoop link (s.routes.next + 1) index s

/-- The end of `pico_ipv4_link_del`, from where the link was found. -/
def dropLink (link : ℕ) : Option Routing := do
  let s ← s.pico_ipv4_cleanup_routes link
  some (if s.bcast = some link then { s with bcast := none } else s)

/-! ## Calls -/

/-- A call on the table. `elsewhere` is what another tree does to `LEAF`. -/
inductive Call
  | add (zalloc node : Bool) (address netmask gateway : Ip4) (metric : BitVec 32) (link : Option ℕ)
  | del (address netmask : Ip4) (metric : BitVec 32)
  | find (addr : Ip4)
  | setBcast (link : ℕ)
  | dropLink (link : ℕ)
  | elsewhere (color : Color)

/-- What it returns. -/
inductive Answer
  | code (r : Except RouteErr Unit)
  | route (r : Option Route)
  | nothing

/-- The call. -/
def call : Call → Option (Answer × Routing)
  | .add zalloc node address netmask gateway metric link =>
    (s.pico_ipv4_route_add zalloc node address netmask gateway metric link).map fun r => (.code r.1, r.2)
  | .del address netmask metric => (s.pico_ipv4_route_del address netmask metric).map fun r => (.code r.1, r.2)
  | .find addr => (s.route_find addr).map fun r => (.route r, s)
  | .setBcast link => some (.nothing, { s with bcast := some link })
  | .dropLink link => (s.dropLink link).map fun s => (.nothing, s)
  | .elsewhere color => (s.routes.setColor LEAF color).map fun t => (.nothing, { s with routes := t })

/-- Calls one after the other. -/
def run (s : Routing) : List Call → Option (List Answer × Routing)
  | [] => some ([], s)
  | c :: cs => do
    let (answer, s) ← s.call c
    let (answers, s) ← run s cs
    some (answer :: answers, s)

/-- No route, and no link for broadcasts. -/
def init (color : Color) : Routing := ⟨PicoTree.empty color, none⟩

end Routing

end Vdetelweb
