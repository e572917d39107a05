import Vdetelweb.Lib.Runs
import Vdetelweb.Spec.Py

/-!
# `DeviceInfo` of `pycotcp.py`

The adapter is modelled by what it holds for one object. Each of its calls either raises, and
then does nothing, or does what its name says. Deleting a device or an address that it does not
hold has no effect. The lines are those of `pycotcp.py`; what is printed is left out.
-/

namespace Vdetelweb

/-- A device that the adapter has made. -/
structure Device where
  type : Option Bytes
  name : Option Bytes
  path : Option Bytes
  deriving DecidableEq, Repr

/-- An address that the adapter has put on a device, and by which of `linkAddIp6` and
`linkAddIp4`. -/
structure Link where
  ipv6 : Bool
  name : Option Bytes
  address : Option Bytes
  netmask : Option Bytes
  deriving DecidableEq, Repr

/-- What `linkDelIp6` or `linkDelIp4` is told of an address. -/
structure LinkKey where
  ipv6 : Bool
  name : Option Bytes
  address : Option Bytes
  deriving DecidableEq, Repr

def Link.key (l : Link) : LinkKey := ⟨l.ipv6, l.name, l.address⟩

/-- The devices and addresses that the adapter holds for the object, with the address that was
added since the last device was made, and the calls of `linkDel` that have returned. -/
structure DeviceContext where
  devices : List Device := []
  addresses : List Link := []
  added : Option Link := none
  removed : List LinkKey := []
  deriving DecidableEq, Repr

structure DeviceInfo where
  device_type : Option Bytes := none
  device_name : Option Bytes := none
  device_path : Option Bytes := none
  address : Option Bytes := none
  netmask : Option Bytes := none
  is_ipv6 : Bool := false
  created : Bool := false
  context : DeviceContext := {}
  deriving DecidableEq, Repr

/-- The truth value of a string or `None`. -/
def truthy (s : Option Bytes) : Bool := s.any (· ≠ [])

namespace DeviceContext

variable (a : DeviceContext)

def createDevice (type name path : Option Bytes) : DeviceContext :=
  { a with devices := a.devices ++ [⟨type, name, path⟩], added := none }

def linkAdd (l : Link) : DeviceContext := { a with addresses := a.addresses ++ [l], added := some l }

def linkDel (k : LinkKey) : DeviceContext :=
  { a with addresses := a.addresses.eraseP fun l => l.key = k, removed := a.removed ++ [k] }

def deleteDevice (name : Option Bytes) : DeviceContext :=
  { a with devices := a.devices.eraseP fun device => device.name = name }

end DeviceContext

namespace DeviceInfo

/-- `__init__`, for a context that holds nothing of the object. -/
def new (device_type device_name device_path address netmask : Option Bytes) (is_ipv6 : Bool) : DeviceInfo :=
  { device_type, device_name, device_path, address, netmask, is_ipv6 }

/-- A call of the adapter at a line, with what it raises. -/
def callContext (exc : Option Exc) (line : ℕ) (f : DeviceContext → DeviceContext) : Act DeviceInfo Unit :=
  match exc with
  | some e => Act.raise e line
  | none => Act.modify fun d => { d with context := f d.context }

def with_type (device_type : Option Bytes) : Act DeviceInfo Unit := Act.modify ({ · with device_type })

def with_name (device_name : Option Bytes) : Act DeviceInfo Unit := Act.modify ({ · with device_name })

def with_path (device_path : Option Bytes) : Act DeviceInfo Unit := Act.modify ({ · with device_path })

def with_address (address : Option Bytes) : Act DeviceInfo Unit :=
  match address with
  | none => Act.raise .typeError 71
  | some s => Act.modify ({ · with is_ipv6 := decide (':' ∈ s), address := some s })

def with_netmask (netmask : Option Bytes) : Act DeviceInfo Unit :=
  match netmask with
  | none => Act.raise .typeError 80
  | some s => Act.modify ({ · with is_ipv6 := decide (':' ∈ s), netmask := some s })

def set_ipv6 (is_ipv6 : Bool) : Act DeviceInfo Unit := Act.modify ({ · with is_ipv6 })

/-- `create`, with what `createDevice` and `linkAdd` raise. -/
def create (createDevice linkAdd : Option Exc) : Act DeviceInfo Unit := do
  let d ← Act.get
  if d.created = false then
    callContext createDevice 96 (·.createDevice d.device_type d.device_name d.device_path)
    if truthy d.address then
      callContext linkAdd (if d.is_ipv6 then 100 else 102)
        (·.linkAdd ⟨d.is_ipv6, d.device_name, d.address, d.netmask⟩)
    Act.modify ({ · with created := true })

/-- `destroy`, with what `linkDel` and `deleteDevice` raise. -/
def destroy (linkDel deleteDevice : Option Exc) : Act DeviceInfo Unit := do
  let d ← Act.get
  if d.created = true then
    if truthy d.address then
      callContext linkDel (if d.is_ipv6 then 113 else 115) (·.linkDel ⟨d.is_ipv6, d.device_name, d.address⟩)
    callContext deleteDevice 117 (·.deleteDevice d.device_name)
    Act.modify ({ · with created := false })

end DeviceInfo

/-- A call of a method of the object. -/
inductive DeviceCall
  | with_type (device_type : Option Bytes)
  | with_name (device_name : Option Bytes)
  | with_path (device_path : Option Bytes)
  | with_address (address : Option Bytes)
  | with_netmask (netmask : Option Bytes)
  | set_ipv6 (is_ipv6 : Bool)
  | create (createDevice linkAdd : Option Exc)
  | destroy (linkDel deleteDevice : Option Exc)

/-- How a call ends, and the object after it. -/
def DeviceInfo.call (d : DeviceInfo) : DeviceCall → Out Unit × DeviceInfo
  | .with_type s => with_type s d
  | .with_name s => with_name s d
  | .with_path s => with_path s d
  | .with_address s => with_address s d
  | .with_netmask s => with_netmask s d
  | .set_ipv6 b => set_ipv6 b d
  | .create f g => create f g d
  | .destroy f g => destroy f g d

/-- The object after a call. -/
def DeviceInfo.step (d : DeviceInfo) (c : DeviceCall) : DeviceInfo := (d.call c).2

end Vdetelweb
