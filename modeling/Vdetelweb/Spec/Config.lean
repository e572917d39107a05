import Vdetelweb.Lib.Lines
import Vdetelweb.Spec.Mgmt

/-!
# `parseConfig`

The reader of the configuration file (`utils.py`). The text of the file is what `open` and
`readlines` find there. Line numbers are those of `utils.py`.
-/

namespace Vdetelweb

/-- A dictionary of strings. -/
abbrev ConfigDict := Bytes → Option Bytes

/-- The default configuration. -/
def defaultConfig : ConfigDict := fun key =>
  if key = "username".toList then some "admin".toList
  else if key = "ip".toList then some "10.40.0.55".toList
  else if key = "netmask".toList then some "255.255.255.0".toList
  else if key = "stack".toList then some "picotcp".toList
  else none

/-- `f.readlines()`: every line with its newline, which the last may lack. -/
def readlines : Bytes → List Bytes
  | [] => []
  | c :: b =>
    if c = '\n' then ['\n'] :: readlines b
    else match readlines b with
      | [] => [[c]]
      | l :: ls => (c :: l) :: ls

/-- One pass through the loop. `utils.py` does not import `log`. -/
def readConfigLine (line : Bytes) : Act ConfigDict Unit :=
  let line := strip line
  if line = [] ∨ line.head? = some '#' then pure ()
  else if '=' ∈ line then
    let chunck := Lines.cut '=' line
    Act.modify fun config => Function.update config (strip chunck.1) (some (strip chunck.2))
  else Act.raise .nameError 76

/-- `for line in fconfig_text`. -/
def readConfigLines : List Bytes → Act ConfigDict Unit
  | [] => pure ()
  | line :: fconfig_text => do
    readConfigLine line
    readConfigLines fconfig_text

/-- `parseConfig`, on a file with this text. Whatever ends the loop, the `finally` clause
returns what has been read. -/
def parseConfig (file : Bytes) : ConfigDict :=
  (Act.attempt (readConfigLines (readlines file)) defaultConfig).2

/-- What `authenticate` sees of the dictionary. -/
def Config.ofDict (config : ConfigDict) : Option Config :=
  (config "username".toList).map fun username => ⟨username, config "password".toList⟩

end Vdetelweb
