import Vdetelweb.Lib.Numeral
import Vdetelweb.Spec.Py

/-!
# IPv6 addresses as text

`ipv6_address_str_to_array` of `lwipv6adapter.py` and `maskToCidr6` of `pyco-wrapper` read an
address with the same three loops. `none` is the `ValueError` of `int`.
-/

namespace Vdetelweb

/-- `int(s, 16)`: blanks, a sign, `0x`, and the digits. -/
def int16 (s : Bytes) : Option ℤ :=
  match strip s with
  | '-' :: s => (unsigned (strip s)).map fun n => -(n : ℤ)
  | '+' :: s => (unsigned (strip s)).map fun n => (n : ℤ)
  | s => (unsigned s).map fun n => (n : ℤ)
where
  unsigned : Bytes → Option ℕ
    | '0' :: 'x' :: s => digits s
    | '0' :: 'X' :: s => digits s
    | s => digits s
  digits (s : Bytes) : Option ℕ := if s = [] then none else Numeral.hexNat 0 s

/-- `bin(v)`. -/
def bin (v : ℤ) : Bytes := (if v < 0 then ['-'] else []) ++ ['0', 'b'] ++ Nat.toDigits 2 v.natAbs

namespace Ipv6

/-- The first loop: the pieces before the first that is empty, and the index behind it. -/
def beforeGap : List Bytes → ℕ → List ℤ → Option (List ℤ × ℕ)
  | [], index, address => some (address, index)
  | integer :: split, index, address =>
    if integer = [] then some (address, index + 1)
    else do beforeGap split (index + 1) (address ++ [← int16 integer])

/-- The second loop: zeros, as long as there is room before the pieces that are left. -/
def pad (room : ℕ) (address : List ℤ) : List ℤ :=
  if address.length < room then pad room (address ++ [0]) else address
termination_by room - address.length
decreasing_by simp only [List.length_append, List.length_singleton]; omega

/-- The third loop: the pieces that are left. -/
def behindGap : List Bytes → List ℤ → Option (List ℤ)
  | [], address => some address
  | integer :: split, address =>
    if integer = [] then behindGap split (address ++ [0])
    else do behindGap split (address ++ [← int16 integer])

/-- The three loops. -/
def toArray (original_address : Bytes) : Option (List ℤ) := do
  let split := original_address.splitOn ':'
  let (address, index) ← beforeGap split 0 []
  behindGap (split.drop index) (pad (8 - (split.drop index).length) address)

end Ipv6

/-- `Lwipv6Adapter.ipv6_address_str_to_array`. -/
def ipv6_address_str_to_array (original_address : Bytes) : Option (List ℤ) := Ipv6.toArray original_address

/-- `maskToCidr6`. -/
def maskToCidr6 (mask : Bytes) : Option ℕ := do
  let array ← Ipv6.toArray mask
  return array.foldl (fun count value => count + (bin value).count '1') 0

/-! ## Textual forms -/

/-- An address: eight groups. -/
structure Ipv6Address where
  groups : List (BitVec 16)
  eight : groups.length = 8

/-- A group as text: hexadecimal digits, in either case, with or without zeros in front. -/
structure HexGroup where
  text : Bytes
  nonempty : text ≠ []
  digits : ∀ c ∈ text, (Numeral.hexDigit c).isSome
  small : Numeral.hexValue text < 2 ^ 16

/-- The group. -/
def HexGroup.value (h : HexGroup) : BitVec 16 := BitVec.ofNatLT (Numeral.hexValue h.text) h.small

/-- A textual form of an address: all groups, or those before and after a `::` that stands for one
zero or more. -/
inductive Ipv6Text
  | full (groups : List HexGroup) (eight : groups.length = 8)
  | compressed (before after : List HexGroup) (room : before.length + after.length < 8)

namespace Ipv6Text

/-- Groups with a `:` between them. -/
def join (groups : List HexGroup) : Bytes := [':'].intercalate (groups.map HexGroup.text)

def text : Ipv6Text → Bytes
  | full groups _ => join groups
  | compressed before after _ => join before ++ [':', ':'] ++ join after

/-- The address that the text stands for. -/
def address : Ipv6Text → Ipv6Address
  | full groups eight => ⟨groups.map HexGroup.value, by rw [List.length_map, eight]⟩
  | compressed before after room =>
    ⟨before.map HexGroup.value ++ List.replicate (8 - (before.length + after.length)) 0 ++
      after.map HexGroup.value, by simp only [List.length_append, List.length_map, List.length_replicate]; omega⟩

end Ipv6Text

end Vdetelweb
