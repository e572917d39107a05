import Vdetelweb.Lib.Act
import Vdetelweb.Lib.Trim

/-!
# What the program takes from Python 2

Exceptions, strings, and the receiving end of a stream socket. A `str` is a list of
bytes, a `unicode` a list of code points; both are written as `List Char`, a byte being
the character of that number.
-/

namespace Vdetelweb

/-- A `str`: one character for each byte. -/
abbrev Bytes := List Char

/-- The exceptions the modelled code can meet. -/
inductive Exc
  | attributeError | indexError | keyError | nameError | runtimeError | typeError
  | unicodeDecodeError | unicodeEncodeError
  deriving DecidableEq, Repr

/-- How a call ends. -/
abbrev Out : Type → Type := Effect.Out Exc

/-- A piece of code over a state. -/
abbrev Act (σ : Type) : Type → Type := Effect.Act Exc σ

namespace Act

export Effect.Act (get modify raise ofOption attempt pure_apply get_apply modify_apply raise_apply
  ofOption_apply bind_apply attempt_apply bind_eq_ret bind_state)

end Act

/-! ## Strings -/

/-- A Python 2 string, `str` or `unicode`. -/
structure PyStr where
  unicode : Bool
  text : List Char
  deriving DecidableEq, Repr

/-- A `str` as a string. -/
def PyStr.str (b : Bytes) : PyStr := ⟨false, b⟩

/-- Is the character in the ASCII range, the default encoding of Python 2? -/
def isAscii (c : Char) : Bool := c.toNat < 128

/-- The blanks that `strip` removes: those of the C locale from a `str`, those of
the Unicode database from a `unicode`. -/
def isSpace (unicode : Bool) (c : Char) : Bool :=
  c = ' ' || (9 ≤ c.toNat && c.toNat ≤ 13) ||
    unicode && ((0x1c ≤ c.toNat && c.toNat ≤ 0x1f) ||
      c.toNat ∈ [0x85, 0xa0, 0x1680, 0x180e, 0x2028, 0x2029, 0x202f, 0x205f, 0x3000] ||
      (0x2000 ≤ c.toNat && c.toNat ≤ 0x200a))

/-- `s.strip()`. -/
def PyStr.strip (s : PyStr) : PyStr := ⟨s.unicode, Trim.trim (isSpace s.unicode) s.text⟩

/-- `strip` on a `str`. -/
def strip (b : Bytes) : Bytes := Trim.trim (isSpace false) b

/-- `s + t`: a `str` that meets a `unicode` is decoded first, and must be ASCII. -/
def PyStr.add (s t : PyStr) : Option PyStr :=
  if s.unicode = t.unicode then some ⟨s.unicode, s.text ++ t.text⟩
  else if (if s.unicode then t.text else s.text).all isAscii then some ⟨true, s.text ++ t.text⟩
  else none

/-- Can the socket send the string? A `unicode` is encoded first, as ASCII. -/
def PyStr.sendable (s : PyStr) : Bool := !s.unicode || s.text.all isAscii

@[simp] theorem PyStr.str_unicode (b : Bytes) : (PyStr.str b).unicode = false := rfl
@[simp] theorem PyStr.str_text (b : Bytes) : (PyStr.str b).text = b := rfl
@[simp] theorem PyStr.strip_unicode (s : PyStr) : s.strip.unicode = s.unicode := rfl
@[simp] theorem str_strip (b : Bytes) : (PyStr.str b).strip = PyStr.str (strip b) := rfl
@[simp] theorem PyStr.sendable_str (b : Bytes) : (PyStr.str b).sendable = true := rfl

/-! ## Receiving -/

/-- What one `recv(n)` returns while there is data: between one and `n` bytes. -/
abbrev Chunk (n : ℕ) := {b : Bytes // b ≠ [] ∧ b.length ≤ n}

/-- The bytes of a sequence of chunks. -/
def joined {n : ℕ} (cs : List (Chunk n)) : Bytes := cs.flatMap Subtype.val

/-- The receiving end of a socket read with `recv(n)`: the chunks its calls return,
and whether the peer has closed after them. -/
structure Stream (n : ℕ) where
  chunks : List (Chunk n)
  eof : Bool
  deriving DecidableEq

variable {n : ℕ}

/-- The bytes still to be received. -/
def Stream.bytes (s : Stream n) : Bytes := joined s.chunks

/-- `socket.recv(n)`: the next chunk, the empty string at end of file, and nothing
at all (`none`: the call waits) on an open socket without data. -/
def Stream.recv (s : Stream n) : Option Bytes × Stream n :=
  match s.chunks with
  | c :: cs => (some c.1, { s with chunks := cs })
  | [] => (if s.eof then some [] else none, s)

@[simp] theorem joined_nil : joined ([] : List (Chunk n)) = [] := rfl

@[simp] theorem joined_cons (c : Chunk n) (cs : List (Chunk n)) :
    joined (c :: cs) = c.1 ++ joined cs := by simp [joined]

@[simp] theorem joined_append (cs ds : List (Chunk n)) :
    joined (cs ++ ds) = joined cs ++ joined ds := by simp [joined]

@[simp] theorem joined_eq_nil {cs : List (Chunk n)} : joined cs = [] ↔ cs = [] := by
  cases cs with
  | nil => simp
  | cons c cs => simp [c.2.1]

end Vdetelweb
