import Vdetelweb.Lib.Lines
import Vdetelweb.Spec.Py

/-!
# `get_response`

The reader of the management protocol (`utils.py`). `readLine` is the cascade that
every line goes through, `responseLoop` the loop that takes lines off the buffer
and refills it from the socket. Exceptions carry the line of `utils.py` that
raises them.
-/

namespace Vdetelweb

/-- The dictionary `get_response` returns. -/
structure Response where
  raw : Bytes
  text : Bytes
  status : Bytes
  text_status : Bytes
  deriving DecidableEq, Repr

/-- The variables of `get_response` that live across lines. `end_char` is `none`
while it is still `False`. -/
structure Locals where
  end_char : Option Bytes := none
  is_end : Bool := false
  text : Bytes := []
  status : Bytes := []
  raw : Bytes := []
  text_status : Bytes := []
  deriving DecidableEq, Repr

/-- The dictionary built from the variables. -/
def Locals.response (v : Locals) : Response := ⟨v.raw, v.text, v.status, v.text_status⟩

/-- What a header line contains. -/
def headerText : Bytes := "0000 DATA END WITH".toList

/-- `line[0]=='0' and line.find('0000 DATA END WITH') > -1`, on a non-empty line. -/
def isHeader (line : Bytes) : Bool := line.head? = some '0' && headerText <:+: line

/-- `line[i]>='0' and line[i]<='9'`, or the source line of the index error. -/
def digitAt (l : Bytes) (i : ℕ) : Except ℕ Bool :=
  match l[i]? with
  | some c => .ok ('0' ≤ c && c ≤ '9')
  | none => .error (24 + i)

/-- `a and b`, where evaluating either may raise. -/
def andThen (a b : Except ℕ Bool) : Except ℕ Bool :=
  match a with
  | .ok true => b
  | r => r

/-- `s <= t`, by the first character that differs. -/
def strLe : Bytes → Bytes → Bool
  | [], _ => true
  | _ :: _, [] => false
  | a :: s, b :: t => a < b || a = b && strLe s t

/-- The status test, on a non-empty line. -/
def isStatus (line : Bytes) : Except ℕ Bool :=
  -- the second comparison is with the line, not with its first character
  andThen (.ok (line.head?.any ('0' < ·) && strLe line ['9']))
    (andThen (digitAt line 1) (andThen (digitAt line 2) (digitAt line 3)))

/-- The cascade for one line: go on (`ok`), or leave the loop (`error`) by returning
the dictionary or by raising. -/
def readLine (v : Locals) (line : Bytes) : Except (Out Response) Locals :=
  let v := { v with raw := v.raw ++ line ++ ['\n'] }
  if line = [] then
    -- after the end marker a blank line falls through to `line[0]`
    if v.is_end then .error (.raise .indexError 21)
    else .ok { v with text := v.text ++ ['\n'] }
  else if isHeader line then
    match (line.splitOn '\'')[1]? with
    | some e => .ok { v with end_char := some e }
    | none => .error (.raise .indexError 22)
  -- whether a data block is open does not matter here
  else match isStatus line with
    | .error l => .error (.raise .indexError l)
    | .ok true =>
      .error (.ret { v with status := line.take 4, text_status := line.drop 4 }.response)
    | .ok false =>
      if v.end_char = some line then .ok { v with is_end := true }
      else if v.is_end then .ok v
      else .ok { v with text := v.text ++ line ++ ['\n'] }

variable {n : ℕ}

theorem recv_length {s s' : Stream n} {b : Bytes} (h : s.recv = (some b, s')) (hb : b ≠ []) :
    s'.chunks.length < s.chunks.length := by
  obtain ⟨cs, e⟩ := s
  cases cs with
  | nil => cases e <;> simp_all [Stream.recv]
  | cons c cs => simp only [Stream.recv, Prod.mk.injEq] at h; rw [← h.2]; simp

/-- The loop. -/
def responseLoop (buffer : Bytes) (v : Locals) (s : Stream n) : Out Response × Stream n :=
  if _h : '\n' ∈ buffer then
    match readLine v (Lines.cut '\n' buffer).1 with
    | .ok v => responseLoop (Lines.cut '\n' buffer).2 v s
    | .error r => (r, s)
  else match _hs : s.recv with
    | (none, s) => (.block, s)
    | (some more, s') =>
      -- at end of file what has been read so far is returned
      if _hm : more = [] then (.ret v.response, s') else responseLoop (buffer ++ more) v s'
termination_by (s.chunks.length, buffer.length)
decreasing_by
  · exact Prod.Lex.right _ (Lines.cut_length ‹_›)
  · exact Prod.Lex.left _ _ (recv_length ‹_› ‹_›)

/-- **`get_response(socket, n)`.** -/
def getResponse (s : Stream n) : Out Response × Stream n :=
  match s.recv with
  | (some buffer, s) => responseLoop buffer {} s
  | (none, s) => (.block, s)

end Vdetelweb
