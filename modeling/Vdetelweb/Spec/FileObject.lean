import Vdetelweb.Spec.Send

/-!
# `_fileobject`

The file object over a socket (`socket.py`). It reads through `_rbuf` and writes through
`_wbuf`, and the two halves share nothing but the size they were made with. What `recv` meets
is a parameter: each call raises, or takes some of the bytes that are there. Line numbers are
those of `socket.py`.
-/

namespace Vdetelweb

/-- The exceptions of a call on a file object. -/
inductive FileExc
  | pyco (e : PycoExc)
  | assertionError | attributeError | stopIteration
  deriving DecidableEq, Repr

/-! ## The socket, read -/

/-- What the `k`-th call of `recv`, for `n` bytes, meets: an exception, or that it takes so many
bytes. -/
abbrev RecvAnswers := ℕ → (n : ℕ) → Except PycoExc ℕ

/-- A socket that is read: all bytes that still come, whether the peer closes after them, and
how often it was called. -/
structure Source where
  pending : Bytes
  closed : Bool
  calls : ℕ := 0
  deriving DecidableEq, Repr

variable (E : RecvAnswers)

/-- `_sock.recv(n)`. Without data it waits, unless the peer has closed. -/
def Source.recv (n : ℕ) (s : Source) : Effect.Out FileExc Bytes × Source :=
  match E s.calls n with
  | .error e => (.raise (.pyco e) 392, { s with calls := s.calls + 1 })
  | .ok count =>
    if s.pending = [] then (if s.closed then .ret [] else .block, { s with calls := s.calls + 1 })
    else (.ret (s.pending.take count), { s with pending := s.pending.drop count, calls := s.calls + 1 })

variable {E} in
/-- **What a call returns** is the front of the stream. -/
theorem Source.recv_split {n : ℕ} {s s' : Source} {data : Bytes} (h : s.recv E n = (.ret data, s')) :
    data ++ s'.pending = s.pending := by
  unfold Source.recv at h
  split at h
  · cases h
  · split at h
    · rename_i hp
      split at h <;> cases h
      rw [List.nil_append]
    · cases h
      exact List.take_append_drop ..

variable {E} in
theorem Source.recv_length {n : ℕ} {s s' : Source} {data : Bytes} (h : s.recv E n = (.ret data, s'))
    (hdata : data ≠ []) : s'.pending.length < s.pending.length := by
  have hsplit := congrArg List.length (Source.recv_split h)
  have := List.length_pos_iff.2 hdata
  rw [List.length_append] at hsplit
  omega

/-- What the body of a loop does with what it received: it puts it into `buf`, or puts so many
bytes of it there and the others into `_rbuf`, and ends, or an assertion fails. -/
inductive Turn
  | more
  | done (n : ℕ)
  | assertion
  deriving DecidableEq, Repr

/-- The loops of `read` and `readline`. They differ in the size that they ask `recv` for and in
their bodies. They end with what is returned and with `_rbuf`. -/
def recvWhile (asks : Bytes → ℕ) (turn : Bytes → Bytes → Turn) (buf : Bytes) (s : Source) :
    Effect.Out FileExc (Bytes × Bytes) × Source :=
  match _h : s.recv E (asks buf) with
  | (.raise e l, s') => (.raise e l, s')
  | (.block, s') => (.block, s')
  | (.ret data, s') =>
    if _hdata : data = [] then (.ret (buf, []), s')
    else match turn buf data with
      | .more => recvWhile asks turn (buf ++ data) s'
      | .done n => (.ret (buf ++ data.take n, data.drop n), s')
      | .assertion => (.raise .assertionError 609, s')
termination_by s.pending.length
decreasing_by exact Source.recv_length _h _hdata

/-! ## Reading -/

/-- The reading half of a file object, and its socket. A loop asks for at least one byte. -/
structure FileReader where
  rbufsize : ℕ
  pos : 0 < rbufsize
  rbuf : Bytes := []
  source : Source
  deriving DecidableEq

/-- `bufsize`, as `__init__` takes it. -/
def initBufsize (bufsize : ℤ) : ℕ := if bufsize < 0 then defaultBufsize else bufsize.toNat

/-- `_rbufsize`, as `__init__` sets it. -/
def initRbufsize (bufsize : ℤ) : ℕ :=
  if initBufsize bufsize = 0 then 1 else if initBufsize bufsize = 1 then defaultBufsize else initBufsize bufsize

theorem initRbufsize_pos (bufsize : ℤ) : 0 < initRbufsize bufsize := by
  unfold initRbufsize
  split
  · exact Nat.one_pos
  · split
    · decide
    · omega

/-- `makefile`, for reading. -/
def Source.makefile (s : Source) (bufsize : ℤ) : FileReader :=
  { rbufsize := initRbufsize bufsize, pos := initRbufsize_pos bufsize, source := s }

/-- The end of a call: what it returns, or how else it ends. In a loop `_rbuf` was new. -/
def FileReader.finish (f : FileReader) : Effect.Out FileExc (Bytes × Bytes) × Source →
    Effect.Out FileExc Bytes × FileReader
  | (.ret (value, rbuf), s) => (.ret value, { f with rbuf := rbuf, source := s })
  | (.raise e l, s) => (.raise e l, { f with rbuf := [], source := s })
  | (.block, s) => (.block, { f with rbuf := [], source := s })

/-- The body of `read`, up to `size` bytes. -/
def readTurn (size : ℕ) (buf data : Bytes) : Turn :=
  let left := size - buf.length
  if data.length = size ∧ buf = [] then .done data.length
  else if data.length = left then .done data.length
  else if ¬ data.length ≤ left then .assertion
  else .more

/-- **`_fileobject.read`.** -/
def FileReader.read (size : ℤ) (f : FileReader) : Effect.Out FileExc Bytes × FileReader :=
  if size < 0 then
    f.finish (recvWhile E (fun _ => max f.rbufsize defaultBufsize) (fun _ _ => .more) f.rbuf f.source)
  else if (f.rbuf.length : ℤ) ≥ size then
    (.ret (f.rbuf.take size.toNat), { f with rbuf := f.rbuf.drop size.toNat })
  else f.finish (recvWhile E (fun buf => size.toNat - buf.length) (readTurn size.toNat) f.rbuf f.source)

/-- `buf.readline(size)` of a `StringIO`, from its start: what it returns, and what is left. -/
def bufReadline (buf : Bytes) (size : ℤ) : Bytes × Bytes :=
  let newpos : ℕ := match buf.findIdx? (· = '\n') with
    | none => buf.length
    | some i => i + 1
  let newpos := if 0 ≤ size ∧ size < newpos then size.toNat else newpos
  (buf.take newpos, buf.drop newpos)

/-- The body of `readline` without a buffer. -/
def byteTurn (_buf data : Bytes) : Turn := if data = "\n".toList then .done data.length else .more

/-- The body of `readline`. -/
def lineTurn (_buf data : Bytes) : Turn :=
  match data.findIdx? (· = '\n') with
  | some nl => .done (nl + 1)
  | none => .more

/-- The body of `readline`, up to `size` bytes. -/
def sizedLineTurn (size : ℕ) (buf data : Bytes) : Turn :=
  let left := size - buf.length
  match (data.take left).findIdx? (· = '\n') with
  | some nl => .done (nl + 1)
  | none =>
    if data.length = size ∧ buf = [] then .done data.length
    else if data.length ≥ left then .done left
    else .more

/-- **`_fileobject.readline`.** -/
def FileReader.readline (size : ℤ) (f : FileReader) : Effect.Out FileExc Bytes × FileReader :=
  let (bline, rest) := bufReadline f.rbuf size
  if f.rbuf ≠ [] ∧ (bline.getLast? = some '\n' ∨ (bline.length : ℤ) = size) then
    (.ret bline, { f with rbuf := rest })
  else if size < 0 then
    if f.rbufsize ≤ 1 then f.finish (recvWhile E (fun _ => 1) byteTurn f.rbuf f.source)
    else f.finish (recvWhile E (fun _ => f.rbufsize) lineTurn f.rbuf f.source)
  else if (f.rbuf.length : ℤ) ≥ size then
    (.ret (f.rbuf.take size.toNat), { f with rbuf := f.rbuf.drop size.toNat })
  else f.finish (recvWhile E (fun _ => f.rbufsize) (sizedLineTurn size.toNat) f.rbuf f.source)

/-- **`_fileobject.next`.** -/
def FileReader.next (f : FileReader) : Effect.Out FileExc Bytes × FileReader :=
  match f.readline E (-1) with
  | (.ret line, f) => if line = [] then (.raise .stopIteration 742, f) else (.ret line, f)
  | (.raise e l, f) => (.raise e l, f)
  | (.block, f) => (.block, f)

/-- All bytes that the file object still has to return. -/
def FileReader.bytes (f : FileReader) : Bytes := f.rbuf ++ f.source.pending

variable {E}

theorem recvWhile_split {asks : Bytes → ℕ} {turn : Bytes → Bytes → Turn} {buf v r : Bytes} {s s' : Source}
    (h : recvWhile E asks turn buf s = (.ret (v, r), s')) : v ++ (r ++ s'.pending) = buf ++ s.pending := by
  fun_induction recvWhile E asks turn buf s with
  | case1 => cases h
  | case2 => cases h
  | case3 buf s s₁ hrecv =>
    cases h
    rw [List.nil_append, ← Source.recv_split hrecv, List.nil_append]
  | case4 buf s data s₁ hrecv hdata hturn ih => rw [ih h, List.append_assoc, Source.recv_split hrecv]
  | case5 buf s data s₁ hrecv hdata n hturn =>
    cases h
    rw [List.append_assoc, ← List.append_assoc (data.take n), List.take_append_drop, Source.recv_split hrecv]
  | case6 => cases h

theorem FileReader.finish_split {f f' : FileReader} {asks : Bytes → ℕ} {turn : Bytes → Bytes → Turn} {v : Bytes}
    (h : f.finish (recvWhile E asks turn f.rbuf f.source) = (.ret v, f')) : v ++ f'.bytes = f.bytes := by
  rcases hloop : recvWhile E asks turn f.rbuf f.source with ⟨⟨v', r⟩ | ⟨e, l⟩ | -, s'⟩
  · rw [hloop] at h
    cases h
    exact recvWhile_split hloop
  · rw [hloop] at h
    cases h
  · rw [hloop] at h
    cases h

theorem bufReadline_append (buf : Bytes) (size : ℤ) : (bufReadline buf size).1 ++ (bufReadline buf size).2 = buf :=
  List.take_append_drop ..

/-- **A line that is returned** was the front of the stream. -/
theorem FileReader.readline_split {f f' : FileReader} {size : ℤ} {v : Bytes} (h : f.readline E size = (.ret v, f')) :
    v ++ f'.bytes = f.bytes := by
  simp only [FileReader.readline] at h
  split at h
  · cases h
    rw [bytes, bytes, ← List.append_assoc, bufReadline_append]
  · split at h
    · split at h
      · exact finish_split h
      · exact finish_split h
    · split at h
      · cases h
        rw [bytes, bytes, ← List.append_assoc, List.take_append_drop]
      · exact finish_split h

variable (E)

/-- The loop of `readlines`. -/
def FileReader.readlinesFrom (sizehint : ℤ) (total : ℕ) (list : List Bytes) (f : FileReader) :
    Effect.Out FileExc (List Bytes) × FileReader :=
  match _h : f.readline E (-1) with
  | (.raise e l, f') => (.raise e l, f')
  | (.block, f') => (.block, f')
  | (.ret line, f') =>
    if _hline : line = [] then (.ret list, f')
    else if sizehint ≠ 0 ∧ (total + line.length : ℤ) ≥ sizehint then (.ret (list ++ [line]), f')
    else readlinesFrom sizehint (total + line.length) (list ++ [line]) f'
termination_by f.bytes.length
decreasing_by
  have hsplit := congrArg List.length (FileReader.readline_split _h)
  have := List.length_pos_iff.2 _hline
  rw [List.length_append] at hsplit
  omega

/-- **`_fileobject.readlines`.** -/
def FileReader.readlines (sizehint : ℤ) (f : FileReader) : Effect.Out FileExc (List Bytes) × FileReader :=
  f.readlinesFrom E sizehint 0 []

/-! ## Calls -/

/-- A call that reads. -/
inductive ReadCall
  | read (size : ℤ)
  | readline (size : ℤ)
  | readlines (sizehint : ℤ)
  | next
  deriving DecidableEq, Repr

/-- What it returns: a string, or the lines of a list. -/
inductive ReadValue
  | str (b : Bytes)
  | list (ls : List Bytes)
  deriving DecidableEq, Repr

/-- The bytes of a value. -/
def ReadValue.bytes : ReadValue → Bytes
  | str b => b
  | list ls => ls.flatten

/-- The call. -/
def FileReader.call (f : FileReader) : ReadCall → Effect.Out FileExc ReadValue × FileReader
  | .read size => ((f.read E size).1.map .str, (f.read E size).2)
  | .readline size => ((f.readline E size).1.map .str, (f.readline E size).2)
  | .readlines sizehint => ((f.readlines E sizehint).1.map .list, (f.readlines E sizehint).2)
  | .next => ((f.next E).1.map .str, (f.next E).2)

/-- Calls one after the other, whatever they raise: how they end. One that waits is the last. -/
def FileReader.run (f : FileReader) : List ReadCall → List (Effect.Out FileExc ReadValue) × FileReader
  | [] => ([], f)
  | c :: cs => match f.call E c with
    | (.block, f) => ([.block], f)
    | (o, f) => (o :: (run f cs).1, (run f cs).2)

/-! ## Writing -/

/-- The writing half of a file object: its buffer and its socket, and whether it is still attached
to it (`_sock` is not `None`). -/
structure FileWriter where
  out : FileSock
  wbufsize : ℕ
  attached : Bool := true
  deriving DecidableEq, Repr

/-- `makefile`, for writing. -/
def Sender.makefile (s : Sender) (bufsize : ℤ) : FileWriter :=
  { out := ⟨⟨initRbufsize bufsize, [], 0⟩, s⟩, wbufsize := initBufsize bufsize }

/-- A call that writes. -/
inductive WriteCall
  | write (data : Bytes)
  | writelines (list : List Bytes)
  | flush
  | close
  deriving DecidableEq, Repr

/-- What it adds to what was written. -/
def WriteCall.data : WriteCall → Bytes
  | write data => data
  | writelines list => list.flatten
  | flush => []
  | close => []

namespace FileWriter

variable (E : SendStack) (w : FileWriter)

/-- The bytes in the buffer. -/
def buffered : Bytes := w.out.file.wbuf.flatten

/-- `_wbuf.extend(lines)`. -/
def extend (lines : List Bytes) : FileWriter :=
  { w with out := ⟨{ w.out.file with
    wbuf := w.out.file.wbuf ++ lines
    wbuf_len := w.out.file.wbuf_len + lines.flatten.length }, w.out.sock⟩ }

/-- **`_fileobject.flush`**, of an object that may be closed. -/
def flush : Effect.Out FileExc Unit × FileWriter :=
  if w.attached then
    match Vdetelweb.flush E w.out with
    | (.ret (), out) => (.ret (), { w with out := out })
    | (.raise e l, out) => (.raise (.pyco e) l, { w with out := out })
    | (.block, out) => (.block, { w with out := out })
  else if w.out.file.wbuf = [] then (.ret (), w)
  -- `None` has no `sendall`, and the `finally` clause puts all back
  else (.raise .attributeError 513, { w with out := ⟨{ w.out.file with
    wbuf := [w.buffered], wbuf_len := w.buffered.length }, w.out.sock⟩ })

/-- **`_fileobject.write`.** -/
def write (data : Bytes) : Effect.Out FileExc Unit × FileWriter :=
  if data = [] then (.ret (), w)
  else
    let w := w.extend [data]
    if w.wbufsize = 0 ∨ (w.wbufsize = 1 ∧ '\n' ∈ data) ∨ w.out.file.wbuf_len ≥ w.wbufsize then w.flush E
    else (.ret (), w)

/-- **`_fileobject.writelines`.** -/
def writelines (list : List Bytes) : Effect.Out FileExc Unit × FileWriter :=
  let w := w.extend (list.filter (· ≠ []))
  if w.wbufsize ≤ 1 ∨ w.out.file.wbuf_len ≥ w.wbufsize then w.flush E else (.ret (), w)

/-- **`_fileobject.close`**, of an object that does not close its socket. -/
def close : Effect.Out FileExc Unit × FileWriter :=
  if w.attached then
    match w.flush E with
    | (.block, w) => (.block, w)
    | (o, w) => (o, { w with attached := false })
  else (.ret (), w)

/-- The call. -/
def call : WriteCall → Effect.Out FileExc Unit × FileWriter
  | .write data => w.write E data
  | .writelines list => w.writelines E list
  | .flush => w.flush E
  | .close => w.close E

/-- Calls one after the other, whatever they raise: how they end. One that waits is the last. -/
def run (w : FileWriter) : List WriteCall → List (Effect.Out FileExc Unit) × FileWriter
  | [] => ([], w)
  | c :: cs => match w.call E c with
    | (.block, w) => ([.block], w)
    | (o, w) => (o :: (run w cs).1, (run w cs).2)

end FileWriter

end Vdetelweb
