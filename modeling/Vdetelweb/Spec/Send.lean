import Vdetelweb.Spec.Adapter
import Vdetelweb.Spec.Recv

/-!
# `sendall` on the adapter for `picotcp`

A call of `Socket.sendall` goes through `socketSend` of the adapter and `socketSend` of
`pycoclib.c` to `pico_socket_send`, and the number of bytes that this accepts comes back the
same way. `_fileobject.flush` calls it for one piece of its buffer after the other.
-/

namespace Vdetelweb

/-- What the stack does: whether the `k`-th wait for it ends, and what it answers to `len`
bytes that the `k`-th call offers, a number of bytes or an error. -/
structure SendStack where
  writable : ℕ → Bool
  answer : ℕ → (len : ℕ) → Option (Fin (len + 1))

/-- A socket that is sent on: whether `open_sockets` and the list of `pycoclib` have it, how
often it was called, and what the stack has been handed. -/
structure Sender where
  opened : Bool
  listed : Bool
  calls : ℕ := 0
  handed : Bytes := []
  deriving DecidableEq, Repr

/-- A piece of code over such a socket. -/
abbrev SendAct : Type → Type := Effect.Act PycoExc Sender

/-- The data that the format `ssi` takes. -/
def Parses (data : Bytes) : Prop := nul ∉ data ∧ data.length < 2 ^ 31

instance (data : Bytes) : Decidable (Parses data) := inferInstanceAs (Decidable (_ ∧ _))

variable (E : SendStack)

/-- The number of the call. -/
def nextCall : SendAct ℕ := fun s => (.ret s.calls, { s with calls := s.calls + 1 })

/-- `write_check`. -/
def writeCheck (k : ℕ) : SendAct Unit := fun s =>
  if s.opened ∧ E.writable k = false then (.block, s) else (.ret (), s)

/-- `pico_socket_send`. -/
def picoSocketSend (k : ℕ) (buffer : Bytes) : SendAct ℤ := fun s =>
  match E.answer k buffer.length with
  | some accepted => (.ret accepted.val, { s with handed := s.handed ++ buffer.take accepted })
  | none => (.ret NOT_OK, s)

/-- `socketSend` of `pycoclib`. -/
def pycoclibSend (k : ℕ) (data : Bytes) : SendAct ℤ := do
  if ¬ Parses data then return PARSE_FAIL
  if ¬ (← Effect.Act.get).listed then return NOT_OK
  picoSocketSend E k data

/-- `socketSend` of the adapter. -/
def socketSend (data : Bytes) : SendAct ℤ := do
  let k ← nextCall
  writeCheck E k
  let result ← pycoclibSend E k data
  checkError result

/-- **`Socket.sendall`.** -/
def sendallPico (data : Bytes) : SendAct ℤ := socketSend E data

/-! ## `_fileobject` -/

/-- The variables of `_fileobject` that `flush` uses. -/
structure FileObject where
  rbufsize : ℕ
  wbuf : List Bytes
  wbuf_len : ℕ
  deriving DecidableEq, Repr

/-- `default_bufsize`. -/
def defaultBufsize : ℕ := 8192

/-- `buffer_size`. -/
def FileObject.bufferSize (f : FileObject) : ℕ := max f.rbufsize defaultBufsize

theorem FileObject.bufferSize_pos (f : FileObject) : 0 < f.bufferSize :=
  lt_of_lt_of_le (by decide) (le_max_right f.rbufsize defaultBufsize)

/-- A file object and its socket. -/
structure FileSock where
  file : FileObject
  sock : Sender
  deriving DecidableEq, Repr

/-- The loop of `flush`: how it ends, and `write_offset` then. -/
def flushLoop {buffer_size : ℕ} (hpos : 0 < buffer_size) (data : Bytes) (write_offset : ℕ) (s : Sender) :
    Effect.Out PycoExc Unit × ℕ × Sender :=
  if _h : write_offset < data.length then
    match sendallPico E ((data.drop write_offset).take buffer_size) s with
    | (.ret _, s) => flushLoop hpos data (write_offset + buffer_size) s
    | (.raise e l, s) => (.raise e l, write_offset, s)
    | (.block, s) => (.block, write_offset, s)
  else (.ret (), write_offset, s)
termination_by data.length - write_offset

/-- **`_fileobject.flush`.** -/
def flush (w : FileSock) : Effect.Out PycoExc Unit × FileSock :=
  if w.file.wbuf = [] then (.ret (), w)
  else
    let data := w.file.wbuf.flatten
    match flushLoop E w.file.bufferSize_pos data 0 w.sock with
    -- a call that waits has not come to the `finally` clause
    | (.block, _, s) => (.block, ⟨{ w.file with wbuf := [], wbuf_len := 0 }, s⟩)
    | (out, write_offset, s) =>
      let remainder := data.drop write_offset
      (out, ⟨{ w.file with
        wbuf := if write_offset < data.length then [remainder] else []
        wbuf_len := if write_offset < data.length then remainder.length else 0 }, s⟩)

end Vdetelweb
