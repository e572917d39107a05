import Vdetelweb.Lib.CString
import Vdetelweb.Spec.Py

/-!
# `recv` on the two adapters

`Socket.recv` of `pycotcp` ends in `socketRecv` of `pycoclib.c` or in `lwip_recvw` of
`lwipv6build.py`. Both have the stack write into a buffer, and take the buffer for a C
string. The wait for data that comes before (`read_check`, `wait_for_read`) touches no data,
and `check_error` lets a string through.
-/

namespace Vdetelweb

open CString

/-- The terminator of a C string. -/
def nul : Char := Char.ofNat 0

/-- The size of `returnstring`. -/
def returnSize : ℕ := 2000

/-- The loop of `socketRecv`. `pico_socket_recv` hands out the chunks one by one, and then
says that nothing is waiting. The buffer is not cleared in between. -/
def recvLoop {n : ℕ} (buffer returnstring : Bytes) : List (Chunk n) → Except Fault Bytes
  | [] => .ok returnstring
  | c :: cs =>
    match strcat nul returnSize returnstring (store buffer c.1) with
    | .ok returnstring => recvLoop (store buffer c.1) returnstring cs
    | .error e => .error e

/-- `socketRecv`, with `len = n`. -/
def socketRecv {n : ℕ} (chunks : List (Chunk n)) : Except Fault Bytes :=
  recvLoop (List.replicate n nul) [] chunks

/-- `lwip_recvw`: the buffer that it returns. `malloc` leaves `initial` in it, `lwip_recv`
stores what it received, and how much that was is not looked at. -/
def lwipRecvw (initial stored : Bytes) : Bytes := store initial stored

/-- Why there is no string: an access leaves its buffer, or the size is no `int`. -/
inductive RecvError
  | fault (f : Fault)
  | overflow
  deriving DecidableEq, Repr

/-- A call of `recv` that gets past its wait, on either adapter, with what the stack hands out
in it. -/
inductive RecvCall
  | pico (n : ℕ) (chunks : List (Chunk n))
  | lwip (n : ℕ) (initial stored : Bytes) (sized : initial.length = n) (fits : stored.length ≤ n)

namespace RecvCall

/-- What was asked for. -/
def size : RecvCall → ℕ
  | pico n _ => n
  | lwip n .. => n

/-- What the stack hands out. -/
def bytes : RecvCall → Bytes
  | pico _ chunks => joined chunks
  | lwip _ _ stored _ _ => stored

/-- What the call makes of it. -/
def received : RecvCall → Except Fault Bytes
  | pico _ chunks => socketRecv chunks
  | lwip _ initial stored _ _ => read nul (lwipRecvw initial stored)

/-- **What the call returns.** On either adapter the size that is asked for becomes an `int`. -/
def result (c : RecvCall) : Except RecvError Bytes :=
  if c.size < 2 ^ 31 then c.received.mapError .fault else .error .overflow

end RecvCall

end Vdetelweb
