import Vdetelweb.Lib.Linked

/-!
# Queues of frames

`include/pico_queue.h`. The frames of a queue are linked through their `next`, in memory, and an access to a
frame that is not live is `none`.
-/

namespace Vdetelweb

open Linked

/-- The frames that are live, with `buffer_len` and `next`. -/
abbrev Frames := Memory ℕ (BitVec 32)

/-- What is set when a queue is made. -/
structure QueueLimits where
  max_frames : BitVec 32 := 0
  max_size : BitVec 32 := 0
  overhead : BitVec 16 := 0
  deriving DecidableEq, Repr

/-- `struct pico_queue`. -/
structure PicoQueue extends QueueLimits where
  frames : BitVec 32 := 0
  size : BitVec 32 := 0
  head : Option ℕ := none
  tail : Option ℕ := none
  deriving DecidableEq, Repr

namespace PicoQueue

variable (q : PicoQueue) (m : Frames)

/-- The frame is linked to the last one, and the counts start again if there is none. -/
def link (p : ℕ) : Option (PicoQueue × Frames) :=
  match q.head with
  | none => some ({ q with head := some p, tail := some p, size := 0, frames := 0 }, m)
  | some _ => do
    let tail ← q.tail
    let c ← m.lookup tail
    some ({ q with tail := some p }, m.insert tail { c with next := some p })

/-- `pico_enqueue`, where `Q_LIMIT` is 0. -/
def pico_enqueue (p : ℕ) : Option (BitVec 32 × PicoQueue × Frames) :=
  if q.max_frames ≠ 0 ∧ q.max_frames ≤ q.frames then some (-1, q, m)
  else do
    let c ← m.lookup p
    if q.max_size ≠ 0 ∧ q.max_size < c.value + q.size then some (-1, q, m)
    else do
      let (q, m) ← q.link (m.insert p ⟨c.value, none⟩) p
      let size := q.size + (c.value + q.overhead.setWidth 32)
      some (size, { q with size := size, frames := q.frames + 1 }, m)

/-- `pico_dequeue`. -/
def pico_dequeue : Option (Option ℕ × PicoQueue × Frames) :=
  match q.head with
  | none => some (none, q, m)
  | some p =>
    if q.frames < 1 then some (none, q, m)
    else do
      let c ← m.lookup p
      let q : PicoQueue := { q with
        head := c.next
        frames := q.frames - 1
        -- the overhead that was added is added again
        size := q.size - (c.value - q.overhead.setWidth 32)
        tail := if c.next = none then none else q.tail }
      some (some p, q, m.insert p ⟨c.value, none⟩)

/-- `pico_queue_peek`. -/
def pico_queue_peek : Option ℕ := if q.frames < 1 then none else q.head

/-- The loop of `pico_queue_empty`. A frame that is discarded is not live any more. -/
def emptyLoop : ℕ → PicoQueue → Frames → Option (PicoQueue × Frames)
  | 0, _, _ => none
  | turns + 1, q, m => do
    let (p, q, m) ← q.pico_dequeue m
    match p with
    | none => some (q, m)
    | some p => emptyLoop turns q (m.erase p)

/-- `pico_queue_empty`, for as many turns as there are frames. -/
def pico_queue_empty : Option (PicoQueue × Frames) := emptyLoop (m.keys.card + 1) q m

end PicoQueue

/-- What happens to a queue, and to the frames that are not in it. -/
inductive QueueEvent
  | alloc (p : ℕ) (buffer_len : BitVec 32)
  | discard (p : ℕ)
  | enqueue (p : ℕ)
  | dequeue
  | peek
  | empty
  deriving DecidableEq, Repr

/-- What is returned: nothing, a size (or -1), or a frame. -/
inductive QueueAnswer
  | done
  | size (r : BitVec 32)
  | frame (p : Option ℕ)
  deriving DecidableEq, Repr

namespace PicoQueue

/-- An event, with the answer to it. -/
def exec (q : PicoQueue) (m : Frames) : QueueEvent → Option (QueueAnswer × PicoQueue × Frames)
  | .alloc p buffer_len => some (.done, q, m.insert p ⟨buffer_len, none⟩)
  | .discard p => do
    let _ ← m.lookup p
    some (.done, q, m.erase p)
  | .enqueue p => do
    let (r, q, m) ← q.pico_enqueue m p
    some (.size r, q, m)
  | .dequeue => do
    let (p, q, m) ← q.pico_dequeue m
    some (.frame p, q, m)
  | .peek => some (.frame q.pico_queue_peek, q, m)
  | .empty => do
    let (q, m) ← q.pico_queue_empty m
    some (.done, q, m)

/-- Events one after the other, with the answers. -/
def run (q : PicoQueue) (m : Frames) : List QueueEvent → Option (List QueueAnswer × PicoQueue × Frames)
  | [] => some ([], q, m)
  | e :: es => do
    let (a, q, m) ← q.exec m e
    let (as, q, m) ← run q m es
    some (a :: as, q, m)

end PicoQueue

end Vdetelweb
