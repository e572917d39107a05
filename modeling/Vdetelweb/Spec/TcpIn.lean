import Vdetelweb.Spec.PicoTree

/-!
# What is received over TCP

The input queue of a socket of `pico_tcp.c`: the segments that arrived, in a tree ordered by their sequence
numbers, and what `pico_tcp_read` takes out of them. A copy from outside of a payload is `none`.
-/

namespace Vdetelweb

open Trees

/-- `pico_seq_compare`. -/
def pico_seq_compare (a b : BitVec 32) : ℤ :=
  let thresh := 2 ^ 31 - 1
  if b < a then
    if (a - b).toNat > thresh then (-(b - a)).toInt else (a - b).toInt
  else if a < b then
    if (b - a).toNat > thresh then (a - b).toInt else (-(b - a)).toInt
  else 0

/-- `struct tcp_input_segment`. -/
structure Segment where
  seq : BitVec 32
  payload : List UInt8
  deriving DecidableEq, Repr

/-- `seq + payload_len`. -/
def Segment.next (f : Segment) : BitVec 32 := f.seq + BitVec.ofNat 32 f.payload.length

/-- `input_segment_compare`. -/
def input_segment_compare (a b : Segment) : ℤ := pico_seq_compare a.seq b.seq

/-- `struct pico_tcp_queue`, for the input. The counters are `uint32_t`. -/
structure TcpQueue where
  pool : PicoTree Segment
  max_size : ℕ
  size : ℕ
  frames : ℕ

namespace TcpQueue

variable (q : TcpQueue)

/-- `peek_segment`. -/
def peek_segment (seq : BitVec 32) : Option (Option Segment) := q.pool.findKey input_segment_compare ⟨seq, []⟩

/-- `first_segment`. -/
def first_segment : Option (Option Segment) := q.pool.first

/-- `next_segment`. -/
def next_segment (cur : Segment) : Option (Option Segment) := q.peek_segment cur.next

/-- `do_enqueue_segment`. -/
def do_enqueue_segment (node : Bool) (f : Segment) (payload_len : ℕ) : Option (ℤ × TcpQueue) :=
  if (q.size + payload_len) % 2 ^ 32 > q.max_size then some (0, q)
  else do
    let (r, pool) ← q.pool.insert input_segment_compare node f
    match r with
    | .done => some (payload_len, { q with
        pool := pool
        size := (q.size + payload_len) % 2 ^ 32
        frames := if payload_len > 0 then (q.frames + 1) % 2 ^ 32 else q.frames })
    | _ => some (0, { q with pool := pool })

/-- `pico_enqueue_segment`. -/
def pico_enqueue_segment (node : Bool) (f : Segment) : Option (ℤ × TcpQueue) :=
  if f.payload.length = 0 then some (-1, q) else q.do_enqueue_segment node f f.payload.length

/-- `pico_discard_segment`. What is not in the tree would be discarded as a frame, and it is none. -/
def pico_discard_segment (f : Segment) : Option TcpQueue := do
  match ← q.pool.delete input_segment_compare f with
  | (some _, pool) => some { q with
      pool := pool
      size := (q.size + 2 ^ 32 - f.payload.length) % 2 ^ 32
      frames := if f.payload.length > 0 then (q.frames + 2 ^ 32 - 1) % 2 ^ 32 else q.frames }
  | (none, _) => none

/-- The loop of `release_until`, with the number of segments that are released. -/
def releaseLoop (seq : BitVec 32) : ℕ → Segment → TcpQueue → Option (ℕ × TcpQueue)
  | 0, _, _ => none
  | turns + 1, cur, q =>
    if pico_seq_compare cur.next seq ≤ 0 then do
      let head ← q.next_segment cur
      let q ← q.pico_discard_segment cur
      match head with
      | none => some (1, q)
      | some head => do
        let (ret, q) ← releaseLoop seq turns head q
        some (ret + 1, q)
    else some (0, q)

/-- `release_until`. -/
def release_until (seq : BitVec 32) : Option (ℕ × TcpQueue) := do
  match ← q.first_segment with
  | none => some (0, q)
  | some head => releaseLoop seq (q.pool.next + 1) head q

end TcpQueue

/-- What `struct pico_socket_tcp` has for the input. -/
structure TcpIn where
  tcpq_in : TcpQueue
  rcv_nxt : BitVec 32
  rcv_processed : BitVec 32
  sack_ok : Bool
  sacks : List (BitVec 32 × BitVec 32) := []

namespace TcpIn

variable (t : TcpIn)

/-! ## `pico_tcp_read` -/

/-- `tcp_read_in_frame_len`, of `uint32_t`. -/
def tcp_read_in_frame_len (f : Segment) (in_frame_off : ℤ) (tot_rd_len read_op_len : ℕ) : ℕ :=
  let in_frame_len := if in_frame_off > 0 then ((f.payload.length - in_frame_off) % 2 ^ 32).toNat else f.payload.length
  if (in_frame_len + tot_rd_len) % 2 ^ 32 > read_op_len then read_op_len - tot_rd_len else in_frame_len

/-- `memcpy` out of a payload. -/
def memcpy (payload : List UInt8) (off len : ℕ) : Option (List UInt8) :=
  if off + len ≤ payload.length then some ((payload.drop off).take len) else none

/-- `tcp_read_check_segment_done`. -/
def tcp_read_check_segment_done (f : Segment) (in_frame_len : ℕ) : Option TcpIn :=
  if in_frame_len = 0 ∨ in_frame_len = f.payload.length then
    (t.tcpq_in.pico_discard_segment f).map fun q => { t with tcpq_in := q }
  else some t

/-- The loop of `pico_tcp_read`, with what is in the buffer. -/
def readLoop (len : ℕ) : ℕ → List UInt8 → TcpIn → Option (List UInt8 × TcpIn)
  | 0, _, _ => none
  | turns + 1, buf, t =>
    if buf.length < len then do
      let (_, q) ← t.tcpq_in.release_until t.rcv_processed
      let t := { t with tcpq_in := q }
      match ← t.tcpq_in.first_segment with
      | none => some (buf, t)
      | some f => do
        let in_frame_off := pico_seq_compare t.rcv_processed f.seq
        if in_frame_off < 0 then some (buf, t)
        else do
          let in_frame_len := tcp_read_in_frame_len f in_frame_off buf.length len
          let bytes ← memcpy f.payload in_frame_off.toNat in_frame_len
          let t := { t with rcv_processed := t.rcv_processed + BitVec.ofNat 32 in_frame_len }
          let t ← t.tcp_read_check_segment_done f in_frame_len
          readLoop len turns (buf ++ bytes) t
    else some (buf, t)

/-- **`pico_tcp_read`**: what is read. -/
def pico_tcp_read (len : ℕ) : Option (List UInt8 × TcpIn) := readLoop len (len + 1) [] t

/-! ## `tcp_sack_prepare` -/

/-- The loop of `tcp_sack_prepare`, with the blocks that are made. `zalloc` says whether there is memory for
the `n`-th of them. -/
def sackLoop (zalloc : ℕ → Bool) : ℕ → ℕ → BitVec 32 → BitVec 32 → Option Segment →
    List (BitVec 32 × BitVec 32) → Option (List (BitVec 32 × BitVec 32))
  | 0, _, _, _, _, _ => none
  | turns + 1, n, left, right, pkt, sacks =>
    if n < 3 then
      match pkt with
      | none => some (if left ≠ 0 ∧ zalloc n then (left, right) :: sacks else sacks)
      | some f =>
        if f.seq < t.rcv_nxt then do
          let pkt ← t.tcpq_in.next_segment f
          sackLoop zalloc turns n left right pkt sacks
        else if left = 0 then do
          let pkt ← t.tcpq_in.next_segment f
          sackLoop zalloc turns n f.seq f.next pkt sacks
        else if f.seq = right then do
          let pkt ← t.tcpq_in.next_segment f
          sackLoop zalloc turns n left (right + BitVec.ofNat 32 f.payload.length) pkt sacks
        else if zalloc n then do
          let pkt ← t.tcpq_in.next_segment f
          sackLoop zalloc turns (n + 1) 0 0 pkt ((left, right) :: sacks)
        else some sacks
    else some sacks

/-- `tcp_sack_prepare`. -/
def tcp_sack_prepare (zalloc : ℕ → Bool) : Option TcpIn :=
  if t.sacks ≠ [] then some t
  else do
    let pkt ← t.tcpq_in.first_segment
    let sacks ← t.sackLoop zalloc (t.tcpq_in.pool.next + 1) 0 0 0 pkt []
    some { t with sacks := sacks }

/-! ## `tcp_data_in` -/

/-- `segment_from_frame`, when there is memory. -/
def segment_from_frame (zalloc : Bool) (seq : BitVec 32) (payload : List UInt8) : Option Segment :=
  if zalloc ∧ payload ≠ [] then some ⟨seq, payload⟩ else none

/-- The loop of `tcp_data_in_expected`. -/
def scrollLoop : ℕ → TcpIn → Option TcpIn
  | 0, _ => none
  | turns + 1, t => do
    match ← t.tcpq_in.peek_segment t.rcv_nxt with
    | none => some t
    | some nxt => scrollLoop turns { t with rcv_nxt := t.rcv_nxt + BitVec.ofNat 32 nxt.payload.length }

/-- `tcp_data_in_expected`. -/
def tcp_data_in_expected (zalloc node : Bool) (seq : BitVec 32) (payload : List UInt8) : Option (ℤ × TcpIn) :=
  if pico_seq_compare seq t.rcv_nxt = 0 then
    match segment_from_frame zalloc seq payload with
    | none => some (-1, t)
    | some input => do
      let (r, q) ← t.tcpq_in.pico_enqueue_segment node input
      let t := { t with tcpq_in := q }
      if r ≤ 0 then some (-1, t)
      else do
        let t := { t with rcv_nxt := seq + BitVec.ofNat 32 payload.length }
        let t ← scrollLoop (t.tcpq_in.pool.next + 1) t
        some (0, t)
  else some (0, t)

/-- `tcp_data_in_high_segment`. -/
def tcp_data_in_high_segment (zalloc node : Bool) (blocks : ℕ → Bool) (seq : BitVec 32) (payload : List UInt8) :
    Option (ℤ × TcpIn) :=
  if t.sack_ok then
    match segment_from_frame zalloc seq payload with
    | none => some (-1, t)
    | some input => do
      let (r, q) ← t.tcpq_in.pico_enqueue_segment node input
      let t := { t with tcpq_in := q }
      if r ≤ 0 then some (-1, t)
      else do
        let t ← t.tcp_sack_prepare blocks
        some (0, t)
  else some (0, t)

/-- **What `tcp_data_in` does with the payload**, when the header is no longer than the segment and
`tcp_parse_options` has returned, which it does not for all options. What is answered is apart. -/
def tcp_data_in_payload (zalloc node : Bool) (blocks : ℕ → Bool) (seq : BitVec 32) (payload : List UInt8) :
    Option (ℤ × TcpIn) :=
  if pico_seq_compare seq t.rcv_nxt ≤ 0 then t.tcp_data_in_expected zalloc node seq payload
  else t.tcp_data_in_high_segment zalloc node blocks seq payload

/-- The queue of a connection that was just made: nothing was received after the sequence number `isn`. -/
def init (color : Color) (isn : BitVec 32) (max_size : ℕ) (sack_ok : Bool) : TcpIn :=
  ⟨⟨PicoTree.empty color, max_size, 0, 0⟩, isn, isn, sack_ok, []⟩

end TcpIn

end Vdetelweb
