import Mathlib

/-!
# The timers of the stack

`heap.h` of `picotcp`, and the timers of `pico_stack.c` that are kept in such a heap. What the C
language does not define (an index outside of the allocated entries, a pointer that is `NULL` or
not live, a second `PICO_FREE`) is `none`, and so is a loop with more turns than the heap has entries. A block keeps its number when it is freed, and no other
gets it. The clock, the memory that is left and what the timer functions do are parameters.
-/

namespace Vdetelweb

open Function

/-! ## `heap.h` -/

/-- An allocated array. -/
structure Area (α : Type) where
  length : ℕ
  cell : ℕ → α

namespace Area

variable {α : Type} (a : Area α)

/-- `top[i]`. -/
def read (i : ℕ) : Option α := if i < a.length then some (a.cell i) else none

/-- `memcpy(&top[i], el, sizeof(type))`. -/
def write (i : ℕ) (el : α) : Option (Area α) :=
  if i < a.length then some { a with cell := update a.cell i el } else none

/-- `memcpy(newTop, top, n * sizeof(type))`, of an array with zeros in it. -/
def copy (n length : ℕ) (zero : α) : Option (Area α) :=
  if n ≤ a.length ∧ n ≤ length then some ⟨length, fun i => if i < n then a.cell i else zero⟩ else none

end Area

/-- What is left of a number in a `uint32_t`. -/
def u32 (k : ℕ) : ℕ := k % 2 ^ 32

/-- `struct heap_type`. The counters are `uint32_t`. -/
structure PicoHeap (α : Type) where
  size : ℕ
  n : ℕ
  top : Option (Area α)

namespace PicoHeap

variable {α : Type} (orderby : α → ℕ)

/-- `heap_init`. -/
def init : PicoHeap α := ⟨0, 0, none⟩

/-- The loop of `heap_insert`: where the hole comes to, and the array then. -/
def riseLoop (el : α) (top : Area α) (i : ℕ) : Option (Area α × ℕ) :=
  if _h : 1 < i then do
    let parent ← top.read (i / 2)
    if orderby parent > orderby el then
      let top ← top.write i parent
      riseLoop el top (i / 2)
    else some (top, i)
  else some (top, i)
termination_by i
decreasing_by omega

/-- The end of `heap_insert`, when there is room. -/
def place (el : α) (size n : ℕ) (top : Area α) : Option (PicoHeap α) :=
  if n = 1 then do
    let top ← top.write 1 el
    some ⟨size, n, some top⟩
  else do
    let (top, i) ← riseLoop orderby el top n
    let top ← top.write i el
    some ⟨size, n, some top⟩

/-- Does `heap_insert` allocate? -/
def grows (h : PicoHeap α) : Prop := u32 (h.n + 1) ≥ h.size

instance (h : PicoHeap α) : Decidable h.grows := inferInstanceAs (Decidable (_ ≥ _))

/-- `newTop`: the entries that were there, and zeros. -/
def newTop (zero : α) (h : PicoHeap α) : Option (Area α) :=
  match h.top with
  | none => some ⟨u32 (h.n + 1 + 1), fun _ => zero⟩
  | some top => top.copy (u32 (h.n + 1)) (u32 (h.n + 1 + 1)) zero

/-- `heap_insert`: whether it succeeds, and the heap. `memory` says whether it is given memory if it
allocates, and `zero` is an entry with zeros in it. -/
def insert (zero : α) (memory : Bool) (el : α) (h : PicoHeap α) : Option (Bool × PicoHeap α) :=
  let n := u32 (h.n + 1)
  if h.grows then
    if memory then do
      let top ← h.newTop zero
      let h ← place orderby el (u32 (h.size + 1)) n top
      some (true, h)
    else some (false, h)
  else do
    let top ← h.top
    let h ← place orderby el h.size n top
    some (true, h)

/-- The child of the `i`-th entry that `heap_peek` compares. -/
def lesserChild (n : ℕ) (top : Area α) (i : ℕ) : Option ℕ :=
  let child := u32 (2 * i)
  if child = n then some child
  else do
    let right ← top.read (u32 (child + 1))
    let left ← top.read child
    some (if orderby right < orderby left then u32 (child + 1) else child)

/-- The loop of `heap_peek`, in so many turns at most. -/
def fallLoop (n last : ℕ) : ℕ → Area α → ℕ → Option (Area α × ℕ)
  | 0, _, _ => none
  | turns + 1, top, i =>
    if u32 (i * 2) ≤ n then do
      let child ← lesserChild orderby n top i
      let el ← top.read last
      let least ← top.read child
      if orderby el > orderby least then
        let top ← top.write i least
        fallLoop n last turns top child
      else some (top, i)
    else some (top, i)

/-- `heap_peek`: the first entry, which it takes out, or `none` of an empty heap. -/
def peek (h : PicoHeap α) : Option (Option α × PicoHeap α) :=
  if h.n = 0 then some (none, h)
  else do
    let top ← h.top
    let first ← top.read 1
    let (top, i) ← fallLoop orderby (h.n - 1) h.n h.n top 1
    let el ← top.read h.n
    let top ← top.write i el
    some (some first, { h with n := h.n - 1, top := some top })

/-- `heap_first`, with what the pointer points to. -/
def first (h : PicoHeap α) : Option (Option α) :=
  if h.n = 0 then some none
  else do
    let top ← h.top
    let el ← top.read 1
    some (some el)

/-- A call on a heap. -/
inductive Call (α : Type)
  | insert (memory : Bool) (el : α)
  | peek

/-- How many entries there are after a call, at most: no `heap_insert` is taken to fail. -/
def Call.count (n : ℕ) : Call α → ℕ
  | .insert .. => n + 1
  | .peek => n - 1

/-- What it returns: whether an entry was put in, or the entry that was taken out. -/
inductive Answer (α : Type)
  | inserted (b : Bool)
  | peeked (el : Option α)

/-- The call. -/
def call (zero : α) (h : PicoHeap α) : Call α → Option (Answer α × PicoHeap α)
  | .insert memory el => (h.insert orderby zero memory el).map fun r => (.inserted r.1, r.2)
  | .peek => (h.peek orderby).map fun r => (.peeked r.1, r.2)

/-- Calls one after the other. -/
def run (zero : α) (h : PicoHeap α) : List (Call α) → Option (List (Answer α) × PicoHeap α)
  | [] => some ([], h)
  | c :: cs => do
    let (answer, h) ← h.call orderby zero c
    let (answers, h) ← run zero h cs
    some (answer :: answers, h)

end PicoHeap

/-! ## `pico_timer_add`, `pico_timer_cancel`, `pico_check_timers` -/

/-- `struct pico_timer`. -/
structure PicoTimer where
  arg : ℕ
  timer : Option ℕ
  deriving DecidableEq, Repr

/-- `struct pico_timer_ref`, with the number of the block that it points to. -/
structure TimerRef where
  expire : ℕ
  id : ℕ
  tmr : Option ℕ
  deriving DecidableEq, Repr

/-- The call of a timer function: for which timer, and when. -/
structure TimerCall where
  id : ℕ
  expire : ℕ
  timer : ℕ
  arg : ℕ
  tick : ℕ
  deriving DecidableEq, Repr

/-- What a timer function or the rest of the stack does with timers. -/
inductive TimerOp
  | add (expire : ℕ) (timer : Option ℕ) (arg : ℕ)
  | cancel (id : ℕ)
  deriving DecidableEq, Repr

/-- What the `k`-th reading of the clock says, whether the `k`-th `PICO_ZALLOC` succeeds, and what
the `k`-th call of a timer function does. -/
structure TimerEnv where
  time : ℕ → ℕ
  zalloc : ℕ → Bool
  callback : ℕ → TimerCall → List TimerOp

/-- The global variables, the timers that are allocated, and what was done so far. -/
structure Timers where
  heap : PicoHeap TimerRef := .init
  tmr_id : ℕ := 0
  blocks : ℕ → Option PicoTimer := fun _ => none
  reads : ℕ := 0
  allocs : ℕ := 0
  called : List TimerCall := []

namespace Timers

variable (E : TimerEnv) (s : Timers)

/-- `PICO_FREE`. -/
def free : Option ℕ → Option Timers
  | none => some s
  | some t => if (s.blocks t).isSome then some { s with blocks := update s.blocks t none } else none

/-- **`pico_timer_add`**: the id, and the state. That `heap_insert` may fail is not looked at. -/
def add (expire : ℕ) (timer : Option ℕ) (arg : ℕ) : Option (ℕ × Timers) :=
  let t := s.allocs
  let id := if s.tmr_id = 0 then 1 else s.tmr_id
  if E.zalloc s.allocs then do
    let tref : TimerRef := ⟨(E.time s.reads + expire) % 2 ^ 64, id, some t⟩
    let (_, heap) ← s.heap.insert TimerRef.expire ⟨0, 0, none⟩ (E.zalloc (s.allocs + 1)) tref
    some (id, { s with
      heap := heap
      tmr_id := (id + 1) % 2 ^ 32
      blocks := update s.blocks t (some ⟨arg, timer⟩)
      reads := s.reads + 1
      allocs := s.allocs + if s.heap.grows then 2 else 1 })
  else some (0, { s with tmr_id := id, allocs := s.allocs + 1 })

/-- The loop of `pico_timer_cancel`, from the `i`-th entry on. -/
def cancelLoop (id : ℕ) (i : ℕ) : Option Timers :=
  if _h : i ≤ s.heap.n then do
    let top ← s.heap.top
    let tref ← top.read i
    if tref.id = id then do
      let s ← s.free tref.tmr
      let top ← top.write i { tref with tmr := none }
      some { s with heap := { s.heap with top := some top } }
    else cancelLoop id (i + 1)
  else some s
termination_by s.heap.n + 1 - i

/-- **`pico_timer_cancel`.** -/
def cancel (id : ℕ) : Option Timers := if id = 0 then some s else s.cancelLoop id 1

/-- An operation. -/
def op : TimerOp → Option Timers
  | .add expire timer arg => (s.add E expire timer arg).map Prod.snd
  | .cancel id => s.cancel id

/-- Operations one after the other. -/
def ops (os : List TimerOp) : Option Timers := os.foldlM (op E) s

/-- `if (t && t->timer) t->timer(pico_tick, t->arg)`. -/
def callTimer (pico_tick : ℕ) (tref : TimerRef) : Option Timers :=
  match tref.tmr with
  | none => some s
  | some t => do
    let tmr ← s.blocks t
    match tmr.timer with
    | none => some s
    | some timer =>
      let call : TimerCall := ⟨tref.id, tref.expire, timer, tmr.arg, pico_tick⟩
      ops E { s with called := s.called ++ [call] } (E.callback s.called.length call)

/-- The loop of `pico_check_timers`, in so many turns at most. -/
def checkLoop (pico_tick : ℕ) : ℕ → Timers → Option Timers
  | 0, _ => none
  | turns + 1, s => do
    match ← s.heap.first with
    | none => some s
    | some tref =>
      if tref.expire < pico_tick then do
        let s ← s.callTimer E pico_tick tref
        let s ← s.free tref.tmr
        let (_, heap) ← s.heap.peek TimerRef.expire
        checkLoop pico_tick turns { s with heap := heap }
      else some s

/-- **`pico_check_timers`.** There are as many turns as there are entries, and the last test. -/
def check : Option Timers :=
  checkLoop E (E.time s.reads) (s.heap.n + 1) { s with reads := s.reads + 1 }

end Timers

/-- What happens: the stack adds or cancels a timer, or comes to check them. -/
inductive TimerEvent
  | op (o : TimerOp)
  | check
  deriving DecidableEq, Repr

/-- One event. -/
def Timers.step (E : TimerEnv) (s : Timers) : TimerEvent → Option Timers
  | .op o => s.op E o
  | .check => s.check E

/-- A run, from the start of the stack. -/
def Timers.run (E : TimerEnv) (es : List TimerEvent) : Option Timers := es.foldlM (Timers.step E) {}

end Vdetelweb
