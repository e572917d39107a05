import Vdetelweb.Spec.Queue

/-!
# What the queues are for

A `Fifo` holds the frames that wait in the order in which they came. The queues of `include/pico_queue.h` are one
(`queueRun_refines`), as long as no frame is put in twice and 2^32 of them do not wait. `size` is what their buffers
take, and the overhead of each, and twice the overhead for each frame that was taken out since the queue was last
found empty. So the limits are kept when there is no overhead (`queueRun_bounded`).
-/

namespace Vdetelweb

open Linked

/-- The frames that are live, those that wait, and the number that was taken out since. -/
structure Fifo where
  frame : ℕ → Option (BitVec 32) := fun _ => none
  waiting : List (ℕ × BitVec 32) := []
  taken : ℕ := 0

namespace Fifo

variable (L : QueueLimits) (σ : Fifo)

/-- What `size` is. -/
def size : BitVec 32 :=
  (σ.waiting.map Prod.snd).sum + BitVec.ofNat 32 (σ.waiting.length + 2 * σ.taken) * L.overhead.setWidth 32

/-- There is room for one frame more, which is so long. -/
def Room (buffer_len : BitVec 32) : Prop :=
  (L.max_frames ≠ 0 → σ.waiting.length < L.max_frames.toNat) ∧
    (L.max_size ≠ 0 → buffer_len + σ.size L ≤ L.max_size)

instance (buffer_len : BitVec 32) : Decidable (σ.Room L buffer_len) := inferInstanceAs (Decidable (_ ∧ _))

/-- A frame comes in. -/
def put (p : ℕ) (buffer_len : BitVec 32) : Fifo :=
  { σ with
    waiting := σ.waiting ++ [(p, buffer_len)]
    taken := if σ.waiting = [] then 0 else σ.taken }

/-- All that wait are discarded. -/
def clear : Fifo where
  frame k := if k ∈ σ.waiting.map Prod.fst then none else σ.frame k
  waiting := []
  taken := σ.taken + σ.waiting.length

/-- **An event**, if it is permitted: frames that wait are let alone. -/
def exec : QueueEvent → Option (QueueAnswer × Fifo)
  | .alloc p buffer_len =>
    if σ.frame p = none then some (.done, { σ with frame := Function.update σ.frame p (some buffer_len) }) else none
  | .discard p =>
    if σ.frame p ≠ none ∧ p ∉ σ.waiting.map Prod.fst then
      some (.done, { σ with frame := Function.update σ.frame p none })
    else none
  | .enqueue p => do
    let buffer_len ← σ.frame p
    if p ∉ σ.waiting.map Prod.fst ∧ σ.waiting.length + 1 < 2 ^ 32 then
      if σ.Room L buffer_len then some (.size ((σ.put p buffer_len).size L), σ.put p buffer_len)
      else some (.size (-1), σ)
    else none
  | .dequeue =>
    match σ.waiting with
    | [] => some (.frame none, σ)
    | e :: rest => some (.frame (some e.1), { σ with waiting := rest, taken := σ.taken + 1 })
  | .peek => some (.frame (σ.waiting.head?.map Prod.fst), σ)
  | .empty => some (.done, σ.clear)

/-- Events one after the other. -/
def run (σ : Fifo) : List QueueEvent → Option (List QueueAnswer × Fifo)
  | [] => some ([], σ)
  | e :: es => do
    let (a, σ) ← σ.exec L e
    let (as, σ) ← run σ es
    some (a :: as, σ)

end Fifo

namespace PicoQueue

variable {L : QueueLimits} {q : PicoQueue} {m : Frames} {σ : Fifo}

/-- **A queue in memory** that holds what waits. -/
structure Holds (L : QueueLimits) (q : PicoQueue) (m : Frames) (σ : Fifo) : Prop where
  chain : Chain m Eq q.head σ.waiting none
  tail : q.tail = σ.waiting.getLast?.map Prod.fst
  live : ∀ k, (m.lookup k).map Cell.value = σ.frame k
  limits : q.toQueueLimits = L
  frames : q.frames = BitVec.ofNat 32 σ.waiting.length
  size : q.size = σ.size L
  few : σ.waiting.length < 2 ^ 32

/-- A link that is written changes no length. -/
theorem value_insert {p : ℕ} {c : Cell ℕ (BitVec 32)} (hc : m.lookup p = some c) (next : Option ℕ) (k : ℕ) :
    ((m.insert p ⟨c.value, next⟩).lookup k).map Cell.value = (m.lookup k).map Cell.value := by
  by_cases hk : k = p
  · subst hk
    rw [Finmap.lookup_insert, hc]
    rfl
  · rw [Finmap.lookup_insert_of_ne _ hk]

theorem exists_cell (h : Holds L q m σ) {p : ℕ} {len : BitVec 32} (hp : σ.frame p = some len) :
    ∃ next, m.lookup p = some ⟨len, next⟩ := by
  have hlive := h.live p
  rw [hp, Option.map_eq_some_iff] at hlive
  obtain ⟨c, hc, rfl⟩ := hlive
  exact ⟨c.next, hc⟩

theorem Holds.head_eq (h : Holds L q m σ) : q.head = σ.waiting.head?.map Prod.fst := h.chain.head_eq

theorem Holds.toNat_frames (h : Holds L q m σ) : q.frames.toNat = σ.waiting.length := by
  rw [h.frames, BitVec.toNat_ofNat, Nat.mod_eq_of_lt h.few]

/-- **The checks of `pico_enqueue`**. -/
theorem Holds.room_iff (h : Holds L q m σ) (len : BitVec 32) :
    σ.Room L len ↔ ¬(q.max_frames ≠ 0 ∧ q.max_frames ≤ q.frames) ∧
      ¬(q.max_size ≠ 0 ∧ q.max_size < len + q.size) := by
  obtain rfl := h.limits
  have hframes : q.max_frames ≤ q.frames ↔ q.max_frames.toNat ≤ σ.waiting.length := by
    rw [BitVec.le_def, h.toNat_frames]
  rw [Fifo.Room, hframes, h.size, not_and, not_and, Nat.not_le, BitVec.not_lt]

theorem ofNat_succ_mul (n : ℕ) (b : BitVec 32) : BitVec.ofNat 32 (n + 1) * b = BitVec.ofNat 32 n * b + b := by
  rw [BitVec.ofNat_add, BitVec.add_mul, BitVec.one_mul]

theorem size_put_nil (hnil : σ.waiting = []) (p : ℕ) (len : BitVec 32) :
    (σ.put p len).size L = len + L.overhead.setWidth 32 := by
  simp [Fifo.size, Fifo.put, hnil]

theorem size_put (hne : σ.waiting ≠ []) (p : ℕ) (len : BitVec 32) :
    (σ.put p len).size L = σ.size L + (len + L.overhead.setWidth 32) := by
  have hcount : σ.waiting.length + 1 + 2 * σ.taken = σ.waiting.length + 2 * σ.taken + 1 := by omega
  simp only [Fifo.size, Fifo.put, hne, if_false, List.map_append, List.map_cons, List.map_nil, List.sum_append,
    List.sum_cons, List.sum_nil, List.length_append, List.length_cons, List.length_nil, Nat.zero_add, hcount,
    ofNat_succ_mul]
  ring

/-- The overhead of a frame is not taken off with it. -/
theorem size_take {e : ℕ × BitVec 32} {rest : List (ℕ × BitVec 32)} (hw : σ.waiting = e :: rest) :
    ({ σ with waiting := rest, taken := σ.taken + 1 } : Fifo).size L =
      σ.size L - (e.2 - L.overhead.setWidth 32) := by
  have hcount : rest.length + 2 * (σ.taken + 1) = rest.length + 1 + 2 * σ.taken + 1 := by omega
  simp only [Fifo.size, hw, List.map_cons, List.sum_cons, List.length_cons, hcount, ofNat_succ_mul]
  ring

/-! ## What each function does -/

/-- A frame that is new. -/
theorem Holds.alloc (h : Holds L q m σ) {p : ℕ} (hfresh : σ.frame p = none) (len : BitVec 32) :
    Holds L q (m.insert p ⟨len, none⟩) { σ with frame := Function.update σ.frame p (some len) } := by
  have hp : p ∉ σ.waiting.map Prod.fst := by
    intro hmem
    obtain ⟨e, he, rfl⟩ := List.mem_map.1 hmem
    obtain ⟨c, hc, -⟩ := h.chain.cell he
    have hlive := h.live e.1
    rw [hc, hfresh] at hlive
    cases hlive
  refine ⟨h.chain.insert hp, h.tail, fun k => ?_, h.limits, h.frames, h.size, h.few⟩
  change _ = Function.update σ.frame p (some len) k
  by_cases hk : k = p
  · subst hk
    rw [Finmap.lookup_insert, Function.update_self]
    rfl
  · rw [Finmap.lookup_insert_of_ne _ hk, Function.update_of_ne hk]
    exact h.live k

/-- A frame that does not wait is discarded. -/
theorem Holds.discard (h : Holds L q m σ) {p : ℕ} (hp : p ∉ σ.waiting.map Prod.fst) :
    Holds L q (m.erase p) { σ with frame := Function.update σ.frame p none } := by
  refine ⟨h.chain.erase hp, h.tail, fun k => ?_, h.limits, h.frames, h.size, h.few⟩
  change _ = Function.update σ.frame p none k
  by_cases hk : k = p
  · subst hk
    rw [Finmap.lookup_erase, Function.update_self]
    rfl
  · rw [Finmap.lookup_erase_ne hk, Function.update_of_ne hk]
    exact h.live k

/-- With both checks passed. -/
theorem enqueue_eq {p : ℕ} {len : BitVec 32} {next : Option ℕ} (hframes : ¬(q.max_frames ≠ 0 ∧ q.max_frames ≤ q.frames))
    (hc : m.lookup p = some ⟨len, next⟩) (hsize : ¬(q.max_size ≠ 0 ∧ q.max_size < len + q.size)) {q' : PicoQueue}
    {m' : Frames} (hlink : q.link (m.insert p ⟨len, none⟩) p = some (q', m')) :
    q.pico_enqueue m p = some (q'.size + (len + q'.overhead.setWidth 32),
      { q' with size := q'.size + (len + q'.overhead.setWidth 32), frames := q'.frames + 1 }, m') := by
  rw [pico_enqueue, if_neg hframes, hc, Option.bind_eq_bind, Option.bind_some, if_neg hsize, hlink,
    Option.bind_eq_bind, Option.bind_some]

/-- **A frame is linked** behind those that wait. -/
theorem enqueue_room (h : Holds L q m σ) {p : ℕ} {len : BitVec 32} (hp : σ.frame p = some len)
    (hwaiting : p ∉ σ.waiting.map Prod.fst) (hfew : σ.waiting.length + 1 < 2 ^ 32) (hroom : σ.Room L len) :
    ∃ q' m', q.pico_enqueue m p = some ((σ.put p len).size L, q', m') ∧ Holds L q' m' (σ.put p len) := by
  obtain rfl := h.limits
  obtain ⟨next, hc⟩ := exists_cell h hp
  obtain ⟨hframes, hsize⟩ := (h.room_iff len).1 hroom
  have hlive : ∀ k, ((m.insert p ⟨len, none⟩).lookup k).map Cell.value = σ.frame k := fun k =>
    (value_insert hc none k).trans (h.live k)
  obtain hnil | ⟨es, e, hes⟩ := σ.waiting.eq_nil_or_concat
  · have hhead : q.head = none := by rw [h.head_eq, hnil, List.head?_nil, Option.map_none]
    have hput : (σ.put p len).waiting = [(p, len)] := by rw [Fifo.put, hnil, List.nil_append]
    have hlink : q.link (m.insert p ⟨len, none⟩) p =
        some ({ q with head := some p, tail := some p, size := 0, frames := 0 }, m.insert p ⟨len, none⟩) := by
      rw [link, hhead]
    refine ⟨{ q with head := some p, tail := some p, size := (σ.put p len).size q.toQueueLimits, frames := 0 + 1 },
      m.insert p ⟨len, none⟩, ?_, ?_, ?_, hlive, h.limits, ?_, rfl, ?_⟩
    · rw [enqueue_eq hframes hc hsize hlink]
      simp only [size_put_nil hnil, zero_add]
    · rw [hput]
      exact ⟨rfl, ⟨len, none⟩, Finmap.lookup_insert _, rfl, rfl⟩
    · rw [hput]
      rfl
    · rw [hput]
      rfl
    · rw [hput]
      exact Nat.one_lt_two_pow (by decide)
  · rw [List.concat_eq_append] at hes
    have hne : σ.waiting ≠ [] := by
      rw [hes]
      exact List.concat_ne_nil e es
    have hput : (σ.put p len).waiting = es ++ [e, (p, len)] := by
      rw [Fifo.put, hes, List.append_assoc, List.singleton_append]
    obtain ⟨first, hfirst⟩ : ∃ first, q.head = some first := by
      rw [h.head_eq, List.head?_eq_some_head hne]
      exact ⟨_, rfl⟩
    have htail : q.tail = some e.1 := by rw [h.tail, hes, List.getLast?_concat, Option.map_some]
    have hchain := h.chain
    rw [hes] at hchain hwaiting
    obtain ⟨c, hlast, hchain'⟩ := hchain.link (v := len) hwaiting rfl
    have hlink : q.link (m.insert p ⟨len, none⟩) p = some ({ q with tail := some p },
        (m.insert p ⟨len, none⟩).insert e.1 { c with next := some p }) := by
      rw [link, hfirst]
      simp only [htail, hlast, Option.bind_eq_bind, Option.bind_some]
    have hcount : (es ++ [e, (p, len)]).length = (es ++ [e]).length + 1 := by simp
    refine ⟨{ q with tail := some p, size := (σ.put p len).size q.toQueueLimits, frames := q.frames + 1 },
      (m.insert p ⟨len, none⟩).insert e.1 { c with next := some p }, ?_, ?_, ?_, ?_, h.limits, ?_, rfl, ?_⟩
    · rw [enqueue_eq hframes hc hsize hlink]
      simp only [size_put hne, h.size]
    · rw [hput]
      exact hchain'
    · rw [hput]
      simp
    · exact fun k => (value_insert hlast (some p) k).trans (hlive k)
    · rw [hput, hcount, h.frames, hes, BitVec.ofNat_add]
      rfl
    · rw [hput, hcount]
      rwa [hes] at hfew

/-- **A frame for which there is no room** is left alone. -/
theorem enqueue_full (h : Holds L q m σ) {p : ℕ} {len : BitVec 32} (hp : σ.frame p = some len)
    (hroom : ¬σ.Room L len) : q.pico_enqueue m p = some (-1, q, m) := by
  obtain ⟨next, hc⟩ := exists_cell h hp
  unfold pico_enqueue
  by_cases hframes : q.max_frames ≠ 0 ∧ q.max_frames ≤ q.frames
  · rw [if_pos hframes]
  · have hsize : q.max_size ≠ 0 ∧ q.max_size < len + q.size := by
      by_contra hsize
      exact hroom ((h.room_iff len).2 ⟨hframes, hsize⟩)
    rw [if_neg hframes, hc, Option.bind_eq_bind, Option.bind_some, if_pos hsize]

theorem dequeue_nil (h : Holds L q m σ) (hw : σ.waiting = []) : q.pico_dequeue m = some (none, q, m) := by
  have hhead : q.head = none := by rw [h.head_eq, hw, List.head?_nil, Option.map_none]
  rw [pico_dequeue, hhead]

/-- It is not taken for empty. -/
theorem Holds.frames_pos (h : Holds L q m σ) (hw : σ.waiting ≠ []) : ¬q.frames < 1 := by
  have hpos := List.length_pos_iff.2 hw
  rw [BitVec.lt_def, h.toNat_frames]
  exact Nat.not_lt.2 hpos

/-- **The first frame is taken out**. -/
theorem dequeue_cons (h : Holds L q m σ) {e : ℕ × BitVec 32} {rest : List (ℕ × BitVec 32)}
    (hw : σ.waiting = e :: rest) : ∃ q' m', q.pico_dequeue m = some (some e.1, q', m') ∧
      Holds L q' m' { σ with waiting := rest, taken := σ.taken + 1 } := by
  have hne : σ.waiting ≠ [] := by
    rw [hw]
    exact List.cons_ne_nil e rest
  have hchain := h.chain
  rw [hw] at hchain
  have hnodup := hchain.nodup
  rw [List.map_cons, List.nodup_cons] at hnodup
  obtain ⟨hhead, c, hc, hvalue, hrest⟩ := hchain
  have hlen := h.few
  rw [hw, List.length_cons] at hlen
  refine ⟨{ q with
    head := c.next
    frames := q.frames - 1
    size := q.size - (c.value - q.overhead.setWidth 32)
    tail := if c.next = none then none else q.tail }, m.insert e.1 ⟨c.value, none⟩, ?_,
    hrest.insert hnodup.1, ?_, ?_, h.limits, ?_, ?_, Nat.lt_of_succ_lt hlen⟩
  · rw [pico_dequeue, hhead]
    simp only [h.frames_pos hne, hc, if_false, Option.bind_eq_bind, Option.bind_some]
  · have hnext := hrest.head_eq
    cases rest with
    | nil => simp [hnext]
    | cons f rest =>
      simp only [hnext, List.head?_cons, Option.map_some, reduceCtorEq, if_false, h.tail, hw]
      rw [List.getLast?_cons_cons]
  · exact fun k => (value_insert hc none k).trans (h.live k)
  · simp only [h.frames, hw, List.length_cons, BitVec.ofNat_add]
    exact BitVec.add_sub_cancel _ _
  · rw [size_take hw, ← h.size, hvalue, ← h.limits]

/-- **`pico_queue_peek`**. -/
theorem peek_spec (h : Holds L q m σ) : q.pico_queue_peek = σ.waiting.head?.map Prod.fst := by
  rw [← h.head_eq, pico_queue_peek]
  cases hw : σ.waiting with
  | nil =>
    have hhead : q.head = none := by rw [h.head_eq, hw, List.head?_nil, Option.map_none]
    rw [hhead, ite_self]
  | cons e rest =>
    have hne : σ.waiting ≠ [] := by
      rw [hw]
      exact List.cons_ne_nil e rest
    rw [if_neg (h.frames_pos hne)]

theorem clear_nil (hw : σ.waiting = []) : σ.clear = σ := by
  cases σ
  obtain rfl := hw
  simp [Fifo.clear]

theorem emptyLoop_spec {turns : ℕ} (h : Holds L q m σ) (hturns : σ.waiting.length < turns) :
    ∃ q' m', emptyLoop turns q m = some (q', m') ∧ Holds L q' m' σ.clear := by
  induction turns generalizing q m σ with
  | zero => exact absurd hturns (Nat.not_lt_zero _)
  | succ turns ih =>
    cases hw : σ.waiting with
    | nil =>
      refine ⟨q, m, ?_, by rwa [clear_nil hw]⟩
      rw [emptyLoop, dequeue_nil h hw, Option.bind_eq_bind, Option.bind_some]
    | cons e rest =>
      obtain ⟨q₁, m₁, hdequeue, h₁⟩ := dequeue_cons h hw
      have hnodup := h.chain.nodup
      rw [hw, List.map_cons, List.nodup_cons] at hnodup
      have hdiscard := h₁.discard hnodup.1
      have hlen : rest.length < turns := by
        rw [hw, List.length_cons] at hturns
        exact Nat.lt_of_succ_lt_succ hturns
      obtain ⟨q', m', hloop, h'⟩ := ih hdiscard hlen
      refine ⟨q', m', ?_, ?_⟩
      · rw [emptyLoop, hdequeue, Option.bind_eq_bind, Option.bind_some]
        exact hloop
      · have hclear : σ.clear = Fifo.clear { σ with
            frame := Function.update σ.frame e.1 none, waiting := rest, taken := σ.taken + 1 } := by
          have hcount : σ.taken + (rest.length + 1) = σ.taken + 1 + rest.length := by omega
          rw [Fifo.clear, Fifo.clear, hw, List.length_cons, hcount]
          congr 1
          funext k
          by_cases hk : k = e.1
          · simp [hk]
          · simp [hk]
        rwa [hclear]

/-- **`pico_queue_empty`** discards every frame, in as many turns as there are. -/
theorem empty_spec (h : Holds L q m σ) : ∃ q' m', q.pico_queue_empty m = some (q', m') ∧ Holds L q' m' σ.clear :=
  emptyLoop_spec h (Nat.lt_succ_of_le h.chain.length_le)

/-! ## Runs -/

/-- **One event.** -/
theorem exec_spec (h : Holds L q m σ) {e : QueueEvent} {a : QueueAnswer} {σ' : Fifo} (he : σ.exec L e = some (a, σ')) :
    ∃ q' m', q.exec m e = some (a, q', m') ∧ Holds L q' m' σ' := by
  cases e with
  | alloc p len =>
    simp only [Fifo.exec, Option.ite_none_right_eq_some, Option.some.injEq, Prod.mk.injEq] at he
    obtain ⟨hfresh, rfl, rfl⟩ := he
    exact ⟨q, _, rfl, h.alloc hfresh len⟩
  | discard p =>
    simp only [Fifo.exec, Option.ite_none_right_eq_some, Option.some.injEq, Prod.mk.injEq] at he
    obtain ⟨⟨hp, hwaiting⟩, rfl, rfl⟩ := he
    obtain ⟨len, hp⟩ := Option.ne_none_iff_exists'.1 hp
    obtain ⟨next, hc⟩ := exists_cell h hp
    refine ⟨q, m.erase p, ?_, h.discard hwaiting⟩
    rw [exec, hc, Option.bind_eq_bind, Option.bind_some]
  | enqueue p =>
    simp only [Fifo.exec, Option.bind_eq_bind, Option.bind_eq_some_iff, Option.ite_none_right_eq_some] at he
    obtain ⟨len, hp, ⟨hwaiting, hfew⟩, he⟩ := he
    split at he
    case isTrue hroom =>
      obtain ⟨rfl, rfl⟩ := Prod.mk.inj (Option.some.inj he)
      obtain ⟨q', m', henqueue, h'⟩ := enqueue_room h hp hwaiting hfew hroom
      refine ⟨q', m', ?_, h'⟩
      rw [exec, henqueue, Option.bind_eq_bind, Option.bind_some]
    case isFalse hroom =>
      obtain ⟨rfl, rfl⟩ := Prod.mk.inj (Option.some.inj he)
      refine ⟨q, m, ?_, h⟩
      rw [exec, enqueue_full h hp hroom, Option.bind_eq_bind, Option.bind_some]
  | dequeue =>
    cases hw : σ.waiting with
    | nil =>
      simp only [Fifo.exec, hw, Option.some.injEq, Prod.mk.injEq] at he
      obtain ⟨rfl, rfl⟩ := he
      refine ⟨q, m, ?_, h⟩
      rw [exec, dequeue_nil h hw, Option.bind_eq_bind, Option.bind_some]
    | cons e rest =>
      simp only [Fifo.exec, hw, Option.some.injEq, Prod.mk.injEq] at he
      obtain ⟨rfl, rfl⟩ := he
      obtain ⟨q', m', hdequeue, h'⟩ := dequeue_cons h hw
      refine ⟨q', m', ?_, h'⟩
      rw [exec, hdequeue, Option.bind_eq_bind, Option.bind_some]
  | peek =>
    obtain ⟨rfl, rfl⟩ := Prod.mk.inj (Option.some.inj he)
    refine ⟨q, m, ?_, h⟩
    rw [exec, peek_spec h]
  | empty =>
    obtain ⟨rfl, rfl⟩ := Prod.mk.inj (Option.some.inj he)
    obtain ⟨q', m', hempty, h'⟩ := empty_spec h
    refine ⟨q', m', ?_, h'⟩
    rw [exec, hempty, Option.bind_eq_bind, Option.bind_some]

theorem run_spec (h : Holds L q m σ) {es : List QueueEvent} {as : List QueueAnswer} {σ' : Fifo}
    (hrun : σ.run L es = some (as, σ')) : ∃ q' m', q.run m es = some (as, q', m') ∧ Holds L q' m' σ' := by
  induction es generalizing q m σ as with
  | nil =>
    obtain ⟨rfl, rfl⟩ := Prod.mk.inj (Option.some.inj hrun)
    exact ⟨q, m, rfl, h⟩
  | cons e es ih =>
    simp only [Fifo.run, Option.bind_eq_bind, Option.bind_eq_some_iff, Prod.exists] at hrun
    obtain ⟨a, σ₁, he, as', σ₂, hrest, hend⟩ := hrun
    obtain ⟨rfl, rfl⟩ := Prod.mk.inj (Option.some.inj hend)
    obtain ⟨q₁, m₁, hexec, h₁⟩ := exec_spec h he
    obtain ⟨q', m', hrun', h'⟩ := ih h₁ hrest
    refine ⟨q', m', ?_, h'⟩
    rw [run, hexec, Option.bind_eq_bind, Option.bind_some]
    dsimp only
    rw [hrun', Option.bind_eq_bind, Option.bind_some]

/-- A queue that is empty, and no frame. -/
theorem holds_start (L : QueueLimits) : Holds L { toQueueLimits := L } ∅ {} :=
  ⟨rfl, rfl, fun _ => rfl, rfl, rfl, by simp [Fifo.size], Nat.two_pow_pos 32⟩

/-- **The frames come out as they went in.** Every run of a queue, in which a frame that waits is let alone and 2^32
never wait, has valid accesses only, and answers as a fifo does. -/
theorem queueRun_refines (L : QueueLimits) (es : List QueueEvent) (as : List QueueAnswer) (σ : Fifo)
    (hrun : ({} : Fifo).run L es = some (as, σ)) :
    ∃ q m, PicoQueue.run { toQueueLimits := L } ∅ es = some (as, q, m) ∧ Holds L q m σ :=
  run_spec (holds_start L) hrun

/-- A queue for one frame, and two of them. -/
theorem queueRun_refines_two : ∃ q m, PicoQueue.run { max_frames := 1, max_size := 100, overhead := 4 } ∅
    [.alloc 8 10, .alloc 16 20, .enqueue 8, .enqueue 16, .peek, .dequeue, .enqueue 16, .empty, .dequeue] =
      some ([.done, .done, .size 14, .size (-1), .frame (some 8), .frame (some 8), .size 24, .done, .frame none],
        q, m) := by
  obtain ⟨q, m, hrun, -⟩ := queueRun_refines { max_frames := 1, max_size := 100, overhead := 4 } _ _ _
    (show ({} : Fifo).run { max_frames := 1, max_size := 100, overhead := 4 }
      [.alloc 8 10, .alloc 16 20, .enqueue 8, .enqueue 16, .peek, .dequeue, .enqueue 16, .empty, .dequeue] =
        some ([.done, .done, .size 14, .size (-1), .frame (some 8), .frame (some 8), .size 24, .done, .frame none], _)
      from rfl)
  exact ⟨q, m, hrun⟩

/-! ## The limits -/

/-- **Within the limits**, and no frame is so long that its size wraps. -/
structure Within (L : QueueLimits) (σ : Fifo) : Prop where
  frames : L.max_frames ≠ 0 → σ.waiting.length ≤ L.max_frames.toNat
  bytes : L.max_size ≠ 0 → (σ.waiting.map fun e => e.2.toNat).sum ≤ L.max_size.toNat
  short : ∀ p len, σ.frame p = some len → len.toNat + L.max_size.toNat < 2 ^ 32

theorem sum_eq_ofNat (es : List (ℕ × BitVec 32)) :
    (es.map Prod.snd).sum = BitVec.ofNat 32 (es.map fun e => e.2.toNat).sum := by
  induction es with
  | nil => rfl
  | cons e es ih =>
    rw [List.map_cons, List.sum_cons, ih, List.map_cons, List.sum_cons, BitVec.ofNat_add, BitVec.ofNat_toNat,
      BitVec.setWidth_eq]

/-- **The size is exact** then. -/
theorem Within.size_eq (h : Within L σ) (hoverhead : L.overhead = 0) (hmax : L.max_size ≠ 0) :
    (σ.size L).toNat = (σ.waiting.map fun e => e.2.toNat).sum := by
  have hlt := lt_of_le_of_lt (h.bytes hmax) L.max_size.isLt
  have hzero : BitVec.setWidth 32 (0 : BitVec 16) = 0 := rfl
  rw [Fifo.size, hoverhead, hzero, mul_zero, add_zero, sum_eq_ofNat, BitVec.toNat_ofNat, Nat.mod_eq_of_lt hlt]

/-- A frame for which there is room. -/
theorem Within.put (h : Within L σ) (hoverhead : L.overhead = 0) {p : ℕ} {len : BitVec 32}
    (hp : σ.frame p = some len) (hroom : σ.Room L len) : Within L (σ.put p len) := by
  refine ⟨fun hmax => ?_, fun hmax => ?_, h.short⟩
  · have hlt := hroom.1 hmax
    rw [Fifo.put, List.length_append]
    exact hlt
  · have hle := hroom.2 hmax
    have hbytes := h.bytes hmax
    have hshort := h.short p len hp
    rw [BitVec.le_def, BitVec.toNat_add, h.size_eq hoverhead hmax, Nat.mod_eq_of_lt (by omega)] at hle
    simp only [Fifo.put, List.map_append, List.sum_append, List.map_cons, List.map_nil, List.sum_cons, List.sum_nil]
    omega

theorem Within.exec (h : Within L σ) (hoverhead : L.overhead = 0) {e : QueueEvent} {a : QueueAnswer} {σ' : Fifo}
    (halloc : ∀ p len, e = .alloc p len → len.toNat + L.max_size.toNat < 2 ^ 32)
    (he : σ.exec L e = some (a, σ')) : Within L σ' := by
  cases e with
  | alloc p len =>
    simp only [Fifo.exec, Option.ite_none_right_eq_some, Option.some.injEq, Prod.mk.injEq] at he
    obtain ⟨-, -, rfl⟩ := he
    refine ⟨h.frames, h.bytes, fun k len' hk => ?_⟩
    dsimp only at hk
    by_cases hkp : k = p
    · rw [hkp, Function.update_self] at hk
      obtain rfl := Option.some.inj hk
      exact halloc p len rfl
    · rw [Function.update_of_ne hkp] at hk
      exact h.short k len' hk
  | discard p =>
    simp only [Fifo.exec, Option.ite_none_right_eq_some, Option.some.injEq, Prod.mk.injEq] at he
    obtain ⟨-, -, rfl⟩ := he
    refine ⟨h.frames, h.bytes, fun k len hk => ?_⟩
    dsimp only at hk
    by_cases hkp : k = p
    · rw [hkp, Function.update_self] at hk
      cases hk
    · rw [Function.update_of_ne hkp] at hk
      exact h.short k len hk
  | enqueue p =>
    simp only [Fifo.exec, Option.bind_eq_bind, Option.bind_eq_some_iff, Option.ite_none_right_eq_some] at he
    obtain ⟨len, hp, -, he⟩ := he
    split at he
    case isTrue hroom =>
      obtain ⟨-, rfl⟩ := Prod.mk.inj (Option.some.inj he)
      exact h.put hoverhead hp hroom
    case isFalse hroom =>
      obtain ⟨-, rfl⟩ := Prod.mk.inj (Option.some.inj he)
      exact h
  | dequeue =>
    cases hw : σ.waiting with
    | nil =>
      simp only [Fifo.exec, hw, Option.some.injEq, Prod.mk.injEq] at he
      obtain ⟨-, rfl⟩ := he
      exact h
    | cons e rest =>
      simp only [Fifo.exec, hw, Option.some.injEq, Prod.mk.injEq] at he
      obtain ⟨-, rfl⟩ := he
      refine ⟨fun hmax => ?_, fun hmax => ?_, h.short⟩
      · have hle := h.frames hmax
        rw [hw, List.length_cons] at hle
        exact Nat.le_of_succ_le hle
      · have hle := h.bytes hmax
        rw [hw, List.map_cons, List.sum_cons] at hle
        exact le_trans (Nat.le_add_left _ _) hle
  | peek =>
    obtain ⟨-, rfl⟩ := Prod.mk.inj (Option.some.inj he)
    exact h
  | empty =>
    obtain ⟨-, rfl⟩ := Prod.mk.inj (Option.some.inj he)
    refine ⟨fun _ => Nat.zero_le _, fun _ => Nat.zero_le _, fun k len hk => ?_⟩
    simp only [Fifo.clear, Option.ite_none_left_eq_some] at hk
    exact h.short k len hk.2

theorem Within.run (h : Within L σ) (hoverhead : L.overhead = 0) {es : List QueueEvent} {as : List QueueAnswer}
    {σ' : Fifo} (halloc : ∀ p len, QueueEvent.alloc p len ∈ es → len.toNat + L.max_size.toNat < 2 ^ 32)
    (hrun : σ.run L es = some (as, σ')) : Within L σ' := by
  induction es generalizing σ as with
  | nil =>
    obtain ⟨-, rfl⟩ := Prod.mk.inj (Option.some.inj hrun)
    exact h
  | cons e es ih =>
    simp only [Fifo.run, Option.bind_eq_bind, Option.bind_eq_some_iff, Prod.exists] at hrun
    obtain ⟨a, σ₁, he, as', σ₂, hrest, hend⟩ := hrun
    obtain ⟨-, rfl⟩ := Prod.mk.inj (Option.some.inj hend)
    have h₁ := h.exec hoverhead (fun p len hp => halloc p len (hp ▸ List.mem_cons_self)) he
    exact ih h₁ (fun p len hmem => halloc p len (List.mem_cons_of_mem e hmem)) hrest

/-- **The limits are kept**, when there is no overhead and no frame is so long that its size wraps: the frames that
the links lead to are as many as `frames` says, and no more than `max_frames` where that is set; where `max_size`
is set they take what `size` says, and no more than that. -/
theorem queueRun_bounded (L : QueueLimits) (hoverhead : L.overhead = 0) (es : List QueueEvent) (as : List QueueAnswer)
    (σ : Fifo) (halloc : ∀ p len, QueueEvent.alloc p len ∈ es → len.toNat + L.max_size.toNat < 2 ^ 32)
    (hrun : ({} : Fifo).run L es = some (as, σ)) : ∃ q m,
      PicoQueue.run { toQueueLimits := L } ∅ es = some (as, q, m) ∧ Chain m Eq q.head σ.waiting none ∧
      q.frames.toNat = σ.waiting.length ∧ (L.max_frames ≠ 0 → q.frames ≤ L.max_frames) ∧
      (L.max_size ≠ 0 → q.size.toNat = (σ.waiting.map fun e => e.2.toNat).sum ∧ q.size ≤ L.max_size) := by
  obtain ⟨q, m, hq, h⟩ := run_spec (holds_start L) hrun
  have hstart : Within L {} := ⟨fun _ => Nat.zero_le _, fun _ => Nat.zero_le _, fun _ _ hp => by cases hp⟩
  have hwithin := hstart.run hoverhead halloc hrun
  refine ⟨q, m, hq, h.chain, h.toNat_frames, fun hmax => ?_, fun hmax => ?_⟩
  · rw [BitVec.le_def, h.toNat_frames]
    exact hwithin.frames hmax
  · have hsize := hwithin.size_eq hoverhead hmax
    rw [BitVec.le_def, h.size, hsize]
    exact ⟨rfl, hwithin.bytes hmax⟩

/-- A frame of 20 bytes, where 30 are allowed. -/
theorem queueRun_bounded_two : ∃ q m, PicoQueue.run { max_size := 30 } ∅ [.alloc 8 20, .enqueue 8] =
    some ([.done, .size 20], q, m) ∧ q.frames.toNat = 1 ∧ q.size.toNat = 20 ∧ q.size ≤ 30 := by
  have halloc : ∀ p len, QueueEvent.alloc p len ∈ [QueueEvent.alloc 8 20, .enqueue 8] →
      len.toNat + (30 : BitVec 32).toNat < 2 ^ 32 := by
    intro p len hmem
    obtain ⟨rfl, rfl⟩ : p = 8 ∧ len = 20 := by simpa using hmem
    decide
  obtain ⟨q, m, hrun, -, hframes, -, hsize⟩ := queueRun_bounded { max_size := 30 } rfl _ _ _ halloc
    (show ({} : Fifo).run { max_size := 30 } [.alloc 8 20, .enqueue 8] = some ([.done, .size 20], _) from rfl)
  obtain ⟨hsum, hle⟩ := hsize (by decide)
  exact ⟨q, m, hrun, hframes, hsum, hle⟩

end PicoQueue

end Vdetelweb
