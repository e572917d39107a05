import Vdetelweb.Lib.Heaps
import Vdetelweb.Lib.Runs
import Vdetelweb.Spec.Timers

/-!
# `heap.h` is a priority queue

The array of the heap is allocated one entry at a time, by a size that runs ahead of the number of
entries, and no access leaves it as long as there are fewer than 2^31 entries (`heapRun_queue`): with
more, the index of a child wraps around. `heap_insert` puts an entry in, or leaves the heap as it is
when there is no memory, and `heap_peek` takes out one with the least key.
-/

namespace Vdetelweb

open Function Heaps

variable {α : Type} {orderby : α → ℕ}

namespace Area

theorem read_of_lt {a : Area α} {i : ℕ} (h : i < a.length) : a.read i = some (a.cell i) := if_pos h

theorem write_of_lt {a : Area α} {i : ℕ} (h : i < a.length) (el : α) :
    a.write i el = some { a with cell := update a.cell i el } := if_pos h

end Area

theorem u32_of_lt {k : ℕ} (h : k < 2 ^ 32) : u32 k = k := Nat.mod_eq_of_lt h

namespace PicoHeap

/-! ## The loops -/

/-- **Where the hole rises to.** It leaves the first cell alone if that is no more than what is let in. -/
theorem riseLoop_spec {el : α} {n : ℕ} {top : Area α} {i : ℕ}
    (h : Rising orderby top.cell n i (orderby el)) (hn : n < top.length) :
    ∃ top' j, riseLoop orderby el top i = some (top', j) ∧ top'.length = top.length ∧ j ≤ n ∧
      IsHeap orderby (update top'.cell j el) n ∧
      content (update top'.cell j el) n = content (update top.cell i el) n ∧
      (2 ≤ i → orderby (top.cell 1) ≤ orderby el → update top'.cell j el 1 = top.cell 1) := by
  induction i using Nat.strong_induction_on generalizing top with
  | _ i ih =>
    have hpos := h.pos
    have hle := h.le
    rw [riseLoop]
    by_cases hi : 1 < i
    · rw [dif_pos hi, Area.read_of_lt (by omega), Option.bind_eq_bind, Option.bind_some]
      by_cases hgt : orderby (top.cell (i / 2)) > orderby el
      · rw [if_pos hgt, Area.write_of_lt (by omega), Option.bind_eq_bind, Option.bind_some]
        have hup : Rising orderby ({ top with cell := update top.cell i (top.cell (i / 2)) } : Area α).cell n
            (i / 2) (orderby el) := h.up hi hgt
        obtain ⟨top', j, hloop, hlen, hj, hheap, hcontent, hfirst⟩ := ih (i / 2) (by omega) hup hn
        refine ⟨top', j, hloop, hlen, hj, hheap, ?_, fun _ hel => ?_⟩
        · rw [hcontent, content_move ⟨hpos, hle⟩ ⟨by omega, by omega⟩]
        · -- the first cell is not the parent, which is more than what is let in
          have h4 : 4 ≤ i := by
            by_contra hlt
            have : i / 2 = 1 := by omega
            rw [this] at hgt
            omega
          have hone : update top.cell i (top.cell (i / 2)) 1 = top.cell 1 := update_of_ne (by omega) _ _
          rw [hfirst (by omega) (by dsimp only; rw [hone]; exact hel)]
          exact hone
      · rw [if_neg hgt]
        refine ⟨top, i, rfl, rfl, hle, h.fill fun _ => Nat.le_of_not_lt hgt, rfl, fun _ _ => ?_⟩
        exact update_of_ne (by omega) _ _
    · rw [dif_neg hi]
      exact ⟨top, i, rfl, rfl, hle, h.fill fun h2 => by omega, rfl, fun h2 => by omega⟩

variable (orderby) in
/-- **The child that is compared** is the one with the lesser key. -/
theorem exists_lesserChild {n i : ℕ} {top : Area α} (h : i * 2 ≤ n) (hn : n < top.length) (hbound : n < 2 ^ 31) :
    ∃ child, lesserChild orderby n top i = some child ∧ child / 2 = i ∧ child ≤ n ∧
      ∀ j, j ≤ n → j / 2 = i → orderby (top.cell child) ≤ orderby (top.cell j) := by
  have hcases : ∀ j, j / 2 = i → j = 2 * i ∨ j = 2 * i + 1 := fun j hj => by omega
  unfold lesserChild
  dsimp only
  rw [u32_of_lt (by omega : 2 * i < 2 ^ 32), u32_of_lt (by omega : 2 * i + 1 < 2 ^ 32)]
  by_cases heq : 2 * i = n
  · refine ⟨2 * i, if_pos heq, by omega, by omega, fun j hj hji => ?_⟩
    rcases hcases j hji with rfl | rfl
    · exact le_rfl
    · omega
  · rw [if_neg heq, Area.read_of_lt (by omega), Area.read_of_lt (by omega)]
    by_cases hlt : orderby (top.cell (2 * i + 1)) < orderby (top.cell (2 * i))
    · refine ⟨2 * i + 1, by simp [hlt], by omega, by omega, fun j _ hji => ?_⟩
      rcases hcases j hji with rfl | rfl
      · exact hlt.le
      · exact le_rfl
    · refine ⟨2 * i, by simp [hlt], by omega, by omega, fun j _ hji => ?_⟩
      rcases hcases j hji with rfl | rfl
      · exact le_rfl
      · exact Nat.le_of_not_lt hlt

/-- **Where the hole falls to.** -/
theorem fallLoop_spec {n turns : ℕ} {top : Area α} {i : ℕ} (hpos : 0 < i)
    (h : Falling orderby top.cell n i (orderby (top.cell (n + 1)))) (hn : n + 1 < top.length)
    (hi : i ≤ n + 1) (hbound : n + 1 < 2 ^ 31) (hturns : n + 1 - i < turns) :
    ∃ top' j, fallLoop orderby n (n + 1) turns top i = some (top', j) ∧ top'.length = top.length ∧
      j ≤ n + 1 ∧ top'.cell (n + 1) = top.cell (n + 1) ∧
      IsHeap orderby (update top'.cell j (top.cell (n + 1))) n ∧
      content (update top'.cell j (top.cell (n + 1))) n = content (update top.cell i (top.cell (n + 1))) n := by
  induction turns generalizing top i with
  | zero => exact absurd hturns (Nat.not_lt_zero _)
  | succ turns ih =>
    rw [fallLoop, u32_of_lt (by omega : i * 2 < 2 ^ 32)]
    by_cases hchildren : i * 2 ≤ n
    · have hlen : n < top.length := by omega
      obtain ⟨child, hchild, hparent, hcn, hleast⟩ := exists_lesserChild orderby hchildren hlen (by omega)
      rw [if_pos hchildren, hchild, Area.read_of_lt hn]
      simp only [Option.bind_eq_bind, Option.bind_some]
      rw [Area.read_of_lt (by omega), Option.bind_some]
      by_cases hgt : orderby (top.cell (n + 1)) > orderby (top.cell child)
      · rw [if_pos hgt, Area.write_of_lt (by omega), Option.bind_some]
        have hlast : update top.cell i (top.cell child) (n + 1) = top.cell (n + 1) := update_of_ne (by omega) _ _
        have hdown : Falling orderby ({ top with cell := update top.cell i (top.cell child) } : Area α).cell n
            child (orderby (update top.cell i (top.cell child) (n + 1))) := by
          rw [hlast]
          exact h.down hparent hcn hleast hgt
        obtain ⟨top', j, hloop, hlength, hj, hkept, hheap, hcontent⟩ :=
          ih (by omega) hdown hn (by omega) (by omega)
        dsimp only at hkept hheap hcontent
        rw [hlast] at hkept hheap hcontent
        refine ⟨top', j, hloop, hlength, hj, hkept, hheap, ?_⟩
        rw [hcontent, content_move ⟨hpos, by omega⟩ ⟨by omega, hcn⟩]
      · rw [if_neg hgt]
        refine ⟨top, i, rfl, rfl, hi, rfl, h.fill fun j hj hji => ?_, rfl⟩
        exact (Nat.le_of_not_lt hgt).trans (hleast j hj hji)
    · rw [if_neg hchildren]
      exact ⟨top, i, rfl, rfl, hi, rfl, h.fill fun j hj hji => by omega, rfl⟩

/-! ## The operations -/

variable (orderby) in
/-- **The heap is a queue** of these entries: they are in the array in the order of a heap, and the
array has room for them, and for as many as the size says. They are fewer than 2^31. -/
def Queues (h : PicoHeap α) (entries : Multiset α) : Prop :=
  match h.top with
  | none => h.n = 0 ∧ h.size = 0 ∧ entries = 0
  | some top => h.n < top.length ∧ h.size ≤ top.length ∧ h.n ≤ h.size ∧ h.n < 2 ^ 31 ∧
      IsHeap orderby top.cell h.n ∧ content top.cell h.n = entries

variable {h : PicoHeap α} {entries : Multiset α}

theorem queues_init : Queues orderby (init : PicoHeap α) 0 := ⟨rfl, rfl, rfl⟩

theorem Queues.card (hq : Queues orderby h entries) : entries.card = h.n := by
  unfold Queues at hq
  split at hq
  · obtain ⟨hn, -, rfl⟩ := hq
    rw [hn, Multiset.card_zero]
  · obtain ⟨-, -, -, -, -, rfl⟩ := hq
    exact card_content _ _

theorem first_eq {size n : ℕ} {top : Area α} (hn : n ≠ 0) (hlength : 1 < top.length) :
    (PicoHeap.mk size n (some top)).first = some (some (top.cell 1)) := by
  rw [first, if_neg hn, Option.bind_eq_bind, Option.bind_some, Area.read_of_lt hlength]
  rfl

/-- What is put in where there is room. -/
theorem place_spec (el : α) {size n : ℕ} {top : Area α} (hn : n + 1 < top.length) (hsize : size ≤ top.length)
    (hle : n + 1 ≤ size) (hbound : n + 1 < 2 ^ 31) (hheap : IsHeap orderby top.cell n) :
    ∃ h', place orderby el size (n + 1) top = some h' ∧ Queues orderby h' (el ::ₘ content top.cell n) ∧
      (1 ≤ n → orderby (top.cell 1) ≤ orderby el → h'.first = some (some (top.cell 1))) := by
  unfold place
  by_cases hone : n + 1 = 1
  · obtain rfl : n = 0 := by omega
    have hcontent : content (update top.cell 1 el) 1 = el ::ₘ content top.cell 0 := by
      rw [content_succ, content_zero, content_zero, update_self]
    have hsingle : IsHeap orderby (update top.cell 1 el) 1 := by
      intro i h2 hi
      omega
    rw [if_pos hone, Area.write_of_lt hn, Option.bind_eq_bind, Option.bind_some]
    exact ⟨_, rfl, ⟨hn, hsize, hle, hbound, hsingle, hcontent⟩, fun h => by omega⟩
  · obtain ⟨top', j, hloop, hlength, hj, hheap', hcontent, hfirst⟩ :=
      riseLoop_spec (hheap.rising (orderby el)) hn
    have hold : content (update top.cell (n + 1) el) (n + 1) = el ::ₘ content top.cell n := by
      rw [content_succ, update_self, content_update_of_lt (Nat.lt_succ_self n)]
    rw [← hlength] at hn hsize
    rw [if_neg hone, hloop, Option.bind_eq_bind, Option.bind_some]
    dsimp only
    rw [Area.write_of_lt (by omega), Option.bind_eq_bind, Option.bind_some]
    refine ⟨_, rfl, ⟨hn, hsize, hle, hbound, hheap', hcontent.trans hold⟩, fun hpos hel => ?_⟩
    have hone_lt : 1 < top'.length := by omega
    have hread : update top'.cell j el 1 = top.cell 1 := hfirst (by omega) hel
    rw [← hread]
    exact first_eq (Nat.succ_ne_zero n) hone_lt

theorem Queues.first_pos (hq : Queues orderby h entries) {a : α} (ha : h.first = some (some a)) :
    1 ≤ h.n ∧ ∀ top, h.top = some top → top.cell 1 = a := by
  have hn : h.n ≠ 0 := by
    intro hn
    rw [first, if_pos hn] at ha
    cases ha
  refine ⟨by omega, fun top htop => ?_⟩
  unfold Queues at hq
  rw [htop] at hq
  rw [first, if_neg hn, htop, Option.bind_eq_bind, Option.bind_some, Area.read_of_lt (by omega)] at ha
  cases ha
  rfl

/-- The array of a heap that grows: the entries are copied, and there is room for one more. -/
theorem Queues.grown (hq : Queues orderby h entries) (zero : α) (hroom : h.n + 1 < 2 ^ 31) :
    ∃ top', h.newTop zero = some top' ∧ top'.length = h.n + 1 + 1 ∧
      IsHeap orderby top'.cell h.n ∧ content top'.cell h.n = entries ∧
      ∀ a, h.first = some (some a) → top'.cell 1 = a := by
  rcases h with ⟨size, n, top⟩
  dsimp only at hroom
  unfold newTop
  rw [u32_of_lt (by omega : n + 1 < 2 ^ 32), u32_of_lt (by omega : n + 1 + 1 < 2 ^ 32)]
  cases top with
  | none =>
    obtain ⟨hn, -, rfl⟩ := hq
    dsimp only at hn
    subst hn
    refine ⟨_, rfl, rfl, fun i h2 hi => ?_, content_zero _, fun a ha => ?_⟩
    · dsimp only at hi
      omega
    rw [first, if_pos rfl] at ha
    cases ha
  | some top =>
    have hfirst := fun a => hq.first_pos (a := a)
    obtain ⟨hn, hsize, hle, -, hheap, hcontent⟩ := hq
    dsimp only at hn hsize hle hheap hcontent hfirst
    have hsame : ∀ i, 1 ≤ i → i ≤ n → top.cell i = if i < n + 1 then top.cell i else zero :=
      fun i _ hi => (if_pos (by omega)).symm
    refine ⟨⟨n + 1 + 1, fun i => if i < n + 1 then top.cell i else zero⟩, if_pos ⟨hn, by omega⟩, rfl,
      isHeap_congr hsame hheap, (content_congr hsame).symm.trans hcontent, fun a ha => ?_⟩
    obtain ⟨hpos, hone⟩ := hfirst a ha
    exact (hsame 1 le_rfl hpos).symm.trans (hone top rfl)

/-- **`heap_insert`** puts the entry in, unless it needs memory that there is not. A first entry that
is no more than the new one stays where it is. -/
theorem Queues.insert (hq : Queues orderby h entries) (zero : α) (memory : Bool) (el : α)
    (hbound : h.n + 1 < 2 ^ 31) :
    (h.grows ∧ memory = false ∧ h.insert orderby zero memory el = some (false, h)) ∨
    ∃ h', h.insert orderby zero memory el = some (true, h') ∧ Queues orderby h' (el ::ₘ entries) ∧
      ∀ a, h.first = some (some a) → orderby a ≤ orderby el → h'.first = some (some a) := by
  -- what is left to do once there is room
  have hroom : ∀ (size : ℕ) (top : Area α), h.n + 1 < top.length → size ≤ top.length → h.n + 1 ≤ size →
      IsHeap orderby top.cell h.n → content top.cell h.n = entries →
      (∀ a, h.first = some (some a) → top.cell 1 = a) →
      ∃ h', (some top).bind (fun top => (place orderby el size (h.n + 1) top).bind fun h => some (true, h)) =
          some (true, h') ∧
        Queues orderby h' (el ::ₘ entries) ∧
          ∀ a, h.first = some (some a) → orderby a ≤ orderby el → h'.first = some (some a) := by
    intro size top hn hsize hle hheap hcontent hone
    obtain ⟨h', hplace, hq', hfirst⟩ := place_spec el hn hsize hle hbound hheap
    rw [hcontent] at hq'
    refine ⟨h', by rw [Option.bind_some, hplace, Option.bind_some], hq', fun a ha hel => ?_⟩
    rw [← hone a ha] at hel ⊢
    exact hfirst (hq.first_pos ha).1 hel
  have hnext : u32 (h.n + 1) = h.n + 1 := u32_of_lt (by omega)
  unfold PicoHeap.insert
  rw [hnext]
  by_cases hgrows : h.grows
  · cases memory with
    | false =>
      rw [if_pos hgrows, if_neg (by decide)]
      exact Or.inl ⟨hgrows, rfl, rfl⟩
    | true =>
      right
      have hge : h.size ≤ h.n + 1 := by
        rw [← hnext]
        exact hgrows
      have hle : h.n ≤ h.size := by
        unfold Queues at hq
        split at hq <;> omega
      obtain ⟨top, htop, hlength, hheap, hcontent, hone⟩ := hq.grown zero hbound
      rw [if_pos hgrows, if_pos rfl, htop, u32_of_lt (by omega : h.size + 1 < 2 ^ 32)]
      exact hroom (h.size + 1) top (by omega) (by omega) (by omega) hheap hcontent hone
  · right
    have hlt : h.n + 1 < h.size := by
      rw [← hnext]
      exact Nat.lt_of_not_le hgrows
    have hfirst := fun a => hq.first_pos (a := a)
    rw [if_neg hgrows]
    unfold Queues at hq
    split at hq
    · omega
    · rename_i top htop
      obtain ⟨hn, hsize, hle, -, hheap, hcontent⟩ := hq
      rw [htop]
      exact hroom h.size top (by omega) hsize (by omega) hheap hcontent fun a ha => (hfirst a ha).2 top htop

/-- **`heap_peek`** takes out the first entry, which has the least key. -/
theorem Queues.peek (hq : Queues orderby h entries) :
    (entries = 0 ∧ h.first = some none ∧ h.peek orderby = some (none, h)) ∨
    ∃ a rest h', entries = a ::ₘ rest ∧ h.first = some (some a) ∧ (∀ b ∈ entries, orderby a ≤ orderby b) ∧
      h.peek orderby = some (some a, h') ∧ Queues orderby h' rest := by
  have hcard := hq.card
  unfold PicoHeap.peek
  by_cases hzero : h.n = 0
  · left
    rw [if_pos hzero, first, if_pos hzero]
    exact ⟨Multiset.card_eq_zero.1 (hcard.trans hzero), rfl, rfl⟩
  · right
    rw [if_neg hzero]
    rcases h with ⟨size, n, top⟩
    cases top with
    | none => exact absurd hq.1 hzero
    | some top =>
      obtain ⟨hn, hsize, hle, hbound, hheap, rfl⟩ := hq
      obtain ⟨n, rfl⟩ := Nat.exists_eq_succ_of_ne_zero hzero
      dsimp only [Nat.succ_eq_add_one] at hn hsize hle hbound hheap ⊢
      have hone : 1 < top.length := by omega
      have hsmaller : IsHeap orderby top.cell n := hheap.mono (Nat.le_succ n)
      obtain ⟨top', j, hloop, hlength, hj, hkept, hheap', hcontent⟩ :=
        fallLoop_spec Nat.one_pos (hsmaller.falling (orderby (top.cell (n + 1)))) hn (by omega) (by omega)
          (Nat.lt_succ_self n)
      refine ⟨top.cell 1, content (update top.cell 1 (top.cell (n + 1))) n,
        ⟨size, n, some { top' with cell := update top'.cell j (top.cell (n + 1)) }⟩, content_first _ _,
        first_eq (Nat.succ_ne_zero n) hone, fun b hb => hheap.first_le_of_mem hb, ?_, ?_⟩
      · rw [Option.bind_eq_bind, Option.bind_some, Area.read_of_lt hone]
        simp only [Option.bind_eq_bind, Option.bind_some, Nat.add_sub_cancel, hloop]
        rw [Area.read_of_lt (by omega), hkept, Option.bind_some, Area.write_of_lt (by omega), Option.bind_some]
      · rw [← hlength] at hn hsize
        exact ⟨by dsimp only; omega, hsize, by dsimp only; omega, by dsimp only; omega, hheap', hcontent⟩

/-! ## Runs -/

/-- **A call on a priority queue**, with its answer. -/
inductive QueueStep (orderby : α → ℕ) : Multiset α → Call α → Answer α → Multiset α → Prop
  | inserted (entries memory el) : QueueStep orderby entries (.insert memory el) (.inserted true) (el ::ₘ entries)
  | refused (entries el) : QueueStep orderby entries (.insert false el) (.inserted false) entries
  | empty : QueueStep orderby 0 .peek (.peeked none) 0
  | least (a entries) : (∀ b ∈ entries, orderby a ≤ orderby b) →
      QueueStep orderby (a ::ₘ entries) .peek (.peeked (some a)) entries

/-- Calls one after the other. -/
inductive QueueRun (orderby : α → ℕ) : Multiset α → List (Call α) → List (Answer α) → Multiset α → Prop
  | nil (entries : Multiset α) : QueueRun orderby entries [] [] entries
  | cons {before between after : Multiset α} {c cs answer answers} : QueueStep orderby before c answer between →
      QueueRun orderby between cs answers after → QueueRun orderby before (c :: cs) (answer :: answers) after

/-- Fewer than 2^31 entries are in the heap after every call, also if no `heap_insert` fails. -/
def Fits (n : ℕ) (cs : List (Call α)) : Prop := Runs.Along Call.count (fun n c => c.count n < 2 ^ 31) n cs

theorem Queues.call (hq : Queues orderby h entries) (zero : α) {c : Call α} {n : ℕ} (hn : entries.card ≤ n)
    (hc : c.count n < 2 ^ 31) :
    ∃ answer h' entries', h.call orderby zero c = some (answer, h') ∧ Queues orderby h' entries' ∧
      QueueStep orderby entries c answer entries' ∧ entries'.card ≤ c.count n := by
  have hcard := hq.card
  cases c with
  | insert memory el =>
    dsimp only [Call.count] at hc ⊢
    rcases hq.insert zero memory el (by omega) with ⟨-, rfl, hinsert⟩ | ⟨h', hinsert, hq', -⟩
    · exact ⟨_, h, entries, by rw [PicoHeap.call, hinsert]; rfl, hq, .refused entries el, by omega⟩
    · refine ⟨_, h', _, by rw [PicoHeap.call, hinsert]; rfl, hq', .inserted entries memory el, ?_⟩
      rw [Multiset.card_cons]
      omega
  | peek =>
    dsimp only [Call.count]
    rcases hq.peek with ⟨rfl, -, hpeek⟩ | ⟨a, rest, h', rfl, -, hleast, hpeek, hq'⟩
    · exact ⟨_, h, 0, by rw [PicoHeap.call, hpeek]; rfl, hq, .empty, Nat.zero_le _⟩
    · rw [Multiset.card_cons] at hn
      refine ⟨_, h', rest, by rw [PicoHeap.call, hpeek]; rfl, hq', .least a rest fun b hb => ?_, by omega⟩
      exact hleast b (Multiset.mem_cons_of_mem hb)

theorem Queues.run (hq : Queues orderby h entries) (zero : α) {cs : List (Call α)} {n : ℕ} (hn : entries.card ≤ n)
    (hcs : Fits n cs) :
    ∃ answers h' entries', h.run orderby zero cs = some (answers, h') ∧ Queues orderby h' entries' ∧
      QueueRun orderby entries cs answers entries' := by
  induction cs generalizing h entries n with
  | nil => exact ⟨[], h, entries, rfl, hq, .nil entries⟩
  | cons c cs ih =>
    obtain ⟨hc, hcs⟩ := hcs
    obtain ⟨answer, h₁, entries₁, hcall, hq₁, hstep, hn₁⟩ := hq.call zero hn hc
    obtain ⟨answers, h₂, entries₂, hrun, hq₂, hsteps⟩ := ih hq₁ hn₁ hcs
    exact ⟨_, h₂, entries₂, by rw [PicoHeap.run, hcall]; simp [hrun], hq₂, .cons hstep hsteps⟩

end PicoHeap

/-- **The heap is a priority queue**: as long as it has fewer than 2^31 entries, whatever calls are made and
whichever allocations fail, no access leaves the array, and the answers are those of a queue from which
`heap_peek` takes an entry with the least key. -/
theorem heapRun_queue (orderby : α → ℕ) (zero : α) {cs : List (PicoHeap.Call α)} (hcs : PicoHeap.Fits 0 cs) :
    ∃ answers h entries, PicoHeap.init.run orderby zero cs = some (answers, h) ∧
      PicoHeap.QueueRun orderby 0 cs answers entries ∧ entries.card = h.n := by
  obtain ⟨answers, h, entries, hrun, hq, hsteps⟩ := PicoHeap.queues_init.run zero (Nat.zero_le 0) hcs
  exact ⟨answers, h, entries, hrun, hsteps, hq.card⟩

/-- The least of two comes out. -/
theorem heapRun_queue_two : ∃ answers h entries,
    PicoHeap.init.run id 0 [.insert true 7, .insert true 4, .peek] = some (answers, h) ∧
      PicoHeap.QueueRun id 0 [.insert true 7, .insert true 4, .peek] answers entries ∧ entries.card = h.n :=
  heapRun_queue id 0 ⟨by decide, by decide, by decide, trivial⟩

end Vdetelweb
