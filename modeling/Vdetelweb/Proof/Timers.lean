import Vdetelweb.Proof.PicoHeap

/-!
# What the timers are for

An `Agenda` is a collection of things that are due, with the calls that were made. Checking it at a
tick makes the calls that are due before, the earliest first, and each call may add to it or cancel.

The timers of `pico_stack.c` are one (`timers_refine`), whichever of the allocations fail, as long as
fewer than 2^31 succeed, the clock does not run back, what it says and the delays are below 2^63, and
no timer function cancels its own timer, which is freed twice then.
So each timer is called once at most, after its time and in the order of the times (`timers_called`),
and not after it was cancelled (`timers_cancelled`).
-/

namespace Vdetelweb

open Function

/-! ## Agendas -/

/-- Something that is due: its id, when, the function to call, and with what. -/
structure Due where
  id : ℕ
  expire : ℕ
  timer : Option ℕ
  arg : ℕ
  deriving DecidableEq, Repr

/-- What is pending, the calls that were made, the ids that were given, and the last reading of the
clock. -/
structure Agenda where
  pending : Multiset Due := 0
  called : List TimerCall := []
  used : Set ℕ := ∅
  clock : ℕ := 0

namespace Agenda

/-- **An operation on an agenda.** An id is given once, and what is added when there is no memory is
not pending. -/
inductive Op : Agenda → TimerOp → Agenda → Prop
  | added (a : Agenda) (expire : ℕ) (timer : Option ℕ) (arg id now : ℕ) : id ∉ a.used → a.clock ≤ now →
      Op a (.add expire timer arg) { a with
        pending := ⟨id, now + expire, timer, arg⟩ ::ₘ a.pending
        used := insert id a.used
        clock := now }
  | refused (a : Agenda) (expire : ℕ) (timer : Option ℕ) (arg : ℕ) (used : Set ℕ) (now : ℕ) :
      a.used ⊆ used → a.clock ≤ now →
      Op a (.add expire timer arg) { a with used := used, clock := now }
  | cancelled (a : Agenda) (id : ℕ) :
      Op a (.cancel id) { a with pending := a.pending.filter fun d => d.id ≠ id }

/-- Operations one after the other. -/
inductive Ops : Agenda → List TimerOp → Agenda → Prop
  | nil (a : Agenda) : Ops a [] a
  | cons {a a' a'' : Agenda} {o : TimerOp} {os : List TimerOp} : Op a o a' → Ops a' os a'' → Ops a (o :: os) a''

/-- A call is made, if there is a function to call. -/
inductive Called (E : TimerEnv) (tick : ℕ) : Agenda → Due → Agenda → Prop
  | none (a : Agenda) (id expire arg : ℕ) : Called E tick a ⟨id, expire, none, arg⟩ a
  | some {a a' : Agenda} {id expire timer arg : ℕ} :
      Ops { a with called := a.called ++ [⟨id, expire, timer, arg, tick⟩] }
        (E.callback a.called.length ⟨id, expire, timer, arg, tick⟩) a' →
      Called E tick a ⟨id, expire, some timer, arg⟩ a'

/-- **An agenda is checked**: while something is due before the tick, the earliest is taken off and
called. -/
inductive Checked (E : TimerEnv) (tick : ℕ) : Agenda → Agenda → Prop
  | done (a : Agenda) : (∀ d ∈ a.pending, tick ≤ d.expire) → Checked E tick a a
  | due {a a' a'' : Agenda} {d : Due} {rest : Multiset Due} : a.pending = d ::ₘ rest → d.expire < tick →
      (∀ x ∈ rest, d.expire ≤ x.expire) → Called E tick { a with pending := rest } d a' →
      Checked E tick a' a'' → Checked E tick a a''

/-- An event. -/
inductive Step (E : TimerEnv) : Agenda → TimerEvent → Agenda → Prop
  | op {a a' : Agenda} {o : TimerOp} : Op a o a' → Step E a (.op o) a'
  | check {a a' : Agenda} {tick : ℕ} : a.clock ≤ tick → Checked E tick { a with clock := tick } a' →
      Step E a .check a'

/-- Events one after the other. -/
inductive Run (E : TimerEnv) : Agenda → List TimerEvent → Agenda → Prop
  | nil (a : Agenda) : Run E a [] a
  | cons {a a' a'' : Agenda} {e : TimerEvent} {es : List TimerEvent} : Step E a e a' → Run E a' es a'' →
      Run E a (e :: es) a''

end Agenda

/-! ## What holds of an agenda -/

namespace Agenda

/-- **An agenda is fair**: the calls were made in the order of their times, each after its time, and
nothing that is pending was called or should have been. -/
structure Fair (a : Agenda) : Prop where
  after : ∀ c ∈ a.called, c.expire < c.tick ∧ c.tick ≤ a.clock
  inTurn : a.called.Pairwise fun c c' => c.expire ≤ c'.expire ∧ c.tick ≤ c'.tick
  behind : ∀ c ∈ a.called, ∀ d ∈ a.pending, c.expire ≤ d.expire
  once : ((a.called.map TimerCall.id : Multiset ℕ) + a.pending.map Due.id).Nodup
  calledUsed : ∀ c ∈ a.called, c.id ∈ a.used
  pendingUsed : ∀ d ∈ a.pending, d.id ∈ a.used

/-- The id is that of something that is neither pending nor to be added. -/
structure Gone (id : ℕ) (a : Agenda) : Prop where
  used : id ∈ a.used
  notPending : ∀ d ∈ a.pending, d.id ≠ id

variable {E : TimerEnv} {a a' : Agenda}

/-- **An operation** makes no call. -/
theorem Op.spec {o : TimerOp} (h : Op a o a') :
    a'.called = a.called ∧ a.clock ≤ a'.clock ∧ (Fair a → Fair a') ∧ ∀ id, Gone id a → Gone id a' := by
  cases h with
  | added expire timer arg id now hid hnow =>
    refine ⟨rfl, hnow, fun hfair => ⟨fun c hc => ?_, hfair.inTurn, fun c hc => ?_, ?_, fun c hc => ?_, ?_⟩,
      fun i hi => ⟨Set.mem_insert_of_mem _ hi.used, ?_⟩⟩
    · exact ⟨(hfair.after c hc).1, (hfair.after c hc).2.trans hnow⟩
    · -- what is added is due after now, and what was called was due before
      rw [Multiset.forall_mem_cons]
      refine ⟨?_, hfair.behind c hc⟩
      obtain ⟨hlt, hle⟩ := hfair.after c hc
      dsimp only
      omega
    · rw [Multiset.map_cons, Multiset.add_cons, Multiset.nodup_cons]
      refine ⟨fun hmem => hid ?_, hfair.once⟩
      rcases Multiset.mem_add.1 hmem with hmem | hmem
      · obtain ⟨c, hc, rfl⟩ := List.mem_map.1 (Multiset.mem_coe.1 hmem)
        exact hfair.calledUsed c hc
      · obtain ⟨d, hd, rfl⟩ := Multiset.mem_map.1 hmem
        exact hfair.pendingUsed d hd
    · exact Set.mem_insert_of_mem _ (hfair.calledUsed c hc)
    · rw [Multiset.forall_mem_cons]
      exact ⟨Set.mem_insert _ _, fun d hd => Set.mem_insert_of_mem _ (hfair.pendingUsed d hd)⟩
    · rw [Multiset.forall_mem_cons]
      refine ⟨fun he => hid ?_, hi.notPending⟩
      rw [show id = i from he]
      exact hi.used
  | refused expire timer arg used now hused hnow =>
    refine ⟨rfl, hnow, fun hfair => ⟨fun c hc => ?_, hfair.inTurn, hfair.behind, hfair.once,
      fun c hc => hused (hfair.calledUsed c hc), fun d hd => hused (hfair.pendingUsed d hd)⟩,
      fun i hi => ⟨hused hi.used, hi.notPending⟩⟩
    exact ⟨(hfair.after c hc).1, (hfair.after c hc).2.trans hnow⟩
  | cancelled id =>
    have hsub : a.pending.filter (fun d => d.id ≠ id) ≤ a.pending := Multiset.filter_le _ _
    refine ⟨rfl, le_rfl, fun hfair => ⟨hfair.after, hfair.inTurn,
      fun c hc d hd => hfair.behind c hc d (Multiset.mem_of_le hsub hd), ?_, hfair.calledUsed,
      fun d hd => hfair.pendingUsed d (Multiset.mem_of_le hsub hd)⟩,
      fun i hi => ⟨hi.used, fun d hd => hi.notPending d (Multiset.mem_of_le hsub hd)⟩⟩
    exact Multiset.nodup_of_le (Multiset.add_le_add_left (Multiset.map_le_map hsub)) hfair.once

theorem Ops.spec {os : List TimerOp} (h : Ops a os a') :
    a'.called = a.called ∧ a.clock ≤ a'.clock ∧ (Fair a → Fair a') ∧ ∀ id, Gone id a → Gone id a' := by
  induction h with
  | nil a => exact ⟨rfl, le_rfl, fun h => h, fun _ h => h⟩
  | cons ho _ ih =>
    obtain ⟨hcalled, hclock, hfair, hgone⟩ := ho.spec
    obtain ⟨hcalled', hclock', hfair', hgone'⟩ := ih
    exact ⟨hcalled'.trans hcalled, hclock.trans hclock', fun h => hfair' (hfair h), fun id h => hgone' id (hgone id h)⟩

/-- What is due first is called next: the agenda stays fair. -/
theorem Fair.next (h : Fair a) {d : Due} {rest : Multiset Due} (hd : a.pending = d ::ₘ rest) {tick : ℕ}
    (hdue : d.expire < tick) (hleast : ∀ x ∈ rest, d.expire ≤ x.expire) (htick : tick ≤ a.clock)
    (hticks : ∀ c ∈ a.called, c.tick ≤ tick) (timer : ℕ) :
    Fair { a with pending := rest, called := a.called ++ [⟨d.id, d.expire, timer, d.arg, tick⟩] } where
  after c hc := by
    rcases List.mem_append.1 hc with hc | hc
    · exact h.after c hc
    · rw [List.mem_singleton.1 hc]
      exact ⟨hdue, htick⟩
  inTurn := by
    rw [List.pairwise_append]
    refine ⟨h.inTurn, List.pairwise_singleton _ _, fun c hc c' hc' => ?_⟩
    rw [List.mem_singleton.1 hc']
    exact ⟨h.behind c hc d (hd ▸ Multiset.mem_cons_self d rest), hticks c hc⟩
  behind c hc x hx := by
    rcases List.mem_append.1 hc with hc | hc
    · exact h.behind c hc x (hd ▸ Multiset.mem_cons_of_mem hx)
    · rw [List.mem_singleton.1 hc]
      exact hleast x hx
  once := by
    have honce := h.once
    rw [hd, Multiset.map_cons, Multiset.add_cons, ← Multiset.cons_add] at honce
    rw [List.map_append, ← Multiset.coe_add, List.map_singleton, Multiset.coe_singleton, add_comm (Multiset.ofList _),
      Multiset.singleton_add]
    exact honce
  calledUsed c hc := by
    rcases List.mem_append.1 hc with hc | hc
    · exact h.calledUsed c hc
    · rw [List.mem_singleton.1 hc]
      exact h.pendingUsed d (hd ▸ Multiset.mem_cons_self d rest)
  pendingUsed x hx := h.pendingUsed x (hd ▸ Multiset.mem_cons_of_mem hx)

/-- The calls that were made since have not the id. -/
def Silent (id : ℕ) (a a' : Agenda) : Prop := ∃ later, a'.called = a.called ++ later ∧ ∀ c ∈ later, c.id ≠ id

theorem Silent.refl (id : ℕ) (a : Agenda) : Silent id a a :=
  ⟨[], (List.append_nil _).symm, fun _ hc => absurd hc List.not_mem_nil⟩

theorem Silent.trans {id : ℕ} {a'' : Agenda} (h : Silent id a a') (h' : Silent id a' a'') : Silent id a a'' := by
  obtain ⟨later, heq, hne⟩ := h
  obtain ⟨later', heq', hne'⟩ := h'
  refine ⟨later ++ later', by rw [heq', heq, List.append_assoc], fun c hc => ?_⟩
  rcases List.mem_append.1 hc with hc | hc
  · exact hne c hc
  · exact hne' c hc

/-- **An agenda that is checked.** -/
theorem Checked.spec {tick : ℕ} (h : Checked E tick a a') : a.clock ≤ a'.clock ∧
    (Fair a → tick ≤ a.clock → (∀ c ∈ a.called, c.tick ≤ tick) → Fair a') ∧
    (∀ d ∈ a'.pending, tick ≤ d.expire) ∧ ∀ id, Gone id a → Gone id a' ∧ Silent id a a' := by
  induction h with
  | done a hnone => exact ⟨le_rfl, fun h _ _ => h, hnone, fun id h => ⟨h, .refl id a⟩⟩
  | @due a a₁ a₂ d rest hd hdue hleast hcalled _ ih =>
    obtain ⟨hclock, hfair, hnone, hgone⟩ := ih
    have hmem : d ∈ a.pending := hd ▸ Multiset.mem_cons_self d rest
    have hrest : ∀ x ∈ rest, x ∈ a.pending := fun x hx => hd ▸ Multiset.mem_cons_of_mem hx
    cases hcalled with
    | none id expire arg =>
      refine ⟨hclock, fun h htick hticks => hfair ⟨h.after, h.inTurn, fun c hc x hx => h.behind c hc x (hrest x hx),
        ?_, h.calledUsed, fun x hx => h.pendingUsed x (hrest x hx)⟩ htick hticks, hnone,
        fun i hi => hgone i ⟨hi.used, fun x hx => hi.notPending x (hrest x hx)⟩⟩
      have hle : rest ≤ a.pending := hd ▸ Multiset.le_cons_self rest _
      exact Multiset.nodup_of_le (Multiset.add_le_add_left (Multiset.map_le_map hle)) h.once
    | @some _ id expire timer arg hops =>
      obtain ⟨hsame, hclock', hfair', hgone'⟩ := hops.spec
      refine ⟨hclock'.trans hclock, fun h htick hticks => ?_, hnone, fun i hi => ?_⟩
      · refine hfair (hfair' (h.next hd hdue hleast htick hticks timer)) (htick.trans hclock') fun c hc => ?_
        rw [hsame] at hc
        rcases List.mem_append.1 hc with hc | hc
        · exact hticks c hc
        · rw [List.mem_singleton.1 hc]
      · obtain ⟨hgone₂, hsilent⟩ := hgone i (hgone' i ⟨hi.used, fun x hx => hi.notPending x (hrest x hx)⟩)
        refine ⟨hgone₂, Silent.trans ⟨_, hsame, fun c hc => ?_⟩ hsilent⟩
        rw [List.mem_singleton.1 hc]
        exact hi.notPending _ hmem

/-- **An event.** -/
theorem Step.spec {e : TimerEvent} (h : Step E a e a') :
    a.clock ≤ a'.clock ∧ (Fair a → Fair a') ∧ ∀ id, Gone id a → Gone id a' ∧ Silent id a a' := by
  cases h with
  | op ho =>
    obtain ⟨hcalled, hclock, hfair, hgone⟩ := ho.spec
    exact ⟨hclock, hfair, fun id h => ⟨hgone id h, [], by rw [hcalled, List.append_nil],
      fun _ hc => absurd hc List.not_mem_nil⟩⟩
  | check htick hchecked =>
    obtain ⟨hclock, hfair, -, hgone⟩ := hchecked.spec
    refine ⟨htick.trans hclock, fun h => hfair ⟨fun c hc => ?_, h.inTurn, h.behind, h.once, h.calledUsed, h.pendingUsed⟩
      le_rfl fun c hc => (h.after c hc).2.trans htick, fun id h => hgone id ⟨h.used, h.notPending⟩⟩
    exact ⟨(h.after c hc).1, (h.after c hc).2.trans htick⟩

theorem Run.spec {es : List TimerEvent} (h : Run E a es a') :
    (Fair a → Fair a') ∧ ∀ id, Gone id a → Silent id a a' := by
  induction h with
  | nil a => exact ⟨fun h => h, fun id _ => .refl id a⟩
  | cons hstep _ ih =>
    obtain ⟨-, hfair, hgone⟩ := hstep.spec
    obtain ⟨hfair', hgone'⟩ := ih
    exact ⟨fun h => hfair' (hfair h), fun id h => (hgone id h).2.trans (hgone' id (hgone id h).1)⟩

theorem Fair.start : Fair {} where
  after _ hc := absurd hc List.not_mem_nil
  inTurn := .nil
  behind _ hc := absurd hc List.not_mem_nil
  once := Multiset.nodup_zero
  calledUsed _ hc := absurd hc List.not_mem_nil
  pendingUsed _ hd := absurd hd (Multiset.notMem_zero _)

end Agenda

/-! ## What is pending -/

/-- What an entry of the heap stands for, if its timer was not cancelled. -/
def Timers.due (s : Timers) (r : TimerRef) : Option Due :=
  r.tmr.bind fun t => (s.blocks t).map fun tmr => ⟨r.id, r.expire, tmr.timer, tmr.arg⟩

/-- What the entries stand for. -/
def Timers.pending (s : Timers) (refs : Multiset TimerRef) : Multiset Due := refs.filterMap s.due

/-- How many allocations succeed among the first `k`. -/
def TimerEnv.granted (E : TimerEnv) (k : ℕ) : ℕ := Nat.count (fun j => E.zalloc j = true) k

theorem TimerEnv.granted_mono (E : TimerEnv) : Monotone E.granted := Nat.count_monotone _

theorem granted_succ {E : TimerEnv} {k : ℕ} (h : E.zalloc k = true) : E.granted (k + 1) = E.granted k + 1 := by
  unfold TimerEnv.granted
  rw [Nat.count_succ, if_pos h]

/-- **The timers are in order**: the heap is a queue of the entries, no more than there was memory for,
and each entry that was not cancelled has a timer of its own, which is live. -/
structure WellTimed (E : TimerEnv) (s : Timers) (refs : Multiset TimerRef) : Prop where
  queues : PicoHeap.Queues TimerRef.expire s.heap refs
  few : refs.card ≤ E.granted s.allocs
  distinct : (refs.filterMap TimerRef.tmr).Nodup
  live : ∀ r ∈ refs, ∀ t, r.tmr = some t → (s.blocks t).isSome
  fresh : ∀ t, (s.blocks t).isSome → t < s.allocs

theorem filterMap_congr_of {α β : Type} {f g : α → Option β} {m : Multiset α} (h : ∀ a ∈ m, f a = g a) :
    m.filterMap f = m.filterMap g := by
  induction m using Multiset.induction_on with
  | empty => rfl
  | cons a m ih =>
    rw [Multiset.forall_mem_cons] at h
    rw [Multiset.filterMap_cons, Multiset.filterMap_cons, h.1, ih h.2]

/-- What is pending, when the timers of the entries are what they were. -/
theorem pending_congr {s s' : Timers} {refs : Multiset TimerRef}
    (h : ∀ r ∈ refs, ∀ t, r.tmr = some t → s'.blocks t = s.blocks t) : s'.pending refs = s.pending refs := by
  refine filterMap_congr_of fun r hr => ?_
  unfold Timers.due
  cases ht : r.tmr with
  | none => rfl
  | some t => rw [Option.bind_some, Option.bind_some, h r hr t ht]

theorem mem_tmrs {refs : Multiset TimerRef} {r : TimerRef} (hr : r ∈ refs) {t : ℕ} (ht : r.tmr = some t) :
    t ∈ refs.filterMap TimerRef.tmr := (Multiset.mem_filterMap _ _).2 ⟨r, hr, ht⟩

/-! ## `pico_timer_cancel` -/

variable {E : TimerEnv} {s s' : Timers} {refs rest : Multiset TimerRef}

/-- The timers without one of them. -/
def without (blocks : ℕ → Option PicoTimer) : Option ℕ → ℕ → Option PicoTimer
  | none => blocks
  | some t => update blocks t none

theorem without_of_ne {blocks : ℕ → Option PicoTimer} {o : Option ℕ} {t : ℕ}
    (h : o ≠ some t) : without blocks o t = blocks t := by
  cases o with
  | none => rfl
  | some t' => exact update_of_ne (fun he => h (congrArg some he.symm)) _ _

theorem isSome_of_without {blocks : ℕ → Option PicoTimer} {o : Option ℕ} {t : ℕ}
    (h : (without blocks o t).isSome) : (blocks t).isSome := by
  by_cases ho : o = some t
  · rw [ho, without, update_self] at h
    cases h
  · rwa [without_of_ne ho] at h

/-- A timer that is live is freed. -/
theorem free_eq {o : Option ℕ} (h : ∀ t, o = some t → (s.blocks t).isSome) :
    s.free o = some { s with blocks := without s.blocks o } := by
  cases o with
  | none => rfl
  | some t => exact if_pos (h t rfl)

/-- The timer of an entry is not that of another. -/
theorem WellTimed.apart {r : TimerRef} (h : WellTimed E s (r ::ₘ rest)) :
    (rest.filterMap TimerRef.tmr).Nodup ∧ ∀ x ∈ rest, ∀ t, x.tmr = some t → r.tmr ≠ some t := by
  have hdistinct := h.distinct
  cases ht : r.tmr with
  | none =>
    rw [Multiset.filterMap_cons_none _ _ ht] at hdistinct
    exact ⟨hdistinct, fun x _ t _ he => by cases he⟩
  | some t =>
    rw [Multiset.filterMap_cons_some _ _ _ ht, Multiset.nodup_cons] at hdistinct
    refine ⟨hdistinct.2, fun x hx t' hxt he => hdistinct.1 ?_⟩
    cases he
    exact mem_tmrs hx hxt

/-- **An entry is no longer among them**, or has no timer any more, and its timer is freed. -/
theorem WellTimed.release {r : TimerRef} (h : WellTimed E s (r ::ₘ rest)) {heap : PicoHeap TimerRef}
    {refs' : Multiset TimerRef} (hq : PicoHeap.Queues TimerRef.expire heap refs')
    (hrefs : refs' = rest ∨ refs' = { r with tmr := none } ::ₘ rest) :
    WellTimed E { s with heap := heap, blocks := without s.blocks r.tmr } refs' ∧
      Timers.pending { s with heap := heap, blocks := without s.blocks r.tmr } refs' = s.pending rest := by
  obtain ⟨hdistinct, hapart⟩ := h.apart
  have hkept : ∀ x ∈ rest, ∀ t, x.tmr = some t → without s.blocks r.tmr t = s.blocks t :=
    fun x hx t hxt => without_of_ne (hapart x hx t hxt)
  have hlive : ∀ x ∈ rest, ∀ t, x.tmr = some t → (without s.blocks r.tmr t).isSome := by
    intro x hx t hxt
    rw [hkept x hx t hxt]
    exact h.live x (Multiset.mem_cons_of_mem hx) t hxt
  have hfresh : ∀ t, (without s.blocks r.tmr t).isSome → t < s.allocs := fun t ht => h.fresh t (isSome_of_without ht)
  have hfew := h.few
  rw [Multiset.card_cons] at hfew
  rcases hrefs with rfl | rfl
  · exact ⟨⟨hq, (Nat.le_succ _).trans hfew, hdistinct, hlive, hfresh⟩, pending_congr hkept⟩
  · refine ⟨⟨hq, by rwa [Multiset.card_cons], ?_, ?_, hfresh⟩, ?_⟩
    · rwa [Multiset.filterMap_cons_none _ _ rfl]
    · rw [Multiset.forall_mem_cons]
      exact ⟨fun t ht => absurd ht (Option.some_ne_none t).symm, hlive⟩
    · rw [Timers.pending, Multiset.filterMap_cons_none _ _ rfl]
      exact pending_congr hkept

/-- The entry that the loop comes to. -/
theorem cancelLoop_eq {top : Area TimerRef} (htop : s.heap.top = some top) (hn : s.heap.n < top.length) (id : ℕ)
    {i : ℕ} (hi : 1 ≤ i) :
    (s.cancelLoop id i = some s ∧ ∀ j, i ≤ j → j ≤ s.heap.n → (top.cell j).id ≠ id) ∨
    ∃ j, i ≤ j ∧ j ≤ s.heap.n ∧ (top.cell j).id = id ∧ s.cancelLoop id i =
      (s.free (top.cell j).tmr).bind fun s =>
        some { s with heap := { s.heap with
          top := some { top with cell := update top.cell j { top.cell j with tmr := none } } } } := by
  induction hm : s.heap.n + 1 - i using Nat.strong_induction_on generalizing i with
  | _ m ih =>
    rw [Timers.cancelLoop]
    by_cases hin : i ≤ s.heap.n
    · rw [dif_pos hin, htop, Option.bind_eq_bind, Option.bind_some, Area.read_of_lt (by omega),
        Option.bind_eq_bind, Option.bind_some]
      by_cases hid : (top.cell i).id = id
      · right
        refine ⟨i, le_rfl, hin, hid, ?_⟩
        rw [if_pos hid, Area.write_of_lt (by omega)]
        rfl
      · rw [if_neg hid]
        rcases ih (s.heap.n + 1 - (i + 1)) (by omega) (by omega) rfl with ⟨heq, hnone⟩ | ⟨j, hij, hrest⟩
        · left
          refine ⟨heq, fun j hij hj => ?_⟩
          rcases hij.eq_or_lt with rfl | hlt
          · exact hid
          · exact hnone j hlt hj
        · exact Or.inr ⟨j, by omega, hrest⟩
    · rw [dif_neg hin]
      exact Or.inl ⟨rfl, fun j hij hj => by omega⟩

/-- **`pico_timer_cancel`** frees the timer of an entry with the id, if there is one. -/
theorem WellTimed.cancel (h : WellTimed E s refs) (id : ℕ) :
    (s.cancel id = some s ∧ (id = 0 ∨ ∀ r ∈ refs, r.id ≠ id)) ∨
    ∃ r rest heap, refs = r ::ₘ rest ∧ r.id = id ∧
      s.cancel id = some { s with heap := heap, blocks := without s.blocks r.tmr } ∧
      PicoHeap.Queues TimerRef.expire heap ({ r with tmr := none } ::ₘ rest) ∧
      ∀ a, s.heap.first = some (some a) → a.id ≠ id → heap.first = some (some a) := by
  have hq := h.queues
  have hfirst := fun a => hq.first_pos (a := a)
  unfold Timers.cancel
  by_cases hzero : id = 0
  · rw [if_pos hzero]
    exact Or.inl ⟨rfl, Or.inl hzero⟩
  rw [if_neg hzero]
  cases htop : s.heap.top with
  | none =>
    rw [PicoHeap.Queues, htop] at hq
    obtain ⟨hn, -, rfl⟩ := hq
    left
    rw [Timers.cancelLoop, dif_neg (by omega)]
    exact ⟨rfl, Or.inr fun r hr => absurd hr (Multiset.notMem_zero r)⟩
  | some top =>
    rw [PicoHeap.Queues, htop] at hq
    obtain ⟨hn, hsize, hle, hbound, hheap, rfl⟩ := hq
    rcases cancelLoop_eq htop hn id le_rfl with ⟨heq, hnone⟩ | ⟨j, hpos, hj, hid, heq⟩
    · left
      refine ⟨heq, Or.inr fun r hr => ?_⟩
      obtain ⟨j, hpos, hj, rfl⟩ := Heaps.mem_content.1 hr
      exact hnone j hpos hj
    · right
      obtain ⟨rest, hcell, hset⟩ := Heaps.exists_content_eq top.cell hpos hj
      have hlive : ∀ t, (top.cell j).tmr = some t → (s.blocks t).isSome := by
        refine h.live _ ?_
        rw [hcell]
        exact Multiset.mem_cons_self _ _
      refine ⟨top.cell j, rest, { s.heap with
        top := some { top with cell := update top.cell j { top.cell j with tmr := none } } }, hcell, hid, ?_, ?_, ?_⟩
      · rw [heq, free_eq hlive, Option.bind_some]
      · exact ⟨hn, hsize, hle, hbound, hheap.update rfl, hset _⟩
      · intro a ha hne
        obtain ⟨hpos', hone⟩ := hfirst a ha
        have hj1 : 1 ≠ j := by
          rintro rfl
          exact hne (by rw [← hone top htop]; exact hid)
        rw [← hone top htop]
        have hread : update top.cell j { top.cell j with tmr := none } 1 = top.cell 1 := update_of_ne hj1 _ _
        rw [← hread]
        exact PicoHeap.first_eq (by omega) (by dsimp only; omega)

/-! ## What operations do -/

variable (E) in
/-- **The timers track the agenda**, but for what is held, which was taken off the agenda and is not
yet taken out of the heap. -/
structure Tracks (s : Timers) (refs : Multiset TimerRef) (held : Multiset Due) (a : Agenda) : Prop where
  pending : s.pending refs = held + a.pending
  called : a.called = s.called
  clock : a.clock ≤ E.time s.reads
  ids : (refs.map TimerRef.id).Nodup
  given : ∀ r ∈ refs, 0 < r.id ∧ r.id < s.tmr_id
  used : a.used = {i | 0 < i ∧ i < s.tmr_id}
  small : s.tmr_id ≤ E.granted s.allocs + 1

/-- The operations cancel no timer with the id. -/
def Spares (os : List TimerOp) (id : ℕ) : Prop := .cancel id ∉ os

variable (E) in
/-- **What operations do** that lead from `s` to `s'`: they keep the order, let a first entry stand that
is due and is not cancelled, add nothing that is due, and are operations on the agenda. -/
structure Done (os : List TimerOp) (s s' : Timers) (refs refs' : Multiset TimerRef) : Prop where
  wellTimed : WellTimed E s' refs'
  reads : s.reads ≤ s'.reads
  first : ∀ r, s.heap.first = some (some r) → r.expire ≤ E.time s.reads → Spares os r.id →
    s'.heap.first = some (some r) ∧ s'.due r = s.due r
  due : ∀ tick ≤ E.time s.reads, refs'.countP (·.expire < tick) = refs.countP (·.expire < tick)
  tracks : ∀ held a, Tracks E s refs held a → (∀ d ∈ held, Spares os d.id) →
    ∃ a', Agenda.Ops a os a' ∧ Tracks E s' refs' held a'

theorem Done.nil (h : WellTimed E s refs) : Done E [] s s refs refs :=
  ⟨h, le_rfl, fun _ hr _ _ => ⟨hr, rfl⟩, fun _ _ => rfl, fun _ a ha _ => ⟨a, .nil a, ha⟩⟩

/-- The first entry is one of them. -/
theorem first_mem (h : PicoHeap.Queues TimerRef.expire s.heap refs) {r : TimerRef}
    (hr : s.heap.first = some (some r)) : r ∈ refs := by
  rcases h.peek with ⟨-, hnone, -⟩ | ⟨a, rest, h', rfl, hsome, -⟩
  · rw [hr] at hnone
    cases hnone
  · rw [hr] at hsome
    cases hsome
    exact Multiset.mem_cons_self _ rest

theorem ops_append {a a' a'' : Agenda} {os os' : List TimerOp} (h : Agenda.Ops a os a') (h' : Agenda.Ops a' os' a'') :
    Agenda.Ops a (os ++ os') a'' := by
  induction h with
  | nil => exact h'
  | cons ho _ ih => exact .cons ho (ih h')

/-- One after the other. -/
theorem Done.trans (hmono : Monotone E.time) {s₁ s₂ : Timers} {refs₁ refs₂ : Multiset TimerRef} {os os' : List TimerOp}
    (h : Done E os s s₁ refs refs₁) (h' : Done E os' s₁ s₂ refs₁ refs₂) : Done E (os ++ os') s s₂ refs refs₂ where
  wellTimed := h'.wellTimed
  reads := h.reads.trans h'.reads
  first r hr hexp hspare := by
    have hos : Spares os r.id := fun hmem => hspare (List.mem_append_left _ hmem)
    have hos' : Spares os' r.id := fun hmem => hspare (List.mem_append_right _ hmem)
    obtain ⟨hr₁, hdue₁⟩ := h.first r hr hexp hos
    obtain ⟨hr₂, hdue₂⟩ := h'.first r hr₁ (hexp.trans (hmono h.reads)) hos'
    exact ⟨hr₂, hdue₂.trans hdue₁⟩
  due tick htick := (h'.due tick (htick.trans (hmono h.reads))).trans (h.due tick htick)
  tracks held a ha hspare := by
    obtain ⟨a₁, hops₁, ha₁⟩ := h.tracks held a ha fun d hd hmem => hspare d hd (List.mem_append_left _ hmem)
    obtain ⟨a₂, hops₂, ha₂⟩ := h'.tracks held a₁ ha₁ fun d hd hmem => hspare d hd (List.mem_append_right _ hmem)
    exact ⟨a₂, ops_append hops₁ hops₂, ha₂⟩

/-- What is pending has the id and the time of an entry. -/
theorem mem_pending {d : Due} (hd : d ∈ s.pending refs) :
    ∃ r ∈ refs, s.due r = some d ∧ r.id = d.id ∧ r.expire = d.expire := by
  obtain ⟨r, hr, hdue⟩ := (Multiset.mem_filterMap _ _).1 hd
  refine ⟨r, hr, hdue, ?_⟩
  obtain ⟨t, -, hmap⟩ := Option.bind_eq_some_iff.1 hdue
  obtain ⟨tmr, -, rfl⟩ := Option.map_eq_some_iff.1 hmap
  exact ⟨rfl, rfl⟩

theorem pending_cons (s : Timers) (r : TimerRef) (rest : Multiset TimerRef) :
    s.pending (r ::ₘ rest) = (s.due r).toList + s.pending rest := by
  unfold Timers.pending
  cases h : s.due r with
  | none =>
    rw [Multiset.filterMap_cons_none _ _ h]
    exact (zero_add _).symm
  | some d =>
    rw [Multiset.filterMap_cons_some _ _ _ h]
    rfl

theorem filter_held {held pending : Multiset Due} {id : ℕ} (hheld : ∀ d ∈ held, d.id ≠ id) :
    (held + pending).filter (fun d => d.id ≠ id) = held + pending.filter fun d => d.id ≠ id := by
  rw [Multiset.filter_add, Multiset.filter_eq_self.2 hheld]

/-- **`pico_timer_cancel`** cancels what has the id. -/
theorem cancel_done (h : WellTimed E s refs) (id : ℕ) : ∃ s' refs', s.op E (.cancel id) = some s' ∧
    Done E [.cancel id] s s' refs refs' := by
  have hspares : ∀ {i : ℕ}, Spares [.cancel id] i → i ≠ id := by
    rintro i hi rfl
    exact hi List.mem_cons_self
  rcases h.cancel id with ⟨heq, hnone⟩ | ⟨r, rest, heap, rfl, hid, heq, hq, hfirst⟩
  · refine ⟨s, refs, heq, h, le_rfl, fun _ hr _ _ => ⟨hr, rfl⟩, fun _ _ => rfl, fun held a ha _ => ?_⟩
    -- nothing that is pending has the id
    have hpending : a.pending.filter (fun d => d.id ≠ id) = a.pending := by
      refine Multiset.filter_eq_self.2 fun d hd => ?_
      have hmem : d ∈ s.pending refs := by
        rw [ha.pending]
        exact Multiset.mem_add.2 (Or.inr hd)
      obtain ⟨r, hr, -, hrd, -⟩ := mem_pending hmem
      rw [← hrd]
      rcases hnone with rfl | hnone
      · exact (ha.given r hr).1.ne'
      · exact hnone r hr
    refine ⟨_, .cons (.cancelled a id) (.nil _), ?_⟩
    rw [hpending]
    exact ha
  · obtain ⟨hwell, hpending⟩ := h.release hq (Or.inr rfl)
    obtain ⟨-, hapart⟩ := h.apart
    refine ⟨_, _, heq, hwell, le_rfl, fun x hx _ hspare => ?_, fun tick _ => ?_, fun held a ha hspare => ?_⟩
    · have hxid := hspares hspare
      refine ⟨hfirst x hx hxid, ?_⟩
      have hxrest : x ∈ rest := by
        rcases Multiset.mem_cons.1 (first_mem h.queues hx) with rfl | hmem
        · exact absurd hid hxid
        · exact hmem
      unfold Timers.due
      cases ht : x.tmr with
      | none => rfl
      | some t =>
        rw [Option.bind_some, Option.bind_some]
        dsimp only
        rw [without_of_ne (hapart x hxrest t ht)]
    · rw [Multiset.countP_cons, Multiset.countP_cons]
    · have hids := ha.ids
      rw [Multiset.map_cons, Multiset.nodup_cons] at hids
      have hheld : ∀ d ∈ held, d.id ≠ id := fun d hd => hspares (hspare d hd)
      -- the entry stood for all that has the id
      have hrest : (s.pending rest).filter (fun d => d.id ≠ id) = s.pending rest := by
        refine Multiset.filter_eq_self.2 fun d hd => ?_
        obtain ⟨x, hx, -, hxd, -⟩ := mem_pending hd
        rw [← hxd, ← hid]
        exact fun he => hids.1 (he ▸ Multiset.mem_map_of_mem _ hx)
      have hself : ((s.due r).toList : Multiset Due).filter (fun d => d.id ≠ id) = 0 := by
        refine Multiset.filter_eq_nil.2 fun d hd => ?_
        have hdue : s.due r = some d := Option.mem_toList.1 (Multiset.mem_coe.1 hd)
        have hmem : d ∈ s.pending {r} := (Multiset.mem_filterMap _ _).2 ⟨r, Multiset.mem_singleton_self r, hdue⟩
        obtain ⟨x, hx, -, hxd, -⟩ := mem_pending hmem
        rw [Multiset.mem_singleton.1 hx, hid] at hxd
        exact fun hne => hne hxd.symm
      have hall := congrArg (Multiset.filter fun d => d.id ≠ id) ha.pending
      rw [pending_cons, Multiset.filter_add, hself, zero_add, hrest, filter_held hheld] at hall
      refine ⟨_, .cons (.cancelled a id) (.nil _), ⟨hpending.trans hall, ha.called, ha.clock, ?_, ?_, ha.used, ha.small⟩⟩
      · rw [Multiset.map_cons, Multiset.nodup_cons]
        exact hids
      · rw [Multiset.forall_mem_cons]
        exact ⟨ha.given r (Multiset.mem_cons_self r rest), fun x hx => ha.given x (Multiset.mem_cons_of_mem hx)⟩

/-- A clock that does not run back, and is far from its end. -/
structure Clock (E : TimerEnv) : Prop where
  mono : Monotone E.time
  small : ∀ k, E.time k < 2 ^ 63

/-- **Memory is scarce**: fewer than 2^31 allocations succeed, whenever they are asked for. -/
def Scarce (E : TimerEnv) : Prop := ∀ k, E.granted k < 2 ^ 31

/-- The id that the next timer is given. -/
def Timers.nextId (s : Timers) : ℕ := if s.tmr_id = 0 then 1 else s.tmr_id

theorem nextId_bounds (s : Timers) : 0 < s.nextId ∧ s.tmr_id ≤ s.nextId ∧ s.nextId ≤ s.tmr_id + 1 := by
  unfold Timers.nextId
  by_cases hzero : s.tmr_id = 0
  · rw [if_pos hzero, hzero]
    omega
  · rw [if_neg hzero]
    omega

/-- The ids before the next one. -/
theorem nextId_used (s : Timers) : {i | 0 < i ∧ i < s.tmr_id} = {i | 0 < i ∧ i < s.nextId} := by
  unfold Timers.nextId
  ext i
  rw [Set.mem_ofPred_eq, Set.mem_ofPred_eq]
  split <;> omega

/-- No more ids were given than there was memory for. -/
theorem nextId_granted {held : Multiset Due} {a : Agenda} (ha : Tracks E s refs held a) :
    s.nextId ≤ E.granted s.allocs + 1 := by
  have := ha.small
  unfold Timers.nextId
  split <;> omega

/-- The timer that was allocated is none of those of the entries. -/
theorem WellTimed.blocks_new (h : WellTimed E s refs) (tmr : PicoTimer) :
    ∀ r ∈ refs, ∀ t, r.tmr = some t → update s.blocks s.allocs (some tmr) t = s.blocks t := by
  intro r hr t ht
  have hlt := h.fresh t (h.live r hr t ht)
  exact update_of_ne (by omega) _ _

/-- The rest of `WellTimed`, with a timer more. -/
theorem WellTimed.allocated (h : WellTimed E s refs) (tmr : PicoTimer) :
    (∀ r ∈ refs, ∀ t, r.tmr = some t → (update s.blocks s.allocs (some tmr) t).isSome) ∧
      ∀ t, (update s.blocks s.allocs (some tmr) t).isSome → t < s.allocs + 1 := by
  refine ⟨fun r hr t ht => ?_, fun t ht => ?_⟩
  · rw [h.blocks_new tmr r hr t ht]
    exact h.live r hr t ht
  · by_cases htt : t = s.allocs
    · omega
    · rw [update_of_ne htt] at ht
      have := h.fresh t ht
      omega

/-- No memory for the timer. -/
theorem add_none (h : WellTimed E s refs) {expire : ℕ} {timer : Option ℕ} {arg : ℕ} (hmem : E.zalloc s.allocs = false) :
    s.op E (.add expire timer arg) = some { s with tmr_id := s.nextId, allocs := s.allocs + 1 } ∧
      Done E [.add expire timer arg] s { s with tmr_id := s.nextId, allocs := s.allocs + 1 } refs refs := by
  obtain ⟨hpos, hle, hle'⟩ := nextId_bounds s
  have hop : s.add E expire timer arg = some (0, { s with tmr_id := s.nextId, allocs := s.allocs + 1 }) := by
    unfold Timers.add
    rw [hmem]
    rfl
  have hgranted : E.granted s.allocs ≤ E.granted (s.allocs + 1) := E.granted_mono (Nat.le_succ _)
  refine ⟨by rw [Timers.op, hop]; rfl, ⟨h.queues, h.few.trans hgranted, h.distinct, h.live, fun t ht => ?_⟩, le_rfl,
    fun _ hr _ _ => ⟨hr, rfl⟩, fun _ _ => rfl, fun held a ha _ => ?_⟩
  · exact (h.fresh t ht).trans (Nat.lt_succ_self _)
  · refine ⟨_, .cons (.refused a expire timer arg a.used a.clock subset_rfl le_rfl) (.nil _), ha.pending, ha.called,
      ha.clock, ha.ids, fun r hr => ?_, ?_, ?_⟩
    · have := ha.given r hr
      dsimp only
      omega
    · rw [ha.used, nextId_used]
    · exact (nextId_granted ha).trans (Nat.succ_le_succ hgranted)

/-- The state after a timer was allocated, with the heap then. -/
def Timers.added (s : Timers) (timer : Option ℕ) (arg : ℕ) (heap : PicoHeap TimerRef) : Timers :=
  { s with
    heap := heap
    tmr_id := (s.nextId + 1) % 2 ^ 32
    blocks := update s.blocks s.allocs (some ⟨arg, timer⟩)
    reads := s.reads + 1
    allocs := s.allocs + if s.heap.grows then 2 else 1 }

theorem added_allocs (s : Timers) (timer : Option ℕ) (arg : ℕ) (heap : PicoHeap TimerRef) :
    s.allocs + 1 ≤ (s.added timer arg heap).allocs := by
  unfold Timers.added
  dsimp only
  split <;> omega

theorem added_granted (hmem : E.zalloc s.allocs = true) (timer : Option ℕ) (arg : ℕ) (heap : PicoHeap TimerRef) :
    E.granted s.allocs + 1 ≤ E.granted (s.added timer arg heap).allocs := by
  rw [← granted_succ hmem]
  exact E.granted_mono (added_allocs s timer arg heap)

/-- The ids, after one more was given. -/
theorem added_ids (hscarce : Scarce E) {held : Multiset Due} {a : Agenda} (ha : Tracks E s refs held a)
    (hmem : E.zalloc s.allocs = true) (timer : Option ℕ) (arg : ℕ) (heap : PicoHeap TimerRef) :
    (s.added timer arg heap).tmr_id = s.nextId + 1 ∧ s.nextId ∉ a.used ∧
      insert s.nextId a.used = {i | 0 < i ∧ i < s.nextId + 1} ∧ (∀ r ∈ refs, r.id < s.nextId) ∧
      (s.added timer arg heap).tmr_id ≤ E.granted (s.added timer arg heap).allocs + 1 := by
  obtain ⟨hpos, hle, hle'⟩ := nextId_bounds s
  have hgranted := added_granted hmem timer arg heap
  have hscarce := hscarce (s.added timer arg heap).allocs
  have hnext := nextId_granted ha
  have htmr : (s.added timer arg heap).tmr_id = s.nextId + 1 := Nat.mod_eq_of_lt (by omega)
  have hused : a.used = {i | 0 < i ∧ i < s.nextId} := ha.used.trans (nextId_used s)
  refine ⟨htmr, fun hmem => ?_, ?_, fun r hr => ?_, by omega⟩
  · rw [hused] at hmem
    exact lt_irrefl _ hmem.2
  · ext i
    rw [hused, Set.mem_insert_iff, Set.mem_ofPred_eq, Set.mem_ofPred_eq]
    omega
  · have := ha.given r hr
    omega

/-- What an operation adds is not due. -/
theorem Clock.later (hE : Clock E) {expire : ℕ} (hexp : expire < 2 ^ 63) (k : ℕ) :
    (E.time k + expire) % 2 ^ 64 = E.time k + expire := by
  have := hE.small k
  exact Nat.mod_eq_of_lt (by omega)

/-- Memory for the timer, but not for the heap. -/
theorem add_refused (hE : Clock E) (hscarce : Scarce E) (h : WellTimed E s refs) (hmem : E.zalloc s.allocs = true)
    {expire : ℕ} (timer : Option ℕ) (arg : ℕ) :
    Done E [.add expire timer arg] s (s.added timer arg s.heap) refs refs := by
  have hallocs := added_allocs s timer arg s.heap
  have hgranted := added_granted hmem timer arg s.heap
  obtain ⟨hlive, hfresh⟩ := h.allocated ⟨arg, timer⟩
  have hblocks := h.blocks_new ⟨arg, timer⟩
  refine ⟨⟨h.queues, by have := h.few; omega, h.distinct, hlive, fun t ht => (hfresh t ht).trans_le hallocs⟩,
    Nat.le_succ _, fun r hr _ _ => ⟨hr, ?_⟩, fun _ _ => rfl, fun held a ha _ => ?_⟩
  · unfold Timers.due
    cases ht : r.tmr with
    | none => rfl
    | some t =>
      rw [Option.bind_some, Option.bind_some]
      exact congrArg _ (hblocks r (first_mem h.queues hr) t ht)
  · obtain ⟨htmr, -, hused, hgiven, hsmall⟩ := added_ids hscarce ha hmem timer arg s.heap
    refine ⟨_, .cons (.refused a expire timer arg (insert s.nextId a.used) (E.time s.reads)
      (Set.subset_insert _ _) ha.clock) (.nil _), (pending_congr hblocks).trans ha.pending, ha.called,
      hE.mono (Nat.le_succ _), ha.ids, fun r hr => ?_, by rw [htmr]; exact hused, hsmall⟩
    have := ha.given r hr
    have := hgiven r hr
    omega

/-- Memory for both. -/
theorem add_inserted (hE : Clock E) (hscarce : Scarce E) (h : WellTimed E s refs) (hmem : E.zalloc s.allocs = true)
    {expire : ℕ} (hexp : expire < 2 ^ 63) (timer : Option ℕ) (arg : ℕ) {heap : PicoHeap TimerRef}
    (hq : PicoHeap.Queues TimerRef.expire heap (⟨E.time s.reads + expire, s.nextId, some s.allocs⟩ ::ₘ refs))
    (hfirst : ∀ r : TimerRef, s.heap.first = some (some r) → r.expire ≤ E.time s.reads + expire →
      heap.first = some (some r)) :
    Done E [.add expire timer arg] s (s.added timer arg heap) refs
      (⟨E.time s.reads + expire, s.nextId, some s.allocs⟩ ::ₘ refs) := by
  have hallocs := added_allocs s timer arg heap
  have hgranted := added_granted hmem timer arg heap
  obtain ⟨hlive, hfresh⟩ := h.allocated ⟨arg, timer⟩
  have hblocks := h.blocks_new ⟨arg, timer⟩
  have hnew : (s.added timer arg heap).blocks s.allocs = some ⟨arg, timer⟩ := update_self ..
  refine ⟨⟨hq, ?_, ?_, ?_, fun t ht => (hfresh t ht).trans_le hallocs⟩, Nat.le_succ _,
    fun r hr hexp _ => ⟨hfirst r hr (by omega), ?_⟩, fun tick htick => ?_, fun held a ha _ => ?_⟩
  · have := h.few
    rw [Multiset.card_cons]
    omega
  · rw [Multiset.filterMap_cons_some TimerRef.tmr _ refs rfl, Multiset.nodup_cons]
    refine ⟨fun hmem => ?_, h.distinct⟩
    obtain ⟨r, hr, ht⟩ := (Multiset.mem_filterMap _ _).1 hmem
    exact lt_irrefl _ (h.fresh _ (h.live r hr _ ht))
  · rw [Multiset.forall_mem_cons]
    refine ⟨fun t ht => ?_, hlive⟩
    cases ht
    rw [hnew]
    rfl
  · unfold Timers.due
    cases ht : r.tmr with
    | none => rfl
    | some t =>
      rw [Option.bind_some, Option.bind_some]
      exact congrArg _ (hblocks r (first_mem h.queues hr) t ht)
  · rw [Multiset.countP_cons_of_neg]
    dsimp only
    omega
  · obtain ⟨htmr, hunused, hused, hgiven, hsmall⟩ := added_ids hscarce ha hmem timer arg heap
    obtain ⟨hpos, -, -⟩ := nextId_bounds s
    refine ⟨_, .cons (.added a expire timer arg s.nextId (E.time s.reads) hunused ha.clock) (.nil _), ?_, ha.called,
      hE.mono (Nat.le_succ _), ?_, ?_, by rw [htmr]; exact hused, hsmall⟩
    · have hdue : (s.added timer arg heap).due ⟨E.time s.reads + expire, s.nextId, some s.allocs⟩ =
          some ⟨s.nextId, E.time s.reads + expire, timer, arg⟩ := by
        unfold Timers.due
        rw [Option.bind_some, hnew]
        rfl
      rw [pending_cons, hdue, pending_congr hblocks, ha.pending, Multiset.add_cons]
      exact (Multiset.singleton_add _ _)
    · rw [Multiset.map_cons, Multiset.nodup_cons]
      refine ⟨fun hmem => ?_, ha.ids⟩
      obtain ⟨r, hr, hid⟩ := Multiset.mem_map.1 hmem
      exact absurd hid (hgiven r hr).ne
    · rw [Multiset.forall_mem_cons, htmr]
      refine ⟨⟨hpos, Nat.lt_succ_self _⟩, fun r hr => ⟨(ha.given r hr).1, ?_⟩⟩
      have := hgiven r hr
      omega

/-- **`pico_timer_add`** adds a timer, or none. -/
theorem add_done (hE : Clock E) (hscarce : Scarce E) (h : WellTimed E s refs) {expire : ℕ} (hexp : expire < 2 ^ 63)
    (timer : Option ℕ) (arg : ℕ) : ∃ s' refs', s.op E (.add expire timer arg) = some s' ∧
      Done E [.add expire timer arg] s s' refs refs' := by
  cases hmem : E.zalloc s.allocs with
  | false =>
    obtain ⟨hop, hdone⟩ := add_none h hmem
    exact ⟨_, _, hop, hdone⟩
  | true =>
    have hlater := hE.later hexp s.reads
    have hadd : s.add E expire timer arg =
        (s.heap.insert TimerRef.expire ⟨0, 0, none⟩ (E.zalloc (s.allocs + 1))
          ⟨E.time s.reads + expire, s.nextId, some s.allocs⟩).bind fun r => some (s.nextId, s.added timer arg r.2) := by
      unfold Timers.add
      rw [if_pos hmem, hlater]
      rfl
    -- there is memory for one more
    have hroom : s.heap.n + 1 < 2 ^ 31 := by
      have hgranted := hscarce (s.allocs + 1)
      rw [granted_succ hmem] at hgranted
      have hfew := h.few
      rw [h.queues.card] at hfew
      omega
    rcases h.queues.insert ⟨0, 0, none⟩ (E.zalloc (s.allocs + 1))
      ⟨E.time s.reads + expire, s.nextId, some s.allocs⟩ hroom with ⟨-, -, hinsert⟩ | ⟨heap, hinsert, hq, hfirst⟩
    · rw [hinsert] at hadd
      exact ⟨_, _, by rw [Timers.op, hadd]; rfl, add_refused hE hscarce h hmem timer arg⟩
    · rw [hinsert] at hadd
      exact ⟨_, _, by rw [Timers.op, hadd]; rfl,
        add_inserted hE hscarce h hmem hexp timer arg hq fun r hr hle => hfirst r hr hle⟩

/-- A delay that is far from the end of the clock. -/
def TimerOp.Small : TimerOp → Prop
  | .add expire _ _ => expire < 2 ^ 63
  | .cancel _ => True

instance : (o : TimerOp) → Decidable o.Small
  | .add expire _ _ => inferInstanceAs (Decidable (expire < 2 ^ 63))
  | .cancel _ => inferInstanceAs (Decidable True)

/-- **Operations one after the other.** -/
theorem ops_done (hE : Clock E) (hscarce : Scarce E) (h : WellTimed E s refs) (os : List TimerOp) (hos : ∀ o ∈ os, o.Small) :
    ∃ s' refs', s.ops E os = some s' ∧ Done E os s s' refs refs' := by
  induction os generalizing s refs with
  | nil => exact ⟨s, refs, rfl, .nil h⟩
  | cons o os ih =>
    rw [List.forall_mem_cons] at hos
    have hone : ∃ s' refs', s.op E o = some s' ∧ Done E [o] s s' refs refs' := by
      cases o with
      | add expire timer arg => exact add_done hE hscarce h hos.1 timer arg
      | cancel id => exact cancel_done h id
    obtain ⟨s₁, refs₁, hop, hdone⟩ := hone
    obtain ⟨s₂, refs₂, hops, hdone'⟩ := ih hdone.wellTimed hos.2
    refine ⟨s₂, refs₂, ?_, hdone.trans hE.mono hdone'⟩
    rw [Timers.ops, List.foldlM_cons, hop]
    exact hops

/-! ## `pico_check_timers` -/

/-- **What the timer functions do**: they add with a delay that is far from the end of the clock, and
none cancels the timer that it is called for. -/
def Decent (E : TimerEnv) : Prop :=
  ∀ k c, (∀ o ∈ E.callback k c, o.Small) ∧ Spares (E.callback k c) c.id

/-- What stands for an entry is called, if anything does. -/
def CalledFor (E : TimerEnv) (tick : ℕ) (a : Agenda) : Option Due → Agenda → Prop
  | none, a' => a' = a
  | some d, a' => Agenda.Called E tick a d a'

/-- What the part of the loop does that calls the function. -/
structure CallDone (E : TimerEnv) (tick : ℕ) (r : TimerRef) (s s' : Timers) (refs refs' : Multiset TimerRef) : Prop where
  wellTimed : WellTimed E s' refs'
  reads : s.reads ≤ s'.reads
  first : s'.heap.first = some (some r)
  same : s'.due r = s.due r
  due : refs'.countP (·.expire < tick) = refs.countP (·.expire < tick)
  tracks : ∀ a, Tracks E s refs (s.due r).toList a →
    ∃ a', CalledFor E tick a (s.due r) a' ∧ Tracks E s' refs' (s.due r).toList a'

theorem callTimer_done (hE : Clock E) (hscarce : Scarce E) (hdecent : Decent E) (h : WellTimed E s refs)
    {r : TimerRef} (hr : s.heap.first = some (some r)) {tick : ℕ} (hdue : r.expire < tick) (htick : tick ≤ E.time s.reads) :
    ∃ s' refs', s.callTimer E tick r = some s' ∧ CallDone E tick r s s' refs refs' := by
  unfold Timers.callTimer
  cases ht : r.tmr with
  | none =>
    have hnone : s.due r = none := by rw [Timers.due, ht]; rfl
    refine ⟨s, refs, rfl, h, le_rfl, hr, rfl, rfl, fun a ha => ?_⟩
    rw [hnone] at ha ⊢
    exact ⟨a, rfl, ha⟩
  | some t =>
    obtain ⟨tmr, htmr⟩ := Option.isSome_iff_exists.1 (h.live r (first_mem h.queues hr) t ht)
    have hd : s.due r = some ⟨r.id, r.expire, tmr.timer, tmr.arg⟩ := by
      rw [Timers.due, ht, Option.bind_some, htmr]
      rfl
    dsimp only
    rw [htmr, Option.bind_eq_bind, Option.bind_some]
    cases hf : tmr.timer with
    | none =>
      refine ⟨s, refs, rfl, h, le_rfl, hr, rfl, rfl, fun a ha => ?_⟩
      rw [hd, hf] at ha ⊢
      exact ⟨a, .none a _ _ _, ha⟩
    | some timer =>
      obtain ⟨hsmall, hspares⟩ := hdecent s.called.length ⟨r.id, r.expire, timer, tmr.arg, tick⟩
      have hlogged : WellTimed E { s with called := s.called ++ [⟨r.id, r.expire, timer, tmr.arg, tick⟩] } refs :=
        ⟨h.queues, h.few, h.distinct, h.live, h.fresh⟩
      obtain ⟨s', refs', hops, hdone⟩ := ops_done hE hscarce hlogged _ hsmall
      obtain ⟨hfirst, hsame⟩ := hdone.first r hr (by dsimp only; omega) hspares
      refine ⟨s', refs', hops, hdone.wellTimed, hdone.reads, hfirst, hsame, hdone.due tick htick, fun a ha => ?_⟩
      rw [hd, hf] at ha ⊢
      obtain ⟨a', hstep, ha'⟩ := hdone.tracks _
        { a with called := a.called ++ [⟨r.id, r.expire, timer, tmr.arg, tick⟩] }
        ⟨ha.pending, congrArg (· ++ [_]) ha.called, ha.clock, ha.ids, ha.given, ha.used, ha.small⟩ (by
          intro d hmem
          rw [Option.toList_some, Multiset.coe_singleton, Multiset.mem_singleton] at hmem
          rw [hmem]
          exact hspares)
      rw [← ha.called] at hstep
      exact ⟨a', .some hstep, ha'⟩

/-- The entry that was called is taken out: nothing is held any more. -/
theorem CallDone.taken {tick : ℕ} {r : TimerRef} {s₁ : Timers} {refs₁ : Multiset TimerRef}
    (h : CallDone E tick r s s₁ refs refs₁) :
    ∃ rest heap, refs₁ = r ::ₘ rest ∧ s₁.free r.tmr = some { s₁ with blocks := without s₁.blocks r.tmr } ∧
      s₁.heap.peek TimerRef.expire = some (some r, heap) ∧
      WellTimed E { s₁ with heap := heap, blocks := without s₁.blocks r.tmr } rest ∧
      ∀ a, Tracks E s₁ refs₁ (s.due r).toList a →
        Tracks E { s₁ with heap := heap, blocks := without s₁.blocks r.tmr } rest 0 a := by
  rcases h.wellTimed.queues.peek with ⟨-, hnone, -⟩ | ⟨r', rest, heap, rfl, hsome, -, hpeek, hq⟩
  · rw [h.first] at hnone
    cases hnone
  · rw [h.first] at hsome
    cases hsome
    obtain ⟨hwell, hpending⟩ := h.wellTimed.release hq (Or.inl rfl)
    have hlive := h.wellTimed.live r (Multiset.mem_cons_self r rest)
    refine ⟨rest, heap, rfl, free_eq hlive, hpeek, hwell, fun a ha => ⟨?_, ha.called, ha.clock, ?_, ?_, ha.used, ha.small⟩⟩
    · have hall := ha.pending
      rw [pending_cons, h.same] at hall
      rw [hpending, zero_add]
      exact add_left_cancel hall
    · have hids := ha.ids
      rw [Multiset.map_cons, Multiset.nodup_cons] at hids
      exact hids.2
    · exact fun x hx => ha.given x (Multiset.mem_cons_of_mem hx)

/-- **The loop of `pico_check_timers`** comes to its end, and checks the agenda. -/
theorem checkLoop_done (hE : Clock E) (hscarce : Scarce E) (hdecent : Decent E) {tick : ℕ} (turns : ℕ)
    (h : WellTimed E s refs) (htick : tick ≤ E.time s.reads) (hturns : refs.countP (·.expire < tick) < turns) :
    ∃ s' refs', Timers.checkLoop E tick turns s = some s' ∧ WellTimed E s' refs' ∧ s.reads ≤ s'.reads ∧
      (∀ r ∈ refs', tick ≤ r.expire) ∧
      ∀ a, Tracks E s refs 0 a → ∃ a', Agenda.Checked E tick a a' ∧ Tracks E s' refs' 0 a' := by
  induction turns generalizing s refs with
  | zero => exact absurd hturns (Nat.not_lt_zero _)
  | succ turns ih =>
    rw [Timers.checkLoop]
    rcases h.queues.peek with ⟨rfl, hfirst, -⟩ | ⟨r, rest, -, rfl, hfirst, hleast, -, -⟩
    · -- no entry is left
      refine ⟨s, 0, by rw [hfirst]; rfl, h, le_rfl, fun r hr => absurd hr (Multiset.notMem_zero r),
        fun a ha => ⟨a, .done a fun d hd => ?_, ha⟩⟩
      have hall := ha.pending
      rw [zero_add] at hall
      rw [← hall] at hd
      exact absurd hd (Multiset.notMem_zero d)
    · rw [hfirst, Option.bind_eq_bind, Option.bind_some]
      have hbehind : ∀ d ∈ s.pending (r ::ₘ rest), r.expire ≤ d.expire := by
        intro d hd
        obtain ⟨x, hx, -, -, hexp⟩ := mem_pending hd
        rw [← hexp]
        exact hleast x hx
      by_cases hdue : r.expire < tick
      · obtain ⟨s₁, refs₁, hcall, hdone⟩ := callTimer_done hE hscarce hdecent h hfirst hdue htick
        obtain ⟨rest₁, heap, rfl, hfree, hpeek, hwell, htaken⟩ := hdone.taken
        have hcount := hdone.due
        rw [Multiset.countP_cons, Multiset.countP_cons, if_pos hdue] at hcount
        rw [Multiset.countP_cons, if_pos hdue] at hturns
        obtain ⟨s', refs', hloop, hwell', hreads, hnone, htracks⟩ := ih hwell
          (htick.trans (hE.mono hdone.reads)) (by omega)
        refine ⟨s', refs', ?_, hwell', hdone.reads.trans hreads, hnone, fun a ha => ?_⟩
        · dsimp only
          rw [if_pos hdue, hcall, Option.bind_eq_bind, Option.bind_some, hfree, Option.bind_some]
          dsimp only
          rw [hpeek]
          exact hloop
        · -- what is held during the call is what stands for the entry
          have hheld : Tracks E s (r ::ₘ rest) (s.due r).toList { a with pending := s.pending rest } :=
            ⟨pending_cons s r rest, ha.called, ha.clock, ha.ids, ha.given, ha.used, ha.small⟩
          obtain ⟨a₁, hcalled, ha₁⟩ := hdone.tracks _ hheld
          obtain ⟨a', hchecked, ha'⟩ := htracks a₁ (htaken a₁ ha₁)
          refine ⟨a', ?_, ha'⟩
          have hall := ha.pending
          rw [zero_add, pending_cons] at hall
          cases hd : s.due r with
          | none =>
            rw [hd] at hcalled hall
            have hsame : { a with pending := s.pending rest } = a := by
              rw [show s.pending rest = a.pending from (zero_add _).symm.trans hall]
            rw [hsame] at hcalled
            rw [show a₁ = a from hcalled] at hchecked
            exact hchecked
          | some d =>
            rw [hd] at hcalled hall
            have hexp : r.expire = d.expire := by
              obtain ⟨t, -, hmap⟩ := Option.bind_eq_some_iff.1 hd
              obtain ⟨tmr, -, rfl⟩ := Option.map_eq_some_iff.1 hmap
              rfl
            refine .due (a := a) (d := d) hall.symm (by omega) (fun x hx => ?_) hcalled hchecked
            rw [← hexp]
            refine hbehind x ?_
            rw [pending_cons]
            exact Multiset.mem_add.2 (Or.inr hx)
      · -- the first entry is not due, and so none is
        refine ⟨s, r ::ₘ rest, by dsimp only; rw [if_neg hdue], h, le_rfl, fun x hx => ?_,
          fun a ha => ⟨a, .done a fun d hd => ?_, ha⟩⟩
        · exact (Nat.le_of_not_lt hdue).trans (hleast x hx)
        · have hall := ha.pending
          rw [zero_add] at hall
          rw [← hall] at hd
          exact (Nat.le_of_not_lt hdue).trans (hbehind d hd)

/-! ## Runs -/

/-- No delay is near the end of the clock. -/
def TimerEvent.Small : TimerEvent → Prop
  | .op o => o.Small
  | .check => True

instance : (e : TimerEvent) → Decidable e.Small
  | .op o => inferInstanceAs (Decidable o.Small)
  | .check => inferInstanceAs (Decidable True)

/-- **An event** is one of the agenda. -/
theorem timersStep_done (hE : Clock E) (hscarce : Scarce E) (hdecent : Decent E) (h : WellTimed E s refs)
    {e : TimerEvent} (he : e.Small) : ∃ s' refs', s.step E e = some s' ∧ WellTimed E s' refs' ∧
      (e = .check → ∀ r ∈ refs', E.time s.reads ≤ r.expire) ∧
      ∀ a, Tracks E s refs 0 a → ∃ a', Agenda.Step E a e a' ∧ Tracks E s' refs' 0 a' := by
  cases e with
  | op o =>
    obtain ⟨s', refs', hops, hdone⟩ := ops_done hE hscarce h [o] (fun o' ho' => by rwa [List.mem_singleton.1 ho'])
    have hop : s.op E o = some s' := by
      rw [Timers.ops, List.foldlM_cons] at hops
      obtain ⟨s₁, hop, hnil⟩ := Option.bind_eq_some_iff.1 hops
      rw [hop]
      exact hnil
    refine ⟨s', refs', hop, hdone.wellTimed, fun hne => (by cases hne), fun a ha => ?_⟩
    obtain ⟨a', hsteps, ha'⟩ := hdone.tracks 0 a ha fun d hd => absurd hd (Multiset.notMem_zero d)
    cases hsteps with
    | cons hstep hnil =>
      cases hnil
      exact ⟨a', .op hstep, ha'⟩
  | check =>
    have hread : WellTimed E { s with reads := s.reads + 1 } refs := ⟨h.queues, h.few, h.distinct, h.live, h.fresh⟩
    have hturns : refs.countP (·.expire < E.time s.reads) < s.heap.n + 1 := by
      have hle := Multiset.countP_le_card (fun r : TimerRef => r.expire < E.time s.reads) refs
      rw [h.queues.card] at hle
      exact Nat.lt_succ_of_le hle
    obtain ⟨s', refs', hloop, hwell, -, hnone, htracks⟩ :=
      checkLoop_done hE hscarce hdecent (s.heap.n + 1) hread (hE.mono (Nat.le_succ s.reads)) hturns
    refine ⟨s', refs', hloop, hwell, fun _ => hnone, fun a ha => ?_⟩
    obtain ⟨a', hchecked, ha'⟩ := htracks { a with clock := E.time s.reads }
      ⟨ha.pending, ha.called, hE.mono (Nat.le_succ s.reads), ha.ids, ha.given, ha.used, ha.small⟩
    exact ⟨a', .check ha.clock hchecked, ha'⟩

/-- **A run** is one of the agenda. -/
theorem timersRun_done (hE : Clock E) (hscarce : Scarce E) (hdecent : Decent E) (h : WellTimed E s refs)
    {es : List TimerEvent} (hes : ∀ e ∈ es, e.Small) :
    ∃ s' refs', es.foldlM (Timers.step E) s = some s' ∧ WellTimed E s' refs' ∧
      ∀ a, Tracks E s refs 0 a → ∃ a', Agenda.Run E a es a' ∧ Tracks E s' refs' 0 a' := by
  induction es generalizing s refs with
  | nil => exact ⟨s, refs, rfl, h, fun a ha => ⟨a, .nil a, ha⟩⟩
  | cons e es ih =>
    rw [List.forall_mem_cons] at hes
    obtain ⟨s₁, refs₁, hstep, hwell, -, htracks⟩ := timersStep_done hE hscarce hdecent h hes.1
    obtain ⟨s', refs', hrun, hwell', htracks'⟩ := ih hwell hes.2
    refine ⟨s', refs', ?_, hwell', fun a ha => ?_⟩
    · rw [List.foldlM_cons, hstep]
      exact hrun
    · obtain ⟨a₁, hone, ha₁⟩ := htracks a ha
      obtain ⟨a', hrest, ha'⟩ := htracks' a₁ ha₁
      exact ⟨a', .cons hone hrest, ha'⟩

theorem WellTimed.start (E : TimerEnv) : WellTimed E {} 0 where
  queues := PicoHeap.queues_init
  few := Nat.zero_le _
  distinct := Multiset.nodup_zero
  live r hr := absurd hr (Multiset.notMem_zero r)
  fresh t ht := by cases ht

theorem Tracks.start (E : TimerEnv) : Tracks E {} 0 0 {} where
  pending := rfl
  called := rfl
  clock := Nat.zero_le _
  ids := Multiset.nodup_zero
  given r hr := absurd hr (Multiset.notMem_zero r)
  used := by
    ext i
    rw [Set.mem_ofPred_eq]
    exact ⟨fun hi => absurd hi (Set.notMem_empty i), fun hi => absurd hi.2 (Nat.not_lt_zero i)⟩
  small := Nat.zero_le _

/-- The clock goes on by one at each reading, up to 40, there is memory for a while, and the first three
calls add a timer each. -/
def ticking : TimerEnv where
  time k := min k 40
  zalloc k := k < 40 ∧ k ≠ 9
  callback k _ := if k < 3 then [.add 2 (some 1) k] else []

theorem ticking_clock : Clock ticking where
  mono _ _ h := min_le_min_right 40 h
  small k := (Nat.min_le_right k 40).trans_lt (by decide)

theorem ticking_scarce : Scarce ticking := by
  intro k
  have hsub : (Finset.range k).filter (fun j => ticking.zalloc j = true) ⊆ Finset.range 40 := by
    intro j hj
    have hmem := (Finset.mem_filter.1 hj).2
    exact Finset.mem_range.2 (of_decide_eq_true hmem).1
  have hcard := Finset.card_le_card hsub
  rw [← Nat.count_eq_card_filter_range, Finset.card_range] at hcard
  exact hcard.trans_lt (by decide)

theorem ticking_decent : Decent ticking := by
  intro k c
  unfold ticking
  dsimp only
  split
  · refine ⟨fun o ho => ?_, fun hmem => ?_⟩
    · rw [List.mem_singleton.1 ho]
      have hsmall : 2 < 2 ^ 63 := by decide
      exact hsmall
    · exact TimerOp.noConfusion (List.mem_singleton.1 hmem)
  · exact ⟨fun o ho => absurd ho List.not_mem_nil, List.not_mem_nil⟩

/-- Two timers, and the first is called second. -/
def twoTimers : List TimerEvent :=
  [.op (.add 3 (some 1) 5), .op (.add 1 (some 2) 6), .check, .check, .check]

theorem twoTimers_small : ∀ e ∈ twoTimers, e.Small := by decide

/-- What a run comes to, read off it. -/
theorem run_of_map (E : TimerEnv) (es : List TimerEvent) {α : Type} (f : Timers → α) {x : α}
    (h : (Timers.run E es).map f = some x) : ∃ s, Timers.run E es = some s ∧ f s = x := by
  obtain ⟨s, hrun, hx⟩ := Option.map_eq_some_iff.1 h
  exact ⟨s, hrun, hx⟩

/-- **Each timer is called once at most, after its time, and in the order of the times**; and when they
were checked, none is left whose time has come. -/
theorem timers_called (hE : Clock E) (hscarce : Scarce E) (hdecent : Decent E) {es : List TimerEvent}
    (hes : ∀ e ∈ es, e.Small) (hrun : Timers.run E es = some s) :
    (s.called.map TimerCall.id).Nodup ∧ (∀ c ∈ s.called, c.expire < c.tick) ∧
      (s.called.Pairwise fun c c' => c.expire ≤ c'.expire ∧ c.tick ≤ c'.tick) ∧
      ∃ s' refs, s.check E = some s' ∧ PicoHeap.Queues TimerRef.expire s'.heap refs ∧
        ∀ r ∈ refs, E.time s.reads ≤ r.expire := by
  obtain ⟨s₁, refs, hrun₁, hwell, htracks⟩ := timersRun_done hE hscarce hdecent (WellTimed.start E) hes
  obtain rfl : s₁ = s := Option.some.inj (hrun₁.symm.trans hrun)
  obtain ⟨a, hagenda, ha⟩ := htracks {} (Tracks.start E)
  have hfair := (Agenda.Run.spec hagenda).1 Agenda.Fair.start
  rw [← ha.called]
  refine ⟨?_, fun c hc => (hfair.after c hc).1, hfair.inTurn, ?_⟩
  · have hle : (a.called.map TimerCall.id : Multiset ℕ) ≤ a.called.map TimerCall.id + a.pending.map Due.id :=
      Multiset.le_add_right _ _
    exact Multiset.coe_nodup.1 (Multiset.nodup_of_le hle hfair.once)
  · obtain ⟨s', refs', hcheck, hwell', hnone, -⟩ := timersStep_done hE hscarce hdecent hwell (e := .check) trivial
    exact ⟨s', refs', hcheck, hwell'.queues, hnone rfl⟩

theorem timers_called_twoTimers : ∃ s, Timers.run ticking twoTimers = some s ∧ s.called.map TimerCall.id = [2, 1] ∧
    (s.called.map TimerCall.id).Nodup ∧ (∀ c ∈ s.called, c.expire < c.tick) ∧
      (s.called.Pairwise fun c c' => c.expire ≤ c'.expire ∧ c.tick ≤ c'.tick) ∧
      ∃ s' refs, s.check ticking = some s' ∧ PicoHeap.Queues TimerRef.expire s'.heap refs ∧
        ∀ r ∈ refs, ticking.time s.reads ≤ r.expire := by
  obtain ⟨s, hrun, hcalled⟩ := run_of_map ticking twoTimers (fun s => s.called.map TimerCall.id) (x := [2, 1])
    (by decide +kernel)
  exact ⟨s, hrun, hcalled, timers_called ticking_clock ticking_scarce ticking_decent twoTimers_small hrun⟩

/-- **A timer that was cancelled is not called any more.** -/
theorem timers_cancelled (hE : Clock E) (hscarce : Scarce E) (hdecent : Decent E) {es es' : List TimerEvent}
    (hes : ∀ e ∈ es, e.Small) (hes' : ∀ e ∈ es', e.Small) {id : ℕ} (hrun : Timers.run E es = some s) (hpos : 0 < id)
    (hid : id < s.tmr_id) (hrun' : Timers.run E (es ++ .op (.cancel id) :: es') = some s') :
    ∃ later, s'.called = s.called ++ later ∧ ∀ c ∈ later, c.id ≠ id := by
  obtain ⟨s₁, refs, hrun₁, hwell, htracks⟩ := timersRun_done hE hscarce hdecent (WellTimed.start E) hes
  obtain rfl : s₁ = s := Option.some.inj (hrun₁.symm.trans hrun)
  have hrest : ∀ e ∈ TimerEvent.op (.cancel id) :: es', e.Small := List.forall_mem_cons.2 ⟨trivial, hes'⟩
  obtain ⟨s₂, refs', hrun₂, -, htracks'⟩ := timersRun_done hE hscarce hdecent hwell hrest
  rw [Timers.run, List.foldlM_append, hrun₁] at hrun'
  obtain rfl : s₂ = s' := Option.some.inj (hrun₂.symm.trans hrun')
  obtain ⟨a, -, ha⟩ := htracks {} (Tracks.start E)
  obtain ⟨a', hagenda, ha'⟩ := htracks' a ha
  rw [← ha.called, ← ha'.called]
  cases hagenda with
  | cons hstep hlater =>
    cases hstep with
    | op hop =>
      cases hop with
      | cancelled =>
        refine (Agenda.Run.spec hlater).2 id ⟨?_, fun d hd => (Multiset.mem_filter.1 hd).2⟩
        show id ∈ a.used
        rw [ha.used]
        exact ⟨hpos, hid⟩

theorem timers_cancelled_twoTimers : ∃ s s', Timers.run ticking twoTimers = some s ∧
    Timers.run ticking (twoTimers ++ .op (.cancel 3) :: [.check, .check, .check]) = some s' ∧
    ∃ later, s'.called = s.called ++ later ∧ ∀ c ∈ later, c.id ≠ 3 := by
  obtain ⟨s, hrun, hid⟩ := run_of_map ticking twoTimers Timers.tmr_id (x := 5) (by decide +kernel)
  obtain ⟨s', hrun', -⟩ := run_of_map ticking
    (twoTimers ++ .op (.cancel 3) :: [.check, .check, .check]) Timers.allocs (x := 9) (by decide +kernel)
  exact ⟨s, s', hrun, hrun', timers_cancelled ticking_clock ticking_scarce ticking_decent twoTimers_small (by decide)
    hrun (by decide) (by rw [hid]; decide) hrun'⟩

end Vdetelweb
