import Vdetelweb.Lib.Runs
import Vdetelweb.Proof.Recv
import Vdetelweb.Spec.Notify

/-!
# Wake-ups and the data behind them

`V_read` leaves the semaphore alone while the count is positive, and the reader takes the
count down only after it has acquired. Up to the statement that each of the threads is at,
the count is that of the semaphore, and the pipe has a byte for everything that is counted as
written (`Synced`). So no wake-up is lost (`noLostWakeup_run`).

There may be one too many: when the callback finds the count at zero, the reader may have
taken the data already, or be on its way to it. The wake-up then has no data behind it, and
`recv` returns the empty string (`spuriousEnd_of_unwarranted`).
-/

namespace Vdetelweb

namespace ReadSide

variable {n capacity : ℕ} {w w' : ReadSide}

/-! ## Steps -/

/-- **What a step does**, by the statement that it is. -/
inductive Taken (capacity : ℕ) (w : ReadSide) : ReadStep n → ReadSide → Prop
  | arrive (data) (idle : w.callback = .idle) :
    Taken capacity w (.arrive data) { w with queue := w.queue ++ data.1, callback := .unlock }
  | keep (next : w.callback = .unlock) (counted : 0 < w.sock_obj.read_count) :
    Taken capacity w .callback { w with callback := .write }
  | release (next : w.callback = .unlock) (counted : w.sock_obj.read_count ≤ 0) :
    Taken capacity w .callback { w with
      sock_obj := { w.sock_obj with read_semaphore := w.sock_obj.read_semaphore + 1 }
      callback := .count }
  | count (next : w.callback = .count) :
    Taken capacity w .callback { w with
      sock_obj := { w.sock_obj with read_count := w.sock_obj.read_count + 1 }
      callback := .write }
  | write (next : w.callback = .write) (room : w.pipe < capacity) :
    Taken capacity w .callback { w with pipe := w.pipe + 1, callback := .written }
  | written (next : w.callback = .written) :
    Taken capacity w .callback { w with
      sock_obj := { w.sock_obj with
        read_written_characters := w.sock_obj.read_written_characters + 1 }
      callback := .idle }
  | acquire (next : w.reader = .acquire) (k : ℕ) (free : w.sock_obj.read_semaphore = k + 1) :
    Taken capacity w .reader { w with
      sock_obj := { w.sock_obj with read_semaphore := k }
      reader := .count }
  | uncount (next : w.reader = .count) :
    Taken capacity w .reader { w with
      sock_obj := { w.sock_obj with read_count := w.sock_obj.read_count - 1 }
      reader := .read }
  | read (next : w.reader = .read) (ready : w.sock_obj.read_written_characters = 0 ∨ 0 < w.pipe) :
    Taken capacity w .reader { w with
      pipe := w.pipe - min w.sock_obj.read_written_characters w.pipe
      reader := .clear }
  | clear (next : w.reader = .clear) :
    Taken capacity w .reader { w with
      sock_obj := { w.sock_obj with read_written_characters := 0 }
      reader := .drain }
  | drain (chunks : List (Chunk n)) (next : w.reader = .drain) (all : joined chunks = w.queue) :
    Taken capacity w (.drain chunks) { w with
      queue := []
      reader := .acquire
      returned := w.returned ++ [Vdetelweb.socketRecv chunks] }

theorem taken_of_vRead (h : w.vRead capacity = some w') : Taken capacity w (.callback : ReadStep n) w' := by
  unfold vRead at h
  cases hc : w.callback with
  | idle => simp [hc] at h
  | unlock =>
    by_cases hpos : 0 < w.sock_obj.read_count
    · simp [hc, unlockSem, hpos] at h
      subst h
      exact .keep hc hpos
    · simp [hc, unlockSem, hpos] at h
      subst h
      exact .release hc (not_lt.1 hpos)
  | count =>
    simp [hc] at h
    subst h
    exact .count hc
  | write =>
    simp [hc] at h
    obtain ⟨hroom, rfl⟩ := h
    exact .write hc hroom
  | written =>
    simp [hc] at h
    subst h
    exact .written hc

theorem taken_of_readCheck (h : w.readCheck = some w') : Taken capacity w (.reader : ReadStep n) w' := by
  unfold readCheck at h
  cases hr : w.reader with
  | acquire =>
    cases hsem : w.sock_obj.read_semaphore with
    | zero => simp [hr, hsem, waitonSem] at h
    | succ k =>
      simp [hr, hsem, waitonSem] at h
      subst h
      exact .acquire hr k hsem
  | count =>
    simp [hr] at h
    subst h
    exact .uncount hr
  | read =>
    simp [hr] at h
    obtain ⟨hready, rfl⟩ := h
    exact .read hr hready
  | clear =>
    simp [hr] at h
    subst h
    exact .clear hr
  | drain => simp [hr] at h

/-- **The steps that can be taken.** -/
theorem tryStep_eq_some {e : ReadStep n} : w.tryStep capacity e = some w' ↔ Taken capacity w e w' := by
  constructor
  · intro h
    cases e with
    | arrive data =>
      simp only [tryStep, Option.ite_none_right_eq_some, Option.some.injEq] at h
      obtain ⟨hidle, rfl⟩ := h
      exact .arrive data hidle
    | callback => exact taken_of_vRead h
    | reader => exact taken_of_readCheck h
    | drain chunks =>
      simp only [tryStep, ReadSide.drain, Option.ite_none_right_eq_some, Option.some.injEq] at h
      obtain ⟨⟨hr, hq⟩, rfl⟩ := h
      exact .drain chunks hr hq
  · intro h
    cases h with
    | arrive data idle => simp [tryStep, idle]
    | keep next counted => simp [tryStep, vRead, next, unlockSem, counted]
    | release next counted => simp [tryStep, vRead, next, unlockSem, not_lt.2 counted]
    | count next => simp [tryStep, vRead, next]
    | write next room => simp [tryStep, vRead, next, room]
    | written next => simp [tryStep, vRead, next]
    | acquire next k free => simp [tryStep, readCheck, next, free, waitonSem]
    | uncount next => simp [tryStep, readCheck, next]
    | read next ready => simp [tryStep, readCheck, next, ready]
    | clear next => simp [tryStep, readCheck, next]
    | drain chunks next all => simp [tryStep, ReadSide.drain, next, all]

/-- A step leads to one state. -/
theorem Taken.unique {e : ReadStep n} {w₁ w₂ : ReadSide} (h₁ : Taken capacity w e w₁)
    (h₂ : Taken capacity w e w₂) : w₁ = w₂ :=
  Option.some.inj ((tryStep_eq_some.2 h₁).symm.trans (tryStep_eq_some.2 h₂))

theorem Taken.step {e : ReadStep n} (h : Taken capacity w e w') : w.step capacity e = w' := by
  rw [ReadSide.step, tryStep_eq_some.2 h]
  rfl

theorem step_cases (capacity : ℕ) (w : ReadSide) (e : ReadStep n) :
    w.step capacity e = w ∨ Taken capacity w e (w.step capacity e) := by
  cases hs : w.tryStep capacity e with
  | none => exact Or.inl (by rw [ReadSide.step, hs]; rfl)
  | some w' =>
    have ht := tryStep_eq_some.1 hs
    exact Or.inr (by rwa [ht.step])

/-- **The statements of a callback**, one after the other, are `V_read`. -/
theorem vRead_statements (hc : w.callback = .unlock) (hroom : w.pipe < capacity) :
    ∃ k, (List.replicate k (.callback : ReadStep n)).foldl (step capacity) w =
      { w with sock_obj := w.sock_obj.vRead, pipe := w.pipe + 1, callback := .idle } := by
  by_cases hpos : 0 < w.sock_obj.read_count
  · refine ⟨3, ?_⟩
    simp [List.replicate, step, tryStep, ReadSide.vRead, SockObj.vRead, unlockSem, hc, hpos, hroom]
  · refine ⟨4, ?_⟩
    simp [List.replicate, step, tryStep, ReadSide.vRead, SockObj.vRead, unlockSem, hc, hpos, hroom]

/-- **The statements of `read_check`** are `P_read` and what comes after it. -/
theorem readCheck_statements (hr : w.reader = .acquire) {o : SockObj} (ho : w.sock_obj.pRead = some o)
    (hready : w.sock_obj.read_written_characters = 0 ∨ 0 < w.pipe) :
    (List.replicate 4 (.reader : ReadStep n)).foldl (step capacity) w = { w with
      sock_obj := { o with read_written_characters := 0 }
      pipe := w.pipe - min w.sock_obj.read_written_characters w.pipe
      reader := .drain } := by
  obtain ⟨semaphore, hsem, rfl⟩ := Option.map_eq_some_iff.1 ho
  simp [List.replicate, step, tryStep, readCheck, hr, hsem, hready]

/-- What every step that is taken preserves is preserved by every step. -/
theorem step_of_taken {I : ReadSide → Prop} {e : ReadStep n} (hw : I w)
    (h : ∀ w', Taken capacity w e w' → I w') : I (w.step capacity e) := by
  rcases step_cases capacity w e with hsame | ht
  · rwa [hsame]
  · exact h _ ht

/-! ## The threads in step -/

/-- **The count, the semaphore, the pipe and the data**, at any statement of the two threads. -/
structure Synced (w : ReadSide) : Prop where
  /-- The callback releases before it counts, and the reader acquires before it does. -/
  counted : w.sock_obj.read_count = w.sock_obj.read_semaphore - (if w.callback = .count then 1 else 0) +
    (if w.reader = .count then 1 else 0)
  /-- A callback that has not looked at the count yet will see to its data. -/
  woken : w.queue ≠ [] → w.callback ≠ .unlock → 0 < w.sock_obj.read_semaphore ∨ w.reader ≠ .acquire
  /-- The callback writes before it counts, and the reader reads before it clears. -/
  piped : (if w.reader = .clear then 0 else w.sock_obj.read_written_characters) +
    (if w.callback = .written then 1 else 0) ≤ w.pipe

theorem synced_start : Synced {} := ⟨rfl, fun h => absurd rfl h, le_rfl⟩

theorem Synced.taken (h : Synced w) {e : ReadStep n} (ht : Taken capacity w e w') : Synced w' := by
  obtain ⟨hcount, hwoken, hpipe⟩ := h
  cases ht with
  | arrive data idle =>
    simp only [idle, reduceCtorEq, if_false] at hcount hpipe
    exact ⟨hcount, fun _ hne => absurd rfl hne, hpipe⟩
  | keep next counted =>
    simp only [next, reduceCtorEq, if_false] at hcount hpipe
    refine ⟨hcount, fun _ _ => ?_, hpipe⟩
    -- the semaphore has been released before, or the reader has just acquired it
    by_cases hr : w.reader = .count
    · exact Or.inr (by simp [hr])
    · rw [if_neg hr] at hcount
      exact Or.inl (by simp only; omega)
  | release next counted =>
    simp only [next, reduceCtorEq, if_false] at hcount hpipe
    refine ⟨?_, fun _ _ => Or.inl (Nat.succ_pos _), hpipe⟩
    simp only [if_true]
    omega
  | count next =>
    simp only [next, if_true, reduceCtorEq, if_false] at hcount hpipe
    refine ⟨?_, fun hq _ => hwoken hq (by simp [next]), hpipe⟩
    simp only [reduceCtorEq, if_false]
    omega
  | write next room =>
    simp only [next, reduceCtorEq, if_false] at hcount hpipe
    refine ⟨hcount, fun hq _ => hwoken hq (by simp [next]), ?_⟩
    simp only [if_true]
    omega
  | written next =>
    simp only [next, if_true, reduceCtorEq, if_false] at hcount hpipe
    refine ⟨hcount, fun hq _ => hwoken hq (by simp [next]), ?_⟩
    by_cases hr : w.reader = .clear
    · simp [hr]
    · simpa [hr] using hpipe
  | acquire next k free =>
    simp only [next, reduceCtorEq, if_false] at hcount hpipe
    refine ⟨?_, fun _ _ => Or.inr (by simp), hpipe⟩
    simp only [if_true]
    omega
  | uncount next =>
    simp only [next, if_true, reduceCtorEq, if_false] at hcount hpipe
    refine ⟨?_, fun _ _ => Or.inr (by simp), hpipe⟩
    simp only [reduceCtorEq, if_false]
    omega
  | read next ready =>
    simp only [next, reduceCtorEq, if_false] at hcount hpipe
    refine ⟨hcount, fun _ _ => Or.inr (by simp), ?_⟩
    simp only [if_true]
    omega
  | clear next =>
    simp only [next, if_true, reduceCtorEq, if_false] at hcount hpipe
    exact ⟨hcount, fun _ _ => Or.inr (by simp), hpipe⟩
  | drain chunks next all =>
    simp only [next, reduceCtorEq, if_false] at hcount hpipe
    exact ⟨hcount, fun hq => absurd rfl hq, hpipe⟩

/-! ## No lost wake-up -/

/-- **No wake-up is lost**: when there is data and no callback is running, the semaphore can be
acquired or a call is on its way to the data; and `os.read` does not wait. -/
def NoLostWakeup (w : ReadSide) : Prop :=
  (w.queue ≠ [] → w.callback = .idle → 0 < w.sock_obj.read_semaphore ∨ w.reader ≠ .acquire) ∧
    (w.reader = .read → w.readCheck.isSome = true)

theorem Synced.noLostWakeup (h : Synced w) : NoLostWakeup w := by
  refine ⟨fun hq hidle => h.woken hq (by simp [hidle]), fun hr => ?_⟩
  have hpipe := h.piped
  simp only [hr, reduceCtorEq, if_false] at hpipe
  have hready : w.sock_obj.read_written_characters = 0 ∨ 0 < w.pipe := by omega
  simp [readCheck, hr, hready]

/-- **In every run of arrivals, callback statements and reader statements.** -/
theorem noLostWakeup_run (capacity : ℕ) (es : List (ReadStep n)) :
    NoLostWakeup (es.foldl (step capacity) {}) :=
  (Runs.inv_of_step (I := Synced) (fun _ _ h => step_of_taken h fun _ ht => h.taken ht) es
    synced_start).noLostWakeup

/-! ## Empty strings -/

/-- A string comes back empty exactly when no piece has anything before its terminator. -/
theorem recvLoop_eq_nil {buffer : Bytes} {cs : List (Chunk n)} {s : Bytes} :
    recvLoop buffer s cs = .ok [] ↔ s = [] ∧ ∀ c ∈ cs, c.1.head? = some nul := by
  induction cs generalizing buffer s with
  | nil => simp [recvLoop]
  | cons c cs ih =>
    have hread : CString.read nul (CString.store buffer c.1) = .ok [] ↔ c.1.head? = some nul := by
      rw [CString.read_eq_nil, CString.store, List.head?_append_of_ne_nil _ c.2.1]
    rw [recvLoop_cons, List.forall_mem_cons, ← hread]
    simp only [CString.strcat_ok_iff, ih]
    constructor
    · rintro ⟨s', ⟨t, ht, rfl, -⟩, hnil, hcs⟩
      obtain ⟨rfl, rfl⟩ := List.append_eq_nil_iff.1 hnil
      exact ⟨rfl, ht, hcs⟩
    · rintro ⟨rfl, ht, hcs⟩
      exact ⟨[], ⟨[], ht, rfl, by decide⟩, rfl, hcs⟩

theorem socketRecv_eq_nil {cs : List (Chunk n)} :
    Vdetelweb.socketRecv cs = .ok [] ↔ ∀ c ∈ cs, c.1.head? = some nul := by
  rw [Vdetelweb.socketRecv, recvLoop_eq_nil]
  simp

/-- **No call has returned the empty string.** -/
def NoSpuriousEnd (w : ReadSide) : Prop := .ok [] ∉ w.returned

/-- **The condition on a step**: if the callback releases the semaphore, there is data, and the
reader is not on its way to it; and if pieces are drained, one of them does not begin with a
NUL. -/
def Warranted (w : ReadSide) : ReadStep n → Prop
  | .callback => w.callback = .unlock → w.sock_obj.read_count ≤ 0 → w.queue ≠ [] ∧ w.reader = .acquire
  | .drain chunks => chunks ≠ [] → ∃ c ∈ chunks, c.1.head? ≠ some nul
  | _ => True

/-- **Every wake-up has data behind it**, and there is one at a time. -/
structure Backed (w : ReadSide) : Prop extends Synced w where
  data : 0 < w.sock_obj.read_semaphore ∨ w.reader ≠ .acquire → w.queue ≠ []
  single : w.sock_obj.read_semaphore + (if w.reader = .acquire then 0 else 1) ≤ 1
  unspoilt : NoSpuriousEnd w

theorem backed_start : Backed {} := ⟨synced_start, fun h => by simp at h, by decide, by simp [NoSpuriousEnd]⟩

theorem Backed.taken (h : Backed w) {e : ReadStep n} (hw : Warranted w e) (ht : Taken capacity w e w') :
    Backed w' := by
  have hsync := h.toSynced.taken ht
  obtain ⟨⟨hcount, -, -⟩, hdata, hsingle, hun⟩ := h
  cases ht with
  | arrive data idle => exact ⟨hsync, fun _ => by simp [data.2], hsingle, hun⟩
  | keep next counted => exact ⟨hsync, hdata, hsingle, hun⟩
  | release next counted =>
    -- a wake-up for the data that is there
    obtain ⟨hq, hr⟩ := hw next counted
    simp only [next, hr, reduceCtorEq, if_false] at hcount
    refine ⟨hsync, fun _ => hq, ?_, hun⟩
    simp only [hr, if_true]
    omega
  | count next => exact ⟨hsync, hdata, hsingle, hun⟩
  | write next room => exact ⟨hsync, hdata, hsingle, hun⟩
  | written next => exact ⟨hsync, hdata, hsingle, hun⟩
  | acquire next k free =>
    simp only [next, if_true] at hsingle
    refine ⟨hsync, fun _ => hdata (Or.inl (by omega)), ?_, hun⟩
    simp only [reduceCtorEq, if_false]
    omega
  | uncount next =>
    simp only [next, reduceCtorEq, if_false] at hsingle
    exact ⟨hsync, fun _ => hdata (Or.inr (by simp [next])), hsingle, hun⟩
  | read next ready =>
    simp only [next, reduceCtorEq, if_false] at hsingle
    exact ⟨hsync, fun _ => hdata (Or.inr (by simp [next])), hsingle, hun⟩
  | clear next =>
    simp only [next, reduceCtorEq, if_false] at hsingle
    exact ⟨hsync, fun _ => hdata (Or.inr (by simp [next])), hsingle, hun⟩
  | drain chunks next all =>
    have hne : chunks ≠ [] := by
      rintro rfl
      exact hdata (Or.inr (by simp [next])) all.symm
    obtain ⟨c, hc, hhead⟩ := hw hne
    have hsem : w.sock_obj.read_semaphore = 0 := by
      simp only [next, reduceCtorEq, if_false] at hsingle
      omega
    refine ⟨hsync, fun h => ?_, ?_, ?_⟩
    · rcases h with h | h
      · exact absurd hsem h.ne'
      · exact absurd rfl h
    · simp only [hsem, if_true]
      omega
    · unfold NoSpuriousEnd at hun ⊢
      rw [List.mem_append, List.mem_singleton, not_or]
      exact ⟨hun, fun h => hhead (socketRecv_eq_nil.1 h.symm c hc)⟩

/-- **In every run whose wake-ups are warranted** no call returns the empty string. -/
theorem noSpuriousEnd_run (capacity : ℕ) {es : List (ReadStep n)}
    (h : Runs.Along (step capacity) Warranted {} es) : NoSpuriousEnd (es.foldl (step capacity) {}) :=
  (Runs.inv (I := Backed) (fun _ _ hb hw => step_of_taken hb fun _ ht => hb.taken hw ht) es {} backed_start
    h).unspoilt

/-- One arrival, and the call that takes it. -/
def oneArrival : List (ReadStep 8) :=
  [.arrive ⟨['a'], by decide⟩, .callback, .reader, .reader, .reader, .reader,
    .drain [⟨['a'], by decide⟩]]

theorem noSpuriousEnd_one : NoSpuriousEnd (oneArrival.foldl (step 65536) {}) :=
  noSpuriousEnd_run 65536 ⟨trivial, fun _ _ => ⟨by decide, rfl⟩, trivial, trivial, trivial, trivial,
    fun _ => ⟨_, List.mem_singleton_self _, by decide⟩, trivial⟩

/-- A second arrival, after the reader has counted and before it takes the data of both. -/
def twoArrivals : List (ReadStep 8) :=
  [.arrive ⟨['a'], by decide⟩, .callback, .callback, .callback, .callback, .reader, .reader,
    .arrive ⟨['b'], by decide⟩, .callback, .reader, .reader, .drain [⟨['a', 'b'], by decide⟩],
    .reader, .reader, .reader, .reader, .drain []]

/-- The second call finds the semaphore free, and nothing queued. -/
theorem noSpuriousEnd_two : ¬ ∀ (capacity : ℕ) (es : List (ReadStep 8)),
    NoSpuriousEnd (es.foldl (step capacity) {}) := by
  intro h
  have hret : (twoArrivals.foldl (step 65536) {}).returned = [.ok ['a', 'b'], .ok []] := rfl
  have := h 65536 twoArrivals
  rw [NoSpuriousEnd, hret] at this
  exact this (List.mem_cons_of_mem _ (List.mem_singleton_self _))

/-! ## What comes of the others -/

/-- The call that is under way can go on to its end, with these pieces. -/
def Finishes (capacity : ℕ) (w : ReadSide) (chunks : List (Chunk n)) : Prop :=
  ∃ (es : List (ReadStep n)) (w' : ReadSide), es.foldl (step capacity) w = w' ∧ w'.reader = .acquire ∧
    w'.queue = [] ∧ w'.sock_obj.read_semaphore = w.sock_obj.read_semaphore ∧
    w'.returned = w.returned ++ [Vdetelweb.socketRecv chunks]

theorem Finishes.of_taken {e : ReadStep n} (ht : Taken capacity w e w')
    (hsem : w'.sock_obj.read_semaphore = w.sock_obj.read_semaphore) (hret : w'.returned = w.returned)
    {chunks : List (Chunk n)} (h : Finishes capacity w' chunks) : Finishes capacity w chunks := by
  obtain ⟨es, v, hes, hr, hq, hs, hv⟩ := h
  exact ⟨e :: es, v, by rw [List.foldl_cons, ht.step, hes], hr, hq, hs.trans hsem, by rw [hv, hret]⟩

/-- **A call that has acquired the semaphore** goes on to what is queued. -/
theorem Synced.finishes (h : Synced w) (hr : w.reader ≠ .acquire) {chunks : List (Chunk n)}
    (hq : joined chunks = w.queue) : Finishes capacity w chunks := by
  have hdrain : ∀ {v : ReadSide}, v.reader = .drain → joined chunks = v.queue →
      Finishes capacity v chunks := by
    intro v hr hq
    exact ⟨[.drain chunks], _, (Taken.drain chunks hr hq).step, rfl, rfl, rfl, rfl⟩
  have hclear : ∀ {v : ReadSide}, v.reader = .clear → joined chunks = v.queue →
      Finishes capacity v chunks := by
    intro v hr hq
    exact .of_taken (.clear hr) rfl rfl (hdrain rfl hq)
  have hread : ∀ {v : ReadSide}, Synced v → v.reader = .read → joined chunks = v.queue →
      Finishes capacity v chunks := by
    intro v h hr hq
    -- the pipe has what is counted as written
    have hpipe := h.piped
    simp only [hr, reduceCtorEq, if_false] at hpipe
    exact .of_taken (.read hr (by omega)) rfl rfl (hclear rfl hq)
  cases hw : w.reader with
  | acquire => exact absurd hw hr
  | count =>
    have ht : Taken capacity w (.reader : ReadStep n) _ := .uncount hw
    exact .of_taken ht rfl rfl (hread (h.taken ht) rfl hq)
  | read => exact hread h hw hq
  | clear => exact hclear hw hq
  | drain => exact hdrain hw hq

/-- **A call that finds the semaphore free and the queue empty** can return the empty string. -/
theorem Synced.spurious (h : Synced w) (hr : w.reader = .acquire) (hsem : 0 < w.sock_obj.read_semaphore)
    (hq : w.queue = []) :
    ∃ es : List (ReadStep n), ¬ NoSpuriousEnd (es.foldl (step capacity) w) := by
  obtain ⟨k, hk⟩ := Nat.exists_eq_succ_of_ne_zero hsem.ne'
  have ht : Taken capacity w (.reader : ReadStep n) _ := .acquire hr k hk
  have hfinishes : Finishes capacity _ ([] : List (Chunk n)) := (h.taken ht).finishes (by simp) hq.symm
  obtain ⟨es, v, hes, -, -, -, hret⟩ := hfinishes
  refine ⟨.reader :: es, ?_⟩
  rw [List.foldl_cons, ht.step, hes, NoSpuriousEnd, hret, not_not]
  exact List.mem_append_right _ (List.mem_singleton_self _)

/-- The data in pieces. -/
theorem exists_chunks (hn : 0 < n) (b : Bytes) : ∃ chunks : List (Chunk n), joined chunks = b := by
  induction b with
  | nil => exact ⟨[], rfl⟩
  | cons c b ih =>
    obtain ⟨chunks, rfl⟩ := ih
    exact ⟨⟨[c], by simp, hn⟩ :: chunks, by simp⟩

theorem not_warranted_cases {e : ReadStep n} (h : ¬ Warranted w e) :
    (e = .callback ∧ w.callback = .unlock ∧ w.sock_obj.read_count ≤ 0 ∧
      (w.reader = .acquire → w.queue = [])) ∨
      ∃ chunks, e = .drain chunks ∧ ∀ c ∈ chunks, c.1.head? = some nul := by
  cases e with
  | arrive => exact absurd trivial h
  | reader => exact absurd trivial h
  | callback =>
    simp only [Warranted, Classical.not_imp, not_and'] at h
    obtain ⟨hunlock, hcount, hno⟩ := h
    exact Or.inl ⟨rfl, hunlock, hcount, fun hr => not_not.1 (hno hr)⟩
  | drain chunks =>
    simp only [Warranted, Classical.not_imp, not_exists, not_and, not_not] at h
    exact Or.inr ⟨chunks, rfl, h.2⟩

/-- A wake-up that is released while a call is under way, or when the queue is empty. -/
theorem Synced.spurious_released (hn : 0 < n) (h : Synced w) (hsem : 0 < w.sock_obj.read_semaphore)
    (hq : w.reader = .acquire → w.queue = []) :
    ∃ es : List (ReadStep n), ¬ NoSpuriousEnd (es.foldl (step capacity) w) := by
  by_cases hr : w.reader = .acquire
  · -- the data has been taken already
    exact h.spurious hr hsem (hq hr)
  · -- the reader takes it now, and comes back
    obtain ⟨chunks, hchunks⟩ := exists_chunks hn w.queue
    have hfinishes : Finishes capacity w chunks := h.finishes hr hchunks
    obtain ⟨es, v, hes, hvr, hvq, hvs, -⟩ := hfinishes
    have hv : Synced v := by
      rw [← hes]
      exact Runs.inv_of_step (fun _ _ h => step_of_taken h fun _ ht => h.taken ht) es h
    have hspurious : ∃ fs : List (ReadStep n), ¬ NoSpuriousEnd (fs.foldl (step capacity) v) :=
      hv.spurious hvr (by rwa [hvs]) hvq
    obtain ⟨fs, hfs⟩ := hspurious
    exact ⟨es ++ fs, by rwa [List.foldl_append, hes]⟩

/-- **After a step that is not warranted** there is a way to go on in which a call returns the
empty string. -/
theorem spuriousEnd_of_unwarranted (hn : 0 < n) (h : Backed w) {e : ReadStep n} (hw : ¬ Warranted w e)
    (ht : Taken capacity w e w') :
    ∃ es : List (ReadStep n), ¬ NoSpuriousEnd (es.foldl (step capacity) w') := by
  have hsync := h.toSynced.taken ht
  rcases not_warranted_cases hw with ⟨rfl, hunlock, hcount, hq⟩ | ⟨chunks, rfl, hnul⟩
  · obtain rfl := ht.unique (.release hunlock hcount)
    exact hsync.spurious_released hn (Nat.succ_pos _) hq
  · refine ⟨[], ?_⟩
    cases ht with
    | drain chunks next all =>
      rw [List.foldl_nil, NoSpuriousEnd, not_not, socketRecv_eq_nil.2 hnul]
      exact List.mem_append_right _ (List.mem_singleton_self _)

end ReadSide

/-! ## The accept pipe -/

namespace AcceptSide

variable {capacity : ℕ} {w : AcceptSide}

/-- **The pipe has a byte for every connection that is signalled and not accepted**, and the stack's
thread is not stuck. -/
def Balanced (w : AcceptSide) : Prop :=
  (w.pipe : ℤ) = w.sock_obj.accept_count ∧ w.sock_obj.accept_count = w.sock_obj.accept_semaphore ∧
    w.stuck = false

/-- What the pipe is for: `select` finds it readable exactly when `accept` would not wait. -/
theorem Balanced.readable (h : Balanced w) : 0 < w.pipe ↔ w.socketAccept.isSome = true := by
  have hsem : w.pipe = w.sock_obj.accept_semaphore := by exact_mod_cast h.1.trans h.2.1
  rw [hsem]
  cases hs : w.sock_obj.accept_semaphore <;> simp [socketAccept, SockObj.pAccept, waitonSem, hs]

/-- **The condition on a step**: the pipe is not full when a connection is signalled, and no call
of `socketAccept` completes. -/
def Unserved (capacity : ℕ) (w : AcceptSide) : AcceptStep → Prop
  | .signal => w.pipe < capacity
  | .accept => w.sock_obj.accept_semaphore = 0

/-- More bytes than connections, or stuck. -/
def Overfull (w : AcceptSide) : Prop := w.stuck = true ∨ w.sock_obj.accept_count < w.pipe

theorem socketAccept_eq (w : AcceptSide) : w.socketAccept.getD w = match w.sock_obj.accept_semaphore with
    | 0 => w
    | k + 1 => { w with sock_obj := { w.sock_obj with
        accept_semaphore := k
        accept_count := w.sock_obj.accept_count - 1 } } := by
  unfold socketAccept SockObj.pAccept
  cases w.sock_obj.accept_semaphore <;> rfl

theorem Balanced.step (h : Balanced w) {e : AcceptStep} (hu : Unserved capacity w e) :
    Balanced (w.step capacity e) := by
  obtain ⟨hpipe, hcount, hfree⟩ := h
  cases e with
  | signal =>
    have hroom : w.pipe < capacity := hu
    simp only [AcceptSide.step, hfree, Bool.false_eq_true, if_false, vAccept, if_pos hroom]
    refine ⟨?_, ?_, rfl⟩
    · simp only [SockObj.vAccept]
      omega
    · simp only [SockObj.vAccept]
      omega
  | accept =>
    have hsem : w.sock_obj.accept_semaphore = 0 := hu
    rw [AcceptSide.step, socketAccept_eq, hsem]
    exact ⟨hpipe, hcount, hfree⟩

theorem Balanced.overfull (h : Balanced w) {e : AcceptStep} (hu : ¬ Unserved capacity w e) :
    Overfull (w.step capacity e) := by
  obtain ⟨hpipe, hcount, hfree⟩ := h
  cases e with
  | signal =>
    have hfull : ¬ w.pipe < capacity := hu
    simp only [AcceptSide.step, hfree, Bool.false_eq_true, if_false, vAccept, if_neg hfull]
    exact Or.inl rfl
  | accept =>
    -- the byte of the connection stays in the pipe
    obtain ⟨k, hk⟩ := Nat.exists_eq_succ_of_ne_zero (show w.sock_obj.accept_semaphore ≠ 0 from hu)
    rw [AcceptSide.step, socketAccept_eq, hk]
    refine Or.inr ?_
    simp only
    omega

/-- Nothing takes a byte out of the pipe. -/
theorem Overfull.step (h : Overfull w) (e : AcceptStep) : Overfull (w.step capacity e) := by
  cases e with
  | signal =>
    cases hs : w.stuck with
    | true =>
      rw [AcceptSide.step, hs, if_pos rfl]
      exact h
    | false =>
      have hmore := h.resolve_left (by simp [hs])
      simp only [AcceptSide.step, hs, Bool.false_eq_true, if_false, vAccept]
      split
      · refine Or.inr ?_
        simp only [SockObj.vAccept]
        omega
      · exact Or.inl rfl
  | accept =>
    rw [AcceptSide.step, socketAccept_eq]
    split
    · exact h
    · refine h.imp id fun hmore => ?_
      simp only
      omega

theorem Overfull.not_balanced (h : Overfull w) : ¬ Balanced w := by
  rintro ⟨hpipe, -, hfree⟩
  rcases h with hstuck | hmore
  · rw [hstuck] at hfree
    cases hfree
  · omega

/-- **The pipe is balanced after a run if and only if** no accept has completed in it, and the pipe
was never full when a connection was signalled. -/
theorem balanced_iff (capacity : ℕ) (es : List AcceptStep) :
    Balanced (es.foldl (step capacity) {}) ↔
      Runs.Along (step capacity) (Unserved capacity) {} es :=
  Runs.iff_along (I := Balanced) (B := Overfull) (G := Balanced) (fun _ h => h)
    (fun _ h => h.not_balanced) (fun _ _ h hu => Balanced.step h hu) (fun _ _ h hu => h.overfull hu)
    (fun _ e h => Overfull.step h e) es ⟨rfl, rfl, rfl⟩

/-- One connection, accepted. -/
theorem balanced_accepted : ¬ ∀ (capacity : ℕ) (es : List AcceptStep),
    Balanced (es.foldl (step capacity) {}) := by
  intro h
  exact absurd (h 65536 [.signal, .accept]).1 (by decide)

end AcceptSide

end Vdetelweb
