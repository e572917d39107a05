import Vdetelweb.Lib.Runs
import Vdetelweb.Spec.Events

/-!
# When no event is lost

The callback releases the read semaphore for data only, and only if it finds the socket in
both tables. So a reader is not left waiting as long as no callback for data is too early, there is
memory to put the connection in the list, and the peer neither closes nor fails (`notLost_run`).
-/

namespace Vdetelweb

open Adapter Connection

variable {c : Connection}

/-- Something has happened that has not been delivered. -/
def Connection.Pending (c : Connection) : Prop := c.unread ≠ [] ∨ c.closed = true ∨ c.failed = true

/-- **No event is lost**: when something is pending and no callback is running, a call of
`socketRecv` on the accepted socket does not wait. -/
def NotLost (c : Connection) : Prop :=
  c.phase = .opened → c.Pending → c.running = none → c.reading = false →
    (readCheck c.name c.adapter).1 ≠ .block

/-- **The event can be delivered**: it is no close and no error, and when the callback for data
looks for the socket in a table, the socket is there. There is memory to put the connection in the
list, and it gets the address of no socket that is still in it. -/
def Delivered (c : Connection) : ConnStep → Prop
  | .event ev _ => hasEvent ev PICO_SOCK_EV_CLOSE = false ∧ hasEvent ev PICO_SOCK_EV_FIN = false ∧
      hasEvent ev PICO_SOCK_EV_ERR = false
  | .lookup => ∀ ev, c.running = some (.lookup ev) → hasEvent ev PICO_SOCK_EV_RD = true →
      c.phase = .listed ∨ c.phase = .opened
  | .python => ∀ ev socket, c.running = some (.python ev socket) → hasEvent ev PICO_SOCK_EV_RD = true →
      c.phase = .opened
  | .list memory => memory = true ∧ ∀ box ∈ c.adapter.sockets, box.s ≠ c.s
  | _ => True

/-! ## The steps and the source -/

/-- **The two steps of a callback** are `dummy_wakeup_callback`. -/
theorem wakeup_steps (c : Connection) (hc : c.running = none) (ev : ℕ) (data : Bytes) :
    (((c.step (.event ev data)).step .lookup).step .python).adapter =
      c.adapter.dummyWakeupCallback ev c.s := by
  unfold Connection.step Connection.event dummyWakeupCallback
  rw [hc]
  unfold Connection.lookup Connection.python
  dsimp only
  cases c.adapter.socketBoxFind (c.adapter.socketFindAddress c.s) <;> rfl

/-- **The three steps of an accept** are what `socketAccept` does once it has acquired the
semaphore. -/
theorem accept_steps (c : Connection) (hc : c.phase = .waiting) {ssocket : Bytes}
    (hs : (c.adapter.socketBoxFind ssocket).isSome) {memory : Bool} {answer : Except ℤ Bytes} {a : Adapter}
    (hrun : c.adapter.pycoclibAccept ssocket (.ok c.s) memory = some (answer, a)) : ∃ name,
    answer = .ok name ∧ (((c.step .accept).step (.list memory)).step .open).adapter = a.addOpenSocket name := by
  obtain ⟨box, hbox⟩ := Option.isSome_iff_exists.1 hs
  unfold pycoclibAccept at hrun
  simp only [hbox, Option.bind_eq_bind, Option.bind_eq_some_iff] at hrun
  obtain ⟨⟨r, a'⟩, hadd, hend⟩ := hrun
  obtain ⟨rfl, rfl⟩ := Prod.mk.inj (Option.some.inj hend)
  refine ⟨_, rfl, ?_⟩
  unfold Connection.step Connection.accept Connection.list Connection.openSocket
  simp only [hc, hadd]

/-! ## Semaphores -/

/-- The count is that of the read semaphore. -/
def Counted (o : SockObj) : Prop := o.read_count = o.read_semaphore

/-- **`V_read`** leaves a semaphore that can be acquired. -/
theorem Counted.vRead {o : SockObj} (h : Counted o) : Counted o.vRead ∧ 0 < o.vRead.read_semaphore := by
  unfold Counted at h
  unfold Counted SockObj.vRead unlockSem
  by_cases hpos : 0 < o.read_count
  · simp only [if_pos hpos]
    exact ⟨h, by omega⟩
  · simp only [if_neg hpos, if_true]
    omega

theorem pRead_none {o : SockObj} (h : o.read_semaphore = 0) : o.pRead = none := by
  simp [SockObj.pRead, waitonSem, h]

theorem pRead_some {o : SockObj} {k : ℕ} (h : o.read_semaphore = k + 1) :
    o.pRead = some { o with read_semaphore := k, read_count := o.read_count - 1 } := by
  simp [SockObj.pRead, waitonSem, h]

theorem readCheck_block_iff {a : Adapter} {name : Bytes} {o : SockObj} (ho : a.open_sockets name = some o) :
    (readCheck name a).1 = .block ↔ o.read_semaphore = 0 := by
  unfold readCheck
  rw [ho]
  cases hsem : o.read_semaphore with
  | zero => simp [pRead_none hsem]
  | succ k => simp [pRead_some hsem]

/-- A call that gets past its wait has acquired the semaphore. -/
theorem readCheck_ret {a a' : Adapter} {name : Bytes} (h : readCheck name a = (.ret (), a')) :
    ∃ o o', a.open_sockets name = some o ∧ a' = a.putOpenSocket name o' ∧ (Counted o → Counted o') := by
  unfold readCheck at h
  cases ho : a.open_sockets name with
  | none => rw [ho] at h; cases h
  | some o =>
    rw [ho] at h
    cases hsem : o.read_semaphore with
    | zero =>
      simp only [pRead_none hsem] at h
      cases h
    | succ k =>
      simp only [pRead_some hsem] at h
      cases h
      refine ⟨o, _, rfl, rfl, fun hc => ?_⟩
      unfold Counted at hc ⊢
      simp only
      omega

/-! ## `_socket_callback` -/

/-- An entry after `V`, if it is the one that `V` is for. -/
theorem tryV_open (a : Adapter) (V : SockObj → SockObj) (socket name : Bytes) :
    (a.tryV V socket).open_sockets name =
      if name = socket then (a.open_sockets name).map V else a.open_sockets name := by
  unfold Adapter.tryV
  split
  · rename_i o ho
    by_cases h : name = socket
    · subst h
      rw [if_pos rfl, putOpenSocket_self, ho]
      rfl
    · rw [if_neg h, putOpenSocket_of_ne a h]
  · rename_i ho
    by_cases h : name = socket
    · subst h
      rw [if_pos rfl, ho]
      rfl
    · rw [if_neg h]

theorem tryV_sockets (a : Adapter) (V : SockObj → SockObj) (socket : Bytes) :
    (a.tryV V socket).sockets = a.sockets := by
  unfold Adapter.tryV
  split <;> rfl

theorem socketCallback_sockets (a : Adapter) (ev : ℕ) (socket : Bytes) :
    (a.socketCallback ev socket).sockets = a.sockets := by
  have hif : ∀ (b : Bool) (a : Adapter) (V : SockObj → SockObj),
      (if b then a.tryV V socket else a).sockets = a.sockets := by
    intro b a V
    cases b
    · rfl
    · exact tryV_sockets a V socket
  unfold socketCallback
  split
  · rfl
  · dsimp only
    rw [hif, hif, hif]

/-- **A callback keeps the counts**, and one for data releases the semaphore of its socket. -/
theorem socketCallback_open {a : Adapter} {name : Bytes} {o : SockObj} (ho : a.open_sockets name = some o)
    (hc : Counted o) (ev : ℕ) (socket : Bytes) :
    ∃ o', (a.socketCallback ev socket).open_sockets name = some o' ∧ Counted o' ∧
      (0 < o.read_semaphore → 0 < o'.read_semaphore) ∧
      (hasEvent ev PICO_SOCK_EV_RD = true → socket = name → 0 < o'.read_semaphore) := by
  -- one call of `V`, on whatever entry
  have hV : ∀ (b : Bool) (V : SockObj → SockObj), (∀ o, Counted o → Counted (V o) ∧
      (0 < o.read_semaphore → 0 < (V o).read_semaphore)) → ∀ (a : Adapter) (o : SockObj),
      a.open_sockets name = some o → Counted o → ∃ o',
      (if b then a.tryV V socket else a).open_sockets name = some o' ∧ Counted o' ∧
        (0 < o.read_semaphore → 0 < o'.read_semaphore) ∧ (b = true → socket = name → o' = V o) := by
    intro b V hV a o ho hc
    cases b with
    | false => exact ⟨o, ho, hc, id, fun h => by cases h⟩
    | true =>
      by_cases h : name = socket
      · refine ⟨V o, ?_, (hV o hc).1, (hV o hc).2, fun _ _ => rfl⟩
        rw [if_pos rfl, tryV_open, if_pos h, ho]
        rfl
      · refine ⟨o, ?_, hc, id, fun _ h' => absurd h'.symm h⟩
        rw [if_pos rfl, tryV_open, if_neg h, ho]
  have haccept := hV (hasEvent ev PICO_SOCK_EV_CONN) SockObj.vAccept fun o hc => ⟨hc, id⟩
  have hread := hV (hasEvent ev PICO_SOCK_EV_RD) SockObj.vRead fun o hc => ⟨hc.vRead.1, fun _ => hc.vRead.2⟩
  have hwrite := hV (hasEvent ev PICO_SOCK_EV_WR) SockObj.vWrite fun o hc => ⟨hc, id⟩
  unfold socketCallback
  split
  · rename_i hnone
    refine ⟨o, ho, hc, id, fun _ hs => ?_⟩
    rw [hs, ho] at hnone
    cases hnone.2
  · obtain ⟨o₁, ho₁, hc₁, hs₁, -⟩ := haccept a o ho hc
    obtain ⟨o₂, ho₂, hc₂, hs₂, hr₂⟩ := hread _ o₁ ho₁ hc₁
    obtain ⟨o₃, ho₃, hc₃, hs₃, -⟩ := hwrite _ o₂ ho₂ hc₂
    refine ⟨o₃, ho₃, hc₃, fun h => hs₃ (hs₂ (hs₁ h)), fun hrd hs => hs₃ ?_⟩
    rw [hr₂ hrd hs]
    exact hc₁.vRead.2

/-! ## The invariant -/

/-- The event of a callback that is running. -/
def Wakeup.ev : Wakeup → ℕ
  | lookup ev => ev
  | python ev _ => ev

/-- A callback for data is running. -/
def Connection.Waking (c : Connection) : Prop := ∃ w, c.running = some w ∧ hasEvent w.ev PICO_SOCK_EV_RD = true

/-- A call of `socketRecv` finds a token. -/
def Connection.Ready (c : Connection) : Prop :=
  c.phase = .opened ∧ ∃ o, c.adapter.open_sockets c.name = some o ∧ 0 < o.read_semaphore

/-- **Nothing has been missed**: there was no close and no error. From when the socket is in the
list on, the callbacks find it, and its entry counts its semaphore. If there is data, a call is
past its wait, or finds a token, or a callback is about to release one. -/
structure Unmissed (c : Connection) : Prop where
  closed : c.closed = false
  failed : c.failed = false
  found : c.phase = .listed ∨ c.phase = .opened →
    c.adapter.socketFindAddress c.s = c.name ∧ (c.adapter.socketBoxFind c.name).isSome
  called : ∀ ev socket, c.running = some (.python ev socket) → hasEvent ev PICO_SOCK_EV_RD = true →
    (c.phase = .listed ∨ c.phase = .opened) ∧ socket = c.name
  entry : c.phase = .opened → ∃ o, c.adapter.open_sockets c.name = some o ∧ Counted o
  fed : c.unread ≠ [] → c.reading = true ∨ c.Waking ∨ c.Ready

theorem Unmissed.notLost (h : Unmissed c) : NotLost c := by
  intro hopen hpend hrun hread hblock
  have hunread : c.unread ≠ [] := by
    rcases hpend with hu | hcl | hf
    · exact hu
    · rw [h.closed] at hcl; cases hcl
    · rw [h.failed] at hf; cases hf
  rcases h.fed hunread with hr | ⟨w, hw, -⟩ | ⟨-, o, ho, hs⟩
  · rw [hread] at hr; cases hr
  · rw [hrun] at hw; cases hw
  · rw [readCheck_block_iff ho] at hblock
    omega

/-! ## The steps -/

theorem unmissed_start (a : Adapter) (s : ℕ) : Unmissed (start a s) where
  closed := rfl
  failed := rfl
  found h := by rcases h with h | h <;> cases h
  called _ _ h := by cases h
  entry h := by cases h
  fed h := absurd rfl h

theorem Unmissed.event (h : Unmissed c) {ev : ℕ} {data : Bytes} (he : Delivered c (.event ev data)) :
    Unmissed (c.event ev data) := by
  obtain ⟨hclose, hfin, herr⟩ := he
  unfold Connection.event
  cases hrun : c.running with
  | some w => exact h
  | none =>
    refine { h with closed := ?_, failed := ?_, called := fun _ _ hw => (by cases hw), fed := fun hne => ?_ }
    · simp [h.closed, hclose, hfin]
    · simp [h.failed, herr]
    · cases hev : hasEvent ev PICO_SOCK_EV_RD with
      | true => exact Or.inr (Or.inl ⟨_, rfl, hev⟩)
      | false =>
        -- there is no new data, and no callback was running
        have hold : c.unread ≠ [] := by simpa [hev] using hne
        rcases h.fed hold with hr | ⟨w, hw, -⟩ | hready
        · exact Or.inl hr
        · rw [hrun] at hw; cases hw
        · exact Or.inr (Or.inr hready)

theorem Unmissed.lookup (h : Unmissed c) (hl : Delivered c .lookup) : Unmissed c.lookup := by
  unfold Connection.lookup
  split
  · rename_i ev hrun
    set socket := c.adapter.socketFindAddress c.s with hsocket
    refine { h with called := fun ev' socket' hw hrd => ?_, fed := fun hne => ?_ }
    · obtain ⟨-, -, hpy⟩ := Option.map_eq_some_iff.1 hw
      obtain ⟨rfl, rfl⟩ := Wakeup.python.inj hpy
      have hph := hl ev hrun hrd
      exact ⟨hph, (h.found hph).1⟩
    · rcases h.fed hne with hr | ⟨w, hw, hrd⟩ | hready
      · exact Or.inl hr
      · -- the socket is in the list, and is found there
        rw [hrun] at hw
        cases hw
        obtain ⟨hname, hbox⟩ := h.found (hl ev hrun hrd)
        obtain ⟨box, hbox⟩ := Option.isSome_iff_exists.1 hbox
        refine Or.inr (Or.inl ⟨.python ev socket, ?_, hrd⟩)
        show (c.adapter.socketBoxFind socket).map _ = _
        rw [hsocket, hname, hbox]
        rfl
      · exact Or.inr (Or.inr hready)
  · exact h

theorem Unmissed.python (h : Unmissed c) (hp : Delivered c .python) : Unmissed c.python := by
  unfold Connection.python
  split
  · rename_i ev socket hrun
    refine { h with
      found := fun hph => ?_, called := fun _ _ hw => (by cases hw), entry := fun hph => ?_, fed := fun hne => ?_ }
    · have := h.found hph
      unfold socketFindAddress socketBoxFind at this ⊢
      dsimp only
      rwa [socketCallback_sockets]
    · obtain ⟨o, ho, hc⟩ := h.entry hph
      obtain ⟨o', ho', hc', -⟩ := socketCallback_open ho hc ev socket
      exact ⟨o', ho', hc'⟩
    · rcases h.fed hne with hr | ⟨w, hw, hrd⟩ | ⟨hph, o, ho, hs⟩
      · exact Or.inl hr
      · -- the callback has released the semaphore
        rw [hrun] at hw
        cases hw
        have hph := hp ev socket hrun hrd
        obtain ⟨o, ho, hc⟩ := h.entry hph
        obtain ⟨o', ho', -, -, hrd'⟩ := socketCallback_open ho hc ev socket
        exact Or.inr (Or.inr ⟨hph, o', ho', hrd' hrd (h.called ev socket hrun hrd).2⟩)
      · -- there was a token before
        obtain ⟨o₁, ho₁, hc⟩ := h.entry hph
        rw [ho] at ho₁
        cases ho₁
        obtain ⟨o', ho', -, hs', -⟩ := socketCallback_open ho hc ev socket
        exact Or.inr (Or.inr ⟨hph, o', ho', hs' hs⟩)
  · exact h

/-- What `socketBoxAdd` makes of the tables, with memory. -/
theorem listed_of_add {a a' : Adapter} {name : Bytes} {s : ℕ} {r : ℤ}
    (h : a.socketBoxAdd name s true = some (r, a')) :
    a'.sockets = a.sockets ++ [⟨name, s⟩] ∧ a'.open_sockets = a.open_sockets := by
  unfold socketBoxAdd at h
  by_cases hempty : a.sockets = []
  · rw [if_pos hempty, if_pos rfl] at h
    obtain ⟨-, rfl⟩ := Prod.mk.inj (Option.some.inj h)
    exact ⟨by rw [hempty]; rfl, rfl⟩
  · rw [if_neg hempty] at h
    by_cases htail : a.tail_sock = true
    · rw [if_pos htail, if_pos rfl] at h
      obtain ⟨-, rfl⟩ := Prod.mk.inj (Option.some.inj h)
      exact ⟨rfl, rfl⟩
    · rw [if_neg htail] at h
      cases h

/-- There is no token before the socket is in `open_sockets`. -/
theorem Unmissed.fed_early (h : Unmissed c) (hph : c.phase ≠ .opened) (hne : c.unread ≠ []) :
    c.reading = true ∨ c.Waking := by
  rcases h.fed hne with hr | hw | ⟨hopen, -⟩
  · exact Or.inl hr
  · exact Or.inr hw
  · exact absurd hopen hph

/-- No callback for data has found the socket before it is in the list. -/
theorem Unmissed.not_called (h : Unmissed c) {ev : ℕ} {socket : Bytes}
    (hw : c.running = some (.python ev socket)) (hrd : hasEvent ev PICO_SOCK_EV_RD = true)
    (hph : c.phase = .waiting ∨ c.phase = .accepted) : False := by
  have hlisted := (h.called ev socket hw hrd).1
  rcases hph with hph | hph <;> rw [hph] at hlisted <;> rcases hlisted with hl | hl <;> cases hl

theorem Unmissed.accept (h : Unmissed c) : Unmissed c.accept := by
  unfold Connection.accept
  split
  · rename_i hph
    refine { h with
      found := fun hl => ?_, called := fun ev socket hw hrd => ?_, entry := fun ho => (by cases ho),
      fed := fun hne => ?_ }
    · rcases hl with hl | hl <;> cases hl
    · exact (h.not_called hw hrd (Or.inl hph)).elim
    · exact (h.fed_early (by rw [hph]; decide) hne).imp_right Or.inl
  · exact h

theorem Unmissed.list (h : Unmissed c) {memory : Bool} (hs : Delivered c (.list memory)) :
    Unmissed (c.list memory) := by
  obtain ⟨rfl, hs⟩ := hs
  unfold Connection.list
  split
  · rename_i hph
    dsimp only
    split
    · exact h
    rename_i r a hadd
    obtain ⟨hsockets, hopen⟩ := listed_of_add hadd
    refine { h with
      found := fun _ => ⟨?_, ?_⟩, called := fun ev socket hw hrd => ?_, entry := fun ho => (by cases ho),
      fed := fun hne => ?_ }
    · -- no earlier box has the address
      have hnone : c.adapter.sockets.find? (fun box => box.s = c.s) = none := by
        rw [List.find?_eq_none]
        intro box hbox
        simpa using hs box hbox
      unfold socketFindAddress
      simp [hsockets, List.find?_append, hnone]
    · unfold socketBoxFind
      simp [hsockets]
    · exact (h.not_called hw hrd (Or.inr hph)).elim
    · exact (h.fed_early (by rw [hph]; decide) hne).imp_right Or.inl
  · exact h

theorem Unmissed.openSocket (h : Unmissed c) : Unmissed c.openSocket := by
  unfold Connection.openSocket
  split
  · rename_i hph
    refine { h with
      found := fun _ => h.found (Or.inl hph), called := fun ev socket hw hrd => ⟨Or.inr rfl, ?_⟩,
      entry := fun _ => ⟨{}, putOpenSocket_self _ _ _, rfl⟩, fed := fun hne => ?_ }
    · exact (h.called ev socket hw hrd).2
    · exact (h.fed_early (by rw [hph]; decide) hne).imp_right Or.inl
  · exact h

theorem Unmissed.recv (h : Unmissed c) : Unmissed c.recv := by
  unfold Connection.recv
  split
  · rename_i hph hread
    split
    · rename_i a hret
      obtain ⟨o, o', ho, rfl, hc⟩ := readCheck_ret hret
      refine { h with entry := fun _ => ?_, fed := fun _ => Or.inl rfl }
      obtain ⟨o₁, ho₁, hc₁⟩ := h.entry hph
      rw [ho] at ho₁
      cases ho₁
      exact ⟨o', putOpenSocket_self _ _ _, hc hc₁⟩
    · exact h
  · exact h

theorem Unmissed.take (h : Unmissed c) (len : ℕ) : Unmissed (c.take len) := by
  unfold Connection.take
  split
  · rename_i hread
    exact { h with fed := fun _ => Or.inl hread }
  · exact h

theorem Unmissed.finish (h : Unmissed c) : Unmissed c.finish := by
  unfold Connection.finish
  split
  · rename_i hend
    exact { h with fed := fun hne => absurd hend.2 hne }
  · exact h

/-- **One step.** -/
theorem Unmissed.step (h : Unmissed c) (e : ConnStep) (he : Delivered c e) : Unmissed (c.step e) := by
  cases e with
  | event ev data => exact h.event he
  | lookup => exact h.lookup he
  | python => exact h.python he
  | accept => exact h.accept
  | list memory => exact h.list he
  | «open» => exact h.openSocket
  | recv => exact h.recv
  | take len => exact h.take len
  | finish => exact h.finish

/-- **No event is lost in any run** in which the peer does not close, no error occurs, there is memory
for the entry in the list, and the callbacks for data find the socket in both tables. -/
theorem notLost_run (a : Adapter) (s : ℕ) (es : List ConnStep)
    (h : Runs.Along Connection.step Delivered (start a s) es) :
    NotLost (es.foldl Connection.step (start a s)) :=
  (Runs.inv (fun _ e hc he => hc.step e he) es _ (unmissed_start a s) h).notLost

/-- Data that comes when the socket is in both tables. -/
theorem notLost_opened : NotLost
    ([.accept, .list true, .open, .event PICO_SOCK_EV_RD "x".toList, .lookup, .python].foldl
      Connection.step (start {} 1)) :=
  notLost_run {} 1 _ ⟨trivial, ⟨rfl, fun _ h => (by cases h)⟩, trivial, ⟨by decide, by decide, by decide⟩,
    fun _ _ _ => Or.inr rfl, fun _ _ _ _ => rfl, trivial⟩

/-- Data that comes between the handshake and the accept. -/
theorem notLost_early : ¬ ∀ (a : Adapter) (s : ℕ) (es : List ConnStep),
    NotLost (es.foldl Connection.step (start a s)) := by
  intro h
  have hlost := h {} 1 [.event PICO_SOCK_EV_RD "x".toList, .lookup, .accept, .list true, .open]
  refine hlost rfl (Or.inl (by decide)) rfl rfl ?_
  exact (readCheck_block_iff (putOpenSocket_self _ _ _)).2 rfl

end Vdetelweb
