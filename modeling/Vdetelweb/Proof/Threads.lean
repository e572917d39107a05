import Vdetelweb.Lib.Runs
import Vdetelweb.Spec.Threads
import Vdetelweb.Proof.Mgmt
import Vdetelweb.Proof.Successive

/-!
# Requests and responses under two threads

Nothing in `Vde2Mgmt` keeps the threads apart, so a reply goes to whichever thread
receives it. The runs in which it goes to the right one are those in which a thread
receives only when its own command is the oldest that still waits for its reply
(`matched_of_orderly`). Such a run is ruled by one number (`Inv`): the tickets from
`t` on are exactly those of the waiting calls, and the socket holds exactly the
replies from `t` on.
-/

namespace Vdetelweb

open Vde2Mgmt

variable {n : ℕ}

namespace World

/-- What `add_history` enters for a command and its reply. -/
def entry (terminalPrefix : Bytes) (cmd : PyStr) (r : Reply) : List PyStr :=
  entries (plainText terminalPrefix cmd.text) cmd r.decode.text

/-- Every call that has ended returned the reply to the command it wrote, and `HISTORY`
is a sequence of commands, each followed by the text of its own reply. -/
def Settled (w : World n) : Prop :=
  (∀ e ∈ w.ended, ∃ (k : ℕ) (r : Reply), e.ticket = some k ∧
    w.written[k]? = some e.call.text.text ∧ w.answered[k]? = some r ∧
    e.out = .ret (some r.decode)) ∧
  ∃ pairs : List (PyStr × Reply),
    w.mgmt.HISTORY = pairs.flatMap (fun p => entry w.mgmt.SYS_INFO.terminalPrefix p.1 p.2) ∧
    ∀ p ∈ pairs, ∃ k : ℕ, w.written[k]? = some p.1.text ∧ w.answered[k]? = some p.2

/-- **Requests and responses match**: those of the calls that have ended, and the reply
to every call that waits is unread or still to come. -/
def Matched (w : World n) : Prop :=
  w.Settled ∧ ∀ c k call, w.phase c = .waiting k call →
    w.written[k]? = some call.text.text ∧
      ∃ t ≤ k, w.mgmt.socket.bytes = encodeAll (w.answered.drop t)

/-- No call has waited longer than the call with ticket `k`. -/
def Oldest (w : World n) (k : ℕ) : Prop := ∀ c k' call, w.phase c = .waiting k' call → k ≤ k'

/-- **The condition on a step.** What is written can be sent and entered in the
histories, replies can be read, and a thread receives only when its own command is the
oldest one that waits, and its reply ends with a chunk. -/
def Orderly (w : World n) : Action n → Prop
  | .write _ call => call.text.sendable = true
  | .answer r _ => r.Readable
  | .deliver _ => True
  | .receive c => ∀ k call, w.phase c = .waiting k call → w.Oldest k ∧
      ∀ r, w.answered[k]? = some r → ∃ j, joined (w.mgmt.socket.chunks.take j) = r.encode
  | .append c => ∀ k cmd r, w.phase c = .received k cmd r → cmd.unicode = true →
      w.mgmt.SYS_INFO.terminalPrefix.all isAscii = true ∧ r.text.all isAscii = true

/-- The replies before the `t`-th have been received. -/
structure Inv (w : World n) (t : ℕ) : Prop where
  answered_le : w.answered.length ≤ w.written.length
  le_answered : t ≤ w.answered.length
  readable : ∀ r ∈ w.answered, r.Readable
  open_ : w.mgmt.socket.eof = false
  unread : w.mgmt.socket.bytes = encodeAll (w.answered.drop t)
  /-- A waiting call has a ticket from `t` on, -/
  waiting : ∀ c k call, w.phase c = .waiting k call →
    t ≤ k ∧ w.written[k]? = some call.text.text
  /-- each of these tickets is held, -/
  held : ∀ k, t ≤ k → k < w.written.length → ∃ c call, w.phase c = .waiting k call
  /-- and by one thread. -/
  own : ∀ c c' k call call', w.phase c = .waiting k call → w.phase c' = .waiting k call' → c = c'
  received : ∀ c k cmd r, w.phase c = .received k cmd r →
    w.written[k]? = some cmd.strip.text ∧ ∃ y, w.answered[k]? = some y ∧ r = y.decode
  settled : w.Settled

theorem getElem?_concat_of {α : Type} {l : List α} {k : ℕ} {a : α} (h : l[k]? = some a) (b : α) :
    (l ++ [b])[k]? = some a := by
  rw [List.getElem?_append_left (List.getElem?_eq_some_iff.1 h).1, h]

/-- Later commands and replies change nothing about the earlier ones. -/
theorem Settled.grow {w w' : World n} (h : w.Settled) (hm : w'.mgmt.HISTORY = w.mgmt.HISTORY)
    (hi : w'.mgmt.SYS_INFO = w.mgmt.SYS_INFO) (he : w'.ended = w.ended)
    (hw : ∀ (k : ℕ) c, w.written[k]? = some c → w'.written[k]? = some c)
    (ha : ∀ (k : ℕ) r, w.answered[k]? = some r → w'.answered[k]? = some r) : w'.Settled := by
  obtain ⟨hended, pairs, hp, hpairs⟩ := h
  refine ⟨fun e h => ?_, pairs, by rw [hm, hp, hi], fun p h => ?_⟩
  · obtain ⟨k, r, hk, hc, hr, ho⟩ := hended e (he ▸ h)
    exact ⟨k, r, hk, hw k _ hc, ha k r hr, ho⟩
  · obtain ⟨k, hc, hr⟩ := hpairs p h
    exact ⟨k, hw k _ hc, ha k _ hr⟩

/-- A thread that still waits when another has gone on to a phase without waiting. -/
theorem waiting_of_update {phase : Client → Phase} {c c' : Client} {p : Phase}
    (hp : ∀ k call, p ≠ .waiting k call) {k : ℕ} {call : Call}
    (h : Function.update phase c p c' = .waiting k call) : c' ≠ c ∧ phase c' = .waiting k call := by
  by_cases hcc : c' = c
  · subst hcc; rw [Function.update_self] at h; exact absurd h (hp k call)
  · rw [Function.update_of_ne hcc] at h; exact ⟨hcc, h⟩

/-! ## One step -/

theorem start_apply {call : Call} (h : call.text.sendable = true) (m : Vde2Mgmt n) :
    ∃ log, call.start m = (.ret (), { m with log := log }) := by
  cases call with
  | send cmd =>
    simp only [Call.start, Act.bind_apply, note, Act.modify_apply, sendall_apply, Call.text] at h ⊢
    rw [if_pos h]; exact ⟨_, rfl⟩
  | showinfo => exact ⟨_, rfl⟩

theorem Inv.write {w : World n} {t : ℕ} (h : w.Inv t) (c : Client) {call : Call}
    (hc : call.text.sendable = true) : (w.write c call).Inv t := by
  unfold World.write
  cases hph : w.phase c with
  | idle =>
    obtain ⟨log, hlog⟩ := start_apply hc w.mgmt
    simp only [hlog]
    -- who waits now has just written, or waited before with an older ticket
    have hother : ∀ c' k call', Function.update w.phase c (.waiting w.written.length call) c' =
        .waiting k call' →
        (c' = c ∧ k = w.written.length ∧ call' = call) ∨ (c' ≠ c ∧ w.phase c' = .waiting k call') := by
      intro c' k call' hw
      by_cases hcc : c' = c
      · subst hcc; rw [Function.update_self] at hw; cases hw; exact Or.inl ⟨rfl, rfl, rfl⟩
      · rw [Function.update_of_ne hcc] at hw; exact Or.inr ⟨hcc, hw⟩
    have hlt : ∀ c' k call', w.phase c' = .waiting k call' → k < w.written.length :=
      fun c' k call' hw => (List.getElem?_eq_some_iff.1 (h.waiting c' k call' hw).2).1
    refine ⟨?_, h.le_answered, h.readable, h.open_, h.unread, ?_, ?_, ?_, ?_, ?_⟩
    · have := h.answered_le; simp only [List.length_append, List.length_singleton]; omega
    · intro c' k call' hw
      rcases hother c' k call' hw with ⟨-, rfl, rfl⟩ | ⟨-, hw⟩
      · exact ⟨le_trans h.le_answered h.answered_le, by simp⟩
      · obtain ⟨hk, hwr⟩ := h.waiting c' k call' hw
        exact ⟨hk, getElem?_concat_of hwr _⟩
    · intro k hk hlen
      rw [List.length_append, List.length_singleton] at hlen
      rcases Nat.lt_succ_iff_lt_or_eq.1 hlen with hk' | rfl
      · obtain ⟨c', call', hw⟩ := h.held k hk hk'
        refine ⟨c', call', ?_⟩
        have : c' ≠ c := by rintro rfl; rw [hph] at hw; cases hw
        simp only [Function.update_of_ne this, hw]
      · exact ⟨c, call, Function.update_self ..⟩
    · intro c₁ c₂ k call₁ call₂ h₁ h₂
      rcases hother c₁ k call₁ h₁ with ⟨rfl, hk, -⟩ | ⟨-, hw₁⟩
      · rcases hother c₂ k call₂ h₂ with ⟨rfl, -⟩ | ⟨-, hw₂⟩
        · rfl
        · exact absurd hk (hlt _ _ _ hw₂).ne
      · rcases hother c₂ k call₂ h₂ with ⟨rfl, hk, -⟩ | ⟨-, hw₂⟩
        · exact absurd hk (hlt _ _ _ hw₁).ne
        · exact h.own c₁ c₂ k call₁ call₂ hw₁ hw₂
    · intro c' k cmd r hr
      have hcc : c' ≠ c := by rintro rfl; simp only [Function.update_self] at hr; cases hr
      simp only [Function.update_of_ne hcc] at hr
      obtain ⟨hwr, hy⟩ := h.received c' k cmd r hr
      exact ⟨getElem?_concat_of hwr _, hy⟩
    · exact h.settled.grow rfl rfl rfl (fun k c hk => getElem?_concat_of hk _) fun _ _ => id
  | waiting k call' => exact h
  | received k cmd r => exact h

theorem Inv.answer {w : World n} {t : ℕ} (h : w.Inv t) {r : Reply} (hr : r.Readable)
    (cs : List (Chunk n)) : (w.answer r cs).Inv t := by
  unfold World.answer
  split
  · rename_i hg
    refine ⟨?_, ?_, ?_, h.open_, ?_, h.waiting, h.held, h.own, ?_, ?_⟩
    · have := hg.1; simp only [List.length_append, List.length_singleton]; omega
    · have := h.le_answered; simp only [List.length_append, List.length_singleton]; omega
    · intro y hy
      rcases List.mem_append.1 hy with hy | hy
      · exact h.readable y hy
      · rw [List.mem_singleton.1 hy]; exact hr
    · have hun := h.unread
      rw [Stream.bytes] at hun ⊢
      rw [joined_append, hun, hg.2, List.drop_append_of_le_length h.le_answered]
      simp [encodeAll]
    · intro c k cmd d hd
      obtain ⟨hw, y, hy, hyd⟩ := h.received c k cmd d hd
      exact ⟨hw, y, getElem?_concat_of hy _, hyd⟩
    · exact h.settled.grow rfl rfl rfl (fun _ _ => id) fun k y hk => getElem?_concat_of hk _
  · exact h

theorem Inv.deliver {w : World n} {t : ℕ} (h : w.Inv t) (cs : List (Chunk n)) :
    (w.deliver cs).Inv t := by
  unfold World.deliver
  split
  · rename_i hg
    exact { h with
      unread := hg.trans h.unread
      settled := h.settled.grow rfl rfl rfl (fun _ _ => id) fun _ _ => id }
  · exact h

/-- **In turn, a thread receives the reply to its own command**, or none is there yet. -/
theorem Inv.response {w : World n} {t : ℕ} (h : w.Inv t) {c : Client} {k : ℕ} {call : Call}
    (hph : w.phase c = .waiting k call) (hold : w.Oldest k)
    (hcut : ∀ r, w.answered[k]? = some r → ∃ j, joined (w.mgmt.socket.chunks.take j) = r.encode) :
    k = t ∧ ((w.answered.length = t ∧ w.mgmt.next = .block) ∨
      ∃ r cs log, w.answered[t]? = some r ∧ Vde2Mgmt.response w.mgmt =
        (.ret r.decode, { w.mgmt with socket := ⟨cs, false⟩, log := log }) ∧
        joined cs = encodeAll (w.answered.drop (t + 1))) := by
  obtain ⟨hk, hwr⟩ := h.waiting c k call hph
  -- ticket `t` is held, and no call has waited longer than this one
  have hkt : k = t := by
    have hlt : k < w.written.length := (List.getElem?_eq_some_iff.1 hwr).1
    obtain ⟨c', call', hw⟩ := h.held t le_rfl (by omega)
    exact Nat.le_antisymm (hold c' t call' hw) hk
  subst hkt
  refine ⟨rfl, ?_⟩
  have hsock : w.mgmt.socket = ⟨w.mgmt.socket.chunks, false⟩ := by rw [← h.open_]
  rcases Nat.eq_or_lt_of_le h.le_answered with heq | hlt
  · -- all replies have been received
    left
    have hnil : w.mgmt.socket.bytes = [] := by
      rw [h.unread, heq, List.drop_length]; rfl
    refine ⟨heq.symm, ?_⟩
    rw [Vde2Mgmt.next, getResponse_out, hnil, h.open_]; rfl
  · -- the reply is there, in chunks of its own
    right
    have hr : w.answered[k]? = some w.answered[k] := List.getElem?_eq_getElem hlt
    obtain ⟨j, hj⟩ := hcut _ hr
    have hget := getResponse_reply (h.readable _ (List.getElem_mem hlt)) hj
      (w.mgmt.socket.chunks.drop j) false
    rw [List.take_append_drop, ← hsock] at hget
    refine ⟨_, w.mgmt.socket.chunks.drop j, (Vde2Mgmt.response w.mgmt).2.log, hr, ?_, ?_⟩
    · rw [response_apply, Vde2Mgmt.next, hget]
    · have hall := joined_take_drop w.mgmt.socket.chunks j
      have hun := h.unread
      rw [Stream.bytes] at hun
      rw [hj, hun, List.drop_eq_getElem_cons hlt] at hall
      exact List.append_cancel_left hall

/-- What receiving leaves: the thread with ticket `t` stops waiting. -/
theorem Inv.turn {w : World n} {t : ℕ} (h : w.Inv t) {c : Client} {call : Call}
    (hph : w.phase c = .waiting t call) (hlt : t < w.answered.length) {m : Vde2Mgmt n} {p : Phase}
    {ended : List Ended} (hp : ∀ k call, p ≠ .waiting k call) (hopen : m.socket.eof = false)
    (hun : m.socket.bytes = encodeAll (w.answered.drop (t + 1)))
    (hrec : ∀ k cmd r, p = .received k cmd r →
      w.written[k]? = some cmd.strip.text ∧ ∃ y, w.answered[k]? = some y ∧ r = y.decode)
    (hsettled : Settled { w with mgmt := m, phase := Function.update w.phase c p, ended := ended }) :
    Inv { w with mgmt := m, phase := Function.update w.phase c p, ended := ended } (t + 1) := by
  refine ⟨h.answered_le, hlt, h.readable, hopen, hun, ?_, ?_, ?_, ?_, hsettled⟩
  · intro c' k call' hw
    obtain ⟨hne, hw⟩ := waiting_of_update hp hw
    obtain ⟨hk, hwr⟩ := h.waiting c' k call' hw
    -- ticket `t` was held by `c` alone
    refine ⟨lt_of_le_of_ne hk fun hkt => hne ?_, hwr⟩
    subst hkt
    exact h.own c' c _ call' call hw hph
  · intro k hk hlen
    obtain ⟨c', call', hw⟩ := h.held k (Nat.le_of_succ_le hk) hlen
    refine ⟨c', call', ?_⟩
    have hne : c' ≠ c := by
      rintro rfl; rw [hph] at hw; cases hw; exact absurd hk (Nat.not_succ_le_self _)
    simp only [Function.update_of_ne hne, hw]
  · intro c₁ c₂ k call₁ call₂ h₁ h₂
    exact h.own c₁ c₂ k call₁ call₂ (waiting_of_update hp h₁).2 (waiting_of_update hp h₂).2
  · intro c' k cmd r hr
    by_cases hcc : c' = c
    · subst hcc; simp only [Function.update_self] at hr; exact hrec k cmd r hr
    · simp only [Function.update_of_ne hcc] at hr; exact h.received c' k cmd r hr

/-- One more call has ended with its own reply. -/
theorem Settled.ended {w w' : World n} (h : w.Settled) (hw : w'.written = w.written)
    (ha : w'.answered = w.answered) {call : Call} {k : ℕ} {r : Reply}
    (hk : w.written[k]? = some call.text.text) (hr : w.answered[k]? = some r)
    (he : w'.ended = w.ended ++ [⟨call, some k, .ret (some r.decode)⟩])
    (hh : ∃ pairs : List (PyStr × Reply),
      w'.mgmt.HISTORY = pairs.flatMap (fun p => entry w'.mgmt.SYS_INFO.terminalPrefix p.1 p.2) ∧
      ∀ p ∈ pairs, ∃ k : ℕ, w.written[k]? = some p.1.text ∧ w.answered[k]? = some p.2) :
    w'.Settled := by
  rw [Settled, hw, ha]
  refine ⟨fun e h' => ?_, hh⟩
  rw [he] at h'
  rcases List.mem_append.1 h' with h' | h'
  · exact h.1 e h'
  · obtain rfl := List.mem_singleton.1 h'
    exact ⟨k, r, rfl, hk, hr, rfl⟩

theorem Inv.receive {w : World n} {t : ℕ} (h : w.Inv t) {c : Client}
    (hc : ∀ k call, w.phase c = .waiting k call → w.Oldest k ∧
      ∀ r, w.answered[k]? = some r → ∃ j, joined (w.mgmt.socket.chunks.take j) = r.encode) :
    ∃ t', (w.receive c).Inv t' := by
  unfold World.receive
  cases hph : w.phase c with
  | idle => exact ⟨t, h⟩
  | received k cmd r => exact ⟨t, h⟩
  | waiting k call =>
    obtain ⟨hold, hcut⟩ := hc k call hph
    obtain ⟨rfl, ⟨-, hblock⟩ | ⟨r, cs, log, hr, hresp, hun⟩⟩ := h.response hph hold hcut
    · refine ⟨k, ?_⟩
      rw [response_apply, hblock]
      exact h
    · have hlt : k < w.answered.length := (List.getElem?_eq_some_iff.1 hr).1
      have hwr := (h.waiting c k call hph).2
      refine ⟨k + 1, ?_⟩
      rw [hresp]
      cases call with
      | send cmd =>
        refine h.turn hph hlt (fun _ _ => nofun) rfl hun ?_ ?_
        · rintro _ _ _ ⟨⟩
          exact ⟨hwr, r, hr, rfl⟩
        · exact h.settled.grow rfl rfl rfl (fun _ _ => id) fun _ _ => id
      | showinfo =>
        refine h.turn hph hlt (fun _ _ => nofun) rfl hun (fun _ _ _ => nofun) ?_
        exact h.settled.ended rfl rfl hwr hr rfl h.settled.2

theorem Inv.append {w : World n} {t : ℕ} (h : w.Inv t) {c : Client}
    (hc : ∀ k cmd r, w.phase c = .received k cmd r → cmd.unicode = true →
      w.mgmt.SYS_INFO.terminalPrefix.all isAscii = true ∧ r.text.all isAscii = true) :
    (w.append c).Inv t := by
  unfold World.append
  cases hph : w.phase c with
  | idle => exact h
  | waiting k call => exact h
  | received k cmd r =>
    obtain ⟨hwr, y, hy, rfl⟩ := h.received c k cmd r hph
    obtain ⟨s, hs⟩ : ∃ s, (addHistory cmd.strip y.decode.text w.mgmt).1 = .ret s :=
      addHistory_ret (hc k cmd _ hph)
    have hprompt : promptable w.mgmt.SYS_INFO.terminalPrefix cmd.strip = true := by
      unfold promptable
      cases hu : cmd.strip.unicode with
      | false => rfl
      | true => rw [(hc k cmd _ hph hu).1]; rfl
    have hst := addHistory_state cmd.strip y.decode.text w.mgmt
    rw [if_pos (Or.inr hprompt)] at hst
    simp only [hs, hst]
    have hidle : ∀ k call, Phase.idle ≠ .waiting k call := fun _ _ => nofun
    refine ⟨h.answered_le, h.le_answered, h.readable, h.open_, h.unread,
      fun c' k' call hw => h.waiting c' k' call (waiting_of_update hidle hw).2, ?_,
      fun c₁ c₂ k' call₁ call₂ h₁ h₂ => h.own c₁ c₂ k' call₁ call₂ (waiting_of_update hidle h₁).2
        (waiting_of_update hidle h₂).2, ?_, ?_⟩
    · intro k' hk' hlen
      obtain ⟨c', call', hw⟩ := h.held k' hk' hlen
      refine ⟨c', call', ?_⟩
      have hne : c' ≠ c := by rintro rfl; rw [hph] at hw; cases hw
      simp only [Function.update_of_ne hne, hw]
    · intro c' k' cmd' r' hr
      by_cases hcc : c' = c
      · subst hcc; simp only [Function.update_self] at hr; cases hr
      · simp only [Function.update_of_ne hcc] at hr; exact h.received c' k' cmd' r' hr
    · -- one more pair in `HISTORY`
      refine @Settled.ended n w _ h.settled rfl rfl (.send cmd) k y hwr hy rfl ?_
      obtain ⟨pairs, hp, hpairs⟩ := h.settled.2
      refine ⟨pairs ++ [(cmd.strip, y)], ?_, ?_⟩
      · simp [recorded, hp, entry]
      · intro p hp
        rcases List.mem_append.1 hp with hp | hp
        · exact hpairs p hp
        · obtain rfl := List.mem_singleton.1 hp
          exact ⟨k, hwr, hy⟩

/-! ## A call alone -/

/-- **Taken one after the other, the three steps are `send`**, unless it waits for ever. -/
theorem send_steps (w : World n) {c : Client} (hc : w.phase c = .idle) (cmd : PyStr)
    (hb : w.mgmt.next ≠ .block) :
    let w' := ((w.write c (.send cmd)).receive c).append c
    w'.mgmt = (send cmd w.mgmt).2 ∧ w'.phase c = .idle ∧
      ∃ k, w'.ended = w.ended ++ [⟨.send cmd, k, (send cmd w.mgmt).1⟩] := by
  rw [send_state, send_out]
  by_cases hs : cmd.strip.sendable = true
  · have hstart : (Call.send cmd).start w.mgmt =
        (.ret (), (w.mgmt.noted (.call cmd)).noted (.write cmd.strip.text)) := by
      simp only [Call.start, Act.bind_apply, note_apply, sendall_apply, if_pos hs]
    simp only [World.write, hc, hstart, World.receive, Function.update_self, response_asked,
      if_pos hs]
    cases hn : w.mgmt.next with
    | ret r =>
      have hst := addHistory_state cmd.strip r.text (w.mgmt.asked cmd)
      simp only [World.append, Function.update_self, hst]
      exact ⟨rfl, trivial, _, rfl⟩
    | raise e l =>
      simp only [World.append, Function.update_self]
      exact ⟨trivial, trivial, _, rfl⟩
    | block => exact absurd hn hb
  · have hstart : (Call.send cmd).start w.mgmt =
        (.raise .unicodeEncodeError 31, w.mgmt.noted (.call cmd)) := by
      simp only [Call.start, Act.bind_apply, note_apply, sendall_apply, if_neg hs]
    simp only [World.write, hc, hstart, World.receive, World.append, if_neg hs]
    exact ⟨trivial, trivial, _, rfl⟩

/-! ## Runs -/

theorem Inv.step {w : World n} {t : ℕ} (h : w.Inv t) {a : Action n} (ha : w.Orderly a) :
    ∃ t', (w.step a).Inv t' := by
  cases a with
  | write c call => exact ⟨t, h.write c ha⟩
  | answer r cs => exact ⟨t, h.answer ha cs⟩
  | deliver cs => exact ⟨t, h.deliver cs⟩
  | receive c => exact h.receive ha
  | append c => exact ⟨t, h.append ha⟩

theorem inv_start (info : SysInfo) : (start n info).Inv 0 where
  answered_le := le_rfl
  le_answered := le_rfl
  readable := nofun
  open_ := rfl
  unread := rfl
  waiting := nofun
  held := fun k _ hk => absurd hk (Nat.not_lt_zero k)
  own := nofun
  received := nofun
  settled := ⟨nofun, [], rfl, nofun⟩

/-- **In an orderly run requests and responses match.** -/
theorem matched_of_orderly (info : SysInfo) (as : List (Action n))
    (h : Runs.Along step Orderly (start n info) as) : (as.foldl step (start n info)).Matched := by
  obtain ⟨t, ht⟩ := Runs.inv (I := fun w : World n => ∃ t, w.Inv t)
    (fun _ _ ⟨_, hw⟩ ha => hw.step ha) as _ ⟨0, inv_start info⟩ h
  exact ⟨ht.settled, fun c k call hph =>
    ⟨(ht.waiting c k call hph).2, t, (ht.waiting c k call hph).1, ht.unread⟩⟩

/-- A status line alone. -/
def successReply : Reply := { addressReply with block := none }

/-- Two calls in flight, both answered. -/
def inFlight : List (Action 1024) :=
  [.write .web .showinfo, .write .telnet .showinfo,
    .answer addressReply [⟨addressReply.encode, by decide⟩],
    .answer successReply [⟨successReply.encode, by decide⟩]]

/-- The call that wrote first receives first. -/
theorem matched_in_turn :
    ((inFlight ++ [Action.receive .web]).foldl step (start 1024 ⟨[], ⟨[], none⟩⟩)).Matched := by
  have hr : addressReply.Readable := addressReply_lettered.readable
  have hr' : successReply.Readable := ⟨nofun, by decide⟩
  refine matched_of_orderly _ _ ⟨rfl, rfl, hr, hr', ?_, trivial⟩
  rintro k call ⟨⟩
  refine ⟨fun _ _ _ _ => Nat.zero_le _, ?_⟩
  rintro r ⟨⟩
  exact ⟨1, by decide⟩

/-- The other call receives first, and gets the wrong reply. -/
theorem matched_crossed : ¬ ∀ (info : SysInfo) (as : List (Action 1024)),
    (as.foldl step (start 1024 info)).Matched := by
  intro h
  have hget := getResponse_reply (n := 1024) addressReply_lettered.readable
    (show joined [⟨addressReply.encode, by decide⟩] = _ by simp) [⟨successReply.encode, by decide⟩] false
  set w := inFlight.foldl step (start 1024 ⟨[], ⟨[], none⟩⟩) with hw
  have hsock : w.mgmt.socket =
      ⟨[⟨addressReply.encode, by decide⟩] ++ [⟨successReply.encode, by decide⟩], false⟩ := rfl
  have hph : w.phase .telnet = .waiting 1 .showinfo := rfl
  have hreceive : ∃ m phase, w.receive .telnet = { w with
      mgmt := m
      phase := phase
      ended := [⟨.showinfo, some 1, .ret (some addressReply.decode)⟩] } := by
    simp only [World.receive, hph, response_apply, next, hsock, hget]
    exact ⟨_, _, rfl⟩
  obtain ⟨m, phase, hreceive⟩ := hreceive
  have hmatched := h ⟨[], ⟨[], none⟩⟩ (inFlight ++ [Action.receive .telnet])
  rw [List.foldl_append, ← hw, List.foldl_cons, List.foldl_nil, step, hreceive] at hmatched
  obtain ⟨k, r, ⟨⟩, -, hr, ho⟩ := hmatched.1.1 _ (List.mem_singleton.2 rfl)
  obtain rfl : successReply = r := Option.some.inj hr
  exact absurd ho (by decide)

end World

end Vdetelweb
