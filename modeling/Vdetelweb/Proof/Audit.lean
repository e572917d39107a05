import Vdetelweb.Lib.Runs
import Vdetelweb.Proof.Mgmt

/-!
# The command logs as an audit trail

`CMD_HISTORY`, `HISTORY` and `HISTORY_HTML` against the commands that one caller
wrote to the switch and the texts it got back (`transcript`).

* `send_logged`: what one call of `send` adds to the logs.
* `audited_iff`: after a run of calls the logs are the transcript exactly when every
  command that was written is the literal `cmd` and its reply could be read.
-/

namespace Vdetelweb

variable {n : ℕ}

/-- A command that is not blank. -/
abbrev Command := {cmd : PyStr // cmd.strip.text ≠ []}

/-- One thread that calls `send`: while a call waits for its reply there is no next one. -/
structure Caller (n : ℕ) where
  mgmt : Vde2Mgmt n
  waiting : Bool := false

/-- A call of `send`. The caller catches what it raises. -/
def Caller.call (w : Caller n) (cmd : Command) : Caller n :=
  if w.waiting then w else
    ⟨(Vde2Mgmt.send cmd.1 w.mgmt).2, (Vde2Mgmt.send cmd.1 w.mgmt).1 = .block⟩

/-! ## What was written and answered -/

/-- A command that was written has no response text until it is answered. -/
def record (t : List (List Char × Bytes)) : Event → List (List Char × Bytes)
  | .write b => t ++ [(b, [])]
  | .answer r => t.dropLast ++ (t.getLast?.map fun w => (w.1, r.text)).toList
  | _ => t

/-- The commands written, each with its response text. -/
def transcript (log : List Event) : List (List Char × Bytes) := log.foldl record []

/-- The entries due for a transcript: each command as it is shown, then its response
text unless that is empty. -/
def due (shown : List Char → List Char) (t : List (List Char × Bytes)) : List (List Char) :=
  t.flatMap fun w => shown w.1 :: if w.2 = [] then [] else [w.2]

/-- **The logs are complete and faithful.** -/
def Audited (m : Vde2Mgmt n) : Prop :=
  m.CMD_HISTORY = (transcript m.log).map Prod.fst ∧
    m.HISTORY.map PyStr.text =
      due (Vde2Mgmt.plainText m.SYS_INFO.terminalPrefix) (transcript m.log) ∧
    m.HISTORY_HTML.map PyStr.text =
      due (Vde2Mgmt.htmlText m.SYS_INFO.terminalPrefix) (transcript m.log)

/-- The calls that are logged as they should be: if the command can be written, it is
`cmd`, its reply can be read and the prompt can be put before it. -/
def Faithful (w : Caller n) (cmd : Command) : Prop :=
  cmd.1.strip.sendable = true → cmd.1.strip.text = "cmd".toList ∧ Parsable w.mgmt.socket ∧
    Vde2Mgmt.promptable w.mgmt.SYS_INFO.terminalPrefix cmd.1.strip = true

theorem due_append (shown : List Char → List Char) (t u : List (List Char × Bytes)) :
    due shown (t ++ u) = due shown t ++ due shown u := by
  simp [due]

theorem due_length (shown : List Char → List Char) (c : List Char) (res : Bytes) :
    (due shown [(c, res)]).length = 1 + if res = [] then 0 else 1 := by
  by_cases h : res = [] <;> simp [due, h]

theorem entries_text {cmd : PyStr} (hc : cmd.text ≠ []) (shown : List Char → List Char)
    (res : Bytes) : (Vde2Mgmt.entries (shown cmd.text) cmd res).map PyStr.text =
      due shown [(cmd.text, res)] := by
  by_cases h : res = [] <;> simp [Vde2Mgmt.entries, due, hc, h]

/-- An answer belongs to the command written last. -/
theorem transcript_answered (log : List Event) (c : PyStr) (b : List Char) (r : Response) :
    transcript (log ++ [Event.call c] ++ ([Event.write b, Event.await] ++ [Event.answer r])) =
      transcript log ++ [(b, r.text)] := by
  simp [transcript, record]

theorem transcript_unanswered (log : List Event) (c : PyStr) (b : List Char) :
    transcript (log ++ [Event.call c] ++ ([Event.write b, Event.await] ++ [])) =
      transcript log ++ [(b, [])] := by
  simp [transcript, record]

namespace Vde2Mgmt

/-- **What a call of `send` adds to the logs.** -/
inductive Logged (m : Vde2Mgmt n) (cmd : PyStr) (m' : Vde2Mgmt n) : Prop
  /-- The command cannot be written, and nothing is added. -/
  | unwritten (sendable : cmd.sendable = false) (log : transcript m'.log = transcript m.log)
      (cmds : m'.CMD_HISTORY = m.CMD_HISTORY) (plain : m'.HISTORY = m.HISTORY)
      (html : m'.HISTORY_HTML = m.HISTORY_HTML)
  /-- The reply could be read and the prompt put before the command: all is entered. -/
  | entered (res : Bytes) (sendable : cmd.sendable = true) (parsable : Parsable m.socket)
      (prompt : promptable m.SYS_INFO.terminalPrefix cmd = true)
      (log : transcript m'.log = transcript m.log ++ [(cmd.text, res)])
      (cmds : m'.CMD_HISTORY = m.CMD_HISTORY ++ ["cmd".toList])
      (plain : m'.HISTORY.map PyStr.text = m.HISTORY.map PyStr.text ++
        due (plainText m.SYS_INFO.terminalPrefix) [(cmd.text, res)])
      (html : m'.HISTORY_HTML.map PyStr.text = m.HISTORY_HTML.map PyStr.text ++
        due (htmlText m.SYS_INFO.terminalPrefix) [(cmd.text, res)])
  /-- The command was written, and has no entry in the histories. -/
  | lost (res : Bytes) (sendable : cmd.sendable = true)
      (unfit : ¬ (Parsable m.socket ∧ promptable m.SYS_INFO.terminalPrefix cmd = true))
      (log : transcript m'.log = transcript m.log ++ [(cmd.text, res)])
      (cmds : ∃ k, m'.CMD_HISTORY = m.CMD_HISTORY ++ List.replicate k "cmd".toList)
      (plain : m'.HISTORY = m.HISTORY)

theorem asked_unanswered {cmd : PyStr} {m : Vde2Mgmt n} (h : ∀ r, m.next ≠ .ret r) :
    transcript (m.asked cmd).log = transcript m.log ++ [(cmd.strip.text, [])] := by
  rw [← transcript_unanswered m.log cmd cmd.strip.text, asked_log]
  cases hn : m.next with
  | ret r => exact absurd hn (h r)
  | raise e l => rfl
  | block => rfl

theorem asked_answered {cmd : PyStr} {m : Vde2Mgmt n} {r : Response} (h : m.next = .ret r) :
    transcript (m.asked cmd).log = transcript m.log ++ [(cmd.strip.text, r.text)] := by
  rw [← transcript_answered m.log cmd cmd.strip.text r, asked_log, h]

theorem send_logged {cmd : PyStr} (hc : cmd.strip.text ≠ []) (m : Vde2Mgmt n) :
    Logged m cmd.strip (send cmd m).2 := by
  obtain ⟨hs, r, hn, ⟨hp, hsend⟩ | ⟨hp, hsend⟩⟩ | ⟨hs, hno, hsend⟩ | ⟨hs, hsend⟩ := send_cases cmd m
  · rw [hsend]
    refine .entered r.text hs ((parsable_iff m).2 ⟨r, hn⟩) (hp.resolve_left hc) (asked_answered hn) ?_ ?_ ?_
    · simp [recorded, asked, exchanged, noted, hc]
    · rw [← entries_text hc]; simp [recorded, asked, exchanged, noted]
    · rw [← entries_text hc]; simp [recorded, asked, exchanged, noted]
  · -- `add_history` raises after its entry in `CMD_HISTORY`
    rw [hsend]
    exact .lost r.text hs (fun h => hp (Or.inr h.2)) (asked_answered hn) ⟨1, rfl⟩ rfl
  · -- whatever `send` writes is due, but without a response nothing is entered
    have hlost : ¬ Parsable m.socket := by
      intro hp
      obtain ⟨r, hr⟩ := (parsable_iff m).1 hp
      exact hno r hr
    rw [hsend]
    exact .lost [] hs (fun h => hlost h.1) (asked_unanswered hno)
      ⟨0, by simp [asked, exchanged, noted]⟩ rfl
  · rw [hsend]
    exact .unwritten (by simpa using hs) (by simp [noted, transcript, record]) rfl rfl rfl

/-- A call waits for ever only if the bytes to come are not a reply. -/
theorem send_block {cmd : PyStr} {m : Vde2Mgmt n} (h : (send cmd m).1 = .block) :
    cmd.strip.sendable = true ∧ ¬ Parsable m.socket := by
  rw [send_out] at h
  by_cases hs : cmd.strip.sendable = true
  · rw [if_pos hs] at h
    refine ⟨hs, fun hp => ?_⟩
    obtain ⟨r, hr⟩ := (parsable_iff m).1 hp
    simp only [hr] at h
    rcases addHistory_out cmd.strip r.text (m.asked cmd) with ⟨s, ho⟩ | ⟨-, l, ho⟩ <;>
      rw [ho] at h <;> cases h
  · rw [if_neg hs] at h; cases h

/-! ## What is missing stays missing -/

/-- `CMD_HISTORY` has entries `cmd` only, and `HISTORY` no more entries than are due. -/
def Within (m : Vde2Mgmt n) : Prop :=
  (∀ c ∈ m.CMD_HISTORY, c = "cmd".toList) ∧
    m.HISTORY.length ≤ (due (plainText m.SYS_INFO.terminalPrefix) (transcript m.log)).length

/-- An entry is missing or wrong: `HISTORY` has fewer entries than are due, or a
command other than `cmd` was written. -/
def Lacks (m : Vde2Mgmt n) : Prop :=
  m.HISTORY.length < (due (plainText m.SYS_INFO.terminalPrefix) (transcript m.log)).length ∨
    ∃ c ∈ transcript m.log, c.1 ≠ "cmd".toList

theorem cmds_append {l : List Bytes} (h : ∀ c ∈ l, c = "cmd".toList) (k : ℕ) :
    ∀ c ∈ l ++ List.replicate k "cmd".toList, c = "cmd".toList := by
  intro c hc
  rcases List.mem_append.1 hc with hc | hc
  · exact h c hc
  · exact List.eq_of_mem_replicate hc

theorem send_within {cmd : PyStr} (hc : cmd.strip.text ≠ []) {m : Vde2Mgmt n} (h : Within m) :
    Within (send cmd m).2 ∧ (Lacks m → Lacks (send cmd m).2) := by
  obtain ⟨hall, hle⟩ := h
  rw [Within, Lacks, Lacks, send_info]
  cases send_logged hc m with
  | unwritten hs ht hc hp hh => rw [ht, hc, hp]; exact ⟨⟨hall, hle⟩, id⟩
  | entered res hs hpar hprompt ht hc hp hh =>
    have hlen := congrArg List.length hp
    simp only [List.length_append, List.length_map] at hlen
    rw [ht, hc, due_append, List.length_append, hlen]
    refine ⟨⟨cmds_append hall 1, by omega⟩, ?_⟩
    rintro (hlt | ⟨c, hc, hne⟩)
    · left; omega
    · exact Or.inr ⟨c, List.mem_append_left _ hc, hne⟩
  | lost res hs hunfit ht hc hp =>
    obtain ⟨k, hk⟩ := hc
    rw [ht, hk, hp, due_append, List.length_append, due_length]
    exact ⟨⟨cmds_append hall k, by omega⟩, fun _ => by left; omega⟩

theorem Lacks.not_audited {m : Vde2Mgmt n} (hw : Within m) (h : Lacks m) : ¬ Audited m := by
  rintro ⟨hcmd, hplain, -⟩
  rcases h with hlt | ⟨c, hc, hne⟩
  · have := congrArg List.length hplain
    rw [List.length_map] at this
    omega
  · exact hne (hw.1 _ (hcmd ▸ List.mem_map_of_mem hc))

end Vde2Mgmt

/-! ## Runs -/

namespace Caller

open Vde2Mgmt

/-- The logs are faithful and the caller is free. -/
def Good (w : Caller n) : Prop :=
  w.waiting = false ∧ Within w.mgmt ∧ Audited w.mgmt

/-- The logs lack an entry, for good. -/
def Behind (w : Caller n) : Prop := Within w.mgmt ∧ Lacks w.mgmt

theorem call_of_free {w : Caller n} (h : w.waiting = false) (cmd : Command) :
    w.call cmd = ⟨(send cmd.1 w.mgmt).2, (send cmd.1 w.mgmt).1 = .block⟩ := by
  simp [Caller.call, h]

/-- A faithful call keeps the logs. -/
theorem Good.call {w : Caller n} (h : w.Good) {cmd : Command} (hf : Faithful w cmd) :
    (w.call cmd).Good := by
  obtain ⟨hfree, hwithin, hcmd, hplain, hhtml⟩ := h
  rw [call_of_free hfree]
  refine ⟨?_, (send_within cmd.2 hwithin).1, ?_⟩
  · -- a call waits for ever only on a reply that is not complete
    rw [decide_eq_false_iff_not]
    intro hb
    obtain ⟨hs, hp⟩ := send_block hb
    exact hp (hf hs).2.1
  · rw [Audited, send_info]
    cases send_logged cmd.2 w.mgmt with
    | unwritten hs ht hc hp hh =>
      rw [ht, hc, hp, hh]
      exact ⟨hcmd, hplain, hhtml⟩
    | entered res hs hpar hprompt ht hc hp hh =>
      have hname : cmd.1.strip.text = "cmd".toList := (hf hs).1
      rw [ht, hc, hp, hh, hplain, hhtml, due_append, due_append, List.map_append, hcmd]
      exact ⟨by simp [hname], rfl, rfl⟩
    | lost res hs hunfit => exact absurd (hf hs).2 hunfit

/-- A call that is not faithful leaves the logs behind. -/
theorem Good.behind {w : Caller n} (h : w.Good) {cmd : Command} (hf : ¬ Faithful w cmd) :
    (w.call cmd).Behind := by
  obtain ⟨hfree, hwithin, -, hplain, -⟩ := h
  have hlen := congrArg List.length hplain
  rw [List.length_map] at hlen
  rw [call_of_free hfree]
  refine ⟨(send_within cmd.2 hwithin).1, ?_⟩
  rw [Lacks, send_info]
  cases send_logged cmd.2 w.mgmt with
  | unwritten hs => exact absurd (fun h => by rw [hs] at h; cases h) hf
  | entered res hs hpar hprompt ht =>
    -- the entry in `CMD_HISTORY` is the literal, and the command is another
    refine Or.inr ⟨(cmd.1.strip.text, res), ?_, fun h => hf fun _ => ⟨h, hpar, hprompt⟩⟩
    rw [ht]; simp
  | lost res hs hunfit ht hc hp =>
    left
    rw [ht, hp, due_append, List.length_append, due_length]
    omega

/-- What is behind stays behind. -/
theorem Behind.call {w : Caller n} (h : w.Behind) (cmd : Command) : (w.call cmd).Behind := by
  cases hfree : w.waiting with
  | true => rw [Caller.call, hfree, if_pos rfl]; exact h
  | false =>
    rw [call_of_free hfree]
    exact ⟨(send_within cmd.2 h.1).1, (send_within cmd.2 h.1).2 h.2⟩

/-- Nothing is logged at the start. -/
theorem good_start (info : SysInfo) (s : Stream n) :
    (⟨{ socket := s, SYS_INFO := info }, false⟩ : Caller n).Good :=
  ⟨rfl, ⟨by simp, by simp⟩, rfl, rfl, rfl⟩

end Caller

/-- **The logs are an audit trail of a run if and only if every call is faithful.** -/
theorem audited_iff (info : SysInfo) (s : Stream n) (cmds : List Command) :
    Audited (cmds.foldl Caller.call ⟨{ socket := s, SYS_INFO := info }, false⟩).mgmt ↔
      Runs.Along Caller.call Faithful ⟨{ socket := s, SYS_INFO := info }, false⟩ cmds :=
  Runs.iff_along (I := Caller.Good) (B := Caller.Behind) (G := fun w => Audited w.mgmt)
    (fun _ h => h.2.2) (fun _ h => h.2.not_audited h.1) (fun _ _ h hf => h.call hf)
    (fun _ _ h hf => h.behind hf) (fun _ cmd h => h.call cmd) cmds (Caller.good_start info s)

/-- One `showinfo`, answered by `1000 Success`: `CMD_HISTORY` has the entry `cmd`. -/
theorem audited_showinfo : ¬ ∀ (info : SysInfo) (s : Stream 1024) (cmds : List Command),
    Audited (cmds.foldl Caller.call ⟨{ socket := s, SYS_INFO := info }, false⟩).mgmt := by
  intro h
  set s : Stream 1024 := ⟨[⟨"1000 Success\n".toList, by decide⟩], false⟩
  set showinfo : Command := ⟨.str "showinfo".toList, by decide⟩
  have hbehind : (Caller.call ⟨{ socket := s, SYS_INFO := ⟨[], ⟨[], none⟩⟩ }, false⟩ showinfo).Behind :=
    (Caller.good_start ⟨[], ⟨[], none⟩⟩ s).behind fun hf => absurd (hf rfl).1 (by decide)
  exact hbehind.2.not_audited hbehind.1 (h _ _ [showinfo])

end Vdetelweb
