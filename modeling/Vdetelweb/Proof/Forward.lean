import Vdetelweb.Proof.Post
import Vdetelweb.Proof.Telnet

/-!
# What client text becomes on the management socket

The switch reads one command per line, and `send` strips the text and writes it as it
is. So a call of `send` is one request exactly when the text has something that is not
blank, no newline between two such characters, and only ASCII if it is `unicode`
(`oneRequest_iff`).
-/

namespace Vdetelweb

open Vde2Mgmt

variable {n : ℕ}

/-- A chunk that `recv` returns at the telnet prompt, or a request to a command route. -/
inductive ClientInput
  | chunk (data : Bytes)
  | post (h : Heap) (cmd_dict : Ref) (request : Request)

/-- What the server does with it. -/
def ClientInput.serve [Hashlib] : ClientInput → Act (Vde2Mgmt n) Unit
  | .chunk data => Telnet.command data
  | .post h cmd_dict request => do
    let _ ← sendCommand h cmd_dict request

/-- The text that reaches `send`, if any does: the chunk, unless it is `__history` or a
bare newline; or the line of a complete form posted with accepted credentials. -/
def ClientInput.Forwards [Hashlib] (m : Vde2Mgmt n) : ClientInput → PyStr → Prop
  | .chunk data, cmd => Telnet.forwarded data = true ∧ cmd = .str data
  | .post h cmd_dict request, cmd =>
    (∃ u p, request.authorization = some (u, p) ∧ accepts m.SYS_INFO.config u p = true) ∧
      request.method = .post ∧ Posted h cmd_dict request.form cmd

/-- What was written. -/
def written (es : List Event) : List (List Char) :=
  es.filterMap fun
    | .write b => some b
    | _ => none

/-- The number of calls of `send`. -/
def calls (es : List Event) : ℕ := es.countP fun e => e matches .call _

/-- **Requests and replies are one to one**: each call of `send` wrote one string, each
string is one line, and a reply is awaited for each. -/
def OneRequest (es : List Event) : Prop :=
  (written es).length = calls es ∧ es.count .await = (written es).length ∧
    ∀ b ∈ written es, b ≠ [] ∧ '\n' ∉ b

/-- The text is one line once it is stripped: it is not blank, and no newline stands
between two of its characters that are not blank. -/
def OneLine (cmd : PyStr) : Prop :=
  (∃ c ∈ cmd.text, isSpace cmd.unicode c = false) ∧
    (∀ a b, cmd.text = a ++ '\n' :: b →
      (∀ c ∈ a, isSpace cmd.unicode c = true) ∨ ∀ c ∈ b, isSpace cmd.unicode c = true) ∧
    (cmd.unicode = true → cmd.strip.text.all isAscii = true)

/-! ## One call -/

/-- Nothing of a call of `send`. -/
def Quiet (es : List Event) : Prop := written es = [] ∧ calls es = 0 ∧ es.count .await = 0

theorem written_append (es fs : List Event) : written (es ++ fs) = written es ++ written fs :=
  List.filterMap_append

theorem calls_append (es fs : List Event) : calls (es ++ fs) = calls es + calls fs :=
  List.countP_append

theorem oneRequest_of_quiet {es : List Event} (h : Quiet es) : OneRequest es := by
  obtain ⟨hw, hc, ha⟩ := h
  rw [OneRequest, hw, hc, ha]
  exact ⟨rfl, rfl, nofun⟩

theorem oneRequest_between {pre mid post : List Event} (hpre : Quiet pre) (hpost : Quiet post) :
    OneRequest (pre ++ mid ++ post) ↔ OneRequest mid := by
  obtain ⟨hw, hc, ha⟩ := hpre
  obtain ⟨hw', hc', ha'⟩ := hpost
  simp only [OneRequest, written_append, calls_append, List.count_append, hw, hc, ha, hw', hc', ha',
    List.nil_append, List.append_nil, Nat.zero_add, Nat.add_zero]

/-- What a call of `send` records before it waits. -/
def sent (cmd : PyStr) : List Event :=
  .call cmd :: if cmd.strip.sendable then [.write cmd.strip.text, .await] else []

theorem strip_ne_nil_iff (cmd : PyStr) :
    cmd.strip.text ≠ [] ↔ ∃ c ∈ cmd.text, isSpace cmd.unicode c = false := by
  rw [ne_eq, PyStr.strip, Trim.trim_eq_nil_iff]
  simp

theorem strip_newline_iff (cmd : PyStr) :
    '\n' ∉ cmd.strip.text ↔ ∀ a b, cmd.text = a ++ '\n' :: b →
      (∀ c ∈ a, isSpace cmd.unicode c = true) ∨ ∀ c ∈ b, isSpace cmd.unicode c = true :=
  Trim.not_mem_trim_iff (by cases cmd.unicode <;> decide)

theorem sendable_strip_iff (cmd : PyStr) :
    cmd.strip.sendable = true ↔ (cmd.unicode = true → cmd.strip.text.all isAscii = true) := by
  unfold PyStr.sendable
  cases h : cmd.unicode <;> simp [h]

/-- **One call is one request if and only if its text is one line.** -/
theorem oneRequest_sent (cmd : PyStr) : OneRequest (sent cmd) ↔ OneLine cmd := by
  rw [OneLine, ← strip_ne_nil_iff, ← strip_newline_iff, ← sendable_strip_iff]
  by_cases h : cmd.strip.sendable = true
  · simp [OneRequest, sent, h, written, calls]
  · -- a call that writes nothing
    simp [OneRequest, sent, h, written, calls]

theorem send_sent (cmd : PyStr) (m : Vde2Mgmt n) :
    ∃ post, Quiet post ∧ (send cmd m).2.log = m.log ++ sent cmd ++ post := by
  rw [send_log]
  by_cases h : cmd.strip.sendable = true
  · cases m.next with
    | ret r => exact ⟨[.answer r], ⟨rfl, rfl, rfl⟩, by simp [sent, h]⟩
    | raise e l => exact ⟨[], ⟨rfl, rfl, rfl⟩, by simp [sent, h]⟩
    | block => exact ⟨[], ⟨rfl, rfl, rfl⟩, by simp [sent, h]⟩
  · exact ⟨[], ⟨rfl, rfl, rfl⟩, by simp [sent, h]⟩

/-! ## Both ways in -/

/-- The log of what is done with an input that may forward a text. -/
def Served (forwards : PyStr → Prop) (log : List Event) : Prop :=
  ∃ pre post, Quiet pre ∧ Quiet post ∧
    ((∃ cmd, forwards cmd ∧ log = pre ++ sent cmd ++ post) ∨
      ((∀ cmd, ¬ forwards cmd) ∧ log = pre ++ post))

theorem served_nothing {forwards : PyStr → Prop} (h : ∀ cmd, ¬ forwards cmd) {log : List Event}
    (hq : Quiet log) : Served forwards log :=
  ⟨log, [], hq, ⟨rfl, rfl, rfl⟩, Or.inr ⟨h, (List.append_nil log).symm⟩⟩

theorem command_served (data : Bytes) (m : Vde2Mgmt n) :
    Served (fun cmd => Telnet.forwarded data = true ∧ cmd = .str data)
      (Telnet.command data (unlogged m)).2.log := by
  unfold Telnet.command
  by_cases hh : strip data = "__history".toList
  · rw [if_pos hh]
    refine served_nothing (fun cmd h => ?_) ⟨rfl, rfl, rfl⟩
    rw [Telnet.forwarded_history hh] at h
    cases h.1
  · rw [if_neg hh]
    by_cases hf : Telnet.forwarded data = true
    · obtain ⟨post, hq, hlog⟩ := send_sent (.str data) (unlogged m)
      have hone : ∀ post', Quiet post' → Served (fun cmd => Telnet.forwarded data = true ∧
          cmd = .str data) (sent (.str data) ++ post') :=
        fun post' hq' => ⟨[], post', ⟨rfl, rfl, rfl⟩, hq', Or.inl ⟨_, ⟨hf, rfl⟩, rfl⟩⟩
      rw [show (unlogged m).log = [] from rfl, List.nil_append] at hlog
      rw [if_pos hf]
      simp only [Act.bind_apply]
      rcases hsend : send (.str data) (unlogged m) with ⟨o, m'⟩
      rw [hsend] at hlog
      cases o with
      | ret r =>
        cases r with
        | none => exact hlog ▸ hone post hq
        | some r =>
          have hq' : Quiet (post ++ [.tell (r.raw ++ "\n".toList)]) := by
            refine ⟨?_, ?_, ?_⟩
            · rw [written_append, hq.1]; rfl
            · rw [calls_append, hq.2.1]; rfl
            · rw [List.count_append, hq.2.2]; rfl
          have := hone _ hq'
          rw [← List.append_assoc, ← hlog] at this
          exact this
      | raise e l => exact hlog ▸ hone post hq
      | block => exact hlog ▸ hone post hq
    · rw [if_neg hf]
      exact served_nothing (fun cmd h => hf h.1) ⟨rfl, rfl, rfl⟩

section

variable [Hashlib]

theorem sendCommand_served (h : Heap) (cmd_dict : Ref) (request : Request) (m : Vde2Mgmt n) :
    Served ((ClientInput.post h cmd_dict request).Forwards m)
      (sendCommand h cmd_dict request (unlogged m)).2.log := by
  rw [sendCommand_eq]
  by_cases hadmitted : ∃ u p, request.authorization = some (u, p) ∧
      accepts m.SYS_INFO.config u p = true
  · obtain ⟨u, p, hauth, hacc⟩ := hadmitted
    rw [requiresAuth_accepted request (m := unlogged m) hauth hacc]
    set m₁ := ((unlogged m).noted (.ask u p)).noted (.auth u p true)
    have hq : Quiet m₁.log := ⟨rfl, rfl, rfl⟩
    rw [commandView_state]
    by_cases hpost : request.method = .post
    · rw [if_pos hpost]
      rcases postCommand_cases h cmd_dict request m₁ with ⟨line, hline, hst⟩ | ⟨hno, hst⟩
      · obtain ⟨post, hq', hlog⟩ := send_sent line m₁
        rw [hst]
        exact ⟨m₁.log, post, hq, hq', Or.inl ⟨line, ⟨⟨u, p, hauth, hacc⟩, hpost, hline⟩, hlog⟩⟩
      · rw [hst]
        exact served_nothing (fun cmd hc => hno cmd hc.2.2) hq
    · rw [if_neg hpost]
      exact served_nothing (fun cmd hc => hpost hc.2.1) hq
  · have hrefused : ∀ u p, request.authorization = some (u, p) →
        accepts (unlogged m).SYS_INFO.config u p = false := fun u p hauth =>
      Bool.eq_false_iff.2 fun hacc => hadmitted ⟨u, p, hauth, hacc⟩
    obtain ⟨es, hes, hcase⟩ := requiresAuth_refused request hrefused (commandView h cmd_dict)
    rw [hes]
    refine served_nothing (fun cmd hc => hadmitted hc.1) ?_
    rcases hcase with rfl | ⟨u, p, rfl | rfl⟩ <;> exact ⟨rfl, rfl, rfl⟩

theorem serve_served (i : ClientInput) (m : Vde2Mgmt n) :
    Served (i.Forwards m) (i.serve (unlogged m)).2.log := by
  cases i with
  | chunk data => exact command_served data m
  | post h cmd_dict request =>
    have hs := sendCommand_served h cmd_dict request m
    unfold ClientInput.serve
    rw [Act.bind_state fun _ _ => rfl]
    exact hs

/-- At most one text reaches `send`. -/
theorem ClientInput.Forwards.unique {m : Vde2Mgmt n} {i : ClientInput} {c d : PyStr}
    (hc : i.Forwards m c) (hd : i.Forwards m d) : c = d := by
  cases i with
  | chunk data => exact hc.2.trans hd.2.symm
  | post h cmd_dict request =>
    obtain ⟨-, -, cmd, v, args, hcmd, hv, hargs, -, -, rfl⟩ := hc
    obtain ⟨-, -, cmd', v', args', hcmd', hv', hargs', -, -, rfl⟩ := hd
    rw [hcmd] at hcmd'
    rw [hv] at hv'
    cases hcmd'
    cases hv'
    rw [hargs] at hargs'
    cases hargs'
    rfl

/-- **Client input is one request if and only if what it forwards is one line.** -/
theorem oneRequest_iff (m : Vde2Mgmt n) (i : ClientInput) :
    OneRequest (i.serve (unlogged m)).2.log ↔ ∀ cmd, i.Forwards m cmd → OneLine cmd := by
  obtain ⟨pre, post, hpre, hpost, ⟨cmd, hcmd, hlog⟩ | ⟨hno, hlog⟩⟩ := serve_served i m
  · rw [hlog, oneRequest_between hpre hpost, oneRequest_sent]
    exact ⟨fun h c hc => hc.unique hcmd ▸ h, fun h => h cmd hcmd⟩
  · rw [hlog, ← List.append_nil pre, oneRequest_between hpre hpost]
    exact ⟨fun _ cmd h => absurd h (hno cmd), fun _ => oneRequest_of_quiet ⟨rfl, rfl, rfl⟩⟩

end

/-- Two lines in one chunk: the reply to the second is never read. -/
theorem oneRequest_two_lines : ¬ ∀ [Hashlib] (m : Vde2Mgmt 1024) (i : ClientInput),
    OneRequest (i.serve (unlogged m)).2.log := by
  intro h
  let _ : Hashlib := ⟨id⟩
  obtain ⟨pre, post, hpre, hpost, ⟨cmd, hcmd, hlog⟩ | ⟨hno, -⟩⟩ :=
    command_served "port/print\nport/showinfo\r\n".toList Server.secretMgmt
  · have hone := h Server.secretMgmt (.chunk "port/print\nport/showinfo\r\n".toList)
    rw [show (ClientInput.chunk _).serve (unlogged Server.secretMgmt) = Telnet.command _ _ from rfl,
      hlog, oneRequest_between hpre hpost, hcmd.2] at hone
    exact absurd (hone.2.2 _ (List.mem_singleton.2 rfl)).2 (by decide)
  · exact absurd ⟨by decide, rfl⟩ (hno (.str "port/print\nport/showinfo\r\n".toList))

end Vdetelweb
