import Vdetelweb.Proof.Reader
import Vdetelweb.Spec.Mgmt

/-!
# What the methods of `Vde2Mgmt` do

One equation for each method: how it ends and the state it leaves, in terms of what
the socket answers. Later modules use these and do not unfold the methods.
-/

namespace Vdetelweb

variable {n : ℕ}

namespace Vde2Mgmt

/-- The state with an event recorded. -/
def noted (m : Vde2Mgmt n) (e : Event) : Vde2Mgmt n := { m with log := m.log ++ [e] }

/-- The object with an empty log. -/
def unlogged (m : Vde2Mgmt n) : Vde2Mgmt n := { m with log := [] }

/-- How the next call of `get_response` ends. -/
def next (m : Vde2Mgmt n) : Out Response := (getResponse m.socket).1

theorem note_apply (e : Event) (m : Vde2Mgmt n) :
    (note e : Act (Vde2Mgmt n) Unit) m = (.ret (), m.noted e) := rfl

@[simp] theorem noted_next (m : Vde2Mgmt n) (e : Event) : (m.noted e).next = m.next := rfl

theorem parsable_iff (m : Vde2Mgmt n) : Parsable m.socket ↔ ∃ r, m.next = .ret r := by
  rw [Parsable, next, getResponse_out]

theorem malformed_iff (m : Vde2Mgmt n) : Malformed m.socket ↔ ∃ e l, m.next = .raise e l := by
  rw [Malformed, next, getResponse_out]

theorem incomplete_iff (m : Vde2Mgmt n) : Incomplete m.socket ↔ m.next = .block := by
  rw [Incomplete, next, getResponse_out]

/-- The state after a command `b` was written and its reply waited for. -/
def exchanged (m : Vde2Mgmt n) (b : Bytes) : Vde2Mgmt n :=
  { m with
    socket := (getResponse m.socket).2
    log := m.log ++ [.write b, .await] ++
      match m.next with
      | .ret r => [.answer r]
      | _ => [] }

theorem response_apply (m : Vde2Mgmt n) :
    response m = (m.next, { m with
      socket := (getResponse m.socket).2
      log := m.log ++ [.await] ++
        match m.next with
        | .ret r => [.answer r]
        | _ => [] }) := by
  simp only [response, receive, Act.bind_apply, note, Act.modify_apply, next]
  rcases getResponse m.socket with ⟨o, s⟩
  cases o <;> simp [Act.pure_apply]

theorem sendall_apply (cmd : PyStr) (line : ℕ) (m : Vde2Mgmt n) :
    sendall cmd line m =
      if cmd.sendable then (.ret (), m.noted (.write cmd.text))
      else (.raise .unicodeEncodeError line, m) := by
  unfold sendall
  split <;> rfl

theorem exchange_apply (cmd : PyStr) (line : ℕ) (m : Vde2Mgmt n) :
    exchange cmd line m =
      if cmd.sendable then (m.next, m.exchanged cmd.text)
      else (.raise .unicodeEncodeError line, m) := by
  unfold exchange
  rw [Act.bind_apply, sendall_apply]
  by_cases h : cmd.sendable = true
  · simp only [h, if_true, response_apply, noted_next]
    simp [exchanged, noted]
  · -- nothing is written, and no reply is waited for
    simp only [h, Bool.false_eq_true, if_false]

theorem showinfo_apply (m : Vde2Mgmt n) :
    showinfo m = (m.next.swallow, m.exchanged "showinfo".toList) := by
  have h : (PyStr.str "showinfo".toList).sendable = true := rfl
  unfold showinfo
  rw [Act.attempt_apply, exchange_apply, if_pos h]; rfl

/-! ## Logins -/

/-- The configured user name, and a password with the configured digest. -/
def accepts [Hashlib] (config : Config) (username password : Bytes) : Bool :=
  config.username = username && config.password = some (Hashlib.sha1 password)

/-- Does the comparison of the digests raise? -/
def Unset (config : Config) (username : Bytes) : Prop :=
  config.username = username ∧ config.password = none

theorem accepts_unset [Hashlib] {config : Config} {u : Bytes} (h : Unset config u) (p : Bytes) :
    accepts config u p = false := by
  simp [accepts, h.2]

theorem authenticate_apply [Hashlib] (u p : Bytes) (m : Vde2Mgmt n) :
    (Unset m.SYS_INFO.config u ∧
      authenticate u p m = (.raise .keyError 124, m.noted (.ask u p))) ∨
    (¬ Unset m.SYS_INFO.config u ∧
      authenticate u p m = (.ret (accepts m.SYS_INFO.config u p),
        (m.noted (.ask u p)).noted (.auth u p (accepts m.SYS_INFO.config u p)))) := by
  have hinfo : (m.noted (.ask u p)).SYS_INFO = m.SYS_INFO := rfl
  unfold authenticate Unset accepts
  simp only [Act.bind_apply, note_apply, Act.get_apply, hinfo]
  by_cases hu : m.SYS_INFO.config.username = u
  · cases hp : m.SYS_INFO.config.password with
    | none =>
      refine Or.inl ⟨⟨hu, rfl⟩, ?_⟩
      simp only [hu, if_true, Act.bind_apply, Act.ofOption_apply]
    | some d =>
      refine Or.inr ⟨fun h => Option.some_ne_none d h.2, ?_⟩
      simp only [hu, if_true, Act.bind_apply, Act.ofOption_apply, Act.pure_apply, note_apply]
      simp [eq_comm]
  · -- another user name: the digests are not compared
    refine Or.inr ⟨fun h => hu h.1, ?_⟩
    simp only [hu, if_false, Act.pure_apply, Act.bind_apply, note_apply]
    simp

/-! ## The command logs -/

/-- Can the prompt be put before the command? A `unicode` needs an ASCII prompt. -/
def promptable (terminalPrefix : Bytes) (cmd : PyStr) : Bool :=
  !cmd.unicode || terminalPrefix.all isAscii

/-- The text of the `HISTORY` entry of a command. -/
def plainText (terminalPrefix cmd : List Char) : List Char := terminalPrefix ++ cmd

/-- The text of the `HISTORY_HTML` entry of a command. -/
def htmlText (terminalPrefix cmd : List Char) : List Char :=
  "<tprfx>".toList ++ terminalPrefix ++ "</tprfx>".toList ++ "<tcmd>".toList ++ cmd ++
    "</tcmd>\n".toList

theorem str_add (b : Bytes) (s : PyStr) :
    (PyStr.str b).add s = if promptable b s then some ⟨s.unicode, b ++ s.text⟩ else none := by
  obtain ⟨u, t⟩ := s
  cases u <;> simp [PyStr.add, PyStr.str, promptable]

theorem add_str {b : Bytes} (hb : b.all isAscii = true) (s : PyStr) :
    s.add (.str b) = some ⟨s.unicode, s.text ++ b⟩ := by
  obtain ⟨u, t⟩ := s
  cases u
  · rfl
  · simp [PyStr.add, PyStr.str, hb]

theorem plainEntry_eq (p : Bytes) (cmd : PyStr) :
    plainEntry p cmd = if promptable p cmd then some ⟨cmd.unicode, plainText p cmd.text⟩ else none :=
  str_add _ _

/-- ASCII markup around the prompt and the command changes nothing. -/
theorem str_add_markup {a b c d : Bytes} (ha : a.all isAscii = true) (hb : b.all isAscii = true)
    (hc : c.all isAscii = true) (hd : d.all isAscii = true) (p : Bytes) (cmd : PyStr) :
    ((PyStr.str (a ++ p ++ b ++ c)).add cmd).bind (fun s => s.add (.str d)) =
      if promptable p cmd then some ⟨cmd.unicode, a ++ p ++ b ++ c ++ cmd.text ++ d⟩ else none := by
  have hp : promptable (a ++ p ++ b ++ c) cmd = promptable p cmd := by
    simp [promptable, List.all_append, ha, hb, hc]
  rw [str_add, hp]
  by_cases h : promptable p cmd = true
  · rw [if_pos h, if_pos h, Option.bind_some, add_str hd]
  · rw [if_neg h, if_neg h]; rfl

theorem htmlEntry_eq (p : Bytes) (cmd : PyStr) :
    htmlEntry p cmd = if promptable p cmd then some ⟨cmd.unicode, htmlText p cmd.text⟩ else none :=
  str_add_markup rfl rfl rfl rfl p cmd

/-- The entries made for a command and its response, given how a command is shown. -/
def entries (shown : List Char) (cmd : PyStr) (res : Bytes) : List PyStr :=
  (if cmd.text = [] then [] else [⟨cmd.unicode, shown⟩]) ++ if res = [] then [] else [.str res]

/-- The state after a command and its response have been recorded. -/
def recorded (m : Vde2Mgmt n) (cmd : PyStr) (res : Bytes) : Vde2Mgmt n :=
  { m with
    CMD_HISTORY := m.CMD_HISTORY ++ if cmd.text = [] then [] else ["cmd".toList]
    HISTORY := m.HISTORY ++ entries (plainText m.SYS_INFO.terminalPrefix cmd.text) cmd res
    HISTORY_HTML :=
      m.HISTORY_HTML ++ entries (htmlText m.SYS_INFO.terminalPrefix cmd.text) cmd res }

/-- The state when the prompt cannot be put before the command: only `CMD_HISTORY` has
its entry. -/
def unprompted (m : Vde2Mgmt n) : Vde2Mgmt n :=
  { m with CMD_HISTORY := m.CMD_HISTORY ++ ["cmd".toList] }

theorem addCommand_apply (cmd : PyStr) (m : Vde2Mgmt n) :
    addCommand cmd m =
      if promptable m.SYS_INFO.terminalPrefix cmd then
        (.ret (), { m.unprompted with
          HISTORY := m.HISTORY ++ [⟨cmd.unicode, plainText m.SYS_INFO.terminalPrefix cmd.text⟩]
          HISTORY_HTML :=
            m.HISTORY_HTML ++ [⟨cmd.unicode, htmlText m.SYS_INFO.terminalPrefix cmd.text⟩] })
      else (.raise .unicodeDecodeError 114, m.unprompted) := by
  unfold addCommand
  simp only [Act.bind_apply, Act.modify_apply, Act.get_apply, htmlEntry_eq, plainEntry_eq]
  by_cases h : promptable m.SYS_INFO.terminalPrefix cmd = true
  · simp only [h, if_true, Act.ofOption_apply, unprompted]
  · simp only [h, Bool.false_eq_true, if_false, Act.ofOption_apply, unprompted]

theorem addResponse_apply (res : Bytes) (m : Vde2Mgmt n) :
    addResponse res m = (.ret (), { m with
      HISTORY_HTML := m.HISTORY_HTML ++ [.str res]
      HISTORY := m.HISTORY ++ [.str res] }) := rfl

/-- **`add_history`** puts the entries, and its last line may raise. -/
theorem addHistory_apply (cmd : PyStr) (res : Bytes) (m : Vde2Mgmt n) :
    addHistory cmd res m =
      if cmd.text = [] ∨ promptable m.SYS_INFO.terminalPrefix cmd then
        Act.ofOption ((cmd.add (.str ['\n'])).bind fun s => s.add (.str res)) .unicodeDecodeError 120
          (m.recorded cmd res)
      else (.raise .unicodeDecodeError 114, m.unprompted) := by
  unfold addHistory
  by_cases hc : cmd.text = []
  · by_cases hr : res = [] <;>
      simp [Act.bind_apply, addResponse_apply, recorded, entries, hc, hr]
  · by_cases hp : promptable m.SYS_INFO.terminalPrefix cmd = true
    · by_cases hr : res = [] <;>
        simp [Act.bind_apply, addCommand_apply, addResponse_apply, recorded, unprompted, entries, hc, hp, hr]
    · simp [Act.bind_apply, addCommand_apply, hc, hp]

/-- **What `add_history` leaves**, however it ends. -/
theorem addHistory_state (cmd : PyStr) (res : Bytes) (m : Vde2Mgmt n) :
    (addHistory cmd res m).2 =
      if cmd.text = [] ∨ promptable m.SYS_INFO.terminalPrefix cmd then m.recorded cmd res
      else m.unprompted := by
  rw [addHistory_apply]
  split
  · rw [Act.ofOption_apply]
  · rfl

/-- `add_history` ends, and it raises for a `unicode` only. -/
theorem addHistory_out (cmd : PyStr) (res : Bytes) (m : Vde2Mgmt n) :
    (∃ s, (addHistory cmd res m).1 = .ret s) ∨
      cmd.unicode = true ∧ ∃ l, (addHistory cmd res m).1 = .raise .unicodeDecodeError l := by
  cases hu : cmd.unicode with
  | false =>
    -- two strings are put together, whatever is in them
    obtain ⟨u, t⟩ := cmd
    subst hu
    have hp : promptable m.SYS_INFO.terminalPrefix ⟨false, t⟩ = true := rfl
    rw [addHistory_apply, if_pos (Or.inr hp)]
    exact Or.inl ⟨_, rfl⟩
  | true =>
    rw [addHistory_apply]
    split
    · rw [Act.ofOption_apply]
      cases (cmd.add (.str ['\n'])).bind fun s => s.add (.str res) with
      | some s => exact Or.inl ⟨s, rfl⟩
      | none => exact Or.inr ⟨rfl, 120, rfl⟩
    · exact Or.inr ⟨rfl, 114, rfl⟩

/-- A prompt and a response in ASCII suit any command. -/
theorem addHistory_ret {cmd : PyStr} {res : Bytes} {m : Vde2Mgmt n}
    (h : cmd.unicode = true →
      m.SYS_INFO.terminalPrefix.all isAscii = true ∧ res.all isAscii = true) :
    ∃ s, (addHistory cmd res m).1 = .ret s := by
  have hadd : ((cmd.add (.str ['\n'])).bind fun s => s.add (.str res)) =
      some ⟨cmd.unicode, cmd.text ++ ['\n'] ++ res⟩ := by
    rw [add_str rfl, Option.bind_some]
    cases hu : cmd.unicode with
    | false => rfl
    | true => exact add_str (h hu).2 _
  have hp : promptable m.SYS_INFO.terminalPrefix cmd = true := by
    unfold promptable
    cases hu : cmd.unicode with
    | false => rfl
    | true => rw [(h hu).1]; rfl
  rw [addHistory_apply, if_pos (Or.inr hp), Act.ofOption_apply, hadd]
  exact ⟨_, rfl⟩

/-! ## `send` -/

/-- The state after `send` has had its exchange with the switch. -/
def asked (m : Vde2Mgmt n) (cmd : PyStr) : Vde2Mgmt n :=
  (m.noted (.call cmd)).exchanged cmd.strip.text

theorem asked_log (m : Vde2Mgmt n) (cmd : PyStr) :
    (m.asked cmd).log = m.log ++ [Event.call cmd] ++ ([Event.write cmd.strip.text, Event.await] ++
      match m.next with
      | .ret r => [Event.answer r]
      | _ => []) := by
  rw [← noted_next m (.call cmd), ← List.append_assoc]; rfl

theorem response_asked (m : Vde2Mgmt n) (cmd : PyStr) :
    response ((m.noted (.call cmd)).noted (.write cmd.strip.text)) = (m.next, m.asked cmd) := by
  have hasked : m.asked cmd = { m with
      socket := (getResponse m.socket).2
      log := (m.asked cmd).log } := rfl
  rw [response_apply, noted_next, noted_next, hasked, asked_log]
  simp [noted]

/-- **`send`**: an exception of the exchange is swallowed; one of `add_history`, in the
`finally` clause, is not. -/
theorem send_apply (cmd : PyStr) (m : Vde2Mgmt n) :
    send cmd m =
      if cmd.strip.sendable then
        match m.next with
        | .ret r =>
          (match (addHistory cmd.strip r.text (m.asked cmd)).1 with
          | .ret _ => .ret (some r)
          | .raise e l => .raise e l
          | .block => .block, (addHistory cmd.strip r.text (m.asked cmd)).2)
        | .raise _ _ => (.ret none, m.asked cmd)
        | .block => (.block, m.asked cmd)
      else (.ret none, m.noted (.call cmd)) := by
  unfold send
  simp only [Act.bind_apply, note_apply, Act.attempt_apply, exchange_apply, noted_next]
  by_cases h : cmd.strip.sendable = true
  · simp only [h, if_true]
    cases hn : m.next with
    | ret r =>
      simp only [Effect.Out.swallow, Act.bind_apply, asked]
      rcases addHistory cmd.strip r.text ((m.noted (.call cmd)).exchanged cmd.strip.text) with ⟨o, m'⟩
      cases o <;> rfl
    | raise e l => rfl
    | block => rfl
  · -- the command cannot be encoded: `send` swallows the exception, and its call is all it leaves
    simp only [h]; rfl

/-- **What `send` leaves**, however it ends. -/
theorem send_state (cmd : PyStr) (m : Vde2Mgmt n) :
    (send cmd m).2 =
      if cmd.strip.sendable then
        match m.next with
        | .ret r =>
          if cmd.strip.text = [] ∨ promptable m.SYS_INFO.terminalPrefix cmd.strip then
            (m.asked cmd).recorded cmd.strip r.text
          else (m.asked cmd).unprompted
        | _ => m.asked cmd
      else m.noted (.call cmd) := by
  rw [send_apply]
  by_cases h : cmd.strip.sendable = true
  · rw [if_pos h, if_pos h]
    cases m.next with
    | ret r => exact addHistory_state cmd.strip r.text (m.asked cmd)
    | raise e l => rfl
    | block => rfl
  · rw [if_neg h, if_neg h]

/-- **The ways a call of `send` goes**: the entries are made, `add_history` raises, there is no
response, or the command is not sent. -/
theorem send_cases (cmd : PyStr) (m : Vde2Mgmt n) :
    (cmd.strip.sendable = true ∧ ∃ r, m.next = .ret r ∧
      ((cmd.strip.text = [] ∨ promptable m.SYS_INFO.terminalPrefix cmd.strip = true) ∧
          (send cmd m).2 = (m.asked cmd).recorded cmd.strip r.text ∨
        ¬ (cmd.strip.text = [] ∨ promptable m.SYS_INFO.terminalPrefix cmd.strip = true) ∧
          (send cmd m).2 = (m.asked cmd).unprompted)) ∨
    (cmd.strip.sendable = true ∧ (∀ r, m.next ≠ .ret r) ∧ (send cmd m).2 = m.asked cmd) ∨
    (¬ cmd.strip.sendable = true ∧ (send cmd m).2 = m.noted (.call cmd)) := by
  rw [send_state]
  by_cases hs : cmd.strip.sendable = true
  · rw [if_pos hs]
    cases m.next with
    | ret r =>
      refine Or.inl ⟨hs, r, rfl, ?_⟩
      by_cases hp : cmd.strip.text = [] ∨ promptable m.SYS_INFO.terminalPrefix cmd.strip = true
      · exact Or.inl ⟨hp, if_pos hp⟩
      · exact Or.inr ⟨hp, if_neg hp⟩
    | raise e l => exact Or.inr (Or.inl ⟨hs, nofun, rfl⟩)
    | block => exact Or.inr (Or.inl ⟨hs, nofun, rfl⟩)
  · exact Or.inr (Or.inr ⟨hs, if_neg hs⟩)

theorem send_info (cmd : PyStr) (m : Vde2Mgmt n) : (send cmd m).2.SYS_INFO = m.SYS_INFO := by
  obtain ⟨-, r, -, ⟨-, h⟩ | ⟨-, h⟩⟩ | ⟨-, -, h⟩ | ⟨-, h⟩ := send_cases cmd m <;> rw [h] <;> rfl

/-- What `send` records. -/
theorem send_log (cmd : PyStr) (m : Vde2Mgmt n) :
    (send cmd m).2.log = m.log ++ [Event.call cmd] ++
      if cmd.strip.sendable then [Event.write cmd.strip.text, Event.await] ++
        match m.next with
        | .ret r => [Event.answer r]
        | _ => []
      else [] := by
  rw [send_state]
  by_cases h : cmd.strip.sendable = true
  · rw [if_pos h, if_pos h, ← asked_log]
    cases m.next with
    | ret r => dsimp only; split <;> rfl
    | raise e l => rfl
    | block => rfl
  · rw [if_neg h, if_neg h, List.append_nil]; rfl

/-- **How `send` ends.** -/
theorem send_out (cmd : PyStr) (m : Vde2Mgmt n) :
    (send cmd m).1 =
      if cmd.strip.sendable then
        match m.next with
        | .ret r =>
          match (addHistory cmd.strip r.text (m.asked cmd)).1 with
          | .ret _ => .ret (some r)
          | .raise e l => .raise e l
          | .block => .block
        | .raise _ _ => .ret none
        | .block => .block
      else .ret none := by
  rw [send_apply]
  by_cases h : cmd.strip.sendable = true
  · rw [if_pos h, if_pos h]
    cases m.next <;> rfl
  · rw [if_neg h, if_neg h]

/-- `send` of a `str` always ends, as its exchange does, with the exception swallowed. -/
theorem send_str (b : Bytes) (m : Vde2Mgmt n) :
    send (.str b) m = (m.next.swallow,
      match m.next with
      | .ret r => (m.asked (.str b)).recorded (.str (strip b)) r.text
      | _ => m.asked (.str b)) := by
  refine Prod.ext ?_ ?_
  · rw [send_out, str_strip, if_pos (PyStr.sendable_str _)]
    cases m.next with
    | ret r =>
      rcases addHistory_out (.str (strip b)) r.text (m.asked (.str b)) with ⟨s, hs⟩ | ⟨h, -⟩
      · simp only [hs]; rfl
      · cases h
    | raise e l => rfl
    | block => rfl
  · have hp : promptable m.SYS_INFO.terminalPrefix (.str (strip b)) = true := rfl
    rw [send_state, str_strip, if_pos (PyStr.sendable_str _)]
    cases m.next with
    | ret r => simp only; rw [if_pos (Or.inr hp)]
    | raise e l => rfl
    | block => rfl

end Vde2Mgmt

end Vdetelweb
