import Vdetelweb.Lib.Runs
import Vdetelweb.Proof.Mgmt
import Vdetelweb.Spec.Telnet

/-!
# What the telnet server does with one input

An equation for each of the three `recv` loops, and from them when the server stays up:
the loop that reads commands ends every pass with an exception, so it stays up exactly as
long as no accepted login sends a command that the switch answers (`up_iff`).
-/

namespace Vdetelweb

open Vde2Mgmt

variable {n : ℕ}

/-! ## Words -/

theorem isSpace_of_isWord {c : Char} (h : isWord c = true) : isSpace false c = false := by
  have hn : ∀ d : Char, d.isAlphanum ∨ d = '_' → 48 ≤ d.toNat := by
    rintro d (hd | rfl)
    · simp only [Char.isAlphanum, Char.isAlpha, Char.isUpper, Char.isLower, Char.isDigit,
        Bool.or_eq_true, Bool.and_eq_true, decide_eq_true_eq, ge_iff_le,
        UInt32.le_iff_toNat_le] at hd
      simp at hd
      omega
    · decide
  have h48 := hn c (by simpa [isWord] using h)
  have hne : c ≠ ' ' := by rintro rfl; exact absurd h48 (by decide)
  simp [isSpace, hne]
  omega

/-- The blanks are gone already. -/
theorem strip_word (data : Bytes) : strip (word data) = word data :=
  Trim.trim_of_forall_not fun _ hx => isSpace_of_isWord (List.mem_filter.1 hx).2

namespace Telnet

theorem readUserLoop_apply (data : Bytes) (m : Vde2Mgmt n) :
    readUserLoop data m =
      if word data = [] then (.ret .readUser, m)
      else (.ret (.readPsw (word data)), m.noted (.tell "Password:".toList)) := by
  unfold readUserLoop
  rw [strip_word]
  by_cases h : word data = []
  · simp only [h, if_true]; rfl
  · simp only [h, if_false]; rfl

theorem welcome_apply (m : Vde2Mgmt n) :
    welcome m =
      match m.next with
      | .ret r => (.ret (), (((m.exchanged "showinfo".toList).noted
          (.tell ("\n".toList ++ r.text ++ "\n".toList))).noted
          (.tell m.SYS_INFO.terminalPrefix)))
      | .raise _ _ => (.raise .typeError 49, m.exchanged "showinfo".toList)
      | .block => (.block, m.exchanged "showinfo".toList) := by
  unfold welcome
  rw [Act.bind_apply, showinfo_apply]
  cases m.next <;> rfl

/-- Without a word character the loop goes on. -/
theorem readPswLoop_again [Hashlib] (user : Bytes) {data : Bytes} (h : word data = [])
    (m : Vde2Mgmt n) : readPswLoop user data m = (.ret (.readPsw user), m) := by
  unfold readPswLoop
  rw [strip_word, if_pos h]
  rfl

/-- After an accepted login. -/
def enterShell : Act (Vde2Mgmt n) Telnet := do
  welcome
  return .shell

theorem enterShell_apply (m : Vde2Mgmt n) :
    enterShell m = match welcome m with
      | (.ret _, m) => (.ret .shell, m)
      | (.raise e l, m) => (.raise e l, m)
      | (.block, m) => (.block, m) := by
  unfold enterShell
  rw [Act.bind_apply]
  rcases welcome m with ⟨o, m'⟩
  cases o <;> rfl

/-- **What becomes of the password**: the digests cannot be compared, or the login is refused,
or accepted. -/
theorem readPswLoop_cases [Hashlib] (user : Bytes) {data : Bytes} (hw : word data ≠ [])
    (m : Vde2Mgmt n) :
    (Unset m.SYS_INFO.config user ∧
      readPswLoop user data m = (.raise .keyError 124, m.noted (.ask user (word data)))) ∨
    (¬ Unset m.SYS_INFO.config user ∧ accepts m.SYS_INFO.config user (word data) = false ∧
      readPswLoop user data m = (.ret .accepting, ((m.noted (.ask user (word data))).noted
        (.auth user (word data) false)).noted (.tell
          "\nCould not verify your account.\r\r\nInccorrect username or password".toList))) ∨
    (¬ Unset m.SYS_INFO.config user ∧ accepts m.SYS_INFO.config user (word data) = true ∧
      readPswLoop user data m = enterShell ((m.noted (.ask user (word data))).noted
        (.auth user (word data) true))) := by
  unfold readPswLoop
  rw [strip_word, if_neg hw, Act.bind_apply]
  rcases authenticate_apply user (word data) m with ⟨hu, ha⟩ | ⟨hu, ha⟩
  · rw [ha]
    exact Or.inl ⟨hu, rfl⟩
  · rw [ha]
    cases accepts m.SYS_INFO.config user (word data) with
    | false => exact Or.inr (Or.inl ⟨hu, rfl, rfl⟩)
    | true => exact Or.inr (Or.inr ⟨hu, rfl, rfl⟩)

/-- **What becomes of a command.** -/
theorem shellLoop_apply (data : Bytes) (m : Vde2Mgmt n) :
    shellLoop data m =
      if strip data = "__history".toList then (.raise .typeError 59, m)
      else if forwarded data then
        match send (.str data) m with
        | (.ret (some r), m) => (.raise .nameError 64, m.noted (.tell (r.raw ++ "\n".toList)))
        | (.ret none, m) => (.raise .typeError 62, m)
        | (.raise e l, m) => (.raise e l, m)
        | (.block, m) => (.block, m)
      else (.raise .nameError 64, m) := by
  unfold shellLoop command
  by_cases hh : strip data = "__history".toList
  · simp only [hh, if_true]; rfl
  · simp only [hh, if_false]
    by_cases hf : forwarded data = true
    · simp only [hf, if_true, Act.bind_apply]
      rcases send (.str data) m with ⟨o, m'⟩
      cases o with
      | ret r => cases r <;> rfl
      | raise e l => rfl
      | block => rfl
    · simp only [hf]; rfl

/-! ## Staying up -/

/-- Not out of the loop with an exception. -/
def Up (t : Telnet) : Prop := ∀ e l, t ≠ down e l

theorem up_after_raise (e : Exc) (l : ℕ) : ¬ Up (after (.raise e l)) := fun h => h e l rfl

theorem up_after_block : Up (after .block) := fun _ _ => nofun

theorem forwarded_history {data : Bytes} (h : strip data = "__history".toList) :
    forwarded data = false := by
  simp only [forwarded, h, ne_eq, not_true, decide_false, Bool.false_and]

theorem welcome_up (m : Vde2Mgmt n) :
    (∀ e l, (welcome m).1 ≠ .raise e l) ↔ ¬ Malformed m.socket := by
  rw [malformed_iff, welcome_apply]
  cases m.next <;> simp

/-- **A command leaves the server up only while the switch owes its reply.** -/
theorem shellLoop_up (data : Bytes) (m : Vde2Mgmt n) :
    Up (after (shellLoop data m).1) ↔ forwarded data = true ∧ Incomplete m.socket := by
  rw [incomplete_iff, shellLoop_apply, send_str]
  by_cases hh : strip data = "__history".toList
  · rw [if_pos hh, forwarded_history hh]
    exact ⟨fun h => absurd h (up_after_raise _ _), nofun⟩
  · rw [if_neg hh]
    by_cases hf : forwarded data = true
    · simp only [hf, if_true, true_and]
      cases m.next with
      | ret r => exact ⟨fun h => absurd h (up_after_raise _ _), nofun⟩
      | raise e l => exact ⟨fun h => absurd h (up_after_raise _ _), nofun⟩
      -- no reply comes: `get_response` waits for ever
      | block => exact ⟨fun _ => rfl, fun _ => up_after_block⟩
    · simp only [hf]
      exact ⟨fun h => absurd h (up_after_raise _ _), nofun⟩

/-- **A password leaves the server up** if the digests can be compared and, after an
accepted login, `showinfo` does not meet a malformed reply. -/
theorem readPswLoop_up [Hashlib] (user data : Bytes) (m : Vde2Mgmt n) :
    Up (after (readPswLoop user data m).1) ↔ word data = [] ∨
      ¬ Unset m.SYS_INFO.config user ∧
        (accepts m.SYS_INFO.config user (word data) = true → ¬ Malformed m.socket) := by
  by_cases hw : word data = []
  · rw [readPswLoop_again user hw]
    simp [hw, after, Up]
  · simp only [hw, false_or]
    rcases readPswLoop_cases user hw m with ⟨hu, hrun⟩ | ⟨hu, hacc, hrun⟩ | ⟨hu, hacc, hrun⟩
    · simp [hrun, hu, after, Up]
    · simp [hrun, hu, hacc, after, Up]
    · set m₁ := (m.noted (.ask user (word data))).noted (.auth user (word data) true)
      have hwel : (∀ e l, (welcome m₁).1 ≠ .raise e l) ↔ ¬ Malformed m.socket := welcome_up m₁
      rw [hrun, enterShell_apply]
      simp only [hu, hacc, not_false_eq_true, true_and, forall_const, ← hwel]
      rcases welcome m₁ with ⟨o, m'⟩
      cases o <;> simp [after, Up]

/-- An accepted login whose `showinfo` is answered leads to the prompt. -/
theorem readPswLoop_shell [Hashlib] {user data : Bytes} {m : Vde2Mgmt n} (hw : word data ≠ [])
    (hacc : accepts m.SYS_INFO.config user (word data) = true) (hp : Parsable m.socket) :
    (readPswLoop user data m).1 = .ret .shell := by
  obtain ⟨r, hr⟩ := (parsable_iff m).1 hp
  rcases readPswLoop_cases user hw m with ⟨hu, -⟩ | ⟨-, hno, -⟩ | ⟨-, -, hrun⟩
  · rw [accepts_unset hu] at hacc; cases hacc
  · rw [hno] at hacc; cases hacc
  · rw [hrun, enterShell_apply, welcome_apply, noted_next, noted_next, hr]

end Telnet

namespace Server

section

variable [Hashlib]

/-- **The condition on a step**: the digests can be compared and the reply to `showinfo`
read; and a command is passed on, to a switch that never completes its reply. -/
def StepOk (w : Server n) : Input → Prop
  | .accept => True
  | .recv data => match w.telnet with
    | .readPsw user => word data = [] ∨
      ¬ Unset w.mgmt.SYS_INFO.config user ∧
        (accepts w.mgmt.SYS_INFO.config user (word data) = true → ¬ Malformed w.mgmt.socket)
    | .shell => Telnet.forwarded data = true ∧ Incomplete w.mgmt.socket
    | _ => True

theorem step_up {w : Server n} (h : w.telnet.Up) (i : Input) : (w.step i).telnet.Up ↔ w.StepOk i := by
  obtain ⟨m, t⟩ := w
  cases t with
  | accepting => cases i <;> exact ⟨fun _ => trivial, fun _ => fun _ _ => nofun⟩
  | readUser =>
    cases i with
    | accept => exact ⟨fun _ => trivial, fun _ => h⟩
    | recv data =>
      refine ⟨fun _ => trivial, fun _ => ?_⟩
      change (Telnet.after (Telnet.readUserLoop data m).1).Up
      rw [Telnet.readUserLoop_apply]
      split <;> exact fun _ _ => nofun
  | readPsw user =>
    cases i with
    | accept => exact ⟨fun _ => trivial, fun _ => h⟩
    | recv data => exact Telnet.readPswLoop_up user data m
  | shell =>
    cases i with
    | accept => exact ⟨fun _ => trivial, fun _ => h⟩
    | recv data => exact Telnet.shellLoop_up data m
  | hung => cases i <;> exact ⟨fun _ => trivial, fun _ => h⟩
  | down e l => exact absurd rfl (h e l)

/-- What is down stays down. -/
theorem step_down {w : Server n} (h : ¬ w.telnet.Up) (i : Input) : ¬ (w.step i).telnet.Up := by
  -- the accept loop has been left
  obtain ⟨e, l, hd⟩ : ∃ e l, w.telnet = .down e l := by
    simpa [Telnet.Up] using h
  have hnone : w.telnet.act (n := n) i = none := by rw [hd]; cases i <;> rfl
  rw [step, hnone]
  exact h

/-- **The telnet service stays up in a run if and only if every step meets the
condition.** -/
theorem up_iff (m : Vde2Mgmt n) (is : List Input) :
    (is.foldl Server.step { mgmt := m }).telnet.Up ↔
      Runs.Along Server.step Server.StepOk { mgmt := m } is :=
  Runs.iff_along (I := fun w : Server n => w.telnet.Up) (B := fun w => ¬ w.telnet.Up)
    (G := fun w => w.telnet.Up) (fun _ h => h) (fun _ h => h)
    (fun _ i h hi => (step_up h i).2 hi) (fun _ i h hi => fun hup => hi ((step_up h i).1 hup))
    (fun _ i h => step_down h i) is (fun _ _ => nofun)

end

/-- `sha1` on the password `secret`. -/
abbrev secretDigest : Hashlib where
  sha1 p := if p = "secret".toList then "e5e9fa1ba31ecd1ae84f75caaa474f3a663f05f4".toList else []

/-- The password of `admin` is `secret`, and the switch answers `1000 Success`. -/
def secretMgmt : Vde2Mgmt 1024 where
  socket := ⟨[⟨"1000 Success\n".toList, by decide⟩], false⟩
  SYS_INFO := ⟨"VDE2@host[/tmp/mgmt]: ".toList,
    ⟨"admin".toList, some "e5e9fa1ba31ecd1ae84f75caaa474f3a663f05f4".toList⟩⟩

/-- An empty line after the login: `time` is not defined. -/
theorem up_empty_line : ¬ ∀ [Hashlib] (m : Vde2Mgmt 1024) (is : List Input),
    (is.foldl Server.step { mgmt := m }).telnet.Up := by
  intro h
  let _ := secretDigest
  have hup := h secretMgmt
    [.accept, .recv "admin\r\n".toList, .recv "secret\r\n".toList, .recv "\r\n".toList]
  set w : Server 1024 := [Input.accept, .recv "admin\r\n".toList].foldl Server.step
    { mgmt := secretMgmt } with hw
  have hparse : Parsable w.mgmt.socket := ⟨⟨_, _, _, _⟩, rfl⟩
  have hshell : (w.step (.recv "secret\r\n".toList)).telnet = .shell := by
    change Telnet.after (Telnet.readPswLoop "admin".toList "secret\r\n".toList w.mgmt).1 = _
    rw [Telnet.readPswLoop_shell (by decide) (by decide) hparse]
    rfl
  have hok : (w.step (.recv "secret\r\n".toList)).StepOk (.recv "\r\n".toList) :=
    (step_up (by rw [hshell]; exact fun _ _ => nofun) _).1 hup
  rw [StepOk, hshell] at hok
  exact absurd hok.1 (by decide)

end Server

end Vdetelweb
