import Vdetelweb.Proof.Access
import Vdetelweb.Proof.Post
import Vdetelweb.Proof.Sessions

/-!
# The two logins

The web server asks `authenticate` about the text it is given, the telnet server about
its word characters only. So the two agree on credentials made of word characters, and
otherwise only where both refuse (`sameCredentials_iff`).
-/

namespace Vdetelweb

open Vde2Mgmt Effect

variable {n : ℕ}

/-- Someone was accepted. -/
def LoggedIn (es : List Event) : Prop := ∃ u p, .auth u p true ∈ es

/-- What a client that ends its lines with CR LF sends. -/
def typed (line : Bytes) : Bytes := line ++ "\r\n".toList

theorem word_typed (line : Bytes) : word (typed line) = word line := by
  rw [typed, word_append]
  exact List.append_nil _

section

variable [Hashlib]

/-- **HTTP**: the view behind any rule asks about the credentials as they are. -/
theorem view_loggedIn (site : Site) (k : Handler) (method : Method) (form : Form) (u p : Bytes)
    (m : Vde2Mgmt n) :
    LoggedIn (k.view site ⟨method, some (u, p), form⟩ (unlogged m)).2.log ↔
      accepts m.SYS_INFO.config u p = true := by
  obtain ⟨f, hf, hview⟩ := view_guarded (n := n) site k
  rw [hview]
  cases hacc : accepts m.SYS_INFO.config u p with
  | false =>
    have hrefused : ∀ u' p', some (u, p) = some (u', p') →
        accepts (unlogged m).SYS_INFO.config u' p' = false := by rintro _ _ ⟨⟩; exact hacc
    obtain ⟨es, hes, hcase⟩ := requiresAuth_refused ⟨method, some (u, p), form⟩ hrefused f
    rw [hes]
    rcases hcase with rfl | ⟨u', p', rfl | rfl⟩ <;> simp [LoggedIn, unlogged]
  | true =>
    have hgrows := hf ⟨method, some (u, p), form⟩
      (((unlogged m).noted (.ask u p)).noted (.auth u p true))
    have haccepted := requiresAuth_accepted ⟨method, some (u, p), form⟩ (m := unlogged m) rfl hacc f
    rw [haccepted]
    exact ⟨fun _ => rfl, fun _ => ⟨u, p, hgrows.subset (by simp [noted])⟩⟩

/-- The password loop accepts by the word characters. -/
theorem readPswLoop_loggedIn (user : Bytes) {e : Bytes} (he : word e ≠ []) {m : Vde2Mgmt n}
    (hm : ¬ LoggedIn m.log) :
    LoggedIn (Telnet.readPswLoop user e m).2.log ↔ accepts m.SYS_INFO.config user (word e) = true := by
  have hno : ∀ es : List Event, (∀ u p, .auth u p true ∉ es) → ¬ LoggedIn (m.log ++ es) := by
    rintro es hes ⟨u, p, h⟩
    rcases List.mem_append.1 h with h | h
    · exact hm ⟨u, p, h⟩
    · exact hes u p h
  rcases Telnet.readPswLoop_cases user he m with ⟨hu, hrun⟩ | ⟨-, hacc, hrun⟩ | ⟨-, hacc, hrun⟩
  · rw [hrun, accepts_unset hu]
    exact ⟨fun h => absurd h (hno [_] (by simp)), fun h => by cases h⟩
  · rw [hrun, hacc]
    refine ⟨fun h => absurd h ?_, fun h => by cases h⟩
    have := hno [.ask user (word e), .auth user (word e) false,
      .tell "\nCould not verify your account.\r\r\nInccorrect username or password".toList] (by simp)
    simpa [noted] using this
  · have hgrows := Telnet.enterShell_grows
      ((m.noted (.ask user (word e))).noted (.auth user (word e) true))
    rw [hrun, hacc]
    exact ⟨fun _ => rfl, fun _ => ⟨user, word e, hgrows.subset (by simp [noted])⟩⟩

/-- **Telnet**: the session asks about the word characters, if there are any in both. -/
theorem session_loggedIn (u p : Bytes) (m : Vde2Mgmt n) :
    LoggedIn (Server.session (unlogged m) [typed u, typed p]).mgmt.log ↔
      word u ≠ [] ∧ word p ≠ [] ∧ accepts m.SYS_INFO.config (word u) (word p) = true := by
  have hstart : Server.session (unlogged m) [typed u, typed p] =
      ([typed u, typed p].map Input.recv).foldl Server.step
        ⟨(unlogged m).noted (.tell "\nUsername:".toList), .readUser⟩ := rfl
  have hwordy : ∀ (l : Bytes) (xs : List Bytes), wordy (typed l :: xs) =
      if word l = [] then wordy xs else typed l :: xs := by
    intro l xs
    by_cases hl : word l = [] <;> simp [wordy, word_typed, hl]
  rw [hstart, Server.readUser_run, hwordy, hwordy]
  by_cases hu : word u = []
  · -- the chunk with the user name is passed over, and the password taken for it
    have hnot : ¬ (word u ≠ [] ∧ word p ≠ [] ∧ accepts m.SYS_INFO.config (word u) (word p) = true) :=
      fun h => h.1 hu
    rw [if_pos hu]
    by_cases hp : word p = []
    · rw [if_pos hp]
      exact ⟨fun h => by simp [LoggedIn, wordy, noted, unlogged] at h, fun h => absurd h hnot⟩
    · rw [if_neg hp]
      exact ⟨fun h => by simp [LoggedIn, noted, unlogged] at h, fun h => absurd h hnot⟩
  · rw [if_neg hu]
    dsimp only
    rw [word_typed, Server.readPsw_run, hwordy]
    by_cases hp : word p = []
    · rw [if_pos hp]
      exact ⟨fun h => by simp [LoggedIn, wordy, noted, unlogged] at h, fun h => absurd hp h.2.1⟩
    · have he : word (typed p) ≠ [] := by rw [word_typed]; exact hp
      have hm : ¬ LoggedIn (((unlogged m).noted (.tell "\nUsername:".toList)).noted
          (.tell "Password:".toList)).log := by simp [LoggedIn, noted, unlogged]
      have hlogin := readPswLoop_loggedIn (word u) he hm
      rw [word_typed] at hlogin
      rw [if_neg hp]
      exact hlogin.trans ⟨fun h => ⟨hu, hp, h⟩, fun h => h.2.2⟩

/-- The credentials are accepted on both sides or on neither. -/
def SameDecision (m : Vde2Mgmt n) (site : Site) (k : Handler) (method : Method) (form : Form)
    (u p : Bytes) : Prop :=
  LoggedIn (Server.session (unlogged m) [typed u, typed p]).mgmt.log ↔
    LoggedIn (k.view site ⟨method, some (u, p), form⟩ (unlogged m)).2.log

/-- These are the configured credentials. -/
def Configured (config : Config) (u p : Bytes) : Prop :=
  config.username = u ∧ config.password = some (Hashlib.sha1 p)

theorem accepts_iff (config : Config) (u p : Bytes) :
    accepts config u p = true ↔ Configured config u p := by
  simp [accepts, Configured]

/-- **The two logins agree if and only if** the credentials are made of word characters,
or are not the configured ones, neither as they are nor without the other characters. -/
theorem sameCredentials_iff (m : Vde2Mgmt n) (site : Site) (k : Handler) (method : Method)
    (form : Form) {u p : Bytes} (hu : u ≠ []) (hp : p ≠ [])
    (hsha : Hashlib.sha1 p = Hashlib.sha1 (word p) → p = word p) :
    SameDecision m site k method form u p ↔
      (word u = u ∧ word p = p) ∨
      (¬ Configured m.SYS_INFO.config u p ∧
        ¬ (word u ≠ [] ∧ word p ≠ [] ∧ Configured m.SYS_INFO.config (word u) (word p))) := by
  rw [SameDecision, session_loggedIn, view_loggedIn, accepts_iff, accepts_iff]
  constructor
  · intro h
    by_cases hconf : Configured m.SYS_INFO.config u p
    · -- both are accepted: the digests are equal, and so are the texts
      obtain ⟨-, -, hconf'⟩ := h.2 hconf
      refine Or.inl ⟨hconf'.1.symm.trans hconf.1, (hsha ?_).symm⟩
      exact Option.some.inj (hconf.2.symm.trans hconf'.2)
    · exact Or.inr ⟨hconf, fun ht => hconf (h.1 ht)⟩
  · rintro (⟨hwu, hwp⟩ | ⟨hconf, hconf'⟩)
    · rw [hwu, hwp]
      exact ⟨fun h => h.2.2, fun h => ⟨hu, hp, h⟩⟩
    · exact ⟨fun h => absurd h hconf', fun h => absurd h hconf⟩

end

/-- `admin` logs in with `secret` on both sides. -/
theorem sameCredentials_admin : @SameDecision 1024 Server.secretDigest Server.secretMgmt
    ⟨.load [], 0, []⟩ .help .get (fun _ => none) "admin".toList "secret".toList := by
  let _ := Server.secretDigest
  exact (sameCredentials_iff Server.secretMgmt ⟨.load [], 0, []⟩ .help .get (fun _ => none)
    (by decide) (by decide) (fun _ => by decide)).2 (Or.inl ⟨by decide, by decide⟩)

/-- `sha1` on two passwords. -/
abbrev dashDigest : Hashlib where
  sha1 p := if p = "pass-word".toList then "43bef3eab34187d71d7e1d9cc307c5e7c07665a8".toList
    else if p = "password".toList then "5baa61e4c9b93f3f0682250b6cf8331b7ee68fd8".toList else []

/-- The password of `admin` is `pass-word`. -/
def dashMgmt : Vde2Mgmt 1024 where
  socket := ⟨[], false⟩
  SYS_INFO := ⟨[], ⟨"admin".toList, some "43bef3eab34187d71d7e1d9cc307c5e7c07665a8".toList⟩⟩

/-- The telnet server drops the hyphen of the password, and refuses it. -/
theorem sameCredentials_hyphen : ¬ ∀ [Hashlib] (m : Vde2Mgmt 1024) (site : Site) (k : Handler)
    (method : Method) (form : Form) (u p : Bytes), u ≠ [] → p ≠ [] → '\n' ∉ u → '\n' ∉ p →
    (Hashlib.sha1 p = Hashlib.sha1 (word p) → p = word p) →
    SameDecision m site k method form u p := by
  intro h
  let _ := dashDigest
  have hsame := h dashMgmt ⟨.load [], 0, []⟩ .help .get (fun _ => none) "admin".toList
    "pass-word".toList (by decide) (by decide) (by decide) (by decide) (by decide)
  rw [SameDecision, session_loggedIn, view_loggedIn] at hsame
  exact absurd (hsame.2 (by decide)).2.2 (by decide)

end Vdetelweb
