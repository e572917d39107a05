import Vdetelweb.Proof.Forward
import Vdetelweb.Proof.Sessions

/-!
# A client that goes away

After its last chunk `recv` returns the empty string, every time. The two loops of the login
only end with a word, so they take it again and again, and the loop that reads commands
never reaches `conn.close()`. What is left are the sessions whose login is refused
(`ends_iff`).
-/

namespace Vdetelweb

open Vde2Mgmt

variable {n : ℕ}

/-! ## Empty chunks -/

theorem wordy_append {xs rest : List Bytes} {d : Bytes} (h : wordy xs = d :: rest) (ys : List Bytes) :
    wordy (xs ++ ys) = d :: (rest ++ ys) := by
  unfold wordy at h ⊢
  rw [List.dropWhile_append, if_neg (by rw [h]; simp), h, List.cons_append]

/-- There is no word in the empty string. -/
theorem wordy_append_replicate {xs : List Bytes} (h : wordy xs = []) (k : ℕ) :
    wordy (xs ++ List.replicate k []) = [] := by
  unfold wordy at h ⊢
  rw [List.dropWhile_append, if_pos (by rw [h]; rfl)]
  exact List.dropWhile_eq_nil_iff.2 fun x hx => by
    rw [List.eq_of_mem_replicate hx]
    rfl

namespace Server

variable [Hashlib]

/-- The session with a client that has gone away, after `recv` returned the empty string `k`
times. -/
def hangup (m : Vde2Mgmt n) (xs : List Bytes) (k : ℕ) : Server n :=
  session m (xs ++ List.replicate k [])

/-- **The session ends**: it comes to `conn.close()` and goes back to `accept`, and writes
nothing more to the management socket. -/
def Ends (m : Vde2Mgmt n) (xs : List Bytes) : Prop :=
  (∃ K, ∀ k, K ≤ k → (hangup m xs k).telnet = .accepting) ∧
    ∀ k, written (hangup m xs k).mgmt.log = written (session m xs).mgmt.log

/-- **The condition**: among the chunks there are a user name and a password after it, and
they are refused. -/
def Refused (m : Vde2Mgmt n) (xs : List Bytes) : Prop :=
  ∃ d rest e rest', wordy xs = d :: rest ∧ wordy rest = e :: rest' ∧
    ¬ Unset m.SYS_INFO.config (word d) ∧ accepts m.SYS_INFO.config (word d) (word e) = false

/-! ## Where the session comes to -/

/-- The prompt is not left for `accept`. -/
theorem shell_run_telnet (m : Vde2Mgmt n) (xs : List Bytes) :
    ((xs.map Input.recv).foldl step ⟨m, .shell⟩).telnet ≠ .accepting := by
  cases xs with
  | nil => exact Telnet.noConfusion
  | cons f xs =>
    obtain ⟨-, hnot⟩ := Telnet.shellLoop_observed f m
    rw [shell_run_cons]
    cases ho : (Telnet.shellLoop f m).1 with
    | ret t => exact absurd ho (hnot t)
    | raise e l => exact Telnet.noConfusion
    | block => exact Telnet.noConfusion

/-- Nor is it, once a login is accepted. -/
theorem enterShell_run (m : Vde2Mgmt n) (xs : List Bytes) :
    ((xs.map Input.recv).foldl step
      ⟨(Telnet.enterShell m).2, .after (Telnet.enterShell m).1⟩).telnet ≠ .accepting := by
  rw [Telnet.enterShell_apply]
  rcases Telnet.welcome m with ⟨o, m'⟩
  cases o with
  | ret _ => exact shell_run_telnet m' xs
  | raise e l => rw [closed_run fun _ => rfl]; exact Telnet.noConfusion
  | block => rw [closed_run fun _ => rfl]; exact Telnet.noConfusion

/-- The object when the password is read. -/
def greeted (m : Vde2Mgmt n) : Vde2Mgmt n :=
  (m.noted (.tell "\nUsername:".toList)).noted (.tell "Password:".toList)

/-- Without a user name. -/
theorem session_user (m : Vde2Mgmt n) {xs : List Bytes} (h : wordy xs = []) :
    (session m xs).telnet = .readUser := by
  change ((xs.map Input.recv).foldl step ⟨m.noted (.tell "\nUsername:".toList), .readUser⟩).telnet = _
  rw [readUser_run, h]

/-- Without a password. -/
theorem session_psw (m : Vde2Mgmt n) {xs rest : List Bytes} {d : Bytes} (hd : wordy xs = d :: rest)
    (h : wordy rest = []) : (session m xs).telnet = .readPsw (word d) := by
  change ((xs.map Input.recv).foldl step ⟨m.noted (.tell "\nUsername:".toList), .readUser⟩).telnet = _
  rw [readUser_run, hd]
  dsimp only
  rw [readPsw_run, h]

/-- With both, what comes after them. -/
theorem session_login (m : Vde2Mgmt n) {xs rest rest' : List Bytes} {d e : Bytes}
    (hd : wordy xs = d :: rest) (he : wordy rest = e :: rest') :
    session m xs = (rest'.map Input.recv).foldl step
      ⟨(Telnet.readPswLoop (word d) e (greeted m)).2,
        .after (Telnet.readPswLoop (word d) e (greeted m)).1⟩ := by
  change (xs.map Input.recv).foldl step ⟨m.noted (.tell "\nUsername:".toList), .readUser⟩ = _
  rw [readUser_run, hd]
  dsimp only
  rw [readPsw_run, he]
  rfl

/-- A refused login leads back to `accept`, whatever comes after it. -/
theorem session_refused {m : Vde2Mgmt n} {xs : List Bytes} (h : Refused m xs) (ys : List Bytes) :
    (session m (xs ++ ys)).telnet = .accepting ∧ session m (xs ++ ys) = session m xs := by
  obtain ⟨d, rest, e, rest', hd, he, hset, hacc⟩ := h
  rw [session_login m (wordy_append hd ys) (wordy_append he ys), session_login m hd he]
  rcases Telnet.readPswLoop_cases (word d) (word_of_wordy he) (greeted m) with
    ⟨hu, -⟩ | ⟨-, -, hrun⟩ | ⟨-, hacc', -⟩
  · exact absurd hu hset
  · rw [hrun]
    -- the rest is not waited for
    rw [closed_run fun _ => rfl, closed_run fun _ => rfl]
    exact ⟨rfl, rfl⟩
  · rw [show accepts (greeted m).SYS_INFO.config (word d) (word e) = false from hacc] at hacc'
    cases hacc'

/-- A session that comes back to `accept` was refused. -/
theorem refused_of_accepting {m : Vde2Mgmt n} {xs : List Bytes}
    (h : (session m xs).telnet = .accepting) : Refused m xs := by
  cases hd : wordy xs with
  | nil => rw [session_user m hd] at h; cases h
  | cons d rest =>
    cases he : wordy rest with
    | nil => rw [session_psw m hd he] at h; cases h
    | cons e rest' =>
      rw [session_login m hd he] at h
      rcases Telnet.readPswLoop_cases (word d) (word_of_wordy he) (greeted m) with
        ⟨-, hrun⟩ | ⟨hset, hacc, -⟩ | ⟨-, -, hrun⟩
      · -- the comparison of the digests raises
        rw [hrun, closed_run fun _ => rfl] at h
        cases h
      · exact ⟨d, rest, e, rest', hd, he, hset, hacc⟩
      · rw [hrun] at h
        exact absurd h (enterShell_run _ rest')

/-- Empty strings do not make a refused session. -/
theorem refused_append_replicate {m : Vde2Mgmt n} {xs : List Bytes} {k : ℕ}
    (h : Refused m (xs ++ List.replicate k [])) : Refused m xs := by
  obtain ⟨d, rest, e, rest', hd, he, hrefused⟩ := h
  cases hxs : wordy xs with
  | nil => rw [wordy_append_replicate hxs] at hd; cases hd
  | cons d' ys =>
    rw [wordy_append hxs] at hd
    obtain ⟨rfl, rfl⟩ := List.cons.inj hd
    cases hys : wordy ys with
    | nil => rw [wordy_append_replicate hys] at he; cases he
    | cons e' ys' =>
      rw [wordy_append hys] at he
      obtain ⟨rfl, -⟩ := List.cons.inj he
      exact ⟨_, ys, _, ys', hxs, hys, hrefused⟩

/-- **The session ends with its client if and only if** its login is refused. -/
theorem ends_iff (m : Vde2Mgmt n) (cs : List (Chunk 1024)) :
    Ends m (cs.map Subtype.val) ↔ Refused m (cs.map Subtype.val) := by
  constructor
  · rintro ⟨⟨K, hK⟩, -⟩
    exact refused_append_replicate (refused_of_accepting (hK K le_rfl))
  · intro h
    refine ⟨⟨0, fun k _ => (session_refused h _).1⟩, fun k => ?_⟩
    rw [hangup, (session_refused h _).2]

end Server

/-- A client that connects and goes away. -/
theorem Server.ends_silent : ¬ ∀ [Hashlib] (m : Vde2Mgmt 1024) (cs : List (Chunk 1024)),
    Server.Ends m (cs.map Subtype.val) := by
  intro h
  let _ := Server.secretDigest
  obtain ⟨⟨K, hK⟩, -⟩ := h Server.secretMgmt []
  have := hK K le_rfl
  rw [Server.hangup, Server.session_user _ (wordy_append_replicate rfl K)] at this
  cases this

end Vdetelweb
