import Vdetelweb.Lib.Runs
import Vdetelweb.Proof.Post
import Vdetelweb.Proof.Telnet
import Vdetelweb.Spec.Service

/-!
# Who may write to the switch

Every string written to the management socket is written on behalf of a peer whose
credentials `authenticate` accepted before, in the same request or on the same
connection (`authorized_run`). Two things carry it: every view is guarded by
`requiresAuth` (`view_guarded`), and the telnet server is at its prompt only on a
connection that has logged in (`Inv`).
-/

namespace Vdetelweb

open Vde2Mgmt Effect

variable {n : ℕ}

/-! ## Logs only grow -/

/-- The log of `m'` continues that of `m`. -/
def Grows (m m' : Vde2Mgmt n) : Prop := m.log <+: m'.log

instance : Std.Refl (Grows (n := n)) := ⟨fun m => List.prefix_refl m.log⟩

instance : IsTrans (Vde2Mgmt n) Grows := ⟨fun _ _ _ => List.IsPrefix.trans⟩

namespace Vde2Mgmt

theorem note_grows (e : Event) : Act.Keeps Grows (note e : Vdetelweb.Act (Vde2Mgmt n) Unit) :=
  fun m => List.prefix_append m.log [e]

theorem response_grows : Act.Keeps Grows (response (n := n)) := fun m => by
  rw [response_apply, Grows]
  simp

theorem sendall_grows (cmd : PyStr) (line : ℕ) : Act.Keeps Grows (sendall (n := n) cmd line) := by
  unfold sendall
  split
  · exact note_grows _
  · exact .raise _ _

theorem exchange_grows (cmd : PyStr) (line : ℕ) : Act.Keeps Grows (exchange (n := n) cmd line) :=
  (sendall_grows cmd line).bind fun _ => response_grows

theorem showinfo_grows : Act.Keeps Grows (showinfo (n := n)) := (exchange_grows _ _).attempt

theorem send_grows (cmd : PyStr) : Act.Keeps Grows (send (n := n) cmd) := by
  refine (note_grows _).bind fun _ => (exchange_grows _ _).attempt.bind fun r => ?_
  cases r with
  | none => exact .pure _
  | some r =>
    refine .bind (fun m => ?_) fun _ => .pure _
    have hs := addHistory_state cmd.strip r.text m
    rw [Grows, hs]
    split <;> exact List.prefix_refl _

end Vde2Mgmt

theorem Telnet.welcome_grows : Act.Keeps Grows (Telnet.welcome (n := n)) :=
  showinfo_grows.bind fun _ => .bind (.ofOption _ _ _) fun _ =>
    .bind (note_grows _) fun _ => .bind .get fun _ => note_grows _

theorem Telnet.enterShell_grows : Act.Keeps Grows (Telnet.enterShell (n := n)) :=
  Telnet.welcome_grows.bind fun _ => .pure _

theorem readArgs_grows (request : Request) :
    ∀ (args : List Bytes) (v : Line), Act.Keeps Grows (readArgs (n := n) request args v)
  | [], _ => .pure _
  | i :: args, v => by
    refine .bind (.ofOption _ _ _) fun value => ?_
    split
    · exact .bind (.ofOption _ _ _) fun _ => readArgs_grows request args _
    · split
      · exact readArgs_grows request args _
      · exact readArgs_grows request args _

theorem cmdOf_grows (h : Heap) (cmd_dict : Ref) (line : ℕ) :
    Act.Keeps Grows (cmdOf (n := n) h cmd_dict line) := by
  unfold cmdOf
  split
  · exact .pure _
  · exact .raise _ _
  · exact .raise _ _

theorem postCommand_grows (h : Heap) (cmd_dict : Ref) (request : Request) :
    Act.Keeps Grows (postCommand (n := n) h cmd_dict request) := by
  refine (cmdOf_grows _ _ _).bind fun cmd => .bind ?_ fun args =>
    (readArgs_grows request args _).bind fun v => ?_
  · exact .bind (.ofOption _ _ _) fun _ => .ofOption _ _ _
  · split
    · refine (send_grows _).bind fun r => ?_
      split <;> exact .pure _
    · exact .pure _

/-! ## Every view is guarded -/

/-- **Every view asks for credentials first.** -/
theorem view_guarded [Hashlib] (site : Site) (k : Handler) :
    ∃ f : View n, (∀ request, Act.Keeps Grows (f request)) ∧ k.view site = requiresAuth f := by
  cases k with
  | index =>
    exact ⟨_, fun _ => showinfo_grows.bind fun _ => (Act.Keeps.ofOption _ _ _).bind fun _ => .pure _, rfl⟩
  | api => exact ⟨_, fun _ => showinfo_grows.bind fun _ => Act.Keeps.get.bind fun _ => .pure _, rfl⟩
  | home => exact ⟨_, fun _ => .pure _, rfl⟩
  | history => exact ⟨_, fun _ => Act.Keeps.get.bind fun _ => .pure _, rfl⟩
  | help => exact ⟨_, fun _ => .pure _, rfl⟩
  | sendCommand cmd_dict =>
    refine ⟨_, fun request => ?_, rfl⟩
    refine Act.Keeps.bind ?_ fun _ => (cmdOf_grows _ _ _).bind fun _ => Act.Keeps.get.bind fun _ => .pure _
    split
    · exact postCommand_grows _ _ _
    · exact .pure _
  | cmdsForm cmd_string cmd_dict =>
    refine ⟨fun _ => if site.heap.isLeaf cmd_dict then pure (.form cmd_string cmd_dict)
      else pure (.menu cmd_string cmd_dict), fun request => ?_, rfl⟩
    split <;> exact .pure _
  | cmdsApi cmd_string cmd_dict =>
    exact ⟨_, fun _ => Act.Keeps.get.bind fun _ => .pure _, rfl⟩

/-! ## What is written in one step -/

/-- Whatever is written is written after an accepted login. -/
def Guarded (es : List Event) : Prop :=
  ∀ pre b post, es = pre ++ .write b :: post → ∃ u p, .auth u p true ∈ pre

theorem guarded_of_silent {es : List Event} (h : ∀ b, .write b ∉ es) : Guarded es := by
  rintro pre b post rfl
  exact absurd (by simp) (h b)

/-- A login comes before what follows it. -/
theorem guarded_of_auth {es : List Event} {u p : Bytes}
    (h : [.ask u p, .auth u p true] <+: es) : Guarded es := by
  obtain ⟨t, rfl⟩ := h
  intro pre b post hes
  refine ⟨u, p, ?_⟩
  -- neither of the first two events is a write
  match pre, hes with
  | [], hes => cases hes
  | [_], hes => cases hes
  | e :: e' :: pre, hes =>
    cases hes
    simp

/-- **A guarded view** writes only after an accepted login. -/
theorem requiresAuth_guarded [Hashlib] {f : View n} (hf : ∀ request, Act.Keeps Grows (f request))
    (request : Request) (m : Vde2Mgmt n) :
    Guarded (requiresAuth f request (unlogged m)).2.log := by
  by_cases hadmitted : ∃ u p, request.authorization = some (u, p) ∧
      accepts (unlogged m).SYS_INFO.config u p = true
  · -- whatever the view does comes after the login in the log
    obtain ⟨u, p, hauth, hacc⟩ := hadmitted
    rw [requiresAuth_accepted request hauth hacc]
    exact guarded_of_auth (hf request (((unlogged m).noted (.ask u p)).noted (.auth u p true)))
  · have hrefused : ∀ u p, request.authorization = some (u, p) →
        accepts (unlogged m).SYS_INFO.config u p = false := fun u p hauth =>
      Bool.eq_false_iff.2 fun hacc => hadmitted ⟨u, p, hauth, hacc⟩
    obtain ⟨es, hes, hcase⟩ := requiresAuth_refused request hrefused f
    rw [hes]
    refine guarded_of_silent fun b => ?_
    rcases hcase with rfl | ⟨u, p, rfl | rfl⟩ <;> simp [unlogged]

/-- **The password loop** writes only after it accepts, and leaves the prompt to an
accepted login. -/
theorem readPswLoop_guarded [Hashlib] (user data : Bytes) (m : Vde2Mgmt n) :
    Guarded (Telnet.readPswLoop user data (unlogged m)).2.log ∧
      ((Telnet.readPswLoop user data (unlogged m)).1 = .ret .shell →
        ∃ u p, .auth u p true ∈ (Telnet.readPswLoop user data (unlogged m)).2.log) := by
  by_cases hw : word data = []
  · rw [Telnet.readPswLoop_again user hw]
    exact ⟨guarded_of_silent fun b => List.not_mem_nil, fun h => by cases h⟩
  · rcases Telnet.readPswLoop_cases user hw (unlogged m) with ⟨-, hrun⟩ | ⟨-, -, hrun⟩ | ⟨-, -, hrun⟩
    · rw [hrun]
      exact ⟨guarded_of_silent fun b => by simp [noted, unlogged], fun h => by cases h⟩
    · rw [hrun]
      exact ⟨guarded_of_silent fun b => by simp [noted, unlogged], fun h => by cases h⟩
    · -- the welcome message comes after the login
      have hgrows := Telnet.enterShell_grows
        (((unlogged m).noted (.ask user (word data))).noted (.auth user (word data) true))
      rw [hrun]
      exact ⟨guarded_of_auth hgrows, fun _ => ⟨_, _, hgrows.subset (List.mem_append_right _
        (List.mem_singleton.2 rfl))⟩⟩

/-! ## Runs -/

/-- **Every write is authorized**: its peer was accepted before. -/
def Authorized (trace : List (Peer × Event)) : Prop :=
  ∀ pre who b post, trace = pre ++ (who, .write b) :: post → ∃ u p, (who, .auth u p true) ∈ pre

/-- What is done on behalf of one peer, guarded or after an earlier login of that peer. -/
theorem Authorized.append {trace : List (Peer × Event)} (h : Authorized trace) {who : Peer}
    {es : List Event} (hes : Guarded es ∨ ∃ u p, (who, .auth u p true) ∈ trace) :
    Authorized (trace ++ es.map (Prod.mk who)) := by
  intro pre who' b post heq
  rcases List.append_eq_append_iff.1 heq with ⟨mid, rfl, hmid⟩ | ⟨mid, rfl, hmid⟩
  · -- the write is one of `es`
    obtain ⟨es₁, es₂, rfl, h₁, h₂⟩ := List.map_eq_append_iff.1 hmid
    obtain ⟨e, es₂, rfl, he, -⟩ := List.map_eq_cons_iff.1 h₂
    cases he
    rcases hes with hg | ⟨u, p, hu⟩
    · obtain ⟨u, p, hu⟩ := hg es₁ b es₂ rfl
      refine ⟨u, p, List.mem_append_right _ ?_⟩
      rw [← h₁]
      exact List.mem_map_of_mem hu
    · exact ⟨u, p, List.mem_append_left _ hu⟩
  · cases mid with
    | nil =>
      -- the write is the first of `es`
      cases es with
      | nil => simp at hmid
      | cons e es =>
        simp only [List.nil_append, List.map_cons, List.cons.injEq, Prod.mk.injEq] at hmid
        obtain ⟨⟨rfl, rfl⟩, -⟩ := hmid
        rcases hes with hg | ⟨u, p, hu⟩
        · obtain ⟨u, p, hu⟩ := hg [] b es rfl
          cases hu
        · exact ⟨u, p, by simpa using hu⟩
    | cons x mid =>
      simp only [List.cons_append, List.cons.injEq] at hmid
      obtain ⟨rfl, -⟩ := hmid
      exact h pre who' b mid rfl

namespace Service

/-- At the prompt, the connection has logged in. -/
structure Inv (w : Service n) : Prop where
  authorized : Authorized w.trace
  shell : w.telnet = .shell → ∃ u p, (.connection w.connections, .auth u p true) ∈ w.trace

/-- One input of a telnet client, from what its code does. -/
theorem Inv.exec {w : Service n} (h : w.Inv) {x : Vdetelweb.Act (Vde2Mgmt n) Telnet} {k : ℕ}
    (hes : Guarded (x (unlogged w.mgmt)).2.log ∨ ∃ u p, (.connection k, .auth u p true) ∈ w.trace)
    (hshell : (x (unlogged w.mgmt)).1 = .ret .shell →
      ∃ u p, .auth u p true ∈ (x (unlogged w.mgmt)).2.log) :
    Inv { (w.exec (.connection k) x).2 with
      telnet := .after (w.exec (.connection k) x).1
      connections := k } := by
  refine ⟨h.authorized.append hes, fun ht => ?_⟩
  -- only code that ends normally leaves the server at the prompt
  have hret : (x (unlogged w.mgmt)).1 = .ret .shell := by
    change Telnet.after (x (unlogged w.mgmt)).1 = .shell at ht
    cases ho : (x (unlogged w.mgmt)).1 with
    | ret t => rw [ho] at ht; rw [show t = .shell from ht]
    | raise e l => rw [ho] at ht; cases ht
    | block => rw [ho] at ht; cases ht
  obtain ⟨u, p, hu⟩ := hshell hret
  exact ⟨u, p, List.mem_append_right _ (List.mem_map_of_mem hu)⟩

variable [Hashlib]

theorem Inv.http {w : Service n} (h : w.Inv) (site : Site) (r : Rule) (request : Request) :
    (w.http site r request).Inv := by
  obtain ⟨f, hf, hview⟩ := view_guarded (n := n) site r.handler
  have hguard := requiresAuth_guarded hf request w.mgmt
  rw [← hview] at hguard
  have htrace : Authorized (w.trace ++ ((r.handler.view site request) (unlogged w.mgmt)).2.log.map
    (Prod.mk (.request w.requests))) := h.authorized.append (Or.inl hguard)
  have hshell : w.telnet = .shell → ∃ u p, (Peer.connection w.connections, Event.auth u p true) ∈
      w.trace ++ ((r.handler.view site request) (unlogged w.mgmt)).2.log.map
        (Prod.mk (.request w.requests)) := by
    intro ht
    obtain ⟨u, p, hu⟩ := h.shell ht
    exact ⟨u, p, List.mem_append_left _ hu⟩
  exact ⟨htrace, hshell⟩

theorem Inv.telnetStep {w : Service n} (h : w.Inv) (i : Input) : (w.telnetStep i).Inv := by
  unfold Service.telnetStep
  cases ht : w.telnet with
  | accepting =>
    cases i with
    | accept => exact h.exec (x := Telnet.greet) (Or.inl (guarded_of_silent fun b => by
        simp [Telnet.greet, Telnet.tell, note, unlogged, Act.bind_apply])) fun h => by cases h
    | recv data => exact h
  | readUser =>
    cases i with
    | accept => exact h
    | recv data =>
      refine h.exec (x := Telnet.readUserLoop data) (Or.inl ?_) ?_ <;>
        rw [Telnet.readUserLoop_apply] <;> by_cases hw : word data = []
      · rw [if_pos hw]; exact guarded_of_silent fun b => List.not_mem_nil
      · rw [if_neg hw]; exact guarded_of_silent fun b => by simp [noted, unlogged]
      · rw [if_pos hw]; intro h; cases h
      · rw [if_neg hw]; intro h; cases h
  | readPsw user =>
    cases i with
    | accept => exact h
    | recv data =>
      obtain ⟨hguard, hshell⟩ := readPswLoop_guarded user data w.mgmt
      exact h.exec (x := Telnet.readPswLoop user data) (Or.inl hguard) hshell
  | shell =>
    cases i with
    | accept => exact h
    | recv data =>
      -- a pass of the command loop never ends at the prompt
      refine h.exec (x := Telnet.shellLoop data) (Or.inr (h.shell ht)) fun hret => ?_
      obtain ⟨_, -, hret⟩ := Act.bind_eq_ret.1 hret
      cases hret
  | hung => cases i <;> exact h
  | down e l => cases i <;> exact h

/-- What `web` registers is what is served. -/
theorem serve_web {w : Service n} (hw : w.web = .starting) {depth : ℕ} {m m' : Vde2Mgmt n}
    {site : Site} {rules : List Rule} (h : Vdetelweb.web depth m = (.ret (site, rules), m')) :
    w.step (.serve m' site depth) = { w with mgmt := m', web := .serving site rules } := by
  obtain ⟨help_list, -, h⟩ := Act.bind_eq_ret.1 (congrArg Prod.fst h)
  obtain ⟨⟨heap, help_tree⟩, -, h⟩ := Act.bind_eq_ret.1 h
  obtain ⟨rs, hrs, h⟩ := Act.bind_eq_ret.1 h
  cases h
  have hurls : createCommandsUrls heap depth help_tree [] = some rs := by
    rw [Act.ofOption_apply] at hrs
    cases hc : createCommandsUrls heap depth help_tree [] with
    | none => rw [hc] at hrs; cases hrs
    | some rs' => rw [hc] at hrs; cases hrs; rfl
  simp only [Service.step, hw, hurls]

/-- What a step of either server keeps. -/
theorem Inv.step {w : Service n} (h : w.Inv) (e : Happening n) : (w.step e).Inv := by
  cases e with
  | serve m site depth =>
    unfold Service.step
    dsimp only
    split
    · exact ⟨h.authorized, h.shell⟩
    · exact h
  | http i request =>
    unfold Service.step
    dsimp only
    split
    · split
      · split
        · exact h.http _ _ request
        · exact h
      · exact h
    · exact h
  | telnet i => exact h.telnetStep i

/-- **No unauthenticated access.** In every run, whatever is written to the switch is
written for a peer that was accepted before, in the same request or on the same
connection. -/
theorem authorized_run (m : Vde2Mgmt n) (es : List (Happening n)) :
    Authorized (es.foldl step { mgmt := m }).trace :=
  (Runs.inv_of_step (I := Inv) (fun _ e h => h.step e) es
    ⟨fun pre _ _ _ h => by simp at h, fun h => by cases h⟩).authorized

end Service

end Vdetelweb
