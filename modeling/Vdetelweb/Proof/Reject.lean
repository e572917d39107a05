import Vdetelweb.Proof.Form

/-!
# All or nothing

A POST to a command calls `send` once if its form is complete, and otherwise has no effect
on the switch or on the histories. The loop over the arguments decides which, and it can
also raise in the middle: at an argument that is not in the form, which is as it should be,
and where it puts a value after a command that is not ASCII (`allOrNothing_iff`).
-/

namespace Vdetelweb

open Vde2Mgmt

variable {n : ℕ}

/-- One call of `send` if the form is complete; otherwise nothing is written, and the
histories stay as they are. -/
def AllOrNothing (form : Form) (args : List Bytes) (m m' : Vde2Mgmt n) : Prop :=
  (Complete form args → calls m'.log = calls m.log + 1) ∧
    (¬ Complete form args → written m'.log = written m.log ∧ m'.CMD_HISTORY = m.CMD_HISTORY ∧
      m'.HISTORY = m.HISTORY ∧ m'.HISTORY_HTML = m.HISTORY_HTML)

theorem calls_sent (cmd : PyStr) : calls (sent cmd) = 1 := by
  unfold sent calls
  split <;> rfl

theorem calls_send (cmd : PyStr) (m : Vde2Mgmt n) : calls (send cmd m).2.log = calls m.log + 1 := by
  obtain ⟨post, hpost, hlog⟩ := send_sent cmd m
  rw [hlog, calls_append, calls_append, calls_sent, hpost.2.1]

/-- What `requires_auth` records of an accepted request is neither a call nor written. -/
theorem calls_asked (m : Vde2Mgmt n) (u p : Bytes) :
    calls ((m.noted (.ask u p)).noted (.auth u p true)).log = calls m.log := by
  simp [noted, calls]

theorem written_asked (m : Vde2Mgmt n) (u p : Bytes) :
    written ((m.noted (.ask u p)).noted (.auth u p true)).log = written m.log := by
  simp [noted, written]

/-- **A POST is all or nothing if and only if** its form is not complete, or has no value for
any argument, or the command is ASCII. -/
theorem allOrNothing_iff [Hashlib] {h : Heap} {cmd_dict : Ref} {cmd : Bytes} {args : List Bytes}
    (hcmd : h.get cmd_dict "cmd".toList = some (.str cmd))
    (hargs : h.get cmd_dict "args".toList = some (.list args)) {request : Request}
    (hpost : request.method = .post) {m : Vde2Mgmt n} {u p : Bytes}
    (hauth : request.authorization = some (u, p)) (hacc : accepts m.SYS_INFO.config u p = true) :
    AllOrNothing request.form args m (sendCommand h cmd_dict request m).2 ↔
      ¬ Complete request.form args ∨ values request.form args = [] ∨ cmd.all isAscii = true := by
  rw [sendCommand_eq, requiresAuth_accepted request hauth hacc, commandView_state, if_pos hpost]
  set m₀ := (m.noted (.ask u p)).noted (.auth u p true) with hm₀
  have hcalls : calls m₀.log = calls m.log := calls_asked m u p
  rcases postCommand_cases h cmd_dict request m₀ with ⟨line, hposted, hst⟩ | ⟨hno, hst⟩
  · -- the loop ends with a correct line
    obtain ⟨cmd', v, args', hcmd', hv, hiter, hc, hx, -⟩ := hposted
    obtain rfl : cmd = cmd' := Val.str.inj (Option.some.inj (hcmd.symm.trans hcmd'))
    obtain rfl : Val.list args = v := Option.some.inj (hargs.symm.trans hv)
    obtain rfl : args = args' := Option.some.inj hiter
    rw [hst]
    constructor
    · intro _
      exact Or.inr (hx.imp_right fun hx => hx.resolve_left (by simp))
    · intro _
      exact ⟨fun _ => by rw [calls_send, hcalls], fun hnc => absurd hc hnc⟩
  · -- nothing is sent: right for a form that is not complete, and only for such a form
    rw [hst]
    constructor
    · rintro ⟨hone, -⟩
      refine Or.inl fun hc => ?_
      have := hone hc
      omega
    · intro hcond
      have hnc : ¬ Complete request.form args := by
        intro hc
        rcases hcond with hnc | hval
        · exact hnc hc
        · exact hno _ ⟨cmd, _, args, hcmd, hargs, rfl, hc, hval.imp_right Or.inr, rfl⟩
      exact ⟨fun hc => absurd hc hnc, fun _ => ⟨written_asked m u p, rfl, rfl, rfl⟩⟩

theorem allOrNothing_allow :
    @AllOrNothing 1024 (allowRequest [] []).form allowCommand.args Server.secretMgmt
      (@sendCommand _ Server.secretDigest (.load [allowCommand]) 0 (allowRequest [] [])
        Server.secretMgmt).2 := by
  let _ := Server.secretDigest
  refine (allOrNothing_iff rfl rfl rfl rfl (by decide)).2 (Or.inr (Or.inr ?_))
  decide

/-- A command that is not ASCII (`port/allów` in UTF-8). -/
def accentedCommand : Record :=
  { allowCommand with cmd := "port/all".toList ++ [Char.ofNat 0xc3, Char.ofNat 0xb3, 'w'] }

/-- The value of the form is `unicode`, and the command cannot be decoded. -/
theorem allOrNothing_accented : ¬ ∀ [Hashlib] (h : Heap) (cmd_dict : Ref) (cmd : Bytes)
    (args : List Bytes) (request : Request) (m : Vde2Mgmt 1024) (u p : Bytes),
    h.get cmd_dict "cmd".toList = some (.str cmd) → h.get cmd_dict "args".toList = some (.list args) →
    request.method = .post → request.authorization = some (u, p) →
    accepts m.SYS_INFO.config u p = true →
    AllOrNothing request.form args m (sendCommand h cmd_dict request m).2 := by
  intro h
  let _ := Server.secretDigest
  have hone := (h (.load [accentedCommand]) 0 _ _ (allowRequest "root".toList "7".toList)
    Server.secretMgmt _ _ rfl rfl rfl rfl (by decide)).1
  have hc : Complete (allowRequest "root".toList "7".toList).form accentedCommand.args := by
    intro i hi
    rcases List.mem_cons.1 hi with rfl | hi
    · exact ⟨"root".toList, rfl, fun _ => by decide⟩
    · rw [List.mem_singleton.1 hi]
      exact ⟨"7".toList, rfl, fun _ => by decide⟩
  have hnone : calls (sendCommand (.load [accentedCommand]) 0 (allowRequest "root".toList "7".toList)
      Server.secretMgmt).2.log = 0 := by decide
  have := hone hc
  rw [hnone] at this
  cases this

end Vdetelweb
