import Vdetelweb.Proof.Mgmt
import Vdetelweb.Spec.Web

/-!
# What a view does with a request

`requires_auth` hands on a request whose credentials are accepted, and otherwise records
no more than that it asked (`requiresAuth_accepted`, `requiresAuth_refused`). `readArgs`
puts the non-empty values of a posted form after the command, and the handler calls `send`
with the line exactly when the form is complete (`postCommand_cases`).
-/

namespace Vdetelweb

open Vde2Mgmt

variable {n : ℕ}

/-! ## Behind the login -/

section

variable [Hashlib] (request : Request) {m : Vde2Mgmt n}

theorem requiresAuth_accepted {u p : Bytes} (hauth : request.authorization = some (u, p))
    (hacc : accepts m.SYS_INFO.config u p = true) (f : View n) :
    requiresAuth f request m = f request ((m.noted (.ask u p)).noted (.auth u p true)) := by
  unfold requiresAuth
  rw [hauth]
  dsimp only
  rcases authenticate_apply u p m with ⟨hu, -⟩ | ⟨-, ha⟩
  · rw [accepts_unset hu] at hacc
    cases hacc
  · rw [Act.bind_apply, ha, hacc]
    rfl

/-- Without credentials nobody is asked about; and if the comparison of the digests raises,
there is no decision. -/
theorem requiresAuth_refused (h : ∀ u p, request.authorization = some (u, p) →
    accepts m.SYS_INFO.config u p = false) (f : View n) :
    ∃ es, (requiresAuth f request m).2 = { m with log := m.log ++ es } ∧
      (es = [] ∨ ∃ u p, es = [.ask u p] ∨ es = [.ask u p, .auth u p false]) := by
  unfold requiresAuth
  cases hauth : request.authorization with
  | none => exact ⟨[], by simp, Or.inl rfl⟩
  | some auth =>
    obtain ⟨u, p⟩ := auth
    simp only [Act.bind_apply]
    rcases authenticate_apply u p m with ⟨-, ha⟩ | ⟨-, ha⟩
    · rw [ha]
      exact ⟨[.ask u p], rfl, Or.inr ⟨u, p, Or.inl rfl⟩⟩
    · rw [ha, h u p hauth]
      refine ⟨[.ask u p, .auth u p false], ?_, Or.inr ⟨u, p, Or.inr rfl⟩⟩
      simp [noted]

end

/-! ## Forms -/

/-- The form of a request. -/
abbrev Form := Bytes → Option (List Char)

/-- Every argument is in the form, and every required one has a value. -/
def Complete (form : Form) (args : List Bytes) : Prop :=
  ∀ i ∈ args, ∃ value, form i = some value ∧ (isRequiredArg i = true → value ≠ [])

/-- The values that the form has for the arguments. -/
def values (form : Form) (args : List Bytes) : List (List Char) :=
  args.filterMap fun i => (form i).filter fun value => !value.isEmpty

theorem values_cons_value {form : Form} {i : Bytes} {value : List Char} (h : form i = some value)
    (hv : value ≠ []) (args : List Bytes) : values form (i :: args) = value :: values form args := by
  unfold values
  rw [List.filterMap_cons_some (b := value)]
  simp [h, hv]

theorem values_cons_empty {form : Form} {i : Bytes} (h : form i = some []) (args : List Bytes) :
    values form (i :: args) = values form args := by
  unfold values
  rw [List.filterMap_cons_none]
  simp [h]

/-- The line with the values after it, which are `unicode`. -/
def extend (line : PyStr) (values : List (List Char)) : PyStr :=
  ⟨line.unicode || !values.isEmpty, line.text ++ values.flatMap (' ' :: ·)⟩

/-- A `unicode` can be put after the line. -/
def Extensible (line : PyStr) (values : List (List Char)) : Prop :=
  values = [] ∨ line.unicode = true ∨ line.text.all isAscii = true

theorem add_unicode (line : PyStr) (t : List Char) :
    line.add ⟨true, t⟩ = if line.unicode = true ∨ line.text.all isAscii = true then
      some ⟨true, line.text ++ t⟩ else none := by
  obtain ⟨u, l⟩ := line
  cases u <;> simp [PyStr.add]

/-! ## One argument -/

section

variable {request : Request} {i : Bytes} {args : List Bytes} {v : Line} {m : Vde2Mgmt n}

theorem readArgs_missing (h : request.form i = none) :
    readArgs request (i :: args) v m = (.raise .keyError 59, m) := by
  simp [readArgs, h, Act.bind_apply, Act.ofOption_apply]

theorem readArgs_value {value : List Char} (h : request.form i = some value) (hv : value ≠ []) :
    readArgs request (i :: args) v m =
      if v.send_command.unicode = true ∨ v.send_command.text.all isAscii = true then
        readArgs request args
          { v with send_command := ⟨true, v.send_command.text ++ ' ' :: value⟩ } m
      else (.raise .unicodeDecodeError 60, m) := by
  simp only [readArgs, h, Act.bind_apply, Act.ofOption_apply, if_pos hv, add_unicode]
  by_cases hx : v.send_command.unicode = true ∨ v.send_command.text.all isAscii = true
  · rw [if_pos hx, if_pos hx]
  · rw [if_neg hx, if_neg hx]

theorem readArgs_required (h : request.form i = some []) (hi : isRequiredArg i = true) :
    readArgs request (i :: args) v m = readArgs request args { v with
      cmd_is_correct := false
      mgmt_response := .invalid (requiredText i) } m := by
  simp [readArgs, h, Act.bind_apply, Act.ofOption_apply, hi]

theorem readArgs_optional (h : request.form i = some []) (hi : isRequiredArg i = false) :
    readArgs request (i :: args) v m = readArgs request args v m := by
  simp [readArgs, h, Act.bind_apply, Act.ofOption_apply, hi]

/-- What the loop does with its first argument. -/
theorem readArgs_cases (request : Request) (i : Bytes) (args : List Bytes) (v : Line) (m : Vde2Mgmt n) :
    (∃ e l, readArgs request (i :: args) v m = (.raise e l, m)) ∨
      ∃ w, readArgs request (i :: args) v m = readArgs request args w m ∧
        (w.cmd_is_correct = true → v.cmd_is_correct = true) := by
  cases h : request.form i with
  | none => exact Or.inl ⟨_, _, readArgs_missing h⟩
  | some value =>
    by_cases hv : value = []
    · subst hv
      cases hi : isRequiredArg i with
      | true => exact Or.inr ⟨_, readArgs_required h hi, nofun⟩
      | false => exact Or.inr ⟨_, readArgs_optional h hi, id⟩
    · rw [readArgs_value h hv]
      split
      · exact Or.inr ⟨_, rfl, id⟩
      · exact Or.inl ⟨_, _, rfl⟩

end

/-! ## All arguments -/

/-- The loop leaves the object alone, and what is not correct stays so. -/
theorem readArgs_state (request : Request) :
    ∀ (args : List Bytes) (v : Line) (m : Vde2Mgmt n), (readArgs request args v m).2 = m ∧
      ∀ w, (readArgs request args v m).1 = .ret w → w.cmd_is_correct = true → v.cmd_is_correct = true := by
  intro args
  induction args with
  | nil => intro v m; exact ⟨rfl, by rintro w ⟨⟩; exact id⟩
  | cons i args ih =>
    intro v m
    rcases readArgs_cases request i args v m with ⟨e, l, h⟩ | ⟨w, h, hw⟩
    · rw [h]; exact ⟨rfl, nofun⟩
    · rw [h]
      exact ⟨(ih w m).1, fun x hx hc => hw ((ih w m).2 x hx hc)⟩

/-- **A complete form** gives the command followed by its values. -/
theorem readArgs_complete {request : Request} :
    ∀ (args : List Bytes) (v : Line) (m : Vde2Mgmt n), Complete request.form args →
      Extensible v.send_command (values request.form args) →
      readArgs request args v m = (.ret { v with
        send_command := extend v.send_command (values request.form args) }, m) := by
  intro args
  induction args with
  | nil => intro v m _ _; simp [readArgs, values, extend]
  | cons i args ih =>
    intro v m hc hx
    obtain ⟨value, hval, hreq⟩ := hc i List.mem_cons_self
    have hc' : Complete request.form args := fun j hj => hc j (List.mem_cons_of_mem _ hj)
    by_cases hv : value = []
    · subst hv
      have hi : isRequiredArg i = false := by
        cases h : isRequiredArg i with
        | false => rfl
        | true => exact absurd rfl (hreq h)
      rw [values_cons_empty hval] at hx ⊢
      rw [readArgs_optional hval hi, ih v m hc' hx]
    · rw [values_cons_value hval hv] at hx ⊢
      have hx' := hx.resolve_left (by simp)
      rw [readArgs_value hval hv, if_pos hx', ih _ m hc' (Or.inr (Or.inl rfl))]
      simp [extend]

/-- **Any other form** does not give a correct line. -/
theorem readArgs_incomplete {request : Request} :
    ∀ (args : List Bytes) (v w : Line) (m : Vde2Mgmt n),
      (readArgs request args v m).1 = .ret w → w.cmd_is_correct = true →
      Complete request.form args ∧ Extensible v.send_command (values request.form args) := by
  intro args
  induction args with
  | nil => intro v w m _ _; exact ⟨nofun, Or.inl rfl⟩
  | cons i args ih =>
    intro v w m h hw
    cases hval : request.form i with
    | none => rw [readArgs_missing hval] at h; cases h
    | some value =>
      have cons : (isRequiredArg i = true → value ≠ []) → Complete request.form args →
          Complete request.form (i :: args) := by
        intro hreq hc j hj
        rcases List.mem_cons.1 hj with rfl | hj
        · exact ⟨value, hval, hreq⟩
        · exact hc j hj
      by_cases hv : value = []
      · subst hv
        cases hi : isRequiredArg i with
        | true =>
          -- the flag is cleared, and never set again
          rw [readArgs_required hval hi] at h
          have := (readArgs_state request args _ m).2 w h hw
          cases this
        | false =>
          rw [readArgs_optional hval hi] at h
          rw [values_cons_empty hval]
          obtain ⟨hc, hx⟩ := ih v w m h hw
          exact ⟨cons (by simp [hi]) hc, hx⟩
      · rw [readArgs_value hval hv] at h
        split at h
        · rename_i hx
          exact ⟨cons (fun _ => hv) (ih _ w m h hw).1, Or.inr hx⟩
        · cases h

/-! ## The handler -/

/-- The form is complete, and this is the line that it gives. -/
def Posted (h : Heap) (cmd_dict : Ref) (form : Form) (line : PyStr) : Prop :=
  ∃ cmd v args, h.get cmd_dict "cmd".toList = some (.str cmd) ∧
    h.get cmd_dict "args".toList = some v ∧ v.iter h = some args ∧ Complete form args ∧
    Extensible (.str cmd) (values form args) ∧ line = extend (.str cmd) (values form args)

/-- **What a POST leaves**: the command is sent if the loop over the arguments ends with a
correct line. -/
theorem postCommand_state {h : Heap} {cmd_dict : Ref} {cmd : Bytes} {v : Val} {args : List Bytes}
    (hcmd : h.get cmd_dict "cmd".toList = some (.str cmd))
    (hargs : h.get cmd_dict "args".toList = some v) (hiter : v.iter h = some args)
    (request : Request) (m : Vde2Mgmt n) :
    (postCommand h cmd_dict request m).2 =
      match readArgs request args ⟨.str cmd, true, .empty⟩ m with
      | (.ret v, m) => if v.cmd_is_correct then (send v.send_command m).2 else m
      | (.raise _ _, m) => m
      | (.block, m) => m := by
  unfold postCommand cmdOf argsOf
  simp only [Act.bind_apply, hcmd, hargs, hiter, Act.pure_apply, Act.ofOption_apply]
  rcases readArgs request args ⟨.str cmd, true, .empty⟩ m with ⟨o, m'⟩
  cases o with
  | ret w =>
    by_cases hw : w.cmd_is_correct = true
    · simp only [hw, if_true, Act.bind_apply]
      rcases send w.send_command m' with ⟨o, m''⟩
      cases o with
      | ret r => cases r <;> rfl
      | raise e l => rfl
      | block => rfl
    · simp only [hw]; rfl
  | raise e l => rfl
  | block => rfl

/-- A record without a command or arguments to read sends nothing. -/
theorem postCommand_unread {h : Heap} {cmd_dict : Ref} (request : Request) (m : Vde2Mgmt n)
    (hno : ∀ cmd v args, h.get cmd_dict "cmd".toList = some (.str cmd) →
      h.get cmd_dict "args".toList = some v → v.iter h ≠ some args) :
    (postCommand h cmd_dict request m).2 = m := by
  unfold postCommand cmdOf argsOf
  simp only [Act.bind_apply]
  cases hcmd : h.get cmd_dict "cmd".toList with
  | none => rfl
  | some c =>
    cases c with
    | int _ => rfl
    | list _ => rfl
    | dict _ => rfl
    | str cmd =>
      cases hargs : h.get cmd_dict "args".toList with
      | none => rfl
      | some v =>
        cases hiter : v.iter h with
        | none => simp [Act.ofOption_apply, hiter]
        | some args => exact absurd hiter (hno cmd v args hcmd hargs)

/-- **A POST is one call of `send` with the posted line**, or leaves everything as it
was. -/
theorem postCommand_cases (h : Heap) (cmd_dict : Ref) (request : Request) (m : Vde2Mgmt n) :
    (∃ line, Posted h cmd_dict request.form line ∧
      (postCommand h cmd_dict request m).2 = (send line m).2) ∨
    ((∀ line, ¬ Posted h cmd_dict request.form line) ∧
      (postCommand h cmd_dict request m).2 = m) := by
  by_cases hread : ∃ cmd v args, h.get cmd_dict "cmd".toList = some (.str cmd) ∧
      h.get cmd_dict "args".toList = some v ∧ v.iter h = some args
  · obtain ⟨cmd, v, args, hcmd, hargs, hiter⟩ := hread
    have hpost := postCommand_state hcmd hargs hiter request m
    by_cases hc : Complete request.form args ∧ Extensible (.str cmd) (values request.form args)
    · refine Or.inl ⟨_, ⟨cmd, v, args, hcmd, hargs, hiter, hc.1, hc.2, rfl⟩, ?_⟩
      rw [hpost, readArgs_complete args ⟨.str cmd, true, .empty⟩ m hc.1 hc.2]
      rfl
    · refine Or.inr ⟨?_, ?_⟩
      · rintro line ⟨cmd', v', args', hcmd', hargs', hiter', hc', hx', -⟩
        obtain rfl : cmd = cmd' := Val.str.inj (Option.some.inj (hcmd.symm.trans hcmd'))
        obtain rfl : v = v' := Option.some.inj (hargs.symm.trans hargs')
        obtain rfl : args = args' := Option.some.inj (hiter.symm.trans hiter')
        exact hc ⟨hc', hx'⟩
      · -- the loop raises, or ends with a line that is not correct
        obtain ⟨hst, -⟩ := readArgs_state request args ⟨.str cmd, true, .empty⟩ m
        have hno := @readArgs_incomplete n request args ⟨.str cmd, true, .empty⟩
        rw [hpost]
        rcases hrun : readArgs request args ⟨.str cmd, true, .empty⟩ m with ⟨o, m'⟩
        rw [hrun] at hst
        cases o with
        | ret w =>
          have hw : w.cmd_is_correct = false := by
            by_contra hcorr
            exact hc (hno w m (by rw [hrun]) (by simpa using hcorr))
          simp only [hw]
          exact hst
        | raise e l => exact hst
        | block => exact hst
  · refine Or.inr ⟨?_, postCommand_unread request m fun cmd v args hcmd hargs hiter =>
      hread ⟨cmd, v, args, hcmd, hargs, hiter⟩⟩
    rintro line ⟨cmd, v, args, hcmd, hargs, hiter, -⟩
    exact hread ⟨cmd, v, args, hcmd, hargs, hiter⟩

theorem cmdOf_state (h : Heap) (cmd_dict : Ref) (line : ℕ) (m : Vde2Mgmt n) :
    (cmdOf h cmd_dict line m).2 = m := by
  unfold cmdOf
  rcases h.get cmd_dict "cmd".toList with _ | _ | _ | _ | _ <;> rfl

/-- The view of a command, behind the login. -/
def commandView (h : Heap) (cmd_dict : Ref) : View n := fun request => do
  let mgmt_response ← (if request.method = .post then postCommand h cmd_dict request
    else pure .empty)
  let cmd ← cmdOf h cmd_dict 69
  return .command cmd mgmt_response (← Act.get).SYS_INFO.terminalPrefix

theorem sendCommand_eq [Hashlib] (h : Heap) (cmd_dict : Ref) :
    sendCommand (n := n) h cmd_dict = requiresAuth (commandView h cmd_dict) := rfl

/-- What follows the command only reads the object. -/
theorem commandView_state (h : Heap) (cmd_dict : Ref) (request : Request) (m : Vde2Mgmt n) :
    (commandView h cmd_dict request m).2 =
      if request.method = .post then (postCommand h cmd_dict request m).2 else m := by
  unfold commandView
  rw [Act.bind_state fun a s => by
    rw [Act.bind_state fun _ _ => rfl]; exact cmdOf_state h cmd_dict 69 s]
  by_cases hpost : request.method = .post
  · rw [if_pos hpost, if_pos hpost]
  · rw [if_neg hpost, if_neg hpost]; rfl

end Vdetelweb
