import Vdetelweb.Proof.Forward
import Vdetelweb.Lib.Words

/-!
# The words of a posted line

The switch reads a command and its arguments by their positions, and `send_command` puts the
values of the form one after the other, without those that are empty. So the words of the
line are the command and the values in their positions exactly when every value is one word,
up to where all values are blank (`positioned_iff`).
-/

namespace Vdetelweb

open Vde2Mgmt Words

variable {n : ℕ}

/-- `s.split()`. -/
def PyStr.split (s : PyStr) : List (List Char) := Words.words (isSpace s.unicode) s.text

/-- What was entered for an argument. -/
def entered (form : Form) (i : Bytes) : List Char := (form i).getD []

/-- **In position**: the words of the line are the command and the values of the first
arguments, and those that come after them are optional. -/
def Positioned (cmd : Bytes) (args : List Bytes) (form : Form) (line : PyStr) : Prop :=
  ∃ k ≤ args.length, line.split = cmd :: (args.take k).map (entered form) ∧
    ∀ i ∈ args.drop k, isRequiredArg i = false

/-- **Tidy**: the command is one word, so are the values of the first arguments, and those
that come after them are optional and have nothing but blanks for a value. The blanks are
those of `unicode` if there is a value, which makes the line one. -/
def Tidy (cmd : Bytes) (args : List Bytes) (form : Form) : Prop :=
  let blank := isSpace (extend (.str cmd) (values form args)).unicode
  IsWord blank cmd ∧ ∃ k ≤ args.length, (∀ i ∈ args.take k, IsWord blank (entered form i)) ∧
    ∀ i ∈ args.drop k, isRequiredArg i = false ∧ ∀ c ∈ entered form i, blank c = true

/-- A request to a command route makes the server send the line. -/
def Sends [Hashlib] (h : Heap) (cmd_dict : Ref) (request : Request) (m : Vde2Mgmt n) (line : PyStr) : Prop :=
  .call line ∈ (sendCommand h cmd_dict request (unlogged m)).2.log ∧
    .write line.strip.text ∈ (sendCommand h cmd_dict request (unlogged m)).2.log

/-- A line that is sent is the posted one. -/
theorem Sends.posted [Hashlib] {h : Heap} {cmd_dict : Ref} {request : Request} {m : Vde2Mgmt n}
    {line : PyStr} (hs : Sends h cmd_dict request m line) : Posted h cmd_dict request.form line := by
  have hquiet : ∀ {es : List Event}, Quiet es → .call line ∉ es := by
    intro es hq hmem
    have := List.countP_eq_zero.1 hq.2.1 _ hmem
    simp at this
  obtain ⟨pre, post, hpre, hpost, ⟨cmd, hcmd, hlog⟩ | ⟨-, hlog⟩⟩ :=
    sendCommand_served h cmd_dict request m
  · have hcall := hs.1
    rw [hlog, List.mem_append, List.mem_append] at hcall
    rcases hcall with (hcall | hcall) | hcall
    · exact absurd hcall (hquiet hpre)
    · -- one call is recorded
      obtain rfl : line = cmd := by
        unfold sent at hcall
        rcases List.mem_cons.1 hcall with heq | hcall
        · exact Event.call.inj heq
        · split at hcall <;> simp at hcall
      exact hcmd.2.2
    · exact absurd hcall (hquiet hpost)
  · have hcall := hs.1
    rw [hlog, List.mem_append] at hcall
    exact absurd hcall (not_or.2 ⟨hquiet hpre, hquiet hpost⟩)

/-- The posted line is sent if it is ASCII and comes with accepted credentials. -/
theorem sends_posted [Hashlib] {h : Heap} {cmd_dict : Ref} {request : Request} {m : Vde2Mgmt n}
    {line : PyStr} (hline : (ClientInput.post h cmd_dict request).Forwards m line)
    (hsend : line.strip.sendable = true) : Sends h cmd_dict request m line := by
  obtain ⟨pre, post, -, -, ⟨cmd, hcmd, hlog⟩ | ⟨hno, -⟩⟩ := sendCommand_served h cmd_dict request m
  · obtain rfl := hcmd.unique hline
    unfold Sends
    rw [hlog]
    simp [sent, hsend]
  · exact absurd hline (hno line)

/-- The words of the values are those of all that was entered. -/
theorem values_words (p : Char → Bool) (form : Form) (args : List Bytes) :
    (values form args).flatMap (Words.words p) = (args.map (entered form)).flatMap (Words.words p) := by
  induction args with
  | nil => rfl
  | cons i args ih =>
    rw [List.map_cons, List.flatMap_cons, ← ih]
    cases hi : form i with
    | none => simp [values, entered, hi]
    | some value =>
      by_cases hv : value = []
      · subst hv
        rw [values_cons_empty hi]
        simp [entered, hi]
      · rw [values_cons_value hi hv, List.flatMap_cons]
        simp [entered, hi]

/-- **The line that is sent is in position if and only if the form is tidy.** -/
theorem positioned_iff [Hashlib] {h : Heap} {cmd_dict : Ref} {cmd : Bytes} {args : List Bytes}
    (hcmd : h.get cmd_dict "cmd".toList = some (.str cmd))
    (hargs : h.get cmd_dict "args".toList = some (.list args)) {request : Request} {m : Vde2Mgmt n}
    {line : PyStr} (hsent : Sends h cmd_dict request m line) :
    Positioned cmd args request.form line.strip ↔ Tidy cmd args request.form := by
  obtain ⟨cmd', v, args', hcmd', hv, hiter, -, -, rfl⟩ := hsent.posted
  obtain rfl : cmd = cmd' := Val.str.inj (Option.some.inj (hcmd.symm.trans hcmd'))
  obtain rfl : Val.list args = v := Option.some.inj (hargs.symm.trans hv)
  obtain rfl : args = args' := Option.some.inj hiter
  set line := extend (.str cmd) (values request.form args)
  have hblank : isSpace line.unicode ' ' = true := by cases line.unicode <;> rfl
  have hwords : line.strip.split = Words.words (isSpace line.unicode) cmd ++
      (args.map (entered request.form)).flatMap (Words.words (isSpace line.unicode)) := by
    unfold PyStr.split PyStr.strip
    rw [words_trim, ← values_words]
    exact words_flatMap hblank cmd _
  have hk : ∀ k, line.strip.split = cmd :: (args.take k).map (entered request.form) ↔
      IsWord (isSpace line.unicode) cmd ∧
        (∀ i ∈ args.take k, IsWord (isSpace line.unicode) (entered request.form i)) ∧
        ∀ i ∈ args.drop k, ∀ c ∈ entered request.form i, isSpace line.unicode c = true := by
    intro k
    rw [hwords, List.map_take, words_eq_take_iff, ← List.map_take, ← List.map_drop,
      List.forall_mem_map, List.forall_mem_map]
  constructor
  · rintro ⟨k, hle, hsplit, hopt⟩
    obtain ⟨hc, htake, hdrop⟩ := (hk k).1 hsplit
    exact ⟨hc, k, hle, htake, fun i hi => ⟨hopt i hi, hdrop i hi⟩⟩
  · rintro ⟨hc, k, hle, htake, hdrop⟩
    exact ⟨k, hle, (hk k).2 ⟨hc, htake, fun i hi => (hdrop i hi).2⟩, fun i hi => (hdrop i hi).1⟩

/-- A command with an optional argument before a required one. -/
def allowCommand : Record :=
  ⟨0, "port/allow".toList, ["[USER]".toList, "PORT".toList], "[USER] PORT".toList, [], []⟩

/-- A POST that gives the user and the port, with accepted credentials. -/
def allowRequest (user port : List Char) : Request where
  method := .post
  authorization := some ("admin".toList, "secret".toList)
  form i := if i = "[USER]".toList then some user else if i = "PORT".toList then some port else none

theorem allowRequest_forwards (user port : List Char) (hport : port ≠ []) :
    @ClientInput.Forwards 1024 Server.secretDigest Server.secretMgmt
      (.post (.load [allowCommand]) 0 (allowRequest user port))
      (extend (.str "port/allow".toList) (values (allowRequest user port).form allowCommand.args)) := by
  let _ := Server.secretDigest
  refine ⟨⟨_, _, rfl, by decide⟩, rfl, _, _, _, rfl, rfl, rfl, ?_, Or.inr (Or.inr (by decide)), rfl⟩
  intro i hi
  rcases List.mem_cons.1 hi with rfl | hi
  · exact ⟨user, rfl, fun h => absurd h (by decide)⟩
  · rw [List.mem_singleton.1 hi]
    exact ⟨port, rfl, fun _ => hport⟩

theorem positioned_allow :
    @Sends 1024 Server.secretDigest (.load [allowCommand]) 0 (allowRequest "root".toList "7".toList)
      Server.secretMgmt ⟨true, "port/allow root 7".toList⟩ ∧
    Positioned "port/allow".toList allowCommand.args (allowRequest "root".toList "7".toList).form
      (PyStr.mk true "port/allow root 7".toList).strip := by
  let _ := Server.secretDigest
  have hsent : Sends (.load [allowCommand]) 0 (allowRequest "root".toList "7".toList)
      Server.secretMgmt ⟨true, "port/allow root 7".toList⟩ :=
    sends_posted (allowRequest_forwards "root".toList "7".toList (by decide)) (by decide)
  refine ⟨hsent, (positioned_iff rfl rfl hsent).2 ⟨by decide, 2, by decide, by decide, by simp [allowCommand]⟩⟩

/-- Without the user the port takes his place. -/
theorem positioned_moved : ¬ ∀ [Hashlib] (h : Heap) (cmd_dict : Ref) (cmd : Bytes) (args : List Bytes)
    (request : Request) (m : Vde2Mgmt 1024) (line : PyStr),
    h.get cmd_dict "cmd".toList = some (.str cmd) → h.get cmd_dict "args".toList = some (.list args) →
    args.Nodup → (∀ i ∈ args, ∃ value, request.form i = some value ∧ '\n' ∉ value) →
    Sends h cmd_dict request m line → Positioned cmd args request.form line.strip := by
  intro h
  let _ := Server.secretDigest
  obtain ⟨k, hk, hsplit, -⟩ := h (.load [allowCommand]) 0 _ _ (allowRequest [] "7".toList)
    Server.secretMgmt ⟨true, "port/allow 7".toList⟩ rfl rfl (by decide) (by decide)
    (sends_posted (allowRequest_forwards [] "7".toList (by decide)) (by decide))
  have hwords : (PyStr.mk true "port/allow 7".toList).strip.split = ["port/allow".toList, "7".toList] := by
    decide
  rw [hwords] at hsplit
  have : k = 0 ∨ k = 1 ∨ k = 2 := by
    have : k ≤ 2 := hk
    omega
  rcases this with rfl | rfl | rfl <;> revert hsplit <;> decide

end Vdetelweb
