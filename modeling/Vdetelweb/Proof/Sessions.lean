import Vdetelweb.Proof.Telnet

/-!
# A telnet session from its chunks

The server takes every chunk for a line: the first chunk with a word character is the
user name, the next such chunk the password, and the one after it a command
(`session_observed`). So two ways of cutting a stream make the same session exactly when
their ends of the user name and of the password are the same up to other characters, and
so are their commands (`sessions_agree_iff`).
-/

namespace Vdetelweb

open Vde2Mgmt

variable {n : ℕ}

/-- What a client can see of a session from outside: the credentials asked about, and the
commands passed on. -/
def observed (es : List Event) : List Event :=
  es.filter fun e => e matches .ask _ _ || e matches .call _

/-- The chunks from the first with a word character on. -/
def wordy (xs : List Bytes) : List Bytes := xs.dropWhile fun d => word d = []

/-- Would the session reach the prompt with these credentials? -/
def prompted [Hashlib] (m : Vde2Mgmt n) (u p : Bytes) : Bool :=
  accepts m.SYS_INFO.config u p && outcome {} m.socket.bytes m.socket.eof matches .ret _

/-- The command passed on: the next chunk, if it is one. -/
def nextCommand (xs : List Bytes) : List Event :=
  match xs with
  | f :: _ => if Telnet.forwarded f then [.call (.str f)] else []
  | [] => []

/-- **What a session does**, from its chunks. -/
def dialogue [Hashlib] (m : Vde2Mgmt n) (xs : List Bytes) : List Event :=
  match wordy xs with
  | [] => []
  | d :: rest => match wordy rest with
    | [] => []
    | e :: rest => .ask (word d) (word e) ::
      if prompted m (word d) (word e) then nextCommand rest else []

theorem word_of_wordy {xs : List Bytes} {d : Bytes} {rest : List Bytes} (h : wordy xs = d :: rest) :
    word d ≠ [] := by
  have hd := List.head?_dropWhile_not (fun d => decide (word d = [])) xs
  rw [show xs.dropWhile (fun d => decide (word d = [])) = d :: rest from h] at hd
  simpa using hd

theorem observed_append (es fs : List Event) : observed (es ++ fs) = observed es ++ observed fs :=
  List.filter_append ..

theorem prompted_iff [Hashlib] (m : Vde2Mgmt n) (u p : Bytes) :
    prompted m u p = true ↔ accepts m.SYS_INFO.config u p = true ∧ ∃ r, m.next = .ret r := by
  unfold prompted next
  rw [getResponse_out, Bool.and_eq_true]
  cases outcome {} m.socket.bytes m.socket.eof <;> simp

theorem observed_noted {e : Event} (he : observed [e] = []) (m : Vde2Mgmt n) :
    observed (m.noted e).log = observed m.log := by
  rw [noted, observed_append, he, List.append_nil]

/-! ## The loops -/

namespace Telnet

/-- The welcome message shows nothing, and is given if the reply to `showinfo` can be read. -/
theorem enterShell_observed (m : Vde2Mgmt n) : observed (enterShell m).2.log = observed m.log ∧
    ((∃ r, m.next = .ret r) → (enterShell m).1 = .ret .shell) ∧
    ((∀ r, m.next ≠ .ret r) → ∀ t, (enterShell m).1 ≠ .ret t) := by
  have hex : observed (m.exchanged "showinfo".toList).log = observed m.log := by
    unfold exchanged
    rw [observed_append, observed_append, List.append_assoc]
    cases m.next <;> exact List.append_nil _
  rw [enterShell_apply, welcome_apply]
  cases hn : m.next with
  | ret r =>
    refine ⟨?_, fun _ => rfl, fun h => absurd rfl (h r)⟩
    dsimp only
    rw [observed_noted rfl, observed_noted rfl, hex]
  | raise e l => exact ⟨hex, by rintro ⟨r, ⟨⟩⟩, fun _ _ => nofun⟩
  | block => exact ⟨hex, by rintro ⟨r, ⟨⟩⟩, fun _ _ => nofun⟩

/-- A pass of the command loop shows the command, and is the last one. -/
theorem shellLoop_observed (data : Bytes) (m : Vde2Mgmt n) :
    observed (shellLoop data m).2.log = observed m.log ++ nextCommand [data] ∧
      ∀ t, (shellLoop data m).1 ≠ .ret t := by
  have hsend : observed (send (.str data) m).2.log = observed m.log ++ [.call (.str data)] := by
    rw [send_log, observed_append, observed_append, str_strip, if_pos (PyStr.sendable_str _)]
    cases m.next <;> exact List.append_nil _
  rw [shellLoop_apply]
  by_cases hh : strip data = "__history".toList
  · rw [if_pos hh, nextCommand, forwarded_history hh]
    exact ⟨(List.append_nil _).symm, fun _ => nofun⟩
  · rw [if_neg hh, nextCommand]
    by_cases hf : forwarded data = true
    · rw [if_pos hf, if_pos hf]
      rcases hs : send (.str data) m with ⟨o, m'⟩
      rw [hs] at hsend
      cases o with
      | ret r =>
        cases r with
        | none => exact ⟨hsend, fun _ => nofun⟩
        | some r => exact ⟨(observed_noted rfl _).trans hsend, fun _ => nofun⟩
      | raise e l => exact ⟨hsend, fun _ => nofun⟩
      | block => exact ⟨hsend, fun _ => nofun⟩
    · rw [if_neg hf, if_neg hf]
      exact ⟨(List.append_nil _).symm, fun _ => nofun⟩

end Telnet

namespace Server

variable [Hashlib]

/-- A server that waits for no data does nothing with it. -/
theorem closed_run {t : Telnet} (ht : ∀ data, t.act (n := n) (.recv data) = none) (m : Vde2Mgmt n) :
    ∀ xs : List Bytes, (xs.map Input.recv).foldl step ⟨m, t⟩ = ⟨m, t⟩ := by
  intro xs
  induction xs with
  | nil => rfl
  | cons d xs ih =>
    rw [List.map_cons, List.foldl_cons]
    have : step (⟨m, t⟩ : Server n) (.recv d) = ⟨m, t⟩ := by simp only [step, ht]
    rw [this, ih]

/-- The loop that reads the user name. -/
theorem readUser_run (m : Vde2Mgmt n) : ∀ xs : List Bytes,
    (xs.map Input.recv).foldl step ⟨m, .readUser⟩ =
      match wordy xs with
      | [] => ⟨m, .readUser⟩
      | d :: rest => (rest.map Input.recv).foldl step
          ⟨m.noted (.tell "Password:".toList), .readPsw (word d)⟩ := by
  intro xs
  induction xs with
  | nil => rfl
  | cons d xs ih =>
    rw [List.map_cons, List.foldl_cons]
    have hstep : step (⟨m, .readUser⟩ : Server n) (.recv d) =
        ⟨(Telnet.readUserLoop d m).2, .after (Telnet.readUserLoop d m).1⟩ := rfl
    rw [hstep, Telnet.readUserLoop_apply]
    by_cases hd : word d = []
    · rw [if_pos hd, show wordy (d :: xs) = wordy xs by simp [wordy, hd]]
      exact ih
    · rw [if_neg hd, show wordy (d :: xs) = d :: xs by simp [wordy, hd]]
      rfl

/-- The loop that reads the password. -/
theorem readPsw_run (m : Vde2Mgmt n) (user : Bytes) : ∀ xs : List Bytes,
    (xs.map Input.recv).foldl step ⟨m, .readPsw user⟩ =
      match wordy xs with
      | [] => ⟨m, .readPsw user⟩
      | e :: rest => (rest.map Input.recv).foldl step
          ⟨(Telnet.readPswLoop user e m).2, .after (Telnet.readPswLoop user e m).1⟩ := by
  intro xs
  induction xs with
  | nil => rfl
  | cons e xs ih =>
    rw [List.map_cons, List.foldl_cons]
    have hstep : step (⟨m, .readPsw user⟩ : Server n) (.recv e) =
        ⟨(Telnet.readPswLoop user e m).2, .after (Telnet.readPswLoop user e m).1⟩ := rfl
    by_cases he : word e = []
    · rw [hstep, Telnet.readPswLoop_again user he,
        show wordy (e :: xs) = wordy xs by simp [wordy, he]]
      exact ih
    · rw [hstep, show wordy (e :: xs) = e :: xs by simp [wordy, he]]

/-- What waits for no data. -/
theorem act_after_of_not_ret {o : Out Telnet} (h : ∀ t, o ≠ .ret t) (data : Bytes) :
    (Telnet.after o).act (n := n) (.recv data) = none := by
  cases o with
  | ret t => exact absurd rfl (h t)
  | raise e l => rfl
  | block => rfl

/-- **The login**: what is observed, and where it leads. -/
theorem readPswLoop_observed (user : Bytes) {e : Bytes} (he : word e ≠ []) (m : Vde2Mgmt n) :
    observed (Telnet.readPswLoop user e m).2.log = observed m.log ++ [.ask user (word e)] ∧
    if prompted m user (word e) then Telnet.after (Telnet.readPswLoop user e m).1 = .shell
    else ∀ data, (Telnet.after (Telnet.readPswLoop user e m).1).act (n := n) (.recv data) = none := by
  have hask : observed (m.noted (.ask user (word e))).log = observed m.log ++ [.ask user (word e)] :=
    observed_append _ _
  rcases Telnet.readPswLoop_cases user he m with ⟨hu, hrun⟩ | ⟨-, hacc, hrun⟩ | ⟨-, hacc, hrun⟩
  · -- the comparison of the digests raises
    have hno : prompted m user (word e) = false := by
      rw [prompted, accepts_unset hu, Bool.false_and]
    rw [hrun, hno]
    exact ⟨hask, fun _ => rfl⟩
  · -- back in `accept`, where no data is waited for
    have hno : prompted m user (word e) = false := by rw [prompted, hacc, Bool.false_and]
    rw [hrun, hno]
    refine ⟨?_, fun _ => rfl⟩
    dsimp only
    rw [observed_noted rfl, observed_noted rfl, hask]
  · -- whether the prompt is reached depends on `showinfo`
    set m₁ := (m.noted (.ask user (word e))).noted (.auth user (word e) true) with hm₁
    have hlog : observed m₁.log = observed m.log ++ [.ask user (word e)] := by
      rw [hm₁, observed_noted rfl, hask]
    have hnext : m₁.next = m.next := rfl
    obtain ⟨hwel, hret, hnot⟩ := Telnet.enterShell_observed m₁
    rw [hnext] at hret hnot
    rw [hrun]
    refine ⟨hwel.trans hlog, ?_⟩
    by_cases hr : ∃ r, m.next = .ret r
    · rw [if_pos ((prompted_iff m user (word e)).2 ⟨hacc, hr⟩), hret hr]
      rfl
    · rw [if_neg fun h => hr ((prompted_iff m user (word e)).1 h).2]
      exact act_after_of_not_ret (hnot fun r h => hr ⟨r, h⟩)

/-- The loop that reads commands is left after one pass. -/
theorem shell_run_cons (m : Vde2Mgmt n) (f : Bytes) (xs : List Bytes) :
    ((f :: xs).map Input.recv).foldl step ⟨m, .shell⟩ =
      ⟨(Telnet.shellLoop f m).2, .after (Telnet.shellLoop f m).1⟩ := by
  obtain ⟨-, hnot⟩ := Telnet.shellLoop_observed f m
  rw [List.map_cons, List.foldl_cons]
  have hstep : step (⟨m, .shell⟩ : Server n) (.recv f) =
      ⟨(Telnet.shellLoop f m).2, .after (Telnet.shellLoop f m).1⟩ := rfl
  rw [hstep, closed_run (act_after_of_not_ret hnot)]

/-- No more than one command is observed. -/
theorem shell_run (m : Vde2Mgmt n) (xs : List Bytes) :
    observed ((xs.map Input.recv).foldl step ⟨m, .shell⟩).mgmt.log =
      observed m.log ++ nextCommand xs := by
  cases xs with
  | nil => exact (List.append_nil _).symm
  | cons f xs =>
    rw [shell_run_cons]
    exact (Telnet.shellLoop_observed f m).1

/-- **What is observed of a session.** -/
theorem session_observed (m : Vde2Mgmt n) (xs : List Bytes) :
    observed (session m xs).mgmt.log = observed m.log ++ dialogue m xs := by
  have hstart : session m xs = (xs.map Input.recv).foldl step
      ⟨m.noted (.tell "\nUsername:".toList), .readUser⟩ := rfl
  have h₁ : observed (m.noted (.tell "\nUsername:".toList)).log = observed m.log := observed_noted rfl m
  rw [hstart, readUser_run, dialogue]
  cases wordy xs with
  | nil => exact h₁.trans (List.append_nil _).symm
  | cons d rest =>
    have h₂ : observed ((m.noted (.tell "\nUsername:".toList)).noted
        (.tell "Password:".toList)).log = observed m.log := (observed_noted rfl _).trans h₁
    set m₂ := (m.noted (.tell "\nUsername:".toList)).noted (.tell "Password:".toList)
    dsimp only
    rw [readPsw_run]
    cases hw : wordy rest with
    | nil => exact h₂.trans (List.append_nil _).symm
    | cons e rest' =>
      obtain ⟨hlog, hwhere⟩ := readPswLoop_observed (word d) (word_of_wordy hw) m₂
      have hprompted : prompted m₂ (word d) (word e) = prompted m (word d) (word e) := rfl
      rw [hprompted] at hwhere
      dsimp only
      cases hp : prompted m (word d) (word e) with
      | true =>
        rw [hp, if_pos rfl] at hwhere
        rw [hwhere, shell_run, hlog, h₂]
        simp
      | false =>
        rw [hp] at hwhere
        rw [closed_run hwhere, hlog, h₂]
        simp

end Server

/-! ## Two ways of cutting a stream -/

/-- No word character stands between the two ends in one stream after which `s` and `t`
are left. -/
def NoWordBetween (s t : Bytes) : Prop :=
  ∀ d, s = d ++ t ∨ t = d ++ s → ∀ c ∈ d, isWord c = false

/-- What is left after the chunk that is taken for the user name, or the password. -/
def afterWord (xs : List Bytes) : List Bytes := (wordy xs).tail

/-- Does the session reach the prompt? -/
def reachesPrompt [Hashlib] (m : Vde2Mgmt n) (xs : List Bytes) : Bool :=
  match wordy xs with
  | [] => false
  | d :: rest => match wordy rest with
    | [] => false
    | e :: _ => prompted m (word d) (word e)

/-- **The condition on two ways of cutting a stream**: no word character stands between
the ends of the two user names, nor between those of the two passwords; and at the
prompt the next chunks are the same, or commands in neither. -/
structure SameLines [Hashlib] (m : Vde2Mgmt n) (xs ys : List Bytes) : Prop where
  user : NoWordBetween (afterWord xs).flatten (afterWord ys).flatten
  psw : NoWordBetween (afterWord (afterWord xs)).flatten (afterWord (afterWord ys)).flatten
  command : reachesPrompt m xs = true →
    nextCommand (afterWord (afterWord xs)) = nextCommand (afterWord (afterWord ys))

theorem word_append (s t : Bytes) : word (s ++ t) = word s ++ word t := List.filter_append ..

theorem word_eq_nil {s : Bytes} : word s = [] ↔ ∀ c ∈ s, isWord c = false := by
  simp [word]

/-- For two ends in one stream: the same word characters are left. -/
theorem noWordBetween_iff {b s t : Bytes} (hs : s <:+ b) (ht : t <:+ b) :
    NoWordBetween s t ↔ word s = word t := by
  constructor
  · intro h
    rcases List.suffix_or_suffix_of_suffix hs ht with ⟨d, rfl⟩ | ⟨d, rfl⟩
    · rw [word_append, word_eq_nil.2 (h d (Or.inr rfl)), List.nil_append]
    · rw [word_append, word_eq_nil.2 (h d (Or.inl rfl)), List.nil_append]
  · rintro h d (rfl | rfl)
    · rw [word_append] at h
      exact word_eq_nil.1 (List.append_left_eq_self.1 h)
    · rw [word_append] at h
      exact word_eq_nil.1 (List.append_left_eq_self.1 h.symm)

/-- The chunks before the first with a word character have none. -/
theorem word_flatten (xs : List Bytes) : word xs.flatten = word (wordy xs).flatten := by
  induction xs with
  | nil => rfl
  | cons d xs ih =>
    by_cases hd : word d = []
    · rw [show wordy (d :: xs) = wordy xs by simp [wordy, hd], List.flatten_cons, word_append, hd,
        List.nil_append, ih]
    · rw [show wordy (d :: xs) = d :: xs by simp [wordy, hd]]

theorem wordy_suffix (xs : List Bytes) : (wordy xs).flatten <:+ xs.flatten := by
  obtain ⟨t, ht⟩ : wordy xs <:+ xs := List.dropWhile_suffix _
  exact ⟨t.flatten, by rw [← List.flatten_append, ht]⟩

theorem afterWord_suffix (xs : List Bytes) : (afterWord xs).flatten <:+ xs.flatten := by
  refine List.IsSuffix.trans ?_ (wordy_suffix xs)
  unfold afterWord
  cases wordy xs with
  | nil => exact List.suffix_refl _
  | cons d rest => exact ⟨d, rfl⟩

theorem word_of_cons {xs : List Bytes} {d : Bytes} {rest : List Bytes} (h : wordy xs = d :: rest) :
    word xs.flatten = word d ++ word rest.flatten := by
  rw [word_flatten, h, List.flatten_cons, word_append]

theorem wordy_eq_nil_iff (xs : List Bytes) : wordy xs = [] ↔ word xs.flatten = [] := by
  constructor
  · intro h; rw [word_flatten, h]; rfl
  · intro h
    cases hw : wordy xs with
    | nil => rfl
    | cons d rest =>
      rw [word_of_cons hw, List.append_eq_nil_iff] at h
      exact absurd h.1 (word_of_wordy hw)

/-- In two cuts of streams with the same word characters, the first chunks that have some
are both there or not, and end alike exactly when they have the same. -/
theorem afterWord_iff {xs ys : List Bytes} (hw : word xs.flatten = word ys.flatten) {b : Bytes}
    (hx : xs.flatten <:+ b) (hy : ys.flatten <:+ b) :
    (wordy xs = [] ∧ wordy ys = [] ∧ NoWordBetween (afterWord xs).flatten (afterWord ys).flatten) ∨
    ∃ d xs' e ys', wordy xs = d :: xs' ∧ wordy ys = e :: ys' ∧
      word d ++ word xs'.flatten = word e ++ word ys'.flatten ∧
      (NoWordBetween (afterWord xs).flatten (afterWord ys).flatten ↔ word d = word e) := by
  have hiff := noWordBetween_iff ((afterWord_suffix xs).trans hx) ((afterWord_suffix ys).trans hy)
  cases hxs : wordy xs with
  | nil =>
    have hys : wordy ys = [] := (wordy_eq_nil_iff ys).2 (hw ▸ (wordy_eq_nil_iff xs).1 hxs)
    exact Or.inl ⟨rfl, hys, hiff.2 (by simp [afterWord, hxs, hys])⟩
  | cons d xs' =>
    cases hys : wordy ys with
    | nil =>
      have := (wordy_eq_nil_iff xs).2 (hw ▸ (wordy_eq_nil_iff ys).1 hys)
      rw [hxs] at this; cases this
    | cons e ys' =>
      rw [word_of_cons hxs, word_of_cons hys] at hw
      refine Or.inr ⟨d, xs', e, ys', rfl, rfl, hw, ?_⟩
      rw [hiff]
      simp only [afterWord, hxs, hys, List.tail_cons]
      constructor
      · intro h; rw [h] at hw; exact List.append_cancel_right hw
      · intro h; rw [h] at hw; exact List.append_cancel_left hw

/-- **The user names are the same** in dialogues that are: at least one of them goes on to ask. -/
theorem dialogue_user [Hashlib] {m : Vde2Mgmt n} {xs ys xs' ys' : List Bytes} {d d' : Bytes}
    (hxs : wordy xs = d :: xs') (hys : wordy ys = d' :: ys')
    (hword : word d ++ word xs'.flatten = word d' ++ word ys'.flatten)
    (heq : dialogue m xs = dialogue m ys) : word d = word d' := by
  simp only [dialogue, hxs, hys] at heq
  cases hxs' : wordy xs' with
  | nil =>
    cases hys' : wordy ys' with
    | nil =>
      rw [(wordy_eq_nil_iff xs').1 hxs', (wordy_eq_nil_iff ys').1 hys'] at hword
      simpa using hword
    | cons e' ys'' => rw [hxs', hys'] at heq; cases heq
  | cons e xs'' =>
    cases hys' : wordy ys' with
    | nil => rw [hxs', hys'] at heq; cases heq
    | cons e' ys'' =>
      rw [hxs', hys'] at heq
      exact (Event.ask.inj (List.cons.inj heq).1).1

/-- **Two ways of cutting a stream make the same dialogue** exactly under the condition. -/
theorem dialogue_eq_iff [Hashlib] (m : Vde2Mgmt n) {xs ys : List Bytes}
    (h : xs.flatten = ys.flatten) : dialogue m xs = dialogue m ys ↔ SameLines m xs ys := by
  have hsuf : ys.flatten <:+ xs.flatten := h ▸ List.suffix_refl _
  rcases afterWord_iff (congrArg word h) (List.suffix_refl _) hsuf with
    ⟨hxs, hys, huser⟩ | ⟨d, xs', d', ys', hxs, hys, hword, huser⟩
  · -- no user name in either
    have hrx : afterWord (afterWord xs) = [] := by rw [afterWord, afterWord, hxs]; rfl
    have hry : afterWord (afterWord ys) = [] := by rw [afterWord, afterWord, hys]; rfl
    refine ⟨fun _ => ⟨huser, ?_, ?_⟩, fun _ => ?_⟩
    · rw [hrx, hry]; exact (noWordBetween_iff (List.suffix_refl _) (List.suffix_refl _)).2 rfl
    · rw [hrx, hry]; exact fun _ => rfl
    · simp [dialogue, hxs, hys]
  have hax : afterWord xs = xs' := by simp [afterWord, hxs]
  have hay : afterWord ys = ys' := by simp [afterWord, hys]
  by_cases hd : word d = word d'
  · have hrest : word xs'.flatten = word ys'.flatten := by
      rw [hd] at hword; exact List.append_cancel_left hword
    have hsx : xs'.flatten <:+ xs.flatten := hax ▸ afterWord_suffix xs
    have hsy : ys'.flatten <:+ xs.flatten := (hay ▸ afterWord_suffix ys).trans hsuf
    rcases afterWord_iff hrest hsx hsy with
      ⟨hxs', hys', hpsw⟩ | ⟨e, xs'', e', ys'', hxs', hys', -, hpsw⟩
    · -- no password in either
      have hno : reachesPrompt m xs = false := by simp [reachesPrompt, hxs, hxs']
      refine ⟨fun _ => ⟨huser.2 hd, by rw [hax, hay]; exact hpsw, by simp [hno]⟩, fun _ => ?_⟩
      simp [dialogue, hxs, hys, hxs', hys']
    · have hax' : afterWord xs' = xs'' := by simp [afterWord, hxs']
      have hay' : afterWord ys' = ys'' := by simp [afterWord, hys']
      have hreach : reachesPrompt m xs = prompted m (word d) (word e) := by
        simp [reachesPrompt, hxs, hxs']
      have hdx : dialogue m xs = .ask (word d) (word e) ::
          if prompted m (word d) (word e) then nextCommand xs'' else [] := by
        simp only [dialogue, hxs, hxs']
      have hdy : dialogue m ys = .ask (word d) (word e') ::
          if prompted m (word d) (word e') then nextCommand ys'' else [] := by
        simp only [dialogue, hys, hys', hd]
      rw [hdx, hdy]
      constructor
      · intro heq
        obtain ⟨hask, hnext⟩ := List.cons.inj heq
        have he : word e = word e' := (Event.ask.inj hask).2
        refine ⟨huser.2 hd, by rw [hax, hay]; exact hpsw.2 he, fun hp => ?_⟩
        rw [hreach] at hp
        rw [← he, hp, if_pos rfl, if_pos rfl] at hnext
        rw [hax, hay, hax', hay', hnext]
      · rintro ⟨-, hpsw', hcommand⟩
        rw [hax, hay] at hpsw'
        have he : word e = word e' := hpsw.1 hpsw'
        rw [hreach, hax, hay, hax', hay'] at hcommand
        rw [← he]
        cases hp : prompted m (word d) (word e) with
        | false => rfl
        | true => rw [hcommand hp]
  · exact ⟨fun heq => absurd (dialogue_user hxs hys hword heq) hd, fun hs => absurd (huser.1 hs.user) hd⟩

/-- **Two ways of cutting a stream make the same session if and only if** the login ends
alike in both, and so does the command after it. -/
theorem sessions_agree_iff [Hashlib] (m : Vde2Mgmt n) (cs ds : List (Chunk 1024))
    (h : joined cs = joined ds) :
    observed (Server.session m (cs.map Subtype.val)).mgmt.log =
        observed (Server.session m (ds.map Subtype.val)).mgmt.log ↔
      SameLines m (cs.map Subtype.val) (ds.map Subtype.val) := by
  rw [Server.session_observed, Server.session_observed, List.append_cancel_left_eq]
  exact dialogue_eq_iff m h

/-- The password of `admin` is `secret`. The carriage return and the newline after the user
name come in one chunk with it or in two. -/
theorem sessions_agree_crlf :
    observed (@Server.session 1024 Server.secretDigest Server.secretMgmt
      ["admin\r\n".toList, "secret\r\n".toList]).mgmt.log =
    observed (@Server.session 1024 Server.secretDigest Server.secretMgmt
      ["admin\r".toList, "\n".toList, "secret\r\n".toList]).mgmt.log := by
  let _ := Server.secretDigest
  refine (sessions_agree_iff Server.secretMgmt
    [⟨"admin\r\n".toList, by decide⟩, ⟨"secret\r\n".toList, by decide⟩]
    [⟨"admin\r".toList, by decide⟩, ⟨"\n".toList, by decide⟩, ⟨"secret\r\n".toList, by decide⟩]
    (by decide)).2 ⟨?_, ?_, fun _ => rfl⟩
  · exact (noWordBetween_iff (b := "\nsecret\r\n".toList) ⟨"\n".toList, by decide⟩ ⟨[], by decide⟩).2
      (by decide)
  · exact (noWordBetween_iff (List.suffix_refl []) (List.suffix_refl [])).2 rfl

/-- The user name in two chunks: its first part is taken for the user name, the second for
the password. -/
theorem sessions_differ_in_name : ¬ ∀ [Hashlib] (m : Vde2Mgmt 1024) (cs ds : List (Chunk 1024)),
    joined cs = joined ds → observed (Server.session m (cs.map Subtype.val)).mgmt.log =
      observed (Server.session m (ds.map Subtype.val)).mgmt.log := by
  intro h
  let _ := Server.secretDigest
  have heq := h Server.secretMgmt
    [⟨"admin\r\n".toList, by decide⟩, ⟨"secret\r\n".toList, by decide⟩]
    [⟨"ad".toList, by decide⟩, ⟨"min\r\n".toList, by decide⟩, ⟨"secret\r\n".toList, by decide⟩]
    (by decide)
  rw [Server.session_observed, Server.session_observed, List.append_cancel_left_eq] at heq
  exact absurd (congrArg List.head? heq) (by decide)

end Vdetelweb
