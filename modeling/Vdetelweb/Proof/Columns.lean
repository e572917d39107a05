import Vdetelweb.Proof.Table

/-!
# `list_commands` on any text

The columns are collected above the rule, and the rows below it are cut at the first three
of them in the `finally` clause. So a call survives a text exactly when there are three
columns, or no rows (`survives_iff`).
-/

namespace Vdetelweb

open Vde2Mgmt

variable {n : ℕ}

/-- The lines up to the first rule, and the rule. -/
def aboveRule (ls : List Bytes) : List Bytes :=
  ls.takeWhile (fun i => find ruleMark i = none) ++ (ls.dropWhile fun i => find ruleMark i = none).take 1

/-- The lines after the first rule. -/
def belowRule (ls : List Bytes) : List Bytes := (ls.dropWhile fun i => find ruleMark i = none).tail

/-- The columns that are found on a line. -/
def columns (i : Bytes) : List ℕ :=
  (find "COMMAND PATH".toList i).toList ++ (find "SYNTAX".toList i).toList ++
    (find "HELP".toList i).toList

/-- The rows of a help text. -/
def helpRows (text : Bytes) : List Bytes := rowLines (belowRule (text.splitOn '\n'))

/-- The columns of a help text. -/
def helpColumns (text : Bytes) : List ℕ := (aboveRule (text.splitOn '\n')).flatMap columns

/-- **The call survives the text**: it returns a record for each row, and these are what it
leaves in `HELP_COMMANDS`. -/
def Survives (m : Vde2Mgmt n) (text : Bytes) : Prop :=
  ∃ cs, (listCommands m).1 = .ret cs ∧ (listCommands m).2.HELP_COMMANDS = cs ∧
    cs.map Record.text = helpRows text

/-! ## The two phases -/

/-- A line above the rule, or the rule. -/
theorem scanLine_above {v : Scan} (hv : v.start = false) (i : Bytes) :
    scanLine v i = { v with
      column_index := v.column_index ++ columns i
      start := (find ruleMark i).isSome } := by
  rw [scanLine, hv, if_neg Bool.false_ne_true]
  simp only [columns, List.append_assoc]
  rfl

/-- **The loop over the lines**: columns above the rule, rows below it. -/
theorem scan_lines (ls : List Bytes) {v : Scan} (hv : v.start = false) :
    (ls.foldl scanLine v).column_index = v.column_index ++ (aboveRule ls).flatMap columns ∧
      (ls.foldl scanLine v).help_line = v.help_line ++ rowLines (belowRule ls) := by
  induction ls generalizing v with
  | nil => simp [aboveRule, belowRule, rowLines]
  | cons i ls ih =>
    rw [List.foldl_cons, scanLine_above hv]
    cases hi : find ruleMark i with
    | none =>
      obtain ⟨hcols, hrows⟩ := ih (v := { v with column_index := v.column_index ++ columns i }) hv
      have habove : aboveRule (i :: ls) = i :: aboveRule ls := by simp [aboveRule, hi]
      have hbelow : belowRule (i :: ls) = belowRule ls := by simp [belowRule, hi]
      rw [Option.isSome_none, ← hv, habove, hbelow, hcols, hrows, List.flatMap_cons, List.append_assoc]
      exact ⟨rfl, rfl⟩
    | some k =>
      have habove : aboveRule (i :: ls) = [i] := by simp [aboveRule, hi]
      have hbelow : belowRule (i :: ls) = ls := by simp [belowRule, hi]
      rw [scanLine_start rfl, habove, hbelow]
      simp

/-- **The `finally` clause** raises at the first row if a column is missing. -/
theorem addRows_short {cs : List ℕ} (hcs : cs.length < 3) (k : ℕ) (i : Bytes) (ls : List Bytes)
    (m : Vde2Mgmt n) : ∃ e l, addRows cs k (i :: ls) m = (.raise e l, m) := by
  have hrow : ∃ e l, row cs k i m = (.raise e l, m) := by
    match cs, hcs with
    | [], _ => exact ⟨_, _, rfl⟩
    | [_], _ => exact ⟨_, _, rfl⟩
    | [_, _], _ => exact ⟨_, _, rfl⟩
  obtain ⟨e, l, hrow⟩ := hrow
  exact ⟨e, l, by rw [addRows, Act.bind_apply, hrow]⟩

/-- What a call does with a text. -/
theorem listCommands_text {m : Vde2Mgmt n} {r : Response} (h : m.next = .ret r) :
    listCommands m = (addRows (helpColumns r.text) 0 (helpRows r.text) >>= fun _ =>
      do return (← Act.get).HELP_COMMANDS) (({ m with HELP_COMMANDS := [] }).exchanged "help".toList) := by
  obtain ⟨hcols, hrows⟩ := scan_lines (r.text.splitOn '\n') (v := {}) rfl
  unfold listCommands
  rw [Act.bind_apply, Act.modify_apply]
  dsimp only
  rw [Act.bind_apply, Act.attempt_apply, exchange_apply,
    if_pos (show (PyStr.str "help".toList).sendable = true from rfl),
    show ({ m with HELP_COMMANDS := [] } : Vde2Mgmt n).next = .ret r from h]
  simp only [Effect.Out.swallow, hcols, hrows, List.nil_append]
  rfl

/-- **A call survives a text if and only if** it has no rows, or at least three columns. -/
theorem survives_iff {m : Vde2Mgmt n} {r : Response} (h : m.next = .ret r) :
    Survives m r.text ↔ helpRows r.text = [] ∨ 3 ≤ (helpColumns r.text).length := by
  rw [Survives, listCommands_text h]
  set m₁ := ({ m with HELP_COMMANDS := [] } : Vde2Mgmt n).exchanged "help".toList with hm₁
  have hempty : m₁.HELP_COMMANDS = [] := rfl
  by_cases hcols : 3 ≤ (helpColumns r.text).length
  · -- every row becomes a record
    obtain ⟨c0, c1, c2, cs, hcs⟩ : ∃ c0 c1 c2 cs, helpColumns r.text = c0 :: c1 :: c2 :: cs := by
      match hc : helpColumns r.text, hcols with
      | c0 :: c1 :: c2 :: cs, _ => exact ⟨c0, c1, c2, cs, rfl⟩
    refine ⟨fun _ => Or.inr hcols, fun _ => ?_⟩
    rw [hcs, Act.bind_apply, addRows_apply, hempty]
    refine ⟨_, rfl, rfl, ?_⟩
    refine List.ext_getElem (by simp) fun k _ _ => ?_
    simp [lineRecord]
  · cases hrows : helpRows r.text with
    | nil => exact ⟨fun _ => Or.inl rfl, fun _ => ⟨[], rfl, hempty, rfl⟩⟩
    | cons i ls =>
      obtain ⟨e, l, hraise⟩ := addRows_short (not_le.1 hcols) 0 i ls m₁
      rw [Act.bind_apply, hraise]
      constructor
      · rintro ⟨cs, hcs, -⟩
        cases hcs
      · rintro (hnil | hlen)
        · cases hnil
        · exact absurd hlen hcols

/-- The switch answers with these bytes. -/
def answering (reply : Chunk 1024) : Vde2Mgmt 1024 where
  socket := ⟨[reply], false⟩
  SYS_INFO := ⟨"VDE2@host[/tmp/mgmt]: ".toList, ⟨"admin".toList, none⟩⟩

/-- A header, a rule and a command. -/
def titledHelp : Bytes := "COMMAND PATH SYNTAX HELP\n------------ ------ ----\nport/print\n".toList

/-- A rule and a command. -/
def untitledHelp : Bytes := "------------\nport/print\n".toList

/-- The text and the status line. -/
def helpReply (text : Bytes) (h : text.length ≤ 1000) : Chunk 1024 :=
  ⟨text ++ "1000 Success\n".toList, by simp, by simp; omega⟩

theorem helpReply_titled : (answering (helpReply titledHelp (by decide))).next =
    .ret ⟨titledHelp ++ "1000 Success\n".toList, titledHelp, "1000".toList, " Success".toList⟩ := by
  rw [next, getResponse_out]
  decide

theorem helpReply_untitled : (answering (helpReply untitledHelp (by decide))).next =
    .ret ⟨untitledHelp ++ "1000 Success\n".toList, untitledHelp, "1000".toList, " Success".toList⟩ := by
  rw [next, getResponse_out]
  decide

theorem survives_titled : Survives (answering (helpReply titledHelp (by decide))) titledHelp :=
  (survives_iff helpReply_titled).2 (Or.inr (by decide))

/-- A rule without a header: the `finally` clause raises, and there are no columns. -/
theorem survives_untitled : ¬ ∀ (m : Vde2Mgmt 1024) (r : Response), m.next = .ret r →
    Survives m r.text := by
  intro h
  obtain ⟨cs, hcs, -⟩ := h _ _ helpReply_untitled
  have hrows : helpRows untitledHelp = ["port/print".toList] := by decide
  have hcols : helpColumns untitledHelp = [] := by decide
  rw [listCommands_text helpReply_untitled, hrows, hcols, Act.bind_apply] at hcs
  cases hcs

end Vdetelweb
