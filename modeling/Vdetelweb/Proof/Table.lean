import Vdetelweb.Proof.Mgmt
import Vdetelweb.Proof.Stream
import Vdetelweb.Proof.Successive
import Vdetelweb.Spec.Cell
import Vdetelweb.Spec.Table

/-!
# `list_commands` on a help table

`get_response` hands on the lines that it puts into the text, and the loop of
`list_commands` cuts them at the columns of the header (`listCommands_table`). So the
records are those of the table exactly when the rows of the commands are all put into the
text, and nothing else is that has no section mark (`recovers_iff`).
-/

namespace Vdetelweb

open Lines Vde2Mgmt

variable {n : ℕ}

/-! ## The rows of a text -/

/-- The lines that are taken for rows of commands. -/
def rowLines (ls : List Bytes) : List Bytes := ls.filter fun i => 0 < i.length ∧ find sectionMark i = none

/-- The record that is made of a line. -/
def lineRecord (c0 c1 c2 : ℕ) (index : ℕ) (i : Bytes) : Record where
  index := index
  cmd := strip (slice i c0 c1)
  args := words (strip (slice i c1 c2))
  text_args := strip (slice i c1 c2)
  help := strip (i.drop c2)
  text := i

theorem scanLine_start {v : Scan} (hv : v.start = true) (ls : List Bytes) :
    ls.foldl scanLine v = { v with help_line := v.help_line ++ rowLines ls } := by
  induction ls generalizing v with
  | nil => simp [rowLines]
  | cons i ls ih =>
    have hi : scanLine v i = { v with help_line := v.help_line ++ rowLines [i] } := by
      unfold scanLine rowLines
      rw [if_pos hv, show "====".toList = sectionMark from rfl]
      by_cases h : 0 < i.length ∧ find sectionMark i = none
      · rw [if_pos h, List.filter_cons_of_pos (by simpa using h), List.filter_nil]
      · rw [if_neg h, List.filter_cons_of_neg (by simpa using h), List.filter_nil, List.append_nil]
    have hcons : rowLines (i :: ls) = rowLines [i] ++ rowLines ls := by
      unfold rowLines
      rw [← List.filter_append, List.singleton_append]
    rw [List.foldl_cons, hi, ih (by exact hv), hcons, List.append_assoc]

/-- The header does not read as a rule, or the row that the rule then makes is skipped. -/
def HelpTable.Ruled (t : HelpTable) : Prop := find ruleMark t.header = none ∨ find sectionMark t.rule ≠ none

/-- **The loop over the lines of a table.** -/
theorem scan_table {t : HelpTable} (ht : t.Ruled) (ls : List Bytes) :
    ∃ cs, (t.header :: t.rule :: ls).foldl scanLine {} =
      { start := true, help_line := rowLines ls, column_index := t.c0 :: t.c1 :: t.c2 :: cs } := by
  obtain ⟨h0, h1, h2⟩ := t.titles
  have hheader : scanLine {} t.header =
      { start := (find ruleMark t.header).isSome, column_index := [t.c0, t.c1, t.c2] } := by
    unfold scanLine
    rw [h0, h1, h2]
    rfl
  obtain ⟨cs, hrule⟩ : ∃ cs, scanLine (scanLine {} t.header) t.rule =
      { start := true, column_index := t.c0 :: t.c1 :: t.c2 :: cs } := by
    rw [hheader]
    cases hr : (find ruleMark t.header).isSome with
    | false =>
      have hd : (find "------------".toList t.rule).isSome = true := Option.isSome_iff_ne_none.2 t.rule_rule
      unfold scanLine
      rw [if_neg (by simp), hd]
      -- what the rule adds comes after the three columns
      exact ⟨(find "COMMAND PATH".toList t.rule).toList ++ (find "SYNTAX".toList t.rule).toList ++
        (find "HELP".toList t.rule).toList, by simp only [List.append_assoc, List.cons_append, List.nil_append]⟩
    | true =>
      have hs : rowLines [t.rule] = [] := by
        have := ht.resolve_left fun h => by rw [h] at hr; cases hr
        unfold rowLines
        rw [List.filter_cons_of_neg (by simp [this]), List.filter_nil]
      have := scanLine_start (v := { start := true, column_index := [t.c0, t.c1, t.c2] }) rfl [t.rule]
      rw [hs] at this
      exact ⟨[], this⟩
  refine ⟨cs, ?_⟩
  rw [List.foldl_cons, List.foldl_cons, hrule, scanLine_start rfl]
  rfl

theorem addRows_apply (c0 c1 c2 : ℕ) (cs : List ℕ) : ∀ (ls : List Bytes) (k : ℕ) (m : Vde2Mgmt n),
    addRows (c0 :: c1 :: c2 :: cs) k ls m = (.ret (), { m with
      HELP_COMMANDS := m.HELP_COMMANDS ++ ls.mapIdx fun index => lineRecord c0 c1 c2 (k + index) }) := by
  intro ls
  induction ls with
  | nil => intro k m; simp [addRows]
  | cons i ls ih =>
    intro k m
    have hrow : row (c0 :: c1 :: c2 :: cs) k i m = (.ret (lineRecord c0 c1 c2 k i), m) := rfl
    unfold addRows
    simp only [Act.bind_apply, hrow, Act.modify_apply, ih]
    simp [List.mapIdx_cons, Nat.add_assoc, Nat.add_comm 1]

/-- **`list_commands`**, when the text that it gets begins with a header and a rule. -/
theorem listCommands_table {m : Vde2Mgmt n} {s : Stream n} {r : Response} {t : HelpTable} (ht : t.Ruled)
    {ls : List Bytes} (hls : ∀ l ∈ ls, '\n' ∉ l) (htext : r.text = unlines '\n' (t.header :: t.rule :: ls))
    (hget : getResponse m.socket = (.ret r, s)) : ∃ m',
    listCommands m = (.ret ((rowLines ls).mapIdx (lineRecord t.c0 t.c1 t.c2)), m') ∧
      m'.HELP_COMMANDS = (rowLines ls).mapIdx (lineRecord t.c0 t.c1 t.c2) ∧ m'.socket = s := by
  have hlines : ∀ l ∈ t.header :: t.rule :: ls, '\n' ∉ l :=
    List.forall_mem_cons.2 ⟨t.bare.1, List.forall_mem_cons.2 ⟨t.bare.2, hls⟩⟩
  have hrows : rowLines (ls ++ [[]]) = rowLines ls := by simp [rowLines]
  obtain ⟨cs, hscan⟩ := scan_table ht (ls ++ [[]])
  set m₁ : Vde2Mgmt n := { m with HELP_COMMANDS := [] } with hm₁
  have hnext : m₁.next = .ret r := by rw [Vde2Mgmt.next, hm₁, hget]
  have hex : exchange (.str "help".toList) 55 m₁ = (.ret r, m₁.exchanged "help".toList) := by
    rw [exchange_apply, if_pos (show (PyStr.str _).sendable = true from rfl), hnext]
    rfl
  have hsplit : r.text.splitOn '\n' = t.header :: t.rule :: (ls ++ [[]]) := by
    rw [htext, splitOn_unlines hlines]
    rfl
  unfold listCommands
  simp only [Act.bind_apply, Act.modify_apply, ← hm₁, Act.attempt_apply, hex, Effect.Out.swallow,
    hsplit, hscan, hrows, addRows_apply, Act.get_apply, Act.pure_apply, Nat.zero_add]
  refine ⟨_, rfl, ?_, ?_⟩
  · simp [exchanged, hm₁]
  · simp [exchanged, hm₁, hget]

theorem row_state (column_index : List ℕ) (k : ℕ) (i : Bytes) (m : Vde2Mgmt n) :
    (row column_index k i m).2 = m := by
  unfold row
  split <;> rfl

theorem addRows_socket (column_index : List ℕ) : ∀ (ls : List Bytes) (k : ℕ) (m : Vde2Mgmt n),
    (addRows column_index k ls m).2.socket = m.socket := by
  intro ls
  induction ls with
  | nil => intro k m; rfl
  | cons i ls ih =>
    intro k m
    have hstate := row_state column_index k i m
    unfold addRows
    rw [Act.bind_apply]
    rcases hrow : row column_index k i m with ⟨o, m'⟩
    rw [hrow] at hstate
    subst hstate
    cases o with
    | ret r => exact ih (k + 1) _
    | raise e l => rfl
    | block => rfl

/-- **What a call takes from the socket** is what `get_response` takes, and it waits if that
does. -/
theorem listCommands_socket (m : Vde2Mgmt n) :
    (listCommands m).2.socket = (getResponse m.socket).2 ∧
      ((getResponse m.socket).1 = .block → (listCommands m).1 = .block) := by
  set m₁ : Vde2Mgmt n := { m with HELP_COMMANDS := [] } with hm₁
  have hex : exchange (.str "help".toList) 55 m₁ = ((getResponse m.socket).1, m₁.exchanged "help".toList) := by
    rw [exchange_apply, if_pos (show (PyStr.str _).sendable = true from rfl)]
    rfl
  have htail : ∀ (column_index : List ℕ) (ls : List Bytes),
      ((addRows column_index 0 ls >>= fun _ => do return (← Act.get).HELP_COMMANDS)
        (m₁.exchanged "help".toList)).2.socket = (getResponse m.socket).2 := by
    intro column_index ls
    rw [Act.bind_state fun _ _ => rfl, addRows_socket]
    rfl
  unfold listCommands
  rw [Act.bind_apply, Act.modify_apply, ← hm₁]
  dsimp only
  rw [Act.bind_apply, Act.attempt_apply, hex]
  cases hout : (getResponse m.socket).1 with
  | ret r => exact ⟨htail _ _, fun h => by cases h⟩
  | raise e l => exact ⟨htail _ _, fun h => by cases h⟩
  | block => exact ⟨rfl, fun _ => rfl⟩

/-! ## The rows of a table -/

variable {c0 c1 c2 : ℕ}

theorem CommandRow.text_ne (r : CommandRow c0 c1 c2) : r.text ≠ [] := by
  obtain ⟨c, t, h, -⟩ := r.letter
  rw [CommandRow.text, h]
  simp

theorem CommandRow.rowLines_text (r : CommandRow c0 c1 c2) : rowLines [r.text] = [r.text] := by
  have h : 0 < r.text.length ∧ find sectionMark r.text = none :=
    ⟨List.length_pos_iff.2 r.text_ne, r.unmarked⟩
  unfold rowLines
  rw [List.filter_cons_of_pos (by simpa using h), List.filter_nil]

theorem SectionRow.rowLines_text (s : SectionRow) : rowLines [s.text] = [] := by
  unfold rowLines
  rw [List.filter_cons_of_neg (by simp [s.marked]), List.filter_nil]

/-- **The record of a row** is what is made of its line. -/
theorem CommandRow.record_eq (h : c0 < c1 ∧ c1 < c2) (r : CommandRow c0 c1 c2) (k : ℕ) :
    r.record k = lineRecord c0 c1 c2 k r.text := by
  obtain ⟨hpath, husage, hhelp⟩ := r.cells ⟨h.1.le, h.2.le⟩
  unfold CommandRow.record lineRecord
  rw [hpath, husage, hhelp, words_eq]
  unfold strip
  rw [Words.words_trim]

/-- The lines can be told from their records. -/
theorem mapIdx_lineRecord_inj {ls ks : List Bytes} (h : ls.mapIdx (lineRecord c0 c1 c2) =
    ks.mapIdx (lineRecord c0 c1 c2)) : ls = ks := by
  have htext : ∀ ls : List Bytes, (ls.mapIdx (lineRecord c0 c1 c2)).map Record.text = ls := by
    intro ls
    apply List.ext_getElem?
    intro i
    rw [List.getElem?_map, List.getElem?_mapIdx]
    cases ls[i]? <;> rfl
  rw [← htext ls, h, htext]

theorem HelpTable.records_eq (t : HelpTable) :
    t.records = (t.commands.map CommandRow.text).mapIdx (lineRecord t.c0 t.c1 t.c2) := by
  unfold HelpTable.records
  apply List.ext_getElem?
  intro i
  rw [List.getElem?_mapIdx, List.getElem?_mapIdx, List.getElem?_map]
  cases t.commands[i]? with
  | none => rfl
  | some r => exact congrArg some (r.record_eq t.columns i)

/-! ## Which rows are put into the text -/

theorem rowLines_append (ls ks : List Bytes) : rowLines (ls ++ ks) = rowLines ls ++ rowLines ks :=
  List.filter_append ..

theorem rowLines_rows (rows : List (TableRow c0 c1 c2)) : rowLines (rows.map TableRow.text) =
    (rows.filterMap TableRow.command?).map CommandRow.text := by
  induction rows with
  | nil => rfl
  | cons row rows ih =>
    rw [List.map_cons, ← List.singleton_append, rowLines_append, ih]
    cases row with
    | command r => rw [TableRow.text, r.rowLines_text]; rfl
    | menu s => rw [TableRow.text, s.rowLines_text]; rfl

theorem kept_cons (pre : List Bytes) (l : Bytes) (ls : List Bytes) :
    kept pre (l :: ls) = kept pre [l] ++ kept (pre ++ [l]) ls :=
  kept_append pre [l] ls

theorem kept_singleton {pre : List Bytes} {l : Bytes} (h : Kept pre l) : kept pre [l] = [l] := by
  simp [kept, h]

theorem kept_singleton_not {pre : List Bytes} {l : Bytes} (h : ¬ Kept pre l) : kept pre [l] = [] := by
  simp [kept, h]

/-- **The rows that are found are those of the commands** exactly when these are all put into
the text. -/
theorem rowLines_kept_iff (rows : List (TableRow c0 c1 c2)) (pre : List Bytes) :
    rowLines (kept pre (rows.map TableRow.text)) =
        (rows.filterMap TableRow.command?).map CommandRow.text ↔
      ∀ above row below, rows = above ++ row :: below → ∀ r ∈ row.command?,
        Kept (pre ++ above.map TableRow.text) r.text := by
  induction rows generalizing pre with
  | nil => simp [kept, rowLines]
  | cons row rows ih =>
    have hih := ih (pre ++ [row.text])
    simp only [List.append_assoc, List.singleton_append] at hih
    rw [forall_cut_cons (P := fun above row => ∀ r ∈ row.command?,
        Kept (pre ++ above.map TableRow.text) r.text),
      List.map_cons, kept_cons, rowLines_append]
    simp only [List.map_nil, List.append_nil, List.map_cons, ← hih]
    cases row with
    | menu s =>
      have hs : rowLines (kept pre [s.text]) = [] := by
        have := (kept_sublist pre [s.text]).filter fun i => 0 < i.length ∧ find sectionMark i = none
        rw [show List.filter _ [s.text] = [] from s.rowLines_text] at this
        exact List.sublist_nil.1 this
      have hmenu : (TableRow.menu s :: rows).filterMap TableRow.command? =
          rows.filterMap TableRow.command? := rfl
      rw [hmenu]
      simp [TableRow.text, TableRow.command?, hs]
    | command r =>
      have hcommand : (TableRow.command r :: rows).filterMap TableRow.command? =
          r :: rows.filterMap TableRow.command? := rfl
      rw [hcommand, List.map_cons]
      by_cases hr : Kept pre r.text
      · simp [TableRow.text, TableRow.command?, kept_singleton hr, r.rowLines_text, hr]
      · -- one of the rows is missing, and no other can stand for it
        have hle : (rowLines (kept (pre ++ [r.text]) (rows.map TableRow.text))).length ≤
            ((rows.filterMap TableRow.command?).map CommandRow.text).length := by
          rw [← rowLines_rows]
          exact ((kept_sublist _ _).filter _).length_le
        simp only [TableRow.text, TableRow.command?, kept_singleton_not hr, Option.mem_def,
          Option.some.injEq, forall_eq', hr, false_and, iff_false]
        intro h
        have := congrArg List.length h
        rw [show rowLines [] = [] from rfl, List.nil_append, List.length_cons] at this
        omega

/-! ## Help tables in a reply -/

/-- **The table is recovered**: in whatever chunks it comes, a call returns its records, keeps
no others, and takes no more than the reply. -/
def Recovers (T : HelpReply) : Prop :=
  ∀ (n : ℕ) (m : Vde2Mgmt n) (cs ds : List (Chunk n)) (eof : Bool), m.socket = ⟨cs ++ ds, eof⟩ →
    joined cs = T.reply.encode → ∃ m', listCommands m = (.ret T.table.records, m') ∧
      m'.HELP_COMMANDS = T.table.records ∧ m'.socket = ⟨ds, eof⟩

/-- The header and the rule read as what they are. -/
structure HelpTable.Titled (t : HelpTable) : Prop where
  header : isHeader t.header = false
  rule : isHeader t.rule = false
  ruled : t.Ruled

/-- **No line of the block reads as what it is not.** None reads as a number, one that reads
as the header of a block has a quote, no row of a command reads as an end marker or comes
after a line that does, and the end marker is not taken for a row. -/
structure Legible (T : HelpReply) : Prop where
  titled : T.table.Titled
  lines : ∀ l ∈ T.table.lines ++ [T.block.marker], ¬ NumberLike l ∧ (isHeader l = true → '\'' ∈ l)
  code : T.reply.code.head? ≠ some '9'
  rows : ∀ above row below, T.table.rows = above ++ row :: below → ∀ r ∈ row.command?,
    Kept ([T.block.header, T.table.header, T.table.rule] ++ above.map TableRow.text) r.text
  marker : Kept (T.block.header :: T.table.lines) T.block.marker → find sectionMark T.block.marker ≠ none

namespace HelpReply

variable (T : HelpReply)

theorem body_eq : T.reply.body = T.block.header :: (T.table.lines ++ [T.block.marker]) := by
  simp [Reply.body, T.carried.1, DataBlock.all, T.carried.2]

theorem line_ne {l : Bytes} (hl : l ∈ T.table.lines) : l ≠ T.block.marker := by
  rw [← T.carried.2] at hl
  exact (T.block.lines_bare l hl).2

theorem body_bare : ∀ l ∈ T.reply.body, '\n' ∉ l :=
  fun l hl => T.reply.lines_bare l (List.mem_append_left _ hl)

/-- The lines of the table are not blank. -/
theorem table_ne : ∀ l ∈ T.table.lines, l ≠ [] := by
  obtain ⟨h0, -, -⟩ := T.table.titles
  rintro _ hl rfl
  rcases List.mem_cons.1 hl with h | hl
  · have hnone : find "COMMAND PATH".toList [] = none := by decide
    rw [← h, hnone] at h0
    cases h0
  · rcases List.mem_cons.1 hl with h | hl
    · exact T.table.rule_rule (by rw [← h]; decide)
    · obtain ⟨row, -, hrow⟩ := List.mem_map.1 hl
      cases row with
      | command r => exact r.text_ne hrow
      | menu s => exact s.marked (by rw [show s.text = [] from hrow]; decide)

theorem names_block {e : Bytes} : Names [T.block.header] e ↔ e = T.block.marker := by
  rw [← List.nil_append [T.block.header], names_concat, splitOn_header]
  simp [isHeader_header, eq_comm]

theorem not_closed_block : ¬ Closed [T.block.header] := by
  rw [← List.nil_append [T.block.header], closed_concat, isHeader_header]
  rintro (⟨pre, l, post, h, -⟩ | ⟨-, h, -⟩)
  · simp at h
  · cases h

/-- As long as there is no other header and no end marker, the block is open and closed by
its own. -/
theorem names_plain {ls : List Bytes} (h : ∀ l ∈ ls, isHeader l = false ∧ l ≠ T.block.marker) :
    (∀ e, Names (T.block.header :: ls) e ↔ e = T.block.marker) ∧ ¬ Closed (T.block.header :: ls) := by
  induction ls using List.reverseRecOn with
  | nil => exact ⟨fun _ => T.names_block, T.not_closed_block⟩
  | append_singleton ls l ih =>
    obtain ⟨hnames, hclosed⟩ := ih fun x hx => h x (List.mem_append_left _ hx)
    obtain ⟨hh, hne⟩ := h l (by simp)
    rw [← List.cons_append]
    refine ⟨fun e => ?_, ?_⟩
    · rw [names_concat, hnames, hh]
      simp
    · rw [closed_concat, hnames]
      rintro (hc | ⟨-, -, hl⟩)
      · exact hclosed hc
      · exact hne hl

theorem kept_plain (ls : List Bytes) (h : ∀ l ∈ ls, isHeader l = false ∧ l ≠ T.block.marker) {l : Bytes}
    (hh : isHeader l = false) (hne : l ≠ T.block.marker) : Kept (T.block.header :: ls) l := by
  obtain ⟨hnames, hclosed⟩ := T.names_plain h
  exact ⟨hh, hclosed, Or.inr fun hn => hne ((hnames l).1 hn)⟩

variable {T}

/-- A titled header and its rule are put into the text. -/
theorem kept_titles (h : T.table.Titled) : Kept [T.block.header] T.table.header ∧
    Kept [T.block.header, T.table.header] T.table.rule := by
  have hheader : T.table.header ≠ T.block.marker := T.line_ne (by simp [HelpTable.lines])
  have hrule : T.table.rule ≠ T.block.marker := T.line_ne (by simp [HelpTable.lines])
  refine ⟨T.kept_plain [] (by simp) h.header hheader, T.kept_plain [T.table.header] ?_ h.rule hrule⟩
  intro l hl
  rw [List.mem_singleton.1 hl]
  exact ⟨h.header, hheader⟩

variable (T)

/-- What is put into the text after the header and the rule. -/
noncomputable def below : List Bytes :=
  kept [T.block.header, T.table.header, T.table.rule] (T.table.rows.map TableRow.text) ++
    kept (T.block.header :: T.table.lines) [T.block.marker]

variable {T}

theorem kept_body (h : T.table.Titled) : kept [] T.reply.body = T.table.header :: T.table.rule :: T.below := by
  obtain ⟨hheader, hrule⟩ := kept_titles h
  have hblock : ¬ Kept [] T.block.header := by
    rintro ⟨hh, -⟩
    rw [isHeader_header] at hh
    cases hh
  rw [body_eq, HelpTable.lines, kept_cons, kept_singleton_not hblock, List.cons_append, kept_cons]
  simp only [List.nil_append, List.cons_append, kept_singleton hheader]
  rw [kept_cons]
  simp only [List.nil_append, List.cons_append, kept_singleton hrule, kept_append]
  rfl

theorem below_bare : ∀ l ∈ T.below, '\n' ∉ l := by
  intro l hl
  refine T.body_bare l ?_
  rw [body_eq, HelpTable.lines]
  rcases List.mem_append.1 hl with hl | hl
  · have := (kept_sublist _ _).subset hl
    simp [this]
  · have := (kept_sublist _ _).subset hl
    simp [List.mem_singleton.1 this]

/-- **The rows that are found below the rule** are those of the commands. -/
theorem rowLines_below_iff : rowLines T.below = T.table.commands.map CommandRow.text ↔
    (∀ above row below, T.table.rows = above ++ row :: below → ∀ r ∈ row.command?,
      Kept ([T.block.header, T.table.header, T.table.rule] ++ above.map TableRow.text) r.text) ∧
    (Kept (T.block.header :: T.table.lines) T.block.marker → find sectionMark T.block.marker ≠ none) := by
  rw [← rowLines_kept_iff, below, rowLines_append]
  set ls := rowLines (kept [T.block.header, T.table.header, T.table.rule] (T.table.rows.map TableRow.text))
  by_cases hm : Kept (T.block.header :: T.table.lines) T.block.marker
  · rw [kept_singleton hm]
    by_cases hmark : find sectionMark T.block.marker = none
    · -- the marker is taken for a row, and it is none
      have hrow : rowLines [T.block.marker] = [T.block.marker] := by
        have hpos := List.length_pos_iff.2 T.block.marker_ne
        unfold rowLines
        rw [List.filter_cons_of_pos (by simp [hpos, hmark]), List.filter_nil]
      have hmem : T.block.marker ∉ T.table.commands.map CommandRow.text := by
        intro hmem
        rw [HelpTable.commands, ← rowLines_rows] at hmem
        refine T.line_ne (l := T.block.marker) ?_ rfl
        exact List.mem_cons_of_mem _ (List.mem_cons_of_mem _ (List.mem_filter.1 hmem).1)
      simp only [hm, hmark, ne_eq, not_true_eq_false, imp_false, and_false, iff_false]
      intro h
      exact hmem (by rw [← h, hrow]; simp)
    · have hrow : rowLines [T.block.marker] = [] := by
        unfold rowLines
        rw [List.filter_cons_of_neg (by simp [hmark]), List.filter_nil]
      simp [hrow, hmark, HelpTable.commands]
  · rw [kept_singleton_not hm, show rowLines [] = [] from rfl]
    simp [hm, HelpTable.commands]

/-- **What a call makes of the table**, once the reply has been read. -/
theorem listCommands_kept (h : T.table.Titled) {m : Vde2Mgmt n} {s : Stream n} {r : Response}
    (htext : r.text = unlines '\n' (kept [] T.reply.body)) (hget : getResponse m.socket = (.ret r, s)) :
    ∃ m', listCommands m = (.ret ((rowLines T.below).mapIdx (lineRecord T.table.c0 T.table.c1 T.table.c2)), m') ∧
      m'.HELP_COMMANDS = (rowLines T.below).mapIdx (lineRecord T.table.c0 T.table.c1 T.table.c2) ∧
      m'.socket = s := by
  rw [kept_body h] at htext
  exact listCommands_table h.ruled below_bare htext hget

end HelpReply

/-! ## When a table is recovered -/

/-- Lines none of which is blank or too short are gone over. -/
theorem foldlM_goes {ls : List Bytes}
    (h : ∀ l ∈ ls, l ≠ [] ∧ ¬ NumberLike l ∧ (isHeader l = true → '\'' ∈ l)) (v : Locals) :
    ∃ v', ls.foldlM readLine v = .ok v' := by
  induction ls generalizing v with
  | nil => exact ⟨v, rfl⟩
  | cons l ls ih =>
    obtain ⟨hne, hnum, hquote⟩ := h l List.mem_cons_self
    obtain ⟨w, hw⟩ := readLine_goes (v := v) hnum hquote (fun h0 => absurd h0 hne)
    rw [foldlM_cons_ok hw]
    exact ih (fun x hx => h x (List.mem_cons_of_mem _ hx)) w

/-- A legible table is recovered. -/
theorem Legible.recovers {T : HelpReply} (h : Legible T) : Recovers T := by
  intro n m cs ds eof hsock hcs
  have hbody : ∀ l ∈ T.reply.body, l ≠ [] ∧ ¬ NumberLike l ∧ (isHeader l = true → '\'' ∈ l) := by
    intro l hl
    rw [T.body_eq] at hl
    rcases List.mem_cons.1 hl with rfl | hl
    · -- the header of the block
      refine ⟨by simp [DataBlock.header], ?_, fun _ => by simp [DataBlock.header]⟩
      have := (readLine_ok (readLine_header {} T.block)).2.2.1
      exact this
    · refine ⟨?_, h.lines l hl⟩
      rcases List.mem_append.1 hl with hl | hl
      · exact T.table_ne l hl
      · rw [List.mem_singleton.1 hl]
        exact T.block.marker_ne
  obtain ⟨v, hv⟩ := foldlM_goes hbody {}
  have htext := foldlM_kept remembers_nil hv
  have hget : getResponse ⟨cs ++ ds, eof⟩ = _ :=
    getResponse_message T.reply.lines_bare hv (readLine_status h.code v) hcs
  rw [← hsock] at hget
  obtain ⟨m', hlist, hhelp, hs⟩ := T.listCommands_kept h.titled (by rw [htext]; rfl) hget
  rw [HelpReply.rowLines_below_iff.2 ⟨h.rows, h.marker⟩, ← HelpTable.records_eq] at hlist hhelp
  exact ⟨m', hlist, hhelp, hs⟩

/-- A table that a readable reply carries is legible. -/
theorem legible_of_readable {T : HelpReply} (h : T.reply.Readable) (hr : T.table.Ruled) : Legible T := by
  have hplain : ∀ l ∈ T.table.lines, isHeader l = false ∧ l ≠ T.block.marker := by
    intro l hl
    refine ⟨(h.1 _ T.carried.1 l ?_).1, T.line_ne hl⟩
    rw [T.carried.2]
    exact List.mem_cons_of_mem _ hl
  refine ⟨⟨(hplain _ ?_).1, (hplain _ ?_).1, hr⟩, fun l hl => ?_, h.2, ?_, fun hk => ?_⟩
  · simp [HelpTable.lines]
  · simp [HelpTable.lines]
  · obtain ⟨hh, hnum⟩ : isHeader l = false ∧ ¬ NumberLike l := by
      refine h.1 _ T.carried.1 l ?_
      rw [T.carried.2]
      rcases List.mem_append.1 hl with hl | hl
      · exact List.mem_cons_of_mem _ hl
      · rw [List.mem_singleton.1 hl]
        exact List.mem_cons_self
    exact ⟨hnum, fun hh' => by rw [hh] at hh'; cases hh'⟩
  · intro above row below hrows r hr
    have hmem : ∀ l ∈ (above ++ row :: below).map TableRow.text, l ∈ T.table.lines := by
      intro l hl
      rw [← hrows] at hl
      exact List.mem_cons_of_mem _ (List.mem_cons_of_mem _ hl)
    obtain rfl : row = .command r := by
      cases row with
      | command r' => rw [Option.some.inj hr]
      | menu s => cases hr
    have hr' := hplain r.text (hmem _ (by simp [TableRow.text]))
    refine T.kept_plain (T.table.header :: T.table.rule :: above.map TableRow.text) ?_ hr'.1 hr'.2
    intro l hl
    refine hplain l ?_
    rcases List.mem_cons.1 hl with rfl | hl
    · simp [HelpTable.lines]
    · rcases List.mem_cons.1 hl with rfl | hl
      · simp [HelpTable.lines]
      · exact hmem l (by rw [List.map_append]; exact List.mem_append_left _ hl)
  · -- the end marker is the one that the block names
    obtain ⟨-, -, h0 | hn⟩ := hk
    · exact absurd h0 T.block.marker_ne
    · exact absurd (((T.names_plain hplain).1 _).2 rfl) hn

/-- The bytes one by one. -/
def ones (b : Bytes) : List (Chunk 1) := b.map fun c => ⟨[c], by simp, by simp⟩

@[simp] theorem joined_ones (b : Bytes) : joined (ones b) = b := by
  induction b with
  | nil => rfl
  | cons c b ih => rw [ones, List.map_cons, joined_cons, ← ones, ih]; rfl

/-- The call that recovers a table leaves nothing in the socket, and has not waited. -/
theorem Recovers.leaves {T : HelpReply} (h : Recovers T) {m : Vde2Mgmt 1}
    (hm : m.socket = ⟨ones T.reply.encode, false⟩) :
    (getResponse m.socket).2 = ⟨[], false⟩ ∧ (getResponse m.socket).1 ≠ .block := by
  obtain ⟨m', hlist, -, hsock⟩ :=
    h 1 m (ones T.reply.encode) [] false (by rw [hm, List.append_nil]) (joined_ones _)
  obtain ⟨hrest, hblock⟩ := listCommands_socket m
  rw [hlist] at hrest hblock
  exact ⟨hrest.symm.trans hsock, fun hout => by cases hblock hout⟩

/-- No line of the body has ended that call. -/
theorem Recovers.runs {T : HelpReply} (h : Recovers T) {m : Vde2Mgmt 1}
    (hm : m.socket = ⟨ones T.reply.encode, false⟩) : ∃ v, T.reply.body.foldlM readLine {} = .ok v := by
  rcases hrun : T.reply.body.foldlM readLine {} with o | v
  · -- what comes after the line that ends the call is left in the socket
    obtain ⟨pre, l, post, v, hbody, hpre, hl⟩ := foldlM_error _ _ hrun
    exfalso
    set rest := unlines '\n' (post ++ [T.reply.code ++ T.reply.message]) with hrest
    have hsplit : T.reply.encode = unlines '\n' (pre ++ [l]) ++ rest := by
      rw [Reply.encode, hbody, hrest, ← unlines_append]
      simp
    have hones : m.socket = ⟨ones (unlines '\n' (pre ++ [l])) ++ ones rest, false⟩ := by
      rw [hm, hsplit, ones, List.map_append]
      rfl
    have hbare : ∀ x ∈ pre ++ [l], '\n' ∉ x := by
      intro x hx
      refine T.body_bare x ?_
      rw [hbody]
      rcases List.mem_append.1 hx with hx | hx
      · exact List.mem_append_left _ hx
      · rw [List.mem_singleton.1 hx]
        simp
    have hget := (congrArg getResponse hones).trans (getResponse_message hbare hpre hl (joined_ones _))
    have hleft := (h.leaves hm).1
    rw [hget] at hleft
    have hnil := congrArg joined (congrArg Stream.chunks hleft)
    rw [joined_ones, joined_nil, hrest, unlines_eq_nil] at hnil
    simp at hnil
  · exact ⟨v, rfl⟩

/-- A table that is recovered has been read to the status line. -/
theorem Recovers.reads {T : HelpReply} (h : Recovers T) {m : Vde2Mgmt 1}
    (hm : m.socket = ⟨ones T.reply.encode, false⟩) : ∃ v, T.reply.body.foldlM readLine {} = .ok v ∧
      isStatus (T.reply.code ++ T.reply.message) = .ok true := by
  obtain ⟨v, hv⟩ := h.runs hm
  refine ⟨v, hv, ?_⟩
  by_contra hst
  -- no line ends the call, and it waits
  have hl0 : T.reply.code ++ T.reply.message ≠ [] := by simp [T.reply.code_ne]
  have hnum : ¬ NumberLike (T.reply.code ++ T.reply.message) := by
    refine (isStatus_false_iff hl0).1 ?_
    rw [isStatus_code] at hst ⊢
    cases hd : decide (T.reply.code.head? ≠ some '9')
    · rfl
    · exact absurd (by rw [hd]) hst
  obtain ⟨v', hv'⟩ := readLine_goes (v := v) hnum (by rw [isHeader_code]; exact fun h => by cases h)
    (fun h0 => absurd h0 hl0)
  refine (h.leaves hm).2 ?_
  rw [getResponse_out, hm]
  unfold outcome Stream.bytes
  rw [joined_ones, Reply.encode, lines_unlines T.reply.lines_bare, foldlM_concat hv, hv']
  rfl

/-- **A legible table is recovered**, in whatever chunks it comes, and a titled one only if it
is legible. -/
theorem recovers_iff (T : HelpReply) :
    (Legible T → Recovers T) ∧ (T.table.Titled → Recovers T → Legible T) := by
  refine ⟨Legible.recovers, fun ht h => ?_⟩
  set m : Vde2Mgmt 1 := { socket := ⟨ones T.reply.encode, false⟩, SYS_INFO := ⟨[], ⟨[], none⟩⟩ } with hm
  obtain ⟨v, hv, hst⟩ := h.reads (m := m) rfl
  have hcode : T.reply.code.head? ≠ some '9' := by
    rw [isStatus_code] at hst
    exact of_decide_eq_true (Except.ok.inj hst)
  have htext := foldlM_kept remembers_nil hv
  have hget : getResponse (⟨ones T.reply.encode ++ [], false⟩ : Stream 1) = _ :=
    getResponse_message T.reply.lines_bare hv (readLine_status hcode v) (joined_ones _)
  rw [List.append_nil] at hget
  obtain ⟨m₁, hlist, -, -⟩ := T.listCommands_kept (m := m) ht (by rw [htext]; rfl) hget
  obtain ⟨m₂, hlist₂, -, -⟩ := h 1 m (ones T.reply.encode) [] false (by rw [hm, List.append_nil]) (joined_ones _)
  have hrecords := (congrArg Prod.fst hlist).symm.trans (congrArg Prod.fst hlist₂)
  rw [HelpTable.records_eq] at hrecords
  have hrows := mapIdx_lineRecord_inj (Effect.Out.ret.inj hrecords)
  obtain ⟨hcommands, hmarker⟩ := HelpReply.rowLines_below_iff.1 hrows
  refine ⟨ht, fun l hl => ?_, hcode, hcommands, hmarker⟩
  obtain ⟨w, w', hw⟩ := foldlM_mem hv l (by rw [T.body_eq]; exact List.mem_cons_of_mem _ hl)
  obtain ⟨-, -, hnum, hquote, -⟩ := readLine_ok hw
  refine ⟨hnum, fun hh => ?_⟩
  obtain ⟨e, he⟩ := hquote hh
  by_contra hq
  rw [(getElem_splitOn_iff _ _).2 hq] at he
  cases he

/-- A table with one command, below a section. -/
def menuTable (s : SectionRow) : HelpTable where
  c0 := 0
  c1 := 13
  c2 := 20
  columns := by decide
  header := "COMMAND PATH SYNTAX HELP".toList
  rule := "------------ ------ ----".toList
  rows := [.menu s, .command
    { margin := []
      path := "port/print   ".toList
      usage := "[PORT] ".toList
      help := "print the port".toList
      margin_fits := Or.inl rfl
      path_fits := Or.inl rfl
      usage_fits := Or.inl rfl
      letter := ⟨_, _, rfl, rfl⟩
      bare := by decide
      unmarked := by decide }]
  titles := by decide
  rule_rule := by decide
  bare := by decide

theorem menuTable_bare (s : SectionRow) : ∀ l ∈ (menuTable s).lines, '\n' ∉ l ∧ l ≠ ['.'] := by
  have hs : s.text ≠ ['.'] := fun h => s.marked (by rw [h]; decide)
  intro l hl
  simp only [HelpTable.lines, menuTable, List.mem_cons, List.map_cons, List.map_nil, TableRow.text,
    List.not_mem_nil, or_false] at hl
  rcases hl with rfl | rfl | rfl | rfl
  · decide
  · decide
  · exact ⟨s.bare, hs⟩
  · decide

theorem dot_bare : '\'' ∉ ['.'] ∧ '\n' ∉ ['.'] := by decide

/-- `menuTable` in a block that `.` closes. -/
def menuBlock (s : SectionRow) : DataBlock where
  marker := ['.']
  lines := (menuTable s).lines
  marker_ne := List.cons_ne_nil _ _
  marker_bare := dot_bare
  lines_bare := menuTable_bare s

/-- The table and its status line. -/
def menuReply (s : SectionRow) : HelpReply where
  table := menuTable s
  reply := { addressReply with block := some (menuBlock s) }
  block := menuBlock s
  carried := ⟨rfl, rfl⟩

/-- The section of the ports. -/
def portSection : SectionRow := ⟨"==== ports ====".toList, by decide, by decide⟩

/-- A section that begins with a number of four digits. -/
def numberSection : SectionRow := ⟨"1000 ====".toList, by decide, by decide⟩

theorem recovers_menu : Recovers (menuReply portSection) := by
  have hlines : ∀ l ∈ (menuBlock portSection).marker :: (menuBlock portSection).lines,
      isHeader l = false ∧ ¬ NumberLike l := by
    unfold menuBlock
    simp only [HelpTable.lines, menuTable, List.map_cons, List.map_nil, TableRow.text, List.forall_mem_cons]
    exact ⟨by decide, by decide, by decide, by decide, by decide, by simp⟩
  refine (recovers_iff _).1 (legible_of_readable ⟨?_, by decide⟩ (Or.inl (by decide)))
  rintro b ⟨⟩
  exact hlines

/-- A section that is taken for the status line. -/
theorem recovers_number : ¬ ∀ T : HelpReply, Recovers T := by
  intro h
  obtain ⟨v, hv, -⟩ := (h (menuReply numberSection)).reads (m := ⟨_, ⟨[], ⟨[], none⟩⟩, [], [], [], [], []⟩) rfl
  obtain ⟨w, w', hw⟩ := foldlM_mem hv numberSection.text (by
    rw [HelpReply.body_eq]
    simp [menuReply, menuTable, HelpTable.lines, TableRow.text])
  obtain ⟨-, -, hnum, -⟩ := readLine_ok hw
  exact hnum (by decide)

end Vdetelweb
