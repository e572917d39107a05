import Vdetelweb.Proof.Reply

/-!
# `get_response` on any stream

The bytes need not be replies. What a call returns as `raw` is the stream up to the first
line that the status test accepts (`getResponse_raw`), and the chunks do not matter
(`getResponse_cut`). A call raises exactly when a line that it reaches is too short for the
tests it is put to, and the lines before it are needed to tell for a blank one
(`getResponse_total_iff`).
-/

namespace Vdetelweb

open Lines

variable {n k : ℕ}

/-! ## The status test on any line -/

/-- **The status test accepts a line** that begins like a number of four digits. -/
theorem isStatus_true_iff {l : Bytes} : isStatus l = .ok true ↔ NumberLike l ∧ 4 ≤ l.length := by
  by_cases hl : l = []
  · subst hl
    exact ⟨fun h => (by cases h), fun h => absurd h.1 not_numberLike_nil⟩
  constructor
  · intro h
    refine ⟨?_, ?_⟩
    · by_contra hn
      rw [(isStatus_false_iff hl).2 hn] at h
      cases h
    · -- the last test looks at the fourth character
      have h3 : digitAt l 3 = .ok true := by
        unfold isStatus andThen at h
        split at h
        · split at h
          · split at h
            · exact h
            · exact absurd h (by assumption)
          · exact absurd h (by assumption)
        · exact absurd h (by assumption)
      obtain ⟨c, hc, -⟩ := digitAt_true_iff.1 h3
      have := (List.getElem?_eq_some_iff.1 hc).1
      omega
  · rintro ⟨⟨h0, h9, hdig⟩, hlen⟩
    have hd : ∀ i, i < 4 → digitAt l i = .ok true := by
      intro i hi
      refine digitAt_true_iff.2 ⟨l[i], List.getElem?_eq_getElem (by omega), hdig _ ?_⟩
      exact List.mem_take_iff_getElem.2 ⟨i, by omega, rfl⟩
    unfold isStatus
    rw [hd 1 (by omega), hd 2 (by omega), hd 3 (by omega), h0, h9]
    rfl

/-- **The status test raises** on a line that begins like a number and ends too early. -/
theorem isStatus_error_iff {l : Bytes} :
    (∃ e, isStatus l = .error e) ↔ NumberLike l ∧ l.length < 4 := by
  by_cases hl : l = []
  · subst hl
    exact ⟨fun ⟨_, h⟩ => (by cases h), fun h => absurd h.1 not_numberLike_nil⟩
  have hfalse := isStatus_false_iff hl
  have htrue := @isStatus_true_iff l
  rcases hst : isStatus l with e | (_ | _)
  · rw [hst] at hfalse htrue
    have hn : NumberLike l := by
      by_contra hn
      cases hfalse.2 hn
    refine ⟨fun _ => ⟨hn, ?_⟩, fun _ => ⟨e, rfl⟩⟩
    by_contra hlen
    cases htrue.2 ⟨hn, by omega⟩
  · exact ⟨fun ⟨_, h⟩ => (by cases h), fun h => absurd h.1 (hfalse.1 hst)⟩
  · have := (htrue.1 hst).2
    exact ⟨fun ⟨_, h⟩ => (by cases h), fun h => absurd h.2 (by omega)⟩

/-! ## What is returned as `raw` -/

/-- The stream up to and including the newline of the first line that the status test
accepts, or up to and including the last newline if there is no such line. -/
def RawOf (b raw : Bytes) : Prop :=
  ∃ ls rest, b = raw ++ rest ∧ raw = unlines '\n' ls ∧ (∀ l ∈ ls, '\n' ∉ l) ∧
    ((∃ pre l, ls = pre ++ [l] ∧ (∀ l ∈ pre, isStatus l ≠ .ok true) ∧ isStatus l = .ok true) ∨
      ((∀ l ∈ ls, isStatus l ≠ .ok true) ∧ '\n' ∉ rest))

/-- Lines that the loop goes on over are not accepted. -/
theorem foldlM_not_status {ls : List Bytes} {v v' : Locals} (h : ls.foldlM readLine v = .ok v') :
    ∀ l ∈ ls, isStatus l ≠ .ok true := by
  intro l hl hst
  obtain ⟨w, w', hw⟩ := foldlM_mem h l hl
  obtain ⟨-, -, hnum, -⟩ := readLine_ok hw
  exact hnum (isStatus_true_iff.1 hst).1

theorem outcome_raw {b : Bytes} {eof : Bool} {r : Response} (h : outcome {} b eof = .ret r) :
    RawOf b r.raw := by
  obtain ⟨t, ht, hb⟩ : ∃ t, '\n' ∉ t ∧ b = unlines '\n' (lines '\n' b) ++ t := exists_rest b
  have hbare : ∀ l ∈ lines '\n' b, '\n' ∉ l := lines_bare b
  unfold outcome at h
  split at h
  · -- the end of the file
    rename_i v hv
    split at h
    · cases h
      refine ⟨lines '\n' b, t, ?_, ?_, hbare, Or.inr ⟨foldlM_not_status hv, ht⟩⟩
      · rw [show v.response.raw = v.raw from rfl, (foldlM_raw hv).1]
        exact hb
      · rw [show v.response.raw = v.raw from rfl, (foldlM_raw hv).1]
        rfl
    · cases h
  · rename_i o ho
    subst h
    obtain ⟨pre, l, post, v, hls, hpre, hl⟩ := foldlM_error _ _ ho
    obtain ⟨hst, hraw, -⟩ := readLine_ret hl
    have hraw : r.raw = unlines '\n' (pre ++ [l]) := by
      rw [hraw, (foldlM_raw hpre).1]
      simp
    refine ⟨pre ++ [l], unlines '\n' post ++ t, ?_, hraw, fun x hx => hbare x ?_,
      Or.inl ⟨pre, l, rfl, foldlM_not_status hpre, hst⟩⟩
    · rw [hraw, ← List.append_assoc, ← unlines_append, List.append_assoc, List.singleton_append,
        ← hls]
      exact hb
    · rw [hls]
      rcases List.mem_append.1 hx with hx | hx
      · exact List.mem_append_left _ hx
      · rw [List.mem_singleton.1 hx]
        simp

/-- **What a call returns as `raw`.** -/
theorem getResponse_raw {s : Stream n} {r : Response} (h : (getResponse s).1 = .ret r) :
    RawOf s.bytes r.raw := by
  rw [getResponse_out] at h
  exact outcome_raw h

/-- No line makes the call wait. -/
theorem readLine_ne_block {v : Locals} {l : Bytes} : readLine v l ≠ .error .block := by
  intro h
  have hstep := readLine_step v l
  rw [h] at hstep
  cases hstep

/-- At the end of a file there is nothing to wait for. -/
theorem outcome_eof (v : Locals) (b : Bytes) : outcome v b true ≠ .block := by
  unfold outcome
  split
  · simp
  · rename_i o ho
    rintro rfl
    obtain ⟨-, l, -, w, -, -, hl⟩ := foldlM_error _ _ ho
    exact readLine_ne_block hl

/-- **The chunks do not matter**: a stream that is cut in two ways ends both calls in the
same way, and neither waits for ever. -/
theorem getResponse_cut (cs : List (Chunk n)) (ds : List (Chunk k)) (h : joined cs = joined ds) :
    (getResponse ⟨cs, true⟩).1 = (getResponse ⟨ds, true⟩).1 ∧ (getResponse ⟨cs, true⟩).1 ≠ .block ∧
      ∀ r, (getResponse ⟨cs, true⟩).1 = .ret r → RawOf (joined cs) r.raw := by
  refine ⟨?_, ?_, fun r hr => getResponse_raw hr⟩
  · rw [getResponse_out, getResponse_out]
    exact congrArg (outcome {} · true) h
  · rw [getResponse_out]
    exact outcome_eof _ _

/-- One chunk, and one byte at a time. -/
theorem getResponse_cut_bytes :
    (getResponse (⟨[⟨"0\n1".toList, by decide⟩], true⟩ : Stream 8)).1 =
      (getResponse (⟨[⟨['0'], by decide⟩, ⟨['\n'], by decide⟩, ⟨['1'], by decide⟩], true⟩ : Stream 1)).1 ∧
    (getResponse (⟨[⟨"0\n1".toList, by decide⟩], true⟩ : Stream 8)).1 ≠ .block ∧
    ∀ r, (getResponse (⟨[⟨"0\n1".toList, by decide⟩], true⟩ : Stream 8)).1 = .ret r →
      RawOf "0\n1".toList r.raw :=
  getResponse_cut [(⟨"0\n1".toList, by decide⟩ : Chunk 8)]
    [(⟨['0'], by decide⟩ : Chunk 1), ⟨['\n'], by decide⟩, ⟨['1'], by decide⟩] (by simp)

/-! ## When a call raises -/

/-- The last header line names the end marker `e`. -/
def Names (ls : List Bytes) (e : Bytes) : Prop :=
  ∃ pre h mid, ls = pre ++ h :: mid ∧ isHeader h = true ∧ (h.splitOn '\'')[1]? = some e ∧
    ∀ l ∈ mid, isHeader l = false

/-- The end marker has been read: a line that is the one named above it. -/
def Closed (ls : List Bytes) : Prop :=
  ∃ pre l post, ls = pre ++ l :: post ∧ l ≠ [] ∧ isHeader l = false ∧ Names pre l

/-- **No line that is reached is too short**: up to the first line that the status test
accepts, a header line has a quote, a line that begins like a number has four characters,
and after the end marker no line is blank. -/
def InRange (ls : List Bytes) : Prop :=
  ∀ pre l post, ls = pre ++ l :: post → (∀ x ∈ pre, isStatus x ≠ .ok true) →
    (isHeader l = true → '\'' ∈ l) ∧ ¬ (NumberLike l ∧ l.length < 4) ∧ (l = [] → ¬ Closed pre)

theorem names_concat {ls : List Bytes} {l e : Bytes} :
    Names (ls ++ [l]) e ↔
      isHeader l = true ∧ (l.splitOn '\'')[1]? = some e ∨ isHeader l = false ∧ Names ls e := by
  constructor
  · rintro ⟨pre, h, mid, heq, hh, he, hmid⟩
    rcases concat_eq_append_cons heq with ⟨-, rfl, -⟩ | ⟨mid, rfl, rfl⟩
    · exact Or.inl ⟨hh, he⟩
    · exact Or.inr ⟨hmid l (by simp), pre, h, mid, rfl, hh, he, fun y hy => hmid y (by simp [hy])⟩
  · rintro (⟨hh, he⟩ | ⟨hh, pre, h, mid, rfl, hh', he, hmid⟩)
    · exact ⟨ls, l, [], rfl, hh, he, nofun⟩
    · refine ⟨pre, h, mid ++ [l], by simp, hh', he, fun y hy => ?_⟩
      rcases List.mem_append.1 hy with hy | hy
      · exact hmid y hy
      · rw [List.mem_singleton.1 hy]
        exact hh

theorem closed_concat {ls : List Bytes} {l : Bytes} :
    Closed (ls ++ [l]) ↔ Closed ls ∨ l ≠ [] ∧ isHeader l = false ∧ Names ls l := by
  constructor
  · rintro ⟨pre, x, post, heq, hx, hh, hn⟩
    rcases concat_eq_append_cons heq with ⟨rfl, rfl, -⟩ | ⟨post, rfl, rfl⟩
    · exact Or.inr ⟨hx, hh, hn⟩
    · exact Or.inl ⟨pre, x, post, rfl, hx, hh, hn⟩
  · rintro (⟨pre, x, post, rfl, hx, hh, hn⟩ | ⟨hl, hh, hn⟩)
    · exact ⟨pre, x, post ++ [l], by simp, hx, hh, hn⟩
    · exact ⟨ls, l, [], rfl, hl, hh, hn⟩

/-- **What the variables remember** of the lines before. -/
structure Remembers (ls : List Bytes) (v : Locals) : Prop where
  end_char : ∀ e, v.end_char = some e ↔ Names ls e
  is_end : v.is_end = true ↔ Closed ls

theorem remembers_nil : Remembers [] {} where
  end_char e := ⟨nofun, fun ⟨pre, h, mid, heq, _⟩ => by simp at heq⟩
  is_end := ⟨nofun, fun ⟨pre, l, post, heq, _⟩ => by simp at heq⟩

/-- **One line.** -/
theorem Remembers.readLine {ls : List Bytes} {v v' : Locals} (hr : Remembers ls v) {l : Bytes}
    (h : Vdetelweb.readLine v l = .ok v') : Remembers (ls ++ [l]) v' := by
  have hstep := readLine_step v l
  rw [h] at hstep
  -- what the line adds to the lines before it
  have hnames : ∀ e, Names (ls ++ [l]) e ↔
      isHeader l = true ∧ (l.splitOn '\'')[1]? = some e ∨ isHeader l = false ∧ v.end_char = some e := by
    intro e
    rw [names_concat, ← hr.end_char]
  have hclosed : Closed (ls ++ [l]) ↔ v.is_end = true ∨ l ≠ [] ∧ isHeader l = false ∧ v.end_char = some l := by
    rw [closed_concat, ← hr.is_end, ← hr.end_char]
  cases hstep with
  | blank h0 =>
    subst h0
    exact ⟨fun e => by rw [hnames]; simp [isHeader], by rw [hclosed]; simp⟩
  | header hh he => exact ⟨fun e => by rw [hnames, he]; simp [hh], by rw [hclosed]; simp [hh]⟩
  | marker h0 hh hs hl => exact ⟨fun e => by rw [hnames]; simp [hh], by rw [hclosed]; simp [h0, hh, hl]⟩
  | after h0 hh hs hl => exact ⟨fun e => by rw [hnames]; simp [hh], by rw [hclosed]; simp [hl]⟩
  | data h0 hh hs hl => exact ⟨fun e => by rw [hnames]; simp [hh], by rw [hclosed]; simp [hl]⟩

/-- **All lines.** -/
theorem foldlM_remembers {ls : List Bytes} {v : Locals} (h : ls.foldlM readLine {} = .ok v) :
    Remembers ls v :=
  foldlM_inv (P := Remembers) (fun _ _ _ _ hr hl => hr.readLine hl) ls [] {} v remembers_nil h

theorem getElem_splitOn_iff (c : Char) (l : Bytes) : (l.splitOn c)[1]? = none ↔ c ∉ l := by
  constructor
  · intro h hc
    obtain ⟨a, b, rfl, ha⟩ := List.eq_append_cons_of_mem hc
    rw [List.splitOn_append_cons_self_of_not_mem ha, List.getElem?_cons_succ,
      ← List.head?_eq_getElem?] at h
    exact List.splitOn_ne_nil c b (List.head?_eq_none_iff.1 h)
  · intro hc
    rw [List.splitOn_eq_singleton hc]
    rfl

/-- **When a line makes the call raise.** -/
theorem readLine_raise_iff {v : Locals} {l : Bytes} : (∃ e i, readLine v l = .error (.raise e i)) ↔
    (isHeader l = true ∧ '\'' ∉ l) ∨ (NumberLike l ∧ l.length < 4) ∨ (l = [] ∧ v.is_end = true) := by
  constructor
  · rintro ⟨e, i, h⟩
    have hstep := readLine_step v l
    rw [h] at hstep
    cases hstep with
    | late h0 hend => exact Or.inr (Or.inr ⟨h0, hend⟩)
    | unquoted hh he => exact Or.inl ⟨hh, (getElem_splitOn_iff _ _).1 he⟩
    | short h0 hh hs => exact Or.inr (Or.inl (isStatus_error_iff.1 ⟨_, hs⟩))
  · unfold Vdetelweb.readLine
    rintro (⟨hh, hq⟩ | hn | ⟨rfl, hend⟩)
    · have h0 : l ≠ [] := fun h0 => by rw [h0] at hh; cases hh
      simp [h0, hh, (getElem_splitOn_iff _ _).2 hq]
    · have h0 : l ≠ [] := fun h0 => not_numberLike_nil (h0 ▸ hn.1)
      obtain ⟨i, hi⟩ := isStatus_error_iff.2 hn
      have hh : isHeader l = false := by simpa using fun hh => not_numberLike_header (l := l) hh hn.1
      simp [h0, hh, hi]
    · simp [hend]

/-- A line that is long enough for the tests, and is not accepted, is gone over. -/
theorem readLine_goes {v : Locals} {l : Bytes} (hnum : ¬ NumberLike l) (hquote : isHeader l = true → '\'' ∈ l)
    (hblank : l = [] → v.is_end = false) : ∃ v', readLine v l = .ok v' := by
  rcases hl : readLine v l with o | v'
  · exfalso
    cases o with
    | ret r => exact hnum (isStatus_true_iff.1 (readLine_ret hl).1).1
    | raise e i =>
      rcases readLine_raise_iff.1 ⟨e, i, hl⟩ with ⟨hh, hq⟩ | h | ⟨h0, hv⟩
      · exact hq (hquote hh)
      · exact hnum h.1
      · rw [hblank h0] at hv
        cases hv
    | block => exact readLine_ne_block hl
  · exact ⟨v', rfl⟩

/-- **A call never raises**, and returns if the stream ends, **if and only if no line that
it reaches is too short.** -/
theorem getResponse_total_iff (s : Stream n) :
    ((∀ e l, (getResponse s).1 ≠ .raise e l) ∧ (s.eof = true → ∃ r, (getResponse s).1 = .ret r)) ↔
      InRange (lines '\n' s.bytes) := by
  rw [getResponse_out]
  constructor
  · rintro ⟨hno, -⟩ pre l post hls hpre
    -- the loop goes on over the lines before `l`
    obtain ⟨v, hv⟩ : ∃ v, pre.foldlM readLine {} = .ok v := by
      rcases hrun : pre.foldlM readLine {} with o | v
      · obtain ⟨pre', l', post', w, rfl, hpre', hl'⟩ := foldlM_error _ _ hrun
        exfalso
        cases o with
        | ret r => exact hpre l' (by simp) (readLine_ret hl').1
        | raise e i =>
          refine hno e i ?_
          unfold outcome
          rw [hls, List.append_assoc, List.cons_append, foldlM_leaves hpre' hl']
        | block => exact readLine_ne_block hl'
      · exact ⟨v, rfl⟩
    have hr := foldlM_remembers hv
    have hraise : ¬ ∃ e i, readLine v l = .error (.raise e i) := by
      rintro ⟨e, i, hl⟩
      refine hno e i ?_
      unfold outcome
      rw [hls, foldlM_leaves hv hl]
    rw [readLine_raise_iff, not_or, not_or, hr.is_end] at hraise
    exact ⟨fun hh => by_contra fun hq => hraise.1 ⟨hh, hq⟩, hraise.2.1, fun h0 hc => hraise.2.2 ⟨h0, hc⟩⟩
  · intro hin
    have hno : ∀ e i, outcome {} s.bytes s.eof ≠ .raise e i := by
      intro e i h
      unfold outcome at h
      split at h
      · split at h <;> cases h
      · rename_i o ho
        subst h
        obtain ⟨pre, l, post, v, hls, hpre, hl⟩ := foldlM_error _ _ ho
        obtain ⟨hh, hn, h0⟩ := hin pre l post hls (foldlM_not_status hpre)
        rcases readLine_raise_iff.1 ⟨e, i, hl⟩ with ⟨h, hq⟩ | h | ⟨rfl, hv⟩
        · exact hq (hh h)
        · exact hn h
        · exact h0 rfl ((foldlM_remembers hpre).is_end.1 hv)
    refine ⟨hno, fun heof => ?_⟩
    rw [heof] at hno ⊢
    cases ho : outcome {} s.bytes true with
    | ret r => exact ⟨r, rfl⟩
    | raise e i => exact absurd ho (hno e i)
    | block => exact absurd ho (outcome_eof _ _)

/-- A blank line after the end marker. -/
theorem getResponse_blank : ¬ ∀ s : Stream 1024,
    (∀ e l, (getResponse s).1 ≠ .raise e l) ∧ (s.eof = true → ∃ r, (getResponse s).1 = .ret r) := by
  intro h
  obtain ⟨hno, -⟩ := h ⟨[⟨"0000 DATA END WITH '.'\n.\n\n1000 Success\n".toList, by decide, by decide⟩], false⟩
  refine hno .indexError 21 ?_
  rw [getResponse_out]
  decide

/-! ## What is collected as text -/

/-- The line, which comes after `pre`, is put into the text. -/
def Kept (pre : List Bytes) (l : Bytes) : Prop :=
  isHeader l = false ∧ ¬ Closed pre ∧ (l = [] ∨ ¬ Names pre l)

open Classical in
/-- The lines that are put into the text, of those after `pre`. -/
noncomputable def kept : List Bytes → List Bytes → List Bytes
  | _, [] => []
  | pre, l :: ls => (if Kept pre l then [l] else []) ++ kept (pre ++ [l]) ls

theorem kept_append (pre ls ks : List Bytes) : kept pre (ls ++ ks) = kept pre ls ++ kept (pre ++ ls) ks := by
  induction ls generalizing pre with
  | nil => simp [kept]
  | cons l ls ih => simp [kept, ih]

theorem kept_sublist (pre ls : List Bytes) : (kept pre ls).Sublist ls := by
  induction ls generalizing pre with
  | nil => exact .slnil
  | cons l ls ih =>
    unfold kept
    split
    · exact (ih _).cons_cons l
    · exact (ih _).cons l

open Classical in
/-- **One line.** -/
theorem Remembers.text {pre : List Bytes} {v v' : Locals} (hr : Remembers pre v) {l : Bytes}
    (h : Vdetelweb.readLine v l = .ok v') :
    v'.text = v.text ++ unlines '\n' (if Kept pre l then [l] else []) := by
  have hkept : Kept pre l ↔ isHeader l = false ∧ v.is_end = false ∧ (l = [] ∨ v.end_char ≠ some l) := by
    rw [Kept, ← hr.is_end, ← hr.end_char, Bool.not_eq_true]
  have hstep := readLine_step v l
  rw [h] at hstep
  cases hstep with
  | blank h0 hend =>
    subst h0
    rw [if_pos (hkept.2 ⟨rfl, hend, Or.inl rfl⟩)]
    simp
  | header hh he =>
    rw [if_neg fun hk => by rw [(hkept.1 hk).1] at hh; cases hh]
    simp
  | marker h0 hh hs hl =>
    rw [if_neg fun hk => (hkept.1 hk).2.2.resolve_left h0 hl]
    simp
  | after h0 hh hs hl hend =>
    rw [if_neg fun hk => by rw [(hkept.1 hk).2.1] at hend; cases hend]
    simp
  | data h0 hh hs hl hend =>
    rw [if_pos (hkept.2 ⟨hh, hend, Or.inr hl⟩)]
    simp

/-- **All lines.** -/
theorem foldlM_kept {ls : List Bytes} : ∀ {pre : List Bytes} {v v' : Locals}, Remembers pre v →
    ls.foldlM readLine v = .ok v' → v'.text = v.text ++ unlines '\n' (kept pre ls) := by
  induction ls with
  | nil => rintro pre v v' - h; cases h; simp [kept]
  | cons l ls ih =>
    intro pre v v' hr h
    cases hl : readLine v l with
    | error o => rw [List.foldlM_cons, hl] at h; cases h
    | ok w =>
      rw [foldlM_cons_ok hl] at h
      rw [ih (hr.readLine hl) h, hr.text hl, List.append_assoc, ← unlines_append]
      rfl

end Vdetelweb
