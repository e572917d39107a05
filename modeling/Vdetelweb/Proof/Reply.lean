import Vdetelweb.Proof.Reader
import Vdetelweb.Spec.Reply

/-!
# Which replies `get_response` decodes

* `readLine_data`, `readLine_header`, `readLine_marker`, `readLine_status`: the
  cascade on the lines of a reply.
* `getResponse_reply`: a readable reply that fills its chunks is decoded, and nothing
  after it is taken.
* `getResponse_decode_iff`: **a reply is decoded, in whatever chunks it comes, if and
  only if it is readable.**
-/

namespace Vdetelweb

open Lines

variable {n : ℕ}

/-! ## The status test -/

theorem andThen_false_iff {a b : Except ℕ Bool} :
    andThen a b = .ok false ↔ a = .ok false ∨ (a = .ok true ∧ b = .ok false) := by
  unfold andThen
  rcases a with e | (_ | _) <;> simp

theorem digitAt_false_iff {l : Bytes} {i : ℕ} :
    digitAt l i = .ok false ↔ ∃ c, l[i]? = some c ∧ ¬ IsDigit c := by
  unfold digitAt
  cases l[i]? with
  | none => simp
  | some c => simp [IsDigit, -Char.not_le]

theorem digitAt_true_iff {l : Bytes} {i : ℕ} :
    digitAt l i = .ok true ↔ ∃ c, l[i]? = some c ∧ IsDigit c := by
  unfold digitAt
  cases l[i]? with
  | none => simp
  | some c => simp [IsDigit]

theorem strLe_cons {a b : Char} {s t : Bytes} :
    strLe (a :: s) (b :: t) = true ↔ a < b ∨ a = b ∧ strLe s t = true := by
  simp [strLe]

theorem head_digit {a : Char} {t : Bytes} (h1 : '0' < a) (h2 : strLe (a :: t) ['9'] = true) :
    IsDigit a := by
  refine ⟨Char.not_lt.1 (Char.lt_asymm h1), ?_⟩
  rcases strLe_cons.1 h2 with h2 | ⟨rfl, -⟩
  · exact Char.not_lt.1 (Char.lt_asymm h2)
  · exact Char.le_refl _

/-- **The status test passes a line by** exactly when the line is not number-like. -/
theorem isStatus_false_iff {l : Bytes} (hl : l ≠ []) : isStatus l = .ok false ↔ ¬ NumberLike l := by
  obtain ⟨a, t, rfl⟩ := List.exists_cons_of_ne_nil hl
  unfold isStatus NumberLike
  simp only [andThen_false_iff, digitAt_false_iff, digitAt_true_iff, Except.ok.injEq, List.head?_cons,
    Option.any_some]
  by_cases h1 : '0' < a
  · by_cases h2 : strLe (a :: t) ['9'] = true
    · have ha := head_digit h1 h2
      -- the three tests that follow look at as many characters as there are
      match t with
      | [] => simp [h1, h2, ha]
      | [b] => simp [h1, h2, ha]
      | [b, c] => simp [h1, h2, ha]; tauto
      | b :: c :: d :: t => simp [h1, h2, ha]; tauto
    · simp [h1, h2]
  · simp [h1]

/-- The status test on a status line: the whole-line comparison turns down the codes
that begin with 9. -/
theorem isStatus_code (r : Reply) :
    isStatus (r.code ++ r.message) = .ok (r.code.head? ≠ some '9') := by
  obtain ⟨a, b, c, d, hcode⟩ : ∃ a b c d, r.code = [a, b, c, d] := by
    have := r.code_length
    match r.code, this with
    | [a, b, c, d], _ => exact ⟨a, b, c, d, rfl⟩
  have hdig : ∀ x ∈ [a, b, c, d], IsDigit x := by rw [← hcode]; exact r.code_digits
  have ha0 : '0' < a := by
    have h0 : a ≠ '0' := by have := r.code_head; rw [hcode] at this; simpa using this
    have := (hdig a (by simp)).1
    by_contra h
    exact h0 (Char.le_antisymm (Char.not_lt.1 h) this)
  have hd : ∀ i x, [a, b, c, d][i]? = some x → digitAt (r.code ++ r.message) i = .ok true := by
    intro i x hx
    rw [digitAt_true_iff]
    refine ⟨x, ?_, hdig x (List.mem_of_getElem? hx)⟩
    rw [hcode, List.getElem?_append_left (List.getElem?_eq_some_iff.1 hx).1, hx]
  -- of the lines that begin with a digit only those that begin with 9 are above `9`
  have hle : strLe (r.code ++ r.message) ['9'] = decide (a ≠ '9') := by
    rw [hcode, List.cons_append, Bool.eq_iff_iff, strLe_cons, decide_eq_true_iff]
    constructor
    · rintro (h | ⟨-, h⟩)
      · exact Char.ne_of_lt h
      · simp [strLe] at h
    · intro h
      left
      by_contra hlt
      exact h (Char.le_antisymm (hdig a (by simp)).2 (Char.not_lt.1 hlt))
  unfold isStatus
  rw [hd 1 b rfl, hd 2 c rfl, hd 3 d rfl, hle, hcode]
  by_cases h9 : a = '9'
  · simp [andThen, h9]
  · simp [andThen, h9, ha0]

/-! ## The cascade on the lines of a reply -/

/-- A line that reads as neither a header nor a number. -/
def Plain (l : Bytes) : Prop := isHeader l = false ∧ ¬ NumberLike l

theorem not_numberLike_nil : ¬ NumberLike [] := fun h => nomatch h.1

theorem readLine_data {v : Locals} {l : Bytes} (hl : Plain l) (hv : v.end_char ≠ some l)
    (he : v.is_end = false) :
    readLine v l = .ok { v with raw := v.raw ++ l ++ ['\n'], text := v.text ++ l ++ ['\n'] } := by
  unfold readLine
  by_cases h0 : l = []
  · simp [h0, he]
  · simp [h0, hl.1, (isStatus_false_iff h0).2 hl.2, hv, he]

theorem readLine_marker {v : Locals} {l : Bytes} (hl : Plain l) (h0 : l ≠ [])
    (hv : v.end_char = some l) :
    readLine v l = .ok { v with raw := v.raw ++ l ++ ['\n'], is_end := true } := by
  unfold readLine
  simp [h0, hl.1, (isStatus_false_iff h0).2 hl.2, hv]

theorem isHeader_header (b : DataBlock) : isHeader b.header = true := by
  have h0 : headerText.head? = some '0' := rfl
  have hne : headerText ≠ [] := by decide
  unfold isHeader DataBlock.header
  simp only [Bool.and_eq_true, decide_eq_true_eq, List.append_assoc]
  exact ⟨by rw [List.head?_append_of_ne_nil _ hne, h0], List.prefix_append _ _ |>.isInfix⟩

theorem splitOn_header (b : DataBlock) : (b.header.splitOn '\'')[1]? = some b.marker := by
  have h1 : b.header = (headerText ++ [' ']) ++ '\'' :: (b.marker ++ '\'' :: []) := by
    simp [DataBlock.header]
  have h2 : ∀ c ∈ headerText ++ [' '], (c == '\'') = false :=
    forall_mem_of_all (by decide)
  have h3 : ∀ c ∈ b.marker, (c == '\'') = false := by
    intro c hc; rw [beq_eq_false_iff_ne]; rintro rfl; exact b.marker_bare.1 hc
  rw [h1]
  unfold List.splitOn
  rw [List.splitOnP_append_cons_of_forall_mem h2 _ rfl,
    List.splitOnP_append_cons_of_forall_mem h3 _ rfl]
  rfl

theorem readLine_header (v : Locals) (b : DataBlock) :
    readLine v b.header =
      .ok { v with raw := v.raw ++ b.header ++ ['\n'], end_char := some b.marker } := by
  have h0 : b.header ≠ [] := by simp [DataBlock.header]
  unfold readLine
  simp [h0, isHeader_header, splitOn_header]

theorem isHeader_code (r : Reply) : isHeader (r.code ++ r.message) = false := by
  unfold isHeader
  rw [List.head?_append_of_ne_nil _ r.code_ne]
  simp [r.code_head]

/-- **The status line ends the call**, unless its code begins with 9. -/
theorem readLine_status {r : Reply} (h9 : r.code.head? ≠ some '9') (v : Locals) :
    readLine v (r.code ++ r.message) =
      .error (.ret ⟨v.raw ++ (r.code ++ r.message) ++ ['\n'], v.text, r.code, r.message⟩) := by
  have h0 : r.code ++ r.message ≠ [] := by simp [r.code_ne]
  have ht : (r.code ++ r.message).take 4 = r.code := List.take_left' r.code_length
  have hd : (r.code ++ r.message).drop 4 = r.message := List.drop_left' r.code_length
  unfold readLine
  simp [h0, isHeader_code, isStatus_code, h9, Locals.response, ht, hd]

/-! ## Readable replies are decoded -/

/-- Data lines are collected in order. -/
theorem foldlM_data : ∀ (ls : List Bytes) (v : Locals), (∀ l ∈ ls, Plain l ∧ v.end_char ≠ some l) →
    v.is_end = false →
    ls.foldlM readLine v =
      .ok { v with raw := v.raw ++ unlines '\n' ls, text := v.text ++ unlines '\n' ls } := by
  intro ls
  induction ls with
  | nil => intro v _ _; simp [pure, Except.pure]
  | cons l ls ih =>
    intro v h he
    obtain ⟨hl, hv⟩ := h l List.mem_cons_self
    rw [foldlM_cons_ok (readLine_data hl hv he), ih { v with
      raw := v.raw ++ l ++ ['\n'], text := v.text ++ l ++ ['\n'] }
      (fun x hx => h x (List.mem_cons_of_mem _ hx)) he]
    simp

/-- The lines before the status line leave the data lines in `text`. -/
theorem foldlM_body {r : Reply} (hr : r.Readable) :
    ∃ v, r.body.foldlM readLine {} = .ok v ∧ v.raw = unlines '\n' r.body ∧
      v.text = unlines '\n' r.data := by
  cases hb : r.block with
  | none => exact ⟨{}, by simp [Reply.body, hb, pure, Except.pure], by simp [Reply.body, hb],
      by simp [Reply.data, hb]⟩
  | some b =>
    have hplain : ∀ l ∈ b.marker :: b.lines, Plain l := hr.1 b hb
    have hbody : r.body = b.header :: (b.lines ++ [b.marker]) := by simp [Reply.body, hb, DataBlock.all]
    have hdata : r.data = b.lines := by simp [Reply.data, hb]
    -- the header names the marker, and the block is still open at each data line
    have hlines := foldlM_data b.lines { ({} : Locals) with
      raw := ({} : Locals).raw ++ b.header ++ ['\n'], end_char := some b.marker }
      (fun l hl => ⟨hplain l (List.mem_cons_of_mem _ hl),
        fun h => (b.lines_bare l hl).2 (Option.some.inj h).symm⟩) rfl
    rw [hbody, hdata, foldlM_cons_ok (readLine_header _ b), foldlM_concat hlines,
      readLine_marker (hplain _ List.mem_cons_self) b.marker_ne rfl]
    exact ⟨_, rfl, by simp, by simp⟩

/-- **A readable reply that fills its chunks** is decoded, and nothing after it is
taken from the socket. -/
theorem getResponse_reply {r : Reply} (hr : r.Readable) {cs : List (Chunk n)}
    (hcs : joined cs = r.encode) (ds : List (Chunk n)) (eof : Bool) :
    getResponse ⟨cs ++ ds, eof⟩ = (.ret r.decode, ⟨ds, eof⟩) := by
  obtain ⟨v, hv, hraw, htext⟩ := foldlM_body hr
  have hlast := readLine_status hr.2 v
  rw [getResponse_message r.lines_bare hv hlast hcs]
  simp [Reply.decode, Reply.encode, hraw, htext]

/-! ## Other replies are not -/

/-- **What the cascade does with a line**, with all that its tests have found out. -/
inductive LineStep (v : Locals) (l : Bytes) : Except (Out Response) Locals → Prop
  | blank (h0 : l = []) (hend : v.is_end = false) :
      LineStep v l (.ok { v with raw := v.raw ++ l ++ ['\n'], text := v.text ++ l ++ ['\n'] })
  | header {e : Bytes} (hh : isHeader l = true) (he : (l.splitOn '\'')[1]? = some e) :
      LineStep v l (.ok { v with raw := v.raw ++ l ++ ['\n'], end_char := some e })
  | marker (h0 : l ≠ []) (hh : isHeader l = false) (hs : isStatus l = .ok false) (hl : v.end_char = some l) :
      LineStep v l (.ok { v with raw := v.raw ++ l ++ ['\n'], is_end := true })
  | after (h0 : l ≠ []) (hh : isHeader l = false) (hs : isStatus l = .ok false) (hl : v.end_char ≠ some l)
      (hend : v.is_end = true) : LineStep v l (.ok { v with raw := v.raw ++ l ++ ['\n'] })
  | data (h0 : l ≠ []) (hh : isHeader l = false) (hs : isStatus l = .ok false) (hl : v.end_char ≠ some l)
      (hend : v.is_end = false) :
      LineStep v l (.ok { v with raw := v.raw ++ l ++ ['\n'], text := v.text ++ l ++ ['\n'] })
  | status (h0 : l ≠ []) (hh : isHeader l = false) (hs : isStatus l = .ok true) :
      LineStep v l (.error (.ret { v with
        raw := v.raw ++ l ++ ['\n'], status := l.take 4, text_status := l.drop 4 }.response))
  | late (h0 : l = []) (hend : v.is_end = true) : LineStep v l (.error (.raise .indexError 21))
  | unquoted (hh : isHeader l = true) (he : (l.splitOn '\'')[1]? = none) :
      LineStep v l (.error (.raise .indexError 22))
  | short {i : ℕ} (h0 : l ≠ []) (hh : isHeader l = false) (hs : isStatus l = .error i) :
      LineStep v l (.error (.raise .indexError i))

theorem readLine_step (v : Locals) (l : Bytes) : LineStep v l (readLine v l) := by
  unfold readLine
  by_cases h0 : l = []
  · subst h0
    rw [if_pos rfl]
    by_cases hend : v.is_end = true
    · rw [if_pos hend]
      exact .late rfl hend
    · rw [if_neg hend]
      simpa using LineStep.blank (v := v) (l := []) rfl (by simpa using hend)
  rw [if_neg h0]
  by_cases hh : isHeader l = true
  · rw [if_pos hh]
    cases he : (l.splitOn '\'')[1]? with
    | some e => exact .header hh he
    | none => exact .unquoted hh he
  rw [if_neg hh]
  simp only [Bool.not_eq_true] at hh
  rcases hs : isStatus l with i | (_ | _)
  · exact .short h0 hh hs
  · dsimp only
    by_cases hl : v.end_char = some l
    · rw [if_pos hl]
      exact .marker h0 hh hs hl
    rw [if_neg hl]
    by_cases hend : v.is_end = true
    · rw [if_pos hend]
      exact .after h0 hh hs hl hend
    · rw [if_neg hend]
      exact .data h0 hh hs hl (by simpa using hend)
  · exact .status h0 hh hs

/-- A header begins with 0. -/
theorem not_numberLike_header {l : Bytes} (hh : isHeader l = true) : ¬ NumberLike l := by
  rintro ⟨hlt, -⟩
  unfold isHeader at hh
  simp only [Bool.and_eq_true, decide_eq_true_eq] at hh
  rw [hh.1] at hlt
  cases hlt

/-- **What a line that does not end the call does.** -/
theorem readLine_ok {v v' : Locals} {l : Bytes} (h : readLine v l = .ok v') :
    v'.raw = v.raw ++ l ++ ['\n'] ∧ v'.status = v.status ∧ ¬ NumberLike l ∧
      (isHeader l = true → ∃ e, (l.splitOn '\'')[1]? = some e) ∧
      (v'.text = v.text ∨ isHeader l = false ∧ v'.text = v.text ++ l ++ ['\n']) := by
  have hstep := readLine_step v l
  rw [h] at hstep
  cases hstep with
  | blank h0 =>
    subst h0
    exact ⟨rfl, rfl, not_numberLike_nil, fun hh => (by cases hh), Or.inr ⟨rfl, rfl⟩⟩
  | header hh he => exact ⟨rfl, rfl, not_numberLike_header hh, fun _ => ⟨_, he⟩, Or.inl rfl⟩
  | marker h0 hh hs => exact ⟨rfl, rfl, (isStatus_false_iff h0).1 hs, by simp [hh], Or.inl rfl⟩
  | after h0 hh hs => exact ⟨rfl, rfl, (isStatus_false_iff h0).1 hs, by simp [hh], Or.inl rfl⟩
  | data h0 hh hs => exact ⟨rfl, rfl, (isStatus_false_iff h0).1 hs, by simp [hh], Or.inr ⟨hh, rfl⟩⟩

/-- **A line that makes the call return** passes the status test. -/
theorem readLine_ret {v : Locals} {l : Bytes} {d : Response} (h : readLine v l = .error (.ret d)) :
    isStatus l = .ok true ∧ d.raw = v.raw ++ l ++ ['\n'] ∧ d.text = v.text := by
  have hstep := readLine_step v l
  rw [h] at hstep
  cases hstep with
  | status h0 hh hs => exact ⟨hs, rfl, rfl⟩

/-- All lines are in `raw`, and none of them has set the status. -/
theorem foldlM_raw {ls : List Bytes} {v v' : Locals} (h : ls.foldlM readLine v = .ok v') :
    v'.raw = v.raw ++ unlines '\n' ls ∧ v'.status = v.status := by
  refine foldlM_inv (P := fun pre w => w.raw = v.raw ++ unlines '\n' pre ∧ w.status = v.status)
    ?_ ls [] v v' (by simp) h
  rintro pre w l w' ⟨hraw, hstatus⟩ hl
  obtain ⟨hraw', hstatus', -⟩ := readLine_ok hl
  refine ⟨?_, hstatus'.trans hstatus⟩
  rw [hraw', hraw]
  simp

/-- The text collected is a list of lines none of which reads as a header. -/
theorem foldlM_text {ls : List Bytes} {v v' : Locals} (hnl : ∀ l ∈ ls, '\n' ∉ l)
    (h : ls.foldlM readLine v = .ok v') : ∃ ks, v'.text = v.text ++ unlines '\n' ks ∧
      ∀ k ∈ ks, '\n' ∉ k ∧ isHeader k = false := by
  refine foldlM_inv (P := fun pre w => (∀ l ∈ pre, '\n' ∉ l) → ∃ ks,
    w.text = v.text ++ unlines '\n' ks ∧ ∀ k ∈ ks, '\n' ∉ k ∧ isHeader k = false)
    ?_ ls [] v v' (fun _ => ⟨[], by simp⟩) h hnl
  intro pre w l w' hpre hl hnl
  obtain ⟨ks, hks, hk⟩ := hpre fun x hx => hnl x (List.mem_append_left _ hx)
  obtain ⟨-, -, -, -, ht | ⟨hh, ht⟩⟩ := readLine_ok hl
  · -- a header, or a line after the end marker
    exact ⟨ks, ht.trans hks, hk⟩
  · refine ⟨ks ++ [l], by rw [ht, hks]; simp, ?_⟩
    intro k hk'
    rcases List.mem_append.1 hk' with hk' | hk'
    · exact hk k hk'
    · rw [List.mem_singleton.1 hk']
      exact ⟨hnl l (by simp), hh⟩

/-- The call returns the reply's dictionary only by reading all its lines, the status
line last. -/
theorem outcome_decode {r : Reply} {eof : Bool} (h : outcome {} r.encode eof = .ret r.decode) :
    ∃ v, r.body.foldlM readLine {} = .ok v ∧ v.text = unlines '\n' r.data ∧
      isStatus (r.code ++ r.message) = .ok true := by
  unfold outcome Reply.encode at h
  rw [lines_unlines r.lines_bare] at h
  split at h
  · rename_i v' hv
    -- no line was accepted as a status line: the status is still empty
    split at h
    · have := congrArg Response.status (Effect.Out.ret.inj h)
      rw [show v'.response.status = v'.status from rfl, (foldlM_raw hv).2] at this
      exact absurd this.symm r.code_ne
    · cases h
  · rename_i o ho
    subst h
    obtain ⟨pre, l, post, v, hls, hpre, hl⟩ := foldlM_error _ _ ho
    obtain ⟨hst, hraw, htext⟩ := readLine_ret hl
    -- `raw` is the whole reply, so all its lines have been read
    have hall : r.body ++ [r.code ++ r.message] = pre ++ [l] := by
      refine unlines_inj r.lines_bare (fun x hx => r.lines_bare x ?_) ?_
      · rw [hls]
        rcases List.mem_append.1 hx with hx | hx
        · exact List.mem_append_left _ hx
        · exact List.mem_append_right _ (List.mem_singleton.1 hx ▸ List.mem_cons_self)
      · calc unlines '\n' (r.body ++ [r.code ++ r.message])
            = v.raw ++ l ++ ['\n'] := hraw
          _ = unlines '\n' (pre ++ [l]) := by rw [(foldlM_raw hpre).1]; simp
    obtain ⟨rfl, hl'⟩ := List.append_inj' hall rfl
    simp only [List.cons.injEq, and_true] at hl'
    exact ⟨v, hpre, htext.symm, hl' ▸ hst⟩

/-- **A reply is decoded, in whatever chunks it comes, if and only if it is readable.** -/
theorem getResponse_decode_iff (r : Reply) (s : Stream n) (hs : s.bytes = r.encode) :
    (getResponse s).1 = .ret r.decode ↔ r.Readable := by
  constructor
  · intro h
    rw [getResponse_out, hs] at h
    obtain ⟨v, hbody, htext, hst⟩ := outcome_decode h
    refine ⟨fun b hb l hl => ?_, fun h9 => ?_⟩
    · have hb : r.block = some b := hb
      have hbody' : r.body = b.header :: (b.lines ++ [b.marker]) := by simp [Reply.body, hb, DataBlock.all]
      have hdata : r.data = b.lines := by simp [Reply.data, hb]
      have hmem : l ∈ r.body := by
        rw [hbody']; rcases List.mem_cons.1 hl with rfl | hl
        · simp
        · simp [hl]
      obtain ⟨w, w', hw⟩ := foldlM_mem hbody l hmem
      obtain ⟨-, -, hnum, hquote, -⟩ := readLine_ok hw
      refine ⟨?_, hnum⟩
      rcases List.mem_cons.1 hl with rfl | hl
      · -- a header needs quotes, and the marker has none
        by_contra hh
        simp only [Bool.not_eq_false] at hh
        obtain ⟨e, he⟩ := hquote hh
        have hone : b.marker.splitOn '\'' = [b.marker] := by
          refine List.splitOnP_eq_singleton fun c hc => ?_
          rw [beq_eq_false_iff_ne]; rintro rfl; exact b.marker_bare.1 hc
        rw [hone] at he; cases he
      · -- the data lines are the lines collected
        obtain ⟨ks, hks, hk⟩ := foldlM_text
          (fun x hx => r.lines_bare x (List.mem_append_left _ hx)) hbody
        have heq : r.data = ks :=
          unlines_inj r.data_bare (fun k hk' => (hk k hk').1) (by rw [← htext, hks]; simp)
        exact (hk l (by rw [← heq, hdata]; exact hl)).2
    · rw [isStatus_code, h9] at hst
      simp at hst
  · intro hr
    have := getResponse_reply hr hs [] s.eof
    rw [List.append_nil] at this
    exact congrArg Prod.fst this

/-- One data line, the end marker `.`, and status 1000. -/
def addressReply : Reply where
  block := some ⟨['.'], ["port 10.0.0.1".toList], by decide, by decide, by decide⟩
  code := "1000".toList
  message := " Success".toList
  code_length := rfl
  code_digits := forall_mem_of_all (by decide)
  code_head := by decide
  message_bare := by decide

/-- `addressReply` with the data line `1` in place of its own. -/
def countReply : Reply :=
  { addressReply with block := some ⟨['.'], [['1']], by decide, by decide, by decide⟩ }

theorem addressReply_decoded : addressReply.Readable ∧
    (getResponse ⟨[⟨addressReply.encode, by decide, by decide⟩], false⟩ : Out Response × Stream 1024).1 =
      .ret addressReply.decode := by
  have hr : addressReply.Readable := by
    refine ⟨?_, by decide⟩
    rintro b ⟨⟩
    decide
  exact ⟨hr, (getResponse_decode_iff addressReply _ (by simp [Stream.bytes])).2 hr⟩

/-- A data line of one digit sends the status test past its end. -/
theorem getResponse_count : ¬ ∀ (r : Reply) (s : Stream 1024), s.bytes = r.encode →
    (getResponse s).1 = .ret r.decode := by
  intro h
  have h1 := h countReply ⟨[⟨countReply.encode, by decide, by decide⟩], false⟩ (by simp [Stream.bytes])
  rw [getResponse_out] at h1
  have h2 : outcome {} countReply.encode false = .raise .indexError 25 := by decide
  simp only [Stream.bytes, joined_cons, joined_nil, List.append_nil, h2] at h1
  cases h1

end Vdetelweb
