import Vdetelweb.Proof.FileObject
import Vdetelweb.Proof.Send

/-!
# Writing through a file object

What was written is handed to the stack or still in the buffer, in order and none of it twice
(`writeRun_accounts`), through any run of calls and whichever of them raise. Bytes are lost only
in a call of `sendall` that returns although the stack accepts fewer than it was offered.

With the reading half: lines that are written come out as the same lines at the other end
(`lines_roundtrip`).
-/

namespace Vdetelweb

open scoped List

/-- What the stack does not refuse it accepts in full. -/
def AcceptsAll (E : SendStack) : Prop := ∀ k n accepted, E.answer k n = some accepted → accepted = Fin.last n

variable {E : SendStack}

/-! ## `sendall` -/

theorem checkError_state {σ : Type} (r : ℤ) (s : σ) : ((checkError r : Effect.Act PycoExc σ ℤ) s).2 = s := by
  unfold checkError
  split_ifs <;> rfl

/-- A call that does not return hands nothing over. -/
theorem sendall_handed {s s' : Sender} {data : Bytes} {o : Effect.Out PycoExc ℤ}
    (h : sendallPico E data s = (o, s')) (ho : ∀ r, o ≠ .ret r) : s'.handed = s.handed := by
  have hstate : ∀ (r : ℤ) (t : Sender), checkError r t = (o, s') → s' = t := by
    intro r t hr
    have := checkError_state r t
    rwa [hr] at this
  have hfull := h
  unfold sendallPico socketSend at h
  simp only [Effect.Act.bind_apply, nextCall_apply, writeCheck_apply, pycoclibSend_apply,
    picoSocketSend_apply] at h
  by_cases hw : s.opened = true ∧ E.writable s.calls = false
  · rw [if_pos hw] at h
    cases h
    rfl
  rw [if_neg hw] at h
  by_cases hp : Parses data
  · cases hl : s.listed with
    | false =>
      simp only [hp, hl, not_true_eq_false, if_false, if_true] at h
      rw [hstate _ _ h]
    | true =>
      cases ha : E.answer s.calls data.length with
      | none =>
        simp only [hp, hl, ha, not_true_eq_false, if_false, Bool.true_eq_false] at h
        rw [hstate _ _ h]
      | some accepted =>
        -- this call returns
        have hpass : Passes E s s.calls data :=
          ⟨fun ho => by simpa [ho] using hw, hp, hl, Option.isSome_iff_exists.2 ⟨accepted, ha⟩⟩
        obtain ⟨r, hr⟩ := (passes_iff hfull).1 hpass
        exact absurd hr (ho r)
  · simp only [hp, not_false_eq_true, if_true] at h
    rw [hstate _ _ h]

/-! ## `flush` -/

/-- **What the loop hands over**, with what it has not come to: no more than it had, in order; and
all of it if the stack accepts in full. -/
theorem flushLoop_accounts {size : ℕ} (hpos : 0 < size) (data : Bytes) (k : ℕ) (s : Sender) :
    (flushLoop E hpos data k s).2.2.handed ++ data.drop (flushLoop E hpos data k s).2.1 <+
        s.handed ++ data.drop k ∧
      (AcceptsAll E → (flushLoop E hpos data k s).2.2.handed ++ data.drop (flushLoop E hpos data k s).2.1 =
        s.handed ++ data.drop k) ∧
      ((flushLoop E hpos data k s).1 = .ret () → data.length ≤ (flushLoop E hpos data k s).2.1) := by
  induction k, s using flushLoop.induct E hpos data with
  | case1 k s h r s' hcall ih =>
    obtain ⟨-, -, -, accepted, ha, -, rfl⟩ := sendall_ret_iff.1 hcall
    rw [flushLoop, dif_pos h, hcall]
    obtain ⟨hsub, hall, hret⟩ := ih
    have hpiece : (data.drop k).take size ++ data.drop (k + size) = data.drop k := by
      rw [← List.drop_drop, List.take_append_drop]
    refine ⟨hsub.trans ?_, fun hE => (hall hE).trans ?_, hret⟩
    · rw [List.append_assoc]
      refine List.Sublist.append_left ?_ _
      have := (List.take_sublist accepted.val ((data.drop k).take size)).append_right (data.drop (k + size))
      rwa [hpiece] at this
    · rw [hE _ _ _ ha, Fin.val_last, List.take_length, List.append_assoc, hpiece]
  | case2 k s h e l s' hcall =>
    rw [flushLoop, dif_pos h, hcall]
    dsimp only
    rw [sendall_handed hcall (Effect.Out.raise_ne_ret e l)]
    exact ⟨List.Sublist.refl _, fun _ => rfl, fun heq => absurd heq (Effect.Out.raise_ne_ret e l _)⟩
  | case3 k s h s' hcall =>
    rw [flushLoop, dif_pos h, hcall]
    dsimp only
    rw [sendall_handed hcall Effect.Out.block_ne_ret]
    exact ⟨List.Sublist.refl _, fun _ => rfl, fun heq => absurd heq (Effect.Out.block_ne_ret _)⟩
  | case4 k s h =>
    rw [flushLoop, dif_neg h]
    exact ⟨List.Sublist.refl _, fun _ => rfl, fun _ => Nat.le_of_not_lt h⟩

/-- What `flush` leaves in the buffer when the loop has come to `k`. -/
theorem remainder_flatten (data : Bytes) (k : ℕ) :
    (if k < data.length then [data.drop k] else []).flatten = data.drop k ∧
      (if k < data.length then (data.drop k).length else 0) = (data.drop k).length := by
  split
  · exact ⟨List.flatten_singleton .., rfl⟩
  · rename_i h
    rw [List.drop_of_length_le (Nat.le_of_not_lt h)]
    exact ⟨rfl, rfl⟩

/-- `flush`: what it hands over and what it puts back are what was buffered. -/
theorem flush_accounts (w : FileSock) (hw : w.file.wbuf_len = w.file.wbuf.flatten.length) :
    (flush E w).2.sock.handed ++ (flush E w).2.file.wbuf.flatten <+ w.sock.handed ++ w.file.wbuf.flatten ∧
      (AcceptsAll E → (flush E w).1 ≠ .block →
        (flush E w).2.sock.handed ++ (flush E w).2.file.wbuf.flatten = w.sock.handed ++ w.file.wbuf.flatten) ∧
      (flush E w).2.file.wbuf_len = (flush E w).2.file.wbuf.flatten.length ∧
      ((flush E w).1 = .ret () → (flush E w).2.file.wbuf.flatten = []) := by
  unfold flush
  by_cases hnil : w.file.wbuf = []
  · rw [if_pos hnil]
    refine ⟨List.Sublist.refl _, fun _ _ => rfl, hw, fun _ => ?_⟩
    rw [hnil, List.flatten_nil]
  · rw [if_neg hnil]
    obtain ⟨hsub, hall, hret⟩ := flushLoop_accounts (E := E) w.file.bufferSize_pos w.file.wbuf.flatten 0 w.sock
    rw [List.drop_zero] at hsub hall
    dsimp only
    generalize flushLoop E w.file.bufferSize_pos w.file.wbuf.flatten 0 w.sock = loop at hsub hall hret ⊢
    rcases loop with ⟨⟨⟩ | ⟨e, l⟩ | -, k, s⟩
    · obtain ⟨hflat, hlen⟩ := remainder_flatten w.file.wbuf.flatten k
      dsimp only at hsub hall hret ⊢
      rw [hflat, hlen]
      exact ⟨hsub, fun hE _ => hall hE, rfl, fun _ => List.drop_of_length_le (hret rfl)⟩
    · obtain ⟨hflat, hlen⟩ := remainder_flatten w.file.wbuf.flatten k
      dsimp only at hsub hall ⊢
      rw [hflat, hlen]
      exact ⟨hsub, fun hE _ => hall hE, rfl, fun heq => absurd heq (Effect.Out.raise_ne_ret e l _)⟩
    · -- the rest is in the hands of the call that waits
      dsimp only at hsub ⊢
      rw [List.flatten_nil, List.append_nil]
      exact ⟨(List.sublist_append_left _ _).trans hsub, fun _ h => absurd rfl h, rfl,
        fun heq => absurd heq (Effect.Out.block_ne_ret _)⟩

/-! ## Any call -/

/-- What of the written bytes is still there: handed over, or in the buffer. -/
def FileWriter.kept (w : FileWriter) : Bytes := w.out.sock.handed ++ w.buffered

/-- What `wbuf_len` is for. -/
def FileWriter.Counted (w : FileWriter) : Prop := w.out.file.wbuf_len = w.buffered.length

variable (E) in
/-- **A call keeps the bytes that there are**, `b`: in order, none twice, and all of them if the
stack accepts in full and the call does not wait. -/
structure Keeps (b : Bytes) (o : Effect.Out FileExc Unit) (w' : FileWriter) : Prop where
  sublist : w'.kept <+ b
  all : AcceptsAll E → o ≠ .block → w'.kept = b
  counted : w'.Counted

theorem Keeps.self (w : FileWriter) (hw : w.Counted) (o : Effect.Out FileExc Unit) : Keeps E w.kept o w :=
  ⟨List.Sublist.refl _, fun _ _ => rfl, hw⟩

theorem flush_keeps (w : FileWriter) (hw : w.Counted) :
    Keeps E w.kept (w.flush E).1 (w.flush E).2 ∧
      ((w.flush E).1 = .ret () → (w.flush E).2.buffered = []) := by
  unfold FileWriter.flush
  cases w.attached with
  | false =>
    rw [if_neg (by decide)]
    split
    · rename_i hnil
      exact ⟨.self w hw _, fun _ => by rw [FileWriter.buffered, hnil, List.flatten_nil]⟩
    · have hback : [w.buffered].flatten = w.buffered := List.flatten_singleton ..
      have hkept : w.out.sock.handed ++ [w.buffered].flatten = w.kept := by rw [hback, FileWriter.kept]
      exact ⟨⟨hkept ▸ List.Sublist.refl _, fun _ _ => hkept, congrArg List.length hback.symm⟩,
        fun heq => absurd heq (Effect.Out.raise_ne_ret _ _ _)⟩
  | true =>
    rw [if_pos rfl]
    obtain ⟨hsub, hall, hlen, hret⟩ := flush_accounts (E := E) w.out hw
    generalize Vdetelweb.flush E w.out = r at hsub hall hlen hret ⊢
    rcases r with ⟨⟨⟩ | ⟨e, l⟩ | -, out⟩
    · exact ⟨⟨hsub, fun hE _ => hall hE (Effect.Out.ret_ne_block _), hlen⟩, fun _ => hret rfl⟩
    · exact ⟨⟨hsub, fun hE _ => hall hE (Effect.Out.raise_ne_block e l), hlen⟩,
        fun heq => absurd heq (Effect.Out.raise_ne_ret _ l _)⟩
    · exact ⟨⟨hsub, fun _ h => absurd rfl h, hlen⟩, fun heq => absurd heq (Effect.Out.block_ne_ret _)⟩

theorem extend_kept (w : FileWriter) (lines : List Bytes) : (w.extend lines).kept = w.kept ++ lines.flatten := by
  unfold FileWriter.kept FileWriter.buffered FileWriter.extend
  rw [List.flatten_append, List.append_assoc]

theorem extend_counted {w : FileWriter} (hw : w.Counted) (lines : List Bytes) : (w.extend lines).Counted := by
  have hlen : w.out.file.wbuf_len = w.out.file.wbuf.flatten.length := hw
  show w.out.file.wbuf_len + lines.flatten.length = (w.out.file.wbuf ++ lines).flatten.length
  rw [List.flatten_append, List.length_append, hlen]

/-- A flush after the lines are put into the buffer, or not. -/
theorem extend_keeps {w : FileWriter} (hw : w.Counted) (lines : List Bytes) (p : Prop) [Decidable p]
    {n : ℕ} (hp : ¬ p → (w.extend lines).out.file.wbuf_len < n) :
    let r := if p then (w.extend lines).flush E else (.ret (), w.extend lines)
    Keeps E (w.kept ++ lines.flatten) r.1 r.2 ∧ (r.1 = .ret () → r.2.buffered.length < max 1 n) := by
  have hcount := extend_counted hw lines
  rw [← extend_kept]
  dsimp only
  split
  · obtain ⟨hkeeps, hempty⟩ := flush_keeps (E := E) (w.extend lines) hcount
    refine ⟨hkeeps, fun h => ?_⟩
    rw [hempty h]
    exact lt_of_lt_of_le Nat.one_pos (le_max_left 1 n)
  · rename_i hno
    refine ⟨.self _ hcount _, fun _ => lt_of_lt_of_le ?_ (le_max_right 1 n)⟩
    have hlen : (w.extend lines).out.file.wbuf_len = (w.extend lines).buffered.length := hcount
    rw [← hlen]
    exact hp hno

theorem close_keeps {w : FileWriter} (hw : w.Counted) : Keeps E w.kept (w.close E).1 (w.close E).2 := by
  unfold FileWriter.close
  split
  · obtain ⟨hkeeps, -⟩ := flush_keeps (E := E) w hw
    generalize w.flush E = r at hkeeps ⊢
    rcases r with ⟨⟨⟩ | ⟨e, l⟩ | -, w'⟩
    · exact ⟨hkeeps.sublist, hkeeps.all, hkeeps.counted⟩
    · exact ⟨hkeeps.sublist, hkeeps.all, hkeeps.counted⟩
    · exact hkeeps
  · exact .self w hw _

/-- **One call** keeps what there was and what it writes, and a call that returns having written
something leaves less than a full buffer. -/
theorem writeCall_keeps {w : FileWriter} (hw : w.Counted) (c : WriteCall) :
    Keeps E (w.kept ++ c.data) (w.call E c).1 (w.call E c).2 ∧
      (c.data ≠ [] → (w.call E c).1 = .ret () → (w.call E c).2.buffered.length < max 1 w.wbufsize) := by
  cases c with
  | write data =>
    unfold FileWriter.call FileWriter.write WriteCall.data
    by_cases hdata : data = []
    · subst hdata
      dsimp only
      rw [if_pos rfl, List.append_nil]
      exact ⟨.self w hw _, fun h => absurd rfl h⟩
    · dsimp only
      rw [if_neg hdata]
      have h := extend_keeps (E := E) hw [data] ((w.extend [data]).wbufsize = 0 ∨
        ((w.extend [data]).wbufsize = 1 ∧ '\n' ∈ data) ∨
          (w.extend [data]).out.file.wbuf_len ≥ (w.extend [data]).wbufsize) (n := w.wbufsize)
        fun hno => Nat.lt_of_not_le fun hle => hno (Or.inr (Or.inr hle))
      rw [List.flatten_singleton] at h
      exact ⟨h.1, fun _ => h.2⟩
  | writelines list =>
    unfold FileWriter.call FileWriter.writelines WriteCall.data
    have hflat : (list.filter (· ≠ [])).flatten = list.flatten := List.flatten_filter_ne_nil
    have h := extend_keeps (E := E) hw (list.filter (· ≠ []))
      ((w.extend (list.filter (· ≠ []))).wbufsize ≤ 1 ∨ (w.extend (list.filter (· ≠ []))).out.file.wbuf_len ≥
        (w.extend (list.filter (· ≠ []))).wbufsize) (n := w.wbufsize)
      fun hno => Nat.lt_of_not_le fun hle => hno (Or.inr hle)
    rw [hflat] at h
    exact ⟨h.1, fun _ => h.2⟩
  | flush =>
    unfold FileWriter.call WriteCall.data
    rw [List.append_nil]
    exact ⟨(flush_keeps w hw).1, fun h => absurd rfl h⟩
  | close =>
    show Keeps E (w.kept ++ []) (w.close E).1 (w.close E).2 ∧ _
    rw [List.append_nil]
    exact ⟨close_keeps hw, fun h => absurd rfl h⟩

theorem flush_wbufsize (w : FileWriter) : (w.flush E).2.wbufsize = w.wbufsize := by
  unfold FileWriter.flush
  split
  · rcases Vdetelweb.flush E w.out with ⟨⟨⟩ | ⟨e, l⟩ | -, out⟩ <;> rfl
  · split <;> rfl

theorem call_wbufsize (w : FileWriter) (c : WriteCall) : (w.call E c).2.wbufsize = w.wbufsize := by
  cases c with
  | write data =>
    simp only [FileWriter.call, FileWriter.write]
    split_ifs
    · rfl
    · exact flush_wbufsize _
    · rfl
  | writelines list =>
    simp only [FileWriter.call, FileWriter.writelines]
    split_ifs
    · exact flush_wbufsize _
    · rfl
  | flush => exact flush_wbufsize w
  | close =>
    have hflush := flush_wbufsize (E := E) w
    simp only [FileWriter.call, FileWriter.close]
    split
    · generalize w.flush E = r at hflush ⊢
      rcases r with ⟨⟨⟩ | ⟨e, l⟩ | -, w'⟩ <;> exact hflush
    · rfl

/-! ## Runs -/

theorem writeRun_keeps {w : FileWriter} (hw : w.Counted) (cs : List WriteCall) :
    (w.run E cs).2.kept <+ w.kept ++ cs.flatMap WriteCall.data ∧
      (AcceptsAll E → .block ∉ (w.run E cs).1 → (w.run E cs).2.kept = w.kept ++ cs.flatMap WriteCall.data) ∧
      (w.run E cs).2.Counted := by
  induction cs generalizing w with
  | nil =>
    rw [List.flatMap_nil, List.append_nil]
    exact ⟨List.Sublist.refl _, fun _ _ => rfl, hw⟩
  | cons c cs ih =>
    obtain ⟨⟨hsub, hall, hcount⟩, -⟩ := writeCall_keeps (E := E) hw c
    rw [FileWriter.run, List.flatMap_cons, ← List.append_assoc]
    generalize w.call E c = r at hsub hall hcount ⊢
    rcases r with ⟨o, w'⟩
    obtain ⟨hsub', hall', hcount'⟩ := ih hcount
    have hrun : (w'.run E cs).2.kept <+ (w.kept ++ c.data) ++ cs.flatMap WriteCall.data :=
      hsub'.trans (hsub.append_right _)
    have hret : o ≠ .block → AcceptsAll E → .block ∉ o :: (w'.run E cs).1 →
        (w'.run E cs).2.kept = (w.kept ++ c.data) ++ cs.flatMap WriteCall.data := by
      intro ho hE hno
      rw [hall' hE fun hmem => hno (List.mem_cons_of_mem _ hmem), hall hE ho]
    cases o with
    | ret u => exact ⟨hrun, hret (Effect.Out.ret_ne_block u), hcount'⟩
    | raise e l => exact ⟨hrun, hret (Effect.Out.raise_ne_block e l), hcount'⟩
    | block => exact ⟨hsub.trans (List.sublist_append_left _ _), fun _ h => absurd List.mem_cons_self h, hcount⟩

theorem writeRun_wbufsize (w : FileWriter) (cs : List WriteCall) : (w.run E cs).2.wbufsize = w.wbufsize := by
  induction cs generalizing w with
  | nil => rfl
  | cons c cs ih =>
    have hcall := call_wbufsize (E := E) w c
    rw [FileWriter.run]
    generalize w.call E c = r at hcall ⊢
    rcases r with ⟨⟨⟩ | ⟨e, l⟩ | -, w'⟩
    · exact (ih w').trans hcall
    · exact (ih w').trans hcall
    · exact hcall

/-- **What was written is handed over or buffered**, through any run of calls of which any may
raise: in order, none of it twice, and none of it lost if the stack accepts in full. And a call
that writes something and returns leaves less than a full buffer. -/
theorem writeRun_accounts (E : SendStack) (s : Sender) (bufsize : ℤ) (cs : List WriteCall) :
    let w := ((s.makefile bufsize).run E cs).2
    w.out.sock.handed ++ w.buffered <+ s.handed ++ cs.flatMap WriteCall.data ∧
      (AcceptsAll E → .block ∉ ((s.makefile bufsize).run E cs).1 →
        w.out.sock.handed ++ w.buffered = s.handed ++ cs.flatMap WriteCall.data) ∧
      w.out.file.wbuf_len = w.buffered.length ∧
      ∀ c, c.data ≠ [] → (w.call E c).1 = .ret () →
        (w.call E c).2.buffered.length < max 1 (initBufsize bufsize) := by
  have hempty : (s.makefile bufsize).kept = s.handed := List.append_nil _
  obtain ⟨hsub, hall, hcount⟩ := writeRun_keeps (E := E) (w := s.makefile bufsize) rfl cs
  rw [hempty] at hsub hall
  refine ⟨hsub, hall, hcount, fun c hdata hret => ?_⟩
  have hfull := (writeCall_keeps hcount c).2 hdata hret
  rwa [writeRun_wbufsize] at hfull

/-! ## Lines from one end to the other -/

/-- Data that fits is one piece. -/
theorem pieces_of_short {size : ℕ} (hpos : 0 < size) {data : Bytes} (hdata : data ≠ [])
    (hlen : data.length ≤ size) : pieces size hpos data = [data] := by
  rw [pieces, dif_neg hdata, List.take_of_length_le hlen, List.drop_of_length_le hlen, pieces, dif_pos rfl]

/-- `readlines` on some lines, of a stream that is closed after them. -/
theorem linesOff_unlines {ls : List Bytes} (hls : ∀ l ∈ ls, '\n' ∉ l) (total : ℕ) (list : List Bytes) :
    linesOff true 0 total list (Lines.unlines '\n' ls) = (.ret (list ++ ls.map (· ++ ['\n'])), []) := by
  induction ls generalizing total list with
  | nil =>
    have hend : lineCut.read true [] = some ([], []) := by
      rw [Cut.read_of_none (Cut.after_pos_eq_none.2 List.not_mem_nil), if_pos rfl]
    rw [Lines.unlines_nil, linesOff_some hend, if_pos rfl, List.map_nil, List.append_nil]
  | cons l ls ih =>
    rw [List.forall_mem_cons] at hls
    have hread := Cut.after_read_line hls.1 (Lines.unlines '\n' ls) true
    have hne : l ++ ['\n'] ≠ [] := List.append_ne_nil_of_right_ne_nil l (List.cons_ne_nil _ _)
    rw [Lines.unlines_cons, linesOff_some hread, if_neg hne, if_neg (fun h => h.1 rfl), ih hls.2,
      List.map_cons, List.append_assoc, List.singleton_append]

/-- **Lines from one end to the other.** Some lines are written, in any calls of which some may
raise, and then a `flush` returns: at the other end, whatever the sizes of the buffers and the
pieces that `recv` has them in, `readlines` returns these lines. -/
theorem lines_roundtrip (E : SendStack) (hE : AcceptsAll E) (R : RecvAnswers) (hR : Obeys R) (hraise : NeverRaises R)
    (ls : List Bytes) (hls : ∀ l ∈ ls, '\n' ∉ l) (s : Sender) (hs : s.handed = []) (bufsize bufsize' : ℤ)
    (cs : List WriteCall) (hcs : cs.flatMap WriteCall.data = Lines.unlines '\n' ls)
    (hwait : .block ∉ ((s.makefile bufsize).run E cs).1)
    (hflush : (((s.makefile bufsize).run E cs).2.flush E).1 = .ret ()) :
    ((Source.makefile ⟨(((s.makefile bufsize).run E cs).2.flush E).2.out.sock.handed, true, 0⟩ bufsize').readlines
      R 0).1 = .ret (ls.map (· ++ ['\n'])) := by
  obtain ⟨-, hall, hcount⟩ := writeRun_keeps (E := E) (w := s.makefile bufsize) rfl cs
  have hkept := hall hE hwait
  rw [show (s.makefile bufsize).kept = s.handed from List.append_nil _, hs, List.nil_append, hcs] at hkept
  obtain ⟨hkeeps, hempty⟩ := flush_keeps (E := E) _ hcount
  -- all of it has been handed over
  have hhanded := hkeeps.all hE (by rw [hflush]; exact Effect.Out.ret_ne_block _)
  rw [FileWriter.kept, hempty hflush, List.append_nil, hkept] at hhanded
  rw [hhanded]
  have hread : Follows (E := R) (linesOff true 0 0 [] (Lines.unlines '\n' ls)) _ _ :=
    readlinesFrom_follows hR 0 0 [] (Source.makefile ⟨Lines.unlines '\n' ls, true, 0⟩ bufsize')
  rw [linesOff_unlines hls, List.nil_append] at hread
  unfold FileReader.readlines
  generalize (Source.makefile ⟨Lines.unlines '\n' ls, true, 0⟩ bufsize').readlinesFrom R 0 0 [] = r at hread ⊢
  rcases r with ⟨v | ⟨e, l⟩ | -, f'⟩
  · have heq : (Effect.Out.ret (ls.map (· ++ ['\n'])), ([] : Bytes)) = (.ret v, f'.bytes) := hread
    exact (Prod.mk.inj heq).1.symm
  · rcases hread with heq | ⟨e', k, n, -, he⟩
    · cases heq
    · exact absurd he (hraise k n e')
  · have heq : (Effect.Out.ret (ls.map (· ++ ['\n'])) : Effect.Out FileExc (List Bytes)) = .block := hread
    cases heq

/-- A stack that accepts all. -/
def acceptsAll : SendStack := ⟨fun _ => true, fun _ n => some (Fin.last n)⟩

/-- Two lines, through a buffer that holds both, and read byte by byte. -/
theorem lines_roundtrip_two :
    ((Source.makefile ⟨((((Sender.mk true true 0 []).makefile (-1)).run acceptsAll
      [.write "ab\n".toList, .writelines ["c\n".toList]]).2.flush acceptsAll).2.out.sock.handed, true, 0⟩ 0).readlines
        (fun _ _ => .ok 1) 0).1 = .ret (["ab".toList, "c".toList].map (· ++ ['\n'])) := by
  refine lines_roundtrip acceptsAll ?_ (fun _ _ => .ok 1) ?_ ?_ ["ab".toList, "c".toList] (by decide)
    ⟨true, true, 0, []⟩ rfl (-1) 0 [.write "ab\n".toList, .writelines ["c\n".toList]] rfl ?_ ?_
  · intro k n accepted h
    exact (Option.some.inj h).symm
  · intro k n count hn h
    cases h
    exact ⟨Nat.one_pos, hn⟩
  · intro k n e h
    cases h
  · decide
  · have hrun : (((Sender.mk true true 0 []).makefile (-1)).run acceptsAll
        [.write "ab\n".toList, .writelines ["c\n".toList]]).2 =
          ⟨⟨⟨8192, ["ab\n".toList, "c\n".toList], 5⟩, ⟨true, true, 0, []⟩⟩, 8192, true⟩ := by decide
    have hflush : (Vdetelweb.flush acceptsAll ⟨⟨8192, ["ab\n".toList, "c\n".toList], 5⟩, ⟨true, true, 0, []⟩⟩).1 =
        .ret () := by
      rw [(Prod.mk.inj (flush_eq _)).1, pieces_of_short _ (by decide) (by decide)]
      decide
    rw [hrun]
    unfold FileWriter.flush
    rw [if_pos rfl]
    rcases h : Vdetelweb.flush acceptsAll ⟨⟨8192, ["ab\n".toList, "c\n".toList], 5⟩, ⟨true, true, 0, []⟩⟩ with ⟨o, out⟩
    rw [h] at hflush
    cases hflush
    rfl

end Vdetelweb
