import Vdetelweb.Spec.Send

/-!
# When `sendall` sends all

A call that returns has handed the stack as many bytes as it accepted (`sendall_ret_iff`), and
`flush` is a call for each piece of the buffer (`flush_eq`). So all is sent exactly when no
call that returns had less accepted than it offered, or some call does not return
(`sendsAll_iff`).
-/

namespace Vdetelweb

variable (E : SendStack)

/-- If the call returns, the stack has been handed the data, after what it had before. -/
def SendsAll (s : Sender) (data : Bytes) : Prop :=
  ∀ r s', sendallPico E data s = (.ret r, s') → s'.handed = s.handed ++ data

/-- If the call returns, the stack has been handed the write buffer. -/
def FlushesAll (w : FileSock) : Prop :=
  ∀ w', flush E w = (.ret (), w') → w'.sock.handed = w.sock.handed ++ w.file.wbuf.flatten

/-- A call that offers `data`, as the `k`-th, comes to an answer that is no error. -/
def Passes (s : Sender) (k : ℕ) (data : Bytes) : Prop :=
  (s.opened = true → E.writable k = true) ∧ Parses data ∧ s.listed = true ∧ (E.answer k data.length).isSome

/-- The answer to it is that all is accepted. -/
def Full (k : ℕ) (data : Bytes) : Prop := E.answer k data.length = some (Fin.last _)

/-- **All or an error**: of the calls that offer the pieces one does not pass, or each has all
of its piece accepted. -/
def AllOrError (s : Sender) (ds : List Bytes) : Prop :=
  (∃ i d, ds[i]? = some d ∧ ¬ Passes E s (s.calls + i) d) ∨
    ∀ i d, ds[i]? = some d → Full E (s.calls + i) d

/-- The data in pieces of a size. -/
def pieces (size : ℕ) (hpos : 0 < size) (data : Bytes) : List Bytes :=
  if _h : data = [] then [] else data.take size :: pieces size hpos (data.drop size)
termination_by data.length
decreasing_by
  have := List.length_pos_iff.2 _h
  rw [List.length_drop]
  omega

variable {E}

/-! ## One call -/

theorem nextCall_apply (s : Sender) : nextCall s = (.ret s.calls, { s with calls := s.calls + 1 }) := rfl

theorem writeCheck_apply (k : ℕ) (s : Sender) : writeCheck E k s =
    if s.opened ∧ E.writable k = false then (.block, s) else (.ret (), s) := rfl

theorem picoSocketSend_apply (k : ℕ) (buffer : Bytes) (s : Sender) : picoSocketSend E k buffer s =
    match E.answer k buffer.length with
    | some accepted => (.ret accepted.val, { s with handed := s.handed ++ buffer.take accepted })
    | none => (.ret NOT_OK, s) := rfl

theorem pycoclibSend_apply (k : ℕ) (data : Bytes) (s : Sender) : pycoclibSend E k data s =
    if ¬ Parses data then (.ret PARSE_FAIL, s)
    else if s.listed = false then (.ret NOT_OK, s)
    else picoSocketSend E k data s := by
  unfold pycoclibSend
  by_cases hp : Parses data
  · cases hl : s.listed <;> simp [hp, hl, Effect.Act.bind_apply]
  · simp [hp]

theorem checkError_apply {σ : Type} (r : ℤ) (hr : 0 ≤ r) (s : σ) :
    (checkError r : Effect.Act PycoExc σ ℤ) s = (.ret r, s) := by
  have h2 : r ≠ PARSE_FAIL := by unfold PARSE_FAIL; omega
  have h1 : r ≠ NOT_OK := by unfold NOT_OK; omega
  have h3 : r ≠ ERROR := by unfold ERROR; omega
  unfold checkError
  rw [if_neg h2, if_neg h1, if_neg h3]
  rfl

/-- **What a call does** that returns. -/
theorem sendall_ret_iff {s s' : Sender} {data : Bytes} {r : ℤ} : sendallPico E data s = (.ret r, s') ↔
    (s.opened = true → E.writable s.calls = true) ∧ Parses data ∧ s.listed = true ∧
      ∃ accepted, E.answer s.calls data.length = some accepted ∧ r = accepted.val ∧
        s' = { s with calls := s.calls + 1, handed := s.handed ++ data.take accepted } := by
  unfold sendallPico socketSend
  simp only [Effect.Act.bind_apply, nextCall_apply, writeCheck_apply, pycoclibSend_apply,
    picoSocketSend_apply]
  by_cases hw : s.opened = true ∧ E.writable s.calls = false
  · simp [hw]
  have hw' : s.opened = true → E.writable s.calls = true := by
    intro ho
    by_contra hf
    exact hw ⟨ho, by simpa using hf⟩
  rw [if_neg hw]
  by_cases hp : Parses data
  · cases hl : s.listed with
    | false => simp [hp, checkError, NOT_OK, PARSE_FAIL]
    | true =>
      cases ha : E.answer s.calls data.length with
      | none => simp [hp, checkError, NOT_OK, PARSE_FAIL]
      | some accepted =>
        simp only [hp, not_true_eq_false, if_false, Bool.true_eq_false, true_and,
          checkError_apply _ (Int.natCast_nonneg accepted.val), Prod.mk.injEq, Effect.Out.ret.injEq,
          Option.some.injEq, exists_eq_left']
        constructor
        · rintro ⟨rfl, rfl⟩
          exact ⟨hw', rfl, rfl⟩
        · rintro ⟨-, rfl, rfl⟩
          exact ⟨rfl, rfl⟩
  · simp [hp, checkError, PARSE_FAIL]

theorem passes_iff {s s' : Sender} {data : Bytes} {o : Effect.Out PycoExc ℤ} (h : sendallPico E data s = (o, s')) :
    Passes E s s.calls data ↔ ∃ r, o = .ret r := by
  constructor
  · rintro ⟨hw, hp, hl, ha⟩
    obtain ⟨accepted, ha⟩ := Option.isSome_iff_exists.1 ha
    have hret := (sendall_ret_iff (r := accepted.val)).2 ⟨hw, hp, hl, accepted, ha, rfl, rfl⟩
    rw [h] at hret
    exact ⟨_, (Prod.mk.inj hret).1⟩
  · rintro ⟨r, rfl⟩
    obtain ⟨hw, hp, hl, accepted, ha, -, -⟩ := sendall_ret_iff.1 h
    exact ⟨hw, hp, hl, Option.isSome_iff_exists.2 ⟨accepted, ha⟩⟩

/-! ## Calls one after the other -/

variable (E) in
/-- A call for each piece. -/
def sendPieces : List Bytes → SendAct Unit
  | [] => pure ()
  | d :: ds => do
    let _ ← sendallPico E d
    sendPieces ds

/-- A property of the elements of a list by their numbers. -/
theorem forall_getElem?_cons {α : Type} {P : ℕ → α → Prop} {a : α} {as : List α} :
    (∀ i x, (a :: as)[i]? = some x → P i x) ↔ P 0 a ∧ ∀ i x, as[i]? = some x → P (i + 1) x := by
  constructor
  · intro h
    exact ⟨h 0 a rfl, fun i x hx => h (i + 1) x hx⟩
  · rintro ⟨h0, h⟩ i x hx
    cases i with
    | zero => cases hx; exact h0
    | succ i => exact h i x hx

/-- **The calls all return** exactly when they all pass. They have then handed over no more
than the pieces, and the pieces exactly when each was accepted. -/
theorem sendPieces_spec (ds : List Bytes) (s : Sender) :
    (((sendPieces E ds s).1 = .ret ()) ↔ ∀ i d, ds[i]? = some d → Passes E s (s.calls + i) d) ∧
    ((sendPieces E ds s).1 = .ret () → ∃ t, (sendPieces E ds s).2.handed = s.handed ++ t ∧
      t.length ≤ ds.flatten.length ∧
      (t = ds.flatten ↔ ∀ i d, ds[i]? = some d → Full E (s.calls + i) d)) := by
  induction ds generalizing s with
  | nil => exact ⟨by simp [sendPieces], fun _ => ⟨[], by simp [sendPieces]⟩⟩
  | cons d ds ih =>
    rw [forall_getElem?_cons (P := fun i d => Passes E s (s.calls + i) d),
      forall_getElem?_cons (P := fun i d => Full E (s.calls + i) d), sendPieces, Effect.Act.bind_apply]
    rcases hcall : sendallPico E d s with ⟨o, s'⟩
    have hpass : Passes E s (s.calls + 0) d ↔ ∃ r, o = .ret r := passes_iff hcall
    rw [hpass]
    cases o with
    | raise e l => simp
    | block => simp
    | ret r =>
      obtain ⟨-, -, -, accepted, ha, -, rfl⟩ := sendall_ret_iff.1 hcall
      obtain ⟨hret, hhanded⟩ := ih { s with calls := s.calls + 1, handed := s.handed ++ d.take accepted }
      have hshift : ∀ i, s.calls + 1 + i = s.calls + (i + 1) := fun i => by omega
      simp only [hshift] at hret hhanded
      refine ⟨?_, fun h => ?_⟩
      · dsimp only
        rw [hret]
        simp [Passes]
      · obtain ⟨t, ht, hlen, hfull⟩ := hhanded h
        have hle : accepted.val ≤ d.length := Nat.lt_succ_iff.1 accepted.isLt
        refine ⟨d.take accepted ++ t, ?_, ?_, ?_⟩
        · dsimp only
          rw [ht, List.append_assoc]
        · simp only [List.length_append, List.length_take, List.flatten_cons]
          omega
        · have hfirst : Full E (s.calls + 0) d ↔ accepted = Fin.last d.length := by
            show E.answer s.calls d.length = some (Fin.last d.length) ↔ _
            rw [ha, Option.some.injEq]
          rw [← hfull, hfirst, List.flatten_cons]
          constructor
          · intro heq
            -- no later piece can make up for what was not accepted of this one
            have hall : accepted.val = d.length := by
              have := congrArg List.length heq
              simp only [List.length_append, List.length_take] at this
              omega
            rw [hall, List.take_length] at heq
            exact ⟨Fin.ext hall, List.append_cancel_left heq⟩
          · rintro ⟨hlast, rfl⟩
            rw [hlast, Fin.val_last, List.take_length]

/-- The calls hand over the pieces if they return, exactly under the condition. -/
theorem sendPieces_iff (ds : List Bytes) (s : Sender) : ((sendPieces E ds s).1 = .ret () →
    (sendPieces E ds s).2.handed = s.handed ++ ds.flatten) ↔ AllOrError E s ds := by
  obtain ⟨hret, hhanded⟩ := sendPieces_spec (E := E) ds s
  have hno : (∃ i d, ds[i]? = some d ∧ ¬ Passes E s (s.calls + i) d) ↔ ¬ (sendPieces E ds s).1 = .ret () := by
    rw [hret]
    push Not
    rfl
  rw [AllOrError, hno]
  by_cases h : (sendPieces E ds s).1 = .ret ()
  · obtain ⟨t, ht, -, hfull⟩ := hhanded h
    simp only [h, true_implies, not_true_eq_false, false_or, ← hfull, ht, List.append_cancel_left_eq]
  · simp [h]

/-! ## `flush` -/

theorem pieces_flatten {size : ℕ} (hpos : 0 < size) (data : Bytes) : (pieces size hpos data).flatten = data := by
  induction data using pieces.induct size hpos with
  | case1 => simp [pieces]
  | case2 data h ih =>
    rw [pieces, dif_neg h, List.flatten_cons, ih, List.take_append_drop]

/-- The loop is a call for each piece of what is left. -/
theorem flushLoop_eq {size : ℕ} (hpos : 0 < size) (data : Bytes) (write_offset : ℕ) (s : Sender) :
    ((flushLoop E hpos data write_offset s).1, (flushLoop E hpos data write_offset s).2.2) =
      sendPieces E (pieces size hpos (data.drop write_offset)) s := by
  induction write_offset, s using flushLoop.induct E hpos data with
  | case1 write_offset s h r s' hcall ih =>
    have hne : data.drop write_offset ≠ [] := by simpa using h
    rw [flushLoop, dif_pos h, hcall, pieces, dif_neg hne, sendPieces, Effect.Act.bind_apply, hcall]
    simpa [List.drop_drop] using ih
  | case2 write_offset s h e l s' hcall =>
    have hne : data.drop write_offset ≠ [] := by simpa using h
    rw [flushLoop, dif_pos h, hcall, pieces, dif_neg hne, sendPieces, Effect.Act.bind_apply, hcall]
  | case3 write_offset s h s' hcall =>
    have hne : data.drop write_offset ≠ [] := by simpa using h
    rw [flushLoop, dif_pos h, hcall, pieces, dif_neg hne, sendPieces, Effect.Act.bind_apply, hcall]
  | case4 write_offset s h =>
    have hnil : data.drop write_offset = [] := by simpa using h
    rw [flushLoop, dif_neg h, hnil, pieces, dif_pos rfl]
    rfl

/-- **`flush` is a call for each piece of its buffer.** -/
theorem flush_eq (w : FileSock) : ((flush E w).1, (flush E w).2.sock) =
    sendPieces E (pieces w.file.bufferSize w.file.bufferSize_pos w.file.wbuf.flatten) w.sock := by
  have hloop := flushLoop_eq (E := E) w.file.bufferSize_pos w.file.wbuf.flatten 0 w.sock
  rw [List.drop_zero] at hloop
  rw [← hloop]
  unfold flush
  split
  · rename_i h
    rw [h, flushLoop, dif_neg (by simp)]
  · dsimp only
    rcases flushLoop E w.file.bufferSize_pos w.file.wbuf.flatten 0 w.sock with ⟨o, k, s⟩
    cases o <;> rfl

/-- **All is sent if and only if, of the calls that are made, one does not pass or each has all
accepted**: the one call of `sendall`, and the calls of `flush`. -/
theorem sendsAll_iff (E : SendStack) : (∀ s data, SendsAll E s data ↔ AllOrError E s [data]) ∧
    ∀ w, FlushesAll E w ↔
      AllOrError E w.sock (pieces w.file.bufferSize w.file.bufferSize_pos w.file.wbuf.flatten) := by
  constructor
  · intro s data
    rw [← sendPieces_iff, sendPieces, Effect.Act.bind_apply, SendsAll]
    rcases sendallPico E data s with ⟨o, s'⟩
    cases o with
    | ret r => simp [sendPieces]
    | raise e l => simp
    | block => simp
  · intro w
    rw [← sendPieces_iff, ← flush_eq, pieces_flatten, FlushesAll]
    rcases flush E w with ⟨o, w'⟩
    simp

/-- The stack accepts nothing, as it does when its queue is full. -/
theorem sendsAll_queue_full : ¬ ∀ E s data, SendsAll E s data := by
  intro h
  have := h ⟨fun _ => true, fun _ _ => some 0⟩ ⟨true, true, 0, []⟩ ['a'] 0 ⟨true, true, 1, []⟩
    (sendall_ret_iff.2 ⟨by simp, by decide, rfl, 0, rfl, rfl, rfl⟩)
  cases this

end Vdetelweb
