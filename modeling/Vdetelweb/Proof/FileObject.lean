import Vdetelweb.Lib.Cuts
import Vdetelweb.Lib.Lines
import Vdetelweb.Proof.Recv
import Vdetelweb.Spec.FileObject

/-!
# Reading through a file object

Whatever pieces `recv` returns, a run of calls on the file object returns what the same calls
on the whole stream return (`readRun_refines`), and waits exactly where these would have to.
Each loop is a `Cut` of the stream (`recvWhile_agrees`): its body stops where the cut is as soon
as the cut is seen.

If `recv` raises, what the call had already taken is lost, and nothing else is (`readRun_split`).
-/

namespace Vdetelweb

/-- `recv` as a socket has it: it asks for no more than it is asked for, and for something. -/
def Obeys (E : RecvAnswers) : Prop := ∀ k n count, 0 < n → E k n = .ok count → 0 < count ∧ count ≤ n

/-- No call of `recv` raises. -/
def NeverRaises (E : RecvAnswers) : Prop := ∀ k n e, E k n ≠ .error e

variable {E : RecvAnswers}

/-! ## The calls on a string -/

/-- A line, with its end. -/
abbrev lineCut : Cut Char := .after '\n'

/-- What `read(size)` takes. -/
def readCut (size : ℤ) : Cut Char := if size < 0 then .never else .fixed size.toNat

/-- What `readline(size)` takes. -/
def readlineCut (size : ℤ) : Cut Char := if size < 0 then lineCut else .atMost size.toNat lineCut

/-- A piece taken off a string, with what is left of it. -/
def takeOff (c : Cut Char) (closed : Bool) (b : Bytes) : Effect.Out FileExc Bytes × Bytes :=
  match c.read closed b with
  | some (v, r) => (.ret v, r)
  | none => (.block, b)

/-- `readlines` on a string. -/
def linesOff (closed : Bool) (sizehint : ℤ) (total : ℕ) (list : List Bytes) (b : Bytes) :
    Effect.Out FileExc (List Bytes) × Bytes :=
  match _h : lineCut.read closed b with
  | none => (.block, b)
  | some (line, r) =>
    if _hline : line = [] then (.ret list, r)
    else if sizehint ≠ 0 ∧ (total + line.length : ℤ) ≥ sizehint then (.ret (list ++ [line]), r)
    else linesOff closed sizehint (total + line.length) (list ++ [line]) r
termination_by b.length
decreasing_by
  have hsplit := congrArg List.length (Cut.read_append _h)
  have := List.length_pos_iff.2 _hline
  rw [List.length_append] at hsplit
  omega

/-- **A call on a string** that is all that the stream has. -/
def callOff (closed : Bool) (b : Bytes) : ReadCall → Effect.Out FileExc ReadValue × Bytes
  | .read size => ((takeOff (readCut size) closed b).1.map .str, (takeOff (readCut size) closed b).2)
  | .readline size => ((takeOff (readlineCut size) closed b).1.map .str, (takeOff (readlineCut size) closed b).2)
  | .readlines sizehint => ((linesOff closed sizehint 0 [] b).1.map .list, (linesOff closed sizehint 0 [] b).2)
  | .next => match lineCut.read closed b with
    | some ([], r) => (.raise .stopIteration 742, r)
    | some (line, r) => (.ret (.str line), r)
    | none => (.block, b)

/-! ## One loop -/

/-- **How a call ends** that takes a piece off the stream `b` and leaves `b'`: it returns the
piece, or waits since the end of the piece is not there, or `recv` has raised. -/
def Agrees (c : Cut Char) (closed : Bool) (b : Bytes) : Effect.Out FileExc Bytes → Bytes → Prop
  | .ret v, b' => c.read closed b = some (v, b')
  | .block, _ => c.read closed b = none
  | .raise e _, _ => ∃ e' k n, e = .pyco e' ∧ E k n = .error e'

/-- **A body that stops at a cut**: when it has the end of the piece in what it received, and not
before. -/
def StopsAt (c : Cut Char) (asks : Bytes → ℕ) (turn : Bytes → Bytes → Turn) : Prop :=
  ∀ buf data, c.pos buf = none → data ≠ [] → data.length ≤ asks buf →
    match c.pos (buf ++ data) with
    | none => turn buf data = .more
    | some k => ∃ n, k = buf.length + n ∧ turn buf data = .done n

theorem recv_closed {n : ℕ} {s s' : Source} {o : Effect.Out FileExc Bytes} (h : s.recv E n = (o, s')) :
    s'.closed = s.closed := by
  unfold Source.recv at h
  split at h
  · cases h; rfl
  · split at h <;> cases h <;> rfl

/-- A call that obeys, and what it returns if that is not the end. -/
theorem recv_spec (hE : Obeys E) {n : ℕ} (hn : 0 < n) {s s' : Source} {data : Bytes}
    (h : s.recv E n = (.ret data, s')) : data.length ≤ n ∧ (data = [] → s.pending = [] ∧ s.closed = true) := by
  unfold Source.recv at h
  split at h
  · cases h
  · rename_i count hcount
    obtain ⟨hpos, hle⟩ := hE _ _ _ hn hcount
    split at h
    · rename_i hp
      split at h <;> cases h
      rename_i hc
      exact ⟨Nat.zero_le _, fun _ => ⟨hp, hc⟩⟩
    · rename_i hp
      cases h
      refine ⟨?_, fun hnil => ?_⟩
      · rw [List.length_take]
        omega
      · rcases List.take_eq_nil_iff.1 hnil with h0 | hnil
        · omega
        · exact absurd hnil hp

theorem recv_block {n : ℕ} {s s' : Source} (h : s.recv E n = (.block, s')) :
    s.pending = [] ∧ s.closed = false := by
  unfold Source.recv at h
  split at h
  · cases h
  · split at h
    · rename_i hp
      split at h
      · cases h
      · rename_i hc
        exact ⟨hp, by simpa using hc⟩
    · cases h

theorem recv_raise {n : ℕ} {s s' : Source} {e : FileExc} {l : ℕ} (h : s.recv E n = (.raise e l, s')) :
    ∃ e', e = .pyco e' ∧ E s.calls n = .error e' := by
  unfold Source.recv at h
  split at h
  · rename_i e' he
    cases h
    exact ⟨e', rfl, he⟩
  · split at h
    · split at h <;> cases h
    · cases h

/-- **A loop whose body stops at a cut** takes the piece off what is buffered and what comes. -/
theorem recvWhile_agrees (hE : Obeys E) {c : Cut Char} {asks : Bytes → ℕ} {turn : Bytes → Bytes → Turn}
    (hasks : ∀ buf, c.pos buf = none → 0 < asks buf) (hturn : StopsAt c asks turn) (f : FileReader)
    (hbuf : c.pos f.rbuf = none) :
    Agrees (E := E) c f.source.closed f.bytes (f.finish (recvWhile E asks turn f.rbuf f.source)).1
      (f.finish (recvWhile E asks turn f.rbuf f.source)).2.bytes := by
  rcases f with ⟨size, pos, buf, s⟩
  simp only [FileReader.bytes] at hbuf ⊢
  fun_induction recvWhile E asks turn buf s with
  | case1 buf s e l s' hrecv =>
    obtain ⟨e', he, hk⟩ := recv_raise hrecv
    exact ⟨e', _, _, he, hk⟩
  | case2 buf s s' hrecv =>
    obtain ⟨hp, hc⟩ := recv_block hrecv
    show c.read s.closed (buf ++ s.pending) = none
    rw [hp, hc, List.append_nil, Cut.read_of_none hbuf, if_neg (by decide)]
  | case3 buf s s' hrecv =>
    obtain ⟨hp, hc⟩ := (recv_spec hE (hasks buf hbuf) hrecv).2 rfl
    have hsplit := Source.recv_split hrecv
    rw [List.nil_append, hp] at hsplit
    show c.read s.closed (buf ++ s.pending) = some (buf, [] ++ s'.pending)
    rw [hsplit, hp, hc, List.append_nil, List.append_nil, Cut.read_of_none hbuf, if_pos rfl]
  | case4 buf s data s' hrecv hdata hmore ih =>
    have hlen := (recv_spec hE (hasks buf hbuf) hrecv).1
    have hstop := hturn buf data hbuf hdata hlen
    -- the body goes on, so the end of the piece is not seen yet
    have hnone : c.pos (buf ++ data) = none := by
      cases hpos : c.pos (buf ++ data) with
      | none => rfl
      | some k =>
        rw [hpos] at hstop
        obtain ⟨n, -, hdone⟩ := hstop
        rw [hmore] at hdone
        cases hdone
    have hrest := ih hnone
    rw [List.append_assoc, Source.recv_split hrecv] at hrest
    rwa [recv_closed hrecv] at hrest
  | case5 buf s data s' hrecv hdata n hdone =>
    have hlen := (recv_spec hE (hasks buf hbuf) hrecv).1
    have hstop := hturn buf data hbuf hdata hlen
    cases hpos : c.pos (buf ++ data) with
    | none =>
      rw [hpos, hdone] at hstop
      cases hstop
    | some k =>
      rw [hpos, hdone] at hstop
      obtain ⟨m, rfl, heq⟩ := hstop
      cases heq
      show c.read s.closed (buf ++ s.pending) = some (buf ++ data.take n, data.drop n ++ s'.pending)
      rw [← Source.recv_split hrecv, ← List.append_assoc, Cut.read_of_pos hpos, List.take_length_add_append,
        List.drop_length_add_append]
  | case6 buf s data s' hrecv hdata hassert =>
    have hstop := hturn buf data hbuf hdata (recv_spec hE (hasks buf hbuf) hrecv).1
    rw [hassert] at hstop
    split at hstop
    · cases hstop
    · obtain ⟨n, -, hdone⟩ := hstop
      cases hdone

/-! ## The bodies -/

theorem moreTurn_stops (asks : Bytes → ℕ) : StopsAt .never asks fun _ _ => .more :=
  fun _ _ _ _ _ => rfl

theorem fixed_pos_eq_none {n : ℕ} {b : Bytes} : (Cut.fixed n).pos b = none ↔ b.length < n := by
  rw [Cut.fixed_pos]
  split <;> simp <;> omega

theorem readTurn_stops (size : ℕ) : StopsAt (.fixed size) (fun buf => size - buf.length) (readTurn size) := by
  intro buf data hbuf _ hlen
  rw [fixed_pos_eq_none] at hbuf
  rw [Cut.fixed_pos, List.length_append]
  dsimp only at hlen
  have hnil : buf = [] ↔ buf.length = 0 := List.length_eq_zero_iff.symm
  unfold readTurn
  rcases hlen.lt_or_eq with hlt | heq
  · have hshort : ¬ (data.length = size ∧ buf = []) := by rw [hnil]; omega
    rw [if_neg (by omega), if_neg hshort, if_neg (by omega), if_neg (not_not.2 hlen)]
  · rw [if_pos (by omega)]
    refine ⟨data.length, by omega, ?_⟩
    split
    · rfl
    · rw [if_pos heq]

theorem byteTurn_stops : StopsAt lineCut (fun _ => 1) byteTurn := by
  intro buf data hbuf hdata hlen
  rw [Cut.after_pos_eq_none] at hbuf
  obtain ⟨a, rfl⟩ : ∃ a, data = [a] :=
    List.length_eq_one_iff.1 (le_antisymm hlen (List.length_pos_iff.2 hdata))
  rw [Cut.after_pos_append hbuf, Cut.after_pos]
  unfold byteTurn
  by_cases ha : a = '\n'
  · subst ha
    exact ⟨1, rfl, rfl⟩
  · simp [ha]

theorem lineTurn_stops (size : ℕ) : StopsAt lineCut (fun _ => size) lineTurn := by
  intro buf data hbuf _ _
  rw [Cut.after_pos_eq_none] at hbuf
  rw [Cut.after_pos_append hbuf, Cut.after_pos]
  unfold lineTurn
  cases data.findIdx? (· = '\n') with
  | none => rfl
  | some nl => exact ⟨nl + 1, rfl, rfl⟩

/-- Where a sized line ends is not seen in a buffer that is too short and has no end of line. -/
theorem atMost_pos_eq_none {n : ℕ} {b : Bytes} : (Cut.atMost n lineCut).pos b = none ↔ b.length < n ∧ '\n' ∉ b := by
  rw [Cut.atMost_pos]
  rcases Nat.lt_or_ge b.length n with hn | hn
  · rw [List.take_of_length_le hn.le, if_neg (by omega)]
    cases hpos : lineCut.pos b with
    | none => simp [hn, Cut.after_pos_eq_none.1 hpos]
    | some k =>
      have hmem : '\n' ∈ b := by
        by_contra hb
        rw [Cut.after_pos_eq_none.2 hb] at hpos
        cases hpos
      simp [hmem]
  · rw [if_pos hn]
    have hlong : ¬ b.length < n := by omega
    cases lineCut.pos (b.take n) <;> simp [hlong]

theorem sizedLineTurn_stops (size asked : ℕ) :
    StopsAt (.atMost size lineCut) (fun _ => asked) (sizedLineTurn size) := by
  intro buf data hbuf _ _
  obtain ⟨hshort, hnl⟩ := atMost_pos_eq_none.1 hbuf
  have hnil : buf = [] ↔ buf.length = 0 := List.length_eq_zero_iff.symm
  -- of the first `size` bytes, those that were received
  rw [Cut.atMost_pos, List.take_append, List.take_of_length_le hshort.le, Cut.after_pos_append hnl,
    Cut.after_pos, List.length_append]
  simp only [sizedLineTurn]
  cases (data.take (size - buf.length)).findIdx? (· = '\n') with
  | some nl => exact ⟨nl + 1, rfl, rfl⟩
  | none =>
    simp only [Option.map_none]
    by_cases hlong : size ≤ buf.length + data.length
    · rw [if_pos hlong]
      refine ⟨size - buf.length, by omega, ?_⟩
      split
      · rename_i hall
        rw [hnil] at hall
        congr 1
        omega
      · rw [if_pos (by omega)]
    · have hfew : ¬ (data.length = size ∧ buf = []) := by omega
      rw [if_neg hlong, if_neg hfew, if_neg (by omega)]

/-! ## One call -/

/-- The position that `buf.readline` finds. -/
theorem bufReadline_eq (buf : Bytes) (size : ℤ) {p : ℕ} (hp : (lineCut.pos buf).getD buf.length = p) :
    bufReadline buf size =
      (buf.take (if 0 ≤ size ∧ size < p then size.toNat else p),
        buf.drop (if 0 ≤ size ∧ size < p then size.toNat else p)) := by
  subst hp
  unfold bufReadline
  rw [Cut.after_pos]
  cases buf.findIdx? (· = '\n') <;> rfl

/-- What is in the buffer has no end of line and is too short, or the end of the piece is there and
`buf.readline` finds it. -/
theorem bufReadline_cases (buf : Bytes) (size : ℤ) :
    ('\n' ∉ buf ∧ (0 ≤ size → (buf.length : ℤ) < size) ∧ (readlineCut size).pos buf = none ∧
      bufReadline buf size = (buf, [])) ∨
    ∃ p, (readlineCut size).pos buf = some p ∧ bufReadline buf size = (buf.take p, buf.drop p) ∧
      ((buf.take p).getLast? = some '\n' ∨ ((buf.take p).length : ℤ) = size) := by
  by_cases hmem : '\n' ∈ buf
  · obtain ⟨l, t, hl, rfl⟩ := Lines.exists_line hmem
    have hpos := Cut.after_pos_line hl t
    have hbuf := bufReadline_eq (l ++ '\n' :: t) size (p := l.length + 1) (by rw [hpos, Option.getD_some])
    have htake : (l ++ '\n' :: t).take (l.length + 1) = l ++ ['\n'] := by
      rw [List.take_length_add_append, List.take_succ_cons, List.take_zero]
    right
    unfold readlineCut
    by_cases hsmall : 0 ≤ size ∧ size < ((l.length + 1 : ℕ) : ℤ)
    · -- the size is reached before the end of the line
      rw [if_pos hsmall] at hbuf
      have hle : size.toNat ≤ l.length := by omega
      have hnone : lineCut.pos ((l ++ '\n' :: t).take size.toNat) = none := by
        rw [List.take_append_of_le_length hle, Cut.after_pos_eq_none]
        exact fun h => hl (List.mem_of_mem_take h)
      have hlen : size.toNat ≤ (l ++ '\n' :: t).length := by rw [List.length_append]; omega
      refine ⟨size.toNat, ?_, hbuf, Or.inr ?_⟩
      · rw [if_neg (by omega), Cut.atMost_pos, hnone, if_pos hlen]
      · rw [List.length_take]
        omega
    · rw [if_neg hsmall] at hbuf
      refine ⟨l.length + 1, ?_, hbuf, Or.inl ?_⟩
      · split
        · exact hpos
        · have hfit : l.length + 1 ≤ size.toNat := by omega
          obtain ⟨d, hd⟩ := Nat.exists_eq_add_of_le hfit
          have hcut : (l ++ '\n' :: t).take size.toNat = l ++ '\n' :: t.take d := by
            rw [hd, Nat.add_assoc, List.take_length_add_append, Nat.add_comm, List.take_succ_cons]
          rw [Cut.atMost_pos, hcut, Cut.after_pos_line hl]
      · rw [htake, List.getLast?_concat]
  · have hnone : lineCut.pos buf = none := Cut.after_pos_eq_none.2 hmem
    have hbuf := bufReadline_eq buf size (p := buf.length) (by rw [hnone, Option.getD_none])
    by_cases hshort : 0 ≤ size → (buf.length : ℤ) < size
    · left
      refine ⟨hmem, hshort, ?_, ?_⟩
      · unfold readlineCut
        split
        · exact hnone
        · exact atMost_pos_eq_none.2 ⟨by omega, hmem⟩
      · rw [hbuf, if_neg (by omega), List.take_length, List.drop_length]
    · right
      have hsize : 0 ≤ size ∧ size ≤ buf.length := by omega
      have hq : (if 0 ≤ size ∧ size < buf.length then size.toNat else buf.length) = size.toNat := by
        split <;> omega
      rw [hq] at hbuf
      refine ⟨size.toNat, ?_, hbuf, Or.inr ?_⟩
      · have htake : lineCut.pos (buf.take size.toNat) = none :=
          Cut.after_pos_eq_none.2 fun h => hmem (List.mem_of_mem_take h)
        rw [readlineCut, if_neg (by omega), Cut.atMost_pos, htake, if_pos (by omega)]
      · rw [List.length_take]
        omega

/-- **`read` takes its piece.** -/
theorem read_agrees (hE : Obeys E) (size : ℤ) (f : FileReader) :
    Agrees (E := E) (readCut size) f.source.closed f.bytes (f.read E size).1 (f.read E size).2.bytes := by
  unfold FileReader.read readCut
  by_cases hneg : size < 0
  · rw [if_pos hneg, if_pos hneg]
    have hpos : 0 < max f.rbufsize defaultBufsize := lt_of_lt_of_le f.pos (le_max_left _ _)
    exact recvWhile_agrees hE (fun _ _ => hpos) (moreTurn_stops _) f rfl
  · rw [if_neg hneg, if_neg hneg]
    by_cases hbuf : (f.rbuf.length : ℤ) ≥ size
    · rw [if_pos hbuf]
      have hpos : (Cut.fixed size.toNat).pos f.rbuf = some size.toNat := by
        rw [Cut.fixed_pos, if_pos (by omega)]
      exact Cut.read_of_pos hpos _
    · rw [if_neg hbuf]
      have hasks : ∀ buf : Bytes, (Cut.fixed size.toNat).pos buf = none → 0 < size.toNat - buf.length := by
        intro buf h
        rw [fixed_pos_eq_none] at h
        omega
      exact recvWhile_agrees hE hasks (readTurn_stops _) f (fixed_pos_eq_none.2 (by omega))

/-- **`readline` takes its piece.** -/
theorem readline_agrees (hE : Obeys E) (size : ℤ) (f : FileReader) :
    Agrees (E := E) (readlineCut size) f.source.closed f.bytes (f.readline E size).1
      (f.readline E size).2.bytes := by
  rcases bufReadline_cases f.rbuf size with ⟨hnl, hsize, hnone, hbuf⟩ | ⟨p, hpos, hbuf, htest⟩
  · -- nothing in the buffer is enough
    have hfalse : ¬ (f.rbuf ≠ [] ∧ (f.rbuf.getLast? = some '\n' ∨ (f.rbuf.length : ℤ) = size)) := by
      rintro ⟨-, hlast | hlen⟩
      · exact hnl (List.mem_of_getLast? hlast)
      · omega
    simp only [FileReader.readline, hbuf]
    rw [if_neg hfalse]
    unfold readlineCut at hnone ⊢
    by_cases hneg : size < 0
    · rw [if_pos hneg] at hnone
      rw [if_pos hneg, if_pos hneg]
      split
      · exact recvWhile_agrees hE (fun _ _ => Nat.one_pos) byteTurn_stops f hnone
      · exact recvWhile_agrees hE (fun _ _ => f.pos) (lineTurn_stops _) f hnone
    · rw [if_neg hneg] at hnone
      rw [if_neg hneg, if_neg hneg, if_neg (by omega)]
      exact recvWhile_agrees hE (fun _ _ => f.pos) (sizedLineTurn_stops _ _) f hnone
  · have hread : (readlineCut size).read f.source.closed f.bytes =
        some (f.rbuf.take p, f.rbuf.drop p ++ f.source.pending) := Cut.read_of_pos hpos _
    simp only [FileReader.readline, hbuf]
    by_cases hne : f.rbuf = []
    · -- only a piece of no length is there in an empty buffer
      have hp := (readlineCut size).le_length hpos
      have hzero : size = 0 := by
        rcases htest with hlast | hlen
        · rw [hne, List.take_nil] at hlast
          cases hlast
        · rw [hne, List.take_nil] at hlen
          exact hlen.symm
      subst hzero
      rw [if_neg (fun h => h.1 hne), if_neg (by omega), if_pos (by simp)]
      rw [hne, List.take_nil, List.drop_nil] at hread
      show (readlineCut 0).read _ _ = some (f.rbuf.take 0, f.rbuf.drop 0 ++ f.source.pending)
      rw [hread, hne]
      rfl
    · rw [if_pos ⟨hne, htest⟩]
      exact hread

/-- **A call that does what a call on the stream does**, `spec`, or has met an exception. -/
def Follows {α : Type} (spec : Effect.Out FileExc α × Bytes) : Effect.Out FileExc α → Bytes → Prop
  | .ret v, b' => spec = (.ret v, b')
  | .block, _ => spec.1 = .block
  | .raise e l, b' => spec = (.raise e l, b') ∨ ∃ e' k n, e = .pyco e' ∧ E k n = .error e'

theorem Agrees.follows {c : Cut Char} {closed : Bool} {b b' : Bytes} {o : Effect.Out FileExc Bytes}
    (h : Agrees (E := E) c closed b o b') : Follows (E := E) (takeOff c closed b) o b' := by
  unfold takeOff
  cases o with
  | ret v => rw [show c.read closed b = some (v, b') from h]; rfl
  | raise e l => exact Or.inr h
  | block => rw [show c.read closed b = none from h]; rfl

theorem Follows.map {α β : Type} {spec : Effect.Out FileExc α × Bytes} {o : Effect.Out FileExc α} {b' : Bytes}
    (h : Follows (E := E) spec o b') (g : α → β) :
    Follows (E := E) (spec.1.map g, spec.2) (o.map g) b' := by
  cases o with
  | ret v => rw [show spec = _ from h]; rfl
  | raise e l =>
    rcases h with rfl | h
    · exact Or.inl rfl
    · exact Or.inr h
  | block => rw [show spec.1 = _ from h]; rfl

/-! ## Whether the peer has closed -/

theorem recvWhile_closed (asks : Bytes → ℕ) (turn : Bytes → Bytes → Turn) (buf : Bytes) (s : Source) :
    (recvWhile E asks turn buf s).2.closed = s.closed := by
  fun_induction recvWhile E asks turn buf s with
  | case1 _ _ _ _ _ hrecv => exact recv_closed hrecv
  | case2 _ _ _ hrecv => exact recv_closed hrecv
  | case3 _ _ _ hrecv => exact recv_closed hrecv
  | case4 _ _ _ _ hrecv _ _ ih => exact ih.trans (recv_closed hrecv)
  | case5 _ _ _ _ hrecv => exact recv_closed hrecv
  | case6 _ _ _ _ hrecv => exact recv_closed hrecv

theorem finish_closed (f : FileReader) (r : Effect.Out FileExc (Bytes × Bytes) × Source) :
    (f.finish r).2.source = r.2 := by
  rcases r with ⟨⟨v, r⟩ | ⟨e, l⟩ | -, s⟩ <;> rfl

theorem read_closed (size : ℤ) (f : FileReader) : (f.read E size).2.source.closed = f.source.closed := by
  unfold FileReader.read
  split_ifs
  · rw [finish_closed, recvWhile_closed]
  · rfl
  · rw [finish_closed, recvWhile_closed]

theorem readline_closed {size : ℤ} {f f' : FileReader} {o : Effect.Out FileExc Bytes}
    (h : f.readline E size = (o, f')) : f'.source.closed = f.source.closed := by
  obtain rfl : (f.readline E size).2 = f' := congrArg Prod.snd h
  simp only [FileReader.readline]
  split_ifs
  · rfl
  · rw [finish_closed, recvWhile_closed]
  · rw [finish_closed, recvWhile_closed]
  · rfl
  · rw [finish_closed, recvWhile_closed]

/-! ## Lines -/

theorem linesOff_none {closed : Bool} {b : Bytes} (h : lineCut.read closed b = none) (sizehint : ℤ)
    (total : ℕ) (list : List Bytes) : linesOff closed sizehint total list b = (.block, b) := by
  rw [linesOff]
  split
  · rfl
  · rename_i hsome
    rw [h] at hsome
    cases hsome

theorem linesOff_some {closed : Bool} {b line r : Bytes} (h : lineCut.read closed b = some (line, r))
    (sizehint : ℤ) (total : ℕ) (list : List Bytes) : linesOff closed sizehint total list b =
      if line = [] then (.ret list, r)
      else if sizehint ≠ 0 ∧ (total + line.length : ℤ) ≥ sizehint then (.ret (list ++ [line]), r)
      else linesOff closed sizehint (total + line.length) (list ++ [line]) r := by
  rw [linesOff]
  split
  · rename_i hnone
    rw [h] at hnone
    cases hnone
  · rename_i hsome
    rw [h] at hsome
    cases hsome
    rfl

/-- **`readlines` takes its lines.** -/
theorem readlinesFrom_follows (hE : Obeys E) (sizehint : ℤ) (total : ℕ) (list : List Bytes) (f : FileReader) :
    Follows (E := E) (linesOff f.source.closed sizehint total list f.bytes)
      (f.readlinesFrom E sizehint total list).1 (f.readlinesFrom E sizehint total list).2.bytes := by
  fun_induction FileReader.readlinesFrom E sizehint total list f with
  | case1 total list f e l f' hline =>
    have h := readline_agrees hE (-1) f
    rw [hline] at h
    exact Or.inr h
  | case2 total list f f' hline =>
    have h := readline_agrees hE (-1) f
    rw [hline] at h
    rw [linesOff_none h]
    rfl
  | case3 total list f f' hline =>
    have h := readline_agrees hE (-1) f
    rw [hline] at h
    rw [linesOff_some h, if_pos rfl]
    rfl
  | case4 total list f line f' hline hne hhint =>
    have h := readline_agrees hE (-1) f
    rw [hline] at h
    rw [linesOff_some h, if_neg hne, if_pos hhint]
    rfl
  | case5 total list f line f' hline hne hhint ih =>
    have h := readline_agrees hE (-1) f
    rw [hline] at h
    rw [linesOff_some h, if_neg hne, if_neg hhint, ← readline_closed hline]
    exact ih

theorem readlinesFrom_closed (sizehint : ℤ) (total : ℕ) (list : List Bytes) (f : FileReader) :
    (f.readlinesFrom E sizehint total list).2.source.closed = f.source.closed := by
  fun_induction FileReader.readlinesFrom E sizehint total list f with
  | case1 _ _ _ _ _ _ hline => exact readline_closed hline
  | case2 _ _ _ _ hline => exact readline_closed hline
  | case3 _ _ _ _ hline => exact readline_closed hline
  | case4 _ _ _ _ _ hline => exact readline_closed hline
  | case5 _ _ _ _ _ hline _ _ ih => exact ih.trans (readline_closed hline)

/-! ## Any call -/

theorem next_follows (hE : Obeys E) (f : FileReader) : Follows (E := E) (callOff f.source.closed f.bytes .next)
    ((f.next E).1.map .str) (f.next E).2.bytes ∧ (f.next E).2.source.closed = f.source.closed := by
  have h := readline_agrees hE (-1) f
  rcases hline : f.readline E (-1) with ⟨line | ⟨e, l⟩ | -, f'⟩
  · have hc := readline_closed hline
    rw [hline] at h
    have hread : lineCut.read f.source.closed f.bytes = some (line, f'.bytes) := h
    unfold FileReader.next callOff
    rw [hline, hread]
    cases line with
    | nil => exact ⟨Or.inl rfl, hc⟩
    | cons a line => exact ⟨rfl, hc⟩
  · have hc := readline_closed hline
    rw [hline] at h
    unfold FileReader.next
    rw [hline]
    exact ⟨Or.inr h, hc⟩
  · have hc := readline_closed hline
    rw [hline] at h
    have hread : lineCut.read f.source.closed f.bytes = none := h
    unfold FileReader.next callOff
    rw [hline, hread]
    exact ⟨rfl, hc⟩

/-- **A call takes what the same call on the stream takes**, unless `recv` raises. -/
theorem call_follows (hE : Obeys E) (f : FileReader) (c : ReadCall) :
    Follows (E := E) (callOff f.source.closed f.bytes c) (f.call E c).1 (f.call E c).2.bytes ∧
      (f.call E c).2.source.closed = f.source.closed := by
  cases c with
  | read size => exact ⟨(read_agrees hE size f).follows.map ReadValue.str, read_closed size f⟩
  | readline size => exact ⟨(readline_agrees hE size f).follows.map ReadValue.str, readline_closed rfl⟩
  | readlines sizehint =>
    exact ⟨(readlinesFrom_follows hE sizehint 0 [] f).map ReadValue.list, readlinesFrom_closed sizehint 0 [] f⟩
  | next => exact next_follows hE f

/-! ## Runs -/

/-- The calls on a string one after the other. -/
def runOff (closed : Bool) : Bytes → List ReadCall → List (Effect.Out FileExc ReadValue) × Bytes
  | b, [] => ([], b)
  | b, c :: cs => match callOff closed b c with
    | (.block, b) => ([.block], b)
    | (o, b) => (o :: (runOff closed b cs).1, (runOff closed b cs).2)

/-- **A run of calls returns what the same calls on the whole stream return**, in whatever pieces
`recv` has the stream, and waits where they would. What is left to read is the same too. -/
theorem readRun_refines (hE : Obeys E) (hraise : NeverRaises E) (cs : List ReadCall) (f : FileReader) :
    (f.run E cs).1 = (runOff f.source.closed f.bytes cs).1 ∧
      (.block ∉ (f.run E cs).1 → (f.run E cs).2.bytes = (runOff f.source.closed f.bytes cs).2) := by
  induction cs generalizing f with
  | nil => exact ⟨rfl, fun _ => rfl⟩
  | cons c cs ih =>
    obtain ⟨hfollows, hclosed⟩ := call_follows hE f c
    rcases hcall : f.call E c with ⟨o, f'⟩
    rw [hcall] at hfollows hclosed
    have hrest := ih f'
    rw [show f'.source.closed = f.source.closed from hclosed] at hrest
    rw [FileReader.run, runOff, hcall]
    cases o with
    | block =>
      have hspec : (callOff f.source.closed f.bytes c).1 = .block := hfollows
      rcases hoff : callOff f.source.closed f.bytes c with ⟨o, b⟩
      rw [hoff] at hspec
      cases hspec
      exact ⟨rfl, fun h => absurd List.mem_cons_self h⟩
    | ret v =>
      rw [show callOff f.source.closed f.bytes c = (.ret v, f'.bytes) from hfollows]
      refine ⟨congrArg _ hrest.1, fun h => hrest.2 ?_⟩
      exact fun hmem => h (List.mem_cons_of_mem _ hmem)
    | raise e l =>
      have hspec : callOff f.source.closed f.bytes c = (.raise e l, f'.bytes) := by
        rcases hfollows with h | ⟨e', k, n, -, h⟩
        · exact h
        · exact absurd h (hraise k n e')
      rw [hspec]
      refine ⟨congrArg _ hrest.1, fun h => hrest.2 ?_⟩
      exact fun hmem => h (List.mem_cons_of_mem _ hmem)

/-- Lines, some bytes and the end of the iteration, of a stream that comes by single bytes. -/
theorem readRun_refines_bytes :
    let f := Source.makefile ⟨"ab\ncd\ne".toList, true, 0⟩ 0
    let cs := [.readline 2, .next, .read 4, .readlines 0, .next]
    (f.run (fun _ _ => .ok 1) cs).1 = (runOff f.source.closed f.bytes cs).1 := by
  refine (readRun_refines ?_ ?_ _ _).1
  · intro k n count hn h
    cases h
    exact ⟨Nat.one_pos, hn⟩
  · intro k n e h
    cases h

/-- **A clean call of `recv`** on an adapter returns what such a socket returns. -/
theorem recv_of_clean {c : RecvCall} (hc : c.Clean) (hbytes : c.bytes ≠ []) {s : Source}
    (hs : c.bytes <+: s.pending) (hE : E s.calls c.size = .ok c.bytes.length) :
    ∃ b, c.result = .ok b ∧ (s.recv E c.size).1 = .ret b ∧ 0 < b.length ∧ b.length ≤ c.size := by
  obtain ⟨-, hresult, hsize⟩ := (c.clean_iff).1 hc
  obtain ⟨t, ht⟩ := hs
  have hne : s.pending ≠ [] := by
    rw [← ht]
    exact List.append_ne_nil_of_left_ne_nil hbytes t
  refine ⟨c.bytes, hresult, ?_, List.length_pos_iff.2 hbytes, hsize⟩
  rw [Source.recv, hE]
  dsimp only
  rw [if_neg hne, ← ht, List.take_left]

/-! ## What is lost -/

/-- What a call took off the stream: what it returns, and nothing at the end of an iteration. What
a call took that raises or waits is in no one's hands. -/
def Took : Effect.Out FileExc ReadValue → Bytes → Prop
  | .ret v, p => p = v.bytes
  | .raise .stopIteration _, p => p = []
  | .raise _ _, _ => True
  | .block, _ => True

theorem recv_suffix {n : ℕ} {s s' : Source} {o : Effect.Out FileExc Bytes} (h : s.recv E n = (o, s')) :
    s'.pending <:+ s.pending := by
  unfold Source.recv at h
  split at h
  · cases h
    exact List.suffix_refl _
  · split at h
    · cases h
      exact List.suffix_refl _
    · cases h
      exact List.drop_suffix ..

theorem recvWhile_suffix (asks : Bytes → ℕ) (turn : Bytes → Bytes → Turn) (buf : Bytes) (s : Source) :
    (recvWhile E asks turn buf s).2.pending <:+ s.pending ∧
      ∀ l, (recvWhile E asks turn buf s).1 ≠ .raise .stopIteration l := by
  fun_induction recvWhile E asks turn buf s with
  | case1 _ _ _ _ _ hrecv =>
    refine ⟨recv_suffix hrecv, fun l h => ?_⟩
    obtain ⟨e', rfl, -⟩ := recv_raise hrecv
    cases h
  | case2 _ _ _ hrecv => exact ⟨recv_suffix hrecv, fun _ => Effect.Out.block_ne_raise _ _⟩
  | case3 _ _ _ hrecv => exact ⟨recv_suffix hrecv, fun _ => Effect.Out.ret_ne_raise _ _ _⟩
  | case4 _ _ _ _ hrecv _ _ ih => exact ⟨ih.1.trans (recv_suffix hrecv), ih.2⟩
  | case5 _ _ _ _ hrecv => exact ⟨recv_suffix hrecv, fun _ => Effect.Out.ret_ne_raise _ _ _⟩
  | case6 _ _ _ _ hrecv =>
    refine ⟨recv_suffix hrecv, fun l h => ?_⟩
    cases h

/-- What a call that returns a string does to the stream `b`, of which it leaves `b'`. -/
def Splits (b : Bytes) : Effect.Out FileExc Bytes → Bytes → Prop
  | .ret v, b' => v ++ b' = b
  | .raise e _, b' => e ≠ .stopIteration ∧ b' <:+ b
  | .block, b' => b' <:+ b

theorem finish_splits (f : FileReader) (asks : Bytes → ℕ) (turn : Bytes → Bytes → Turn) :
    Splits f.bytes (f.finish (recvWhile E asks turn f.rbuf f.source)).1
      (f.finish (recvWhile E asks turn f.rbuf f.source)).2.bytes := by
  obtain ⟨hsuffix, hstop⟩ := recvWhile_suffix (E := E) asks turn f.rbuf f.source
  have hbytes := hsuffix.trans (List.suffix_append f.rbuf f.source.pending)
  rcases hloop : recvWhile E asks turn f.rbuf f.source with ⟨⟨v, r⟩ | ⟨e, l⟩ | -, s'⟩
  · exact recvWhile_split hloop
  · rw [hloop] at hbytes hstop
    exact ⟨fun he => hstop l (he ▸ rfl), hbytes⟩
  · rw [hloop] at hbytes
    exact hbytes

theorem read_splits (size : ℤ) (f : FileReader) : Splits f.bytes (f.read E size).1 (f.read E size).2.bytes := by
  unfold FileReader.read
  split_ifs
  · exact finish_splits ..
  · show f.rbuf.take size.toNat ++ (f.rbuf.drop size.toNat ++ f.source.pending) = f.bytes
    rw [← List.append_assoc, List.take_append_drop, FileReader.bytes]
  · exact finish_splits ..

theorem readline_splits (size : ℤ) (f : FileReader) :
    Splits f.bytes (f.readline E size).1 (f.readline E size).2.bytes := by
  simp only [FileReader.readline]
  split_ifs
  · show (bufReadline f.rbuf size).1 ++ ((bufReadline f.rbuf size).2 ++ f.source.pending) = f.bytes
    rw [← List.append_assoc, bufReadline_append, FileReader.bytes]
  · exact finish_splits ..
  · exact finish_splits ..
  · show f.rbuf.take size.toNat ++ (f.rbuf.drop size.toNat ++ f.source.pending) = f.bytes
    rw [← List.append_assoc, List.take_append_drop, FileReader.bytes]
  · exact finish_splits ..

theorem readlinesFrom_splits (sizehint : ℤ) (total : ℕ) (list : List Bytes) (f : FileReader) :
    match f.readlinesFrom E sizehint total list with
    | (.ret ls, f') => ls.flatten ++ f'.bytes = list.flatten ++ f.bytes
    | (.raise e _, f') => e ≠ .stopIteration ∧ f'.bytes <:+ f.bytes
    | (.block, f') => f'.bytes <:+ f.bytes := by
  fun_induction FileReader.readlinesFrom E sizehint total list f with
  | case1 total list f e l f' hline =>
    have h := readline_splits (E := E) (-1) f
    rwa [hline] at h
  | case2 total list f f' hline =>
    have h := readline_splits (E := E) (-1) f
    rwa [hline] at h
  | case3 total list f f' hline =>
    show list.flatten ++ f'.bytes = _
    rw [← FileReader.readline_split hline, List.nil_append]
  | case4 total list f line f' hline hne hhint =>
    show (list ++ [line]).flatten ++ f'.bytes = _
    rw [List.flatten_concat, List.append_assoc, FileReader.readline_split hline]
  | case5 total list f line f' hline hne hhint ih =>
    have hsplit := FileReader.readline_split hline
    have hsuffix : f'.bytes <:+ f.bytes := ⟨line, hsplit⟩
    split at ih
    · rw [ih, List.flatten_concat, List.append_assoc, hsplit]
    · exact ⟨ih.1, ih.2.trans hsuffix⟩
    · exact ih.trans hsuffix

theorem took_raise {e : FileExc} (he : e ≠ .stopIteration) (l : ℕ) (p : Bytes) : Took (.raise e l) p := by
  cases e with
  | stopIteration => exact absurd rfl he
  | _ => trivial

/-- A string that is returned, or some bytes that are lost. -/
theorem Splits.took {b b' : Bytes} {o : Effect.Out FileExc Bytes} (h : Splits b o b') :
    ∃ p, Took (o.map .str) p ∧ p ++ b' = b := by
  cases o with
  | ret v => exact ⟨v, rfl, h⟩
  | raise e l =>
    obtain ⟨he, p, hp⟩ := h
    exact ⟨p, took_raise he l p, hp⟩
  | block =>
    obtain ⟨p, hp⟩ := h
    exact ⟨p, trivial, hp⟩

theorem readlines_took (sizehint : ℤ) (f : FileReader) :
    ∃ p, Took ((f.readlines E sizehint).1.map .list) p ∧ p ++ (f.readlines E sizehint).2.bytes = f.bytes := by
  have h := readlinesFrom_splits (E := E) sizehint 0 [] f
  unfold FileReader.readlines
  rcases hlines : f.readlinesFrom E sizehint 0 [] with ⟨ls | ⟨e, l⟩ | -, f'⟩
  · rw [hlines] at h
    exact ⟨ls.flatten, rfl, h⟩
  · rw [hlines] at h
    obtain ⟨he, p, hp⟩ := h
    exact ⟨p, took_raise he l p, hp⟩
  · rw [hlines] at h
    obtain ⟨p, hp⟩ := h
    exact ⟨p, trivial, hp⟩

theorem next_took (f : FileReader) :
    ∃ p, Took ((f.next E).1.map .str) p ∧ p ++ (f.next E).2.bytes = f.bytes := by
  have h := readline_splits (E := E) (-1) f
  unfold FileReader.next
  rcases hline : f.readline E (-1) with ⟨line | ⟨e, l⟩ | -, f'⟩
  · rw [hline] at h
    by_cases hnil : line = []
    · subst hnil
      exact ⟨[], rfl, h⟩
    · simp only [if_neg hnil]
      exact ⟨line, rfl, h⟩
  · rw [hline] at h
    exact h.took
  · rw [hline] at h
    exact h.took

/-- A call, whatever `recv` does: what it took stood at the front of the stream. -/
theorem call_split (f : FileReader) (c : ReadCall) :
    ∃ p, Took (f.call E c).1 p ∧ p ++ (f.call E c).2.bytes = f.bytes := by
  cases c with
  | read size => exact (read_splits size f).took
  | readline size => exact (readline_splits size f).took
  | readlines sizehint => exact readlines_took sizehint f
  | next => exact next_took f

/-- **Nothing is returned twice or out of order, and only a call that raises loses anything**,
whatever `recv` does, also if it returns more than it was asked for. -/
theorem readRun_split (f : FileReader) (cs : List ReadCall) : ∃ ps : List Bytes,
    List.Forall₂ Took (f.run E cs).1 ps ∧ ps.flatten ++ (f.run E cs).2.bytes = f.bytes := by
  induction cs generalizing f with
  | nil => exact ⟨[], .nil, rfl⟩
  | cons c cs ih =>
    obtain ⟨p, htook, hsplit⟩ := call_split (E := E) f c
    rcases hcall : f.call E c with ⟨o, f'⟩
    rw [hcall] at htook hsplit
    obtain ⟨ps, htooks, hsplits⟩ := ih f'
    rw [FileReader.run, hcall]
    cases o with
    | block => exact ⟨[p], .cons htook .nil, by rw [List.flatten_singleton]; exact hsplit⟩
    | ret v =>
      refine ⟨p :: ps, .cons htook htooks, ?_⟩
      rw [List.flatten_cons, List.append_assoc, hsplits]
      exact hsplit
    | raise e l =>
      refine ⟨p :: ps, .cons htook htooks, ?_⟩
      rw [List.flatten_cons, List.append_assoc, hsplits]
      exact hsplit

end Vdetelweb
