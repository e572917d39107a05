import Vdetelweb.Proof.TreeRuns
import Vdetelweb.Spec.TcpIn

/-!
# What is received over TCP is what was sent

A peer sends its bytes in segments, each of which may be lost, come twice or come late; none comes that
is more than 2^30 away from what was read. The tree of the segments is a set of such segments (`Pool`), in
the order of the sender, though the sequence numbers wrap. Then what is read, over all calls, is the front
of what was sent (`tcp_delivers`), and each arrival is accounted for (`tcp_accepts`).
-/

namespace Vdetelweb

open Trees PicoTree

/-! ## Sequence numbers -/

/-- **The comparison** is the difference, as a signed number. -/
theorem seq_compare_eq (a b : BitVec 32) : pico_seq_compare a b = (a - b).toInt := by
  have hneg : -(b - a) = a - b := by grind
  unfold pico_seq_compare
  dsimp only
  rw [hneg]
  split_ifs with hlt hthresh hgt hthresh
  · rfl
  · rfl
  · rfl
  · rfl
  · have heq : a = b := by
      have hle : a ≤ b := BitVec.not_lt.1 hlt
      have hge : b ≤ a := BitVec.not_lt.1 hgt
      exact BitVec.le_antisymm hle hge
    rw [heq, BitVec.sub_self]
    rfl

namespace TcpIn

section Stream

-- what the peer sends, segment by segment, from the sequence number `isn` on
variable (data : ℕ → List UInt8) (isn : BitVec 32)

/-- The number of bytes before a segment. -/
def off : ℕ → ℕ
  | 0 => 0
  | i + 1 => off i + (data i).length

/-- The bytes before a segment. -/
def sent : ℕ → List UInt8
  | 0 => []
  | i + 1 => sent i ++ data i

/-- The sequence number of a byte. -/
def seqAt (o : ℕ) : BitVec 32 := isn + BitVec.ofNat 32 o

/-- The segment, as it is put in the queue. -/
def seg (i : ℕ) : Segment := ⟨seqAt isn (off data i), data i⟩

/-- No segment is empty, and each has a `uint16_t` length. -/
def Cut : Prop := ∀ i, data i ≠ [] ∧ (data i).length < 2 ^ 16

/-- The segment is not too far from the byte `p`. -/
def Near (p i : ℕ) : Prop := p < off data i + 2 ^ 30 ∧ off data (i + 1) < p + 2 ^ 30

end Stream

variable {data : ℕ → List UInt8} {isn : BitVec 32} {p p' i j o : ℕ} {S : Set ℕ} {t : PicoTree Segment} {f : Segment}

theorem length_sent (data : ℕ → List UInt8) (i : ℕ) : (sent data i).length = off data i := by
  induction i with
  | zero => rfl
  | succ i ih => rw [sent, List.length_append, ih, off]

theorem off_succ (data : ℕ → List UInt8) (i : ℕ) : off data (i + 1) = off data i + (data i).length := rfl

theorem Cut.off_lt (hcut : Cut data) (i : ℕ) : off data i < off data (i + 1) := by
  have := List.length_pos_of_ne_nil (hcut i).1
  rw [off_succ]
  omega

theorem Cut.strictMono (hcut : Cut data) : StrictMono (off data) := strictMono_nat_of_lt_succ hcut.off_lt

/-- **The difference of sequence numbers** is that of the places, if these are not too far from each other. -/
theorem toInt_seqAt (isn : BitVec 32) {o p : ℕ} (hlow : p < o + 2 ^ 31) (hhigh : o < p + 2 ^ 31) :
    (seqAt isn o - seqAt isn p).toInt = (o : ℤ) - p := by
  have hcancel : seqAt isn o - seqAt isn p = BitVec.ofNat 32 o - BitVec.ofNat 32 p := by
    unfold seqAt
    grind
  have hsub : seqAt isn o - seqAt isn p = BitVec.ofInt 32 ((o : ℤ) - p) := by
    rw [hcancel, Int.sub_eq_add_neg, BitVec.ofInt_add, BitVec.ofInt_neg, BitVec.ofInt_natCast, BitVec.ofInt_natCast,
      BitVec.sub_eq_add_neg]
  rw [hsub, BitVec.toInt_ofInt]
  exact Int.bmod_eq_of_le (by omega) (by omega)

/-- How far a segment is from the byte `p`. -/
def rankAt (isn : BitVec 32) (p : ℕ) (f : Segment) : ℤ := (f.seq - seqAt isn p).toInt

/-- The segments that are not too far from it. -/
def window (isn : BitVec 32) (p : ℕ) : Set Segment := {f | -2 ^ 30 < rankAt isn p f ∧ rankAt isn p f < 2 ^ 30}

/-- **The comparison orders the segments of a window.** -/
theorem agrees_window (isn : BitVec 32) (p : ℕ) : PicoTree.Agrees input_segment_compare (rankAt isn p) (window isn p) := by
  rintro a ⟨ha, ha'⟩ b ⟨hb, hb'⟩
  have hsub : a.seq - b.seq = (a.seq - seqAt isn p) - (b.seq - seqAt isn p) := by grind
  have hcompare : input_segment_compare a b = rankAt isn p a - rankAt isn p b := by
    rw [input_segment_compare, seq_compare_eq, hsub, BitVec.toInt_sub]
    exact Int.bmod_eq_of_le (by unfold rankAt at *; omega) (by unfold rankAt at *; omega)
  rw [hcompare]
  exact ⟨sub_neg, sub_eq_zero⟩

theorem seqAt_add (isn : BitVec 32) (o k : ℕ) : seqAt isn o + BitVec.ofNat 32 k = seqAt isn (o + k) := by
  unfold seqAt
  rw [BitVec.ofNat_add, BitVec.add_assoc]

theorem next_seg (data : ℕ → List UInt8) (isn : BitVec 32) (i : ℕ) : (seg data isn i).next = seqAt isn (off data (i + 1)) :=
  seqAt_add ..

/-! ## The tree of the segments -/

theorem Near.rank (h : Near data p i) (isn : BitVec 32) : rankAt isn p (seg data isn i) = (off data i : ℤ) - p := by
  have hsucc := off_succ data i
  obtain ⟨hlow, hhigh⟩ := h
  exact toInt_seqAt isn (by omega) (by omega)

theorem Near.mem_window (h : Near data p i) (isn : BitVec 32) : seg data isn i ∈ window isn p := by
  have hsucc := off_succ data i
  have hrank := h.rank isn
  obtain ⟨hlow, hhigh⟩ := h
  show -2 ^ 30 < rankAt isn p _ ∧ rankAt isn p _ < 2 ^ 30
  rw [hrank]
  omega

/-- **The tree is the set of the segments**, which are all near `p`. -/
structure Pool (data : ℕ → List UInt8) (isn : BitVec 32) (p : ℕ) (t : PicoTree Segment) (S : Set ℕ) : Prop where
  reached : ∃ W E, Reached (rankAt isn p) (window isn p) t W E ∧ contents E = seg data isn '' S
  near : ∀ i ∈ S, Near data p i

/-- Segments that are near have different ranks. -/
theorem Near.inj (hcut : Cut data) (hi : Near data p i) (hj : Near data p j)
    (h : rankAt isn p (seg data isn i) = rankAt isn p (seg data isn j)) : i = j := by
  rw [hi.rank isn, hj.rank isn] at h
  exact hcut.strictMono.injective (by omega)

/-- **What was read moves on.** -/
theorem Pool.move (h : Pool data isn p t S) (hnear : ∀ i ∈ S, Near data p' i) : Pool data isn p' t S := by
  obtain ⟨W, E, hreached, hE⟩ := h.reached
  have hentry : ∀ e ∈ E, ∃ i ∈ S, seg data isn i = e.2 := by
    intro e he
    have hmem : e.2 ∈ contents E := mem_contents.2 ⟨e, he, rfl⟩
    rwa [hE] at hmem
  refine ⟨⟨W, E, ⟨hreached.toHolds, ?_, fun e he => ?_⟩, hE⟩, hnear⟩
  · refine hreached.sorted.imp_of_mem fun {a b} ha hb hlt => ?_
    obtain ⟨i, hi, hia⟩ := hentry a ha
    obtain ⟨j, hj, hjb⟩ := hentry b hb
    rw [← hia, ← hjb, (h.near i hi).rank isn, (h.near j hj).rank isn] at hlt
    rw [← hia, ← hjb, (hnear i hi).rank isn, (hnear j hj).rank isn]
    omega
  · obtain ⟨i, hi, hie⟩ := hentry e he
    rw [← hie]
    exact (hnear i hi).mem_window isn

variable {q : TcpQueue}

/-- **`peek_segment`.** -/
theorem Pool.peek (h : Pool data isn p q.pool S) (hlow : p < o + 2 ^ 30) (hhigh : o < p + 2 ^ 30) :
    (q.peek_segment (seqAt isn o) = some none ∧ ∀ i ∈ S, off data i ≠ o) ∨
    ∃ i ∈ S, q.peek_segment (seqAt isn o) = some (some (seg data isn i)) ∧ off data i = o := by
  obtain ⟨W, E, hreached, hE⟩ := h.reached
  have hrank : rankAt isn p ⟨seqAt isn o, []⟩ = (o : ℤ) - p := toInt_seqAt isn (by omega) (by omega)
  have hwindow : (⟨seqAt isn o, []⟩ : Segment) ∈ window isn p := by
    show -2 ^ 30 < rankAt isn p _ ∧ rankAt isn p _ < 2 ^ 30
    rw [hrank]
    omega
  unfold TcpQueue.peek_segment
  rcases hreached.findKey hreached.sorted (agrees_window isn p) hreached.within hwindow with ⟨hnone, hlacks⟩ |
    ⟨e, he, hfound, heq⟩
  · refine Or.inl ⟨hnone, fun i hi hoff => ?_⟩
    have hmem : seg data isn i ∈ contents E := by
      rw [hE]
      exact ⟨i, hi, rfl⟩
    obtain ⟨e, he, hie⟩ := mem_contents.1 hmem
    refine hlacks e he ?_
    rw [hie, (h.near i hi).rank isn, hrank, hoff]
  · have hmem : e.2 ∈ contents E := mem_contents.2 ⟨e, he, rfl⟩
    rw [hE] at hmem
    obtain ⟨i, hi, hie⟩ := hmem
    rw [← hie, (h.near i hi).rank isn, hrank] at heq
    refine Or.inr ⟨i, hi, ?_, by omega⟩
    rw [hfound, hie]

/-- **`first_segment`.** -/
theorem Pool.first (h : Pool data isn p q.pool S) : (q.first_segment = some none ∧ S = ∅) ∨
    ∃ i ∈ S, q.first_segment = some (some (seg data isn i)) ∧ ∀ j ∈ S, off data i ≤ off data j := by
  obtain ⟨W, E, hreached, hE⟩ := h.reached
  unfold TcpQueue.first_segment
  rw [hreached.first]
  cases E with
  | nil =>
    refine Or.inl ⟨rfl, ?_⟩
    rw [contents_nil] at hE
    exact Set.image_eq_empty.1 hE.symm
  | cons e E =>
    have hmem : e.2 ∈ contents (e :: E) := mem_contents.2 ⟨e, List.mem_cons_self, rfl⟩
    rw [hE] at hmem
    obtain ⟨i, hi, hie⟩ := hmem
    refine Or.inr ⟨i, hi, by rw [hie]; rfl, fun j hj => ?_⟩
    have hmem' : seg data isn j ∈ contents (e :: E) := by
      rw [hE]
      exact ⟨j, hj, rfl⟩
    obtain ⟨e', he', hje⟩ := mem_contents.1 hmem'
    rcases List.mem_cons.1 he' with rfl | he'
    · have heq := (h.near i hi).rank isn
      rw [hie, hje, (h.near j hj).rank isn] at heq
      omega
    · have hlt := List.rel_of_pairwise_cons hreached.sorted he'
      rw [← hie, hje, (h.near i hi).rank isn, (h.near j hj).rank isn] at hlt
      omega

/-- **A segment is put in**, or it was there. -/
theorem Pool.insert (hcut : Cut data) (h : Pool data isn p t S) (hi : Near data p i) (node : Bool) :
    ∃ r t', t.insert input_segment_compare node (seg data isn i) = some (r, t') ∧
      (r = .done ∧ Pool data isn p t' (S ∪ {i}) ∨ r ≠ .done ∧ Pool data isn p t' S ∧ (node = true → i ∈ S)) := by
  obtain ⟨W, E, hreached, hE⟩ := h.reached
  rcases hreached.insert hreached.sorted (agrees_window isn p) hreached.within (hi.mem_window isn) node with
    ⟨e, he, hinsert, hrank⟩ | ⟨-, ⟨rfl, hinsert⟩ | ⟨rfl, t', W', E₁, E₂, hinsert, rfl, h', hsorted, -, -⟩⟩
  · refine ⟨_, t, hinsert, Or.inr ⟨(fun hno => by cases hno), h, fun _ => ?_⟩⟩
    have hmem : e.2 ∈ contents E := mem_contents.2 ⟨e, he, rfl⟩
    rw [hE] at hmem
    obtain ⟨k, hk, hke⟩ := hmem
    rw [← hke] at hrank
    rw [← (h.near k hk).inj hcut hi hrank]
    exact hk
  · exact ⟨_, t, hinsert, Or.inr ⟨(fun hno => by cases hno), h, fun hno => by cases hno⟩⟩
  · refine ⟨_, t', hinsert, Or.inl ⟨rfl, ⟨W', _, ⟨h', hsorted, fun e he => ?_⟩, ?_⟩, fun k hk => ?_⟩⟩
    · rcases List.mem_append.1 he with he | he
      · exact hreached.within e (List.mem_append_left _ he)
      · rcases List.mem_cons.1 he with rfl | he
        · exact hi.mem_window isn
        · exact hreached.within e (List.mem_append_right _ he)
    · rw [contents_insert, hE, Set.image_union, Set.image_singleton]
    · rcases hk with hk | rfl
      · exact h.near k hk
      · exact hi

/-- **A segment is taken out.** -/
theorem Pool.delete (hcut : Cut data) (h : Pool data isn p t S) (hi : i ∈ S) : ∃ t',
    t.delete input_segment_compare (seg data isn i) = some (some (seg data isn i), t') ∧
      Pool data isn p t' (S \ {i}) := by
  obtain ⟨W, E, hreached, hE⟩ := h.reached
  rcases hreached.delete hreached.sorted (agrees_window isn p) hreached.within ((h.near i hi).mem_window isn) with
    ⟨-, hlacks⟩ | ⟨t', W', E₁, e, E₂, hdelete, rfl, hrank, h', -⟩
  · have hmem : seg data isn i ∈ contents E := by
      rw [hE]
      exact ⟨i, hi, rfl⟩
    obtain ⟨e, he, hie⟩ := mem_contents.1 hmem
    exact absurd (congrArg _ hie) (hlacks e he)
  · have hmem : e.2 ∈ contents (E₁ ++ e :: E₂) := mem_contents.2 ⟨e, List.mem_append_right _ List.mem_cons_self, rfl⟩
    rw [hE] at hmem
    obtain ⟨k, hk, hke⟩ := hmem
    rw [← hke] at hrank
    obtain rfl := (h.near k hk).inj hcut (h.near i hi) hrank
    rw [← hke] at hdelete
    have herase := hreached.sorted.contents_erase
    refine ⟨t', hdelete, ⟨W', _, ⟨h', hreached.sorted.around.2.2, fun e' he' => hreached.within e' ?_⟩, ?_⟩,
      fun j hj => h.near j hj.1⟩
    · rcases List.mem_append.1 he' with he' | he'
      · exact List.mem_append_left _ he'
      · exact List.mem_append_right _ (List.mem_cons_of_mem _ he')
    · rw [herase, hE, ← hke, ← Set.image_singleton]
      refine (Set.InjOn.image_sdiff_subset ?_ ?_).symm
      · intro a ha b hb hab
        exact (h.near a ha).inj hcut (h.near b hb) (congrArg _ hab)
      · exact Set.singleton_subset_iff.2 hk

/-! ## The queue -/

/-- **What the input of a socket keeps**: `p` bytes were read, `j` segments came without a hole, and the
segments `S` are in the queue. -/
structure Inv (data : ℕ → List UInt8) (isn : BitVec 32) (t : TcpIn) (p j : ℕ) (S : Set ℕ) : Prop where
  pool : Pool data isn p t.tcpq_in.pool S
  processed : t.rcv_processed = seqAt isn p
  nxt : t.rcv_nxt = seqAt isn (off data j)
  le : p ≤ off data j
  close : off data j < p + 2 ^ 30
  hole : j ∉ S
  unread : ∀ i, i < j → p < off data (i + 1) → i ∈ S
  fresh : ∀ i ∈ S, p ≤ off data (i + 1)

variable {s : TcpIn}

/-- **`pico_discard_segment`.** -/
theorem discard_spec (hcut : Cut data) (h : Pool data isn p q.pool S) (hi : i ∈ S) :
    ∃ q', q.pico_discard_segment (seg data isn i) = some q' ∧ Pool data isn p q'.pool (S \ {i}) := by
  obtain ⟨t', hdelete, h'⟩ := h.delete hcut hi
  unfold TcpQueue.pico_discard_segment
  rw [hdelete]
  exact ⟨_, rfl, h'⟩

/-- The tree has `LEAF` at least, and there are as many turns. -/
theorem Pool.next_pos (h : Pool data isn p t S) : 0 < t.next := by
  obtain ⟨W, E, hreached, -⟩ := h.reached
  exact hreached.bound LEAF ((hreached.live LEAF).2 (Or.inl rfl))

/-- There are fewer segments than turns. -/
theorem Pool.ncard_lt (hcut : Cut data) (h : Pool data isn p t S) : S.Finite ∧ S.ncard < t.next := by
  obtain ⟨W, E, hreached, hE⟩ := h.reached
  have hinj : Set.InjOn (seg data isn) S := fun a ha b hb hab => (h.near a ha).inj hcut (h.near b hb) (congrArg _ hab)
  obtain ⟨hfinite, hncard⟩ := hreached.sorted.ncard
  have hlt := hreached.size_lt
  rw [hE] at hfinite hncard
  rw [hinj.ncard_image] at hncard
  rw [hreached.size_eq, ← hncard] at hlt
  exact ⟨hfinite.of_finite_image hinj, hlt⟩

/-- **`release_until`**: what was read whole is gone. -/
theorem release_spec (hcut : Cut data) (h : Inv data isn s p j S) : ∃ ret q,
    s.tcpq_in.release_until (seqAt isn p) = some (ret, q) ∧ Inv data isn { s with tcpq_in := q } p j {i ∈ S | p < off data (i + 1)} := by
  have hkeep : ∀ q, Pool data isn p q.pool {i ∈ S | p < off data (i + 1)} →
      Inv data isn { s with tcpq_in := q } p j {i ∈ S | p < off data (i + 1)} := fun q hq =>
    { pool := hq, processed := h.processed, nxt := h.nxt, le := h.le, close := h.close, hole := fun hj => h.hole hj.1,
      unread := fun i hi hp => ⟨h.unread i hi hp, hp⟩, fresh := fun i hi => hi.2.le }
  unfold TcpQueue.release_until
  rcases h.pool.first with ⟨hnone, hS⟩ | ⟨i, hi, hfirst, hmin⟩
  · rw [hnone]
    refine ⟨0, s.tcpq_in, rfl, hkeep _ ?_⟩
    have hsame : {i ∈ S | p < off data (i + 1)} = S := by
      rw [hS]
      exact Set.sep_empty _
    rw [hsame]
    exact h.pool
  · rw [hfirst, Option.bind_eq_bind, Option.bind_some]
    dsimp only
    have hnext := h.pool.next_pos
    have hlow := (h.pool.near i hi).1
    have hhigh := (h.pool.near i hi).2
    have hsucc := hcut.off_lt i
    have hcompare : ∀ k ∈ S, pico_seq_compare (seg data isn k).next (seqAt isn p) = (off data (k + 1) : ℤ) - p := by
      intro k hk
      have hk' := h.pool.near k hk
      have := hcut.off_lt k
      obtain ⟨hlow, hhigh⟩ := hk'
      rw [seq_compare_eq, next_seg, toInt_seqAt isn (by omega) (by omega)]
    rw [TcpQueue.releaseLoop, hcompare i hi]
    have hmono : ∀ k ∈ S, i ≤ k := fun k hk => hcut.strictMono.le_iff_le.1 (hmin k hk)
    by_cases hdone : p < off data (i + 1)
    · -- the first segment is not read whole
      rw [if_neg (by omega)]
      have hsame : {i ∈ S | p < off data (i + 1)} = S := by
        refine Set.sep_eq_self_iff_mem_true.2 fun k hk => ?_
        exact hdone.trans_le (hcut.strictMono.monotone (Nat.succ_le_succ (hmono k hk)))
      refine ⟨0, s.tcpq_in, rfl, hkeep _ ?_⟩
      rw [hsame]
      exact h.pool
    · have hend : off data (i + 1) = p := le_antisymm (not_lt.1 hdone) (h.fresh i hi)
      rw [if_pos (by omega)]
      obtain ⟨q', hdiscard, h'⟩ := discard_spec hcut h.pool hi
      have hrest : {k ∈ S | p < off data (k + 1)} = S \ {i} := by
        ext k
        rw [Set.mem_sep_iff, Set.mem_sdiff, Set.mem_singleton_iff]
        refine and_congr_right fun hk => ⟨?_, fun hne => ?_⟩
        · rintro hlt rfl
          exact hdone hlt
        · have hlt : i + 1 < k + 1 := Nat.succ_lt_succ (lt_of_le_of_ne (hmono k hk) (Ne.symm hne))
          rw [← hend]
          exact hcut.strictMono hlt
      have hpeek := h.pool.peek (o := p) (by omega) (by omega)
      unfold TcpQueue.next_segment
      rw [next_seg, hend]
      rcases hpeek with ⟨hnone, -⟩ | ⟨k, hk, hfound, hoff⟩
      · refine ⟨1, q', ?_, hkeep _ (by rw [hrest]; exact h')⟩
        simp only [hnone, hdiscard, Option.bind_eq_bind, Option.bind_some]
      · -- the next one begins here, and was not read
        have hk' := hcut.off_lt k
        obtain ⟨n, hn⟩ : ∃ n, s.tcpq_in.pool.next = n + 1 := ⟨s.tcpq_in.pool.next - 1, by omega⟩
        refine ⟨1, q', ?_, hkeep _ (by rw [hrest]; exact h')⟩
        simp only [hfound, hdiscard, Option.bind_eq_bind, Option.bind_some]
        rw [hn, TcpQueue.releaseLoop, hcompare k hk, if_neg (by omega)]
        rfl

/-! ## `pico_tcp_read` -/

theorem sent_append (data : ℕ → List UInt8) {i j : ℕ} (hij : i ≤ j) : ∃ rest, sent data j = sent data i ++ rest := by
  induction j, hij using Nat.le_induction with
  | base => exact ⟨[], (List.append_nil _).symm⟩
  | succ j _ ih =>
    obtain ⟨rest, hrest⟩ := ih
    exact ⟨rest ++ data j, by rw [sent, hrest, List.append_assoc]⟩

/-- **What is copied out of a segment** is what comes next. -/
theorem take_copied {k : ℕ} (hij : i < j) (hlow : off data i ≤ p) (hhigh : p + k ≤ off data (i + 1)) :
    (sent data j).take p ++ ((data i).drop (p - off data i)).take k = (sent data j).take (p + k) := by
  obtain ⟨rest, hrest⟩ := sent_append data hij
  have hlength := length_sent data i
  have hsucc := off_succ data i
  have hsent : sent data j = sent data i ++ (data i ++ rest) := by
    rw [hrest]
    exact List.append_assoc (sent data i) (data i) rest
  have hdrop : (sent data j).drop p = (data i).drop (p - off data i) ++ rest := by
    rw [hsent, List.drop_append, List.drop_eq_nil_of_le (by omega), List.nil_append, hlength,
      List.drop_append_of_le_length (by omega)]
  rw [List.take_add, hdrop, List.take_append_of_le_length (by rw [List.length_drop]; omega)]

/-- The first segment is behind a hole, or there is none: all was read. -/
theorem Inv.read_all (h : Inv data isn s p j S) (hS : ∀ i ∈ S, p < off data i) : p = off data j := by
  by_contra hne
  have hlt : p < off data j := lt_of_le_of_ne h.le hne
  -- the last segment that begins before the byte
  have hexists : ∃ i, i < j ∧ off data i ≤ p ∧ p < off data (i + 1) := by
    have hfind : ∃ k, p < off data k := ⟨j, hlt⟩
    classical
    have hspec := Nat.find_spec hfind
    obtain ⟨i, hi⟩ : ∃ i, Nat.find hfind = i + 1 := by
      cases hk : Nat.find hfind with
      | zero =>
        rw [hk] at hspec
        exact absurd hspec (Nat.not_lt_zero p)
      | succ i => exact ⟨i, rfl⟩
    have hmin : ¬ p < off data i := Nat.find_min hfind (by omega)
    have hle : Nat.find hfind ≤ j := Nat.find_min' hfind hlt
    rw [hi] at hspec
    exact ⟨i, by omega, not_lt.1 hmin, hspec⟩
  obtain ⟨i, hij, hlow, hhigh⟩ := hexists
  have := hS i (h.unread i hij hhigh)
  omega

/-- The length that is copied. -/
theorem in_frame_len_eq {tot len : ℕ} (hlow : off data i ≤ p) (hhigh : p < off data (i + 1)) (hlen : (data i).length < 2 ^ 16)
    (htot : tot < len) (hmax : len < 2 ^ 31) :
    tcp_read_in_frame_len (seg data isn i) ((p : ℤ) - off data i) tot len = min (off data (i + 1) - p) (len - tot) := by
  have hsucc := off_succ data i
  have hpayload : (seg data isn i).payload = data i := rfl
  have hrest : (if (p : ℤ) - off data i > 0 then (((data i).length - ((p : ℤ) - off data i)) % 2 ^ 32).toNat
      else (data i).length) = off data (i + 1) - p := by
    split
    · rw [Int.emod_eq_of_lt (by omega) (by omega)]
      omega
    · omega
  unfold tcp_read_in_frame_len
  rw [hpayload, hrest]
  dsimp only
  rw [Nat.mod_eq_of_lt (by omega)]
  split <;> omega

/-- **The bytes of one segment are read.** -/
theorem Inv.copied (hcut : Cut data) (h : Inv data isn s p j S) (hmin : ∀ k ∈ S, i ≤ k) {k : ℕ}
    (hhigh : p + k ≤ off data (i + 1)) (hij : i < j) :
    Inv data isn { s with rcv_processed := s.rcv_processed + BitVec.ofNat 32 k } (p + k) j S := by
  have hmono := hcut.strictMono.monotone
  have hle : off data (i + 1) ≤ off data j := hmono (Nat.succ_le_of_lt hij)
  have hfresh : ∀ m ∈ S, p + k ≤ off data (m + 1) := fun m hm => hhigh.trans (hmono (Nat.succ_le_succ (hmin m hm)))
  refine ⟨h.pool.move fun m hm => ?_, ?_, h.nxt, hhigh.trans hle, ?_, h.hole, fun m hm hp => ?_, hfresh⟩
  · have hnear := (h.pool.near m hm).2
    have hlength := (hcut m).2
    have hsucc := off_succ data m
    have := hfresh m hm
    exact ⟨by omega, by omega⟩
  · rw [h.processed]
    exact seqAt_add ..
  · have := h.close
    omega
  · exact h.unread m hm (by omega)

/-- **`tcp_read_check_segment_done`.** -/
theorem check_done_spec (hcut : Cut data) (h : Inv data isn s p j S) (hi : i ∈ S) {len : ℕ} (hpos : 0 < len)
    (hdone : len = (data i).length → p = off data (i + 1)) : ∃ s' S', s.tcp_read_check_segment_done (seg data isn i) len = some s' ∧
      Inv data isn s' p j S' := by
  have hpayload : (seg data isn i).payload = data i := rfl
  unfold tcp_read_check_segment_done
  rw [hpayload]
  by_cases hall : len = 0 ∨ len = (data i).length
  · have hend := hdone (hall.resolve_left (by omega))
    obtain ⟨q', hdiscard, h'⟩ := discard_spec hcut h.pool hi
    rw [if_pos hall, hdiscard]
    refine ⟨_, S \ {i}, rfl, h', h.processed, h.nxt, h.le, h.close, fun hj => h.hole hj.1, fun m hm hp => ?_,
      fun m hm => h.fresh m hm.1⟩
    refine ⟨h.unread m hm hp, fun hmi => ?_⟩
    rw [Set.mem_singleton_iff.1 hmi, hend] at hp
    exact lt_irrefl _ hp
  · rw [if_neg hall]
    exact ⟨s, S, rfl, h⟩

/-- **The loop of `pico_tcp_read`** reads what is there, in order. -/
theorem readLoop_spec (hcut : Cut data) (turns : ℕ) {len : ℕ} (hmax : len < 2 ^ 31) {buf : List UInt8}
    (h : Inv data isn s p j S) (hbuf : buf.length ≤ len) (hturns : len - buf.length < turns) :
    ∃ bytes s' p' S', readLoop len turns buf s = some (buf ++ bytes, s') ∧ Inv data isn s' p' j S' ∧
      (sent data j).take p ++ bytes = (sent data j).take p' ∧ bytes.length = min (len - buf.length) (off data j - p) := by
  induction turns generalizing s p S buf with
  | zero => exact absurd hturns (Nat.not_lt_zero _)
  | succ turns ih =>
    have hstop : ∀ s' S', Inv data isn s' p j S' → min (len - buf.length) (off data j - p) = 0 →
        ∃ bytes s'' p' S', some (buf, s') = some (buf ++ bytes, s'') ∧ Inv data isn s'' p' j S' ∧
          (sent data j).take p ++ bytes = (sent data j).take p' ∧ bytes.length = min (len - buf.length) (off data j - p) := by
      intro s' S' h' hzero
      exact ⟨[], s', p, S', by rw [List.append_nil], h', List.append_nil _, hzero.symm⟩
    rw [readLoop]
    by_cases hroom : buf.length < len
    · rw [if_pos hroom]
      obtain ⟨ret, q, hrelease, h₁⟩ := release_spec hcut h
      rw [h.processed, hrelease, Option.bind_eq_bind, Option.bind_some]
      dsimp only
      rw [← h.processed]
      rcases h₁.pool.first with ⟨hnone, hS⟩ | ⟨i, hi, hfirst, hmin⟩
      · have hall := h₁.read_all fun i hi => by
          rw [hS] at hi
          exact absurd hi (Set.notMem_empty i)
        have hnone' : q.first_segment = some none := hnone
        rw [hnone']
        exact hstop _ _ h₁ (by omega)
      · have hfirst' : q.first_segment = some (some (seg data isn i)) := hfirst
        have hnear := h₁.pool.near i hi
        have hsucc := off_succ data i
        have hcompare : pico_seq_compare s.rcv_processed (seg data isn i).seq = (p : ℤ) - off data i := by
          have hseq : (seg data isn i).seq = seqAt isn (off data i) := rfl
          obtain ⟨hlow, hhigh⟩ := hnear
          rw [seq_compare_eq, h.processed, hseq, toInt_seqAt isn (by omega) (by omega)]
        rw [hfirst', Option.bind_eq_bind, Option.bind_some]
        dsimp only
        rw [hcompare]
        by_cases hhole : p < off data i
        · -- a hole, or nothing more
          have hall := h₁.read_all fun k hk => hhole.trans_le (hmin k hk)
          rw [if_pos (by omega)]
          exact hstop _ _ h₁ (by omega)
        · have hlow : off data i ≤ p := not_lt.1 hhole
          have hhigh : p < off data (i + 1) := hi.2
          have hle := h.le
          have hij : i < j := by
            have hne : i ≠ j := fun he => h₁.hole (he ▸ hi)
            have hji : ¬ j < i := by
              intro hji
              have := hcut.strictMono hji
              omega
            omega
          have hmono : off data (i + 1) ≤ off data j := hcut.strictMono.monotone (Nat.succ_le_of_lt hij)
          rw [if_neg (by omega), in_frame_len_eq hlow hhigh (hcut i).2 hroom hmax]
          obtain ⟨k, hk⟩ : ∃ k, k = min (off data (i + 1) - p) (len - buf.length) := ⟨_, rfl⟩
          rw [← hk]
          have hcopy : memcpy (seg data isn i).payload ((p : ℤ) - off data i).toNat k =
              some (((data i).drop (p - off data i)).take k) := by
            have hpayload : (seg data isn i).payload = data i := rfl
            have hoffset : ((p : ℤ) - off data i).toNat = p - off data i := by omega
            rw [memcpy, hpayload, hoffset, if_pos (by omega)]
          have hmin' : ∀ m ∈ {i ∈ S | p < off data (i + 1)}, i ≤ m := fun m hm => hcut.strictMono.le_iff_le.1 (hmin m hm)
          have h₂ := h₁.copied hcut hmin' (k := k) (by omega) hij
          have hpos : 0 < k := by omega
          have hdone : k = (data i).length → p + k = off data (i + 1) := by omega
          obtain ⟨s₃, S₃, hcheck, h₃⟩ := check_done_spec hcut h₂ hi hpos hdone
          have hlength : (((data i).drop (p - off data i)).take k).length = k := by
            rw [List.length_take, List.length_drop]
            omega
          have hbuf' : (buf ++ ((data i).drop (p - off data i)).take k).length ≤ len := by
            rw [List.length_append, hlength]
            omega
          have hturns' : len - (buf ++ ((data i).drop (p - off data i)).take k).length < turns := by
            rw [List.length_append, hlength]
            omega
          obtain ⟨bytes, s₄, p₄, S₄, hloop, h₄, hread, hcount⟩ := ih h₃ hbuf' hturns'
          rw [List.length_append, hlength] at hcount
          refine ⟨((data i).drop (p - off data i)).take k ++ bytes, s₄, p₄, S₄, ?_, h₄, ?_, ?_⟩
          · rw [hcopy, Option.bind_eq_bind, Option.bind_some, hcheck, Option.bind_eq_bind, Option.bind_some, hloop,
              List.append_assoc]
          · rw [← List.append_assoc, take_copied hij hlow (by omega)]
            exact hread
          · rw [List.length_append, hlength, hcount]
            omega
    · rw [if_neg hroom]
      exact hstop s S h (by omega)

/-! ## `tcp_data_in` -/

/-- Before `rcv_nxt` scrolls over the segments that came early. -/
structure Early (data : ℕ → List UInt8) (isn : BitVec 32) (t : TcpIn) (p j : ℕ) (S : Set ℕ) : Prop where
  pool : Pool data isn p t.tcpq_in.pool S
  processed : t.rcv_processed = seqAt isn p
  nxt : t.rcv_nxt = seqAt isn (off data j)
  le : p ≤ off data j
  close : off data j < p + 2 ^ 30
  unread : ∀ i, i < j → p < off data (i + 1) → i ∈ S
  fresh : ∀ i ∈ S, p ≤ off data (i + 1)

/-- Less is left behind a segment than from it on. -/
theorem ncard_behind_lt (hcut : Cut data) (h : Pool data isn p t S) (hi : i ∈ S) :
    (S ∩ Set.Ici (i + 1)).ncard < (S ∩ Set.Ici i).ncard := by
  have hfinite := (h.ncard_lt hcut).1
  refine Set.ncard_lt_ncard ⟨?_, fun hsub => ?_⟩ (hfinite.inter_of_left _)
  · exact Set.inter_subset_inter_right S (Set.Ici_subset_Ici.2 (Nat.le_succ i))
  · exact absurd (hsub ⟨hi, Set.mem_Ici.2 le_rfl⟩).2 (Nat.not_succ_le_self i)

/-- **The loop of `tcp_data_in_expected`** comes to the next hole. -/
theorem scrollLoop_spec (hcut : Cut data) (turns : ℕ) (h : Early data isn s p j S) (hturns : (S ∩ Set.Ici j).ncard < turns) :
    ∃ s' j', scrollLoop turns s = some s' ∧ Inv data isn s' p j' S ∧ j ≤ j' := by
  induction turns generalizing s j with
  | zero => exact absurd hturns (Nat.not_lt_zero _)
  | succ turns ih =>
    have hclose := h.close
    have hle := h.le
    have hlow : p < off data j + 2 ^ 30 := by omega
    rw [scrollLoop, h.nxt]
    rcases h.pool.peek hlow hclose with ⟨hnone, hhole⟩ | ⟨i, hi, hfound, hoff⟩
    · rw [hnone]
      exact ⟨s, j, rfl, ⟨h.pool, h.processed, h.nxt, h.le, h.close, fun hj => hhole j hj rfl, h.unread, h.fresh⟩, le_rfl⟩
    · obtain rfl := hcut.strictMono.injective hoff
      have hnear := h.pool.near i hi
      have hlt := hcut.off_lt i
      have hnext : Early data isn { s with rcv_nxt := s.rcv_nxt + BitVec.ofNat 32 (seg data isn i).payload.length } p (i + 1) S := by
        refine ⟨h.pool, h.processed, ?_, by omega, hnear.2, fun m hm hp => ?_, h.fresh⟩
        · rw [h.nxt]
          exact seqAt_add ..
        · rcases Nat.lt_succ_iff_lt_or_eq.1 hm with hm | rfl
          · exact h.unread m hm hp
          · exact hi
      have hfewer := ncard_behind_lt hcut h.pool hi
      obtain ⟨s', j', hloop, h', hj'⟩ := ih hnext (by omega)
      refine ⟨s', j', ?_, h', by omega⟩
      rw [hfound, Option.bind_eq_bind, Option.bind_some]
      dsimp only
      rw [← h.nxt]
      exact hloop

/-- **`pico_enqueue_segment`**, with the room that there is. -/
theorem enqueue_spec (hcut : Cut data) (h : Pool data isn p q.pool S) (hi : Near data p i) (node : Bool) :
    ∃ r q', q.pico_enqueue_segment node (seg data isn i) = some (r, q') ∧
      (0 < r ∧ Pool data isn p q'.pool (S ∪ {i}) ∨ r ≤ 0 ∧ Pool data isn p q'.pool S ∧
        (node = true → (q.size + (data i).length) % 2 ^ 32 ≤ q.max_size → i ∈ S)) := by
  have hpos := List.length_pos_of_ne_nil (hcut i).1
  have hpayload : (seg data isn i).payload = data i := rfl
  unfold TcpQueue.pico_enqueue_segment TcpQueue.do_enqueue_segment
  rw [hpayload, if_neg (by omega)]
  by_cases hfull : (q.size + (data i).length) % 2 ^ 32 > q.max_size
  · rw [if_pos hfull]
    exact ⟨0, q, rfl, Or.inr ⟨le_rfl, h, fun _ hroom => absurd hfull hroom.not_gt⟩⟩
  · obtain ⟨r, t', hinsert, hcase⟩ := h.insert hcut hi node
    rw [if_neg hfull, hinsert, Option.bind_eq_bind, Option.bind_some]
    dsimp only
    rcases hcase with ⟨rfl, h'⟩ | ⟨hr, h', hthere⟩
    · exact ⟨_, _, rfl, Or.inl ⟨by omega, h'⟩⟩
    · cases r with
      | done => exact absurd rfl hr
      | already k => exact ⟨_, _, rfl, Or.inr ⟨le_rfl, h', fun hnode _ => hthere hnode⟩⟩
      | noMemory => exact ⟨_, _, rfl, Or.inr ⟨le_rfl, h', fun hnode _ => hthere hnode⟩⟩

/-- **`next_segment`** is the next one of the stream, if that is there. -/
theorem Pool.next_segment (hcut : Cut data) (h : Pool data isn p q.pool S) (hi : i ∈ S) :
    q.next_segment (seg data isn i) = some none ∨
      i + 1 ∈ S ∧ q.next_segment (seg data isn i) = some (some (seg data isn (i + 1))) := by
  obtain ⟨hlow, hhigh⟩ := h.near i hi
  have hsucc := hcut.off_lt i
  unfold TcpQueue.next_segment
  rw [next_seg]
  rcases h.peek (o := off data (i + 1)) (by omega) hhigh with ⟨hnone, -⟩ | ⟨k, hk, hfound, hoff⟩
  · exact Or.inl hnone
  · obtain rfl := hcut.strictMono.injective hoff
    exact Or.inr ⟨hk, hfound⟩

/-- **The loop of `tcp_sack_prepare`** ends: it comes to a segment once at most. -/
theorem sackLoop_spec (hcut : Cut data) (h : Pool data isn p s.tcpq_in.pool S) (blocks : ℕ → Bool) (turns : ℕ) :
    (∀ n left right sacks, 0 < turns → ∃ sacks', s.sackLoop blocks turns n left right none sacks = some sacks') ∧
      ∀ i ∈ S, (S ∩ Set.Ici i).ncard < turns → ∀ n left right sacks,
        ∃ sacks', s.sackLoop blocks turns n left right (some (seg data isn i)) sacks = some sacks' := by
  induction turns with
  | zero => exact ⟨fun _ _ _ _ hno => absurd hno (Nat.not_lt_zero 0), fun _ _ hno => absurd hno (Nat.not_lt_zero _)⟩
  | succ turns ih =>
    obtain ⟨ihnone, ihsome⟩ := ih
    refine ⟨fun n left right sacks _ => ?_, fun i hi hturns n left right sacks => ?_⟩
    · rw [sackLoop]
      split <;> exact ⟨_, rfl⟩
    · have hfewer := ncard_behind_lt hcut h hi
      -- whatever is kept, the loop goes on to the next segment
      have hnext : ∀ n left right sacks, ∃ sacks', ((s.tcpq_in.next_segment (seg data isn i)).bind fun pkt =>
          s.sackLoop blocks turns n left right pkt sacks) = some sacks' := by
        intro n left right sacks
        rcases h.next_segment hcut hi with hnone | ⟨hmem, hsome⟩
        · rw [hnone]
          exact ihnone n left right sacks (by omega)
        · rw [hsome]
          exact ihsome (i + 1) hmem (by omega) n left right sacks
      rw [sackLoop]
      split
      · split
        · exact hnext n left right sacks
        · split
          · exact hnext n _ _ sacks
          · split
            · exact hnext n left _ sacks
            · split
              · exact hnext (n + 1) 0 0 _
              · exact ⟨sacks, rfl⟩
      · exact ⟨sacks, rfl⟩

/-- **`tcp_sack_prepare`** makes blocks, and changes nothing else. -/
theorem sack_prepare_spec (hcut : Cut data) (h : Pool data isn p s.tcpq_in.pool S) (blocks : ℕ → Bool) :
    ∃ sacks, s.tcp_sack_prepare blocks = some { s with sacks := sacks } := by
  unfold tcp_sack_prepare
  split
  · exact ⟨s.sacks, rfl⟩
  · obtain ⟨hnone, hsome⟩ := sackLoop_spec hcut h blocks (s.tcpq_in.pool.next + 1)
    obtain ⟨hfinite, hlt⟩ := h.ncard_lt hcut
    rcases h.first with ⟨hfirst, -⟩ | ⟨i, hi, hfirst, -⟩
    · obtain ⟨sacks, hloop⟩ := hnone 0 0 0 [] (Nat.succ_pos _)
      exact ⟨sacks, by rw [hfirst, Option.bind_eq_bind, Option.bind_some, hloop]; rfl⟩
    · have hle := Set.ncard_le_ncard (Set.inter_subset_left : S ∩ Set.Ici i ⊆ S) hfinite
      obtain ⟨sacks, hloop⟩ := hsome i hi (by omega) 0 0 0 []
      exact ⟨sacks, by rw [hfirst, Option.bind_eq_bind, Option.bind_some, hloop]; rfl⟩

/-- **An arrival.** -/
theorem data_in_spec (hcut : Cut data) (h : Inv data isn s p j S) (hi : Near data p i) (zalloc node : Bool)
    (blocks : ℕ → Bool) : ∃ r s' j' S',
    s.tcp_data_in_payload zalloc node blocks (seqAt isn (off data i)) (data i) = some (r, s') ∧ Inv data isn s' p j' S' ∧
      j ≤ j' ∧ (i = j → zalloc = true → node = true →
        (s.tcpq_in.size + (data i).length) % 2 ^ 32 ≤ s.tcpq_in.max_size → j < j') := by
  have hle := h.le
  have hclose := h.close
  have hne := (hcut i).1
  have hsucc := hcut.off_lt i
  obtain ⟨hlow, hhigh⟩ := hi
  have hcompare : pico_seq_compare (seqAt isn (off data i)) s.rcv_nxt = (off data i : ℤ) - off data j := by
    rw [seq_compare_eq, h.nxt, toInt_seqAt isn (by omega) (by omega)]
  unfold tcp_data_in_payload
  rw [hcompare]
  by_cases hexpected : off data i ≤ off data j
  · rw [if_pos (by omega)]
    unfold tcp_data_in_expected
    rw [hcompare]
    by_cases hsame : off data i = off data j
    · obtain rfl := hcut.strictMono.injective hsame
      rw [if_pos (by omega)]
      cases zalloc with
      | false => exact ⟨-1, s, i, S, rfl, h, le_rfl, fun _ hno => by cases hno⟩
      | true =>
        have hinput : segment_from_frame true (seqAt isn (off data i)) (data i) = some (seg data isn i) := if_pos ⟨rfl, hne⟩
        rw [hinput]
        dsimp only
        obtain ⟨r, q', henqueue, hcase⟩ := enqueue_spec hcut h.pool ⟨hlow, hhigh⟩ node
        rw [henqueue, Option.bind_eq_bind, Option.bind_some]
        dsimp only
        rcases hcase with ⟨hpos, h'⟩ | ⟨hnonpos, h', hthere⟩
        · rw [if_neg (by omega), seqAt_add]
          have hearly : Early data isn
              { s with tcpq_in := q', rcv_nxt := seqAt isn (off data i + (data i).length) } p (i + 1) (S ∪ {i}) := by
            refine ⟨h', h.processed, rfl, by omega, hhigh, fun m hm hp => ?_, fun m hm => ?_⟩
            · rcases Nat.lt_succ_iff_lt_or_eq.1 hm with hm | rfl
              · exact Or.inl (h.unread m hm hp)
              · exact Or.inr rfl
            · rcases hm with hm | rfl
              · exact h.fresh m hm
              · exact hle.trans hsucc.le
          have hturns : ((S ∪ {i}) ∩ Set.Ici (i + 1)).ncard < q'.pool.next + 1 := by
            obtain ⟨hfinite, hlt⟩ := h'.ncard_lt hcut
            have := Set.ncard_le_ncard (Set.inter_subset_left : (S ∪ {i}) ∩ Set.Ici (i + 1) ⊆ S ∪ {i}) hfinite
            omega
          obtain ⟨s', j', hloop, h'', hj'⟩ := scrollLoop_spec hcut _ hearly hturns
          refine ⟨0, s', j', S ∪ {i}, ?_, h'', by omega, fun _ _ _ _ => by omega⟩
          rw [hloop]
          rfl
        · rw [if_pos hnonpos]
          refine ⟨-1, _, i, S, rfl, ⟨h', h.processed, h.nxt, h.le, h.close, h.hole, h.unread, h.fresh⟩, le_rfl, ?_⟩
          exact fun _ _ hnode hroom => absurd (hthere hnode hroom) h.hole
    · rw [if_neg (by omega)]
      exact ⟨0, s, j, S, rfl, h, le_rfl, fun hij => absurd (congrArg (off data) hij) hsame⟩
  · have hij : j < i := hcut.strictMono.lt_iff_lt.1 (by omega)
    rw [if_neg (by omega)]
    unfold tcp_data_in_high_segment
    by_cases hsack : s.sack_ok = true
    · rw [if_pos hsack]
      cases zalloc with
      | false => exact ⟨-1, s, j, S, rfl, h, le_rfl, fun _ hno => by cases hno⟩
      | true =>
        have hinput : segment_from_frame true (seqAt isn (off data i)) (data i) = some (seg data isn i) := if_pos ⟨rfl, hne⟩
        rw [hinput]
        dsimp only
        obtain ⟨r, q', henqueue, hcase⟩ := enqueue_spec hcut h.pool ⟨hlow, hhigh⟩ node
        rw [henqueue, Option.bind_eq_bind, Option.bind_some]
        dsimp only
        rcases hcase with ⟨hpos, h'⟩ | ⟨hnonpos, h', -⟩
        · obtain ⟨sacks, hsacks⟩ := sack_prepare_spec (s := { s with tcpq_in := q' }) hcut h' blocks
          refine ⟨0, { s with tcpq_in := q', sacks := sacks }, j, S ∪ {i}, ?_, ⟨h', h.processed, h.nxt, h.le, h.close,
            fun hj => ?_, fun m hm hp => Or.inl (h.unread m hm hp), fun m hm => ?_⟩, le_rfl, fun he => by omega⟩
          · rw [if_neg (by omega), hsacks]
            rfl
          · rcases hj with hj | hj
            · exact h.hole hj
            · exact hij.ne hj
          · rcases hm with hm | rfl
            · exact h.fresh m hm
            · omega
        · rw [if_pos hnonpos]
          exact ⟨_, _, j, S, rfl, ⟨h', h.processed, h.nxt, h.le, h.close, h.hole, h.unread, h.fresh⟩, le_rfl,
            fun he => by omega⟩
    · rw [if_neg hsack]
      exact ⟨0, s, j, S, rfl, h, le_rfl, fun he => by omega⟩

/-! ## Runs -/

/-- **What a connection comes to**, with all that was read: segments come in any order, any number of times or
never, with or without memory for them, and between them something is read. An answer takes the SACK blocks
along, and other trees paint `LEAF`. -/
inductive Reach (data : ℕ → List UInt8) (isn : BitVec 32) : TcpIn → List UInt8 → Prop
  | init (color : Color) (max_size : ℕ) (sack_ok : Bool) : Reach data isn (init color isn max_size sack_ok) []
  | arrive {s s' : TcpIn} {out : List UInt8} {i : ℕ} {zalloc node : Bool} {blocks : ℕ → Bool} {r : ℤ} :
      Reach data isn s out → Near data out.length i →
      s.tcp_data_in_payload zalloc node blocks (seqAt isn (off data i)) (data i) = some (r, s') →
      Reach data isn s' out
  | answer {s : TcpIn} {out : List UInt8} : Reach data isn s out → Reach data isn { s with sacks := [] } out
  | read {s s' : TcpIn} {out bytes : List UInt8} {len : ℕ} : Reach data isn s out → len < 2 ^ 31 →
      s.pico_tcp_read len = some (bytes, s') → Reach data isn s' (out ++ bytes)
  | elsewhere {s : TcpIn} {out : List UInt8} {color : Color} {pool : PicoTree Segment} : Reach data isn s out →
      s.tcpq_in.pool.setColor LEAF color = some pool →
      Reach data isn { s with tcpq_in := { s.tcpq_in with pool := pool } } out

/-- What was read is the front of what came without a hole. -/
def Front (data : ℕ → List UInt8) (j : ℕ) (out : List UInt8) : Prop := (sent data j).take out.length = out

theorem Front.mono {out : List UInt8} (h : Front data j out) (hle : out.length ≤ off data j) {j' : ℕ} (hj : j ≤ j') :
    Front data j' out := by
  obtain ⟨rest, hrest⟩ := sent_append data hj
  unfold Front
  rw [hrest, List.take_append_of_le_length (by rw [length_sent]; exact hle)]
  exact h

theorem Front.isPrefix {out : List UInt8} (h : Front data j out) : out <+: sent data j := by
  have := List.take_prefix out.length (sent data j)
  rwa [show (sent data j).take out.length = out from h] at this

/-- **`pico_tcp_read`.** -/
theorem read_spec (hcut : Cut data) {out : List UInt8} (h : Inv data isn s out.length j S) (hout : Front data j out) {len : ℕ}
    (hmax : len < 2 ^ 31) : ∃ bytes s' S', s.pico_tcp_read len = some (bytes, s') ∧
      Inv data isn s' (out ++ bytes).length j S' ∧ Front data j (out ++ bytes) ∧
      bytes.length = min len (off data j - out.length) := by
  have hturns : len - ([] : List UInt8).length < len + 1 := by
    rw [List.length_nil]
    omega
  have hempty : ([] : List UInt8).length ≤ len := Nat.zero_le len
  obtain ⟨bytes, s', p', S', hloop, h', hread, hcount⟩ := readLoop_spec hcut (len + 1) hmax h hempty hturns
  rw [show (sent data j).take out.length = out from hout] at hread
  have hp : (out ++ bytes).length = p' := by
    rw [hread, List.length_take, length_sent]
    exact min_eq_left h'.le
  refine ⟨bytes, s', S', hloop, ?_, ?_, hcount⟩
  · rw [hp]
    exact h'
  · rw [Front, hp]
    exact hread.symm

theorem Reach.inv (hcut : Cut data) {out : List UInt8} (h : Reach data isn s out) :
    ∃ j S, Inv data isn s out.length j S ∧ Front data j out := by
  induction h with
  | init color max_size sack_ok =>
    have hzero : seqAt isn 0 = isn := by
      unfold seqAt
      exact BitVec.add_zero isn
    refine ⟨0, ∅, ⟨⟨⟨.leaf, [], reached_empty _ _ color, ?_⟩, fun i hi => absurd hi (Set.notMem_empty i)⟩, hzero.symm,
      hzero.symm, le_rfl, Nat.two_pow_pos 30, Set.notMem_empty 0, fun i hi => absurd hi (Nat.not_lt_zero i),
      fun i hi => absurd hi (Set.notMem_empty i)⟩, rfl⟩
    rw [contents_nil, Set.image_empty]
  | @arrive s s' out i zalloc node blocks r _ hi hin ih =>
    obtain ⟨j, S, h, hout⟩ := ih
    obtain ⟨r', s₁, j', S', hin', h', hj, -⟩ := data_in_spec hcut h hi zalloc node blocks
    obtain ⟨-, rfl⟩ := Prod.mk.inj (Option.some.inj (hin.symm.trans hin'))
    exact ⟨j', S', h', hout.mono h.le hj⟩
  | answer _ ih =>
    obtain ⟨j, S, h, hout⟩ := ih
    exact ⟨j, S, ⟨h.pool, h.processed, h.nxt, h.le, h.close, h.hole, h.unread, h.fresh⟩, hout⟩
  | @read s s' out bytes len _ hmax hread ih =>
    obtain ⟨j, S, h, hout⟩ := ih
    obtain ⟨bytes', s₁, S', hread', h', hout', -⟩ := read_spec hcut h hout hmax
    obtain ⟨rfl, rfl⟩ := Prod.mk.inj (Option.some.inj (hread.symm.trans hread'))
    exact ⟨j, S', h', hout'⟩
  | @elsewhere s out color pool _ hpaint ih =>
    obtain ⟨j, S, h, hout⟩ := ih
    obtain ⟨W, E, hreached, hE⟩ := h.pool.reached
    obtain ⟨t', hpaint', h', -⟩ := hreached.elsewhere color
    obtain rfl := Option.some.inj (hpaint.symm.trans hpaint')
    have hpool : Pool data isn out.length pool S :=
      ⟨⟨W, E, ⟨h', hreached.sorted, hreached.within⟩, hE⟩, h.pool.near⟩
    exact ⟨j, S, ⟨hpool, h.processed, h.nxt, h.le, h.close, h.hole, h.unread, h.fresh⟩, hout⟩

/-- **What is read is what was sent.** All that was read is the front of the bytes of the peer, in order and
without repetition; and a read ends and gives as many of the bytes before `rcv_nxt` as it is asked for. The
place of `rcv_nxt` in the stream is less than 2^30 ahead of what was read. -/
theorem tcp_delivers (hcut : Cut data) {out : List UInt8} (h : Reach data isn s out) : ∃ j,
    s.rcv_nxt = seqAt isn (off data j) ∧ out.length ≤ off data j ∧ off data j < out.length + 2 ^ 30 ∧
      out <+: sent data j ∧ ∀ len, len < 2 ^ 31 → ∃ bytes s', s.pico_tcp_read len = some (bytes, s') ∧
        out ++ bytes <+: sent data j ∧ bytes.length = min len (off data j - out.length) := by
  obtain ⟨j, S, hinv, hout⟩ := h.inv hcut
  refine ⟨j, hinv.nxt, hinv.le, hinv.close, hout.isPrefix, fun len hmax => ?_⟩
  obtain ⟨bytes, s', S', hread, -, hout', hcount⟩ := read_spec hcut hinv hout hmax
  exact ⟨bytes, s', hread, hout'.isPrefix, hcount⟩

/-- **An arrival is accounted for**: it is taken in without an access that is not valid, `rcv_nxt` does not go
back, and the segment that is expected moves it on if there is memory and room for it. -/
theorem tcp_accepts (hcut : Cut data) {out : List UInt8} (h : Reach data isn s out) (hi : Near data out.length i)
    (zalloc node : Bool) (blocks : ℕ → Bool) : ∃ r s' j j',
    s.tcp_data_in_payload zalloc node blocks (seqAt isn (off data i)) (data i) = some (r, s') ∧
      s.rcv_nxt = seqAt isn (off data j) ∧ s'.rcv_nxt = seqAt isn (off data j') ∧
      out.length ≤ off data j ∧ j ≤ j' ∧ off data j' < out.length + 2 ^ 30 ∧
      (i = j → zalloc = true → node = true →
        (s.tcpq_in.size + (data i).length) % 2 ^ 32 ≤ s.tcpq_in.max_size → j < j') := by
  obtain ⟨j, S, hinv, -⟩ := h.inv hcut
  obtain ⟨r, s', j', S', hin, h', hj, hfill⟩ := data_in_spec hcut hinv hi zalloc node blocks
  exact ⟨r, s', j, j', hin, hinv.nxt, h'.nxt, hinv.le, hj, h'.close, hfill⟩

theorem cut_sevens : Cut fun _ => [7] := fun _ => ⟨List.cons_ne_nil 7 [], Nat.one_lt_two_pow (by decide)⟩

/-- Sequence numbers that wrap after the first byte. -/
theorem tcp_delivers_sevens : ∃ r s', (init .BLACK 0xffffffff 100 true).tcp_data_in_payload true true (fun _ => true)
    (seqAt 0xffffffff (off (fun _ => [7]) 0)) [7] = some (r, s') ∧ ∃ j,
      s'.rcv_nxt = seqAt 0xffffffff (off (fun _ => [7]) j) ∧ 0 ≤ off (fun _ => [7]) j ∧
        off (fun _ => [7]) j < 0 + 2 ^ 30 ∧ [] <+: sent (fun _ => [7]) j ∧ ∀ len, len < 2 ^ 31 → ∃ bytes s'',
          s'.pico_tcp_read len = some (bytes, s'') ∧ [] ++ bytes <+: sent (fun _ => [7]) j ∧
          bytes.length = min len (off (fun _ => [7]) j - 0) := by
  have hnear : Near (fun _ => [7]) 0 0 := ⟨by decide, by decide⟩
  have hinit : Reach (fun _ => [7]) 0xffffffff (init .BLACK 0xffffffff 100 true) [] := .init .BLACK 100 true
  obtain ⟨j, S, hinv, -⟩ := hinit.inv cut_sevens
  obtain ⟨r, s', -, -, hin, -⟩ := data_in_spec cut_sevens hinv hnear true true fun _ => true
  exact ⟨r, s', hin, tcp_delivers cut_sevens (.arrive hinit hnear hin)⟩

theorem tcp_accepts_sevens : ∃ r s' j j', (init .BLACK 0xffffffff 100 true).tcp_data_in_payload true true (fun _ => true)
    (seqAt 0xffffffff (off (fun _ => [7]) 0)) [7] = some (r, s') ∧
      (init .BLACK 0xffffffff 100 true).rcv_nxt = seqAt 0xffffffff (off (fun _ => [7]) j) ∧
      s'.rcv_nxt = seqAt 0xffffffff (off (fun _ => [7]) j') ∧ 0 ≤ off (fun _ => [7]) j ∧ j ≤ j' ∧
      off (fun _ => [7]) j' < 0 + 2 ^ 30 ∧ (0 = j → true = true → true = true →
        ((init .BLACK 0xffffffff 100 true).tcpq_in.size + [(7 : UInt8)].length) % 2 ^ 32 ≤ 100 → j < j') :=
  tcp_accepts cut_sevens (.init .BLACK 100 true) ⟨by decide, by decide⟩ true true fun _ => true

end TcpIn

end Vdetelweb
