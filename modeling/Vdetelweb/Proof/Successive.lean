import Vdetelweb.Proof.Reply
import Vdetelweb.Spec.Mgmt

/-!
# Successive calls on one socket

`get_response` keeps what it has read ahead in a local variable, and `__init__` takes
the greeting with one `recv`. So the calls stay in step with the switch exactly when
the chunks do: when the first chunk is the greeting and every reply begins with a
chunk of its own (`inStep_iff`).
-/

namespace Vdetelweb

variable {n : ℕ}

/-- The socket after `k` calls of `get_response`. -/
def socketAfter (s : Stream n) (k : ℕ) : Stream n := (fun s => (getResponse s).2)^[k] s

/-- The bytes of a sequence of replies. -/
def encodeAll (rs : List Reply) : Bytes := rs.flatMap Reply.encode

/-- A reply as the switch writes it: a data block closed by `.`, every data line
starting with a letter, and a status code that begins with 1 to 8. -/
def Reply.Lettered (r : Reply) : Prop :=
  (∃ b, r.block = some b ∧ b.marker = ['.'] ∧ ∀ l ∈ b.lines, ∃ c t, l = c :: t ∧ c.isAlpha) ∧
    r.code.head? ≠ some '9'

/-- **In step**: once `__init__` has taken the greeting, the `k`-th call returns the
`k`-th reply, and what is unread before it is that reply and the later ones. -/
def InStep (info : SysInfo) (rs : List Reply) (s : Stream n) : Prop :=
  ∀ m, Vde2Mgmt.init s info = .ret m →
    (∀ k (h : k < rs.length), (getResponse (socketAfter m.socket k)).1 = .ret rs[k].decode) ∧
    ∀ k ≤ rs.length, (socketAfter m.socket k).bytes = encodeAll (rs.drop k)

/-- The first chunk is the greeting, and every reply ends with a chunk. -/
def Aligned (greeting : Bytes) (rs : List Reply) (cs : List (Chunk n)) : Prop :=
  joined (cs.take 1) = greeting ∧
    ∀ k ≤ rs.length, ∃ j, joined ((cs.drop 1).take j) = encodeAll (rs.take k)

/-! ## Replies -/

theorem isAlpha_not_digit {c : Char} (h : c.isAlpha) : c ≠ '0' ∧ ¬ IsDigit c := by
  have hd : ∀ d : Char, d.isAlpha → ¬ IsDigit d := by
    rintro d hd ⟨h0, h9⟩
    simp only [Char.isAlpha, Char.isUpper, Char.isLower, Bool.or_eq_true, Bool.and_eq_true,
      decide_eq_true_eq] at hd
    rw [Char.le_def, UInt32.le_iff_toNat_le] at h0 h9
    simp only [ge_iff_le, UInt32.le_iff_toNat_le] at hd
    simp at hd h0 h9
    omega
  exact ⟨fun h0 => hd c h (h0 ▸ by decide), hd c h⟩

theorem Reply.Lettered.readable {r : Reply} (h : r.Lettered) : r.Readable := by
  obtain ⟨⟨b, hb, hmark, hlines⟩, h9⟩ := h
  refine ⟨fun b' hb' l hl => ?_, h9⟩
  obtain rfl : b = b' := Option.some.inj (hb ▸ hb')
  rcases List.mem_cons.1 hl with rfl | hl
  · rw [hmark]; decide
  · obtain ⟨c, t, rfl, hc⟩ := hlines l hl
    obtain ⟨h0, hd⟩ := isAlpha_not_digit hc
    exact ⟨by simp [isHeader, h0], fun hn => hd (hn.2.2 c (by simp))⟩

theorem Reply.encode_ne (r : Reply) : r.encode ≠ [] := by
  intro h
  have := Lines.unlines_eq_nil.1 h
  simp at this

theorem encodeAll_take_succ {rs : List Reply} {k : ℕ} (h : k < rs.length) :
    encodeAll (rs.take (k + 1)) = encodeAll (rs.take k) ++ rs[k].encode := by
  unfold encodeAll
  rw [List.take_succ_eq_append_getElem h, List.flatMap_append, List.flatMap_singleton]

theorem encodeAll_take_drop (rs : List Reply) (k : ℕ) :
    encodeAll (rs.take k) ++ encodeAll (rs.drop k) = encodeAll rs := by
  unfold encodeAll
  rw [← List.flatMap_append, List.take_append_drop]

/-! ## The socket between calls -/

theorem socketAfter_succ (s : Stream n) (k : ℕ) :
    socketAfter s (k + 1) = (getResponse (socketAfter s k)).2 :=
  Function.iterate_succ_apply' _ _ _

/-- Calls take chunks from the front. -/
theorem socketAfter_chunks (s : Stream n) (k : ℕ) :
    ∃ j, (socketAfter s k).chunks = s.chunks.drop j ∧ (socketAfter s k).eof = s.eof := by
  induction k with
  | zero => exact ⟨0, rfl, rfl⟩
  | succ k ih =>
    obtain ⟨j, hj, he⟩ := ih
    obtain ⟨cs, hcs, he'⟩ := getResponse_chunks (socketAfter s k)
    rw [socketAfter_succ]
    refine ⟨j + cs.length, ?_, he'.trans he⟩
    rw [← List.drop_drop, ← hj, hcs, List.drop_left]

theorem joined_take_drop (cs : List (Chunk n)) (j : ℕ) :
    joined (cs.take j) ++ joined (cs.drop j) = joined cs := by
  rw [← joined_append, List.take_append_drop]

/-- A later boundary is a longer prefix. -/
theorem joined_take_lt {cs : List (Chunk n)} {i j : ℕ} {b : Bytes} (hb : b ≠ [])
    (h : joined (cs.take j) = joined (cs.take i) ++ b) : i < j := by
  by_contra hji
  -- the first `j` chunks are then among the first `i`
  have hpre : cs.take j = (cs.take i).take j := by
    rw [List.take_take, Nat.min_eq_left (Nat.not_lt.1 hji)]
  have hsplit := joined_take_drop (cs.take i) j
  rw [← hpre, h, List.append_assoc] at hsplit
  have : b ++ joined ((cs.take i).drop j) = [] := by
    have hlen := congrArg List.length hsplit
    simp only [List.length_append] at hlen
    exact List.eq_nil_of_length_eq_zero (by rw [List.length_append]; omega)
  exact hb (List.append_eq_nil_iff.1 this).1

/-- **With every reply ending with a chunk, each call reads its own chunks.** -/
theorem socketAfter_aligned {rs : List Reply} (hrs : ∀ r ∈ rs, r.Readable) {s : Stream n}
    (hal : ∀ k ≤ rs.length, ∃ j, joined (s.chunks.take j) = encodeAll (rs.take k)) :
    ∀ k ≤ rs.length, ∃ j, socketAfter s k = ⟨s.chunks.drop j, s.eof⟩ ∧
      joined (s.chunks.take j) = encodeAll (rs.take k) ∧
      ∀ h : k < rs.length, (getResponse (socketAfter s k)).1 = .ret rs[k].decode := by
  -- the chunks of the next reply, from the boundary before it
  have next : ∀ k (h : k < rs.length) j, joined (s.chunks.take j) = encodeAll (rs.take k) →
      ∃ j', getResponse ⟨s.chunks.drop j, s.eof⟩ = (.ret rs[k].decode, ⟨s.chunks.drop j', s.eof⟩) ∧
        joined (s.chunks.take j') = encodeAll (rs.take (k + 1)) := by
    intro k h j hj
    obtain ⟨j', hj'⟩ := hal (k + 1) h
    have hlt : j < j' := by
      apply joined_take_lt rs[k].encode_ne
      rw [hj', hj, encodeAll_take_succ h]
    have hmid : joined ((s.chunks.drop j).take (j' - j)) = rs[k].encode := by
      have hcut := joined_take_drop (s.chunks.take j') j
      rw [List.take_take, Nat.min_eq_left hlt.le, hj, hj', encodeAll_take_succ h,
        List.drop_take] at hcut
      exact List.append_cancel_left hcut
    refine ⟨j', ?_, hj'⟩
    have := getResponse_reply (hrs _ (List.getElem_mem h)) hmid (s.chunks.drop j') s.eof
    rw [← this]
    congr 2
    conv_lhs => rw [← List.take_append_drop (j' - j) (s.chunks.drop j)]
    rw [List.drop_drop, Nat.add_sub_cancel' hlt.le]
  -- on the calls made so far: the socket stands at a boundary between replies
  intro k
  induction k with
  | zero =>
    intro _
    refine ⟨0, rfl, rfl, fun h => ?_⟩
    obtain ⟨j', hj', -⟩ := next 0 h 0 rfl
    exact congrArg Prod.fst hj'
  | succ k ih =>
    intro hk
    obtain ⟨j, hsock, hj, -⟩ := ih (Nat.le_of_succ_le hk)
    obtain ⟨j₁, hget, hj₁⟩ := next k hk j hj
    have hsock₁ : socketAfter s (k + 1) = ⟨s.chunks.drop j₁, s.eof⟩ := by
      rw [socketAfter_succ, hsock, hget]
    refine ⟨j₁, hsock₁, hj₁, fun h => ?_⟩
    obtain ⟨j₂, hget₂, -⟩ := next (k + 1) h j₁ hj₁
    rw [hsock₁, hget₂]

/-! ## The greeting -/

/-- `__init__` takes one chunk, or finds nothing to take. -/
theorem init_cases (s : Stream n) (info : SysInfo) :
    (s.chunks = [] ∧ s.eof = false ∧ Vde2Mgmt.init s info = .block) ∨
    ∃ m, Vde2Mgmt.init s info = .ret m ∧ m.socket = ⟨s.chunks.drop 1, s.eof⟩ := by
  obtain ⟨cs, eof⟩ := s
  cases cs with
  | nil =>
    cases eof
    · exact Or.inl ⟨rfl, rfl, rfl⟩
    · exact Or.inr ⟨_, rfl, rfl⟩
  | cons c cs => exact Or.inr ⟨_, rfl, rfl⟩

/-- **The calls stay in step with the switch if and only if the chunks do**: the first
chunk is the greeting, and every reply begins with a chunk of its own. -/
theorem inStep_iff (info : SysInfo) (greeting : Bytes) (rs : List Reply)
    (hrs : ∀ r ∈ rs, r.Lettered) (s : Stream n) (hs : s.bytes = greeting ++ encodeAll rs) :
    InStep info rs s ↔ Aligned greeting rs s.chunks := by
  constructor
  · intro h
    rcases init_cases s info with ⟨h0, -, -⟩ | ⟨m, hm, hsock⟩
    · -- nothing was sent at all
      rw [Stream.bytes, h0, joined_nil] at hs
      obtain ⟨rfl, hall⟩ := List.append_eq_nil_iff.1 hs.symm
      have hnil : rs = [] := by
        cases rs with
        | nil => rfl
        | cons r rs =>
          simp only [encodeAll, List.flatMap_cons, List.append_eq_nil_iff] at hall
          exact absurd hall.1 r.encode_ne
      subst hnil
      exact ⟨by simp [h0], fun k _ => ⟨0, by simp [encodeAll]⟩⟩
    · obtain ⟨-, hbytes⟩ := h m hm
      have hrest : joined (s.chunks.drop 1) = encodeAll rs := by
        have := hbytes 0 (Nat.zero_le _)
        simpa [socketAfter, hsock, Stream.bytes] using this
      refine ⟨?_, fun k hk => ?_⟩
      · have := joined_take_drop s.chunks 1
        rw [hrest] at this
        exact List.append_cancel_right (this.trans hs)
      · -- the chunks taken by `k` calls are the first `k` replies
        obtain ⟨j, hj, -⟩ := socketAfter_chunks m.socket k
        have hb := hbytes k hk
        rw [Stream.bytes, hj, hsock] at hb
        refine ⟨j, ?_⟩
        have := joined_take_drop (s.chunks.drop 1) j
        rw [hb, hrest, ← encodeAll_take_drop rs k] at this
        exact List.append_cancel_right this
  · rintro ⟨hfirst, hal⟩ m hm
    obtain ⟨m', hm', hsock⟩ : ∃ m', Vde2Mgmt.init s info = .ret m' ∧
        m'.socket = ⟨s.chunks.drop 1, s.eof⟩ := by
      rcases init_cases s info with ⟨-, -, h⟩ | h
      · rw [h] at hm; cases hm
      · exact h
    obtain rfl : m' = m := Effect.Out.ret.inj (hm'.symm.trans hm)
    have hrs' : ∀ r ∈ rs, r.Readable := fun r hr => (hrs r hr).readable
    have hstep := socketAfter_aligned (s := m'.socket) hrs' (by rw [hsock]; exact hal)
    refine ⟨fun k hk => ?_, fun k hk => ?_⟩
    · obtain ⟨_, -, -, hget⟩ := hstep k hk.le
      exact hget hk
    · obtain ⟨j, hj, hjoin, -⟩ := hstep k hk
      have hall : joined m'.socket.chunks = encodeAll rs := by
        rw [hsock]
        have := joined_take_drop s.chunks 1
        rw [hfirst] at this
        exact List.append_cancel_left (this.trans hs)
      have hcut := joined_take_drop m'.socket.chunks j
      rw [hjoin, hall, ← encodeAll_take_drop rs k] at hcut
      rw [hj]
      exact List.append_cancel_left hcut

theorem addressReply_lettered : addressReply.Lettered :=
  ⟨⟨_, rfl, rfl, fun l hl => by
    rw [List.mem_singleton.1 hl]; exact ⟨'p', _, rfl, by decide⟩⟩, by decide⟩

/-- The greeting and one reply, each in a chunk of its own. -/
theorem inStep_own_chunks : InStep ⟨[], ⟨[], none⟩⟩ [addressReply]
    (⟨[⟨"VDE\n".toList, by decide⟩, ⟨addressReply.encode, by decide⟩], false⟩ : Stream 1024) := by
  refine (inStep_iff _ "VDE\n".toList _ ?_ _ (by simp [Stream.bytes, encodeAll])).2 ⟨rfl, ?_⟩
  · intro r hr; rw [List.mem_singleton.1 hr]; exact addressReply_lettered
  · intro k hk
    refine ⟨k, ?_⟩
    have : k = 0 ∨ k = 1 := by simp at hk; omega
    rcases this with rfl | rfl <;> simp [encodeAll]

/-- Two replies in one chunk: the second is lost with the read-ahead of the first call. -/
theorem inStep_shared_chunk : ¬ ∀ (info : SysInfo) (greeting : Bytes) (rs : List Reply)
    (s : Stream 1024), (∀ r ∈ rs, r.Lettered) → s.bytes = greeting ++ encodeAll rs →
      InStep info rs s := by
  intro h
  set s : Stream 1024 := ⟨[⟨"VDE\n".toList, by decide⟩,
    ⟨addressReply.encode ++ addressReply.encode, by decide⟩], false⟩ with hs
  have hin := h ⟨[], ⟨[], none⟩⟩ "VDE\n".toList [addressReply, addressReply] s
    (by intro r hr; simp only [List.mem_cons, List.not_mem_nil, or_false, or_self] at hr
        rw [hr]; exact addressReply_lettered)
    (by simp [hs, Stream.bytes, encodeAll])
  obtain ⟨-, hbytes⟩ := hin _ rfl
  have h1 := hbytes 1 (by simp)
  -- one call takes the whole chunk or nothing of it
  obtain ⟨j, hj, -⟩ := socketAfter_chunks
    (⟨[⟨addressReply.encode ++ addressReply.encode, by decide⟩], false⟩ : Stream 1024) 1
  change (socketAfter (⟨[⟨addressReply.encode ++ addressReply.encode, by decide⟩], false⟩ :
    Stream 1024) 1).bytes = _ at h1
  rw [Stream.bytes, hj] at h1
  have hlen : addressReply.encode.length ≠ 0 := by decide
  cases j with
  | zero =>
    have := congrArg List.length h1
    simp [encodeAll] at this
    exact addressReply.encode_ne this
  | succ j =>
    have := congrArg List.length h1
    simp [encodeAll] at this
    exact hlen this.symm

end Vdetelweb
