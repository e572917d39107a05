import Vdetelweb.Spec.Recv

/-!
# Which calls of `recv` deliver the stream

A call that stays inside its buffers returns no terminator (`result_nul`), and at least as
many bytes as it was given (`length_le_result`): what the buffer had from an earlier read may
be added. So a run of calls delivers the stream exactly when each call does (`delivers_iff`).
-/

namespace Vdetelweb

open CString

variable {n : ℕ}

/-- **The stream is delivered**: no access leaves its buffer, no string is longer than what was
asked for, and together they are what the stack handed out. -/
def Delivers (calls : List RecvCall) : Prop :=
  ∃ rs : List Bytes, List.Forall₂ (fun c r => c.result = .ok r ∧ r.length ≤ c.size) calls rs ∧
    rs.flatten = calls.flatMap RecvCall.bytes

/-- **The buffers do no harm.** The size is an `int`. On `picotcp`: no terminator is received, every read leaves room
for one and is at least as long as the read before, and together they are neither more than
was asked for nor more than the array takes. On `lwipv6`: no terminator is received, and one
happens to stand behind what is. -/
def RecvCall.Clean : RecvCall → Prop
  | pico n chunks => n < 2 ^ 31 ∧ (∀ c ∈ chunks, nul ∉ c.1 ∧ c.1.length < n) ∧
      (chunks.map fun c => c.1.length).IsChain (· ≤ ·) ∧
      (joined chunks).length ≤ n ∧ (joined chunks).length < returnSize
  | lwip n initial stored _ _ => n < 2 ^ 31 ∧ nul ∉ stored ∧ initial[stored.length]? = some nul

/-! ## The loop of `socketRecv` -/

theorem recvLoop_cons {buffer s r : Bytes} {c : Chunk n} {cs : List (Chunk n)} :
    recvLoop buffer s (c :: cs) = .ok r ↔
      ∃ s', strcat nul returnSize s (store buffer c.1) = .ok s' ∧ recvLoop (store buffer c.1) s' cs = .ok r := by
  rw [recvLoop]
  cases strcat nul returnSize s (store buffer c.1) with
  | error e => simp
  | ok s' => simp

/-- What is returned has no terminator. -/
theorem recvLoop_nul {cs : List (Chunk n)} {buffer s r : Bytes} (hs : nul ∉ s)
    (h : recvLoop buffer s cs = .ok r) : nul ∉ r := by
  induction cs generalizing buffer s with
  | nil => cases h; exact hs
  | cons c cs ih =>
    obtain ⟨s', hs', h⟩ := recvLoop_cons.1 h
    obtain ⟨t, ht, rfl, -⟩ := strcat_ok_iff.1 hs'
    refine ih ?_ h
    rw [List.mem_append, not_or]
    exact ⟨hs, read_nul ht⟩

/-- **What is received is returned**, and maybe more. -/
theorem recvLoop_length {cs : List (Chunk n)} (hnul : ∀ c ∈ cs, nul ∉ c.1) {buffer s r : Bytes}
    (h : recvLoop buffer s cs = .ok r) : s.length + (joined cs).length ≤ r.length := by
  induction cs generalizing buffer s with
  | nil => cases h; simp
  | cons c cs ih =>
    obtain ⟨s', hs', h⟩ := recvLoop_cons.1 h
    obtain ⟨t, ht, rfl, -⟩ := strcat_ok_iff.1 hs'
    obtain ⟨s₁, -, rfl⟩ := (read_store (hnul c List.mem_cons_self)).1 ht
    have := ih (fun x hx => hnul x (List.mem_cons_of_mem _ hx)) h
    simp only [joined_cons, List.length_append] at this ⊢
    omega

/-- In a buffer whose longest content so far is `p`, a piece has a terminator behind it exactly
when it is no shorter and leaves room for one. -/
theorem read_piece_iff {p b : Bytes} (hp : nul ∉ p) (hb : nul ∉ b) (hpn : p.length ≤ n) :
    read nul (store (p ++ List.replicate (n - p.length) nul) b) = .ok b ↔
      p.length ≤ b.length ∧ b.length < n := by
  rw [read_store_self hb]
  by_cases hle : p.length ≤ b.length
  · rw [List.getElem?_append_right hle, List.getElem?_replicate]
    split
    · exact iff_of_true rfl ⟨hle, by omega⟩
    · exact iff_of_false (by simp) (by omega)
  · rw [List.getElem?_append_left (by omega)]
    exact iff_of_false (fun h => hp (List.mem_of_getElem? h)) (by omega)

/-- A piece that is no shorter than what was there becomes the longest content. -/
theorem store_piece {p b : Bytes} (hle : p.length ≤ b.length) :
    store (p ++ List.replicate (n - p.length) nul) b = b ++ List.replicate (n - b.length) nul := by
  rw [store, List.drop_append, List.drop_of_length_le hle, List.nil_append, List.drop_replicate]
  congr 2
  omega

/-- **The loop returns what is received** exactly when no read leaves a rest of an earlier one
behind it. So far `p` has been the longest read. -/
theorem recvLoop_eq_iff {cs : List (Chunk n)} (hnul : ∀ c ∈ cs, nul ∉ c.1) {p s : Bytes} (hp : nul ∉ p)
    (hpn : p.length ≤ n) (hs : s.length < returnSize) :
    recvLoop (p ++ List.replicate (n - p.length) nul) s cs = .ok (s ++ joined cs) ↔
      (∀ c ∈ cs, c.1.length < n) ∧ (p.length :: cs.map fun c => c.1.length).IsChain (· ≤ ·) ∧
        (s ++ joined cs).length < returnSize := by
  induction cs generalizing p s with
  | nil => simpa [recvLoop] using hs
  | cons c cs ih =>
    have hc := hnul c List.mem_cons_self
    have hcs : ∀ x ∈ cs, nul ∉ x.1 := fun x hx => hnul x (List.mem_cons_of_mem _ hx)
    rw [List.map_cons, List.isChain_cons_cons, List.forall_mem_cons, joined_cons, ← List.append_assoc]
    by_cases hread : read nul (store (p ++ List.replicate (n - p.length) nul) c.1) = .ok c.1
    · obtain ⟨hle, hlt⟩ := (read_piece_iff hp hc hpn).1 hread
      by_cases hsize : (s ++ c.1).length < returnSize
      · have hcat := strcat_ok_iff.2 ⟨_, hread, rfl, hsize⟩
        rw [recvLoop_cons, hcat, store_piece hle]
        simp only [Except.ok.injEq, exists_eq_left', ih hcs hc hlt.le hsize, hlt, hle, true_and]
      · -- the array is full
        have hbig : ¬ (s ++ c.1 ++ joined cs).length < returnSize := by
          rw [List.length_append]
          omega
        refine iff_of_false (fun h => ?_) fun h => hbig h.2.2
        obtain ⟨s', hs', -⟩ := recvLoop_cons.1 h
        obtain ⟨t, ht, rfl, hlen⟩ := strcat_ok_iff.1 hs'
        rw [hread] at ht
        cases ht
        exact hsize hlen
    · refine iff_of_false (fun h => ?_) fun h => hread ((read_piece_iff hp hc hpn).2 ⟨h.2.1.1, h.1.1⟩)
      -- a rest of an earlier read is added, and what is returned is too long
      obtain ⟨s', hs', h⟩ := recvLoop_cons.1 h
      obtain ⟨t, ht, rfl, -⟩ := strcat_ok_iff.1 hs'
      obtain ⟨s₁, hs₁, rfl⟩ := (read_store hc).1 ht
      have hrest : s₁ ≠ [] := by
        rintro rfl
        rw [List.append_nil] at ht
        exact hread ht
      have hlong := recvLoop_length hcs h
      have := List.length_pos_iff.2 hrest
      simp only [List.length_append] at hlong
      omega

/-! ## One call -/

namespace RecvCall

theorem result_ok_iff {c : RecvCall} {r : Bytes} :
    c.result = .ok r ↔ c.size < 2 ^ 31 ∧ c.received = .ok r := by
  unfold result
  split
  · rename_i hsize
    cases c.received with
    | error e => exact ⟨nofun, fun h => nomatch h.2⟩
    | ok t => exact ⟨fun h => ⟨hsize, by cases h; rfl⟩, fun h => by rw [Except.ok.inj h.2]; rfl⟩
  · rename_i hsize
    exact ⟨nofun, fun h => absurd h.1 hsize⟩

theorem result_nul {c : RecvCall} {r : Bytes} (h : c.result = .ok r) : nul ∉ r := by
  have h := (result_ok_iff.1 h).2
  cases c with
  | pico n chunks => exact recvLoop_nul (by simp) h
  | lwip => exact read_nul h

theorem bytes_nul {n : ℕ} {chunks : List (Chunk n)} : nul ∉ joined chunks ↔ ∀ c ∈ chunks, nul ∉ c.1 := by
  simp [joined]

theorem length_le_result {c : RecvCall} (hnul : nul ∉ c.bytes) {r : Bytes} (h : c.result = .ok r) :
    c.bytes.length ≤ r.length := by
  have h := (result_ok_iff.1 h).2
  cases c with
  | pico n chunks =>
    have := recvLoop_length (bytes_nul.1 hnul) h
    rwa [List.length_nil, Nat.zero_add] at this
  | lwip n initial stored hn hs =>
    obtain ⟨s, -, rfl⟩ := (read_store hnul).1 h
    simp [bytes]

/-- **A call returns what it was given**, and no more than was asked for, if and only if it is
clean. -/
theorem clean_iff (c : RecvCall) : c.Clean ↔
    nul ∉ c.bytes ∧ c.result = .ok c.bytes ∧ c.bytes.length ≤ c.size := by
  rw [result_ok_iff]
  cases c with
  | pico n chunks =>
    rw [bytes, bytes_nul]
    have hloop : ∀ h : ∀ c ∈ chunks, nul ∉ c.1, _ := fun h =>
      recvLoop_eq_iff h (p := []) (s := []) (by simp) (Nat.zero_le _) (by decide)
    simp only [List.nil_append, List.length_nil, Nat.sub_zero] at hloop
    have hchain : (0 :: chunks.map fun c => c.1.length).IsChain (· ≤ ·) ↔
        (chunks.map fun c => c.1.length).IsChain (· ≤ ·) := by
      cases chunks <;> simp
    unfold Clean received size socketRecv
    constructor
    · rintro ⟨hint, hall, hch, hn, hsize⟩
      have hnul : ∀ c ∈ chunks, nul ∉ c.1 := fun c hc => (hall c hc).1
      exact ⟨hnul, ⟨hint, (hloop hnul).2 ⟨fun c hc => (hall c hc).2, hchain.2 hch, hsize⟩⟩, hn⟩
    · rintro ⟨hnul, ⟨hint, hres⟩, hn⟩
      obtain ⟨hlt, hch, hsize⟩ := (hloop hnul).1 hres
      exact ⟨hint, fun c hc => ⟨hnul c hc, hlt c hc⟩, hchain.1 hch, hn, hsize⟩
  | lwip n initial stored hn hs =>
    show n < 2 ^ 31 ∧ nul ∉ stored ∧ initial[stored.length]? = some nul ↔
      nul ∉ stored ∧ (n < 2 ^ 31 ∧ read nul (store initial stored) = .ok stored) ∧ stored.length ≤ n
    constructor
    · rintro ⟨hint, hnul, hend⟩
      exact ⟨hnul, ⟨hint, (read_store_self hnul).2 hend⟩, hs⟩
    · rintro ⟨hnul, ⟨hint, hread⟩, -⟩
      exact ⟨hint, hnul, (read_store_self hnul).1 hread⟩

end RecvCall

/-! ## Runs of calls -/

/-- Strings that are no shorter than those that they are to be, and together the same, are
the same one by one. -/
theorem eq_bytes {calls : List RecvCall} {rs : List Bytes} (hnul : ∀ c ∈ calls, nul ∉ c.bytes)
    (h : List.Forall₂ (fun c r => c.result = .ok r ∧ r.length ≤ c.size) calls rs) :
    (calls.flatMap RecvCall.bytes).length ≤ rs.flatten.length ∧
      (rs.flatten = calls.flatMap RecvCall.bytes → rs = calls.map RecvCall.bytes) := by
  induction h with
  | nil => exact ⟨le_rfl, fun _ => rfl⟩
  | @cons c r calls rs hc h ih =>
    obtain ⟨hlen, heq⟩ := ih fun x hx => hnul x (List.mem_cons_of_mem _ hx)
    have hr := RecvCall.length_le_result (hnul c List.mem_cons_self) hc.1
    rw [List.flatten_cons, List.flatMap_cons, List.map_cons]
    refine ⟨by simp only [List.length_append]; omega, fun hflat => ?_⟩
    have hlength : r.length = c.bytes.length := by
      have := congrArg List.length hflat
      simp only [List.length_append] at this
      omega
    obtain ⟨rfl, htail⟩ := List.append_inj hflat hlength
    rw [heq htail]

theorem flatten_nul {calls : List RecvCall} {rs : List Bytes}
    (h : List.Forall₂ (fun c r => c.result = .ok r ∧ r.length ≤ c.size) calls rs) : nul ∉ rs.flatten := by
  induction h with
  | nil => simp
  | cons hc h ih =>
    rw [List.flatten_cons, List.mem_append, not_or]
    exact ⟨RecvCall.result_nul hc.1, ih⟩

/-- **The stream is delivered if and only if every call is clean.** -/
theorem delivers_iff (calls : List RecvCall) : Delivers calls ↔ ∀ c ∈ calls, c.Clean := by
  constructor
  · rintro ⟨rs, hrs, heq⟩
    -- no string has a terminator, so none was received
    have hnul : ∀ c ∈ calls, nul ∉ c.bytes := by
      have hflat := flatten_nul hrs
      rw [heq, List.mem_flatMap] at hflat
      exact fun c hc hmem => hflat ⟨c, hc, hmem⟩
    rw [(eq_bytes hnul hrs).2 heq, List.forall₂_map_right_iff, List.forall₂_same] at hrs
    exact fun c hc => (c.clean_iff).2 ⟨hnul c hc, hrs c hc⟩
  · intro h
    refine ⟨calls.map RecvCall.bytes, ?_, by rw [List.flatMap]⟩
    rw [List.forall₂_map_right_iff, List.forall₂_same]
    exact fun c hc => ((c.clean_iff).1 (h c hc)).2

/-- Two reads in one call, the second shorter: what the first left in the buffer is returned
twice. -/
theorem recv_stale : ¬ ∀ calls : List RecvCall, Delivers calls := by
  intro h
  obtain ⟨rs, hrs, heq⟩ := h [.pico 10 [⟨"abc".toList, by decide⟩, ⟨"d".toList, by decide⟩]]
  cases hrs with
  | cons hc hnil =>
    cases hnil
    have hr : RecvCall.result (.pico 10 [⟨"abc".toList, by decide⟩, ⟨"d".toList, by decide⟩]) =
        .ok "abcdbc".toList := by decide
    rw [hr] at hc
    obtain ⟨hc, -⟩ := hc
    cases hc
    revert heq
    decide

end Vdetelweb
