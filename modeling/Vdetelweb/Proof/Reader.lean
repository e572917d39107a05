import Vdetelweb.Spec.Response

/-!
# `get_response` reads lines, whatever the chunks

How a call of `get_response` ends is determined by the bytes that come, not by the
chunks they come in: it is what `readLine` makes of the complete lines of the
stream (`getResponse_out`). What the call leaves in the socket does depend on the
chunks: it takes whole chunks, and the bytes after the last line it read go with
them (`getResponse_chunks`). A message that fills its chunks exactly is read
without taking anything else (`getResponse_message`).
-/

namespace Vdetelweb

open Lines

variable {n : ℕ}

/-- **How the call ends**, from the bytes to come. -/
def outcome (v : Locals) (b : Bytes) (eof : Bool) : Out Response :=
  match (lines '\n' b).foldlM readLine v with
  | .ok v' => if eof then .ret v'.response else .block
  | .error r => r

theorem outcome_line {l : Bytes} (hl : '\n' ∉ l) (v : Locals) (b : Bytes) (eof : Bool) :
    outcome v (l ++ '\n' :: b) eof =
      match readLine v l with
      | .ok v' => outcome v' b eof
      | .error r => r := by
  unfold outcome
  rw [lines_line hl, List.foldlM_cons]
  cases readLine v l <;> rfl

theorem outcome_partial {b : Bytes} (hb : '\n' ∉ b) (v : Locals) (eof : Bool) :
    outcome v b eof = if eof then .ret v.response else .block := by
  unfold outcome
  rw [lines_of_not_mem hb]; rfl

/-! ## The loop -/

theorem responseLoop_line {l : Bytes} (hl : '\n' ∉ l) (t : Bytes) (v : Locals) (s : Stream n) :
    responseLoop (l ++ '\n' :: t) v s =
      match readLine v l with
      | .ok v' => responseLoop t v' s
      | .error r => (r, s) := by
  cases h : readLine v l <;> rw [responseLoop, dif_pos (by simp), cut_line hl] <;> simp only [h]

theorem responseLoop_dry {b : Bytes} (hb : '\n' ∉ b) (v : Locals) (eof : Bool) :
    responseLoop b v (⟨[], eof⟩ : Stream n) =
      (if eof then .ret v.response else .block, ⟨[], eof⟩) := by
  rw [responseLoop, dif_neg hb]
  cases eof <;> rfl

theorem responseLoop_refill {b : Bytes} (hb : '\n' ∉ b) (v : Locals) (c : Chunk n)
    (cs : List (Chunk n)) (eof : Bool) :
    responseLoop b v ⟨c :: cs, eof⟩ = responseLoop (b ++ c.1) v ⟨cs, eof⟩ := by
  rw [responseLoop, dif_neg hb]
  simp only [Stream.recv]
  rw [dif_neg c.2.1]

/-- **Induction along the loop**: a line taken off the buffer, a refill, and the end
of the data. -/
theorem responseLoop_induction {P : Bytes → Locals → Stream n → Prop}
    (line : ∀ l t v s, '\n' ∉ l → (∀ v', readLine v l = .ok v' → P t v' s) → P (l ++ '\n' :: t) v s)
    (dry : ∀ b v eof, '\n' ∉ b → P b v ⟨[], eof⟩)
    (refill : ∀ b v c cs eof, '\n' ∉ b → P (b ++ c.1) v ⟨cs, eof⟩ → P b v ⟨c :: cs, eof⟩) :
    ∀ b v s, P b v s := by
  intro b v s
  induction b, v, s using responseLoop.induct with
  | case1 b v s h v' hv ih =>
    obtain ⟨l, t, hl, rfl⟩ := exists_line h
    rw [cut_line hl] at hv ih
    refine line l t v s hl fun w hw => ?_
    rw [hv] at hw; cases hw; exact ih
  | case2 b v s h r hr =>
    obtain ⟨l, t, hl, rfl⟩ := exists_line h
    rw [cut_line hl] at hr
    refine line l t v s hl fun w hw => ?_
    rw [hr] at hw; cases hw
  | case3 b v s h s' hs =>
    obtain ⟨cs, eof⟩ := s
    cases cs with
    | nil => exact dry b v eof h
    | cons c cs => simp [Stream.recv] at hs
  | case4 b v s h s' hs =>
    obtain ⟨cs, eof⟩ := s
    cases cs with
    | nil => exact dry b v eof h
    | cons c cs =>
      -- a chunk is not empty
      simp only [Stream.recv, Prod.mk.injEq, Option.some.injEq] at hs
      exact absurd hs.1 c.2.1
  | case5 b v s h more s' hs hm ih =>
    obtain ⟨cs, eof⟩ := s
    cases cs with
    | nil => cases eof <;> simp_all [Stream.recv]
    | cons c cs =>
      simp only [Stream.recv, Prod.mk.injEq, Option.some.injEq] at hs
      obtain ⟨rfl, rfl⟩ := hs
      exact refill b v c cs eof h ih

/-- `get_response` is the loop started on an empty buffer. -/
theorem getResponse_eq (s : Stream n) : getResponse s = responseLoop [] {} s := by
  obtain ⟨cs, eof⟩ := s
  cases cs with
  | nil =>
    rw [responseLoop_dry (by simp)]
    cases eof
    · rfl
    · simp only [getResponse, Stream.recv, if_true]; rw [responseLoop_dry (by simp)]; rfl
  | cons c cs => rw [responseLoop_refill (by simp)]; rfl

theorem responseLoop_out (b : Bytes) (v : Locals) (s : Stream n) :
    (responseLoop b v s).1 = outcome v (b ++ s.bytes) s.eof := by
  refine responseLoop_induction (P := fun b v s => (responseLoop b v s).1 =
    outcome v (b ++ s.bytes) s.eof) ?_ ?_ ?_ b v s
  · intro l t v s hl ih
    rw [responseLoop_line hl, List.append_assoc, List.cons_append, outcome_line hl]
    cases h : readLine v l with
    | ok v' => exact ih v' h
    | error r => rfl
  · intro b v eof hb
    rw [responseLoop_dry hb]
    simp [Stream.bytes, outcome_partial hb]
  · intro b v c cs eof hb ih
    rw [responseLoop_refill hb, ih]
    simp [Stream.bytes]

/-- **How a call ends depends on the bytes alone**, not on the chunks. -/
theorem getResponse_out (s : Stream n) : (getResponse s).1 = outcome {} s.bytes s.eof := by
  rw [getResponse_eq, responseLoop_out]; rfl

/-- `get_response` can read a reply from the bytes to come, -/
def Parsable (s : Stream n) : Prop := ∃ r, outcome {} s.bytes s.eof = .ret r

/-- or one of their lines makes it raise before the reply is complete, -/
def Malformed (s : Stream n) : Prop := ∃ e l, outcome {} s.bytes s.eof = .raise e l

/-- or it waits for the rest of the reply for ever. -/
def Incomplete (s : Stream n) : Prop := outcome {} s.bytes s.eof = .block

/-- A call takes whole chunks from the socket. -/
theorem getResponse_chunks (s : Stream n) :
    ∃ cs, s.chunks = cs ++ (getResponse s).2.chunks ∧ (getResponse s).2.eof = s.eof := by
  rw [getResponse_eq]
  refine responseLoop_induction (P := fun b v s => ∃ cs, s.chunks = cs ++ (responseLoop b v s).2.chunks
    ∧ (responseLoop b v s).2.eof = s.eof) ?_ ?_ ?_ [] {} s
  · intro l t v s hl ih
    rw [responseLoop_line hl]
    cases h : readLine v l with
    | ok v' => exact ih v' h
    | error r => exact ⟨[], rfl, rfl⟩
  · intro b v eof hb
    rw [responseLoop_dry hb]; exact ⟨[], rfl, rfl⟩
  · intro b v c cs eof hb ih
    rw [responseLoop_refill hb]
    obtain ⟨ds, h1, h2⟩ := ih
    exact ⟨c :: ds, by rw [List.cons_append, ← h1], h2⟩

/-- **A message that ends with its chunks** is read to its last line, and nothing
after it is taken from the socket. -/
theorem getResponse_message {pre : List Bytes} {l : Bytes} {v' : Locals} {r : Out Response}
    (hnl : ∀ x ∈ pre ++ [l], '\n' ∉ x) (hpre : pre.foldlM readLine {} = .ok v')
    (hl : readLine v' l = .error r) {cs ds : List (Chunk n)} {eof : Bool}
    (hcs : joined cs = unlines '\n' (pre ++ [l])) :
    getResponse ⟨cs ++ ds, eof⟩ = (r, ⟨ds, eof⟩) := by
  rw [getResponse_eq]
  -- the buffer and the chunks `cs` are what is still to be read of the message
  refine responseLoop_induction (P := fun b v s => ∀ pre cs, s = ⟨cs ++ ds, eof⟩ →
    (∀ x ∈ pre ++ [l], '\n' ∉ x) → pre.foldlM readLine v = .ok v' →
    b ++ joined cs = unlines '\n' (pre ++ [l]) → responseLoop b v s = (r, ⟨ds, eof⟩))
    ?_ ?_ ?_ [] {} ⟨cs ++ ds, eof⟩ pre cs rfl hnl hpre hcs
  · intro k t v s hk ih pre cs hs hnl hpre hcs
    rw [responseLoop_line hk]
    rw [List.append_assoc, List.cons_append] at hcs
    cases pre with
    | nil =>
      -- the line that ends the message: the buffer and the chunks are used up
      obtain ⟨rfl, ht⟩ := line_eq_unlines hk (hnl l (by simp)) hcs
      cases hpre
      rw [hl]
      simp only [unlines_nil, List.append_eq_nil_iff, joined_eq_nil] at ht
      rw [hs, ht.2]; rfl
    | cons p pre =>
      obtain ⟨rfl, ht⟩ := line_eq_unlines hk (hnl p (by simp)) hcs
      rw [List.foldlM_cons] at hpre
      cases h : readLine v k with
      | error r' => rw [h] at hpre; cases hpre
      | ok w =>
        rw [h] at hpre
        exact ih w h pre cs hs (fun x hx => hnl x (List.mem_cons_of_mem _ hx)) hpre ht
  · intro b v eof' hb pre cs hs hnl hpre hcs
    -- the data does not run dry inside the message
    simp only [Stream.mk.injEq] at hs
    obtain ⟨rfl, -⟩ := List.append_eq_nil_iff.1 hs.1.symm
    exact absurd (by rw [joined_nil, List.append_nil] at hcs; rw [hcs]; simp) hb
  · intro b v c cs' eof' hb ih pre cs hs hnl hpre hcs
    rw [responseLoop_refill hb]
    simp only [Stream.mk.injEq] at hs
    cases cs with
    | nil => exact absurd (by rw [joined_nil, List.append_nil] at hcs; rw [hcs]; simp) hb
    | cons c' cs =>
      simp only [List.cons_append, List.cons.injEq] at hs
      obtain ⟨⟨rfl, rfl⟩, rfl⟩ := hs
      exact ih pre cs rfl hnl hpre (by rw [List.append_assoc, ← joined_cons, hcs])

end Vdetelweb
