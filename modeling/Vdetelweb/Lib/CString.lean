import Mathlib

/-!
# Strings with a terminator

A string is what stands in a buffer before the first terminator `nul`. `store` writes to
the start of a buffer, and `read` takes the string back: what was stored, and what the
buffer still had behind it (`read_store`), which is nothing if a terminator stands there
(`read_store_self`).

An access that leaves a buffer is a `Fault`.
-/

namespace CString

/-- Reading or writing beyond the end of a buffer. -/
inductive Fault
  | read | write
  deriving DecidableEq, Repr

variable {α : Type*} [DecidableEq α] (nul : α)

/-- The string in the buffer. -/
def read (buffer : List α) : Except Fault (List α) :=
  if nul ∈ buffer then .ok (buffer.takeWhile (· ≠ nul)) else .error .read

/-- `b` is written to the start of the buffer. -/
def store (buffer b : List α) : List α := b ++ buffer.drop b.length

/-- `strcat`: the string in the buffer is put behind `s`, in an array of `size` elements. The
last of them is for the terminator. -/
def strcat (size : ℕ) (s buffer : List α) : Except Fault (List α) :=
  match read nul buffer with
  | .ok t => if (s ++ t).length < size then .ok (s ++ t) else .error .write
  | .error e => .error e

/-- `strcpy`: a string and its terminator are written to the start of the buffer. -/
def strcpy (buffer s : List α) : Except Fault (List α) :=
  if s.length < buffer.length then .ok (store buffer (s ++ [nul])) else .error .write

variable {nul}

theorem read_ok_iff {buffer t : List α} :
    read nul buffer = .ok t ↔ nul ∈ buffer ∧ buffer.takeWhile (· ≠ nul) = t := by
  unfold read
  split
  · simp_all
  · simp_all

theorem read_nul {buffer t : List α} (h : read nul buffer = .ok t) : nul ∉ t := by
  obtain ⟨-, rfl⟩ := read_ok_iff.1 h
  intro hmem
  simpa using List.mem_takeWhile_imp hmem

/-- No element of a string ends it. -/
theorem ne_of_notMem {b : List α} (hb : nul ∉ b) : ∀ a ∈ b, decide (a ≠ nul) = true := by
  intro a ha
  rw [decide_eq_true_iff]
  rintro rfl
  exact hb ha

/-- **What is read back** is what was stored, and the string that stands behind it. -/
theorem read_store {buffer b t : List α} (hb : nul ∉ b) :
    read nul (store buffer b) = .ok t ↔ ∃ s, read nul (buffer.drop b.length) = .ok s ∧ t = b ++ s := by
  unfold store
  simp only [read_ok_iff, List.mem_append, hb, false_or, List.takeWhile_append_of_pos (ne_of_notMem hb)]
  constructor
  · rintro ⟨hmem, rfl⟩
    exact ⟨_, ⟨hmem, rfl⟩, rfl⟩
  · rintro ⟨s, ⟨hmem, rfl⟩, rfl⟩
    exact ⟨hmem, rfl⟩

/-- Nothing stands behind it exactly when the terminator does. -/
theorem read_eq_nil {buffer : List α} : read nul buffer = .ok [] ↔ buffer.head? = some nul := by
  rw [read_ok_iff]
  cases buffer with
  | nil => simp
  | cons a buffer =>
    by_cases ha : a = nul
    · simp [ha]
    · simp [ha]

/-- **What was stored is read back** exactly when a terminator stands behind it. -/
theorem read_store_self {buffer b : List α} (hb : nul ∉ b) :
    read nul (store buffer b) = .ok b ↔ buffer[b.length]? = some nul := by
  rw [← List.head?_drop, ← read_eq_nil, read_store hb]
  constructor
  · rintro ⟨s, hs, heq⟩
    obtain rfl : s = [] := List.append_right_eq_self.1 heq.symm
    exact hs
  · intro h
    exact ⟨[], h, (List.append_nil b).symm⟩

variable (nul) in
/-- **A string that fits** is copied. -/
theorem strcpy_of_lt {buffer s : List α} (h : s.length < buffer.length) :
    ∃ b, strcpy nul buffer s = .ok b ∧ b.length = buffer.length ∧ (nul ∉ s → read nul b = .ok s) := by
  refine ⟨_, if_pos h, ?_, fun hs => ?_⟩
  · simp only [store, List.length_append, List.length_drop, List.length_singleton]
    omega
  · rw [store, List.append_assoc, read_ok_iff, List.takeWhile_append_of_pos (ne_of_notMem hs)]
    simp

theorem strcat_ok_iff {size : ℕ} {s buffer r : List α} : strcat nul size s buffer = .ok r ↔
    ∃ t, read nul buffer = .ok t ∧ r = s ++ t ∧ r.length < size := by
  unfold strcat
  cases read nul buffer with
  | error e => simp
  | ok t =>
    simp only [Except.ok.injEq]
    by_cases h : (s ++ t).length < size
    · rw [if_pos h]
      constructor
      · rintro ⟨⟩
        exact ⟨t, rfl, rfl, h⟩
      · rintro ⟨t, rfl, rfl, -⟩
        rfl
    · rw [if_neg h]
      constructor
      · intro h
        cases h
      · rintro ⟨t, rfl, rfl, h'⟩
        exact absurd h' h

end CString
