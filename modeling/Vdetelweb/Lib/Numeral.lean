import Mathlib

/-!
# Numerals

`hexNat` reads a numeral in base 16, digit by digit, and its value is that of the digits
(`hexNat_eq`). Every number has such a numeral (`exists_numeral`).

The numeral in base 2 shows the bits of a number: its ones are counted (`count_toDigits`).
-/

namespace Numeral

/-! ## Base 16 -/

/-- The value of a digit, in either case. -/
def hexDigit (c : Char) : Option ℕ :=
  if '0' ≤ c ∧ c ≤ '9' then some (c.toNat - 48)
  else if 'a' ≤ c ∧ c ≤ 'f' then some (c.toNat - 87)
  else if 'A' ≤ c ∧ c ≤ 'F' then some (c.toNat - 55)
  else none

theorem toNat_of_hexDigit {c : Char} (h : (hexDigit c).isSome) : (48 ≤ c.toNat ∧ c.toNat ≤ 57) ∨
    (97 ≤ c.toNat ∧ c.toNat ≤ 102) ∨ (65 ≤ c.toNat ∧ c.toNat ≤ 70) := by
  unfold hexDigit at h
  split at h
  · exact Or.inl ‹_›
  · split at h
    · exact Or.inr (Or.inl ‹_›)
    · split at h
      · exact Or.inr (Or.inr ‹_›)
      · cases h

/-- The digits are read one after another, from a value. `none` if one is not a digit. -/
def hexNat (n : ℕ) : List Char → Option ℕ
  | [] => some n
  | c :: cs => do hexNat (16 * n + (← hexDigit c)) cs

/-- The value of the digits. -/
def hexValue (s : List Char) : ℕ := Nat.ofDigits 16 (s.filterMap hexDigit).reverse

theorem hexNat_append (n : ℕ) (s t : List Char) : hexNat n (s ++ t) = (hexNat n s).bind fun m => hexNat m t := by
  induction s generalizing n with
  | nil => rfl
  | cons c s ih =>
    cases hc : hexDigit c with
    | none => simp [hexNat, hc]
    | some d => simp [hexNat, hc, ih]

/-- **What is read** is the value of the digits. -/
theorem hexNat_eq {s : List Char} (h : ∀ c ∈ s, (hexDigit c).isSome) (n : ℕ) :
    hexNat n s = some (16 ^ s.length * n + hexValue s) := by
  induction s generalizing n with
  | nil => simp [hexNat, hexValue]
  | cons c s ih =>
    rw [List.forall_mem_cons] at h
    obtain ⟨d, hd⟩ := Option.isSome_iff_exists.1 h.1
    have hlen : (s.filterMap hexDigit).length = s.length := by
      rw [List.length_filterMap_eq_countP, List.countP_eq_length]
      exact h.2
    have hvalue : hexValue (c :: s) = hexValue s + 16 ^ s.length * d := by
      rw [hexValue, List.filterMap_cons_some hd, List.reverse_cons, Nat.ofDigits_append, List.length_reverse, hlen,
        Nat.ofDigits_singleton]
      rfl
    rw [hvalue, List.length_cons, pow_succ]
    simp only [hexNat, hd, Option.bind_eq_bind, Option.bind_some, ih h.2]
    congr 1
    ring

/-- A digit of a numeral. -/
theorem hexDigit_digitChar {d : ℕ} (h : d < 16) : hexDigit (Nat.digitChar d) = some d := by
  interval_cases d <;> rfl

theorem hexNat_toDigits (n : ℕ) : hexNat 0 (Nat.toDigits 16 n) = some n := by
  induction n using Nat.strong_induction_on with
  | _ n ih =>
    rw [Nat.toDigits_eq_if (by decide)]
    by_cases h : n < 16
    · rw [if_pos h]
      simp [hexNat, hexDigit_digitChar h]
    · have hlt : n / 16 < n := by omega
      have hmod : n % 16 < 16 := by omega
      have hsplit : 16 * (n / 16) + n % 16 = n := by omega
      rw [if_neg h, hexNat_append, ih (n / 16) hlt]
      simp [hexNat, hexDigit_digitChar hmod, hsplit]

theorem hexDigit_of_hexNat {s : List Char} {n m : ℕ} (h : hexNat n s = some m) :
    ∀ c ∈ s, (hexDigit c).isSome := by
  induction s generalizing n with
  | nil => simp
  | cons c s ih =>
    cases hc : hexDigit c with
    | none => simp [hexNat, hc] at h
    | some d =>
      have hrest : hexNat (16 * n + d) s = some m := by simpa [hexNat, hc] using h
      simpa [hc] using ih hrest

/-- **Every number has a numeral.** -/
theorem exists_numeral (n : ℕ) : ∃ s, s ≠ [] ∧ (∀ c ∈ s, (hexDigit c).isSome) ∧ hexValue s = n := by
  have hread := hexNat_toDigits n
  have hdigits := hexDigit_of_hexNat hread
  refine ⟨Nat.toDigits 16 n, Nat.toDigits_ne_nil, hdigits, ?_⟩
  rw [hexNat_eq hdigits] at hread
  simpa using hread

/-! ## Base 2 -/

/-- The ones among the first bits of a number. -/
def ones (width n : ℕ) : ℕ := (List.range width).countP n.testBit

theorem ones_zero (width : ℕ) : ones width 0 = 0 := by
  simp [ones]

/-- The lowest bit, and the others. -/
theorem ones_succ (width n : ℕ) : ones (width + 1) n = ones width (n / 2) + n % 2 := by
  have hrest : (List.range width).countP (n.testBit ∘ Nat.succ) = ones width (n / 2) := by
    refine List.countP_congr fun i _ => ?_
    rw [Function.comp_apply, Nat.succ_eq_add_one, Nat.testBit_succ]
  have hlow : (if n.testBit 0 then 1 else 0) = n % 2 := by
    rw [Nat.testBit_zero]
    rcases Nat.mod_two_eq_zero_or_one n with h | h <;> simp [h]
  rw [ones, List.range_succ_eq_map, List.countP_cons, List.countP_map, hrest, hlow]

/-- **The ones of the numeral** are those of the bits. -/
theorem count_toDigits {width n : ℕ} (h : n < 2 ^ width) : (Nat.toDigits 2 n).count '1' = ones width n := by
  induction width generalizing n with
  | zero =>
    obtain rfl : n = 0 := by omega
    rfl
  | succ width ih =>
    rw [ones_succ, Nat.toDigits_eq_if (by decide)]
    by_cases hn : n < 2
    · have hhalf : n / 2 = 0 := by omega
      rw [if_pos hn, hhalf, ones_zero]
      interval_cases n <;> rfl
    · have hhalf : n / 2 < 2 ^ width := by
        rw [pow_succ] at h
        omega
      have hlow : [Nat.digitChar (n % 2)].count '1' = n % 2 := by
        rcases Nat.mod_two_eq_zero_or_one n with h | h <;> rw [h] <;> rfl
      rw [if_neg hn, List.count_append, ih hhalf, hlow]

end Numeral
