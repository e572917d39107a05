import Mathlib

/-!
# Binary heaps in an array

The cells `1` to `n` of an array are a tree in which the parent of `i` is `i / 2`. They are a
heap if no key is less than its parent's (`IsHeap`), and then the first cell has the least key
(`IsHeap.first_le`).

A cell is put in, or the first is taken out, by moving cells into a hole one after the other.
`Rising` and `Falling` say what holds while the hole moves up or down, each with the rule for a
move (`Rising.up`, `Falling.down`) and for the end (`Rising.fill`, `Falling.fill`). What the cells
hold is a multiset, `content`, which a move leaves as it is (`content_move`).
-/

namespace Heaps

open Function

variable {α κ : Type*}

/-! ## What the cells hold -/

/-- What the cells hold. -/
def content (cell : ℕ → α) (n : ℕ) : Multiset α := (Finset.Icc 1 n).val.map cell

variable {cell cell' : ℕ → α} {n : ℕ}

@[simp] theorem content_zero (cell : ℕ → α) : content cell 0 = 0 := rfl

theorem content_succ (cell : ℕ → α) (n : ℕ) : content cell (n + 1) = cell (n + 1) ::ₘ content cell n := by
  unfold content
  rw [← Finset.insert_Icc_right_eq_Icc_add_one (by omega : 1 ≤ n + 1), Finset.insert_val_of_notMem (by simp),
    Multiset.map_cons]

theorem mem_content {a : α} : a ∈ content cell n ↔ ∃ i, 1 ≤ i ∧ i ≤ n ∧ cell i = a := by
  simp [content, and_assoc]

theorem card_content (cell : ℕ → α) (n : ℕ) : (content cell n).card = n := by
  simp [content]

/-- Only the cells up to the last one matter. -/
theorem content_congr (h : ∀ i, 1 ≤ i → i ≤ n → cell i = cell' i) : content cell n = content cell' n := by
  refine Multiset.map_congr rfl fun i hi => ?_
  rw [Finset.mem_val, Finset.mem_Icc] at hi
  exact h i hi.1 hi.2

theorem content_update_of_lt {k : ℕ} (hk : n < k) (a : α) : content (update cell k a) n = content cell n :=
  content_congr fun i _ hi => update_of_ne (by omega) a cell

/-- **A move into the hole** leaves the content as it is: the hole is elsewhere then. -/
theorem content_move {hole p : ℕ} (hhole : 1 ≤ hole ∧ hole ≤ n) (hp : 1 ≤ p ∧ p ≤ n) (a : α) :
    content (update (update cell hole (cell p)) p a) n = content (update cell hole a) n := by
  have hswap : update (update cell hole (cell p)) p a = update cell hole a ∘ Equiv.swap hole p := by
    funext i
    rw [comp_apply]
    by_cases hip : i = p
    · rw [hip, update_self, Equiv.swap_apply_right, update_self]
    · rw [update_of_ne hip]
      by_cases hih : i = hole
      · rw [hih, update_self, Equiv.swap_apply_left]
        by_cases hph : p = hole
        · exact absurd (hih.trans hph.symm) hip
        · rw [update_of_ne hph]
      · rw [update_of_ne hih, Equiv.swap_apply_of_ne_of_ne hih hip, update_of_ne hih]
  have hperm : (Finset.Icc 1 n).map (Equiv.swap hole p).toEmbedding = Finset.Icc 1 n := by
    refine Finset.map_perm fun i hi => ?_
    rw [Set.mem_ofPred_eq] at hi
    rw [Finset.coe_Icc, Set.mem_Icc]
    by_contra hout
    refine hi (Equiv.swap_apply_of_ne_of_ne ?_ ?_)
    · rintro rfl; exact hout hhole
    · rintro rfl; exact hout hp
  rw [hswap, content, ← Multiset.map_map, content]
  conv_rhs => rw [← hperm, Finset.map_val]
  rfl

theorem content_erase (cell : ℕ → α) {i : ℕ} (hpos : 1 ≤ i) (hn : i ≤ n) :
    content cell n = cell i ::ₘ ((Finset.Icc 1 n).erase i).val.map cell := by
  rw [content, ← Multiset.map_cons, ← Finset.insert_val_of_notMem (Finset.notMem_erase i _),
    Finset.insert_erase (Finset.mem_Icc.2 ⟨hpos, hn⟩)]

/-- **One cell is set anew.** -/
theorem exists_content_eq (cell : ℕ → α) {i : ℕ} (hpos : 1 ≤ i) (hn : i ≤ n) :
    ∃ rest, content cell n = cell i ::ₘ rest ∧ ∀ a, content (update cell i a) n = a ::ₘ rest := by
  refine ⟨_, content_erase cell hpos hn, fun a => ?_⟩
  rw [content_erase (update cell i a) hpos hn, update_self]
  congr 1
  refine Multiset.map_congr rfl fun j hj => ?_
  have hmem : j ∈ (Finset.Icc 1 n).erase i := hj
  exact update_of_ne (Finset.ne_of_mem_erase hmem) a cell

/-- The last cell takes the place of the first. -/
theorem content_first (cell : ℕ → α) (n : ℕ) :
    content cell (n + 1) = cell 1 ::ₘ content (update cell 1 (cell (n + 1))) n := by
  rcases Nat.eq_zero_or_pos n with rfl | hn
  · rw [content_succ, content_zero, content_zero]
  · obtain ⟨rest, hcell, hset⟩ := exists_content_eq cell le_rfl hn
    rw [content_succ, hcell, hset, Multiset.cons_swap]

/-! ## The order -/

variable [LinearOrder κ] (key : α → κ)

/-- **No key is less than its parent's.** -/
def IsHeap (cell : ℕ → α) (n : ℕ) : Prop := ∀ i, 2 ≤ i → i ≤ n → key (cell (i / 2)) ≤ key (cell i)

/-- What holds while the hole moves up to let in a key `k`: the order is kept off the hole, and the
children of the hole are no less than its parent, and than `k`. -/
structure Rising (cell : ℕ → α) (n hole : ℕ) (k : κ) : Prop where
  pos : 1 ≤ hole
  le : hole ≤ n
  off : ∀ i, 2 ≤ i → i ≤ n → i ≠ hole → i / 2 ≠ hole → key (cell (i / 2)) ≤ key (cell i)
  across : ∀ i, i ≤ n → i / 2 = hole → 2 ≤ hole → key (cell (hole / 2)) ≤ key (cell i)
  below : ∀ i, i ≤ n → i / 2 = hole → k ≤ key (cell i)

/-- What holds while the hole moves down to let in a key `k`: the order is kept off the hole, and the
children of the hole are no less than its parent, which is no more than `k`. -/
structure Falling (cell : ℕ → α) (n hole : ℕ) (k : κ) : Prop where
  pos : 1 ≤ hole
  off : ∀ i, 2 ≤ i → i ≤ n → i ≠ hole → i / 2 ≠ hole → key (cell (i / 2)) ≤ key (cell i)
  across : ∀ i, i ≤ n → i / 2 = hole → 2 ≤ hole → key (cell (hole / 2)) ≤ key (cell i)
  above : 2 ≤ hole → key (cell (hole / 2)) ≤ k

variable {key}

theorem isHeap_congr (h : ∀ i, 1 ≤ i → i ≤ n → cell i = cell' i) (hheap : IsHeap key cell n) :
    IsHeap key cell' n := by
  intro i h2 hn
  rw [← h i (by omega) hn, ← h (i / 2) (by omega) (by omega)]
  exact hheap i h2 hn

/-- A cell may be set to something with the same key. -/
theorem IsHeap.update (h : IsHeap key cell n) {j : ℕ} {a : α} (ha : key a = key (cell j)) :
    IsHeap key (Function.update cell j a) n := by
  have hkey : ∀ i, key (Function.update cell j a i) = key (cell i) := by
    intro i
    by_cases hij : i = j
    · rw [hij, update_self, ha]
    · rw [update_of_ne hij]
  intro i h2 hi
  rw [hkey, hkey]
  exact h i h2 hi

theorem IsHeap.mono {m : ℕ} (h : IsHeap key cell n) (hm : m ≤ n) : IsHeap key cell m :=
  fun i h2 hi => h i h2 (by omega)

/-- **The first cell has the least key.** -/
theorem IsHeap.first_le (h : IsHeap key cell n) (i : ℕ) (hpos : 1 ≤ i) (hn : i ≤ n) :
    key (cell 1) ≤ key (cell i) := by
  induction i using Nat.strong_induction_on with
  | _ i ih =>
    rcases hpos.eq_or_lt with rfl | h2
    · exact le_rfl
    · exact (ih (i / 2) (by omega) (by omega) (by omega)).trans (h i h2 hn)

theorem IsHeap.first_le_of_mem (h : IsHeap key cell n) {a : α} (ha : a ∈ content cell n) :
    key (cell 1) ≤ key a := by
  obtain ⟨i, hpos, hn, rfl⟩ := mem_content.1 ha
  exact h.first_le i hpos hn

/-! ## Moving up -/

variable {hole : ℕ} {k : κ}

/-- The hole is made behind the last cell. -/
theorem IsHeap.rising (h : IsHeap key cell n) (k : κ) : Rising key cell (n + 1) (n + 1) k where
  pos := by omega
  le := le_rfl
  off i h2 hi hne _ := h i h2 (by omega)
  across i hi hp _ := by omega
  below i hi hp := by omega

/-- **The parent moves into the hole**, being more than what is let in. -/
theorem Rising.up (h : Rising key cell n hole k) (h2 : 2 ≤ hole) (hk : k < key (cell (hole / 2))) :
    Rising key (update cell hole (cell (hole / 2))) n (hole / 2) k := by
  have hle := h.le
  have hup : 4 ≤ hole → key (cell (hole / 2 / 2)) ≤ key (cell (hole / 2)) := fun h4 =>
    h.off (hole / 2) (by omega) (by omega) (by omega) (by omega)
  refine ⟨by omega, by omega, ?_, ?_, ?_⟩
  · intro i hi2 hin hip hpp
    have hih : i ≠ hole := fun he => hpp (by rw [he])
    rw [update_of_ne hih]
    by_cases hph : i / 2 = hole
    · rw [hph, update_self]
      exact h.across i hin hph h2
    · rw [update_of_ne hph]
      exact h.off i hi2 hin hih hph
  · intro i hin hp hp2
    rw [update_of_ne (show hole / 2 / 2 ≠ hole by omega)]
    by_cases hih : i = hole
    · rw [hih, update_self]
      exact hup (by omega)
    · rw [update_of_ne hih]
      have hi := h.off i (by omega) hin hih (by omega)
      rw [hp] at hi
      exact (hup (by omega)).trans hi
  · intro i hin hp
    by_cases hih : i = hole
    · rw [hih, update_self]
      exact hk.le
    · rw [update_of_ne hih]
      have hi := h.off i (by omega) hin hih (by omega)
      rw [hp] at hi
      exact hk.le.trans hi

/-- **The hole is filled** where the parent is no more than what is let in. -/
theorem Rising.fill {a : α} (h : Rising key cell n hole (key a)) (hstop : 2 ≤ hole → key (cell (hole / 2)) ≤ key a) :
    IsHeap key (update cell hole a) n := by
  intro i h2 hn
  by_cases hih : i = hole
  · subst hih
    rw [update_self, update_of_ne (show i / 2 ≠ i by omega)]
    exact hstop h2
  · rw [update_of_ne hih]
    by_cases hph : i / 2 = hole
    · rw [hph, update_self]
      exact h.below i hn hph
    · rw [update_of_ne hph]
      exact h.off i h2 hn hih hph

/-! ## Moving down -/

/-- The hole is made in the first cell. -/
theorem IsHeap.falling (h : IsHeap key cell n) (k : κ) : Falling key cell n 1 k where
  pos := le_rfl
  off i h2 hi _ _ := h i h2 hi
  across i _ _ h2 := by omega
  above h2 := by omega

/-- **A child moves into the hole**, being less than what is let in, and no more than the other. -/
theorem Falling.down {c : ℕ} (h : Falling key cell n hole k) (hc : c / 2 = hole) (hcn : c ≤ n)
    (hleast : ∀ i, i ≤ n → i / 2 = hole → key (cell c) ≤ key (cell i)) (hk : key (cell c) < k) :
    Falling key (update cell hole (cell c)) n c k := by
  have hpos := h.pos
  refine ⟨by omega, ?_, ?_, ?_⟩
  · intro i h2 hin hic hpc
    by_cases hih : i = hole
    · subst hih
      rw [update_self, update_of_ne (show i / 2 ≠ i by omega)]
      exact h.across c hcn hc (by omega)
    · rw [update_of_ne hih]
      by_cases hph : i / 2 = hole
      · rw [hph, update_self]
        exact hleast i hin hph
      · rw [update_of_ne hph]
        exact h.off i h2 hin hih hph
  · intro i hin hpc hc2
    rw [hc, update_self, update_of_ne (show i ≠ hole by omega)]
    have hi := h.off i (by omega) hin (by omega) (by omega)
    rwa [hpc] at hi
  · intro hc2
    rw [hc, update_self]
    exact hk.le

/-- **The hole is filled** where its children are no less than what is let in. -/
theorem Falling.fill {a : α} (h : Falling key cell n hole (key a))
    (hstop : ∀ i, i ≤ n → i / 2 = hole → key a ≤ key (cell i)) : IsHeap key (update cell hole a) n := by
  have hpos := h.pos
  intro i h2 hn
  by_cases hih : i = hole
  · subst hih
    rw [update_self, update_of_ne (show i / 2 ≠ i by omega)]
    exact h.above h2
  · rw [update_of_ne hih]
    by_cases hph : i / 2 = hole
    · rw [hph, update_self]
      exact hstop i hn hph
    · rw [update_of_ne hph]
      exact h.off i h2 hn hih hph

end Heaps
