import Mathlib

/-!
# Trimming a list at both ends

`trim p l` drops the elements satisfying `p` from both ends of `l`. The facts here
say where its elements come from: `l` is a blank margin, `trim p l`, and a blank
margin (`trim_split`), and an element is left out of `trim p l` exactly when one of
the two sides of every occurrence is blank (`not_mem_trim_iff`).
-/

namespace Trim

variable {α : Type*} (p : α → Bool)

/-- Drop the elements satisfying `p` from both ends. -/
def trim (l : List α) : List α := (l.dropWhile p).rdropWhile p

variable {p}

/-- **The margins.** -/
theorem trim_split (l : List α) :
    ∃ a b, l = a ++ trim p l ++ b ∧ (∀ x ∈ a, p x = true) ∧ ∀ x ∈ b, p x = true := by
  refine ⟨l.takeWhile p, (l.dropWhile p).rtakeWhile p, ?_, fun x hx => List.mem_takeWhile_imp hx, ?_⟩
  · unfold trim
    rw [List.append_assoc, List.rdropWhile_append_rtakeWhile, List.takeWhile_append_dropWhile]
  · intro x hx
    exact List.mem_rtakeWhile_imp hx

theorem trim_eq_nil_iff {l : List α} : trim p l = [] ↔ ∀ x ∈ l, p x = true := by
  constructor
  · intro h x hx
    obtain ⟨a, b, hl, ha, hb⟩ := trim_split (p := p) l
    rw [h, List.append_nil] at hl
    rw [hl] at hx
    rcases List.mem_append.1 hx with hx | hx
    · exact ha x hx
    · exact hb x hx
  · intro h
    have hd : l.dropWhile p = [] := List.dropWhile_eq_nil_iff.2 h
    unfold trim; rw [hd]; rfl

/-- Without blanks there is nothing to drop. -/
theorem trim_of_forall_not {l : List α} (h : ∀ x ∈ l, p x = false) : trim p l = l := by
  have hd : l.dropWhile p = l := by
    cases l with
    | nil => rfl
    | cons x l => rw [List.dropWhile_cons_of_neg (by rw [h x List.mem_cons_self]; simp)]
  unfold trim
  rw [hd, List.rdropWhile_eq_self_iff]
  intro hl
  rw [h _ (List.getLast_mem hl)]
  simp

/-- A list that begins and ends with other elements. -/
theorem trim_of_ends {l : List α} (hne : l ≠ []) (hhead : p (l.head hne) = false)
    (hlast : p (l.getLast hne) = false) : trim p l = l := by
  have hd : l.dropWhile p = l := by
    obtain ⟨x, l, rfl⟩ := List.exists_cons_of_ne_nil hne
    exact List.dropWhile_cons_of_neg (by simpa using hhead)
  unfold trim
  rw [hd, List.rdropWhile_eq_self_iff]
  exact fun _ => by simpa using hlast

theorem head_trim {l : List α} (h : trim p l ≠ []) : p ((trim p l).head h) = false := by
  have hd : l.dropWhile p ≠ [] := by
    intro h0; apply h; unfold trim; rw [h0]; rfl
  have hpre : trim p l <+: l.dropWhile p := List.rdropWhile_prefix p _
  have hhead : (trim p l).head h = (l.dropWhile p).head hd := hpre.head h
  rw [hhead]
  simpa using List.head_dropWhile_not p hd

theorem head_of_trim_eq {l : List α} (h : trim p l = l) (hne : l ≠ []) : p (l.head hne) = false := by
  have hne' : trim p l ≠ [] := by rw [h]; exact hne
  simpa only [h] using head_trim hne'

theorem getLast_trim {l : List α} (h : trim p l ≠ []) : p ((trim p l).getLast h) = false :=
  Bool.eq_false_iff.2 (List.rdropWhile_last_not p (l.dropWhile p) h)

theorem dropWhile_append_of_exists {a : List α} (h : ∃ x ∈ a, p x = false) (b : List α) :
    (a ++ b).dropWhile p = a.dropWhile p ++ b := by
  rw [List.dropWhile_append, if_neg]
  obtain ⟨x, hx, hpx⟩ := h
  intro h0
  have := List.dropWhile_eq_nil_iff.1 (List.isEmpty_iff.1 h0) x hx
  rw [hpx] at this; cases this

theorem rdropWhile_append_of_exists {b : List α} (h : ∃ x ∈ b, p x = false) (a : List α) :
    (a ++ b).rdropWhile p = a ++ b.rdropWhile p := by
  obtain ⟨x, hx, hpx⟩ := h
  have hr : (b.reverse ++ a.reverse).dropWhile p = b.reverse.dropWhile p ++ a.reverse :=
    dropWhile_append_of_exists ⟨x, List.mem_reverse.2 hx, hpx⟩ _
  simp [List.rdropWhile, hr]

/-- Blank margins do not matter. -/
theorem trim_margins {a b : List α} (ha : ∀ x ∈ a, p x = true) (hb : ∀ x ∈ b, p x = true) (l : List α) :
    trim p (a ++ l ++ b) = trim p l := by
  have hleft : (a ++ l ++ b).dropWhile p = (l ++ b).dropWhile p := by
    rw [List.append_assoc, List.dropWhile_append_of_pos ha]
  unfold trim
  rw [hleft]
  by_cases hl : ∃ x ∈ l, p x = false
  · rw [dropWhile_append_of_exists hl, List.rdropWhile, List.reverse_append,
      List.dropWhile_append_of_pos (by simpa using hb), ← List.rdropWhile]
  · -- nothing but blanks
    have hl' : ∀ x ∈ l, p x = true := by simpa using hl
    rw [List.dropWhile_eq_nil_iff.2 hl', List.dropWhile_append_of_pos hl',
      List.dropWhile_eq_nil_iff.2 hb]

theorem rdropWhile_cons {x : α} (hx : p x = false) (w : List α) :
    (x :: w).rdropWhile p = x :: w.rdropWhile p := by
  by_cases hw : ∃ y ∈ w, p y = false
  · exact rdropWhile_append_of_exists hw [x]
  · have hw' : ∀ y ∈ w, p y = true := by simpa using hw
    rw [(List.rdropWhile_eq_nil_iff).2 hw', List.rdropWhile, List.reverse_cons,
      List.dropWhile_append_of_pos (by simpa using hw')]
    simp [hx]

theorem trim_cons {x : α} (hx : p x = false) (w : List α) : trim p (x :: w) = x :: w.rdropWhile p := by
  rw [trim, List.dropWhile_cons_of_neg (by simp [hx]), rdropWhile_cons hx]

/-- A list that does not begin with a blank, up to an element that is not one. -/
theorem trim_append_cons {u : List α} (hu : u ≠ []) (hhead : p (u.head hu) = false) {x : α}
    (hx : p x = false) (w : List α) : trim p (u ++ x :: w) = u ++ x :: w.rdropWhile p := by
  have hleft : (u ++ x :: w).dropWhile p = u ++ x :: w := by
    obtain ⟨y, u, rfl⟩ := List.exists_cons_of_ne_nil hu
    exact List.dropWhile_cons_of_neg (by simpa using hhead)
  rw [trim, hleft, rdropWhile_append_of_exists ⟨x, List.mem_cons_self, hx⟩, rdropWhile_cons hx]

theorem trim_rdropWhile (l : List α) : trim p (l.rdropWhile p) = trim p l := by
  have h := trim_margins (p := p) (a := []) (b := l.rtakeWhile p) (by simp)
    (fun x hx => List.mem_rtakeWhile_imp hx) (l.rdropWhile p)
  rwa [List.nil_append, List.rdropWhile_append_rtakeWhile, eq_comm] at h

/-- **A blank survives trimming exactly when it stands between two non-blanks.** -/
theorem not_mem_trim_iff {c : α} (hc : p c = true) {l : List α} :
    c ∉ trim p l ↔ ∀ a b, l = a ++ c :: b → (∀ x ∈ a, p x = true) ∨ ∀ x ∈ b, p x = true := by
  constructor
  · rintro hmem a b rfl
    by_contra hcon
    simp only [not_or, not_forall, Bool.not_eq_true] at hcon
    obtain ⟨⟨x, hx, hpx⟩, ⟨y, hy, hpy⟩⟩ := hcon
    apply hmem
    unfold trim
    rw [dropWhile_append_of_exists ⟨x, hx, hpx⟩,
      rdropWhile_append_of_exists ⟨y, List.mem_cons_of_mem _ hy, hpy⟩,
      show c :: b = [c] ++ b from rfl, rdropWhile_append_of_exists ⟨y, hy, hpy⟩]
    simp
  · intro h hmem
    obtain ⟨a, b, hl, -, -⟩ := trim_split (p := p) l
    obtain ⟨u, v, huv⟩ := List.append_of_mem hmem
    have hne : trim p l ≠ [] := by rw [huv]; simp
    have hhead := head_trim hne
    have hlast := getLast_trim hne
    rcases h (a ++ u) (v ++ b) (by rw [hl, huv]; simp) with hu | hv
    · -- everything up to `c` is blank, the head of `trim p l` included
      have : p ((trim p l).head hne) = true := by
        have hin : (trim p l).head hne ∈ u ++ [c] := by
          rw [List.head_of_mem_head? (x := (u ++ [c]).head (by simp))]
          · exact List.head_mem _
          · rw [huv]; cases u <;> simp
        rcases List.mem_append.1 hin with hin | hin
        · exact hu _ (List.mem_append_right _ hin)
        · rw [List.mem_singleton.1 hin]; exact hc
      rw [hhead] at this; cases this
    · have : p ((trim p l).getLast hne) = true := by
        have hin : (trim p l).getLast hne ∈ c :: v := by
          have : (trim p l).getLast hne = (c :: v).getLast (by simp) := by
            simp only [huv]; rw [List.getLast_append_of_ne_nil _ (by simp)]
          rw [this]; exact List.getLast_mem _
        rcases List.mem_cons.1 hin with hin | hin
        · rw [hin]; exact hc
        · exact hv _ (List.mem_append_left _ hin)
      rw [hlast] at this; cases this

end Trim
