import Mathlib

/-!
# Lines of a text, and handlers that read them

A text is a list over any alphabet with a separator `nl`. `lines nl b` are its
complete lines (what follows the last separator is not a line yet), `cut nl b`
takes the first one off, and `unlines nl ls` writes lines back.

A line handler `f : σ → List α → Except ρ σ` goes on in a new state (`ok`) or
leaves with a result (`error`); `List.foldlM f s ls` runs it over a list of lines.
`foldlM_inv` is the invariant rule for such runs and `foldlM_error` says where a
run that leaves was when it left.
-/

namespace Lines

variable {α : Type*} (nl : α)

/-- Each line followed by the separator. -/
def unlines (ls : List (List α)) : List α := ls.flatMap (· ++ [nl])

variable {nl}

@[simp] theorem unlines_nil : unlines nl [] = [] := rfl

@[simp] theorem unlines_cons (l : List α) (ls : List (List α)) :
    unlines nl (l :: ls) = l ++ nl :: unlines nl ls := by
  simp [unlines]

@[simp] theorem unlines_append (ls ks : List (List α)) :
    unlines nl (ls ++ ks) = unlines nl ls ++ unlines nl ks := by
  simp [unlines]

/-- An element of a list with one more at its end: it is that one, or one before. -/
theorem concat_eq_append_cons {l x : α} {ls pre post : List α} (h : ls ++ [l] = pre ++ x :: post) :
    pre = ls ∧ x = l ∧ post = [] ∨ ∃ post', post = post' ++ [l] ∧ ls = pre ++ x :: post' := by
  rcases List.eq_nil_or_concat' post with rfl | ⟨post', y, rfl⟩
  · obtain ⟨rfl, hx⟩ := List.append_inj' h rfl
    exact Or.inl ⟨rfl, (List.cons.inj hx).1.symm, rfl⟩
  · rw [← List.cons_append, ← List.append_assoc] at h
    obtain ⟨rfl, hy⟩ := List.append_inj' h rfl
    exact Or.inr ⟨post', by rw [(List.cons.inj hy).1], rfl⟩

/-- A property of all the ways of cutting a list before an element. -/
theorem forall_cut_cons {P : List α → α → Prop} {a : α} {as : List α} :
    (∀ pre x post, a :: as = pre ++ x :: post → P pre x) ↔
      P [] a ∧ ∀ pre x post, as = pre ++ x :: post → P (a :: pre) x := by
  constructor
  · intro h
    exact ⟨h [] a as rfl, fun pre x post hx => h (a :: pre) x post (by rw [hx, List.cons_append])⟩
  · rintro ⟨ha, h⟩ pre x post heq
    cases pre with
    | nil =>
      obtain ⟨rfl, -⟩ := List.cons.inj heq
      exact ha
    | cons y pre =>
      obtain ⟨rfl, hx⟩ := List.cons.inj heq
      exact h pre x post hx

/-- A property of all elements, by running through them. -/
theorem forall_mem_of_all {p : α → Prop} [DecidablePred p] {l : List α}
    (h : (l.all fun a => p a) = true) : ∀ a ∈ l, p a := by
  simpa using h

theorem unlines_eq_nil {ls : List (List α)} : unlines nl ls = [] ↔ ls = [] := by
  cases ls <;> simp

/-- A text with a separator is its first line, the separator and the rest. -/
theorem exists_line {b : List α} (h : nl ∈ b) : ∃ l t, nl ∉ l ∧ b = l ++ nl :: t := by
  obtain ⟨l, t, rfl, hl⟩ := List.eq_append_cons_of_mem h
  exact ⟨l, t, hl, rfl⟩

variable [DecidableEq α] (nl)

/-- The part before the first separator, and the part after it. -/
def cut (b : List α) : List α × List α :=
  (b.takeWhile (· ≠ nl), (b.dropWhile (· ≠ nl)).tail)

/-- The complete lines of a text. -/
def lines : List α → List (List α)
  | [] => []
  | a :: b =>
    if a = nl then [] :: lines b
    else match lines b with
      | [] => []
      | l :: ls => (a :: l) :: ls

variable {nl}

/-- Cutting a line followed by the separator gives the line. -/
@[simp] theorem cut_line {l : List α} (hl : nl ∉ l) (t : List α) :
    cut nl (l ++ nl :: t) = (l, t) := by
  have hp : ∀ a ∈ l, decide (a ≠ nl) = true := by
    intro a ha; simp only [decide_eq_true_eq]; rintro rfl; exact hl ha
  unfold cut
  rw [List.takeWhile_append_of_pos hp, List.dropWhile_append_of_pos hp]
  simp

/-- The first line of some lines. -/
theorem line_eq_unlines {k x t : List α} {ls : List (List α)} (hk : nl ∉ k) (hx : nl ∉ x)
    (h : k ++ nl :: t = unlines nl (x :: ls)) : k = x ∧ t = unlines nl ls := by
  have hcut := congrArg (cut nl) h
  rw [unlines_cons, cut_line hk, cut_line hx] at hcut
  exact Prod.mk.inj hcut

theorem cut_length {b : List α} (h : nl ∈ b) : (cut nl b).2.length < b.length := by
  obtain ⟨l, t, hl, rfl⟩ := exists_line h
  rw [cut_line hl]; simp; omega

@[simp] theorem lines_nil : lines nl [] = [] := rfl

@[simp] theorem lines_line {l : List α} (hl : nl ∉ l) (t : List α) :
    lines nl (l ++ nl :: t) = l :: lines nl t := by
  induction l with
  | nil => simp [lines]
  | cons a l ih =>
    simp only [List.mem_cons, not_or] at hl
    rw [List.cons_append, lines, if_neg (Ne.symm hl.1), ih hl.2]

theorem lines_of_not_mem {b : List α} (h : nl ∉ b) : lines nl b = [] := by
  induction b with
  | nil => rfl
  | cons a b ih =>
    simp only [List.mem_cons, not_or] at h
    rw [lines, if_neg (Ne.symm h.1), ih h.2]

/-- Reading back what was written. -/
theorem lines_unlines_append {ls : List (List α)} (h : ∀ l ∈ ls, nl ∉ l) (t : List α) :
    lines nl (unlines nl ls ++ t) = ls ++ lines nl t := by
  induction ls with
  | nil => rfl
  | cons l ls ih =>
    rw [unlines_cons, List.append_assoc, List.cons_append, lines_line (h l List.mem_cons_self),
      ih fun x hx => h x (List.mem_cons_of_mem _ hx), List.cons_append]

theorem lines_unlines {ls : List (List α)} (h : ∀ l ∈ ls, nl ∉ l) :
    lines nl (unlines nl ls) = ls := by
  simpa using lines_unlines_append h []

theorem lines_bare (b : List α) : ∀ l ∈ lines nl b, nl ∉ l := by
  induction b with
  | nil => simp
  | cons a b ih =>
    rw [lines]
    split
    · simpa using ih
    · rename_i ha
      cases hb : lines nl b with
      | nil => simp
      | cons l ls =>
        rw [hb, List.forall_mem_cons] at ih
        rw [List.forall_mem_cons, List.mem_cons, not_or]
        exact ⟨⟨Ne.symm ha, ih.1⟩, ih.2⟩

/-- **A text is its complete lines**, and a rest without a separator. -/
theorem exists_rest (b : List α) : ∃ t, nl ∉ t ∧ b = unlines nl (lines nl b) ++ t := by
  induction b with
  | nil => exact ⟨[], by simp, rfl⟩
  | cons a b ih =>
    obtain ⟨t, ht, hb⟩ := ih
    rw [lines]
    split
    · rename_i ha
      exact ⟨t, ht, by rw [unlines_cons, List.nil_append, List.cons_append, ← hb, ha]⟩
    · rename_i ha
      cases hls : lines nl b with
      | nil =>
        rw [hls, unlines_nil, List.nil_append] at hb
        exact ⟨a :: t, by simp [Ne.symm ha, ht], by rw [hb]; rfl⟩
      | cons l ls =>
        rw [hls] at hb
        refine ⟨t, ht, ?_⟩
        rw [unlines_cons] at hb ⊢
        rw [List.cons_append, List.cons_append, ← hb]

/-- Splitting at the separators gives the lines, and what follows the last. -/
theorem splitOn_unlines {ls : List (List α)} (h : ∀ l ∈ ls, nl ∉ l) :
    (unlines nl ls).splitOn nl = ls ++ [[]] := by
  induction ls with
  | nil => rfl
  | cons l ls ih =>
    rw [unlines_cons, List.splitOn_append_cons_self_of_not_mem (h l List.mem_cons_self),
      ih fun x hx => h x (List.mem_cons_of_mem _ hx), List.cons_append]

theorem splitOn_bare (b : List α) : ∀ l ∈ b.splitOn nl, nl ∉ l := by
  induction b with
  | nil => simp
  | cons a b ih =>
    rw [List.splitOn_cons_eq_if_modifyHead]
    split
    · simpa using ih
    · rename_i ha
      cases hb : b.splitOn nl with
      | nil => exact absurd hb (List.splitOn_ne_nil nl b)
      | cons l ls =>
        rw [hb, List.forall_mem_cons] at ih
        rw [List.modifyHead_cons, List.forall_mem_cons, List.mem_cons, not_or]
        exact ⟨⟨by simpa using Ne.symm (by simpa using ha), ih.1⟩, ih.2⟩

/-- Separator-free lines are determined by the text they make. -/
theorem unlines_inj {ls ks : List (List α)} (hl : ∀ l ∈ ls, nl ∉ l) (hk : ∀ l ∈ ks, nl ∉ l)
    (h : unlines nl ls = unlines nl ks) : ls = ks := by
  rw [← lines_unlines hl, h, lines_unlines hk]

end Lines

/-! ## Handlers -/

namespace Lines

variable {α σ ρ : Type*}

theorem foldlM_cons_ok {f : σ → List α → Except ρ σ} {s s₁ : σ} {l : List α}
    (h : f s l = .ok s₁) (ls : List (List α)) : (l :: ls).foldlM f s = ls.foldlM f s₁ := by
  rw [List.foldlM_cons, h]; rfl

theorem foldlM_concat {f : σ → List α → Except ρ σ} {s s₁ : σ} {ls : List (List α)}
    (h : ls.foldlM f s = .ok s₁) (l : List α) : (ls ++ [l]).foldlM f s = f s₁ l := by
  rw [List.foldlM_append, h]
  show [l].foldlM f s₁ = f s₁ l
  rw [List.foldlM_cons]
  cases f s₁ l <;> rfl

/-- A run that goes on up to a line leaves there if the handler does. -/
theorem foldlM_leaves {f : σ → List α → Except ρ σ} {s s' : σ} {pre : List (List α)}
    (hpre : pre.foldlM f s = .ok s') {l : List α} {r : ρ} (hl : f s' l = .error r)
    (post : List (List α)) : (pre ++ l :: post).foldlM f s = .error r := by
  rw [List.foldlM_append, hpre]
  show (l :: post).foldlM f s' = .error r
  rw [List.foldlM_cons, hl]
  rfl

/-- **Invariant rule.** A property of the lines read so far and the state, that every step
that goes on preserves, holds of all lines where the run ends. -/
theorem foldlM_inv {f : σ → List α → Except ρ σ} {P : List (List α) → σ → Prop}
    (hf : ∀ pre s l s', P pre s → f s l = .ok s' → P (pre ++ [l]) s') :
    ∀ (ls pre : List (List α)) (s s' : σ), P pre s → ls.foldlM f s = .ok s' → P (pre ++ ls) s' := by
  intro ls
  induction ls with
  | nil => intro pre s s' hs h; cases h; rwa [List.append_nil]
  | cons l ls ih =>
    intro pre s s' hs h
    cases hl : f s l with
    | error r => rw [List.foldlM_cons, hl] at h; cases h
    | ok s₁ =>
      rw [foldlM_cons_ok hl] at h
      have := ih (pre ++ [l]) s₁ s' (hf pre s l s₁ hs hl) h
      rwa [List.append_assoc, List.singleton_append] at this

/-- A run that goes on went on at each line. -/
theorem foldlM_mem {f : σ → List α → Except ρ σ} {ls : List (List α)} {s s' : σ}
    (h : ls.foldlM f s = .ok s') : ∀ l ∈ ls, ∃ v v', f v l = .ok v' := by
  refine foldlM_inv (P := fun pre _ => ∀ l ∈ pre, ∃ v v', f v l = .ok v') ?_ ls [] s s' (by simp) h
  intro pre v l v' hpre hl k hk
  rcases List.mem_append.1 hk with hk | hk
  · exact hpre k hk
  · rw [List.mem_singleton.1 hk]; exact ⟨v, v', hl⟩

/-- A run that leaves does so at one line, having gone on over all earlier ones. -/
theorem foldlM_error {f : σ → List α → Except ρ σ} {r : ρ} :
    ∀ (ls : List (List α)) (s : σ), ls.foldlM f s = .error r →
      ∃ pre l post s', ls = pre ++ l :: post ∧ pre.foldlM f s = .ok s' ∧ f s' l = .error r := by
  intro ls
  induction ls with
  | nil => intro s h; cases h
  | cons l ls ih =>
    intro s h
    cases hl : f s l with
    | error r' =>
      -- the first line ends the run
      rw [List.foldlM_cons, hl] at h; cases h
      exact ⟨[], l, ls, s, rfl, rfl, hl⟩
    | ok s₁ =>
      rw [foldlM_cons_ok hl] at h
      obtain ⟨pre, k, post, s', rfl, hpre, hk⟩ := ih s₁ h
      exact ⟨l :: pre, k, post, s', rfl, by rw [foldlM_cons_ok hl, hpre], hk⟩

end Lines
