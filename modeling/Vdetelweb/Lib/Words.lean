import Vdetelweb.Lib.Trim

/-!
# The words of a list

The elements satisfying `p` are blanks, and `words p l` are the longest runs of other
elements of `l`. Blanks divide the words (`words_append_blank`), how many there are does
not matter (`words_trim`). So a list that is put together from words with blanks between
them has these words and no other (`Spaced.words_eq`).
-/

namespace Words

variable {α : Type*} (p : α → Bool)

/-- The longest runs without a blank. -/
def words (l : List α) : List (List α) := (l.splitOnP p).filter fun w => !w.isEmpty

/-- Not empty, and without a blank. -/
def IsWord (w : List α) : Prop := w ≠ [] ∧ ∀ c ∈ w, p c = false

instance (w : List α) : Decidable (IsWord p w) :=
  @instDecidableAnd _ _ _ (List.decidableBAll _ _)

variable {p}

@[simp] theorem words_nil : words p [] = [] := rfl

/-- **A blank divides the words.** -/
theorem words_append_blank (a b : List α) {c : α} (hc : p c = true) :
    words p (a ++ c :: b) = words p a ++ words p b := by
  unfold words
  rw [List.splitOnP_append_cons a b hc, List.filter_append]

theorem words_word {w : List α} (hw : IsWord p w) : words p w = [w] := by
  unfold words
  rw [List.splitOnP_eq_singleton hw.2]
  simp [hw.1]

theorem words_blank {a : List α} (ha : ∀ c ∈ a, p c = true) (b : List α) :
    words p (a ++ b) = words p b := by
  induction a with
  | nil => rfl
  | cons c a ih =>
    have hc := ha c List.mem_cons_self
    have h := words_append_blank [] (a ++ b) hc
    rw [words_nil, List.nil_append, List.nil_append] at h
    rw [List.cons_append, h, ih fun x hx => ha x (List.mem_cons_of_mem _ hx)]

theorem words_append_of_blank (a : List α) {b : List α} (hb : ∀ c ∈ b, p c = true) :
    words p (a ++ b) = words p a := by
  cases b with
  | nil => rw [List.append_nil]
  | cons c b =>
    have hblank := words_blank (p := p) (a := b) (fun x hx => hb x (List.mem_cons_of_mem _ hx)) []
    rw [List.append_nil, words_nil] at hblank
    rw [words_append_blank a b (hb c List.mem_cons_self), hblank, List.append_nil]

/-- **The margins do not matter.** -/
theorem words_trim (l : List α) : words p (Trim.trim p l) = words p l := by
  obtain ⟨a, b, hl, ha, hb⟩ := Trim.trim_split (p := p) l
  conv_rhs => rw [hl]
  rw [words_append_of_blank _ hb, words_blank ha]

/-- Lists with a blank before each. -/
theorem words_flatMap {c : α} (hc : p c = true) (a : List α) (vs : List (List α)) :
    words p (a ++ vs.flatMap (c :: ·)) = words p a ++ vs.flatMap (words p) := by
  induction vs generalizing a with
  | nil => simp
  | cons v vs ih =>
    rw [List.flatMap_cons, List.flatMap_cons, List.cons_append, words_append_blank _ _ hc, ih]

theorem splitOnP_mem {l : List α} : ∀ w ∈ l.splitOnP p, ∀ c ∈ w, p c = false := by
  induction l with
  | nil => simp
  | cons a l ih =>
    rw [List.splitOnP_cons_eq_if_modifyHead]
    split
    · simpa using ih
    · rename_i ha
      obtain ⟨w, ws, hws⟩ := List.exists_cons_of_ne_nil (List.splitOnP_ne_nil p l)
      rw [hws, List.forall_mem_cons] at ih
      rw [hws, List.modifyHead_cons, List.forall_mem_cons, List.forall_mem_cons]
      exact ⟨⟨by simpa using ha, ih.1⟩, ih.2⟩

/-- **The words are words.** -/
theorem isWord_of_mem {l w : List α} (h : w ∈ words p l) : IsWord p w := by
  obtain ⟨hw, hne⟩ := List.mem_filter.1 h
  exact ⟨by simpa using hne, splitOnP_mem w hw⟩

theorem words_eq_nil_iff {l : List α} : words p l = [] ↔ ∀ c ∈ l, p c = true := by
  constructor
  · intro h
    induction l with
    | nil => simp
    | cons a l ih =>
      by_cases ha : p a = true
      · have hl := words_blank (p := p) (a := [a]) (by simpa using ha) l
        rw [List.singleton_append, h] at hl
        exact List.forall_mem_cons.2 ⟨ha, ih hl.symm⟩
      · -- the piece that `a` stands in is not empty
        obtain ⟨w, ws, hws⟩ := List.exists_cons_of_ne_nil (List.splitOnP_ne_nil p l)
        unfold words at h
        rw [List.splitOnP_cons_eq_if_modifyHead, if_neg ha, hws] at h
        simp at h
  · intro h
    have := words_blank h []
    rwa [List.append_nil, words_nil] at this

theorem flatMap_words {vs : List (List α)} (h : ∀ v ∈ vs, IsWord p v) : vs.flatMap (words p) = vs := by
  induction vs with
  | nil => rfl
  | cons v vs ih =>
    rw [List.flatMap_cons, words_word (h v List.mem_cons_self),
      ih fun w hw => h w (List.mem_cons_of_mem _ hw), List.singleton_append]

theorem flatMap_words_eq_nil_iff {vs : List (List α)} :
    vs.flatMap (words p) = [] ↔ ∀ v ∈ vs, ∀ c ∈ v, p c = true := by
  simp only [List.flatMap_eq_nil_iff, words_eq_nil_iff]

/-- **The words of some lists are the first lists themselves** exactly when those are words
and nothing but blanks is in the others. -/
theorem words_eq_take_iff {a : List α} {vs : List (List α)} (k : ℕ) :
    words p a ++ vs.flatMap (words p) = a :: vs.take k ↔
      IsWord p a ∧ (∀ v ∈ vs.take k, IsWord p v) ∧ ∀ v ∈ vs.drop k, ∀ c ∈ v, p c = true := by
  have hsplit : vs.flatMap (words p) = (vs.take k).flatMap (words p) ++ (vs.drop k).flatMap (words p) := by
    rw [← List.flatMap_append, List.take_append_drop]
  constructor
  · intro h
    have hwords : ∀ v ∈ a :: vs.take k, IsWord p v := by
      intro v hv
      rw [← h, List.mem_append, List.mem_flatMap] at hv
      rcases hv with hv | ⟨w, -, hv⟩
      · exact isWord_of_mem hv
      · exact isWord_of_mem hv
    obtain ⟨ha, htake⟩ := List.forall_mem_cons.1 hwords
    refine ⟨ha, htake, flatMap_words_eq_nil_iff.1 ?_⟩
    rw [words_word ha, hsplit, flatMap_words htake, List.singleton_append] at h
    exact List.append_right_eq_self.1 (List.cons.inj h).2
  · rintro ⟨ha, htake, hdrop⟩
    rw [words_word ha, hsplit, flatMap_words htake, flatMap_words_eq_nil_iff.2 hdrop,
      List.append_nil, List.singleton_append]

/-! ## Lists put together from words -/

variable (p) in
/-- The list is made of these, with blanks between any two. -/
inductive Spaced : List (List α) → List α → Prop
  | one (w : List α) : Spaced [w] w
  | cons {ws : List (List α)} {x b : List α} (w : List α) (hb : b ≠ []) (hp : ∀ c ∈ b, p c = true) :
      Spaced ws x → Spaced (w :: ws) (w ++ b ++ x)

variable {ws us : List (List α)} {x y b : List α}

/-- **They are its words.** -/
theorem Spaced.words_eq (h : Spaced p ws x) (hws : ∀ w ∈ ws, IsWord p w) : words p x = ws := by
  induction h with
  | one w => exact words_word (hws w List.mem_cons_self)
  | @cons ws x b w hb hp _ ih =>
    obtain ⟨c, b, rfl⟩ := List.exists_cons_of_ne_nil hb
    obtain ⟨hc, hp⟩ := List.forall_mem_cons.1 hp
    rw [List.append_assoc, List.cons_append, words_append_blank _ _ hc, words_blank hp,
      words_word (hws w List.mem_cons_self), ih fun v hv => hws v (List.mem_cons_of_mem _ hv),
      List.singleton_append]

theorem Spaced.append (h : Spaced p ws x) (h' : Spaced p us y) (hb : b ≠ [])
    (hp : ∀ c ∈ b, p c = true) : Spaced p (ws ++ us) (x ++ b ++ y) := by
  induction h with
  | one w => exact .cons w hb hp h'
  | @cons ws x b' w hb' hp' _ ih =>
    have := Spaced.cons w hb' hp' ih
    rw [List.cons_append]
    simpa only [List.append_assoc] using this

/-- More at the front of the first. -/
theorem Spaced.prepend (h : Spaced p ws x) (a : List α) :
    Spaced p (ws.modifyHead (a ++ ·)) (a ++ x) := by
  cases h with
  | one w => exact .one _
  | cons w hb hp h =>
    have := Spaced.cons (a ++ w) hb hp h
    rw [List.modifyHead_cons]
    simpa only [List.append_assoc] using this

/-- The list with its last element changed. -/
def onLast {β : Type*} (f : β → β) : List β → List β
  | [] => []
  | [w] => [f w]
  | w :: v :: ws => w :: onLast f (v :: ws)

@[simp] theorem onLast_concat {β : Type*} (f : β → β) (ws : List β) (w : β) :
    onLast f (ws ++ [w]) = ws ++ [f w] := by
  induction ws with
  | nil => rfl
  | cons v ws ih =>
    have hcons : ∀ us : List β, us ≠ [] → onLast f (v :: us) = v :: onLast f us := by
      intro us hus
      cases us with
      | nil => exact absurd rfl hus
      | cons u us => rfl
    rw [List.cons_append, hcons _ (by simp), ih, List.cons_append]

@[simp] theorem length_onLast {β : Type*} (f : β → β) (ws : List β) :
    (onLast f ws).length = ws.length := by
  rcases List.eq_nil_or_concat' ws with rfl | ⟨ws, w, rfl⟩
  · rfl
  · simp

theorem map_onLast {β γ : Type*} {f : β → β} (k : γ → γ) {g : β → γ} (h : ∀ w, g (f w) = k (g w))
    (ws : List β) : (onLast f ws).map g = onLast k (ws.map g) := by
  rcases List.eq_nil_or_concat' ws with rfl | ⟨ws, w, rfl⟩
  · rfl
  · simp [h]

/-- More at the end of the last. -/
theorem Spaced.extend (h : Spaced p ws x) (a : List α) : Spaced p (onLast (· ++ a) ws) (x ++ a) := by
  induction h with
  | one w => exact .one _
  | @cons ws x b w hb hp h ih =>
    have := Spaced.cons w hb hp ih
    rw [List.append_assoc]
    cases h <;> exact this

end Words
