import Vdetelweb.Proof.Post
import Vdetelweb.Spec.Cell

/-!
# Which arguments are taken for optional ones

`list_commands` splits a syntax cell at blanks, and `is_required_arg` looks at the first and
the last character of each piece. So what it says of a name in brackets is right exactly
when the name has a pair of brackets of its own (`recognised_iff`).
-/

namespace Vdetelweb

open Vde2Mgmt Words

variable {n : ℕ}

/-! ## The arguments of a cell -/

/-- What stands between two blanks: a name and the brackets that touch it. -/
structure Piece where
  opening : ℕ
  name : Name
  closing : ℕ

namespace Piece

def text (p : Piece) : Bytes :=
  List.replicate p.opening '[' ++ p.name.text ++ List.replicate p.closing ']'

/-- One more bracket before the piece, -/
def opened (p : Piece) : Piece := { p with opening := p.opening + 1 }

/-- or after it. -/
def closed (p : Piece) : Piece := { p with closing := p.closing + 1 }

/-- Are there brackets on both sides? -/
def optional (p : Piece) : Bool := 0 < p.opening && 0 < p.closing

theorem optional_iff {p : Piece} : p.optional = true ↔ 0 < p.opening ∧ 0 < p.closing := by
  simp [optional]

theorem text_opened (p : Piece) : p.opened.text = ['['] ++ p.text := by
  unfold text opened
  rw [List.replicate_succ]
  simp

theorem text_closed (p : Piece) : p.closed.text = p.text ++ [']'] := by
  unfold text closed
  rw [List.replicate_succ']
  simp

theorem head?_text (p : Piece) : p.text.head? = some '[' ↔ 0 < p.opening := by
  obtain ⟨i, n, j⟩ := p
  unfold text
  cases i with
  | zero =>
    rw [List.replicate_zero, List.nil_append, List.head?_append_of_ne_nil _ n.word.1]
    exact ⟨fun h => absurd (List.mem_of_head? h) n.bare.1, fun h => absurd h (lt_irrefl 0)⟩
  | succ i => simp [List.replicate_succ]

theorem getLast?_text (p : Piece) : p.text.getLast? = some ']' ↔ 0 < p.closing := by
  obtain ⟨i, n, j⟩ := p
  unfold text
  cases j with
  | zero =>
    rw [List.replicate_zero, List.append_nil, List.getLast?_append_of_ne_nil _ n.word.1]
    exact ⟨fun h => absurd (List.mem_of_getLast? h) n.bare.2, fun h => absurd h (lt_irrefl 0)⟩
  | succ j => simp [List.replicate_succ']

/-- **What `is_required_arg` says of a piece.** -/
theorem isRequiredArg_text (p : Piece) : isRequiredArg p.text = !p.optional := by
  have hlen : p.text.length = p.opening + p.name.text.length + p.closing := by
    simp [text, Nat.add_assoc]
  have hname : 0 < p.name.text.length := List.length_pos_iff.2 p.name.word.1
  unfold isRequiredArg optional
  simp only [head?_text, getLast?_text]
  by_cases h : 0 < p.opening ∧ 0 < p.closing
  · -- two brackets and a name are longer than two
    rw [if_pos ⟨by omega, h⟩]
    simp [h.1, h.2]
  · rw [if_neg fun hc => h hc.2]
    simpa [← Bool.decide_and] using fun h₁ => by_contra fun h₂ => h ⟨h₁, Nat.pos_of_ne_zero h₂⟩

end Piece

namespace Cell

/-- The pieces of a cell. -/
def pieces : Cell → List Piece
  | name n => [⟨0, n, 0⟩]
  | group s => onLast Piece.closed (s.pieces.modifyHead Piece.opened)
  | seq s _ t => s.pieces ++ t.pieces

/-- The arguments that a cell is split into. -/
def args (s : Cell) : List Bytes := s.pieces.map Piece.text

theorem text_spaced : ∀ s : Cell, Spaced (isSpace false) s.args s.text
  | name n => by
    have : (⟨0, n, 0⟩ : Piece).text = n.text := by simp [Piece.text]
    unfold args pieces
    rw [List.map_singleton, this]
    exact .one n.text
  | group s => by
    have hopen : (s.pieces.modifyHead Piece.opened).map Piece.text = s.args.modifyHead (['['] ++ ·) := by
      unfold args
      cases s.pieces with
      | nil => rfl
      | cons p ps => simp [Piece.text_opened]
    unfold args pieces
    rw [map_onLast (· ++ [']']) Piece.text_closed, hopen]
    exact (s.text_spaced.prepend ['[']).extend [']']
  | seq s gap t => by
    unfold args pieces
    rw [List.map_append]
    exact s.text_spaced.append t.text_spaced gap.ne gap.blank

theorem words_text (s : Cell) : Vdetelweb.words s.text = s.args := by
  rw [Vdetelweb.words_eq]
  refine s.text_spaced.words_eq fun w hw => ?_
  obtain ⟨⟨i, n, j⟩, -, rfl⟩ := List.mem_map.1 hw
  refine ⟨?_, fun c hc => ?_⟩
  · have := n.word.1
    simp [Piece.text, this]
  · simp only [Piece.text, List.mem_append, List.mem_replicate] at hc
    rcases hc with (⟨-, rfl⟩ | hc) | ⟨-, rfl⟩
    · rfl
    · exact n.word.2 c hc
    · rfl

/-- A cell begins and ends with a bracket or a name. -/
theorem text_ends : ∀ s : Cell, ∃ h : s.text ≠ [],
    isSpace false (s.text.head h) = false ∧ isSpace false (s.text.getLast h) = false
  | name n => ⟨n.word.1, n.word.2 _ (List.head_mem _), n.word.2 _ (List.getLast_mem _)⟩
  | group s => ⟨by simp [text], rfl, by
      simp only [text, List.getLast_append_singleton]
      rfl⟩
  | seq s gap t => by
    obtain ⟨hs, hhead, -⟩ := s.text_ends
    obtain ⟨ht, -, hlast⟩ := t.text_ends
    refine ⟨by simp [text, hs], ?_, ?_⟩
    · simpa [text, List.append_assoc, List.head_append_of_ne_nil hs] using hhead
    · simp only [text]
      rwa [List.getLast_append_of_ne_nil _ ht]

theorem strip_text (s : Cell) : strip s.text = s.text := by
  obtain ⟨h, hhead, hlast⟩ := s.text_ends
  exact Trim.trim_of_ends h hhead hlast

/-! ## Which of them are taken for optional -/

theorem length_inside : ∀ (s : Cell) (b : Bool), (s.inside b).length = s.pieces.length
  | name _, _ => rfl
  | group s, _ => by
    rw [inside, s.length_inside true, pieces, length_onLast, List.length_modifyHead]
  | seq s _ t, b => by
    rw [inside, pieces, List.length_append, List.length_append, s.length_inside b, t.length_inside b]

theorem inside_true : ∀ (s : Cell) (b : Bool), b ∈ s.inside true → b = true
  | name _, _, h => List.mem_singleton.1 h
  | group s, b, h => s.inside_true b h
  | seq s _ t, b, h => (List.mem_append.1 h).elim (s.inside_true b) (t.inside_true b)

/-- The brackets at the ends of a cell have their partners in the same piece. -/
theorem ends : ∀ s : Cell,
    (∃ p ps, s.pieces = p :: ps ∧ (0 < p.closing → 0 < p.opening)) ∧
      ∃ ps p, s.pieces = ps ++ [p] ∧ (0 < p.opening → 0 < p.closing)
  | name n => ⟨⟨_, [], rfl, id⟩, [], _, rfl, id⟩
  | group s => by
    obtain ⟨p, ps, hs, -⟩ := s.ends.1
    unfold pieces
    rw [hs, List.modifyHead_cons]
    rcases List.eq_nil_or_concat' ps with rfl | ⟨ps, q, rfl⟩
    · exact ⟨⟨_, [], rfl, fun _ => Nat.succ_pos _⟩, [], _, rfl, fun _ => Nat.succ_pos _⟩
    · rw [← List.cons_append, onLast_concat]
      exact ⟨⟨_, _, rfl, fun _ => Nat.succ_pos _⟩, _, _, rfl, fun _ => Nat.succ_pos _⟩
  | seq s _ t => by
    obtain ⟨p, ps, hs, hp⟩ := s.ends.1
    obtain ⟨qs, q, ht, hq⟩ := t.ends.2
    unfold pieces
    exact ⟨⟨p, ps ++ t.pieces, by rw [hs]; rfl, hp⟩, s.pieces ++ qs, q, by rw [ht]; simp, hq⟩

/-- Brackets around a cell of several pieces change only the first and the last. -/
theorem optional_group {s : Cell} (hs : 1 < s.pieces.length) :
    (∀ p ∈ (group s).pieces, p.optional = true) ↔ ∀ p ∈ s.pieces, p.optional = true := by
  obtain ⟨⟨p, ps, hp, hopen⟩, qs, q, hq, hclose⟩ := s.ends
  obtain ⟨mid, rfl⟩ : ∃ mid, ps = mid ++ [q] := by
    rcases List.eq_nil_or_concat' ps with rfl | ⟨mid, q', rfl⟩
    · rw [hp] at hs
      simp at hs
    · rw [hp, ← List.cons_append] at hq
      obtain ⟨-, h⟩ := List.append_inj' hq rfl
      exact ⟨mid, by rw [(List.cons.inj h).1]⟩
  have hg : (group s).pieces = p.opened :: (mid ++ [q.closed]) := by
    unfold pieces
    rw [hp, List.modifyHead_cons, ← List.cons_append, onLast_concat, List.cons_append]
  rw [hg, hp]
  rw [List.forall_mem_cons, List.forall_mem_cons, List.forall_mem_append, List.forall_mem_append,
    List.forall_mem_singleton, List.forall_mem_singleton]
  simp only [Piece.optional_iff, Piece.opened, Piece.closed]
  constructor
  · rintro ⟨⟨-, h₁⟩, hmid, h₂, -⟩
    exact ⟨⟨hopen h₁, h₁⟩, hmid, h₂, hclose h₂⟩
  · rintro ⟨⟨-, h₁⟩, hmid, h₂, -⟩
    exact ⟨⟨Nat.succ_pos _, h₁⟩, hmid, h₂, Nat.succ_pos _⟩

/-- A cell of one piece is a name in any number of brackets. -/
theorem alone_of_single : ∀ {s : Cell}, s.pieces.length ≤ 1 →
    s.Alone ∧ ((∃ n, s = name n) ∨ s.hasName = false ∧ ∀ p ∈ s.pieces, p.optional = true)
  | name n, _ => ⟨trivial, Or.inl ⟨n, rfl⟩⟩
  | group s, h => by
    rw [pieces, length_onLast, List.length_modifyHead] at h
    obtain ⟨ha, hs⟩ := alone_of_single h
    refine ⟨⟨hs.imp_right And.left, ha⟩, Or.inr ⟨rfl, ?_⟩⟩
    obtain ⟨p, ps, hp, -⟩ := s.ends.1
    obtain rfl : ps = [] := by
      rw [hp] at h
      simpa using h
    unfold pieces
    rw [hp]
    simp [onLast, Piece.optional, Piece.opened, Piece.closed]
  | seq s _ t, h => by
    obtain ⟨p, ps, hs, -⟩ := s.ends.1
    obtain ⟨q, qs, ht, -⟩ := t.ends.1
    rw [pieces, hs, ht] at h
    simp at h

/-- **All pieces are optional** if every name has brackets of its own, and so all names are
in brackets. -/
theorem optional_iff : ∀ s : Cell,
    (∀ p ∈ s.pieces, p.optional = true) ↔ s.Alone ∧ s.hasName = false
  | name n => by simp [pieces, Piece.optional, hasName]
  | group s => by
    by_cases hs : s.pieces.length ≤ 1
    · have hgroup : (group s).pieces.length ≤ 1 := by
        rwa [pieces, length_onLast, List.length_modifyHead]
      obtain ⟨ha, hn | h⟩ := alone_of_single hgroup
      · obtain ⟨n, hn⟩ := hn
        cases hn
      · exact ⟨fun _ => ⟨ha, h.1⟩, fun _ => h.2⟩
    · rw [optional_group (by omega), optional_iff s]
      refine ⟨fun ⟨ha, hn⟩ => ⟨⟨Or.inr hn, ha⟩, rfl⟩, fun ⟨⟨hor, ha⟩, _⟩ => ⟨ha, ?_⟩⟩
      rcases hor with ⟨n, rfl⟩ | hn
      · exact absurd (le_refl 1) hs
      · exact hn
  | seq s _ t => by
    rw [pieces, List.forall_mem_append, optional_iff s, optional_iff t, Alone, hasName, Bool.or_eq_false_iff]
    tauto

/-- **The pieces that are optional are those in brackets**, if and only if every name in
brackets has brackets of its own. -/
theorem map_optional_iff : ∀ s : Cell, s.pieces.map Piece.optional = s.inside false ↔ s.Alone
  | name n => by simp [pieces, Piece.optional, inside, Alone]
  | group s => by
    have hall : (group s).pieces.map Piece.optional = s.inside true ↔
        ∀ p ∈ (group s).pieces, p.optional = true := by
      have hlen : (s.inside true).length = (group s).pieces.length := length_inside (group s) false
      rw [List.eq_replicate_of_mem s.inside_true, hlen, List.map_eq_replicate_iff]
    rw [inside, hall, optional_iff]
    exact and_iff_left rfl
  | seq s _ t => by
    have hlen : (s.pieces.map Piece.optional).length = (s.inside false).length := by
      rw [List.length_map, s.length_inside]
    rw [pieces, inside, List.map_append, List.append_eq_append_iff_of_size_eq_left hlen,
      map_optional_iff s, map_optional_iff t, Alone]

end Cell

/-! ## Forms that leave them out -/

/-- **Nothing is found missing** of a form in which no required argument is empty. -/
theorem readArgs_answer {request : Request} : ∀ (args : List Bytes) (v w : Line) (m : Vde2Mgmt n),
    (∀ i ∈ args, isRequiredArg i = true → request.form i ≠ some []) →
    (readArgs request args v m).1 = .ret w → w.mgmt_response = v.mgmt_response := by
  intro args
  induction args with
  | nil => rintro v w m - h; cases h; rfl
  | cons i args ih =>
    intro v w m hreq h
    obtain ⟨hi, hargs⟩ := List.forall_mem_cons.1 hreq
    cases hval : request.form i with
    | none => rw [readArgs_missing hval] at h; cases h
    | some value =>
      by_cases hv : value = []
      · subst hv
        have hopt : isRequiredArg i = false := Bool.eq_false_iff.2 fun hr => hi hr hval
        rw [readArgs_optional hval hopt] at h
        exact ih v w m hargs h
      · rw [readArgs_value hval hv] at h
        split at h
        · have hw := ih _ w m hargs h
          exact hw
        · cases h

theorem postCommand_answer {h : Heap} {cmd_dict : Ref} {args : List Bytes}
    (hargs : h.get cmd_dict "args".toList = some (.list args)) {request : Request}
    (hreq : ∀ i ∈ args, isRequiredArg i = true → request.form i ≠ some []) (m : Vde2Mgmt n)
    (text : Bytes) : (postCommand h cmd_dict request m).1 ≠ .ret (.invalid text) := by
  intro hpost
  unfold postCommand at hpost
  obtain ⟨cmd, hcmd, hpost⟩ := Act.bind_eq_ret.1 hpost
  obtain ⟨as, has, hpost⟩ := Act.bind_eq_ret.1 hpost
  obtain ⟨w, hw, hpost⟩ := Act.bind_eq_ret.1 hpost
  obtain rfl : args = as := by
    unfold argsOf at has
    simp only [hargs, Act.bind_apply, Act.ofOption_apply, Val.iter] at has
    exact Effect.Out.ret.inj has
  have hempty := readArgs_answer args _ w _ hreq hw
  split at hpost
  · obtain ⟨r, -, hpost⟩ := Act.bind_eq_ret.1 hpost
    cases r <;> cases hpost
  · cases (hempty.symm.trans (Effect.Out.ret.inj hpost))

/-- **Recognised**: of the arguments that `list_commands` makes of a row with this cell,
`is_required_arg` turns down those in brackets; and a POST that leaves out only such
arguments is not answered with an argument that is required. -/
def Recognised (s : Cell) : Prop :=
  ∀ (n : ℕ) (column_index : List ℕ) (count_row : ℕ) (line : Bytes) (m m' : Vde2Mgmt n) (r : Record),
    row column_index count_row line m = (.ret r, m') → r.text_args = s.text →
    (r.args.map fun i => !isRequiredArg i) = s.inside false ∧
    ∀ (h : Heap) (cmd_dict : Ref) (request : Request), h.get cmd_dict "args".toList = some (.list r.args) →
      (∀ i, (i, false) ∈ r.args.zip (s.inside false) → ∃ value, request.form i = some value ∧ value ≠ []) →
      ∀ text, (postCommand h cmd_dict request m).1 ≠ .ret (.invalid text)

/-- The arguments of a row are the words of its cell. -/
theorem row_args {column_index : List ℕ} {count_row : ℕ} {line : Bytes} {m m' : Vde2Mgmt n} {r : Record}
    (h : row column_index count_row line m = (.ret r, m')) : r.args = words r.text_args := by
  unfold row at h
  split at h
  · cases h; rfl
  · cases h
  · cases h

theorem Recognised.args {s : Cell} (h : Recognised s) :
    (s.args.map fun i => !isRequiredArg i) = s.inside false := by
  -- a row that has nothing but the cell
  have hcell : strip (slice s.text 0 s.text.length) = s.text := by
    unfold slice
    rw [List.take_length, List.drop_zero, s.strip_text]
  have hrow := (h 0 [0, 0, s.text.length] 0 s.text ⟨⟨[], true⟩, ⟨[], ⟨[], none⟩⟩, [], [], [], [], []⟩
    _ _ rfl hcell).1
  dsimp only at hrow
  rwa [hcell, s.words_text] at hrow

/-- **The arguments in brackets are recognised if and only if every name in brackets has
brackets of its own.** -/
theorem recognised_iff (s : Cell) : Recognised s ↔ s.Alone := by
  have hclass : (s.args.map fun i => !isRequiredArg i) = s.pieces.map Piece.optional := by
    unfold Cell.args
    rw [List.map_map]
    refine List.map_congr_left fun p _ => ?_
    simp [Piece.isRequiredArg_text]
  rw [← s.map_optional_iff, ← hclass]
  refine ⟨Recognised.args, fun hs n column_index count_row line m m' r hrow htext => ?_⟩
  have hargs : r.args = s.args := by rw [row_args hrow, htext, s.words_text]
  rw [hargs]
  refine ⟨hs, fun h cmd_dict request hget hform text => postCommand_answer hget (fun i hi hreq => ?_) m text⟩
  -- a required argument lies outside of the brackets
  have hzip : (i, false) ∈ s.args.zip (s.inside false) := by
    rw [← hs, ← List.map_prod_left_eq_zip, List.mem_map]
    exact ⟨i, hi, by rw [hreq]; rfl⟩
  obtain ⟨value, hval, hne⟩ := hform i hzip
  rw [hval]
  exact fun h => hne (Option.some.inj h)

/-- `[a b]`: each of the two names has a bracket on one side only. -/
theorem recognised_pair : ¬ ∀ s : Cell, Recognised s := by
  intro h
  have h := (h (.group (.seq (.name ⟨['a'], by decide, by decide⟩) ⟨[' '], by decide, by simp [isSpace]⟩
    (.name ⟨['b'], by decide, by decide⟩)))).args
  revert h
  decide

end Vdetelweb
