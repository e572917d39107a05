import Mathlib

/-!
# Linked lists in memory

A memory is a finite map from addresses to cells, and a cell is a value with a link to the
next one. `Chain m R p es q` says that the links from `p` lead through cells at the addresses
of `es` to `q`, and that each value represents (`R`) the entry that stands for it.

A chain to the end visits no cell twice (`Chain.nodup`), so it is no longer than the memory
(`Chain.length_le`): a loop along its links comes to the end in as many turns as there are
cells.

* `Reaches`: the live cells that the links lead to, in a chain or not.
* `search`, `preceding`: the loops that look for a cell, and for the cell before one.
* `Chain.snoc`, `Chain.link`, `Chain.uncons`, `Chain.unlink`: a cell is put at the end, or taken out.
-/

namespace Linked

/-- A value, and the pointer to the next cell. -/
structure Cell (κ ν : Type) where
  value : ν
  next : Option κ
  deriving DecidableEq, Repr

/-- The cells that are live, by their addresses. -/
abbrev Memory (κ ν : Type) := Finmap fun _ : κ => Cell κ ν

variable {κ ν α : Type} [DecidableEq κ] {m m' : Memory κ ν} {R : ν → α → Prop}

/-- A new cell is none of the live ones. -/
theorem ne_of_fresh {k l : κ} {c : Cell κ ν} (hfresh : k ∉ m) (hc : m.lookup l = some c) : k ≠ l := by
  rintro rfl
  exact hfresh (Finmap.mem_of_lookup_eq_some hc)

/-! ## Chains -/

/-- The links from `p` lead through the cells of `es` to `q`. -/
def Chain (m : Memory κ ν) (R : ν → α → Prop) : Option κ → List (κ × α) → Option κ → Prop
  | p, [], q => p = q
  | p, e :: es, q => p = some e.1 ∧ ∃ c, m.lookup e.1 = some c ∧ R c.value e.2 ∧ Chain m R c.next es q

theorem chain_append {p r : Option κ} {es fs : List (κ × α)} :
    Chain m R p (es ++ fs) r ↔ ∃ q, Chain m R p es q ∧ Chain m R q fs r := by
  induction es generalizing p with
  | nil =>
    constructor
    · intro h
      exact ⟨p, rfl, h⟩
    · rintro ⟨q, rfl, h⟩
      exact h
  | cons e es ih =>
    constructor
    · rintro ⟨rfl, c, hc, hR, hrest⟩
      obtain ⟨q, hes, hfs⟩ := ih.1 hrest
      exact ⟨q, ⟨rfl, c, hc, hR, hes⟩, hfs⟩
    · rintro ⟨q, ⟨rfl, c, hc, hR, hes⟩, hfs⟩
      exact ⟨rfl, c, hc, hR, ih.2 ⟨q, hes, hfs⟩⟩

/-- A chain to the end starts at its first cell. -/
theorem Chain.head_eq {p : Option κ} {es : List (κ × α)} (h : Chain m R p es none) :
    p = es.head?.map Prod.fst := by
  cases es with
  | nil => exact h
  | cons e es => exact h.1

/-- **Frame.** Only the cells of the chain matter. -/
theorem Chain.congr {p q : Option κ} {es : List (κ × α)} (h : Chain m R p es q)
    (hm : ∀ e ∈ es, m'.lookup e.1 = m.lookup e.1) : Chain m' R p es q := by
  induction es generalizing p with
  | nil => exact h
  | cons e es ih =>
    obtain ⟨rfl, c, hc, hR, hrest⟩ := h
    rw [List.forall_mem_cons] at hm
    exact ⟨rfl, c, hm.1.trans hc, hR, ih hrest hm.2⟩

theorem Chain.insert {p q : Option κ} {es : List (κ × α)} (h : Chain m R p es q) {k : κ} {c : Cell κ ν}
    (hk : k ∉ es.map Prod.fst) : Chain (m.insert k c) R p es q :=
  h.congr fun _ he => m.lookup_insert_of_ne fun heq => hk (heq ▸ List.mem_map_of_mem he)

theorem Chain.erase {p q : Option κ} {es : List (κ × α)} (h : Chain m R p es q) {k : κ}
    (hk : k ∉ es.map Prod.fst) : Chain (m.erase k) R p es q :=
  h.congr fun _ he => Finmap.lookup_erase_ne fun heq => hk (heq ▸ List.mem_map_of_mem he)

/-- The cells of a chain are live, and represent its entries. -/
theorem Chain.cell {p q : Option κ} {es : List (κ × α)} (h : Chain m R p es q) {e : κ × α} (he : e ∈ es) :
    ∃ c, m.lookup e.1 = some c ∧ R c.value e.2 := by
  induction es generalizing p with
  | nil => cases he
  | cons f es ih =>
    obtain ⟨-, c, hc, hR, hrest⟩ := h
    rcases List.mem_cons.1 he with rfl | he
    · exact ⟨c, hc, hR⟩
    · exact ih hrest he

theorem Chain.mem {p q : Option κ} {es : List (κ × α)} (h : Chain m R p es q) {k : κ}
    (hk : k ∈ es.map Prod.fst) : k ∈ m := by
  obtain ⟨e, he, rfl⟩ := List.mem_map.1 hk
  obtain ⟨c, hc, -⟩ := h.cell he
  exact Finmap.mem_of_lookup_eq_some hc

/-- **Where a chain to the end starts** determines its cells. -/
theorem Chain.unique {p : Option κ} {es fs : List (κ × α)} (he : Chain m R p es none)
    (hf : Chain m R p fs none) : es.map Prod.fst = fs.map Prod.fst := by
  induction es generalizing p fs with
  | nil =>
    obtain rfl : p = none := he
    cases fs with
    | nil => rfl
    | cons f fs => cases hf.1
  | cons e es ih =>
    obtain ⟨rfl, c, hc, -, hrest⟩ := he
    cases fs with
    | nil => cases hf
    | cons f fs =>
      obtain ⟨heq, d, hd, -, hrest'⟩ := hf
      have hk : e.1 = f.1 := Option.some.inj heq
      obtain rfl : c = d := by
        rw [← hk, hc] at hd
        exact Option.some.inj hd
      rw [List.map_cons, List.map_cons, hk, ih hrest hrest']

/-- It determines the entries too, if a value represents one at most. -/
theorem Chain.eq_of_unique {p : Option κ} {es fs : List (κ × α)} (hR : ∀ v a b, R v a → R v b → a = b)
    (he : Chain m R p es none) (hf : Chain m R p fs none) : es = fs := by
  induction es generalizing p fs with
  | nil =>
    have hkeys := he.unique hf
    simpa using hkeys.symm
  | cons e es ih =>
    obtain ⟨rfl, c, hc, hRe, hrest⟩ := he
    cases fs with
    | nil => cases hf
    | cons f fs =>
      obtain ⟨heq, d, hd, hRf, hrest'⟩ := hf
      have hk : e.1 = f.1 := Option.some.inj heq
      obtain rfl : c = d := by
        rw [← hk, hc] at hd
        exact Option.some.inj hd
      rw [ih hrest hrest', Prod.ext hk (hR _ _ _ hRe hRf)]

/-- **No cell is visited twice**, since the links from it would not come to the end. -/
theorem Chain.nodup {p : Option κ} {es : List (κ × α)} (h : Chain m R p es none) :
    (es.map Prod.fst).Nodup := by
  induction es generalizing p with
  | nil => exact List.nodup_nil
  | cons e es ih =>
    rw [List.map_cons, List.nodup_cons]
    refine ⟨fun hk => ?_, ih h.2.choose_spec.2.2⟩
    obtain ⟨f, hf, hfe⟩ := List.mem_map.1 hk
    obtain ⟨xs, ys, rfl⟩ := List.append_of_mem hf
    obtain ⟨q, -, hq⟩ := chain_append.1 (show Chain m R p ((e :: xs) ++ f :: ys) none from h)
    have hp : p = q := by rw [h.1, hq.1, hfe]
    have hlen := congrArg List.length (h.unique (hp ▸ hq))
    simp only [List.length_map, List.length_cons, List.length_append] at hlen
    omega

/-- **A chain to the end is no longer than the memory.** -/
theorem Chain.length_le {p : Option κ} {es : List (κ × α)} (h : Chain m R p es none) :
    es.length ≤ m.keys.card := by
  calc es.length = (es.map Prod.fst).toFinset.card := by
        rw [List.toFinset_card_of_nodup h.nodup, List.length_map]
    _ ≤ m.keys.card := Finset.card_le_card fun k hk => Finmap.mem_keys.2 (h.mem (List.mem_toFinset.1 hk))

/-- The links from `p` lead to the live cell at `k`. -/
def Reaches (m : Memory κ ν) (p : Option κ) (k : κ) : Prop :=
  k ∈ m ∧ ∃ es : List (κ × ν), Chain m Eq p es (some k)

/-- The next cell is reached too. -/
theorem Reaches.next {p : Option κ} {k j : κ} (h : Reaches m p k) {c : Cell κ ν} (hc : m.lookup k = some c)
    (hnext : c.next = some j) (hj : j ∈ m) : Reaches m p j := by
  obtain ⟨-, es, hes⟩ := h
  exact ⟨hj, es ++ [(k, c.value)], chain_append.2 ⟨_, hes, rfl, c, hc, rfl, hnext⟩⟩

/-! ## Loops -/

/-- `current` goes along the links until `test` holds of a value. `none` if a pointer is not
live, if the test fails, or if the turns run out. -/
def searchFrom (m : Memory κ ν) (test : ν → Option Bool) : ℕ → Option κ → Option (Option κ)
  | _, none => some none
  | 0, some _ => none
  | turns + 1, some k => do
    let c : Cell κ ν ← m.lookup k
    if ← test c.value then return some k
    searchFrom m test turns c.next

/-- The search, for as many turns as there are cells. -/
def search (m : Memory κ ν) (test : ν → Option Bool) (head : Option κ) : Option (Option κ) :=
  searchFrom m test m.keys.card head

/-- `current` goes along the links until `test` holds of the value after it. -/
def precedingFrom (m : Memory κ ν) (test : ν → Option Bool) : ℕ → κ → Option (Option κ)
  | 0, _ => none
  | turns + 1, k => do
    let c : Cell κ ν ← m.lookup k
    match c.next with
    | none => return none
    | some next =>
      let d : Cell κ ν ← m.lookup next
      if ← test d.value then return some k
      precedingFrom m test turns next

/-- The cell before the first that passes, which is not the one at `k`. -/
def preceding (m : Memory κ ν) (test : ν → Option Bool) (k : κ) : Option (Option κ) :=
  precedingFrom m test m.keys.card k

variable {test : ν → Option Bool} {p : α → Bool}

theorem searchFrom_eq {es : List (κ × α)} (htest : ∀ e ∈ es, ∀ v, R v e.2 → test v = some (p e.2))
    {head : Option κ} {turns : ℕ} (h : Chain m R head es none) (hturns : es.length ≤ turns) :
    searchFrom m test turns head = some ((es.find? fun e => p e.2).map Prod.fst) := by
  induction es generalizing head turns with
  | nil =>
    obtain rfl : head = none := h
    cases turns <;> rfl
  | cons e es ih =>
    obtain ⟨rfl, c, hc, hR, hrest⟩ := h
    obtain _ | turns := turns
    · cases hturns
    have hlen : es.length ≤ turns := Nat.le_of_succ_le_succ hturns
    rw [List.forall_mem_cons] at htest
    rw [searchFrom, hc, List.find?_cons]
    cases hp : p e.2 with
    | true => simp [htest.1 _ hR, hp]
    | false => simp [htest.1 _ hR, hp, ih htest.2 hrest hlen]

/-- **A search finds the first entry** that passes the test. -/
theorem Chain.search_eq {es : List (κ × α)} {head : Option κ} (h : Chain m R head es none)
    (htest : ∀ e ∈ es, ∀ v, R v e.2 → test v = some (p e.2)) :
    search m test head = some ((es.find? fun e => p e.2).map Prod.fst) :=
  searchFrom_eq htest h h.length_le

theorem precedingFrom_eq {es fs : List (κ × α)} {e f : κ × α}
    (htest : ∀ x ∈ es ++ e :: f :: fs, ∀ v, R v x.2 → test v = some (p x.2)) {head : κ} {turns : ℕ}
    (h : Chain m R (some head) (es ++ e :: f :: fs) none) (hturns : es.length < turns)
    (hes : ∀ x ∈ (es ++ [e]).tail, p x.2 = false) (hf : p f.2 = true) :
    precedingFrom m test turns head = some (some e.1) := by
  induction es generalizing head turns with
  | nil =>
    obtain ⟨hhead, c, hc, -, hnext, d, hd, hR, -⟩ := h
    obtain rfl : head = e.1 := Option.some.inj hhead
    obtain _ | turns := turns
    · cases hturns
    simp [precedingFrom, hc, hnext, hd, htest f (by simp) _ hR, hf]
  | cons x es ih =>
    obtain ⟨hhead, c, hc, -, hrest⟩ := h
    obtain rfl : head = x.1 := Option.some.inj hhead
    obtain _ | turns := turns
    · cases hturns
    -- the next cell is there, and does not pass
    obtain ⟨y, ys, hys, hmem⟩ : ∃ y ys, es ++ e :: f :: fs = y :: ys ∧ y ∈ es ++ [e] := by
      cases es <;> exact ⟨_, _, rfl, by simp⟩
    obtain ⟨hnext, d, hd, hR, -⟩ := show Chain m R c.next (y :: ys) none from hys ▸ hrest
    have hy : p y.2 = false := hes y hmem
    rw [List.cons_append, List.forall_mem_cons] at htest
    have hrec := ih htest.2 (hnext ▸ hrest) (Nat.lt_of_succ_lt_succ hturns)
      fun x hx => hes x (List.mem_of_mem_tail hx)
    simp [precedingFrom, hc, hnext, hd, htest.2 y (by simp [hys]) _ hR, hy, hrec]

/-- **The cell before the first entry that passes**, if that is not the first of the chain. -/
theorem Chain.preceding_eq {es fs : List (κ × α)} {e f : κ × α} {head : κ}
    (h : Chain m R (some head) (es ++ e :: f :: fs) none)
    (htest : ∀ x ∈ es ++ e :: f :: fs, ∀ v, R v x.2 → test v = some (p x.2))
    (hes : ∀ x ∈ es ++ [e], p x.2 = false) (hf : p f.2 = true) : preceding m test head = some (some e.1) := by
  refine precedingFrom_eq htest h ?_ (fun x hx => hes x (List.mem_of_mem_tail hx)) hf
  have := h.length_le
  simp only [List.length_append, List.length_cons] at this
  omega

theorem precedingFrom_absent {e : κ × α} {es : List (κ × α)}
    (htest : ∀ x ∈ e :: es, ∀ v, R v x.2 → test v = some (p x.2)) {turns : ℕ}
    (h : Chain m R (some e.1) (e :: es) none) (hturns : es.length < turns)
    (habsent : ∀ x ∈ es, p x.2 = false) : precedingFrom m test turns e.1 = some none := by
  induction es generalizing e turns with
  | nil =>
    obtain ⟨-, c, hc, -, hnext⟩ := h
    obtain _ | turns := turns
    · cases hturns
    have hend : c.next = none := hnext
    simp [precedingFrom, hc, hend]
  | cons x es ih =>
    obtain ⟨-, c, hc, -, hrest⟩ := h
    obtain _ | turns := turns
    · cases hturns
    rw [List.forall_mem_cons] at htest habsent
    obtain ⟨hnext, d, hd, hR, -⟩ := show Chain m R c.next (x :: es) none from hrest
    have hx : test d.value = some false := by
      rw [← habsent.1]
      exact htest.2 x (List.mem_cons_self ..) _ hR
    have hrec := ih htest.2 (hnext ▸ hrest) (Nat.lt_of_succ_lt_succ hturns) habsent.2
    simp [precedingFrom, hc, hnext, hd, hx, hrec]

/-- **No cell comes before one that passes**, if none does. -/
theorem Chain.preceding_absent {e : κ × α} {es : List (κ × α)} {head : κ}
    (h : Chain m R (some head) (e :: es) none)
    (htest : ∀ x ∈ e :: es, ∀ v, R v x.2 → test v = some (p x.2)) (habsent : ∀ x ∈ es, p x.2 = false) :
    preceding m test head = some none := by
  obtain rfl : head = e.1 := Option.some.inj h.1
  have hlen : es.length + 1 ≤ m.keys.card := h.length_le
  exact precedingFrom_absent htest h (by omega) habsent

/-! ## A cell more, or less -/

/-- **A cell at the end.** -/
theorem Chain.snoc {head : Option κ} {es : List (κ × α)} {e : κ × α} (h : Chain m R head (es ++ [e]) none)
    {k : κ} (hk : k ∉ m) {v : ν} {a : α} (hR : R v a) : ∃ c, m.lookup e.1 = some c ∧
    Chain ((m.insert e.1 { c with next := some k }).insert k ⟨v, none⟩) R head (es ++ [e, (k, a)]) none := by
  have hnew : k ∉ (es ++ [e]).map Prod.fst := fun hmem => hk (h.mem hmem)
  have hnodup := h.nodup
  rw [List.map_append, List.mem_append, not_or] at hnew
  simp only [List.map_append, List.map_cons, List.map_nil, List.nodup_append, List.mem_singleton] at hnodup
  obtain ⟨q, hes, rfl, c, hc, hRe, -⟩ := chain_append.1 h
  have hold : e.1 ∉ es.map Prod.fst := fun hmem => hnodup.2.2 _ hmem _ rfl rfl
  have hne : k ≠ e.1 := by simpa using hnew.2
  have hlast : Chain ((m.insert e.1 { c with next := some k }).insert k ⟨v, none⟩) R (some k) [(k, a)] none :=
    ⟨rfl, ⟨v, none⟩, Finmap.lookup_insert _, hR, rfl⟩
  refine ⟨c, hc, chain_append.2 ⟨_, (hes.insert hold).insert hnew.1, rfl, { c with next := some k }, ?_,
    hRe, hlast⟩⟩
  rw [Finmap.lookup_insert_of_ne _ hne.symm, Finmap.lookup_insert]

/-- **A live cell is put at the end.** -/
theorem Chain.link {head : Option κ} {es : List (κ × α)} {e : κ × α} (h : Chain m R head (es ++ [e]) none)
    {k : κ} (hk : k ∉ (es ++ [e]).map Prod.fst) {v : ν} {a : α} (hR : R v a) :
    ∃ c, (m.insert k ⟨v, none⟩).lookup e.1 = some c ∧
      Chain ((m.insert k ⟨v, none⟩).insert e.1 { c with next := some k }) R head (es ++ [e, (k, a)]) none := by
  have hnodup := h.nodup
  rw [List.map_append, List.mem_append, not_or] at hk
  simp only [List.map_append, List.map_cons, List.map_nil, List.nodup_append, List.mem_singleton] at hnodup
  obtain ⟨q, hes, rfl, c, hc, hRe, -⟩ := chain_append.1 h
  have hold : e.1 ∉ es.map Prod.fst := fun hmem => hnodup.2.2 _ hmem _ rfl rfl
  have hne : k ≠ e.1 := by simpa using hk.2
  have hlast : Chain ((m.insert k ⟨v, none⟩).insert e.1 { c with next := some k }) R (some k) [(k, a)] none := by
    refine ⟨rfl, ⟨v, none⟩, ?_, hR, rfl⟩
    rw [Finmap.lookup_insert_of_ne _ hne, Finmap.lookup_insert]
  have hc' : (m.insert k ⟨v, none⟩).lookup e.1 = some c := by rwa [Finmap.lookup_insert_of_ne _ hne.symm]
  exact ⟨c, hc', chain_append.2 ⟨_, (hes.insert hk.1).insert hold, rfl, { c with next := some k },
    Finmap.lookup_insert _, hRe, hlast⟩⟩

/-- **The first cell is taken out.** -/
theorem Chain.uncons {head : Option κ} {e : κ × α} {es : List (κ × α)} (h : Chain m R head (e :: es) none) :
    ∃ c, m.lookup e.1 = some c ∧ R c.value e.2 ∧ Chain (m.erase e.1) R c.next es none := by
  have hnodup := h.nodup
  rw [List.map_cons, List.nodup_cons] at hnodup
  obtain ⟨-, c, hc, hR, hrest⟩ := h
  exact ⟨c, hc, hR, hrest.erase hnodup.1⟩

/-- **A cell behind another is taken out.** -/
theorem Chain.unlink {head : Option κ} {es fs : List (κ × α)} {e f : κ × α}
    (h : Chain m R head (es ++ e :: f :: fs) none) : ∃ c d, m.lookup e.1 = some c ∧ c.next = some f.1 ∧
      m.lookup f.1 = some d ∧
      Chain ((m.insert e.1 { c with next := d.next }).erase f.1) R head (es ++ e :: fs) none := by
  have hnodup := h.nodup
  simp only [List.map_append, List.map_cons, List.nodup_append, List.nodup_cons, List.mem_cons, not_or] at hnodup
  obtain ⟨-, ⟨⟨hef, hefs⟩, hffs, -⟩, hapart⟩ := hnodup
  obtain ⟨q, hes, rfl, c, hc, hRe, hnext, d, hd, -, hfs⟩ := chain_append.1 h
  have he : e.1 ∉ es.map Prod.fst := fun hmem => hapart _ hmem _ (Or.inl rfl) rfl
  have hf : f.1 ∉ es.map Prod.fst := fun hmem => hapart _ hmem _ (Or.inr (Or.inl rfl)) rfl
  refine ⟨c, d, hc, hnext, hd, chain_append.2 ⟨_, (hes.insert he).erase hf, rfl,
    { c with next := d.next }, ?_, hRe, (hfs.insert hefs).erase hffs⟩⟩
  rw [Finmap.lookup_erase_ne hef, Finmap.lookup_insert]

end Linked
