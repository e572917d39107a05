import Vdetelweb.Proof.Lists

/-!
# What was added is kept

The `Delete` of a named list never moves `tail_x`, which points nowhere once the last node has
been freed. The next `Add` writes through it, unless the list has become empty in between.

`KeptList` follows the entries and whether that has happened. A run of a list keeps what was
added exactly when no `Add` comes at such a moment, and each name fits its field
(`kept_run_iff`).
-/

namespace Vdetelweb

open BoxList CString Linked

/-- The entries that were added and not deleted, and whether the last of them has been deleted
since `tail_x` was assigned. -/
structure KeptList where
  entries : List (Addr × Added) := []
  stale : Bool := false
  deriving DecidableEq

namespace KeptList

def step (a : KeptList) : NamedOp → KeptList
  | .add item name block => { entries := a.entries ++ [(block.addr, ⟨name.1, item⟩)], stale := false }
  | .find _ => a
  | .delete name =>
    let entries := a.entries.eraseP fun e => Named name e.2
    { entries, stale := a.stale || decide (entries.getLast? ≠ a.entries.getLast?) }

/-- **The condition on an operation**: a name fits its field, and nothing is added behind the last
entry when the one that `tail_x` pointed to has been deleted. -/
def Allowed (a : KeptList) : NamedOp → Prop
  | .add _ name _ => name.1.length < nameSize ∧ (a.entries = [] ∨ a.stale = false)
  | _ => True

instance (a : KeptList) : (op : NamedOp) → Decidable (a.Allowed op)
  | .add _ _ _ => instDecidableAnd
  | .find _ => isTrue trivial
  | .delete _ => isTrue trivial

end KeptList

namespace PlainList

variable {x : PlainList} {g g' : Lists} {a : KeptList} {op : NamedOp}

/-- `malloc` hands out what is not in use, and `Delete` is not called on an empty list. -/
def Given (x : PlainList) (g : Lists) : NamedOp → Prop
  | .add _ _ block => block.addr ∉ g.nodes
  | .delete _ => g.head x.list ≠ none
  | .find _ => True

instance (x : PlainList) (g : Lists) : (op : NamedOp) → Decidable (x.Given g op)
  | .add _ _ _ => instDecidableNot
  | .delete _ => instDecidableNot
  | .find _ => isTrue trivial

/-- What `Find` returns, if the name is there and if not. -/
def codes : PlainList → ℤ × ℤ
  | .dev => (IS_OK, -1)
  | _ => (1, 0)

/-- **The list keeps what was added.** -/
structure Keeps (x : PlainList) (g : Lists) (es : List (Addr × Added)) : Prop where
  /-- The nodes of the entries are live, and reachable in the order of the additions. -/
  entries : g.Entries x.list es
  /-- An entry is found by its name, and `pos_x` points to the first of this name. -/
  find : ∀ name, x.run (.find name) g = some (match es.find? fun e => Named name e.2 with
    | some e => (x.codes.1, g.setPos x.list (some e.1))
    | none => (x.codes.2, g.setPos x.list none))
  /-- Nothing is changed by the deletion of a name that is not there. -/
  delete : es ≠ [] → ∀ name, (∀ e ∈ es, Named name e.2 = false) → x.run (.delete name) g = some (-1, g)

/-! ## The functions of a list -/

theorem run_add (x : PlainList) (item : Addr) (name : CStr) (block : Block) (g : Lists) :
    x.run (.add item name block) g = g.add x.list x.list item name (some block) := by
  cases x <;> rfl

theorem run_find (x : PlainList) (name : CStr) (g : Lists) :
    x.run (.find name) g = g.find x.list x.codes.1 x.codes.2 name := by
  cases x <;> rfl

theorem run_delete (x : PlainList) (name : CStr) (g : Lists) :
    x.run (.delete name) g = g.delete x.list x.list name := by
  cases x <;> rfl

theorem keeps_of_entries {es : List (Addr × Added)} (hes : g.Entries x.list es) : x.Keeps g es := by
  refine ⟨hes, fun name => ?_, fun hne name habsent => ?_⟩
  · rw [run_find, hes.find]
    cases es.find? (fun e => Named name e.2) <;> rfl
  · rw [run_delete]
    exact hes.delete_absent hne habsent

/-! ## Steps -/

/-- `tail_x` points to the last node, or to one that has been freed. -/
structure Follows (x : PlainList) (g : Lists) (a : KeptList) : Prop where
  entries : g.Entries x.list a.entries
  last : a.stale = false → ∀ e ∈ a.entries.getLast?, g.tail x.list = some e.1
  freed : a.stale = true → a.entries ≠ [] → ∀ k, g.tail x.list = some k → k ∉ g.nodes

theorem Follows.add (h : x.Follows g a) {item : Addr} {name : CStr} {block : Block} (hfresh : block.addr ∉ g.nodes)
    (hallowed : a.Allowed (.add item name block)) : ∃ g', x.run (.add item name block) g = some (0, g') ∧
      x.Follows g' (a.step (.add item name block)) := by
  obtain ⟨hname, htail⟩ := hallowed
  obtain ⟨field, hfield, hread⟩ := Lists.exists_field block hname
  obtain ⟨entries, stale⟩ := a
  rw [run_add]
  rcases List.eq_nil_or_concat entries with rfl | ⟨es, e, rfl⟩
  · have hhead : g.head x.list = none := h.entries
    refine ⟨_, Lists.add_first hhead hfield, Lists.entries_started item block.addr hread, ?_, ?_⟩
    · intro _ e he
      obtain rfl : (block.addr, ⟨name.1, item⟩) = e := by simpa [KeptList.step] using he
      simp [Lists.started]
    · intro hstale
      cases hstale
  · rw [List.concat_eq_append] at h htail ⊢
    have hstale : stale = false := by simpa using htail
    have hlast : g.tail x.list = some e.1 := h.last hstale e (by simp)
    have hhead : g.head x.list ≠ none := by
      rw [h.entries.head_eq]
      cases es <;> simp
    obtain ⟨c, hc, hentries⟩ := h.entries.appended hfresh item hread
    have hne : block.addr ≠ e.1 := ne_of_fresh hfresh hc
    refine ⟨_, Lists.add_behind hhead hlast hc hne hfield, hentries, ?_, ?_⟩
    · intro _ f hf
      obtain rfl : (block.addr, ⟨name.1, item⟩) = f := by simpa [KeptList.step] using hf
      simp [Lists.appended]
    · intro hstale
      cases hstale

/-- The last entry goes only if it is the one that is deleted. -/
theorem getLast?_of_ne {α : Type} {xs ys : List α} {f : α} (h : (xs ++ ys).getLast? ≠ (xs ++ f :: ys).getLast?) :
    (xs ++ f :: ys).getLast? = some f := by
  cases ys with
  | nil => simp
  | cons y ys => simp at h

theorem Follows.delete (h : x.Follows g a) {name : CStr} (hhead : g.head x.list ≠ none) :
    ∃ r g', x.run (.delete name) g = some (r, g') ∧ x.Follows g' (a.step (.delete name)) := by
  rw [run_delete]
  by_cases hname : ∃ e ∈ a.entries, Named name e.2
  · obtain ⟨xs, f, ys, g', hes, herase, hdelete, hentries, htail, hnodes⟩ := h.entries.delete_found hname
    refine ⟨_, g', hdelete, ?_, ?_, ?_⟩
    · simpa only [KeptList.step, herase] using hentries
    · intro hstale e he
      simp only [KeptList.step, Bool.or_eq_false_iff, decide_eq_false_iff_not, not_not] at hstale he
      rw [htail]
      exact h.last hstale.1 e (hstale.2 ▸ he)
    · intro hstale hne k hk hmem
      simp only [KeptList.step, Bool.or_eq_true, decide_eq_true_eq, herase] at hstale hne
      obtain ⟨hmem, hkf⟩ := hnodes k hmem
      rw [htail] at hk
      cases hold : a.stale with
      | true =>
        have hentries : a.entries ≠ [] := by simp [hes]
        exact h.freed hold hentries k hk hmem
      | false =>
        -- `tail_x` pointed to the node that has been freed
        have hlast : a.entries.getLast? = some f := by
          rw [hes] at hstale ⊢
          exact getLast?_of_ne (by simpa [hold] using hstale)
        have htail' : g.tail x.list = some f.1 := h.last hold f hlast
        exact hkf (Option.some.inj (hk.symm.trans htail'))
  · have habsent : ∀ e ∈ a.entries, Named name e.2 = false := Lists.absent_of_not hname
    have hne : a.entries ≠ [] := by
      intro hnil
      rw [h.entries.head_eq, hnil] at hhead
      exact hhead rfl
    have hstep : a.step (.delete name) = a := by
      have herase : a.entries.eraseP (fun e => Named name e.2) = a.entries := by
        apply List.eraseP_of_forall_not
        simpa using habsent
      simp [KeptList.step, herase]
    exact ⟨-1, g, h.entries.delete_absent hne habsent, hstep.symm ▸ h⟩

/-- **A step under the condition.** -/
theorem Follows.step (h : x.Follows g a) (hgiven : x.Given g op) (hallowed : a.Allowed op) :
    ∃ g', x.step (some g) op = some g' ∧ x.Follows g' (a.step op) := by
  cases op with
  | add item name block =>
    obtain ⟨g', hrun, h'⟩ := h.add hgiven hallowed
    exact ⟨g', by simp [PlainList.step, hrun], h'⟩
  | find name =>
    refine ⟨_, by rw [PlainList.step, Option.bind_some, run_find, h.entries.find]; rfl, ?_⟩
    exact ⟨h.entries, h.last, h.freed⟩
  | delete name =>
    obtain ⟨r, g', hrun, h'⟩ := h.delete hgiven
    exact ⟨g', by simp [PlainList.step, hrun], h'⟩

/-- **A step that does not meet it** is undefined. -/
theorem Follows.stuck (h : x.Follows g a) (hgiven : x.Given g op) (hallowed : ¬ a.Allowed op) :
    x.step (some g) op = none := by
  cases op with
  | add item name block =>
    have hadd : g.add x.list x.list item name (some block) = none := by
      by_cases hname : name.1.length < nameSize
      · have hbad : ¬ (a.entries = [] ∨ a.stale = false) := fun hok => hallowed ⟨hname, hok⟩
        rw [not_or, Bool.not_eq_false] at hbad
        have hhead : g.head x.list ≠ none := by
          rw [h.entries.head_eq]
          cases hes : a.entries with
          | nil => exact absurd hes hbad.1
          | cons e es => simp
        exact Lists.add_of_tail_not_live hhead (h.freed hbad.2 hbad.1)
      · exact Lists.add_of_long hgiven hname
    simp [PlainList.step, run_add, hadd]
  | find name => exact absurd trivial hallowed
  | delete name => exact absurd trivial hallowed

/-! ## Runs -/

theorem foldl_none (x : PlainList) (ops : List NamedOp) : ops.foldl x.step none = none := by
  induction ops with
  | nil => rfl
  | cons op ops ih => exact ih

theorem Follows.run_iff (h : x.Follows g a) {ops : List NamedOp}
    (hgiven : Runs.Along x.step (fun s op => ∀ g ∈ s, x.Given g op) (some g) ops) :
    (∃ g', ops.foldl x.step (some g) = some g' ∧ x.Keeps g' (ops.foldl KeptList.step a).entries) ↔
      Runs.Along KeptList.step KeptList.Allowed a ops := by
  induction ops generalizing g a with
  | nil =>
    constructor
    · intro _
      trivial
    · intro _
      exact ⟨g, rfl, keeps_of_entries h.entries⟩
  | cons op ops ih =>
    obtain ⟨hop, hops⟩ := hgiven
    have hop : x.Given g op := hop g rfl
    by_cases hallowed : a.Allowed op
    · obtain ⟨g', hstep, h'⟩ := h.step hop hallowed
      rw [hstep] at hops
      rw [List.foldl_cons, List.foldl_cons, hstep, ih h' hops]
      exact ⟨fun hrest => ⟨hallowed, hrest⟩, fun hall => hall.2⟩
    · constructor
      · rintro ⟨g', hrun, -⟩
        rw [List.foldl_cons, h.stuck hop hallowed, foldl_none] at hrun
        cases hrun
      · intro hall
        exact absurd hall.1 hallowed

/-- **A run from the empty list keeps what was added** exactly when each name fits its field, and
nothing is added to a list that is not empty after its last entry has been deleted, before
something has been added to it when it was empty. -/
theorem kept_run_iff (hempty : g.head x.list = none) {ops : List NamedOp}
    (hgiven : Runs.Along x.step (fun s op => ∀ g ∈ s, x.Given g op) (some g) ops) :
    (∃ g', ops.foldl x.step (some g) = some g' ∧ x.Keeps g' (ops.foldl KeptList.step {}).entries) ↔
      Runs.Along KeptList.step KeptList.Allowed {} ops := by
  have hfollows : x.Follows g {} := ⟨hempty, by simp, by simp⟩
  exact hfollows.run_iff hgiven

/-- Two devices; this one goes, and another comes. -/
def replaced (name : CStr) : List NamedOp :=
  [.add 1 ⟨['0'], by decide⟩ (blockAt 10), .add 2 ⟨['1'], by decide⟩ (blockAt 11), .delete name,
    .add 3 ⟨['2'], by decide⟩ (blockAt 12)]

def firstReplaced : List NamedOp := replaced ⟨['0'], by decide⟩

def lastReplaced : List NamedOp := replaced ⟨['1'], by decide⟩

theorem kept_firstReplaced : ∃ g', firstReplaced.foldl dev.step (some {}) = some g' ∧
    dev.Keeps g' [(11, ⟨['1'], 2⟩), (12, ⟨['2'], 3⟩)] := by
  have hallowed : Runs.Along KeptList.step KeptList.Allowed {} firstReplaced := by decide
  exact (kept_run_iff rfl (by decide)).2 hallowed

/-- A node is written to after it has been freed. -/
theorem lost_lastReplaced :
    Runs.Along dev.step (fun s op => ∀ g ∈ s, dev.Given g op) (some {}) lastReplaced ∧
    ¬ ∃ g', lastReplaced.foldl dev.step (some {}) = some g' ∧
      dev.Keeps g' (lastReplaced.foldl KeptList.step {}).entries := by
  refine ⟨by decide, ?_⟩
  rintro ⟨g', hrun, -⟩
  have hnone : (lastReplaced.foldl dev.step (some {})).isNone = true := by decide
  rw [hrun] at hnone
  cases hnone

end PlainList

end Vdetelweb
