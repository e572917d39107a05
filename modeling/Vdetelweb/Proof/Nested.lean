import Vdetelweb.Proof.Urls

/-!
# The command tree as nested dictionaries

What `commands_tree` hands on is walked key by key (`Heap.follow`), also beyond the records,
where the graph of `Tree.lean` stops. The nested dictionaries are the tree of the paths, and
the order of the records does not matter, exactly when no path comes twice to a node like
its last and none has a node `__index` (`builds_iff`).
-/

namespace Vdetelweb

open Walk

/-- What is found along the keys. -/
def Heap.follow (h : Heap) : Val → List Bytes → Option Val
  | v, [] => some v
  | .dict r, k :: q => (h.get r k).bind fun w => h.follow w q
  | _, _ :: _ => none

/-- The value, or that it is a dictionary. -/
def Val.shape : Val → Option Val
  | .dict _ => none
  | v => some v

variable {cmds : List Record} {h h' : Heap}

/-- **The heap holds the menu**: the path of a record leads to it, what holds `__index` is a
record at the end of its own path, no dictionary contains itself, and the records are as they
were. -/
structure HoldsMenu (cmds : List Record) (h : Heap) : Prop where
  ends : ∀ i (hi : i < cmds.length), h.follow (.dict cmds.length) cmds[i].nodes = some (.dict i)
  leaf : ∀ q v, h.follow (.dict cmds.length) q = some (.dict v) →
    (h.isLeaf v ↔ ∃ hi : v < cmds.length, cmds[v].nodes = q)
  finite : ∀ q v, h.follow (.dict cmds.length) q = some (.dict v) →
    ∀ p, p ≠ [] → h.follow (.dict v) p ≠ some (.dict v)
  record : ∀ i (hi : i < cmds.length), h.dict i = cmds[i].dict

/-- The nested dictionaries are equal. -/
def SameTree (cmds : List Record) (h h' : Heap) : Prop :=
  ∀ q, (h.follow (.dict cmds.length) q).map Val.shape = (h'.follow (.dict cmds.length) q).map Val.shape

/-- **In whatever order the records come**, the heap holds the menu, and it is the same. -/
def Builds (cmds : List Record) : Prop :=
  ∀ is : List Ref, is.Perm (List.range cmds.length) →
    ∃ h, makeCommandsTree cmds.length is (.load cmds) = (.ret (), h) ∧ HoldsMenu cmds h ∧
      ∀ is' h', is'.Perm (List.range cmds.length) →
        makeCommandsTree cmds.length is' (.load cmds) = (.ret (), h') → SameTree cmds h h'

/-! ## Following keys -/

theorem follow_append (v : Val) (q p : List Bytes) :
    h.follow v (q ++ p) = (h.follow v q).bind fun w => h.follow w p := by
  induction q generalizing v with
  | nil => rfl
  | cons k q ih =>
    cases v with
    | dict r =>
      simp only [List.cons_append, Heap.follow]
      cases h.get r k with
      | none => rfl
      | some w => exact ih w
    | int _ => rfl
    | str _ => rfl
    | list _ => rfl

theorem follow_concat (v : Val) (q : List Bytes) (k : Bytes) :
    h.follow v (q ++ [k]) = (h.follow v q).bind fun w => match w with
      | .dict r => h.get r k
      | _ => none := by
  rw [follow_append]
  refine congrArg _ (funext fun w => ?_)
  cases w with
  | dict r => simp [Heap.follow]
  | int _ => rfl
  | str _ => rfl
  | list _ => rfl

/-- **A walk that comes to a stop** is blocked there. -/
theorem follow_of_blocked {r : Ref} {q : List Bytes} (hb : Blocked h.graph r q) :
    ∃ p v, p <+: q ∧ h.follow (.dict r) p = some (.dict v) ∧ h.isLeaf v := by
  induction q generalizing r with
  | nil => cases hb
  | cons k q ih =>
    obtain ⟨w, hw, hstop⟩ := hb
    have hget := Heap.edge_eq_some.1 hw
    have hcons : ∀ p, h.follow (.dict r) (k :: p) = h.follow (.dict w) p := by
      intro p
      simp [Heap.follow, hget]
    rcases hstop with hl | hb
    · exact ⟨[k], w, ⟨q, rfl⟩, by rw [hcons]; rfl, hl⟩
    · obtain ⟨p, v, hp, hv, hl⟩ := ih hb
      exact ⟨k :: p, v, by simpa using hp, by rw [hcons]; exact hv, hl⟩

/-! ## The tree of the paths -/

section

variable {place : List Bytes → Ref}

/-- **The dictionaries that are found** are those of the tree. -/
theorem Tree.follow_iff (t : Tree cmds h (reached cmds) place) {q : List Bytes} {v : Ref} :
    h.follow (.dict cmds.length) q = some (.dict v) ↔ q ∈ reached cmds ∧ v = place q := by
  induction q using List.reverseRecOn generalizing v with
  | nil =>
    rw [t.root]
    exact ⟨fun hv => ⟨t.nil, (Val.dict.inj (Option.some.inj hv)).symm⟩, fun hv => by rw [hv.2]; rfl⟩
  | append_singleton q k ih =>
    rw [follow_concat]
    constructor
    · intro hv
      obtain ⟨w, hw, hk⟩ := Option.bind_eq_some_iff.1 hv
      cases w with
      | dict r =>
        obtain ⟨hq, rfl⟩ := ih.1 hw
        exact (t.edge q hq k v).1 (Heap.edge_eq_some.2 hk)
      | int _ => cases hk
      | str _ => cases hk
      | list _ => cases hk
    · rintro ⟨hq, rfl⟩
      have hq' := t.closed q k hq
      rw [ih.2 ⟨hq', rfl⟩]
      exact Heap.edge_eq_some.1 ((t.edge q hq' k _).2 ⟨hq, rfl⟩)

theorem Tree.faithful (t : Tree cmds h (reached cmds) place)
    (hindex : ∀ i ∈ cmds, "__index".toList ∉ i.nodes) : HoldsMenu cmds h where
  ends i hi := by
    have hin : cmds[i].nodes ∈ reached cmds := Or.inr ⟨_, List.getElem_mem hi, List.prefix_refl _⟩
    exact t.follow_iff.2 ⟨hin, (t.own i hi hin).symm⟩
  leaf q v hv := by
    obtain ⟨hq, rfl⟩ := t.follow_iff.1 hv
    constructor
    · intro hl
      by_cases hi : place q < cmds.length
      · exact ⟨hi, t.leaf q hq hi⟩
      · -- a dictionary that is not a record has only nodes for keys
        have hD := t.inner q hq (not_lt.1 hi) _ (Heap.isLeaf_iff.1 hl)
        obtain ⟨i, hi, hpre⟩ := hD.resolve_left (by simp)
        exact absurd (hpre.subset (by simp)) (hindex i hi)
    · rintro ⟨hi, -⟩
      exact Record.isLeaf (t.record _ hi)
  finite q v hv p hp hcycle := by
    obtain ⟨hq, rfl⟩ := t.follow_iff.1 hv
    have hqp := t.follow_iff.1 (show h.follow (.dict cmds.length) (q ++ p) = some (.dict (place q)) by
      rw [follow_append, hv]; exact hcycle)
    have heq : q ++ p = q := t.inj hqp.1 hq hqp.2.symm
    exact hp (List.append_right_eq_self.1 heq)
  record := t.record

/-- Off the tree there is what the records hold. -/
theorem Tree.follow_off (t : Tree cmds h (reached cmds) place) {q : List Bytes} {k : Bytes}
    (hq : q ∈ reached cmds) (hk : q ++ [k] ∉ reached cmds) :
    h.follow (.dict cmds.length) (q ++ [k]) =
      if hi : place q < cmds.length then cmds[place q].dict.lookup k else none := by
  rw [follow_concat, t.follow_iff.2 ⟨hq, rfl⟩]
  show h.get (place q) k = _
  split
  · rename_i hi
    rw [Heap.get, t.record _ hi]
  · rename_i hi
    by_contra hne
    exact hk (t.inner q hq (not_lt.1 hi) k hne)

theorem Tree.sameTree (t : Tree cmds h (reached cmds) place) {place' : List Bytes → Ref}
    (t' : Tree cmds h' (reached cmds) place') : SameTree cmds h h' := by
  intro q
  induction q using List.reverseRecOn with
  | nil => rfl
  | append_singleton q k ih =>
    by_cases hD : q ++ [k] ∈ reached cmds
    · rw [t.follow_iff.2 ⟨hD, rfl⟩, t'.follow_iff.2 ⟨hD, rfl⟩]
      rfl
    by_cases hq : q ∈ reached cmds
    · rw [t.follow_off hq hD, t'.follow_off hq hD]
      -- the same record lies at the place in both
      have hsame : ∀ {h h' : Heap} {p p' : List Bytes → Ref}, Tree cmds h (reached cmds) p →
          Tree cmds h' (reached cmds) p' → p q < cmds.length → p' q = p q := by
        intro h h' p p' s s' hi
        have hn := s.leaf q hq hi
        have hown := s'.own (p q) hi (by rwa [hn])
        rwa [hn] at hown
      by_cases hi : place q < cmds.length
      · have := hsame t t' hi
        simp only [this]
      · have hi' : ¬ place' q < cmds.length := fun hi' => hi (hsame t' t hi' ▸ hi')
        rw [dif_neg hi, dif_neg hi']
    · -- beyond a value that is not a dictionary there is nothing
      have hnone : ∀ {h : Heap} {p : List Bytes → Ref}, Tree cmds h (reached cmds) p →
          h.follow (.dict cmds.length) (q ++ [k]) = none := by
        intro h p s
        rw [follow_concat]
        cases hv : h.follow (.dict cmds.length) q with
        | none => rfl
        | some v =>
          cases v with
          | dict r => exact absurd (s.follow_iff.1 hv).1 hq
          | int _ => rfl
          | str _ => rfl
          | list _ => rfl
      rw [hnone t, hnone t']

end

/-! ## Which lists are built -/

/-- Nothing lies before the end of a path. -/
theorem HoldsMenu.leaf_end (f : HoldsMenu cmds h)
    (hstart : ∀ i ∈ cmds, ∀ j ∈ cmds, i.nodes <+: j.nodes → i.nodes = j.nodes) {i : Record}
    (hi : i ∈ cmds) {q : List Bytes} {v : Ref} (hq : q <+: i.nodes)
    (hv : h.follow (.dict cmds.length) q = some (.dict v)) (hl : h.isLeaf v) : q = i.nodes := by
  obtain ⟨hlt, rfl⟩ := (f.leaf q v hv).1 hl
  exact hstart _ (List.getElem_mem hlt) _ hi hq

/-- **Only lists of such paths** are built. -/
theorem Builds.nodes (hb : Builds cmds)
    (hstart : ∀ i ∈ cmds, ∀ j ∈ cmds, i.nodes <+: j.nodes → i.nodes = j.nodes) {i : Record}
    (hi : i ∈ cmds) : i.last ∉ i.nodes.dropLast ∧ "__index".toList ∉ i.nodes := by
  obtain ⟨h, hrun, f, -⟩ := hb _ (List.Perm.refl _)
  obtain ⟨-, -, hblocked⟩ := makeCommandsTree_blocked (List.range cmds.length) (tree_load cmds).ok
    (Nat.lt_succ_self _) List.nodup_range (pending_load cmds) hrun
  constructor
  · intro hlast
    obtain ⟨j, hj, rfl⟩ := List.getElem_of_mem hi
    obtain ⟨p, v, hp, hv, hl⟩ := follow_of_blocked (hblocked j (List.mem_range.2 hj) hj _
      ⟨List.ne_nil_of_mem hlast, [cmds[j].last], cmds[j].nodes_eq, Or.inl hlast⟩)
    have heq := f.leaf_end hstart hi (hp.trans (List.dropLast_prefix _)) hv hl
    have hlen := hp.length_le
    have := List.length_pos_iff.2 cmds[j].nodes_ne_nil
    rw [heq, List.length_dropLast] at hlen
    omega
  · intro hindex
    obtain ⟨q, rest, hq⟩ := List.append_of_mem hindex
    obtain ⟨j, hj, rfl⟩ := List.getElem_of_mem hi
    have hend := f.ends j hj
    rw [hq, follow_append] at hend
    obtain ⟨v, hv, hrest⟩ := Option.bind_eq_some_iff.1 hend
    -- the dictionary before the node holds it as a key
    cases v with
    | dict r =>
      have hl : h.isLeaf r := by
        rw [Heap.isLeaf_iff]
        intro hnone
        rw [Heap.follow, hnone] at hrest
        cases hrest
      have heq := f.leaf_end hstart hi ⟨"__index".toList :: rest, hq.symm⟩ hv hl
      rw [hq] at heq
      exact absurd heq (by simp)
    | int _ => cases hrest
    | str _ => cases hrest
    | list _ => cases hrest

/-- **The list is built if and only if** no path comes to a node like its last before its
end, and none has a node `__index`. -/
theorem builds_iff (hdis : (cmds.map Record.cmd).Nodup)
    (hstart : ∀ i ∈ cmds, ∀ j ∈ cmds, i.nodes <+: j.nodes → i.nodes = j.nodes) :
    Builds cmds ↔ ∀ i ∈ cmds, i.last ∉ i.nodes.dropLast ∧ "__index".toList ∉ i.nodes := by
  refine ⟨fun hb i hi => hb.nodes hstart hi, fun hnodes is his => ?_⟩
  have hsep : Separate cmds := ⟨hstart, fun i hi => (hnodes i hi).1,
    fun i hi hmem => (hnodes i hi).2 (List.mem_of_mem_tail hmem)⟩
  obtain ⟨h, place, hrun, t⟩ := tree_of_separate hsep hdis his
  refine ⟨h, hrun, t.faithful fun i hi => (hnodes i hi).2, fun is' h' his' hrun' => ?_⟩
  obtain ⟨h'', place', hrun'', t'⟩ := tree_of_separate hsep hdis his'
  obtain rfl : h'' = h' := congrArg Prod.snd (hrun''.symm.trans hrun')
  exact t.sameTree t'

/-- Two commands in one menu. -/
theorem builds_menu : Builds [pathRecord 0 "port/print".toList, pathRecord 1 "port/create".toList] :=
  (builds_iff (by decide) (by decide)).2 (by decide)

/-- A path with the same node twice: the record is put inside of itself. -/
theorem builds_twice : ¬ ∀ cmds : List Record, (cmds.map Record.cmd).Nodup →
    (∀ i ∈ cmds, ∀ j ∈ cmds, i.nodes <+: j.nodes → i.nodes = j.nodes) → Builds cmds := by
  intro h
  have hb := h [pathRecord 0 "debug/debug".toList] (by decide) (by decide)
  exact absurd (hb.nodes (by decide) List.mem_cons_self).1 (by decide)

end Vdetelweb
