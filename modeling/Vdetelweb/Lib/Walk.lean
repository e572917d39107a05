import Mathlib

/-!
# Walks in a labelled graph

In a graph with labelled edges a walk from a node is determined by its labels. Some nodes
are stops: a walk may arrive there, and does not go on.

* `Reaches`: the walk with these labels arrives at this node.
* `Blocked`: the walk with these labels comes to a stop, at its end or before. What is
  blocked stays so when edges are added, or led to stops (`Blocked.grows`).
* `Draws`: the part of the graph that is reached is the tree of a set of label lists, and
  stays one when a leaf is put to it (`Draws.extend`).
* `listing`: all walks, depth first.
-/

namespace Walk

variable {ν κ α β : Type*}

/-- A labelled graph with stops. -/
structure Graph (ν κ : Type*) where
  edge : ν → κ → Option ν
  stop : ν → Prop

variable {g g' g'' : Graph ν κ}

variable (g) in
/-- The walk along the labels arrives at the node, and there is no stop before. -/
inductive Reaches : ν → List κ → ν → Prop
  | edge {r v : ν} {k : κ} : g.edge r k = some v → Reaches r [k] v
  | cons {r w v : ν} {k : κ} {q : List κ} : g.edge r k = some w → ¬ g.stop w →
      Reaches w q v → Reaches r (k :: q) v

variable (g) in
/-- The walk along the labels comes to a stop. -/
def Blocked : ν → List κ → Prop
  | _, [] => False
  | r, k :: q => ∃ w, g.edge r k = some w ∧ (g.stop w ∨ Blocked w q)

theorem Reaches.ne_nil {r v : ν} {q : List κ} (h : Reaches g r q v) : q ≠ [] := by
  cases h <;> simp

theorem Blocked.append {q : List κ} : ∀ {r : ν}, Blocked g r q → ∀ p, Blocked g r (q ++ p) := by
  induction q with
  | nil => intro r h; cases h
  | cons k q ih =>
    rintro r ⟨w, hw, h⟩ p
    exact ⟨w, hw, h.imp_right fun h => ih h p⟩

/-- **A walk that arrives is not blocked on its way.** -/
theorem Reaches.not_blocked {r v : ν} {q : List κ} (h : Reaches g r q v) : ¬ Blocked g r q.dropLast := by
  induction h with
  | edge _ => exact id
  | @cons r w v k q hw hstop hq ih =>
    rw [List.dropLast_cons_of_ne_nil hq.ne_nil]
    rintro ⟨w', hw', h⟩
    rw [hw] at hw'
    cases hw'
    exact h.elim hstop ih

/-! ## Growing graphs -/

/-- Edges are added, and some are led to stops; a stop stays one. -/
structure Grows (g g' : Graph ν κ) : Prop where
  edge : ∀ r k v, g.edge r k = some v → ∃ w, g'.edge r k = some w ∧ (w = v ∨ g'.stop w)
  stop : ∀ r, g.stop r → g'.stop r

theorem Grows.refl (g : Graph ν κ) : Grows g g := ⟨fun _ _ v h => ⟨v, h, Or.inl rfl⟩, fun _ => id⟩

theorem Grows.trans (h : Grows g g') (h' : Grows g' g'') : Grows g g'' where
  edge r k v hv := by
    obtain ⟨w, hw, hvw⟩ := h.edge r k v hv
    obtain ⟨w', hw', hww'⟩ := h'.edge r k w hw
    refine ⟨w', hw', ?_⟩
    rcases hww' with rfl | hs
    · -- what became a stop in `g'` is still one
      exact hvw.imp_right (h'.stop _)
    · exact Or.inr hs
  stop r hr := h'.stop r (h.stop r hr)

/-- **What is blocked stays blocked.** -/
theorem Blocked.grows (h : Grows g g') {q : List κ} :
    ∀ {r : ν}, Blocked g r q → Blocked g' r q := by
  induction q with
  | nil => intro r hb; cases hb
  | cons k q ih =>
    rintro r ⟨v, hv, hb⟩
    obtain ⟨w, hw, rfl | hs⟩ := h.edge r k v hv
    · exact ⟨w, hw, hb.imp (h.stop w) ih⟩
    · exact ⟨w, hw, Or.inl hs⟩

/-- An edge of the smaller graph, and what it leads to in the larger one. -/
theorem Grows.blocked_cons (h : Grows g g') {r v : ν} {k : κ} {q : List κ} (hv : g.edge r k = some v)
    (hb : g'.stop v ∨ Blocked g' v q) : Blocked g' r (k :: q) := by
  obtain ⟨w, hw, rfl | hs⟩ := h.edge r k v hv
  · exact ⟨w, hw, hb⟩
  · exact ⟨w, hw, Or.inl hs⟩

/-! ## Trees -/

/-- The nodes `place q` for `q` in `D` are a tree: `D` has the beginnings of its lists, and
the edges from `place q` lead to the places one label further. -/
structure Draws (g : Graph ν κ) (D : Set (List κ)) (place : List κ → ν) : Prop where
  nil : [] ∈ D
  closed : ∀ q k, q ++ [k] ∈ D → q ∈ D
  inj : Set.InjOn place D
  edge : ∀ q ∈ D, ∀ k v, g.edge (place q) k = some v ↔ q ++ [k] ∈ D ∧ v = place (q ++ [k])

variable {D : Set (List κ)} {place : List κ → ν}

theorem Draws.of_append (h : Draws g D place) {q p : List κ} (hqp : q ++ p ∈ D) : q ∈ D := by
  induction p using List.reverseRecOn with
  | nil => rwa [List.append_nil] at hqp
  | append_singleton p k ih =>
    rw [← List.append_assoc] at hqp
    exact ih (h.closed _ _ hqp)

/-- **A new leaf**: one edge is added, to a node that is not yet there and has no edges. -/
theorem Draws.extend [DecidableEq κ] (h : Draws g D place) {q : List κ} {k : κ} {c : ν} (hq : q ∈ D)
    (hnew : q ++ [k] ∉ D) (hc : ∀ p ∈ D, place p ≠ c) (hleaf : ∀ k, g'.edge c k = none)
    (hedge : g'.edge (place q) k = some c)
    (hsame : ∀ p ∈ D, ∀ k', ¬ (p = q ∧ k' = k) → g'.edge (place p) k' = g.edge (place p) k') :
    Draws g' (insert (q ++ [k]) D) (Function.update place (q ++ [k]) c) where
  nil := Set.mem_insert_of_mem _ h.nil
  closed p k' hp := by
    rcases Set.mem_insert_iff.1 hp with heq | hp
    · obtain ⟨rfl, -⟩ := List.append_inj' heq rfl
      exact Set.mem_insert_of_mem _ hq
    · exact Set.mem_insert_of_mem _ (h.closed p k' hp)
  inj := by
    have hold : ∀ p ∈ D, Function.update place (q ++ [k]) c p = place p := fun p hp =>
      Function.update_of_ne (by rintro rfl; exact hnew hp) _ _
    rintro p (rfl | hp) p' (rfl | hp') heq
    · rfl
    · rw [Function.update_self, hold p' hp'] at heq
      exact absurd heq.symm (hc p' hp')
    · rw [Function.update_self, hold p hp] at heq
      exact absurd heq (hc p hp)
    · rw [hold p hp, hold p' hp'] at heq
      exact h.inj hp hp' heq
  edge := by
    have hold : ∀ p ∈ D, Function.update place (q ++ [k]) c p = place p := fun p hp =>
      Function.update_of_ne (by rintro rfl; exact hnew hp) _ _
    rintro p (rfl | hp) k' v
    · -- the leaf: nothing lies below it
      rw [Function.update_self, hleaf]
      refine ⟨nofun, ?_⟩
      rintro ⟨heq | hD, -⟩
      · simpa using congrArg List.length heq
      · exact absurd (h.closed _ _ hD) hnew
    · rw [hold p hp]
      by_cases hpk : p = q ∧ k' = k
      · obtain ⟨rfl, rfl⟩ := hpk
        rw [hedge, Function.update_self]
        exact ⟨fun h => ⟨Set.mem_insert _ _, (Option.some.inj h).symm⟩, fun h => by rw [h.2]⟩
      · have hne : p ++ [k'] ≠ q ++ [k] := fun heq => by
          obtain ⟨h₁, h₂⟩ := List.append_inj' heq rfl
          exact hpk ⟨h₁, (List.cons.inj h₂).1⟩
        rw [hsame p hp k' hpk, h.edge p hp, Set.mem_insert_iff, or_iff_right hne,
          Function.update_of_ne hne]

/-- **The walks in a tree**, if only its leaves are stops. -/
theorem Draws.reaches_iff (h : Draws g D place)
    (hopen : ∀ q k, q ≠ [] → q ++ [k] ∈ D → ¬ g.stop (place q)) {p : List κ} {v : ν} :
    ∀ {q : List κ}, q ∈ D → (Reaches g (place q) p v ↔ p ≠ [] ∧ q ++ p ∈ D ∧ v = place (q ++ p)) := by
  induction p with
  | nil => exact fun _ => ⟨fun h => absurd rfl h.ne_nil, fun h => absurd rfl h.1⟩
  | cons k p ih =>
    intro q hq
    rw [show q ++ k :: p = (q ++ [k]) ++ p by simp]
    constructor
    · intro hr
      cases hr with
      | edge he => simpa using (h.edge q hq k v).1 he
      | @cons _ w _ _ _ he _ hr =>
        obtain ⟨hD, rfl⟩ := (h.edge q hq k w).1 he
        exact ⟨by simp, ((ih hD).1 hr).2⟩
    · rintro ⟨-, hD, hv⟩
      have hk : q ++ [k] ∈ D := h.of_append hD
      have he := (h.edge q hq k _).2 ⟨hk, rfl⟩
      cases p with
      | nil => rw [List.append_nil] at hv; exact hv ▸ .edge he
      | cons k' p =>
        -- the walk goes on, so the place after `k` is not a leaf
        refine .cons he (hopen _ k' (by simp) (h.of_append (by simpa using hD))) ?_
        exact (ih hk).2 ⟨by simp, hD, hv⟩

/-! ## Listing all walks -/

/-- The lists one after the other, if all are there. -/
def gather : List (Option (List α)) → Option (List α)
  | [] => some []
  | o :: os => do
    let l ← o
    let ls ← gather os
    return l ++ ls

/-- **What is gathered** is what comes from each element. -/
theorem gather_eq_some {F : α → Option (List β)} {xs : List α} : ∀ {l : List β},
    gather (xs.map F) = some l → (∀ x ∈ xs, ∃ ys, F x = some ys) ∧
      l = xs.flatMap fun x => (F x).getD [] := by
  induction xs with
  | nil => rintro l ⟨⟩; exact ⟨nofun, rfl⟩
  | cons x xs ih =>
    intro l h
    cases hx : F x with
    | none => simp [gather, hx] at h
    | some ys =>
      cases hxs : gather (xs.map F) with
      | none => simp [gather, hx, hxs] at h
      | some ls =>
        obtain ⟨hall, rfl⟩ := ih hxs
        refine ⟨List.forall_mem_cons.2 ⟨⟨ys, hx⟩, hall⟩, ?_⟩
        simpa [gather, hx, hxs, eq_comm] using h

theorem gather_of_some {F : α → Option (List β)} {xs : List α} (h : ∀ x ∈ xs, ∃ ys, F x = some ys) :
    ∃ l, gather (xs.map F) = some l := by
  induction xs with
  | nil => exact ⟨[], rfl⟩
  | cons x xs ih =>
    obtain ⟨ys, hx⟩ := h x List.mem_cons_self
    obtain ⟨ls, hxs⟩ := ih fun y hy => h y (List.mem_cons_of_mem _ hy)
    exact ⟨ys ++ ls, by simp [gather, hx, hxs]⟩

/-- What comes from some of the elements only. -/
theorem gather_filterMap (c : α → Option β) {γ : Type*} (F : β → Option (List γ)) (xs : List α) :
    gather (xs.map fun x => match c x with
      | some b => F b
      | none => some []) = gather ((xs.filterMap c).map F) := by
  induction xs with
  | nil => rfl
  | cons x xs ih =>
    cases hx : c x with
    | none => simp [gather, hx, ih]
    | some b => simp [gather, hx, ih]

/-- What is made of the lists one by one. -/
theorem gather_flatMap {γ : Type*} (f : β → List γ) (os : List (Option (List β))) :
    gather (os.map (Option.map (List.flatMap f))) = (gather os).map (List.flatMap f) := by
  induction os with
  | nil => rfl
  | cons o os ih =>
    cases o with
    | none => rfl
    | some l =>
      simp only [List.map_cons, gather, Option.map_some, ih, Option.bind_eq_bind, Option.bind_some]
      cases gather os <;> simp

section

variable (children : ν → List (κ × ν)) (stop : ν → Prop) [DecidablePred stop]

/-- The walks from a node with where they arrive, depth first: those below a node, and
then the one to it. It is `none` if one is longer than the depth. -/
def listing : ℕ → ν → Option (List (List κ × ν))
  | 0, _ => none
  | depth + 1, r => gather ((children r).map fun e =>
      (if stop e.2 then some [] else listing depth e.2).map fun below =>
        below.map (fun t => (e.1 :: t.1, t.2)) ++ [([e.1], e.2)])

end

/-- The edges from a node, each label once. -/
structure Enumerates (g : Graph ν κ) (children : ν → List (κ × ν)) : Prop where
  nodup : ∀ r, ((children r).map Prod.fst).Nodup
  mem : ∀ r k v, (k, v) ∈ children r ↔ g.edge r k = some v

variable {children : ν → List (κ × ν)} [DecidablePred g.stop]

/-- What is listed in one step. -/
theorem listing_succ {depth : ℕ} {r : ν} {ts : List (List κ × ν)}
    (hts : listing children g.stop (depth + 1) r = some ts) : ∃ below : κ × ν → List (List κ × ν),
      (∀ e ∈ children r, g.stop e.2 ∧ below e = [] ∨
        ¬ g.stop e.2 ∧ listing children g.stop depth e.2 = some (below e)) ∧
      ts = (children r).flatMap fun e => (below e).map (fun t => (e.1 :: t.1, t.2)) ++ [([e.1], e.2)] := by
  obtain ⟨hall, rfl⟩ := gather_eq_some hts
  refine ⟨fun e => if g.stop e.2 then [] else (listing children g.stop depth e.2).getD [], ?_, ?_⟩
  · intro e he
    by_cases hs : g.stop e.2
    · exact Or.inl ⟨hs, if_pos hs⟩
    · obtain ⟨ys, hys⟩ := hall e he
      cases hl : listing children g.stop depth e.2 with
      | none => simp [hs, hl] at hys
      | some below => exact Or.inr ⟨hs, by simp [hs, hl]⟩
  · refine List.flatMap_congr fun e he => ?_
    obtain ⟨ys, hys⟩ := hall e he
    by_cases hs : g.stop e.2
    · simp [hs]
    · cases hl : listing children g.stop depth e.2 with
      | none => simp [hs, hl] at hys
      | some below => simp [hs, hl]

/-- **The listing has the walks**, and no other. -/
theorem mem_listing (h : Enumerates g children) {q : List κ} {v : ν} {depth : ℕ} : ∀ {r : ν}
    {ts : List (List κ × ν)}, listing children g.stop depth r = some ts →
    ((q, v) ∈ ts ↔ Reaches g r q v) := by
  induction depth generalizing q with
  | zero => intro r ts hts; cases hts
  | succ depth ih =>
    intro r ts hts
    obtain ⟨below, hbelow, rfl⟩ := listing_succ hts
    -- below a stop there are no walks, and nothing is listed
    have hin : ∀ k w, (k, w) ∈ children r → ∀ p, (p, v) ∈ below (k, w) ↔
        ¬ g.stop w ∧ Reaches g w p v := by
      intro k w hkw p
      rcases hbelow _ hkw with ⟨hs, hnil⟩ | ⟨hs, hl⟩
      · rw [hnil]
        exact ⟨nofun, fun h => absurd hs h.1⟩
      · rw [ih hl]
        exact ⟨fun h => ⟨hs, h⟩, fun h => h.2⟩
    simp only [List.mem_flatMap, List.mem_append, List.mem_map, List.mem_singleton, Prod.mk.injEq,
      Prod.exists]
    constructor
    · rintro ⟨k, w, hkw, ⟨p, v', hp, rfl, rfl⟩ | ⟨rfl, rfl⟩⟩
      · obtain ⟨hs, hr⟩ := (hin k w hkw p).1 hp
        exact .cons ((h.mem r k w).1 hkw) hs hr
      · exact .edge ((h.mem r k v).1 hkw)
    · intro hr
      cases hr with
      | @edge _ _ k he => exact ⟨k, v, (h.mem r k v).2 he, Or.inr ⟨rfl, rfl⟩⟩
      | @cons _ w _ k p he hs hp =>
        have hkw := (h.mem r k w).2 he
        exact ⟨k, w, hkw, Or.inl ⟨p, v, (hin k w hkw p).2 ⟨hs, hp⟩, rfl, rfl⟩⟩

/-- **Every walk is listed once.** -/
theorem listing_nodup (h : Enumerates g children) {depth : ℕ} : ∀ {r : ν}
    {ts : List (List κ × ν)}, listing children g.stop depth r = some ts →
    (ts.map Prod.fst).Nodup := by
  induction depth with
  | zero => intro r ts hts; cases hts
  | succ depth ih =>
    intro r ts hts
    obtain ⟨below, hbelow, rfl⟩ := listing_succ hts
    rw [List.map_flatMap, List.nodup_flatMap]
    have hfst : ∀ e : κ × ν, ((below e).map (fun t => (e.1 :: t.1, t.2)) ++ [([e.1], e.2)]).map Prod.fst =
        ((below e).map Prod.fst).map (e.1 :: ·) ++ [[e.1]] := by
      intro e; simp [Function.comp_def]
    constructor
    · intro e he
      rw [hfst]
      rcases hbelow e he with ⟨-, hnil⟩ | ⟨-, hl⟩
      · simp [hnil]
      · refine List.Nodup.append ((ih hl).map (List.cons_injective)) (by simp) ?_
        rintro q hq hq'
        rw [List.mem_singleton.1 hq', List.mem_map] at hq
        obtain ⟨p, hp, heq⟩ := hq
        obtain ⟨⟨p', v⟩, ht, rfl⟩ := List.mem_map.1 hp
        exact ((mem_listing h hl).1 ht).ne_nil (List.cons.inj heq).2
    · -- the labels tell the walks apart
      refine List.Pairwise.imp ?_ (List.pairwise_map.1 (h.nodup r))
      intro e e' hne q hq hq'
      simp only [hfst, List.mem_append, List.mem_map, List.mem_singleton] at hq hq'
      have hhead : ∀ e : κ × ν, ((∃ a, (∃ a_1 ∈ below e, a_1.1 = a) ∧ e.1 :: a = q) ∨ q = [e.1]) →
          q.head? = some e.1 := by
        rintro e (⟨p, -, rfl⟩ | rfl) <;> rfl
      exact hne (Option.some.inj ((hhead e hq).symm.trans (hhead e' hq')))

/-- **The listing is there** if no walk is longer than the depth. -/
theorem listing_isSome (h : Enumerates g children) {d : ℕ} : ∀ {r : ν},
    (∀ q v, Reaches g r q v → q.length ≤ d) → ∀ depth > d, ∃ ts, listing children g.stop depth r = some ts := by
  induction d with
  | zero =>
    intro r hr depth hd
    obtain ⟨depth, rfl⟩ : ∃ m, depth = m + 1 := ⟨depth - 1, by omega⟩
    refine gather_of_some fun e he => ?_
    exact absurd (hr [e.1] e.2 (.edge ((h.mem r e.1 e.2).1 he))) (by simp)
  | succ d ih =>
    intro r hr depth hd
    obtain ⟨depth, rfl⟩ : ∃ m, depth = m + 1 := ⟨depth - 1, by omega⟩
    refine gather_of_some fun e he => ?_
    by_cases hs : g.stop e.2
    · exact ⟨_, by rw [if_pos hs, Option.map_some]⟩
    · obtain ⟨ts, hts⟩ := @ih e.2 (fun q v hq => by
        have := hr _ _ (.cons ((h.mem r e.1 e.2).1 he) hs hq)
        simpa using this) depth (by omega)
      exact ⟨_, by rw [if_neg hs, hts, Option.map_some]⟩

end Walk
