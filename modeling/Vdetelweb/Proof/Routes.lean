import Vdetelweb.Proof.TreeWalks
import Vdetelweb.Spec.Routes

/-!
# What the table of routes does

The tree of the routes is ordered by netmask, destination and metric (`agrees_rank`), so a search from its
end comes to the best route first (`route_find_spec`), and the table is a set of routes (`routes_refine`).
A link that was dropped is not used any more, until a caller gives it again (`routes_forget`).
-/

namespace Vdetelweb

open Trees PicoTree

/-- What the routes are ordered by. -/
def Route.rank (r : Route) : ℤ := (long_be r.netmask).toNat * 2 ^ 64 + r.dest.toNat * 2 ^ 32 + r.metric.toNat

namespace Routing

/-! ## Sets of routes -/

/-- **The best route** to an address: of those that lead to it, one with the greatest netmask, and of those
the one with the greatest metric. -/
structure Best (S : Set Route) (addr : Ip4) (r : Route) : Prop where
  mem : r ∈ S
  leads : leads addr r
  best : ∀ r' ∈ S, Routing.leads addr r' → (long_be r'.netmask).toNat < (long_be r.netmask).toNat ∨
    r'.netmask = r.netmask ∧ r'.dest = r.dest ∧ r'.metric.toNat ≤ r.metric.toNat

/-- What is found for an address. -/
inductive Finds (S : Set Route) (bcast : Option ℕ) : Ip4 → Option Route → Prop
  | bcast : Finds S bcast PICO_IP4_BCAST (some (default_bcast_route bcast))
  | best {addr : Ip4} {r : Route} : addr ≠ PICO_IP4_BCAST → Best S addr r → Finds S bcast addr (some r)
  | none {addr : Ip4} : addr ≠ PICO_IP4_BCAST → (∀ r ∈ S, ¬ leads addr r) → Finds S bcast addr none

/-- A set of routes, and the link for broadcasts. -/
structure Table where
  routes : Set Route
  bcast : Option ℕ

/-- What the link of a new route is. -/
inductive NewLink (T : Table) (gateway : Ip4) (link : Option ℕ) : Except RouteErr (Option ℕ) → Prop
  | own : gateway = 0 → NewLink T gateway link (.ok link)
  | unreachable : gateway ≠ 0 → Finds T.routes T.bcast gateway none → NewLink T gateway link (.error .PICO_ERR_EHOSTUNREACH)
  | far {r : Route} : gateway ≠ 0 → Finds T.routes T.bcast gateway (some r) → r.gateway ≠ 0 →
      NewLink T gateway link (.error .PICO_ERR_ENETUNREACH)
  | near {r : Route} : gateway ≠ 0 → Finds T.routes T.bcast gateway (some r) → r.gateway = 0 →
      NewLink T gateway link (.ok r.link)

/-- The route is what a call names. -/
def Named (address netmask : Ip4) (metric : BitVec 32) (r : Route) : Prop :=
  r.netmask = netmask ∧ r.dest = address ∧ r.metric = metric

/-- **What a call does to a set of routes.** If there is no memory for the node, the route is not added, and the
caller does not know it. -/
inductive Step (T : Table) : Call → Answer → Table → Prop
  | taken {zalloc node : Bool} {address netmask gateway : Ip4} {metric : BitVec 32} {link : Option ℕ}
      {r : Route} : r ∈ T.routes → Named address netmask metric r →
      Step T (.add zalloc node address netmask gateway metric link) (.code (.error .PICO_ERR_EINVAL)) T
  | noMemory {node : Bool} {address netmask gateway : Ip4} {metric : BitVec 32} {link : Option ℕ} :
      (∀ r ∈ T.routes, ¬ Named address netmask metric r) →
      Step T (.add false node address netmask gateway metric link) (.code (.error .PICO_ERR_ENOMEM)) T
  | refused {node : Bool} {address netmask gateway : Ip4} {metric : BitVec 32} {link : Option ℕ}
      {e : RouteErr} : (∀ r ∈ T.routes, ¬ Named address netmask metric r) →
      NewLink T gateway link (.error e) → Step T (.add true node address netmask gateway metric link) (.code (.error e)) T
  | noLink {node : Bool} {address netmask gateway : Ip4} {metric : BitVec 32} {link : Option ℕ} :
      (∀ r ∈ T.routes, ¬ Named address netmask metric r) → NewLink T gateway link (.ok none) →
      Step T (.add true node address netmask gateway metric link) (.code (.error .PICO_ERR_EINVAL)) T
  | added {address netmask gateway : Ip4} {metric : BitVec 32} {link : Option ℕ} {l : ℕ} :
      (∀ r ∈ T.routes, ¬ Named address netmask metric r) → NewLink T gateway link (.ok (some l)) →
      Step T (.add true true address netmask gateway metric link) (.code (.ok ()))
        { T with routes := T.routes ∪ {⟨address, netmask, gateway, some l, metric⟩} }
  | lost {address netmask gateway : Ip4} {metric : BitVec 32} {link : Option ℕ} {l : ℕ} :
      (∀ r ∈ T.routes, ¬ Named address netmask metric r) → NewLink T gateway link (.ok (some l)) →
      Step T (.add true false address netmask gateway metric link) (.code (.ok ())) T
  | deleted {address netmask : Ip4} {metric : BitVec 32} {r : Route} : r ∈ T.routes → Named address netmask metric r →
      Step T (.del address netmask metric) (.code (.ok ())) { T with routes := T.routes \ {r} }
  | notDeleted {address netmask : Ip4} {metric : BitVec 32} : (∀ r ∈ T.routes, ¬ Named address netmask metric r) →
      Step T (.del address netmask metric) (.code (.error .PICO_ERR_EINVAL)) T
  | found {addr : Ip4} {found : Option Route} : Finds T.routes T.bcast addr found → Step T (.find addr) (.route found) T
  | bcast {l : ℕ} : Step T (.setBcast l) .nothing { T with bcast := some l }
  | dropped {l : ℕ} : Step T (.dropLink l) .nothing
      ⟨{r ∈ T.routes | r.link ≠ some l}, if T.bcast = some l then none else T.bcast⟩
  | elsewhere {color : Color} : Step T (.elsewhere color) .nothing T

/-- Calls one after the other, on a set. -/
inductive Steps : Table → List Call → List Answer → Table → Prop
  | nil (T : Table) : Steps T [] [] T
  | cons {T T' T'' : Table} {c : Call} {cs : List Call} {a : Answer} {as : List Answer} :
      Step T c a T' → Steps T' cs as T'' → Steps T (c :: cs) (a :: as) T''

variable {s : Routing} {t : PicoTree Route} {W : Bin (TreeNode Route)} {E : List (ℕ × Route)} {S : Set Route} {addr : Ip4}
  {address netmask gateway : Ip4} {metric : BitVec 32} {r r' : Route} {link : Option ℕ} {l : ℕ} {T : Table}

/-! ## The order of the routes -/

theorem long_be_long_be (x : BitVec 32) : long_be (long_be x) = x := by
  unfold long_be
  ext i hi
  simp only [BitVec.getElem_append, BitVec.getElem_extractLsb', BitVec.getLsbD_append, BitVec.getLsbD_extractLsb']
  grind

theorem long_be_inj {x y : BitVec 32} (h : (long_be x).toNat = (long_be y).toNat) : x = y := by
  rw [← long_be_long_be x, BitVec.eq_of_toNat_eq h, long_be_long_be]

theorem compare_cases (a b : Ip4) : a.toNat < b.toNat ∧ pico_ipv4_compare a b = -1 ∨
    b.toNat < a.toNat ∧ pico_ipv4_compare a b = 1 ∨ a.toNat = b.toNat ∧ pico_ipv4_compare a b = 0 := by
  unfold pico_ipv4_compare
  split_ifs <;> omega

theorem route_compare_cases (a b : Route) : a.rank < b.rank ∧ ipv4_route_compare a b = -1 ∨
    b.rank < a.rank ∧ ipv4_route_compare a b = 1 ∨ a.rank = b.rank ∧ ipv4_route_compare a b = 0 := by
  have ha := a.dest.isLt
  have hb := b.dest.isLt
  have ha' := a.metric.isLt
  have hb' := b.metric.isLt
  unfold ipv4_route_compare Route.rank
  dsimp only
  rcases compare_cases a.dest b.dest with ⟨hdest, hcmp⟩ | ⟨hdest, hcmp⟩ | ⟨hdest, hcmp⟩
  · rw [hcmp]
    split_ifs <;> omega
  · rw [hcmp]
    split_ifs <;> omega
  · rw [hcmp]
    split_ifs <;> omega

/-- **The comparison** is that of the ranks. -/
theorem agrees_rank (U : Set Route) : PicoTree.Agrees ipv4_route_compare Route.rank U := by
  intro a _ b _
  rcases route_compare_cases a b with ⟨hrank, hcmp⟩ | ⟨hrank, hcmp⟩ | ⟨hrank, hcmp⟩
  · rw [hcmp]
    exact ⟨iff_of_true neg_one_lt_zero hrank, iff_of_false (by decide) hrank.ne⟩
  · rw [hcmp]
    exact ⟨iff_of_false (by decide) hrank.asymm, iff_of_false (by decide) hrank.ne'⟩
  · rw [hcmp]
    exact ⟨iff_of_false (lt_irrefl 0) hrank.not_lt, iff_of_true rfl hrank⟩

theorem rank_eq_iff : r.rank = r'.rank ↔ r.netmask = r'.netmask ∧ r.dest = r'.dest ∧ r.metric = r'.metric := by
  constructor
  · intro h
    have hd := r.dest.isLt
    have hd' := r'.dest.isLt
    have hm := r.metric.isLt
    have hm' := r'.metric.isLt
    unfold Route.rank at h
    exact ⟨long_be_inj (by omega), BitVec.eq_of_toNat_eq (by omega), BitVec.eq_of_toNat_eq (by omega)⟩
  · rintro ⟨hn, hd, hm⟩
    rw [Route.rank, Route.rank, hn, hd, hm]

theorem rank_lt (h : r.rank < r'.rank) : (long_be r.netmask).toNat < (long_be r'.netmask).toNat ∨
    r.netmask = r'.netmask ∧ (r.dest.toNat < r'.dest.toNat ∨ r.dest = r'.dest ∧ r.metric.toNat < r'.metric.toNat) := by
  have hd := r.dest.isLt
  have hd' := r'.dest.isLt
  have hm := r.metric.isLt
  have hm' := r'.metric.isLt
  unfold Route.rank at h
  by_cases hn : (long_be r.netmask).toNat = (long_be r'.netmask).toNat
  · refine Or.inr ⟨long_be_inj hn, ?_⟩
    by_cases hdest : r.dest = r'.dest
    · rw [hdest] at h
      exact Or.inr ⟨hdest, by omega⟩
    · have hne : r.dest.toNat ≠ r'.dest.toNat := fun he => hdest (BitVec.eq_of_toNat_eq he)
      exact Or.inl (by omega)
  · exact Or.inl (by omega)

/-! ## The tree of the routes -/

/-- The tree is that of the set. -/
def Stored (t : PicoTree Route) (S : Set Route) : Prop :=
  ∃ W E, Reached Route.rank Set.univ t W E ∧ contents E = S

/-- **The search for what a call names.** -/
theorem Stored.findKey (h : Stored t S) (address netmask : Ip4) (metric : BitVec 32) :
    (t.findKey ipv4_route_compare (test address netmask metric) = some none ∧ ∀ r ∈ S, ¬ Named address netmask metric r) ∨
    ∃ r ∈ S, t.findKey ipv4_route_compare (test address netmask metric) = some (some r) ∧
      Named address netmask metric r := by
  obtain ⟨W, E, hreached, rfl⟩ := h
  have hnamed : ∀ r, r.rank = (test address netmask metric).rank ↔ Named address netmask metric r := fun r => rank_eq_iff
  rcases hreached.findKey hreached.sorted (agrees_rank _) hreached.within (Set.mem_univ _) with ⟨hnone, hlacks⟩ |
    ⟨e, he, hfound, hrank⟩
  · refine Or.inl ⟨hnone, fun r hr hname => ?_⟩
    obtain ⟨e, he, rfl⟩ := mem_contents.1 hr
    exact hlacks e he ((hnamed e.2).2 hname)
  · exact Or.inr ⟨e.2, mem_contents.2 ⟨e, he, rfl⟩, hfound, (hnamed e.2).1 hrank⟩

theorem Stored.insert (h : Stored t S) (hS : ∀ r' ∈ S, r'.rank ≠ r.rank) (node : Bool) :
    ∃ a t', t.insert ipv4_route_compare node r = some (a, t') ∧ Stored t' (if node then S ∪ {r} else S) := by
  obtain ⟨W, E, hreached, rfl⟩ := h
  have hlacks : ∀ e ∈ E, e.2.rank ≠ r.rank := fun e he => hS e.2 (mem_contents.2 ⟨e, he, rfl⟩)
  rcases hreached.insert hreached.sorted (agrees_rank _) hreached.within (Set.mem_univ r) node with
    ⟨e, he, -, hrank⟩ | ⟨-, ⟨rfl, hinsert⟩ | ⟨rfl, t', W', E₁, E₂, hinsert, rfl, h', hsorted, -, -⟩⟩
  · exact absurd hrank (hlacks e he)
  · exact ⟨_, t, hinsert, W, E, hreached, rfl⟩
  · refine ⟨_, t', hinsert, W', _, ⟨h', hsorted, fun e _ => Set.mem_univ e.2⟩, ?_⟩
    rw [contents_insert]
    rfl

theorem Stored.delete (h : Stored t S) (hr : r ∈ S) :
    ∃ a t', t.delete ipv4_route_compare r = some (a, t') ∧ Stored t' (S \ {r}) := by
  obtain ⟨W, E, hreached, rfl⟩ := h
  obtain ⟨e, he, rfl⟩ := mem_contents.1 hr
  obtain ⟨E₁, E₂, rfl⟩ := List.append_of_mem he
  have hway : onWay .right (E₁ ++ e :: E₂) = E₁ ++ e :: E₂ := rfl
  obtain ⟨t', W', E', hdelete, h', hE', -⟩ := hreached.delete_entry (agrees_rank _) hway
  refine ⟨_, t', hdelete, W', E', h', ?_⟩
  rw [← hreached.sorted.contents_erase, ← hE']
  rfl

/-! ## The search for a route -/

/-- **The loop of `route_find`** comes to the first route on the way that leads to the address. -/
theorem findLoop_spec (h : Holds t W E) (addr : Ip4) {E₁ E₂ : List (ℕ × Route)} (hE : onWay .left E = E₁ ++ E₂) {turns : ℕ}
    (hturns : E₂.length < turns) :
    findLoop t addr turns (headAddr E₂) = some ((E₂.find? fun e => leads addr e.2).map Prod.snd) := by
  induction E₂ generalizing E₁ turns with
  | nil =>
    obtain ⟨turns, rfl⟩ : ∃ n, turns = n + 1 := ⟨turns - 1, by omega⟩
    exact if_pos rfl
  | cons e E₂ ih =>
    obtain ⟨turns, rfl⟩ : ∃ n, turns = n + 1 := ⟨turns - 1, by omega⟩
    obtain ⟨hstep, hne, n, hn, hk⟩ := h.stepNode hE
    have hpassed : onWay .left E = (E₁ ++ [e]) ++ E₂ := by
      rw [hE, List.append_assoc]
      rfl
    rw [List.length_cons] at hturns
    have hrest := ih hpassed (Nat.lt_of_succ_lt_succ hturns)
    have hprev : t.prevNode e.1 = some (headAddr E₂) := hstep
    have hhead : headAddr (e :: E₂) = e.1 := rfl
    rw [findLoop, hhead, if_neg hne, hn, Option.bind_eq_bind, Option.bind_some, hk, Option.bind_eq_bind, Option.bind_some,
      List.find?_cons]
    cases hleads : leads addr e.2 with
    | true => rfl
    | false =>
      rw [if_neg Bool.false_ne_true, hprev]
      exact hrest

/-- **`route_find`.** -/
theorem route_find_spec (h : Stored s.routes S) (addr : Ip4) :
    ∃ found, s.route_find addr = some found ∧ Finds S s.bcast addr found := by
  obtain ⟨W, E, hreached, rfl⟩ := h
  unfold route_find
  by_cases haddr : addr = PICO_IP4_BCAST
  · refine ⟨_, if_neg (not_not.2 haddr), ?_⟩
    rw [haddr]
    exact .bcast
  · have hturns : (onWay .left E).length < s.routes.next + 1 := by
      have := hreached.size_lt
      rw [hreached.size_eq] at this
      rw [length_onWay]
      omega
    have hstart : onWay .left E = [] ++ onWay .left E := rfl
    have hlast : s.routes.lastNode s.routes.root = some (headAddr (onWay .left E)) := hreached.lastNode
    have hloop := findLoop_spec hreached.toHolds addr hstart hturns
    refine ⟨_, by rw [if_pos haddr, hlast, Option.bind_eq_bind, Option.bind_some, hloop], ?_⟩
    cases hfound : (onWay .left E).find? fun e => leads addr e.2 with
    | none =>
      refine .none haddr fun r hr hleads => ?_
      obtain ⟨e, he, rfl⟩ := mem_contents.1 hr
      exact List.find?_eq_none.1 hfound e (mem_onWay.2 he) hleads
    | some e =>
      obtain ⟨hleads, A, B, hAB, hA⟩ := List.find?_eq_some_iff_append.1 hfound
      have hmem : e ∈ E := by
        rw [← mem_onWay (d := .left), hAB]
        exact List.mem_append_right _ List.mem_cons_self
      refine .best haddr ⟨mem_contents.2 ⟨e, hmem, rfl⟩, hleads, fun r' hr' hleads' => ?_⟩
      obtain ⟨e', he', rfl⟩ := mem_contents.1 hr'
      rw [← mem_onWay (d := .left), hAB] at he'
      rcases List.mem_append.1 he' with he' | he'
      · have hnot := hA e' he'
        rw [hleads'] at hnot
        cases hnot
      · rcases List.mem_cons.1 he' with rfl | he'
        · exact Or.inr ⟨rfl, rfl, le_rfl⟩
        · -- what comes later on the way is less
          have hsorted : (A ++ e :: B).Pairwise fun e e' => e'.2.rank < e.2.rank := by
            rw [← hAB]
            exact List.pairwise_reverse.2 hreached.sorted
          have hlt := List.rel_of_pairwise_cons (List.pairwise_append.1 hsorted).2.1 he'
          rcases rank_lt hlt with hnm | ⟨hnm, hdest⟩
          · exact Or.inl hnm
          · have hsame : e'.2.dest = e.2.dest := by
              have hd := of_decide_eq_true hleads
              have hd' := of_decide_eq_true hleads'
              rw [← hd, ← hd', hnm]
            refine Or.inr ⟨hnm, hsame, ?_⟩
            rcases hdest with hdest | ⟨-, hmetric⟩
            · rw [hsame] at hdest
              exact absurd hdest (lt_irrefl _)
            · exact hmetric.le

/-! ## Links that are dropped -/

/-- **`pico_ipv4_route_del`** of a route that is in the table. -/
theorem delete_route (h : Reached Route.rank Set.univ s.routes W E) {E₁ E₂ : List (ℕ × Route)} {e : ℕ × Route}
    (hE : E = E₁ ++ e :: E₂) : ∃ s' W', s.pico_ipv4_route_del e.2.dest e.2.netmask e.2.metric = some (.ok (), s') ∧
      Reached Route.rank Set.univ s'.routes W' (E₁ ++ E₂) ∧ s'.bcast = s.bcast := by
  have hway : onWay .right E = E₁ ++ e :: E₂ := hE
  obtain ⟨t', W', E', hdelete, h', hE', -⟩ := h.delete_entry (agrees_rank _) hway
  have hleft : E' = E₁ ++ E₂ := hE'
  have he : e ∈ E := by
    rw [hE]
    exact List.mem_append_right _ List.mem_cons_self
  have htest : (test e.2.dest e.2.netmask e.2.metric).rank = e.2.rank := rank_eq_iff.2 ⟨rfl, rfl, rfl⟩
  have hfind : s.routes.findKey ipv4_route_compare (test e.2.dest e.2.netmask e.2.metric) = some (some e.2) := by
    rcases h.findKey h.sorted (agrees_rank _) h.within (Set.mem_univ _) with ⟨-, hlacks⟩ | ⟨e', he', hfound, hrank⟩
    · exact absurd htest.symm (hlacks e he)
    · -- no other route has the rank
      rw [htest] at hrank
      obtain ⟨hE₁, hE₂, -⟩ := (hE ▸ h.sorted : Sorted Route.rank (E₁ ++ e :: E₂)).around
      rw [hE] at he'
      rcases List.mem_append.1 he' with he' | he'
      · exact absurd hrank (hE₁ e' he').ne
      · rcases List.mem_cons.1 he' with rfl | he'
        · exact hfound
        · exact absurd hrank (hE₂ e' he').ne'
  rw [hleft] at h'
  refine ⟨{ s with routes := t' }, W', ?_, h', rfl⟩
  simp only [pico_ipv4_route_del, hfind, hdelete, Option.bind_eq_bind, Option.bind_some]

/-- **The loop of `pico_ipv4_cleanup_routes`.** What was passed is `E₁`, and what is to come is `E₂`. -/
theorem cleanupLoop_spec (h : Reached Route.rank Set.univ s.routes W E) {E₁ E₂ : List (ℕ × Route)} (hE : E = E₁ ++ E₂)
    (l : ℕ) {turns : ℕ} (hturns : E₂.length < turns) : ∃ s' W', cleanupLoop l turns (headAddr E₂) s = some s' ∧
      Reached Route.rank Set.univ s'.routes W' (E₁ ++ E₂.filter fun e => e.2.link ≠ some l) ∧ s'.bcast = s.bcast := by
  induction E₂ generalizing s W E E₁ turns with
  | nil =>
    obtain ⟨turns, rfl⟩ : ∃ n, turns = n + 1 := ⟨turns - 1, by omega⟩
    rw [hE] at h
    exact ⟨s, W, if_pos rfl, h, rfl⟩
  | cons e E₂ ih =>
    obtain ⟨turns, rfl⟩ : ∃ n, turns = n + 1 := ⟨turns - 1, by omega⟩
    have hway : onWay .right E = E₁ ++ e :: E₂ := hE
    obtain ⟨hstep, hne, n, hn, hk⟩ := h.stepNode hway
    have hnext : s.routes.nextNode e.1 = some (headAddr E₂) := hstep
    have hhead : headAddr (e :: E₂) = e.1 := rfl
    rw [List.length_cons] at hturns
    rw [cleanupLoop, hhead, if_neg hne]
    by_cases hlink : e.2.link = some l
    · obtain ⟨s₁, W₁, hdelete, h₁, hbcast₁⟩ := delete_route h hE
      obtain ⟨s₂, W₂, hloop, h₂, hbcast₂⟩ := ih h₁ rfl (Nat.lt_of_succ_lt_succ hturns)
      refine ⟨s₂, W₂, ?_, ?_, hbcast₂.trans hbcast₁⟩
      · simp only [hnext, hn, hk, hlink, if_true, hdelete, hloop, Option.bind_eq_bind, Option.bind_some]
      · rw [List.filter_cons_of_neg (by simpa using hlink)]
        exact h₂
    · have hpassed : E = (E₁ ++ [e]) ++ E₂ := by
        rw [hE, List.append_assoc]
        rfl
      obtain ⟨s₂, W₂, hloop, h₂, hbcast₂⟩ := ih h hpassed (Nat.lt_of_succ_lt_succ hturns)
      refine ⟨s₂, W₂, ?_, ?_, hbcast₂⟩
      · simp only [hnext, hn, hk, if_neg hlink, hloop, Option.bind_eq_bind, Option.bind_some]
      · rw [List.filter_cons_of_pos (by simpa using hlink)]
        rw [List.append_assoc] at h₂
        exact h₂

/-- **The end of `pico_ipv4_link_del`.** -/
theorem dropLink_spec (h : Stored s.routes S) (l : ℕ) : ∃ s', s.dropLink l = some s' ∧
    Stored s'.routes {r ∈ S | r.link ≠ some l} ∧ s'.bcast = if s.bcast = some l then none else s.bcast := by
  obtain ⟨W, E, hreached, rfl⟩ := h
  have hturns : E.length < s.routes.next + 1 := by
    have := hreached.size_lt
    rw [hreached.size_eq] at this
    omega
  have hfirst : s.routes.firstNode s.routes.root = some (headAddr E) := hreached.firstNode
  obtain ⟨s', W', hloop, h', hbcast⟩ := cleanupLoop_spec hreached (List.nil_append E).symm l hturns
  have hstored : Stored s'.routes {r ∈ contents E | r.link ≠ some l} := by
    refine ⟨W', _, h', ?_⟩
    ext r
    rw [Set.mem_sep_iff, mem_contents, mem_contents]
    constructor
    · rintro ⟨e, he, rfl⟩
      obtain ⟨he, hlink⟩ := List.mem_filter.1 he
      exact ⟨⟨e, he, rfl⟩, of_decide_eq_true hlink⟩
    · rintro ⟨⟨e, he, rfl⟩, hlink⟩
      exact ⟨e, List.mem_filter.2 ⟨he, decide_eq_true hlink⟩, rfl⟩
  have hcleanup : s.pico_ipv4_cleanup_routes l = some s' := by
    rw [pico_ipv4_cleanup_routes, hfirst, Option.bind_eq_bind, Option.bind_some, hloop]
  unfold dropLink
  rw [hcleanup, Option.bind_eq_bind, Option.bind_some]
  by_cases hlink : s.bcast = some l
  · rw [if_pos hlink, if_pos (hbcast.trans hlink)]
    exact ⟨_, rfl, hstored, rfl⟩
  · rw [if_neg hlink, if_neg (fun he => hlink (hbcast.symm.trans he))]
    exact ⟨_, rfl, hstored, hbcast⟩

/-! ## Runs -/

/-- The routing is that of the table. -/
structure Refines (s : Routing) (T : Table) : Prop where
  stored : Stored s.routes T.routes
  bcast : s.bcast = T.bcast

/-- **The link of a new route.** -/
theorem newLink_spec (h : Refines s T) (gateway : Ip4) (link : Option ℕ) :
    ∃ r, s.newLink gateway link = some r ∧ NewLink T gateway link r := by
  unfold newLink
  by_cases hgateway : gateway = 0
  · rw [if_pos hgateway]
    exact ⟨_, rfl, .own hgateway⟩
  · obtain ⟨found, hfind, hfound⟩ := route_find_spec h.stored gateway
    rw [h.bcast] at hfound
    rw [if_neg hgateway, hfind, Option.bind_eq_bind, Option.bind_some]
    cases found with
    | none => exact ⟨_, rfl, .unreachable hgateway hfound⟩
    | some r =>
      by_cases hfar : r.gateway = 0
      · exact ⟨_, congrArg some (if_neg (not_not.2 hfar)), .near hgateway hfound hfar⟩
      · exact ⟨_, congrArg some (if_pos hfar), .far hgateway hfound hfar⟩

/-- **`pico_ipv4_route_add`.** -/
theorem add_spec (h : Refines s T) (zalloc node : Bool) (address netmask gateway : Ip4) (metric : BitVec 32)
    (link : Option ℕ) : ∃ a s' T', s.pico_ipv4_route_add zalloc node address netmask gateway metric link = some (a, s') ∧
      Step T (.add zalloc node address netmask gateway metric link) (.code a) T' ∧ Refines s' T' := by
  unfold pico_ipv4_route_add
  rcases h.stored.findKey address netmask metric with ⟨hnone, hfree⟩ | ⟨r, hr, hfound, hname⟩
  · rw [hnone, Option.bind_eq_bind, Option.bind_some]
    cases zalloc with
    | false => exact ⟨_, s, T, rfl, .noMemory hfree, h⟩
    | true =>
      obtain ⟨new, hnew, hlink⟩ := newLink_spec h gateway link
      dsimp only
      rw [if_pos rfl, hnew, Option.bind_eq_bind, Option.bind_some]
      match new, hlink with
      | .error e, hlink => exact ⟨_, s, T, rfl, .refused hfree hlink, h⟩
      | .ok none, hlink => exact ⟨_, s, T, rfl, .noLink hfree hlink, h⟩
      | .ok (some l), hlink =>
        have hranks : ∀ r' ∈ T.routes, r'.rank ≠ (Route.mk address netmask gateway (some l) metric).rank :=
          fun r' hr' hrank => hfree r' hr' (rank_eq_iff.1 hrank)
        obtain ⟨a, t', hinsert, h'⟩ := h.stored.insert hranks node
        dsimp only
        rw [hinsert, Option.bind_eq_bind, Option.bind_some]
        cases node with
        | false => exact ⟨_, _, T, rfl, .lost hfree hlink, h', h.bcast⟩
        | true => exact ⟨_, _, _, rfl, .added hfree hlink, h', h.bcast⟩
  · rw [hfound]
    exact ⟨_, s, T, rfl, .taken hr hname, h⟩

/-- **`pico_ipv4_route_del`.** -/
theorem del_spec (h : Refines s T) (address netmask : Ip4) (metric : BitVec 32) : ∃ a s' T',
    s.pico_ipv4_route_del address netmask metric = some (a, s') ∧ Step T (.del address netmask metric) (.code a) T' ∧
      Refines s' T' := by
  unfold pico_ipv4_route_del
  rcases h.stored.findKey address netmask metric with ⟨hnone, hfree⟩ | ⟨r, hr, hfound, hname⟩
  · rw [hnone]
    exact ⟨_, s, T, rfl, .notDeleted hfree, h⟩
  · obtain ⟨a, t', hdelete, h'⟩ := h.stored.delete hr
    rw [hfound, Option.bind_eq_bind, Option.bind_some]
    dsimp only
    rw [hdelete]
    exact ⟨_, _, _, rfl, .deleted hr hname, h', h.bcast⟩

/-- `LEAF` is painted by another tree. -/
theorem Stored.elsewhere (h : Stored t S) (color : Color) : ∃ t', t.setColor LEAF color = some t' ∧ Stored t' S := by
  obtain ⟨W, E, hreached, hE⟩ := h
  obtain ⟨t', hset, h', -⟩ := hreached.elsewhere color
  exact ⟨t', hset, W, E, ⟨h', hreached.sorted, hreached.within⟩, hE⟩

/-- **A call is that of a set of routes.** -/
theorem call_spec (h : Refines s T) (c : Call) :
    ∃ a s' T', s.call c = some (a, s') ∧ Step T c a T' ∧ Refines s' T' := by
  cases c with
  | add zalloc node address netmask gateway metric link =>
    obtain ⟨a, s', T', hadd, hstep, h'⟩ := add_spec h zalloc node address netmask gateway metric link
    exact ⟨_, s', T', by rw [call, hadd]; rfl, hstep, h'⟩
  | del address netmask metric =>
    obtain ⟨a, s', T', hdel, hstep, h'⟩ := del_spec h address netmask metric
    exact ⟨_, s', T', by rw [call, hdel]; rfl, hstep, h'⟩
  | find addr =>
    obtain ⟨found, hfind, hfound⟩ := route_find_spec h.stored addr
    rw [h.bcast] at hfound
    exact ⟨_, s, T, by rw [call, hfind]; rfl, .found hfound, h⟩
  | setBcast l => exact ⟨_, _, _, rfl, .bcast, h.stored, rfl⟩
  | dropLink l =>
    obtain ⟨s', hdrop, h', hbcast⟩ := dropLink_spec h.stored l
    refine ⟨_, s', _, by rw [call, hdrop]; rfl, .dropped, h', ?_⟩
    rw [hbcast, h.bcast]
  | elsewhere color =>
    obtain ⟨t', hset, h'⟩ := h.stored.elsewhere color
    exact ⟨_, { s with routes := t' }, T, by rw [call, hset]; rfl, .elsewhere, h', h.bcast⟩

/-- **So is a run.** -/
theorem run_spec (cs : List Call) (h : Refines s T) :
    ∃ as s' T', run s cs = some (as, s') ∧ Steps T cs as T' ∧ Refines s' T' := by
  induction cs generalizing s T with
  | nil => exact ⟨[], s, T, rfl, .nil T, h⟩
  | cons c cs ih =>
    obtain ⟨a, s₁, T₁, hcall, hstep, h₁⟩ := call_spec h c
    obtain ⟨as, s₂, T₂, hrun, hsteps, h₂⟩ := ih h₁
    refine ⟨a :: as, s₂, T₂, ?_, .cons hstep hsteps, h₂⟩
    simp only [run, hcall, hrun, Option.bind_eq_bind, Option.bind_some]

theorem refines_init (color : Color) : Refines (init color) ⟨∅, none⟩ :=
  ⟨⟨.leaf, [], reached_empty _ _ color, contents_nil⟩, rfl⟩

/-- **The table of routes is a set of routes**, in any run and whichever allocations fail; a search finds the
best route of the set, and there is a node in memory for each route. -/
theorem routes_refine (cs : List Call) (color : Color) :
    ∃ answers s T, run (init color) cs = some (answers, s) ∧ Steps ⟨∅, none⟩ cs answers T ∧ T.routes.Finite ∧
      s.bcast = T.bcast ∧ {a | (s.routes.node a).isSome}.ncard = T.routes.ncard + 1 := by
  obtain ⟨answers, s, T, hrun, hsteps, ⟨W, E, h, hE⟩, hbcast⟩ := run_spec cs (refines_init color)
  obtain ⟨hfinite, hncard⟩ := h.sorted.ncard
  rw [hE] at hfinite hncard
  exact ⟨answers, s, T, hrun, hsteps, hfinite, hbcast, by rw [h.ncard_live, hncard]⟩

/-! ## Longest prefixes -/

/-- The netmask of a route is that of a prefix. -/
def PrefixLen (r : Route) (n : ℕ) : Prop := n ≤ 32 ∧ (long_be r.netmask).toNat = 2 ^ 32 - 2 ^ (32 - n)

/-- A longer prefix has a greater netmask. -/
theorem PrefixLen.le {n n' : ℕ} (h : PrefixLen r n) (h' : PrefixLen r' n')
    (hle : (long_be r'.netmask).toNat ≤ (long_be r.netmask).toNat) : n' ≤ n := by
  by_contra hlt
  have hpow : 2 ^ (32 - n') < 2 ^ (32 - n) := by
    have := h'.1
    exact Nat.pow_lt_pow_right Nat.one_lt_two (by omega)
  have hbound : 2 ^ (32 - n) ≤ 2 ^ 32 := Nat.pow_le_pow_right Nat.two_pos (Nat.sub_le 32 n)
  rw [h.2, h'.2] at hle
  omega

/-- The call adds no route whose netmask is not that of a prefix. -/
def Call.Contiguous : Call → Prop
  | .add _ _ _ netmask _ _ _ => ∃ n, n ≤ 32 ∧ (long_be netmask).toNat = 2 ^ 32 - 2 ^ (32 - n)
  | _ => True

theorem Step.contiguous {T' : Table} {c : Call} {a : Answer} (h : Step T c a T') (hc : c.Contiguous)
    (hT : ∀ r ∈ T.routes, ∃ n, PrefixLen r n) : ∀ r ∈ T'.routes, ∃ n, PrefixLen r n := by
  cases h with
  | added hfree hlink =>
    intro r hr
    rcases hr with hr | hr
    · exact hT r hr
    · rw [Set.mem_singleton_iff.1 hr]
      exact hc
  | deleted hr hname => exact fun r hr => hT r hr.1
  | dropped => exact fun r hr => hT r hr.1
  | _ => exact hT

theorem Steps.contiguous {T' : Table} {cs : List Call} {as : List Answer} (h : Steps T cs as T') (hcs : ∀ c ∈ cs, c.Contiguous)
    (hT : ∀ r ∈ T.routes, ∃ n, PrefixLen r n) : ∀ r ∈ T'.routes, ∃ n, PrefixLen r n := by
  induction h with
  | nil T => exact hT
  | cons hstep _ ih =>
    rw [List.forall_mem_cons] at hcs
    exact ih hcs.2 (hstep.contiguous hcs.1 hT)

/-- **Longest prefixes win.** After any run, of the routes that lead to an address the one with the longest prefix
is found, and of those with equal prefixes the one with the greatest metric. -/
theorem routes_longest (cs : List Call) (hcs : ∀ c ∈ cs, c.Contiguous) (color : Color) :
    ∃ answers s T, run (init color) cs = some (answers, s) ∧ Steps ⟨∅, none⟩ cs answers T ∧ ∀ addr, addr ≠ PICO_IP4_BCAST →
      (s.route_find addr = some none ∧ ∀ r ∈ T.routes, ¬ leads addr r) ∨
      ∃ r n, s.route_find addr = some (some r) ∧ r ∈ T.routes ∧ leads addr r ∧ PrefixLen r n ∧
        ∀ r' ∈ T.routes, leads addr r' → ∃ n', PrefixLen r' n' ∧ n' ≤ n ∧
          (r'.netmask = r.netmask → r'.metric.toNat ≤ r.metric.toNat) := by
  obtain ⟨answers, s, T, hrun, hsteps, h⟩ := run_spec cs (refines_init color)
  have hprefix := hsteps.contiguous hcs fun r hr => absurd hr (Set.notMem_empty r)
  refine ⟨answers, s, T, hrun, hsteps, fun addr haddr => ?_⟩
  obtain ⟨found, hfind, hfound⟩ := route_find_spec h.stored addr
  cases hfound with
  | bcast => exact absurd rfl haddr
  | none _ hnone => exact Or.inl ⟨hfind, hnone⟩
  | @best _ r _ hbest =>
    right
    obtain ⟨n, hn⟩ := hprefix r hbest.mem
    refine ⟨r, n, hfind, hbest.mem, hbest.leads, hn, fun r' hr' hleads => ?_⟩
    obtain ⟨n', hn'⟩ := hprefix r' hr'
    rcases hbest.best r' hr' hleads with hlt | ⟨hnm, -, hmetric⟩
    · refine ⟨n', hn', hn.le hn' hlt.le, fun hnm => ?_⟩
      rw [hnm] at hlt
      exact absurd hlt (lt_irrefl _)
    · exact ⟨n', hn', hn.le hn' (by rw [hnm]), fun _ => hmetric⟩

/-- 10.0.0.0/8, and the default route. -/
theorem routes_longest_two : ∃ answers s T,
    run (init .BLACK) [.add true true 0 0 0 1 (some 7), .add true true 10 255 0 1 (some 8)] = some (answers, s) ∧
      Steps ⟨∅, none⟩ [.add true true 0 0 0 1 (some 7), .add true true 10 255 0 1 (some 8)] answers T ∧
      ∀ addr, addr ≠ PICO_IP4_BCAST →
        (s.route_find addr = some none ∧ ∀ r ∈ T.routes, ¬ leads addr r) ∨
        ∃ r n, s.route_find addr = some (some r) ∧ r ∈ T.routes ∧ leads addr r ∧ PrefixLen r n ∧
          ∀ r' ∈ T.routes, leads addr r' → ∃ n', PrefixLen r' n' ∧ n' ≤ n ∧
            (r'.netmask = r.netmask → r'.metric.toNat ≤ r.metric.toNat) := by
  refine routes_longest _ (fun c hc => ?_) .BLACK
  rcases List.mem_cons.1 hc with rfl | hc
  · exact ⟨0, by decide, by decide⟩
  · rw [List.mem_singleton.1 hc]
    exact ⟨8, by decide, by decide⟩

/-! ## Links that are not used any more -/

/-- The link that a call is given. -/
def Call.given : Call → Option ℕ
  | .add _ _ _ _ _ _ link => link
  | .setBcast link => some link
  | _ => none

/-- The link is nowhere in the table. -/
def Free (l : ℕ) (T : Table) : Prop := (∀ r ∈ T.routes, r.link ≠ some l) ∧ T.bcast ≠ some l

theorem Finds.free (hT : Free l T) (h : Finds T.routes T.bcast addr (some r)) : r.link ≠ some l := by
  cases h with
  | bcast => exact hT.2
  | best _ hbest => exact hT.1 r hbest.mem

theorem NewLink.free (hT : Free l T) (hlink : link ≠ some l) {new : Option ℕ} (h : NewLink T gateway link (.ok new)) :
    new ≠ some l := by
  cases h with
  | own => exact hlink
  | near _ hfound _ => exact hfound.free hT

/-- **A step keeps it out**, unless it is given it. -/
theorem Step.free {T' : Table} {c : Call} {a : Answer} (hT : Free l T) (hc : c.given ≠ some l) (h : Step T c a T') :
    Free l T' ∧ ∀ r, a = .route (some r) → r.link ≠ some l := by
  have hcode : ∀ e r, Answer.code e = .route (some r) → r.link ≠ some l := fun e r he => by cases he
  cases h with
  | added hfree hlink =>
    refine ⟨⟨fun r hr => ?_, hT.2⟩, hcode _⟩
    rcases hr with hr | hr
    · exact hT.1 r hr
    · rw [Set.mem_singleton_iff.1 hr]
      exact hlink.free hT hc
  | deleted hr hname => exact ⟨⟨fun r hr => hT.1 r hr.1, hT.2⟩, hcode _⟩
  | found hfound =>
    refine ⟨hT, fun r he => ?_⟩
    cases he
    exact hfound.free hT
  | bcast => exact ⟨⟨hT.1, hc⟩, fun r he => by cases he⟩
  | elsewhere => exact ⟨hT, fun r he => by cases he⟩
  | dropped =>
    refine ⟨⟨fun r hr => hT.1 r hr.1, ?_⟩, fun r he => by cases he⟩
    dsimp only
    split
    · exact fun he => by cases he
    · exact hT.2
  | _ => exact ⟨hT, hcode _⟩

theorem Steps.free {T' : Table} {cs : List Call} {as : List Answer} (h : Steps T cs as T') (hT : Free l T)
    (hcs : ∀ c ∈ cs, c.given ≠ some l) : ∀ r, .route (some r) ∈ as → r.link ≠ some l := by
  induction h with
  | nil T => exact fun r hr => absurd hr List.not_mem_nil
  | cons hstep _ ih =>
    rw [List.forall_mem_cons] at hcs
    obtain ⟨hT', ha⟩ := hstep.free hT hcs.1
    intro r hr
    rcases List.mem_cons.1 hr with hr | hr
    · exact ha r hr.symm
    · exact ih hT' hcs.2 r hr

theorem Steps.length {T' : Table} {cs : List Call} {as : List Answer} (h : Steps T cs as T') : as.length = cs.length := by
  induction h with
  | nil T => rfl
  | cons _ _ ih => rw [List.length_cons, List.length_cons, ih]

theorem run_append {s' : Routing} {cs : List Call} {as : List Answer} (h : run s cs = some (as, s')) (cs' : List Call) :
    run s (cs ++ cs') = (run s' cs').map fun r => (as ++ r.1, r.2) := by
  induction cs generalizing s as with
  | nil =>
    obtain ⟨rfl, rfl⟩ := Prod.mk.inj (Option.some.inj h)
    exact Option.map_id'.symm
  | cons c cs ih =>
    rw [run, Option.bind_eq_bind, Option.bind_eq_some_iff] at h
    obtain ⟨⟨a, s₁⟩, hcall, h⟩ := h
    rw [Option.bind_eq_bind, Option.bind_eq_some_iff] at h
    obtain ⟨⟨as₁, s₂⟩, hrun, he⟩ := h
    obtain ⟨rfl, rfl⟩ := Prod.mk.inj (Option.some.inj he)
    rw [List.cons_append, run, hcall, Option.bind_eq_bind, Option.bind_some]
    dsimp only
    rw [ih hrun]
    cases run s₂ cs' <;> rfl

/-- **A link that was dropped is not used any more**: whatever was called before, no search finds a route with it,
as long as no call is given it. -/
theorem routes_forget (cs cs' : List Call) (l : ℕ) (hcs' : ∀ c ∈ cs', c.given ≠ some l) (color : Color) :
    ∃ as as' s, run (init color) (cs ++ .dropLink l :: cs') = some (as ++ .nothing :: as', s) ∧ as.length = cs.length ∧
      ∀ r, .route (some r) ∈ as' → r.link ≠ some l := by
  obtain ⟨as, s₁, T₁, hrun, hsteps, h₁⟩ := run_spec cs (refines_init color)
  obtain ⟨a, s₂, T₂, hcall, hstep, h₂⟩ := call_spec h₁ (.dropLink l)
  obtain ⟨as', s₃, T₃, hrun', hsteps', -⟩ := run_spec cs' h₂
  have hfree : a = .nothing ∧ Free l T₂ := by
    cases hstep with
    | dropped =>
      refine ⟨rfl, fun r hr => hr.2, ?_⟩
      dsimp only
      by_cases hbcast : T₁.bcast = some l
      · rw [if_pos hbcast]
        exact fun he => by cases he
      · rw [if_neg hbcast]
        exact hbcast
  obtain ⟨rfl, hfree⟩ := hfree
  refine ⟨as, as', s₃, ?_, hsteps.length, hsteps'.free hfree hcs'⟩
  rw [run_append hrun]
  simp only [run, hcall, hrun', Option.bind_eq_bind, Option.bind_some, Option.map_some]

theorem routes_forget_default : ∃ as as' s,
    run (init .BLACK) ([.add true true 0 0 0 1 (some 7)] ++ .dropLink 7 :: [.find 1]) = some (as ++ .nothing :: as', s) ∧
      as.length = [Call.add true true 0 0 0 1 (some 7)].length ∧ ∀ r, .route (some r) ∈ as' → r.link ≠ some 7 := by
  refine routes_forget _ _ 7 (fun c hc => ?_) .BLACK
  rw [List.mem_singleton.1 hc]
  exact fun he => by cases he

end Routing

end Vdetelweb
