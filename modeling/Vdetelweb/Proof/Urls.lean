import Vdetelweb.Proof.Tree
import Vdetelweb.Spec.Web

/-!
# The rules of the commands

`create_commands_urls` makes three rules for each walk in the graph of the dictionaries, or
two if it does not end at a stop (`createCommandsUrls_eq`). So a command has its rule for
POST when its path is not blocked on its way, and every command has one exactly when no
path is in the way of another (`exposed_iff`).
-/

namespace Vdetelweb

open Walk

variable {n : ℕ}

/-! ## What is recorded -/

/-- The nodes, with a slash before each. -/
def urlPath (q : List Bytes) : Bytes := q.flatMap ('/' :: ·)

/-- Is it the view of a page, a form or a menu? -/
def Handler.isPage : Handler → Bool
  | .cmdsForm _ _ => true
  | _ => false

/-- Is it the view of a resource? -/
def Handler.isResource : Handler → Bool
  | .cmdsApi _ _ => true
  | _ => false

/-- What the rules are registered under that pass requests with this method to such views. -/
def rulesFor (method : Method) (handler : Handler → Bool) (rules : List Rule) : List Bytes :=
  (rules.filter fun r => r.takes method && handler r.handler).map Rule.rule

/-- **The rules are those of the records**: one for each POST, with a view that sends the
command of the record and reads its arguments, and no other for POST; and a page and a
resource for every beginning of its path. -/
structure Exposes (cmds : List Record) (h : Heap) (rules : List Rule) : Prop where
  posts : (rulesFor .post (fun _ => true) rules).Perm (cmds.map fun i => "/api/".toList ++ i.cmd)
  own : ∀ i ∈ cmds, ∀ r ∈ rules, r.takes .post = true → r.rule = "/api/".toList ++ i.cmd →
    ∃ v, r.handler = .sendCommand v ∧ h.get v "cmd".toList = some (.str i.cmd) ∧
      h.get v "args".toList = some (.list i.args)
  pages : ∀ i ∈ cmds, ∀ q, q ≠ [] → q <+: i.nodes →
    (rulesFor .get Handler.isPage rules).count (urlPath q) = 1
  resources : ∀ i ∈ cmds, ∀ q, q ≠ [] → q <+: i.nodes →
    (rulesFor .get Handler.isResource rules).count ("/api".toList ++ urlPath q) = 1

/-- The records that `commands_tree` finds. -/
def Finds (m : Vde2Mgmt n) (cmds : List Record) : Prop :=
  if m.HELP_COMMANDS = [] then
    ∃ help_list m', Vde2Mgmt.listCommands m = (.ret help_list, m') ∧ m'.HELP_COMMANDS = cmds
  else m.HELP_COMMANDS = cmds

/-- The rules of the records are registered, if Python lets `create_commands_urls` recurse
deep enough. -/
def Exposed (m : Vde2Mgmt n) (help_list cmds : List Record) : Prop :=
  ∃ d, ∀ depth ≥ d, ∃ site rules m', webUrls depth help_list m = (.ret (site, rules), m') ∧
    Exposes cmds site.heap rules

/-- So does `web` itself, once the first `list_commands` has returned. -/
theorem web_apply {m m' : Vde2Mgmt n} {help_list : List Record}
    (h : Vde2Mgmt.listCommands m = (.ret help_list, m')) (depth : ℕ) :
    web depth m = webUrls depth help_list m' := by
  rw [web, Act.bind_apply, h]

/-! ## Paths -/

theorem urlPath_cons (k : Bytes) (q : List Bytes) : urlPath (k :: q) = '/' :: k ++ urlPath q := rfl

theorem urlPath_eq (q : List Bytes) : ['/'].intercalate ([] :: q) = urlPath q := by
  have htail : ∀ (k : Bytes) (q : List Bytes), ['/'].intercalate (k :: q) = k ++ urlPath q := by
    intro k q
    induction q generalizing k with
    | nil => simp [urlPath]
    | cons k' q ih => rw [List.intercalate_cons_cons, ih, urlPath_cons]; simp
  exact htail [] q

theorem urlPath_nodes (i : Record) : urlPath i.nodes = '/' :: i.cmd := by
  rw [← urlPath_eq, List.intercalate_cons_of_ne_nil i.nodes_ne_nil, i.cmd_eq]
  rfl

/-- **The path tells the nodes**, if there is no slash in them. -/
theorem urlPath_inj {p q : List Bytes} (hp : ∀ k ∈ p, '/' ∉ k) (hq : ∀ k ∈ q, '/' ∉ k)
    (h : urlPath p = urlPath q) : p = q := by
  have hsplit : ∀ {q : List Bytes}, (∀ k ∈ q, '/' ∉ k) → (urlPath q).splitOn '/' = [] :: q := by
    intro q hq
    rw [← urlPath_eq]
    exact List.splitOn_intercalate '/' (by simpa using hq) (by simp)
  exact (List.cons.inj ((hsplit hp).symm.trans ((congrArg _ h).trans (hsplit hq)))).2

/-! ## The rules and the walks -/

namespace Heap

/-- The entries that are dictionaries. -/
def children (h : Heap) (r : Ref) : List (Bytes × Ref) :=
  (h.dict r).entries.filterMap fun e => match e.2 with
    | .dict v => some (e.1, v)
    | _ => none

instance (h : Heap) : DecidablePred h.graph.stop := inferInstanceAs (DecidablePred h.isLeaf)

theorem enumerates (h : Heap) : Enumerates h.graph h.children where
  nodup r := by
    have hsub : ((h.children r).map Prod.fst).Sublist (h.dict r).keys := by
      unfold children AList.keys List.keys
      rw [List.map_filterMap]
      generalize (h.dict r).entries = es
      induction es with
      | nil => exact .slnil
      | cons e es ih =>
        obtain ⟨k, v⟩ := e
        cases v with
        | dict _ => exact ih.cons_cons _
        | int _ => exact ih.cons _
        | str _ => exact ih.cons _
        | list _ => exact ih.cons _
    exact hsub.nodup (AList.keys_nodup _)
  mem r k v := by
    rw [show h.graph.edge r k = some v ↔ _ from edge_eq_some, get, ← Option.mem_def,
      AList.mem_lookup_iff, children, List.mem_filterMap]
    constructor
    · rintro ⟨⟨k', w⟩, he, hw⟩
      cases w with
      | dict _ => cases hw; exact he
      | int _ => cases hw
      | str _ => cases hw
      | list _ => cases hw
    · exact fun he => ⟨_, he, rfl⟩

end Heap

/-- The rules for one walk, that ends at `v`. -/
def rulesAt (h : Heap) (path : Bytes) (t : List Bytes × Ref) : List Rule :=
  (if h.isLeaf t.2 then [postRule (path ++ urlPath t.1) t.2] else []) ++
    [pageRule (path ++ urlPath t.1) (t.1.getLastD []) t.2,
      apiRule (path ++ urlPath t.1) (t.1.getLastD []) t.2]

/-- The rules below a dictionary, and those for the walk to it. -/
theorem rulesAt_below (h : Heap) (path k : Bytes) (v : Ref) {below : List (List Bytes × Ref)}
    (hne : ∀ t ∈ below, t.1 ≠ []) :
    (below.map (fun t => (k :: t.1, t.2)) ++ [([k], v)]).flatMap (rulesAt h path) =
      below.flatMap (rulesAt h (path ++ '/' :: k)) ++ rulesAt h path ([k], v) := by
  rw [List.flatMap_append, List.flatMap_map, List.flatMap_singleton]
  congr 1
  refine List.flatMap_congr fun t ht => ?_
  obtain ⟨q, w⟩ := t
  obtain ⟨k', q, rfl⟩ := List.exists_cons_of_ne_nil (hne _ ht)
  simp [rulesAt, urlPath_cons]

/-- **The rules are those for all walks.** -/
theorem createCommandsUrls_eq (h : Heap) : ∀ (depth : ℕ) (r : Ref) (path : Bytes),
    createCommandsUrls h depth r path =
      (listing h.children h.graph.stop depth r).map (List.flatMap (rulesAt h path)) := by
  intro depth
  induction depth with
  | zero => intro r path; rfl
  | succ depth ih =>
    intro r path
    rw [listing, ← gather_flatMap, List.map_map]
    have hentry : createCommandsUrls h (depth + 1) r path = gather ((h.children r).map fun e => do
        let rules ← if h.isLeaf e.2 then pure [postRule (path ++ '/' :: e.1) e.2]
          else createCommandsUrls h depth e.2 (path ++ '/' :: e.1)
        return rules ++ [pageRule (path ++ '/' :: e.1) e.1 e.2, apiRule (path ++ '/' :: e.1) e.1 e.2]) := by
      rw [Heap.children, ← gather_filterMap]
      refine congrArg gather (List.map_congr_left fun e _ => ?_)
      obtain ⟨k, v⟩ := e
      cases v <;> rfl
    rw [hentry]
    refine congrArg gather (List.map_congr_left fun e _ => ?_)
    obtain ⟨k, v⟩ := e
    by_cases hl : h.isLeaf v
    · have hs : h.graph.stop v := hl
      simp [hl, hs, rulesAt, urlPath]
    · have hs : ¬ h.graph.stop v := hl
      simp only [if_neg hl, if_neg hs, ih, Function.comp_apply]
      cases hlist : listing h.children h.graph.stop depth v with
      | none => rfl
      | some below =>
        have hne : ∀ t ∈ below, t.1 ≠ [] := fun t ht =>
          ((mem_listing h.enumerates hlist).1 ht).ne_nil
        simp only [Option.map_some, rulesAt_below h path k v hne]
        simp [rulesAt, hl, urlPath]

/-! ## What they are registered under -/

theorem rulesFor_append (method : Method) (handler : Handler → Bool) (rs rs' : List Rule) :
    rulesFor method handler (rs ++ rs') = rulesFor method handler rs ++ rulesFor method handler rs' := by
  simp [rulesFor]

theorem rulesFor_flatMap (method : Method) (handler : Handler → Bool) {α : Type} (f : α → List Rule)
    (ts : List α) : rulesFor method handler (ts.flatMap f) =
      ts.flatMap fun t => rulesFor method handler (f t) := by
  simp [rulesFor, List.filter_flatMap, List.map_flatMap]

variable (h : Heap) (ts : List (List Bytes × Ref))

/-- One path for each walk that has such a rule, if no fixed page has one. -/
theorem rulesFor_walks {method : Method} {handler : Handler → Bool} {p : List Bytes × Ref → Bool}
    {f : List Bytes × Ref → Bytes} (hfix : rulesFor method handler fixedRules = [])
    (hat : ∀ t, rulesFor method handler (rulesAt h [] t) = if p t then [f t] else []) :
    rulesFor method handler (fixedRules ++ ts.flatMap (rulesAt h [])) = (ts.filter p).map f := by
  rw [rulesFor_append, hfix, List.nil_append, rulesFor_flatMap]
  induction ts with
  | nil => rfl
  | cons t ts ih =>
    rw [List.flatMap_cons, ih, hat]
    by_cases ht : p t = true <;> simp [ht]

theorem posts_eq : rulesFor .post (fun _ => true) (fixedRules ++ ts.flatMap (rulesAt h [])) =
    (ts.filter fun t => h.isLeaf t.2).map fun t => "/api".toList ++ urlPath t.1 := by
  refine rulesFor_walks h ts rfl fun t => ?_
  by_cases hl : h.isLeaf t.2 <;> simp [rulesFor, rulesAt, hl, Rule.takes, postRule, pageRule, apiRule]

theorem pages_eq : rulesFor .get Handler.isPage (fixedRules ++ ts.flatMap (rulesAt h [])) =
    ts.map fun t => urlPath t.1 := by
  rw [rulesFor_walks h ts (p := fun _ => true) (f := fun t => urlPath t.1) rfl fun t => ?_,
    List.filter_true]
  by_cases hl : h.isLeaf t.2 <;>
    simp [rulesFor, rulesAt, hl, Rule.takes, postRule, pageRule, apiRule, Handler.isPage]

theorem resources_eq : rulesFor .get Handler.isResource (fixedRules ++ ts.flatMap (rulesAt h [])) =
    ts.map fun t => "/api".toList ++ urlPath t.1 := by
  rw [rulesFor_walks h ts (p := fun _ => true) (f := fun t => "/api".toList ++ urlPath t.1) rfl
    fun t => ?_, List.filter_true]
  by_cases hl : h.isLeaf t.2 <;>
    simp [rulesFor, rulesAt, hl, Rule.takes, postRule, pageRule, apiRule, Handler.isResource]

/-! ## Which walks there must be -/

variable {cmds : List Record} {h ts}

theorem reaches_slash (hok : h.Ok) {r v : Ref} {q : List Bytes} (hr : Reaches h.graph r q v) :
    ∀ k ∈ q, '/' ∉ k := by
  have hedge : ∀ {r v k}, h.graph.edge r k = some v → '/' ∉ k := fun he =>
    hok.slash _ _ (by rw [Heap.edge_eq_some.1 he]; exact nofun)
  induction hr with
  | edge he => simpa using hedge he
  | cons he _ _ ih => exact List.forall_mem_cons.2 ⟨hedge he, ih⟩

/-- **Every record has a walk along its path.** -/
theorem Exposes.reaches {depth : ℕ} {r : Ref} (hok : h.Ok)
    (hts : listing h.children h.graph.stop depth r = some ts)
    (hex : Exposes cmds h (fixedRules ++ ts.flatMap (rulesAt h []))) {i : Record} (hi : i ∈ cmds) :
    ∃ v, Reaches h.graph r i.nodes v := by
  have hmem : "/api/".toList ++ i.cmd ∈ (ts.filter fun t => h.isLeaf t.2).map fun t =>
      "/api".toList ++ urlPath t.1 := by
    rw [← posts_eq]
    exact hex.posts.mem_iff.2 (List.mem_map_of_mem hi)
  obtain ⟨⟨q, v⟩, ht, heq⟩ := List.mem_map.1 hmem
  have hr := (mem_listing h.enumerates hts).1 (List.mem_of_mem_filter ht)
  have hpath : urlPath q = urlPath i.nodes := by
    rw [urlPath_nodes]
    exact List.append_cancel_left (show "/api".toList ++ urlPath q = "/api".toList ++ '/' :: i.cmd from heq)
  exact ⟨v, urlPath_inj (reaches_slash hok hr) i.slash_not_mem hpath ▸ hr⟩

/-- **Only paths that are not in each other's way** are all reached. -/
theorem separate_of_reaches {r : Ref}
    (hblocked : ∀ i (hi : i < cmds.length), ∀ q, cmds[i].Blocks q → Blocked h.graph r q)
    (hreaches : ∀ i ∈ cmds, ∃ v, Reaches h.graph r i.nodes v) : Separate cmds := by
  -- nothing is blocked on the way to the end of a path
  have hno : ∀ i ∈ cmds, ∀ j ∈ cmds, ∀ q p k, j.nodes = q ++ (p ++ [k]) → ¬ i.Blocks q := by
    intro i hi j hj q p k hnodes hb
    obtain ⟨i', hi', rfl⟩ := List.getElem_of_mem hi
    obtain ⟨v, hr⟩ := hreaches j hj
    refine hr.not_blocked ?_
    rw [hnodes, ← List.append_assoc, List.dropLast_concat]
    exact (hblocked i' hi' q hb).append p
  refine ⟨fun i hi j hj hpre => ?_, fun i hi hlast => ?_, fun i hi hindex => ?_⟩
  · obtain ⟨s, hs⟩ := hpre
    rcases List.eq_nil_or_concat s with rfl | ⟨p, k, rfl⟩
    · simpa using hs
    · exact absurd ⟨i.nodes_ne_nil, [], by simp, Or.inl i.last_mem⟩
        (hno i hi j hj i.nodes p k (by simpa using hs.symm))
  · exact absurd ⟨List.ne_nil_of_mem hlast, [i.last], i.nodes_eq, Or.inl hlast⟩
      (hno i hi i hi i.nodes.dropLast [] i.last i.nodes_eq)
  · obtain ⟨a, b, htail⟩ := List.append_of_mem hindex
    obtain ⟨k, ks, hk⟩ := List.exists_cons_of_ne_nil i.nodes_ne_nil
    rw [hk, List.tail_cons] at htail
    have hnodes : i.nodes = (k :: a) ++ "__index".toList :: b := by rw [hk, htail]; simp
    obtain ⟨p, k', hp⟩ := (List.eq_nil_or_concat ("__index".toList :: b)).resolve_left (by simp)
    refine absurd ⟨by simp, _, hnodes, Or.inr rfl⟩ (hno i hi i hi (k :: a) p k' ?_)
    rw [hnodes, hp]
    simp

/-! ## Which walks there are -/

/-- What has been reached when all paths have been entered. -/
def reached (cmds : List Record) : Set (List Bytes) := {q | q = [] ∨ ∃ i ∈ cmds, q <+: i.nodes}

variable {place : List Bytes → Ref}

theorem Tree.isLeaf_iff (hsep : Separate cmds) (t : Tree cmds h (reached cmds) place) {q : List Bytes}
    (hq : q ∈ reached cmds) (hne : q ≠ []) : h.isLeaf (place q) ↔ place q < cmds.length := by
  refine ⟨fun hl => ?_, fun hi => Record.isLeaf (t.record _ hi)⟩
  by_contra hle
  -- a key `__index` of a menu would be a node
  rcases t.inner q hq (not_lt.1 hle) _ (Heap.isLeaf_iff.1 hl) with heq | ⟨i, hi, s, hs⟩
  · simp at heq
  · refine hsep.index i hi ?_
    obtain ⟨k, p, rfl⟩ := List.exists_cons_of_ne_nil hne
    rw [← hs]
    simp

/-- **The walks are the beginnings of the paths.** -/
theorem Tree.reaches_iff (hsep : Separate cmds) (t : Tree cmds h (reached cmds) place) {q : List Bytes}
    {v : Ref} : Reaches h.graph cmds.length q v ↔ q ≠ [] ∧ q ∈ reached cmds ∧ v = place q := by
  have hopen : ∀ q k, q ≠ [] → q ++ [k] ∈ reached cmds → ¬ h.graph.stop (place q) := by
    intro q k hne hk hl
    have hq := t.closed q k hk
    have hi := (t.isLeaf_iff hsep hq hne).1 hl
    have := (t.edge q hq k _).2 ⟨hk, rfl⟩
    rw [show h.graph.edge (place q) k = none from Record.edge_none (t.record _ hi) k] at this
    cases this
  rw [← t.root]
  simpa using @Draws.reaches_iff _ _ _ _ _ t.toDraws hopen q v [] t.nil

theorem reached_slash {q : List Bytes} (hq : q ∈ reached cmds) : ∀ k ∈ q, '/' ∉ k := by
  rcases hq with rfl | ⟨i, -, hpre⟩
  · exact nofun
  · exact fun k hk => i.slash_not_mem k (hpre.mem hk)

/-- **The walks that are listed**: to every beginning of a path, and each is registered once. -/
structure Walked (cmds : List Record) (h : Heap) (place : List Bytes → Ref) (ts : List (List Bytes × Ref)) :
    Prop where
  mem : ∀ q v, (q, v) ∈ ts ↔ q ≠ [] ∧ q ∈ reached cmds ∧ v = place q
  once : (ts.map fun t => urlPath t.1).Nodup
  leaf : ∀ q v, (q, v) ∈ ts → h.isLeaf v → ∃ hi : v < cmds.length, q = cmds[v].nodes

theorem Tree.walked (hsep : Separate cmds) (t : Tree cmds h (reached cmds) place) {depth : ℕ}
    (hts : listing h.children h.graph.stop depth cmds.length = some ts) : Walked cmds h place ts := by
  have hmem : ∀ q v, (q, v) ∈ ts ↔ q ≠ [] ∧ q ∈ reached cmds ∧ v = place q := fun q v =>
    (mem_listing h.enumerates hts).trans (t.reaches_iff hsep)
  have hnodup := listing_nodup h.enumerates hts
  refine ⟨hmem, ?_, fun q v hqv hl => ?_⟩
  · refine List.Nodup.map_on (fun s hs t ht heq => ?_) (List.Nodup.of_map _ hnodup)
    exact List.inj_on_of_nodup_map hnodup hs ht
      (urlPath_inj (reached_slash ((hmem _ _).1 hs).2.1) (reached_slash ((hmem _ _).1 ht).2.1) heq)
  · obtain ⟨hne, hq, rfl⟩ := (hmem q v).1 hqv
    have hi := (t.isLeaf_iff hsep hq hne).1 hl
    exact ⟨hi, (t.leaf q hq hi).symm⟩

theorem Walked.once_api (w : Walked cmds h place ts) : (ts.map fun t => "/api".toList ++ urlPath t.1).Nodup := by
  have := w.once.map (List.append_right_injective "/api".toList)
  rwa [List.map_map] at this

theorem Walked.exists_walk (w : Walked cmds h place ts) {i : Record} (hi : i ∈ cmds) {q : List Bytes} (hne : q ≠ [])
    (hpre : q <+: i.nodes) : ∃ p ∈ ts, p.1 = q :=
  ⟨(q, place q), (w.mem _ _).2 ⟨hne, Or.inr ⟨i, hi, hpre⟩, rfl⟩, rfl⟩

/-- **The URLs that take a POST** are those of the records. -/
theorem Walked.posts (w : Walked cmds h place ts) (t : Tree cmds h (reached cmds) place)
    (hdis : (cmds.map Record.cmd).Nodup) :
    (rulesFor .post (fun _ => true) (fixedRules ++ ts.flatMap (rulesAt h []))).Perm
      (cmds.map fun i => "/api/".toList ++ i.cmd) := by
  rw [posts_eq, List.perm_ext_iff_of_nodup]
  · intro s
    simp only [List.mem_map, List.mem_filter, decide_eq_true_eq, Prod.exists]
    constructor
    · rintro ⟨q, v, ⟨hqv, hl⟩, rfl⟩
      obtain ⟨hi, rfl⟩ := w.leaf q v hqv hl
      exact ⟨cmds[v], List.getElem_mem hi, by rw [urlPath_nodes]; rfl⟩
    · rintro ⟨i, hi, rfl⟩
      obtain ⟨j, hj, rfl⟩ := List.getElem_of_mem hi
      -- the end of a path is the record
      have hin : cmds[j].nodes ∈ reached cmds := Or.inr ⟨_, hi, List.prefix_refl _⟩
      refine ⟨cmds[j].nodes, j, ⟨(w.mem _ _).2 ⟨Record.nodes_ne_nil _, hin, (t.own j hj hin).symm⟩, ?_⟩, ?_⟩
      · exact Record.isLeaf (t.record j hj)
      · rw [urlPath_nodes]; rfl
  · exact (List.filter_sublist.map _).nodup w.once_api
  · have := hdis.map (List.append_right_injective "/api/".toList)
    rwa [List.map_map] at this

/-- **What is registered for the POST** of a record is `send_command` of the record itself. -/
theorem Walked.own (w : Walked cmds h place ts) (t : Tree cmds h (reached cmds) place)
    (hdis : (cmds.map Record.cmd).Nodup) {i : Record} (hi : i ∈ cmds) {r : Rule}
    (hr : r ∈ fixedRules ++ ts.flatMap (rulesAt h [])) (hpost : r.takes .post = true)
    (hrule : r.rule = "/api/".toList ++ i.cmd) :
    ∃ v, r.handler = .sendCommand v ∧ h.get v "cmd".toList = some (.str i.cmd) ∧
      h.get v "args".toList = some (.list i.args) := by
  rcases List.mem_append.1 hr with hfix | hr
  · have hget : ∀ r ∈ fixedRules, r.takes .post = false := by decide
    rw [hget r hfix] at hpost
    cases hpost
  · obtain ⟨⟨q, v⟩, hqv, hr⟩ := List.mem_flatMap.1 hr
    by_cases hl : h.isLeaf v
    · obtain ⟨hv, rfl⟩ := w.leaf q v hqv hl
      simp only [rulesAt, if_pos hl, List.mem_append, List.mem_cons, List.not_mem_nil, or_false] at hr
      rcases hr with rfl | rfl | rfl
      · have hcmd : cmds[v].cmd = i.cmd := by
          rw [postRule, List.nil_append, urlPath_nodes] at hrule
          exact List.append_cancel_left
            (show "/api/".toList ++ cmds[v].cmd = "/api/".toList ++ i.cmd from hrule)
        have hsame : cmds[v] = i := List.inj_on_of_nodup_map hdis (List.getElem_mem hv) hi hcmd
        refine ⟨v, rfl, ?_, ?_⟩
        · rw [Heap.get, t.record v hv, hsame]; exact i.lookup_cmd
        · rw [Heap.get, t.record v hv, hsame]; exact i.lookup_args
      · cases hpost
      · cases hpost
    · simp only [rulesAt, if_neg hl, List.mem_append, List.mem_cons, List.not_mem_nil, or_false,
        false_or] at hr
      rcases hr with rfl | rfl <;> cases hpost

/-- **The rules of the tree** are those of the records. -/
theorem Tree.exposes (hsep : Separate cmds) (t : Tree cmds h (reached cmds) place)
    (hdis : (cmds.map Record.cmd).Nodup) {depth : ℕ}
    (hts : listing h.children h.graph.stop depth cmds.length = some ts) :
    Exposes cmds h (fixedRules ++ ts.flatMap (rulesAt h [])) := by
  have w := t.walked hsep hts
  refine ⟨w.posts t hdis, fun i hi r hr => w.own t hdis hi hr, fun i hi q hne hpre => ?_,
    fun i hi q hne hpre => ?_⟩
  · rw [pages_eq]
    obtain ⟨p, hp, rfl⟩ := w.exists_walk hi hne hpre
    exact List.count_eq_one_of_mem w.once (List.mem_map_of_mem hp)
  · rw [resources_eq]
    obtain ⟨p, hp, rfl⟩ := w.exists_walk hi hne hpre
    exact List.count_eq_one_of_mem w.once_api (List.mem_map_of_mem hp)

/-! ## What `web` registers -/

/-- The dictionaries of the records, when all paths have been entered. -/
theorem commandsTree_apply {m : Vde2Mgmt n} (hm : Finds m cmds) :
    ∃ m' : Vde2Mgmt n, Vde2Mgmt.commandsTree m =
      match makeCommandsTree cmds.length (List.range cmds.length) (.load cmds) with
      | (.ret _, h) => (.ret (h, cmds.length), m')
      | (.raise e l, _) => (.raise e l, m')
      | (.block, _) => (.block, m') := by
  unfold Finds at hm
  by_cases hc : m.HELP_COMMANDS = []
  · rw [if_pos hc] at hm
    obtain ⟨l, m', hlist, rfl⟩ := hm
    refine ⟨m', ?_⟩
    simp only [Vde2Mgmt.commandsTree, Act.bind_apply, Act.get_apply, if_pos hc, hlist]
    rcases makeCommandsTree m'.HELP_COMMANDS.length (List.range m'.HELP_COMMANDS.length)
      (.load m'.HELP_COMMANDS) with ⟨o, h⟩
    cases o <;> rfl
  · rw [if_neg hc] at hm
    subst hm
    refine ⟨m, ?_⟩
    simp only [Vde2Mgmt.commandsTree, Act.bind_apply, Act.get_apply, if_neg hc]
    rcases makeCommandsTree m.HELP_COMMANDS.length (List.range m.HELP_COMMANDS.length)
      (.load m.HELP_COMMANDS) with ⟨o, h⟩
    cases o <;> rfl

/-- **`web` registers what is made of the tree**, if the tree can be made. -/
theorem exposed_cases {m : Vde2Mgmt n} (hm : Finds m cmds) (help_list : List Record) :
    Exposed m help_list cmds ↔
      ∃ h, makeCommandsTree cmds.length (List.range cmds.length) (.load cmds) = (.ret (), h) ∧
        ∃ d, ∀ depth ≥ d, ∃ rules, createCommandsUrls h depth cmds.length [] = some rules ∧
          Exposes cmds h (fixedRules ++ rules) := by
  obtain ⟨m', hrun⟩ := commandsTree_apply hm
  unfold Exposed webUrls
  simp only [Act.bind_apply, hrun]
  rcases makeCommandsTree cmds.length (List.range cmds.length) (.load cmds) with ⟨o, h⟩
  cases o with
  | raise e l =>
    refine ⟨fun ⟨d, hd⟩ => ?_, fun ⟨_, heq, _⟩ => nomatch heq⟩
    obtain ⟨_, _, _, heq, -⟩ := hd d le_rfl
    cases heq
  | block =>
    refine ⟨fun ⟨d, hd⟩ => ?_, fun ⟨_, heq, _⟩ => nomatch heq⟩
    obtain ⟨_, _, _, heq, -⟩ := hd d le_rfl
    cases heq
  | ret u =>
    constructor
    · rintro ⟨d, hd⟩
      refine ⟨h, rfl, d, fun depth hdepth => ?_⟩
      obtain ⟨site, rules, m'', heq, hex⟩ := hd depth hdepth
      cases hurls : createCommandsUrls h depth cmds.length [] with
      | none => simp [hurls, Act.ofOption_apply] at heq
      | some rs =>
        simp only [hurls, Act.ofOption_apply, Act.pure_apply] at heq
        cases heq
        exact ⟨rs, rfl, hex⟩
    · rintro ⟨h', heq, d, hd⟩
      cases heq
      refine ⟨d, fun depth hdepth => ?_⟩
      obtain ⟨rs, hurls, hex⟩ := hd depth hdepth
      exact ⟨⟨h, cmds.length, List.range help_list.length⟩, fixedRules ++ rs, m',
        by simp [hurls, Act.ofOption_apply], hex⟩

/-- Every command has its rule only if no path is in the way of another. -/
theorem separate_of_exposed {m : Vde2Mgmt n} {help_list : List Record} (hm : Finds m cmds)
    (hex : Exposed m help_list cmds) : Separate cmds := by
  obtain ⟨h, hrun, d, hd⟩ := (exposed_cases hm help_list).1 hex
  obtain ⟨hok, -, hblocked⟩ := makeCommandsTree_blocked (List.range cmds.length) (tree_load cmds).ok
    (Nat.lt_succ_self _) List.nodup_range (pending_load cmds) hrun
  obtain ⟨rules, hurls, hex⟩ := hd d le_rfl
  rw [createCommandsUrls_eq] at hurls
  obtain ⟨ts, hts, rfl⟩ := Option.map_eq_some_iff.1 hurls
  exact separate_of_reaches (fun i hi => hblocked i (List.mem_range.2 hi) hi) fun i hi =>
    hex.reaches hok hts hi

/-- Records are told apart by their paths. -/
theorem nodes_inj (hdis : (cmds.map Record.cmd).Nodup) {i j : ℕ} (hi : i < cmds.length)
    (hj : j < cmds.length) (heq : cmds[i].nodes = cmds[j].nodes) : i = j := by
  have hcmd : cmds[i].cmd = cmds[j].cmd := by rw [← Record.cmd_eq, heq, Record.cmd_eq]
  exact (List.Nodup.of_map _ hdis).getElem_inj_iff.1
    (List.inj_on_of_nodup_map hdis (List.getElem_mem hi) (List.getElem_mem hj) hcmd)

/-- **The tree of all paths**, in whatever order they are entered. -/
theorem tree_of_separate (hsep : Separate cmds) (hdis : (cmds.map Record.cmd).Nodup) {is : List Ref}
    (his : is.Perm (List.range cmds.length)) : ∃ h place,
    makeCommandsTree cmds.length is (.load cmds) = (.ret (), h) ∧ Tree cmds h (reached cmds) place := by
  obtain ⟨h, place, hrun, t⟩ := makeCommandsTree_tree hsep (fun i j => nodes_inj hdis) is
    (tree_load cmds) (fun i hi => ⟨List.mem_range.1 (his.subset hi), by simpa using Record.nodes_ne_nil _⟩)
    (his.nodup_iff.2 List.nodup_range)
  refine ⟨h, place, hrun, ?_⟩
  convert t using 1
  ext p
  simp only [Set.mem_ofPred_eq, Set.mem_singleton_iff, reached]
  refine or_congr_right ⟨fun ⟨i, hi, hp⟩ => ?_, fun ⟨i, _, hi, hp⟩ => ⟨_, List.getElem_mem hi, hp⟩⟩
  obtain ⟨j, hj, rfl⟩ := List.getElem_of_mem hi
  exact ⟨j, his.symm.subset (List.mem_range.2 hj), hj, hp⟩

/-- **Every command has its rule if and only if** no path is the beginning of another, none
comes to a node like its last before its end, and none has a node `__index` but the first. -/
theorem exposed_iff {m : Vde2Mgmt n} (hm : Finds m cmds) (hdis : (cmds.map Record.cmd).Nodup)
    (help_list : List Record) : Exposed m help_list cmds ↔ Separate cmds := by
  refine ⟨separate_of_exposed hm, fun hsep => (exposed_cases hm help_list).2 ?_⟩
  obtain ⟨h, place, hrun, t⟩ := tree_of_separate hsep hdis (List.Perm.refl _)
  obtain ⟨d, hd⟩ : ∃ d, ∀ i ∈ cmds, i.nodes.length ≤ d :=
    ⟨(cmds.map fun i => i.nodes.length).sum, fun i hi => List.le_sum_of_mem (List.mem_map.2 ⟨i, hi, rfl⟩)⟩
  -- no walk is longer than the paths
  have hlength : ∀ q v, Reaches h.graph cmds.length q v → q.length ≤ d := by
    intro q v hr
    obtain ⟨hne, hq, -⟩ := (t.reaches_iff hsep).1 hr
    obtain ⟨i, hi, hpre⟩ := hq.resolve_left hne
    exact hpre.length_le.trans (hd i hi)
  refine ⟨h, hrun, d + 1, fun depth hdepth => ?_⟩
  obtain ⟨ts, hts⟩ := listing_isSome h.enumerates hlength depth hdepth
  exact ⟨_, by rw [createCommandsUrls_eq, hts]; rfl, t.exposes hsep hdis hts⟩

/-- A row of the help table with this path and no more. -/
def pathRecord (index : ℕ) (cmd : Bytes) : Record := ⟨index, cmd, [], [], [], cmd⟩

/-- The help table has been read. -/
def tableMgmt (cmds : List Record) : Vde2Mgmt 1024 where
  socket := ⟨[], false⟩
  SYS_INFO := ⟨[], ⟨[], none⟩⟩
  HELP_COMMANDS := cmds

theorem finds_table {cmds : List Record} (h : cmds ≠ []) : Finds (tableMgmt cmds) cmds := by
  rw [Finds, if_neg (show (tableMgmt cmds).HELP_COMMANDS ≠ [] from h)]
  rfl

/-- Two commands in one menu. -/
theorem exposed_menu : Exposed
    (tableMgmt [pathRecord 0 "port/print".toList, pathRecord 1 "port/create".toList]) []
    [pathRecord 0 "port/print".toList, pathRecord 1 "port/create".toList] :=
  (exposed_iff (finds_table (by simp)) (by decide) []).2
    ⟨by decide, by decide, by decide⟩

/-- A command whose path is the beginning of another's: the other has no rule. -/
theorem exposed_command_and_menu : ¬ ∀ (m : Vde2Mgmt 1024) (help_list cmds : List Record), Finds m cmds →
    (cmds.map Record.cmd).Nodup → (∀ i ∈ cmds, [] ∉ i.nodes) → Exposed m help_list cmds := by
  intro h
  set cmds := [pathRecord 0 "port".toList, pathRecord 1 "port/print".toList] with hcmds
  have hfinds : Finds (tableMgmt cmds) cmds := finds_table (by simp [hcmds])
  have hsep := separate_of_exposed hfinds (h (tableMgmt cmds) [] cmds hfinds (by decide) (by decide))
  have hstart := hsep.start _ List.mem_cons_self _ (List.mem_cons_of_mem _ List.mem_cons_self)
  exact absurd (hstart (by decide)) (by decide)

end Vdetelweb
