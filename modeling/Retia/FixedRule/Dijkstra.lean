import Mathlib
import Retia.Lib.CostGraph
import Retia.Lib.Except

/-!
# Shortest paths

`fixed_rule/algos/shortest_path_dijkstra.rs`, the function `dijkstra`. It is called with a start,
goals, forbidden edges and forbidden nodes, and it stops when all goals have been taken from the
queue.

The priority queue is that of a library: a map from nodes to priorities, whose `pop` takes out an
entry of least cost. Which one of several it takes depends on the history of the queue, so `pop` is
given by an oracle that may choose differently at each step.

A node is **settled** when it has a distance and is not in the queue. The argument is the usual one:
settled nodes have distances not above those in the queue, and the edges that leave them have been
looked at (`Frontier`); so a walk to a node either has come from settled nodes only, or has passed
through the queue (`Frontier.walk`). The back pointers of nodes lead to settled nodes, whose back
pointers are not overwritten any more (`Traced`).

The start is not looked up among the forbidden nodes. So a walk avoids the forbidden nodes if it
does not enter one; a forbidden start does no harm.

* `Frontier`, `Traced` — the invariant, with `Relaxing.improve` and `Relaxing.skip` for one edge and
  `Relaxes.loop` for the whole loop;
* `dijkstra_shortest` — the result.
-/

namespace Retia.FixedRule

open List

/-! ### The search -/

/-- `Goal`: `()`, `Option<u32>` and `BTreeSet<u32>`. -/
inductive Goal (n : Nat) where
  | all
  | single (node : Option (Fin n))
  | set (nodes : List (Fin n))

namespace Goal

variable {n : Nat}

def isExhausted : Goal n → Bool
  | all => false
  | single node => node.isNone
  | set nodes => nodes.isEmpty

def visit (node : Fin n) : Goal n → Goal n
  | all => all
  | single u => if u = some node then single none else single u
  | set nodes => set (nodes.filter (· ≠ node))

def iter : Goal n → List (Fin n)
  | all => List.finRange n
  | single node => node.toList
  | set nodes => nodes

theorem iter_of_isExhausted {goals : Goal n} (h : goals.isExhausted = true) : goals.iter = [] := by
  cases goals with
  | all => cases h
  | single node | set nodes => simpa [isExhausted, iter] using h

theorem mem_iter_visit {goals : Goal n} {t : Fin n} (node : Fin n) (h : t ∈ goals.iter) :
    t = node ∨ t ∈ (goals.visit node).iter := by
  cases goals with
  | all => exact .inr h
  | single u =>
    obtain rfl : u = some t := by simpa [iter] using h
    by_cases ht : t = node
    · exact .inl ht
    · exact .inr (by simpa [visit, ht] using h)
  | set nodes =>
    by_cases ht : t = node
    · exact .inl ht
    · exact .inr (mem_filter.2 ⟨h, by simp [ht]⟩)

end Goal

section Code

variable {n : Nat} {C : Type} [AddCommMonoid C] [LinearOrder C]

/-- The distances and the queue. No distance is `f32::INFINITY`. -/
structure Search (n : Nat) (C : Type) where
  distance : Fin n → Option C
  pq : Fin n → Option C

def below (cost : C) : Option C → Bool
  | none => true
  | some d => cost < d

/-- `PriorityQueue::push_increase` on reversed costs: the entry is new, or its cost is lowered. -/
def pushIncrease (pq : Fin n → Option C) (v : Fin n) (cost : C) : Fin n → Option C :=
  if below cost (pq v) then Function.update pq v (some cost) else pq

/-- A new distance for a node, and its entry in the queue. -/
def Search.improve (s : Search n C) (v : Fin n) (cost : C) : Search n C :=
  ⟨Function.update s.distance v (some cost), pushIncrease s.pq v cost⟩

/-- `PriorityQueue::pop`, with the number of steps that are left as the history. -/
structure PopMin (n : Nat) (C : Type) [LE C] where
  pop : Nat → (Fin n → Option C) → Option (Fin n × C)
  mem : ∀ {i pq v c}, pop i pq = some (v, c) → pq v = some c
  least : ∀ {i pq v c}, pop i pq = some (v, c) → ∀ u d, pq u = some d → c ≤ d
  empty : ∀ {i pq}, pop i pq = none → ∀ u, pq u = none

def Search.start (start : Fin n) : Search n C :=
  ⟨Function.update (fun _ => none) start (some 0), Function.update (fun _ => none) start (some 0)⟩

def Search.popped (s : Search n C) (node : Fin n) : Search n C :=
  ⟨s.distance, Function.update s.pq node none⟩

/-- The state of a search, with back pointers of type `B`. -/
structure State (n : Nat) (C B : Type) extends Search n C where
  backPointers : Fin n → B

/-- The state of `dijkstra`. No back pointer is `u32::MAX`. -/
abbrev DState (n : Nat) (C : Type) := State n C (Option (Fin n))

variable (g : CostGraph n C) (forbiddenEdges : Fin n → Fin n → Bool) (forbiddenNodes : Fin n → Bool)

def relaxEdge (node : Fin n) (cost : C) (st : DState n C) (target : Fin n × C) : DState n C :=
  if forbiddenNodes target.1 then st
  else if forbiddenEdges node target.1 then st
  else
    let nxtCost := cost + target.2
    if below nxtCost (st.distance target.1) then
      ⟨st.improve target.1 nxtCost, Function.update st.backPointers target.1 (some node)⟩
    else st

/-- The loop over the queue, which `dijkstra` and `dijkstra_keep_ties` share but for the body
`relax` of the loop over the edges. -/
def searchLoop {B : Type} (relax : Fin n → C → State n C B → Fin n × C → State n C B)
    (pops : PopMin n C) :
    Nat → State n C B → Goal n → Option (State n C B)
  | 0, _, _ => none
  | fuel + 1, st, goals =>
    match pops.pop fuel st.pq with
    | none => some st
    | some (node, cost) =>
      let st : State n C B := ⟨st.popped node, st.backPointers⟩
      -- `cost > distance[node]`
      if (st.distance node).any (· < cost) then searchLoop relax pops fuel st goals
      else
        let st := (g.out node).foldl (relax node cost) st
        let goals := goals.visit node
        if goals.isExhausted then some st else searchLoop relax pops fuel st goals

def tracePath (start : Fin n) (backPointers : Fin n → Option (Fin n)) :
    Nat → Fin n → List (Fin n) → Option (List (Fin n))
  | 0, _, _ => none
  | fuel + 1, current, path =>
    if current = start then some (start :: path)
    else (backPointers current).bind fun prev => tracePath start backPointers fuel prev (current :: path)

/-- `dijkstra`. Fails if the fuel does not suffice, or a back pointer leads nowhere. -/
def dijkstra (pops : PopMin n C) (fuel : Nat) (start : Fin n) (goals : Goal n) :
    Option (List (Fin n × Option C × List (Fin n))) :=
  (searchLoop g (relaxEdge forbiddenEdges forbiddenNodes) pops fuel
    ⟨Search.start start, fun _ => none⟩ goals).bind fun st =>
    goals.iter.mapM fun target =>
      match st.distance target with
      | none => some (target, none, [])
      | some cost => (tracePath start st.backPointers fuel target []).map fun path =>
        (target, some cost, path)

end Code

/-! ### Settled nodes -/

section Frontier

variable {n : Nat} {C : Type} [AddCommMonoid C] [LinearOrder C] [IsOrderedAddMonoid C]

def Search.Settled (s : Search n C) (v : Fin n) (d : C) : Prop :=
  s.distance v = some d ∧ s.pq v = none

/-- **The frontier**: what holds of the distances and the queue. The edges in `waived` have not been
looked at yet. -/
structure Frontier (g : CostGraph n C) (ok : Fin n → Fin n → Prop) (start : Fin n)
    (waived : Fin n → Fin n × C → Prop)
    (s : Search n C) : Prop where
  source : s.distance start = some 0
  walked : ∀ v d, s.distance v = some d → ∃ path, Walk g ok start v path d
  queued : ∀ v c, s.pq v = some c → s.distance v = some c
  ordered : ∀ u d v c, s.Settled u d → s.pq v = some c → d ≤ c
  closed : ∀ u d, s.Settled u d → ∀ e ∈ g.out u, ok u e.1 → ¬ waived u e →
    ∃ d', s.distance e.1 = some d' ∧ d' ≤ d + e.2

variable {g : CostGraph n C} {ok : Fin n → Fin n → Prop} {start : Fin n}
    {waived : Fin n → Fin n × C → Prop} {s : Search n C}

variable {path : List (Fin n)} {v : Fin n} {node : Fin n} {cost : C} {d : C} {t : Fin n} {c : C}

theorem Frontier.nonneg (h : Frontier g ok start waived s) (hd : s.distance v = some d) :
    0 ≤ d := by
  obtain ⟨path, hwalk⟩ := h.walked v d hd
  exact hwalk.nonneg

omit [IsOrderedAddMonoid C] in
theorem frontier_start : Frontier g ok start (fun _ _ => False) (Search.start start) := by
  have hnone : ∀ u d, ¬ (Search.start start : Search n C).Settled u d := by
    rintro u d ⟨hd, hpq⟩
    exact absurd (hpq.symm.trans hd) (by simp)
  refine ⟨by simp [Search.start], fun v d hd => ?_, fun v c hc => hc, fun u d v c h =>
    absurd h (hnone u d),
    fun u d h => absurd h (hnone u d)⟩
  by_cases hv : v = start
  · obtain rfl : 0 = d := by simpa [Search.start, hv] using hd
    exact ⟨[start], hv ▸ .nil⟩
  · simp [Search.start, hv] at hd

omit [IsOrderedAddMonoid C] in
theorem Search.settled_of_distance (h : Frontier g ok start waived s)
    (hd : s.distance v = some d) : s.Settled v d ∨ s.pq v = some d := by
  cases hpq : s.pq v with
  | none => exact .inl ⟨hd, hpq⟩
  | some c => exact .inr (by rw [← hd, h.queued v c hpq])

omit [IsOrderedAddMonoid C] in
theorem Search.settled_popped (h : Frontier g ok start waived s) (hpq : s.pq node = some cost) :
    (s.popped node).Settled v d ↔ s.Settled v d ∨ v = node ∧ d = cost := by
  have hdist := h.queued node cost hpq
  by_cases hv : v = node
  · subst hv
    simp [Search.Settled, Search.popped, hpq, hdist, eq_comm]
  · simp [Search.Settled, Search.popped, hv]

omit [IsOrderedAddMonoid C] in
theorem Frontier.popped (h : Frontier g ok start (fun _ _ => False) s) (hpq : s.pq node = some cost)
    (hleast : ∀ u d, s.pq u = some d → cost ≤ d) :
    Frontier g ok start (fun u e => u = node ∧ e ∈ g.out node) (s.popped node) := by
  have hqueue : ∀ {v c}, (s.popped node).pq v = some c → s.pq v = some c := by
    intro v c hc
    by_cases hv : v = node
    · simp [Search.popped, hv] at hc
    · simpa [Search.popped, Function.update_of_ne hv] using hc
  refine ⟨h.source, h.walked, fun v c hc => h.queued v c (hqueue hc), fun u d v c hu hc =>
    ?_, fun u d hu e he hok hwaived => ?_⟩
  · rcases (Search.settled_popped h hpq).1 hu with hu | ⟨-, rfl⟩
    · exact h.ordered u d v c hu (hqueue hc)
    · exact hleast v c (hqueue hc)
  · rcases (Search.settled_popped h hpq).1 hu with hu | ⟨rfl, -⟩
    · exact h.closed u d hu e he hok not_false
    · exact absurd ⟨rfl, he⟩ hwaived

omit [AddCommMonoid C] [IsOrderedAddMonoid C] in
theorem below_iff {d : Option C} : below cost d = true ↔ ∀ d' ∈ d, cost < d' := by
  cases d <;> simp [below]

/-- The state of the search while the edges of `node` are looked at. -/
structure Relaxing (g : CostGraph n C) (ok : Fin n → Fin n → Prop) (start node : Fin n)
    (cost : C) (edges : List (Fin n × C))
    (s : Search n C) : Prop where
  frontier : Frontier g ok start (fun u e => u = node ∧ e ∈ edges) s
  node_settled : s.Settled node cost
  floor : ∀ u d, s.Settled u d → d ≤ cost

variable {node : Fin n} {cost : C} {e : Fin n × C} {edges : List (Fin n × C)}

theorem Relaxing.not_settled (h : Relaxing g ok start node cost (e :: edges) s) (hw : 0 ≤ e.2)
    (hbelow : below (cost + e.2) (s.distance e.1) = true) (d : C) : ¬ s.Settled e.1 d := by
  intro hsettled
  have hlt := below_iff.1 hbelow d hsettled.1
  exact absurd (hlt.trans_le (h.floor e.1 d hsettled)) (not_lt.2 (le_add_of_nonneg_right hw))

omit [IsOrderedAddMonoid C] in
theorem Search.pq_improve {w : Fin n → Fin n × C → Prop} (h : Frontier g ok start w s) {c : C}
    (hbelow : below c (s.distance v) = true) :
    (s.improve v c).pq = Function.update s.pq v (some c) := by
  have hpq : below c (s.pq v) = true := by
    refine below_iff.2 fun d hd => ?_
    exact below_iff.1 hbelow d (h.queued v d hd)
  exact if_pos hpq

theorem Relaxing.settled_improve (h : Relaxing g ok start node cost (e :: edges) s) (hw : 0 ≤ e.2)
    (hbelow : below (cost + e.2) (s.distance e.1) = true) :
    (s.improve e.1 (cost + e.2)).Settled v d ↔ s.Settled v d := by
  have hnot := h.not_settled hw hbelow
  have hpq := Search.pq_improve h.frontier hbelow
  by_cases hv : v = e.1
  · subst hv
    refine iff_of_false ?_ (hnot d)
    rintro ⟨-, hnone⟩
    rw [hpq, Function.update_self] at hnone
    cases hnone
  · rw [Search.Settled, Search.Settled, hpq, Function.update_of_ne hv]
    simp [Search.improve, hv]

/-- **An edge that improves a distance.** -/
theorem Relaxing.improve (h : Relaxing g ok start node cost (e :: edges) s)
    (he : e ∈ g.out node) (hok : ok node e.1)
    (hbelow : below (cost + e.2) (s.distance e.1) = true) :
    Relaxing g ok start node cost edges (s.improve e.1 (cost + e.2)) := by
  have hw := g.nonneg node e he
  have hcost : 0 ≤ cost := h.frontier.nonneg h.node_settled.1
  have hnot := h.not_settled hw hbelow
  have hpq := Search.pq_improve h.frontier hbelow
  have hsettled : ∀ {v d}, (s.improve e.1 (cost + e.2)).Settled v d ↔ s.Settled v d :=
    h.settled_improve hw hbelow
  have hdist : ∀ v, (s.improve e.1 (cost + e.2)).distance v = if v = e.1 then some (cost + e.2)
    else s.distance v :=
    fun v => Function.update_apply _ _ _ _
  have hstart : start ≠ e.1 := by
    intro heq
    have hlt := below_iff.1 hbelow 0 (heq ▸ h.frontier.source)
    exact absurd hlt (not_lt.2 (add_nonneg hcost hw))
  refine ⟨⟨?_, fun v d hd => ?_, fun v c hc => ?_, fun u d v c hu hc =>
    ?_, fun u d hu e' he' hok hwaived => ?_⟩,
    hsettled.2 h.node_settled, fun u d hu => h.floor u d (hsettled.1 hu)⟩
  · rw [hdist, if_neg hstart]
    exact h.frontier.source
  · rw [hdist] at hd
    split at hd <;> rename_i hv
    · obtain ⟨path, hwalk⟩ := h.frontier.walked node cost h.node_settled.1
      exact ⟨path ++ [v], Option.some.inj hd ▸ .snoc hwalk (hv ▸ he) (hv ▸ hok)⟩
    · exact h.frontier.walked v d hd
  · rw [hpq, Function.update_apply] at hc
    rw [hdist]
    split at hc <;> rename_i hv
    · rw [if_pos hv, hc]
    · rw [if_neg hv]
      exact h.frontier.queued v c hc
  · rw [hpq, Function.update_apply] at hc
    split at hc
    · rw [← Option.some.inj hc]
      exact (h.floor u d (hsettled.1 hu)).trans (le_add_of_nonneg_right hw)
    · exact h.frontier.ordered u d v c (hsettled.1 hu) hc
  · rw [hdist]
    by_cases hnew : u = node ∧ e' = e
    · -- the edge itself
      obtain ⟨rfl, rfl⟩ := hnew
      have hd : cost = d := Option.some.inj (h.node_settled.1.symm.trans (hsettled.1 hu).1)
      exact ⟨cost + e'.2, if_pos rfl, by rw [hd]⟩
    · have hwaived' : ¬ (u = node ∧ e' ∈ e :: edges) := by
        rintro ⟨rfl, hmem⟩
        rcases mem_cons.1 hmem with rfl | hmem
        · exact hnew ⟨rfl, rfl⟩
        · exact hwaived ⟨rfl, hmem⟩
      obtain ⟨d', hd', hle⟩ := h.frontier.closed u d (hsettled.1 hu) e' he' hok hwaived'
      by_cases hv : e'.1 = e.1
      · have hlt := below_iff.1 hbelow d' (hv ▸ hd')
        exact ⟨cost + e.2, if_pos hv, hlt.le.trans hle⟩
      · exact ⟨d', by rw [if_neg hv, hd'], hle⟩

omit [IsOrderedAddMonoid C] in
/-- **An edge that does not**: it is closed, or the distance is as good. -/
theorem Relaxing.skip (h : Relaxing g ok start node cost (e :: edges) s)
    (hskip : ok node e.1 → below (cost + e.2) (s.distance e.1) = false) :
    Relaxing g ok start node cost edges s := by
  refine ⟨⟨h.frontier.source, h.frontier.walked, h.frontier.queued,
    h.frontier.ordered, fun u d hu e' he' hok hwaived => ?_⟩, h.node_settled, h.floor⟩
  by_cases hnew : u = node ∧ e' = e
  · obtain ⟨rfl, rfl⟩ := hnew
    have hd : cost = d := Option.some.inj (h.node_settled.1.symm.trans hu.1)
    have hfalse := hskip hok
    cases hdist : s.distance e'.1 with
    | none => rw [hdist, below] at hfalse; cases hfalse
    | some d' =>
      rw [hdist, below, decide_eq_false_iff_not, not_lt] at hfalse
      exact ⟨d', rfl, hd ▸ hfalse⟩
  · refine h.frontier.closed u d hu e' he' hok ?_
    rintro ⟨rfl, hmem⟩
    rcases mem_cons.1 hmem with rfl | hmem
    · exact hnew ⟨rfl, rfl⟩
    · exact hwaived ⟨rfl, hmem⟩

/-- **A walk comes from settled nodes, or has passed through the queue.** -/
theorem Frontier.walk (h : Frontier g ok start (fun _ _ => False) s) {c : C}
    (hwalk : Walk g ok start t path c) : (∃ d, s.Settled t d ∧ d ≤ c) ∨
    ∃ v d, s.pq v = some d ∧ d ≤ c := by
  refine hwalk.bounded (P := fun t c => (∃ d, s.Settled t d ∧ d ≤ c) ∨
    ∃ v d, s.pq v = some d ∧ d ≤ c) ?_ ?_
  · rcases Search.settled_of_distance h h.source with hsettled | hqueued
    · exact .inl ⟨0, hsettled, le_rfl⟩
    · exact .inr ⟨start, 0, hqueued, le_rfl⟩
  · rintro u c v w (⟨d, hu, hle⟩ | ⟨q, d, hq, hle⟩) hedge hok
    · obtain ⟨d', hd', hle'⟩ := h.closed u d hu (v, w) hedge hok not_false
      have hbound : d' ≤ c + w := hle'.trans (add_le_add_left hle w)
      rcases Search.settled_of_distance h hd' with hsettled | hqueued
      · exact .inl ⟨d', hsettled, hbound⟩
      · exact .inr ⟨v, d', hqueued, hbound⟩
    · exact .inr ⟨q, d, hq, hle.trans (le_add_of_nonneg_right (g.nonneg u _ hedge))⟩

theorem Frontier.minimal (h : Frontier g ok start (fun _ _ => False) s)
    (ht : s.Settled t d) (hwalk : Walk g ok start t path c) : d ≤ c := by
  rcases h.walk hwalk with ⟨d', hd', hle⟩ | ⟨v, q, hq, hle⟩
  · exact Option.some.inj (ht.1.symm.trans hd'.1) ▸ hle
  · exact (h.ordered t d v q ht hq).trans hle

/-! ### The loop -/

open Classical in
noncomputable def Search.unsettled (s : Search n C) : Nat :=
  (Finset.univ.filter fun v => ¬ ∃ d, s.Settled v d).card

omit [AddCommMonoid C] [LinearOrder C] [IsOrderedAddMonoid C] in
theorem Search.unsettled_lt {s s' : Search n C} (hmono : ∀ v d, s.Settled v d → s'.Settled v d)
    {cost : C}
    (hnew : s'.Settled node cost) (hold : ∀ d, ¬ s.Settled node d) :
    s'.unsettled < s.unsettled := by
  classical
  refine Finset.card_lt_card ((Finset.ssubset_iff_of_subset ?_).2 ⟨node, ?_, ?_⟩)
  · intro v hv
    simp only [Finset.mem_filter, Finset.mem_univ, true_and, not_exists] at hv ⊢
    exact fun d hd => hv d (hmono v d hd)
  · simpa using hold
  · simpa using ⟨cost, hnew⟩

/-- What the body `relax` of the loop over the edges is to keep, for one edge: the frontier, and a
property `Back` of the back pointers that may depend on the edges that have not been looked at. -/
structure Relaxes {B : Type} (g : CostGraph n C) (ok : Fin n → Fin n → Prop) (start : Fin n)
    (relax : Fin n → C → State n C B → Fin n × C → State n C B)
    (Back : (Fin n → Fin n × C → Prop) → State n C B → Prop) : Prop where
  popped : ∀ {st node cost}, Frontier g ok start (fun _ _ => False) st.toSearch →
    Back (fun _ _ => False) st →
    st.pq node = some cost → Back (fun u e => u = node ∧ e ∈ g.out node) ⟨st.popped node, st.backPointers⟩
  edge : ∀ {st node cost e edges}, e :: edges <:+ g.out node →
    Relaxing g ok start node cost (e :: edges) st.toSearch →
    Back (fun u e' => u = node ∧ e' ∈ e :: edges) st →
      Relaxing g ok start node cost edges (relax node cost st e).toSearch ∧
      Back (fun u e' => u = node ∧ e' ∈ edges) (relax node cost st e) ∧
      ∀ v d, (relax node cost st e).Settled v d ↔ st.Settled v d

section Loop

variable {B : Type} {relax : Fin n → C → State n C B → Fin n × C → State n C B}
    {Back : (Fin n → Fin n × C → Prop) → State n C B → Prop}

omit [IsOrderedAddMonoid C] in
theorem Relaxes.node_edges (hrelax : Relaxes g ok start relax Back) {st : State n C B}
    (hedges : edges <:+ g.out node)
    (h : Relaxing g ok start node cost edges st.toSearch)
    (hb : Back (fun u e => u = node ∧ e ∈ edges) st) :
    Relaxing g ok start node cost [] (edges.foldl (relax node cost) st).toSearch ∧
    Back (fun _ _ => False) (edges.foldl (relax node cost) st) ∧
      ∀ v d, (edges.foldl (relax node cost) st).Settled v d ↔ st.Settled v d := by
  induction edges generalizing st with
  | nil => exact ⟨h, by simpa using hb, fun _ _ => Iff.rfl⟩
  | cons e edges ih =>
    obtain ⟨hnext, hback, hsettled⟩ := hrelax.edge hedges h hb
    obtain ⟨hnext', hback', hsettled'⟩ := ih ((suffix_cons e edges).trans hedges) hnext hback
    exact ⟨hnext', hback', fun v d => (hsettled' v d).trans (hsettled v d)⟩

omit [IsOrderedAddMonoid C] in
/-- **The whole loop**: it ends, with all nodes of the queue taken or all goals settled. -/
theorem Relaxes.loop (hrelax : Relaxes g ok start relax Back) (pops : PopMin n C)
    {fuel : Nat} {st : State n C B} (goals : Goal n)
    (hfuel : st.unsettled < fuel) (h : Frontier g ok start (fun _ _ => False) st.toSearch)
    (hb : Back (fun _ _ => False) st) :
    ∃ final, searchLoop g relax pops fuel st goals = some final ∧
    Frontier g ok start (fun _ _ => False) final.toSearch ∧
      Back (fun _ _ => False) final ∧
      ((∀ v, final.pq v = none) ∨ ∀ t ∈ goals.iter, ∃ d, final.Settled t d) := by
  -- the goals that have been visited stay settled
  suffices hloop : ∃ final, searchLoop g relax pops fuel st goals = some final ∧
      Frontier g ok start (fun _ _ => False) final.toSearch ∧ Back (fun _ _ => False) final ∧
      (∀ v d, st.Settled v d → final.Settled v d) ∧
        ((∀ v, final.pq v = none) ∨ ∀ t ∈ goals.iter, ∃ d, final.Settled t d) by
    obtain ⟨final, hfinal, hfrontier, hback, -, hend⟩ := hloop
    exact ⟨final, hfinal, hfrontier, hback, hend⟩
  induction fuel generalizing st goals with
  | zero => exact absurd hfuel (Nat.not_lt_zero _)
  | succ fuel ih =>
    rw [searchLoop]
    cases hpop : pops.pop fuel st.pq with
    | none => exact ⟨st, rfl, h, hb, fun _ _ hd => hd, .inl (pops.empty hpop)⟩
    | some entry =>
      obtain ⟨node, cost⟩ := entry
      have hpq := pops.mem hpop
      have hdist : (st.popped node).distance node = some cost := h.queued node cost hpq
      have hold : ∀ d, ¬ st.Settled node d := fun d hd => absurd (hpq.symm.trans hd.2) (by simp)
      have hpopped : ∀ {v d}, (st.popped node).Settled v d ↔ st.Settled v d ∨ v = node ∧ d = cost :=
        Search.settled_popped h hpq
      have hrelaxing : Relaxing g ok start node cost (g.out node) (st.popped node) := by
        refine ⟨h.popped hpq (pops.least hpop), hpopped.2 (.inr ⟨rfl, rfl⟩), fun u d hu => ?_⟩
        rcases hpopped.1 hu with hu | ⟨-, rfl⟩
        · exact h.ordered u d node cost hu hpq
        · exact le_rfl
      -- the entry of the queue is never out of date
      have hcurrent : ((st.popped node).distance node).any (· < cost) = false := by simp [hdist]
      obtain ⟨hdone, hback, hsettled⟩ := hrelax.node_edges suffix_rfl hrelaxing (hrelax.popped h hb hpq)
      set st' := (g.out node).foldl (relax node cost) ⟨st.popped node, st.backPointers⟩ with hst'
      have hfrontier : Frontier g ok start (fun _ _ => False) st'.toSearch := by
        have := hdone.frontier
        simpa using this
      have hmono : ∀ v d, st.Settled v d → st'.Settled v d := fun v d hd =>
        (hsettled v d).2 (hpopped.2 (.inl hd))
      have hnode : st'.Settled node cost := hdone.node_settled
      simp only [hcurrent, Bool.false_eq_true, if_false]
      by_cases hexhausted : (goals.visit node).isExhausted = true
      · refine ⟨st', by rw [if_pos hexhausted], hfrontier, hback, hmono, .inr fun t ht => ?_⟩
        rcases Goal.mem_iter_visit node ht with rfl | ht
        · exact ⟨cost, hnode⟩
        · rw [Goal.iter_of_isExhausted hexhausted] at ht
          cases ht
      · rw [if_neg hexhausted]
        have hless : st'.unsettled < fuel :=
          lt_of_lt_of_le (Search.unsettled_lt hmono hnode hold) (Nat.lt_succ_iff.1 hfuel)
        obtain ⟨final, hfinal, hfr, hbk, hset, hend⟩ := ih (goals.visit node) hless hfrontier hback
        refine ⟨final, hfinal, hfr, hbk, fun v d hd => hset v d (hmono v d hd),
          hend.imp_right fun hall t ht => ?_⟩
        rcases Goal.mem_iter_visit node ht with rfl | ht
        · exact ⟨cost, hset t cost hnode⟩
        · exact hall t ht

end Loop

/-! ### Back pointers -/

/-- The nodes from the start to `v` along the back pointers, over settled nodes. -/
inductive Traced (g : CostGraph n C) (ok : Fin n → Fin n → Prop) (start : Fin n)
    (settled : Fin n → Prop)
    (back : Fin n → Option (Fin n)) : Fin n → List (Fin n) → C → Prop where
  | start : Traced g ok start settled back start [start] 0
  | step {u v : Fin n} {path : List (Fin n)} {c w : C} (hne : v ≠ start)
    (hback : back v = some u) (hsettled : settled u)
      (htraced : Traced g ok start settled back u path c) (hedge : (v, w) ∈ g.out u) (hok : ok u v) :
      Traced g ok start settled back v (path ++ [v]) (c + w)

section Traced

variable {settled settled' : Fin n → Prop} {back back' : Fin n → Option (Fin n)}
    {v : Fin n} {path : List (Fin n)} {c : C}

omit [IsOrderedAddMonoid C] in
theorem Traced.mono (hsettled : ∀ u, settled u → settled' u ∧ back' u = back u)
    (h : Traced g ok start settled back v path c)
    (hv : back' v = back v) : Traced g ok start settled' back' v path c := by
  induction h with
  | start => exact .start
  | step hne hback hu _ hedge hok ih =>
    exact .step hne (hv.trans hback) (hsettled _ hu).1 (ih (hsettled _ hu).2) hedge hok

omit [IsOrderedAddMonoid C] in
theorem Traced.walk (h : Traced g ok start settled back v path c) : Walk g ok start v path c := by
  induction h with
  | start => exact .nil
  | step _ _ _ _ hedge hok ih => exact .snoc ih hedge hok

omit [IsOrderedAddMonoid C] in
theorem Traced.settled_of_mem (h : Traced g ok start settled back v path c)
    {x : Fin n} (hx : x ∈ path) : x = v ∨ settled x := by
  induction h with
  | start => exact .inl (mem_singleton.1 hx)
  | step _ _ hu _ _ _ ih =>
    rcases mem_append.1 hx with hx | hx
    · rcases ih hx with rfl | hsettled
      · exact .inr hu
      · exact .inr hsettled
    · exact .inl (mem_singleton.1 hx)

omit [IsOrderedAddMonoid C] in
theorem Traced.tracePath_eq (h : Traced g ok start settled back v path c)
    {fuel : Nat} (hfuel : path.length ≤ fuel)
    (rest : List (Fin n)) : tracePath start back fuel v rest = some (path ++ rest) := by
  induction h generalizing fuel rest with
  | start =>
    obtain ⟨fuel, rfl⟩ := Nat.exists_eq_add_of_le' hfuel
    rw [length_singleton, tracePath, if_pos rfl]
    rfl
  | @step u v path c w hne hback hu htraced hedge hok ih =>
    rw [length_append, length_singleton] at hfuel
    obtain ⟨fuel, rfl⟩ := Nat.exists_eq_add_of_le' (Nat.le_of_add_left_le hfuel)
    rw [tracePath, if_neg hne, hback, Option.bind_some, ih (by omega), append_assoc]
    rfl

end Traced

def Backed (g : CostGraph n C) (ok : Fin n → Fin n → Prop) (start : Fin n)
    (st : DState n C) : Prop :=
  ∀ v d, st.distance v = some d →
    ∃ path, Traced g ok start (fun u => ∃ d, st.Settled u d) st.backPointers v path d ∧ path.Nodup

def Open (fe : Fin n → Fin n → Bool) (fn : Fin n → Bool) (u v : Fin n) : Prop :=
  fn v = false ∧ fe u v = false

variable {fe : Fin n → Fin n → Bool} {fn : Fin n → Bool}

/-- **One edge.** No node is settled by it. -/
theorem relaxEdge_spec {st : DState n C} (he : e ∈ g.out node)
    (h : Relaxing g (Open fe fn) start node cost (e :: edges) st.toSearch)
    (hb : Backed g (Open fe fn) start st) :
    Relaxing g (Open fe fn) start node cost edges (relaxEdge fe fn node cost st e).toSearch ∧
      Backed g (Open fe fn) start (relaxEdge fe fn node cost st e) ∧
      ∀ v d, (relaxEdge fe fn node cost st e).Settled v d ↔ st.Settled v d := by
  unfold relaxEdge
  dsimp only
  split_ifs with hnode hedge hbelow
  · exact ⟨h.skip fun hopen => absurd (hnode.symm.trans hopen.1) (by simp), hb, fun _ _ => Iff.rfl⟩
  · exact ⟨h.skip fun hopen => absurd (hedge.symm.trans hopen.2) (by simp), hb, fun _ _ => Iff.rfl⟩
  · have hw := g.nonneg node e he
    have hnot := h.not_settled hw hbelow
    have hsettled : ∀ v d, (st.improve e.1 (cost + e.2)).Settled v d ↔ st.Settled v d :=
      fun v d => h.settled_improve hw hbelow
    have hopen : Open fe fn node e.1 := ⟨by simpa using hnode, by simpa using hedge⟩
    refine ⟨h.improve he hopen hbelow, fun v d hd => ?_, hsettled⟩
    have hmono : ∀ u, (∃ d, st.Settled u d) → (∃ d, (st.improve e.1 (cost + e.2)).Settled u d) ∧
        Function.update st.backPointers e.1 (some node) u = st.backPointers u := by
      rintro u ⟨d, hu⟩
      refine ⟨⟨d, (hsettled u d).2 hu⟩, Function.update_of_ne ?_ _ _⟩
      rintro rfl
      exact hnot d hu
    by_cases hv : v = e.1
    · -- the new path is that of the node and one more edge
      obtain rfl : cost + e.2 = d := by
        subst hv
        simpa [Search.improve] using hd
      obtain ⟨path, htraced, hnodup⟩ := hb node cost h.node_settled.1
      have hne : v ≠ start := by
        rintro rfl
        have hlt := below_iff.1 hbelow 0 (hv ▸ h.frontier.source)
        exact absurd hlt (not_lt.2 (add_nonneg (h.frontier.nonneg h.node_settled.1) hw))
      have hnew : v ∉ path := by
        intro hmem
        rcases htraced.settled_of_mem hmem with rfl | ⟨d, hd⟩
        · exact hnot cost (hv ▸ h.node_settled)
        · exact hnot d (hv ▸ hd)
      refine ⟨path ++ [v], .step (u := node) hne (by simp [hv])
        ⟨cost, (hsettled node cost).2 h.node_settled⟩
        (htraced.mono hmono (hmono node ⟨cost, h.node_settled⟩).2) (hv ▸ he) (hv ▸ hopen), ?_⟩
      exact List.Nodup.append hnodup (nodup_singleton v) (disjoint_singleton.2 hnew)
    · have hd : st.distance v = some d := by simpa [Search.improve, hv] using hd
      obtain ⟨path, htraced, hnodup⟩ := hb v d hd
      exact ⟨path, htraced.mono hmono (Function.update_of_ne hv _ _), hnodup⟩
  · exact ⟨h.skip fun _ => by simpa using hbelow, hb, fun _ _ => Iff.rfl⟩

theorem relaxes_dijkstra : Relaxes g (Open fe fn) start (relaxEdge fe fn) fun _ st =>
    Backed g (Open fe fn) start st where
  popped h hb hpq v d hd := by
    obtain ⟨path, htraced, hnodup⟩ := hb v d hd
    exact ⟨path, htraced.mono (fun u ⟨d, hu⟩ =>
      ⟨⟨d, (Search.settled_popped h hpq).2 (.inl hu)⟩, rfl⟩) rfl, hnodup⟩
  edge hedges h hb := relaxEdge_spec (hedges.subset mem_cons_self) h hb

/-! ### The result -/

/-- What is to be reported for a goal: the cost of a shortest walk and a simple path of this cost,
or no cost and no path if there is no walk. -/
def Shortest (g : CostGraph n C) (ok : Fin n → Fin n → Prop) (start : Fin n)
    (r : Fin n × Option C × List (Fin n)) : Prop :=
  match r.2.1 with
  | some cost => Walk g ok start r.1 r.2.2 cost ∧ r.2.2.Nodup ∧
    ∀ path c, Walk g ok start r.1 path c → cost ≤ c
  | none => r.2.2 = [] ∧ ∀ path c, ¬ Walk g ok start r.1 path c

omit [AddCommMonoid C] [LinearOrder C] [IsOrderedAddMonoid C] in
theorem Search.unsettled_le (s : Search n C) : s.unsettled ≤ n := by
  classical
  exact (Finset.card_le_univ _).trans (Fintype.card_fin n).le

omit [IsOrderedAddMonoid C] in
theorem backed_start : Backed g ok start ⟨Search.start start, fun _ => none⟩ := by
  intro v d hd
  by_cases hv : v = start
  · obtain rfl : 0 = d := by simpa [Search.start, hv] using hd
    exact ⟨[start], hv ▸ .start, nodup_singleton start⟩
  · simp [Search.start, hv] at hd

theorem exists_mapM_eq_some {α β : Type} {f : α → Option β} {P : α → β → Prop}
    {l : List α} (h : ∀ a ∈ l, ∃ b, f a = some b ∧ P a b) :
    ∃ bs, l.mapM f = some bs ∧ List.Forall₂ P l bs := by
  induction l with
  | nil => exact ⟨[], rfl, .nil⟩
  | cons a l ih =>
    obtain ⟨⟨b, hb, hp⟩, hrest⟩ := forall_mem_cons.1 h
    obtain ⟨bs, hbs, hall⟩ := ih hrest
    exact ⟨b :: bs, by simp [mapM_cons, hb, hbs], .cons hp hall⟩

/-- **The search ends, and reports a shortest path for each goal.** -/
theorem dijkstra_spec (g : CostGraph n C) (fe : Fin n → Fin n → Bool) (fn : Fin n → Bool)
    (pops : PopMin n C) {fuel : Nat} (hfuel : n < fuel) (start : Fin n) (goals : Goal n) :
    ∃ res, dijkstra g fe fn pops fuel start goals = some res ∧
      List.Forall₂ (fun t r => r.1 = t ∧ Shortest g (Open fe fn) start r) goals.iter res := by
  have hbegin : Backed g (Open fe fn) start ⟨Search.start start, fun _ => none⟩ := backed_start
  obtain ⟨final, hfinal, hfrontier, hbacked, hend⟩ :=
    relaxes_dijkstra.loop pops goals (lt_of_le_of_lt (Search.unsettled_le _) hfuel) frontier_start hbegin
  rw [dijkstra, hfinal, Option.bind_some]
  refine exists_mapM_eq_some fun t ht => ?_
  cases hdist : final.distance t with
  | none =>
    refine ⟨(t, none, []), rfl, rfl, rfl, fun path c hwalk => ?_⟩
    -- the queue has run empty, since an unreached goal is not settled
    rcases hend with hempty | hall
    · rcases hfrontier.walk hwalk with ⟨d, hd, -⟩ | ⟨v, d, hd, -⟩
      · exact absurd (hdist.symm.trans hd.1) (by simp)
      · exact absurd ((hempty v).symm.trans hd) (by simp)
    · obtain ⟨d, hd⟩ := hall t ht
      exact absurd (hdist.symm.trans hd.1) (by simp)
  | some cost =>
    obtain ⟨path, htraced, hnodup⟩ := hbacked t cost hdist
    have hlength : path.length ≤ fuel :=
      (List.Nodup.length_le_card hnodup).trans ((Fintype.card_fin n).le.trans hfuel.le)
    refine ⟨(t, some cost, path), by simp [htraced.tracePath_eq hlength []],
      rfl, htraced.walk, hnodup, fun path' c hwalk => ?_⟩
    have hsettled : final.Settled t cost := by
      rcases hend with hempty | hall
      · exact ⟨hdist, hempty t⟩
      · obtain ⟨d, hd⟩ := hall t ht
        rwa [← Option.some.inj (hdist.symm.trans hd.1)] at hd
    exact hfrontier.minimal hsettled hwalk

/-- The path takes no forbidden edge and enters no forbidden node. -/
def Avoids (fe : Fin n → Fin n → Bool) (fn : Fin n → Bool) (path : List (Fin n)) : Prop :=
  path.IsChain (fun u v => fe u v = false) ∧ ∀ v ∈ path.tail, fn v = false

omit [IsOrderedAddMonoid C] in
theorem walk_open_iff : Walk g (Open fe fn) start t path c ↔
    Walk g (fun _ _ => True) start t path c ∧ Avoids fe fn path := by
  constructor
  · intro h
    refine ⟨h.mono fun _ _ _ => trivial, ?_⟩
    induction h with
    | nil => exact ⟨.singleton _, by simp⟩
    | snoc hwalk _ hok ih =>
      obtain ⟨rest, hrest⟩ := hwalk.head
      refine ⟨ih.1.append (.singleton _) ?_, ?_⟩
      · rw [hwalk.getLast?]
        simpa using hok.2
      · subst hrest
        simpa [or_imp, forall_and, hok.1] using ih.2
  · rintro ⟨h, havoids⟩
    induction h with
    | nil => exact .nil
    | snoc hwalk hedge _ ih =>
      obtain ⟨rest, hrest⟩ := hwalk.head
      obtain ⟨hchain, hnodes⟩ := havoids
      obtain ⟨hinit, -, hlast⟩ := isChain_append.1 hchain
      rw [hwalk.getLast?] at hlast
      subst hrest
      exact .snoc (ih ⟨hinit, fun v hv => hnodes v (by simp at hv ⊢; exact .inl hv)⟩) hedge
        ⟨hnodes _ (by simp), hlast _ rfl _ rfl⟩

end Frontier

section Result

variable {n : Nat} {C : Type} [AddCommMonoid C] [LinearOrder C] [IsOrderedAddMonoid C]

/-- **Shortest paths.** For every graph, start, goals, forbidden edges and forbidden nodes, and
whatever the queue does among entries of equal cost, the search ends and reports for each goal, in
order, either a cost that no walk avoiding the forbidden edges and nodes undercuts, with a simple
path of this cost that avoids them; or no cost and no path, if there is no such walk. The start
itself may be forbidden. -/
theorem dijkstra_shortest (g : CostGraph n C) (forbiddenEdges : Fin n → Fin n → Bool)
    (forbiddenNodes : Fin n → Bool)
    (pops : PopMin n C) (start : Fin n) (goals : Goal n) (fuel : Nat) (hfuel : n < fuel) :
    ∃ res, dijkstra g forbiddenEdges forbiddenNodes pops fuel start goals = some res ∧
    res.map Prod.fst = goals.iter ∧ ∀ r ∈ res,
        (∃ cost, r.2.1 = some cost ∧ Walk g (fun _ _ => True) start r.1 r.2.2 cost ∧
        Avoids forbiddenEdges forbiddenNodes r.2.2 ∧
          r.2.2.Nodup ∧ ∀ path c, Walk g (fun _ _ => True) start r.1 path c →
          Avoids forbiddenEdges forbiddenNodes path → cost ≤ c) ∨
        (r.2.1 = none ∧ r.2.2 = [] ∧ ¬ ∃ path c, Walk g (fun _ _ => True) start r.1 path c ∧
        Avoids forbiddenEdges forbiddenNodes path) := by
  obtain ⟨res, hres, hall⟩ := dijkstra_spec g forbiddenEdges forbiddenNodes pops hfuel start goals
  refine ⟨res, hres, ?_, fun r hr => ?_⟩
  · have hmap : List.Forall₂ Eq goals.iter (res.map Prod.fst) :=
      forall₂_map_right_iff.2 (hall.imp fun _ _ h => h.1.symm)
    rw [forall₂_eq_eq_eq] at hmap
    exact hmap.symm
  · obtain ⟨t, -, -, hshortest⟩ := exists_of_forall₂ hall.flip hr
    obtain ⟨t, cost, path⟩ := r
    cases cost with
    | some cost =>
      obtain ⟨hwalk, hnodup, hmin⟩ := hshortest
      obtain ⟨hwalk', havoids⟩ := walk_open_iff.1 hwalk
      exact .inl ⟨cost, rfl, hwalk', havoids,
        hnodup, fun path c h ha => hmin path c (walk_open_iff.2 ⟨h, ha⟩)⟩
    | none =>
      obtain ⟨hnil, hnone⟩ := hshortest
      exact .inr ⟨rfl, hnil, fun ⟨path, c, h, ha⟩ => hnone path c (walk_open_iff.2 ⟨h, ha⟩)⟩

/-- A queue that takes the first one of the entries of least cost. -/
def PopMin.first : PopMin n C where
  pop _ pq := ((List.finRange n).filterMap fun v => (pq v).map fun c => (v, c)).argmin Prod.snd
  mem h := by
    have := argmin_mem h
    simp only [mem_filterMap, Option.map_eq_some_iff, Prod.mk.injEq] at this
    obtain ⟨u, -, c, hc, rfl, rfl⟩ := this
    exact hc
  least h u d hd := le_of_mem_argmin (mem_filterMap.2 ⟨u, mem_finRange u, by rw [hd]; rfl⟩) h
  empty h u := by
    rw [argmin_eq_none, filterMap_eq_nil_iff] at h
    simpa using h u (mem_finRange u)

end Result

def twoNodes : CostGraph 2 Nat where
  out := ![[(1, 3)], []]
  nonneg := by simp

/-- The path over the only edge is the result for its end, and no other path costs less. -/
theorem dijkstra_shortest_two_nodes : 2 < 3 ∧ ∃ res,
    dijkstra twoNodes (fun _ _ => false) (fun _ => false) PopMin.first 3 0 .all = some res ∧
      res.map Prod.fst = [0, 1] ∧ (1, some 3, [0, 1]) ∈ res ∧
      Walk twoNodes (fun _ _ => True) 0 1 [0, 1] 3 ∧
      ∀ path c, Walk twoNodes (fun _ _ => True) 0 1 path c →
        Avoids (fun _ _ => false) (fun _ => false) path → 3 ≤ c := by
  obtain ⟨res, hres, hgoals, hall⟩ :=
    dijkstra_shortest twoNodes (fun _ _ => false) (fun _ => false) PopMin.first 0 .all 3 (by decide)
  have hmem : (1, some 3, [0, 1]) ∈ res := by
    have hrun : dijkstra twoNodes (fun _ _ => false) (fun _ => false) PopMin.first 3 0 .all =
        some [(0, some 0, [0]), (1, some 3, [0, 1])] := by decide
    cases hres.symm.trans hrun
    simp
  rcases hall _ hmem with ⟨cost, hcost, hwalk, -, -, hleast⟩ | ⟨hnone, -⟩
  · cases hcost
    exact ⟨by decide, res, hres, hgoals, hmem, hwalk, hleast⟩
  · cases hnone

/-- All nodes are forbidden, so that no path avoids them; but the start is reached from the start,
and a path is reported. -/
theorem forbidden_start_is_reported :
    dijkstra twoNodes (fun _ _ => false) (fun _ => true) PopMin.first 3 0 (.single (some 0)) =
    some [(0, some 0, [0])] ∧
      ¬ ∃ path c, Walk twoNodes (fun _ _ => True) 0 0 path c ∧
      ∀ v ∈ path, (fun _ : Fin 2 => true) v = false := by
  refine ⟨by decide, ?_⟩
  rintro ⟨path, c, hwalk, hall⟩
  obtain ⟨rest, rfl⟩ := hwalk.head
  exact absurd (hall 0 mem_cons_self) (by simp)

end Retia.FixedRule
