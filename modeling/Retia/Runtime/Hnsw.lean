import Mathlib
import Retia.Lib.Except
import Retia.Lib.PriorityQueue

/-!
# Searching an HNSW index

`hnsw_search_level` and `hnsw_knn` of `runtime/hnsw.rs`. In a level of the index a best-first search
keeps the `ef` nearest nodes it has seen. Of the nodes it visits it follows only those that are
among the nearest when they are met, and it stops at a candidate that is farther than everything
kept. The whole search goes down the levels with one node, and makes the rows from what it finds on
the lowest one.

What is kept can be told from the nodes visited (`Nearest`): `ef` of them, or all, and none of those
left out is nearer. A node that is dropped, or not taken at all, is no nearer than any that stays,
and what stays only gets nearer; so it may be forgotten. A kept node is a candidate until its
neighbours are visited, and no kept node is left among the candidates when the search stops. So its
result is a local optimum (`LocalOptimum`): a neighbour of a kept node is kept, or there are `ef`
kept nodes that are not farther.

* `Searching` — the invariant of the loop;
* `hnswSearchLevel_spec` — the search in a level;
* `hnswKnn_spec` — the whole search.
-/

namespace Retia

open List

/-- The distances from the vector that is searched for, and the priority queues of the library. -/
structure VectorQuery (K D : Type) [LinearOrder D] where
  dist : K → D
  maxQueue : PriorityQueue K D
  minQueue : PriorityQueue K Dᵒᵈ

/-- The variables of `hnsw_search_level`. -/
structure SearchState (K D : Type) where
  visited : Finset K
  candidates : List (K × Dᵒᵈ)
  foundNn : List (K × D)

namespace VectorQuery

variable {K D : Type} [DecidableEq K] [LinearOrder D] (q : VectorQuery K D)
    (neighbours : K → List K) (ef : Nat)

/-- A neighbour that is near enough is kept, and if this is one too many, one that is farthest is
dropped. -/
def keep (foundNn : List (K × D)) (neighbour : K) (furtherest : D) : List (K × D) :=
  if foundNn.length < ef ∨ q.dist neighbour < furtherest then
    let foundNn := PriorityQueue.push foundNn neighbour (q.dist neighbour)
    if ef < foundNn.length then q.maxQueue.pop foundNn else foundNn
  else foundNn

def visitNeighbour (st : SearchState K D) (neighbour : K) : Option (SearchState K D) :=
  if neighbour ∈ st.visited then some st
  else (q.maxQueue.peek st.foundNn).map fun candFurtherest =>
    { visited := insert neighbour st.visited
      candidates := if st.foundNn.length < ef ∨ q.dist neighbour < candFurtherest.2 then
        PriorityQueue.push st.candidates neighbour (OrderDual.toDual (q.dist neighbour)) else st.candidates
      foundNn := q.keep ef st.foundNn neighbour candFurtherest.2 }

/-- The `while let` loop. -/
def searchLoop (fuel : Nat) (st : SearchState K D) : Option (SearchState K D) :=
  match q.minQueue.peek st.candidates with
  | none => some st
  | some candidate =>
    match fuel with
    | 0 => none
    | fuel + 1 => do
      let furtherest ← q.maxQueue.peek st.foundNn
      let st := { st with candidates := st.candidates.erase candidate }
      if furtherest.2 < OrderDual.ofDual candidate.2 then some st
      else searchLoop fuel (← (neighbours candidate.1).foldlM (q.visitNeighbour ef) st)

/-- `hnsw_search_level`, with the nodes that were visited. No run takes more turns than there are
nodes. -/
def hnswSearchLevel [Fintype K] (foundNn : List (K × D)) : Option (SearchState K D) :=
  q.searchLoop neighbours ef (Fintype.card K)
    ⟨(foundNn.map Prod.fst).toFinset, foundNn.map fun item => (item.1, OrderDual.toDual item.2), foundNn⟩

/-! ### The nearest of the nodes visited -/

/-- **What is kept**: as many of the nodes visited as there is room for, with their distances, and
none of the others is nearer. -/
structure Nearest (visited : Finset K) (foundNn : List (K × D)) : Prop where
  nodup : (foundNn.map Prod.fst).Nodup
  seen : ∀ x ∈ foundNn, x.1 ∈ visited ∧ x.2 = q.dist x.1
  length : foundNn.length = min ef visited.card
  least : ∀ x ∈ foundNn, ∀ v ∈ visited, v ∉ foundNn.map Prod.fst → x.2 ≤ q.dist v

variable {q neighbours ef} {visited : Finset K} {foundNn : List (K × D)}

theorem Nearest.mem_of_room (h : q.Nearest ef visited foundNn) (hroom : foundNn.length < ef)
    {v : K} (hv : v ∈ visited) : v ∈ foundNn.map Prod.fst := by
  have hlength := h.length
  have hall : (foundNn.map Prod.fst).toFinset = visited := by
    refine Finset.eq_of_subset_of_card_le (fun u hu => ?_) ?_
    · obtain ⟨y, hy, rfl⟩ := mem_map.1 (mem_toFinset.1 hu)
      exact (h.seen y hy).1
    · rw [toFinset_card_of_nodup h.nodup, length_map]
      omega
  exact mem_toFinset.1 (hall ▸ hv)

theorem mem_keep {v : K} {far : D} {x : K × D} (hx : x ∈ q.keep ef foundNn v far) :
    x ∈ foundNn ∨ x.1 = v ∧ (foundNn.length < ef ∨ q.dist v < far) := by
  rw [VectorQuery.keep] at hx
  split at hx
  · rename_i hpush
    have hx : x ∈ PriorityQueue.push foundNn v (q.dist v) := by
      dsimp only at hx
      split at hx
      · exact q.maxQueue.mem_of_mem_pop hx
      · exact hx
    rcases mem_cons.1 hx with rfl | hx
    · exact .inr ⟨rfl, hpush⟩
    · exact .inl (mem_of_mem_filter hx)
  · exact .inl hx

theorem Nearest.keep (h : q.Nearest ef visited foundNn) {v : K} (hv : v ∉ visited)
    {furthest : K × D}
    (hpeek : q.maxQueue.peek foundNn = some furthest) :
    q.Nearest ef (insert v visited) (q.keep ef foundNn v furthest.2) := by
  have hcard : (insert v visited).card = visited.card + 1 := Finset.card_insert_of_notMem hv
  have hlength := h.length
  have hnew : v ∉ foundNn.map Prod.fst := fun hmem => by
    obtain ⟨x, hx, rfl⟩ := mem_map.1 hmem
    exact hv (h.seen x hx).1
  rw [VectorQuery.keep]
  by_cases hpush : foundNn.length < ef ∨ q.dist v < furthest.2
  · -- with the new node, and nothing dropped yet
    have hnodup : (((v, q.dist v) :: foundNn).map Prod.fst).Nodup := nodup_cons.2 ⟨hnew, h.nodup⟩
    have hseen : ∀ x ∈ (v, q.dist v) :: foundNn, x.1 ∈ insert v visited ∧ x.2 = q.dist x.1 := by
      refine forall_mem_cons.2 ⟨⟨Finset.mem_insert_self _ _, rfl⟩, fun x hx => ?_⟩
      exact ⟨Finset.mem_insert_of_mem (h.seen x hx).1, (h.seen x hx).2⟩
    have hleast : ∀ x ∈ (v, q.dist v) :: foundNn, ∀ w ∈ insert v visited,
      w ∉ ((v, q.dist v) :: foundNn).map Prod.fst → x.2 ≤ q.dist w := by
      intro x hx w hw hout
      rw [map_cons, mem_cons, not_or] at hout
      have hw := Finset.mem_of_mem_insert_of_ne hw hout.1
      rcases mem_cons.1 hx with rfl | hx
      · rcases hpush with hroom | hnear
        · exact absurd (h.mem_of_room hroom hw) hout.2
        · exact hnear.le.trans (h.least furthest (q.maxQueue.mem_of_peek _ _ hpeek) w hw hout.2)
      · exact h.least x hx w hw hout.2
    rw [if_pos hpush, PriorityQueue.push_of_notMem hnew]
    dsimp only
    split
    · -- one that is farthest is dropped
      rename_i hfull
      rw [length_cons] at hfull
      obtain ⟨y, hy⟩ := q.maxQueue.exists_peek (cons_ne_nil (v, q.dist v) foundNn)
      have hymem := q.maxQueue.mem_of_peek _ _ hy
      rw [PriorityQueue.pop, hy]
      have hsub := erase_sublist (a := y) (l := (v, q.dist v) :: foundNn)
      refine ⟨hnodup.sublist (hsub.map _), fun x hx => hseen x (hsub.subset hx),
        ?_, fun x hx w hw hout => ?_⟩
      · rw [length_erase_of_mem hymem, length_cons, hcard]
        omega
      · by_cases hwy : w = y.1
        · rw [hwy, ← (hseen y hymem).2]
          exact q.maxQueue.le_of_peek _ _ hy x (hsub.subset hx)
        · refine hleast x (hsub.subset hx) w hw fun hin => hout ?_
          obtain ⟨z, hz, rfl⟩ := mem_map.1 hin
          exact mem_map_of_mem ((mem_erase_of_ne fun heq => hwy (congrArg Prod.fst heq)).2 hz)
    · rename_i hfits
      exact ⟨hnodup, hseen, by rw [length_cons] at hfits ⊢; omega, hleast⟩
  · rw [if_neg hpush]
    rw [not_or, not_lt, not_lt] at hpush
    refine ⟨h.nodup, fun x hx => ⟨Finset.mem_insert_of_mem (h.seen x hx).1,
      (h.seen x hx).2⟩, by omega, fun x hx w hw hout => ?_⟩
    rcases Finset.mem_insert.1 hw with rfl | hw
    · exact (q.maxQueue.le_of_peek _ _ hpeek x hx).trans hpush.2
    · exact h.least x hx w hw hout

/-! ### The loop -/

/-- **What a search finds** in a level: at most `ef` nodes, reached from `start`. A neighbour of one
of them is found too, or there are `ef`, and none is farther. -/
structure LocalOptimum (q : VectorQuery K D) (neighbours : K → List K) (ef : Nat)
    (start : K) (foundNn : List (K × D)) : Prop where
  reached : ∀ x ∈ foundNn, Relation.ReflTransGen (fun u v => v ∈ neighbours u) start x.1
  nodup : (foundNn.map Prod.fst).Nodup
  nonempty : foundNn ≠ []
  length_le : foundNn.length ≤ ef
  dist_eq : ∀ x ∈ foundNn, x.2 = q.dist x.1
  closed : ∀ x ∈ foundNn, ∀ w ∈ neighbours x.1, w ∈ foundNn.map Prod.fst ∨
    foundNn.length = ef ∧ ∀ y ∈ foundNn, y.2 ≤ q.dist w

/-- **The invariant** of a search from `start`, while the neighbours of the nodes in `busy` are
visited; `bound` turns are enough. -/
structure Searching [Fintype K] (q : VectorQuery K D) (neighbours : K → List K)
    (ef : Nat) (start : K) (busy : K → Prop) (bound : Nat)
    (st : SearchState K D) : Prop where
  nearest : q.Nearest ef st.visited st.foundNn
  nonempty : st.foundNn ≠ []
  candidates : ∀ c ∈ st.candidates, c.1 ∈ st.visited ∧ c.2 = OrderDual.toDual (q.dist c.1)
  expanded : ∀ x ∈ st.foundNn, x.1 ∈ st.candidates.map Prod.fst ∨ busy x.1 ∨
    ∀ w ∈ neighbours x.1, w ∈ st.visited
  reached : ∀ v ∈ st.visited, Relation.ReflTransGen (fun u v => v ∈ neighbours u) start v
  measure : st.candidates.length + Fintype.card K ≤ bound + st.visited.card

namespace Searching

variable [Fintype K] {start : K} {busy : K → Prop} {bound : Nat} {st : SearchState K D}
    (hef : 1 ≤ ef)

include hef

theorem visit (h : q.Searching neighbours ef start busy bound st) {u v : K}
    (hu : u ∈ st.visited) (hv : v ∈ neighbours u) :
    ∃ st', q.visitNeighbour ef st v = some st' ∧ q.Searching neighbours ef start busy bound st' ∧
    insert v st.visited ⊆ st'.visited := by
  rw [visitNeighbour]
  split
  · rename_i hold
    exact ⟨st, rfl, h, Finset.insert_subset hold (Finset.Subset.refl _)⟩
  rename_i hnew
  obtain ⟨furthest, hpeek⟩ := q.maxQueue.exists_peek h.nonempty
  have hcard : (insert v st.visited).card = st.visited.card + 1 := Finset.card_insert_of_notMem hnew
  have hnearest := h.nearest.keep hnew hpeek
  have hmeasure := h.measure
  rw [hpeek]
  refine ⟨_, rfl, ⟨hnearest, fun hnil => ?_, fun c hc => ?_, fun x hx => ?_,
    Finset.forall_mem_insert _ _ _ |>.2 ⟨(h.reached u hu).tail hv, h.reached⟩, ?_⟩,
    Finset.Subset.refl _⟩
  · have hlength := hnearest.length
    dsimp only at hnil
    rw [hnil, hcard, length_nil] at hlength
    omega
  · have hold : ∀ c ∈ st.candidates, c.1 ∈ insert v st.visited ∧
      c.2 = OrderDual.toDual (q.dist c.1) := fun c hc =>
      ⟨Finset.mem_insert_of_mem (h.candidates c hc).1, (h.candidates c hc).2⟩
    dsimp only at hc
    split at hc
    · rcases mem_cons.1 hc with rfl | hc
      · exact ⟨Finset.mem_insert_self _ _, rfl⟩
      · exact hold c (mem_of_mem_filter hc)
    · exact hold c hc
  · dsimp only
    rcases mem_keep hx with hx | ⟨heq, hpush⟩
    · rcases h.expanded x hx with hcand | hbusy | hall
      · left
        split
        · obtain ⟨c, hc, heq⟩ := mem_map.1 hcand
          have hne : c.1 ≠ v := fun hcv => hnew (hcv ▸ (h.candidates c hc).1)
          exact mem_map.2 ⟨c, mem_cons_of_mem _ (mem_filter.2 ⟨hc, by simpa using hne⟩), heq⟩
        · exact hcand
      · exact .inr (.inl hbusy)
      · exact .inr (.inr fun w hw => Finset.mem_insert_of_mem (hall w hw))
    · left
      rw [if_pos hpush, heq]
      exact mem_cons_self
  · have hfilter := length_filter_le (fun c : K × Dᵒᵈ => c.1 ≠ v) st.candidates
    dsimp only
    rw [hcard]
    split
    · rw [PriorityQueue.push, length_cons]
      omega
    · omega

theorem visits (h : q.Searching neighbours ef start busy bound st) {u : K}
    {vs : List K} (hvs : ∀ v ∈ vs, v ∈ neighbours u) (hu : u ∈ st.visited) :
    ∃ st', vs.foldlM (q.visitNeighbour ef) st = some st' ∧
    q.Searching neighbours ef start busy bound st' ∧ st.visited ⊆ st'.visited ∧
    ∀ v ∈ vs, v ∈ st'.visited := by
  induction vs generalizing st with
  | nil => exact ⟨st, rfl, h, Finset.Subset.refl _, nofun⟩
  | cons v vs ih =>
    obtain ⟨hv, hvs⟩ := forall_mem_cons.1 hvs
    obtain ⟨st₁, hst₁, h₁, hsub₁⟩ := h.visit hef hu hv
    have hsub := (Finset.subset_insert v st.visited).trans hsub₁
    obtain ⟨st₂, hst₂, h₂, hsub₂, hall⟩ := ih h₁ hvs (hsub hu)
    refine ⟨st₂, ?_, h₂, hsub.trans hsub₂,
      forall_mem_cons.2 ⟨hsub₂ (hsub₁ (Finset.mem_insert_self _ _)), hall⟩⟩
    rw [foldlM_cons, hst₁]
    exact hst₂

omit hef in
/-- A search in which the neighbours of all kept nodes are visited. -/
theorem localOptimum (h : q.Searching neighbours ef start busy bound st)
    (hall : ∀ x ∈ st.foundNn, ∀ w ∈ neighbours x.1, w ∈ st.visited) :
    q.LocalOptimum neighbours ef start st.foundNn := by
  have hlength := h.nearest.length
  refine ⟨fun x hx => h.reached _ (h.nearest.seen x hx).1, h.nearest.nodup,
    h.nonempty, by omega, fun x hx => (h.nearest.seen x hx).2,
    fun x hx w hw => ?_⟩
  by_cases hin : w ∈ st.foundNn.map Prod.fst
  · exact .inl hin
  · refine .inr ⟨le_antisymm (by omega)
      (not_lt.1 fun hroom => hin (h.nearest.mem_of_room hroom (hall x hx w hw))), ?_⟩
    exact fun y hy => h.nearest.least y hy w (hall x hx w hw) hin

omit hef [DecidableEq K] in
/-- A candidate that is farther than everything kept: the others are farther as well, so none of
them is kept. -/
theorem kept_expanded (h : q.Searching neighbours ef start busy bound st)
    {candidate : K × Dᵒᵈ} (hpeek : q.minQueue.peek st.candidates = some candidate)
    {furthest : K × D} (hfurthest : q.maxQueue.peek st.foundNn = some furthest)
    (hfar : furthest.2 < candidate.2.ofDual) :
    ∀ x ∈ st.foundNn, x.1 ∉ st.candidates.map Prod.fst := by
  intro x hx hin
  obtain ⟨c, hc, heq⟩ := mem_map.1 hin
  have hle : candidate.2.ofDual ≤ c.2.ofDual := q.minQueue.le_of_peek _ _ hpeek c hc
  rw [(h.candidates c hc).2, OrderDual.ofDual_toDual, heq, ← (h.nearest.seen x hx).2] at hle
  exact (hfar.trans_le (hle.trans (q.maxQueue.le_of_peek _ _ hfurthest x hx))).false

omit hef in
/-- A candidate is taken, and its neighbours are to be visited. -/
theorem take (h : q.Searching neighbours ef start (fun _ => False) (bound + 1) st)
    {candidate : K × Dᵒᵈ} (hmem : candidate ∈ st.candidates) :
    q.Searching neighbours ef start (· = candidate.1) bound
      { st with candidates := st.candidates.erase candidate } := by
  have hlen : (st.candidates.erase candidate).length + 1 = st.candidates.length :=
    length_erase_add_one hmem
  have hmeasure := h.measure
  refine ⟨h.nearest, h.nonempty, fun c hc => h.candidates c (mem_of_mem_erase hc), fun x hx => ?_,
    h.reached, by dsimp only; omega⟩
  rcases h.expanded x hx with hin | hfalse | hall
  · obtain ⟨c, hc, heq⟩ := mem_map.1 hin
    by_cases hcand : c = candidate
    · exact .inr (.inl (hcand ▸ heq.symm))
    · exact .inl (mem_map.2 ⟨c, (mem_erase_of_ne hcand).2 hc, heq⟩)
  · exact hfalse.elim
  · exact .inr (.inr hall)

/-- The whole loop. It ends when there are no candidates, or all are farther than what is kept. -/
theorem loop (h : q.Searching neighbours ef start (fun _ => False) bound st) :
    ∃ st', q.searchLoop neighbours ef bound st = some st' ∧
    q.LocalOptimum neighbours ef start st'.foundNn := by
  have hend : ∀ {bound st}, q.Searching neighbours ef start (fun _ => False) bound st →
    (∀ x ∈ st.foundNn, x.1 ∉ st.candidates.map Prod.fst) →
      q.LocalOptimum neighbours ef start st.foundNn := fun h hout =>
    h.localOptimum fun x hx => ((h.expanded x hx).resolve_left (hout x hx)).resolve_left id
  have hmeasure := h.measure
  induction bound generalizing st with
  | zero =>
    -- all nodes are visited, and no candidate is left
    have hempty : st.candidates = [] := length_eq_zero_iff.1 (by have := st.visited.card_le_univ; omega)
    have hpeek : q.minQueue.peek st.candidates = none := by
      rw [Option.eq_none_iff_forall_ne_some]
      intro x hx
      have := q.minQueue.mem_of_peek _ _ hx
      simp [hempty] at this
    exact ⟨st, by rw [searchLoop, hpeek], hend h (by simp [hempty])⟩
  | succ bound ih =>
    rw [searchLoop]
    cases hpeek : q.minQueue.peek st.candidates with
    | none => exact ⟨st, rfl, hend h (by simp [q.minQueue.peek_eq_none _ hpeek])⟩
    | some candidate =>
      obtain ⟨furthest, hfurthest⟩ := q.maxQueue.exists_peek h.nonempty
      have hmem := q.minQueue.mem_of_peek _ _ hpeek
      dsimp only
      rw [hfurthest, Option.bind_eq_bind, Option.bind_some]
      split
      · rename_i hfar
        have hopt := hend h (h.kept_expanded hpeek hfurthest hfar)
        exact ⟨_, rfl, hopt⟩
      · obtain ⟨st₁, hst₁, h₁, -, hall⟩ :=
          (h.take hmem).visits hef (fun _ hv => hv) (h.candidates candidate hmem).1
        rw [hst₁]
        refine ih ⟨h₁.nearest, h₁.nonempty, h₁.candidates, fun x hx => ?_,
          h₁.reached, h₁.measure⟩ h₁.measure
        rcases h₁.expanded x hx with hin | heq | hvisited
        · exact .inl hin
        · exact .inr (.inr (heq ▸ hall))
        · exact .inr (.inr hvisited)

end Searching

/-- **The search in a level**, from one node, ends with a local optimum. -/
theorem hnswSearchLevel_spec [Fintype K] (q : VectorQuery K D) (neighbours : K → List K)
    (hef : 1 ≤ ef) (v : K) : ∃ st,
    q.hnswSearchLevel neighbours ef [(v, q.dist v)] = some st ∧
    q.LocalOptimum neighbours ef v st.foundNn := by
  have hinit : q.Searching neighbours ef v (fun _ => False) (Fintype.card K)
      ⟨{v}, [(v, OrderDual.toDual (q.dist v))], [(v, q.dist v)]⟩ := by
    refine ⟨⟨nodup_singleton v, by simp, by simpa using hef, by simp⟩,
      cons_ne_nil _ _, by simp, by simp, fun w hw => ?_, by simp [Nat.add_comm]⟩
    exact Finset.mem_singleton.1 hw ▸ .refl
  exact hinit.loop hef

end VectorQuery

/-! ### The whole search -/

/-- `HnswSearch`: the number of rows asked for, the width of the search, the radius, and how the row
of a node is made and filtered. -/
structure HnswSearch (K D ρ ε : Type) where
  k : Nat
  ef : Nat
  radius : Option D
  candTuple : K × D → Except ε ρ
  filter : Option (ρ → Except ε Bool)

variable {K D ρ ε : Type} [LinearOrder D] {config : HnswSearch K D ρ ε} {out : K × D → Option ρ}

/-- What becomes of an item that is taken from the queue. -/
def HnswSearch.emit (config : HnswSearch K D ρ ε) (cand : K × D) : Except ε (Option ρ) :=
  if config.radius.any (· < cand.2) then .ok none
  else do
    let candTuple ← config.candTuple cand
    match config.filter with
    | none => .ok (some candTuple)
    | some code => .ok (if ← code candTuple then some candTuple else none)

/-- Without a filter the radius decides, and what is behind an item outside of it is outside too. -/
theorem HnswSearch.outside (hout : ∀ cand, config.emit cand = .ok (out cand))
    (hfilter : config.filter = none) {a b : K × D} (hle : a.2 ≤ b.2)
    (ha : out a = none) : out b = none := by
  have hemit := hout a
  rw [ha, emit, hfilter] at hemit
  split at hemit
  · rename_i hradius
    have hb : config.radius.any (· < b.2) = true := by
      cases hr : config.radius with
      | none => simp [hr] at hradius
      | some r => simpa using lt_of_lt_of_le (by simpa [hr] using hradius) hle
    have hemit := hout b
    rw [emit, if_pos hb] at hemit
    exact (Except.ok.inj hemit).symm
  · obtain ⟨t, -, ht⟩ := bind_ok.1 hemit
    cases ht

/-- If nothing is put out after an item that is not, it does not matter when the list is cut. -/
theorem take_filterMap_take {α : Type} {out : α → Option ρ} {l : List α}
    (hl : l.Pairwise fun a b => out a = none → out b = none) (k : Nat) :
    ((l.take k).filterMap out).take k = (l.filterMap out).take k := by
  induction l generalizing k with
  | nil => simp
  | cons a l ih =>
    obtain ⟨ha, hl⟩ := pairwise_cons.1 hl
    cases k with
    | zero => simp
    | succ k =>
      cases hout : out a with
      | none =>
        have hnone : ∀ l', l' ⊆ l → l'.filterMap out = [] := fun l' hsub =>
          filterMap_eq_nil_iff.2 fun b hb => ha b (hsub hb) hout
        rw [take_succ_cons, filterMap_cons_none hout, filterMap_cons_none hout,
          hnone _ (take_subset k l), hnone l (Subset.refl l)]
      | some r => rw [take_succ_cons, filterMap_cons_some hout, filterMap_cons_some hout,
        take_succ_cons, take_succ_cons, ih hl]

namespace VectorQuery

variable [DecidableEq K] [Fintype K] (q : VectorQuery K D) (neighbours : Int → K → List K)

/-- The search on the way down, with one node in each level. -/
def descend (levels : List Int) (foundNn : List (K × D)) : Option (List (K × D)) :=
  levels.foldlM (fun foundNn level =>
    (q.hnswSearchLevel (neighbours level) 1 foundNn).map (·.foundNn)) foundNn

/-- `hnsw_knn`, from the level and the node of the entry point, if there is one. -/
def hnswKnn (config : HnswSearch K D ρ ε) : Option (Int × K) → Option (Except ε (List ρ))
  | none => some (.ok [])
  | some (bottomLevel, epKey) => do
    let foundNn ← q.descend neighbours
      ((List.range (-bottomLevel).toNat).map fun i : Nat => bottomLevel + i) [(epKey, q.dist epKey)]
    let st ← q.hnswSearchLevel (neighbours 0) config.ef foundNn
    let foundNn := if config.filter.isNone then q.maxQueue.truncate config.k st.foundNn else st.foundNn
    some do
      let ret ← (q.maxQueue.drain foundNn).mapM config.emit
      .ok (ret.reduceOption.reverse.take config.k)

abbrev Linked : K → K → Prop := Relation.ReflTransGen fun u v => ∃ level, v ∈ neighbours level u

theorem descend_eq (levels : List Int) (v : K) : ∃ w, Linked neighbours v w ∧
    q.descend neighbours levels [(v, q.dist v)] = some [(w, q.dist w)] := by
  induction levels generalizing v with
  | nil => exact ⟨v, .refl, rfl⟩
  | cons level levels ih =>
    obtain ⟨st, hst, hfound⟩ := q.hnswSearchLevel_spec (neighbours level) le_rfl v
    obtain ⟨x, hx⟩ := length_eq_one_iff.1 (le_antisymm hfound.length_le (length_pos_iff.2 hfound.nonempty))
    have hmem : x ∈ st.foundNn := hx ▸ mem_singleton_self x
    obtain ⟨w, hw, hrun⟩ := ih x.1
    refine ⟨w, .trans ((hfound.reached x hmem).lift id fun _ _ h => ⟨level, h⟩) hw, ?_⟩
    rw [descend, foldlM_cons, hst, Option.map_some, hx,
      show x = (x.1, q.dist x.1) from Prod.ext rfl (hfound.dist_eq x hmem)]
    exact hrun

/-- **The whole search** ends. Its rows are those of a local optimum of the lowest level, found from
a node that is linked to the entry point: in the order of the distances, the first `k` of those
within the radius that pass the filter. -/
theorem hnswKnn_spec (config : HnswSearch K D ρ ε) (bottomLevel : Int) (ep : K)
    (hef : 1 ≤ config.ef) (out : K × D → Option ρ)
    (hout : ∀ cand, config.emit cand = .ok (out cand)) :
    ∃ start, ∃ foundNn sorted : List (K × D), Linked neighbours ep start ∧
      q.LocalOptimum (neighbours 0) config.ef start foundNn ∧ sorted.Perm foundNn ∧
      (sorted.Pairwise fun a b => a.2 ≤ b.2) ∧
      q.hnswKnn neighbours config (some (bottomLevel, ep)) =
      some (.ok ((sorted.filterMap out).take config.k)) := by
  obtain ⟨v, hv, hdescend⟩ := q.descend_eq neighbours
    ((List.range (-bottomLevel).toNat).map fun i : Nat => bottomLevel + i) ep
  obtain ⟨st, hst, hfound⟩ := q.hnswSearchLevel_spec (neighbours 0) hef v
  have hperm := q.maxQueue.drain_perm st.foundNn
  have hsorted : (q.maxQueue.drain st.foundNn).reverse.Pairwise fun a b => a.2 ≤ b.2 :=
    pairwise_reverse.2 (q.maxQueue.pairwise_drain _)
  refine ⟨v, st.foundNn, (q.maxQueue.drain st.foundNn).reverse, hv, hfound,
    (reverse_perm _).trans hperm, hsorted, ?_⟩
  have hrows : ∀ l : List (K × D), (do
      let ret ← l.mapM config.emit
      Except.ok (ret.reduceOption.reverse.take config.k)) =
        Except.ok ((l.reverse.filterMap out).take config.k) := by
    intro l
    rw [show config.emit = fun cand => pure (out cand) from funext hout, mapM_pure,
      pure_bind, reduceOption, filterMap_map, filterMap_reverse]
    rfl
  rw [hnswKnn, hdescend]
  refine (congrArg (· >>= _) hst).trans (congrArg some ((hrows _).trans ?_))
  cases hfilter : config.filter with
  | some code => rfl
  | none =>
    -- the queue is cut to `k` items before the radius is looked at
    have htake := take_filterMap_take (hsorted.imp fun hle => HnswSearch.outside hout hfilter hle) config.k
    rw [Option.isNone_none, if_pos rfl,
      q.maxQueue.drain_truncate, ← hperm.length_eq, ← take_reverse, htake]

/-- Two nodes that are linked to each other, searched from the farther one: both are found, and the
nearer one is returned. -/
theorem hnswKnn_pair :
    let q : VectorQuery Bool Nat := ⟨Bool.toNat, .first, .first⟩
    let config : HnswSearch Bool Nat Bool String := ⟨1, 2, none, fun cand => .ok cand.1, none⟩
    ∃ start, ∃ foundNn sorted : List (Bool × Nat), Linked (fun _ v => [!v]) true start ∧
      q.LocalOptimum (fun v => [!v]) 2 start foundNn ∧ sorted.Perm foundNn ∧
      (sorted.Pairwise fun a b => a.2 ≤ b.2) ∧
        (sorted.filterMap fun cand => some cand.1).take 1 = [false] ∧
      q.hnswKnn (fun _ v => [!v]) config (some (-1, true)) = some (.ok [false]) := by
  intro q config
  obtain ⟨start, foundNn, sorted, hlinked, hoptimum, hperm, hsorted, hrun⟩ :=
    hnswKnn_spec q (fun _ v => [!v]) config (-1) true (by decide) (fun cand => some cand.1) fun _ => rfl
  have hrows : q.hnswKnn (fun _ v => [!v]) config (some (-1, true)) = some (.ok [false]) := by
    decide +kernel
  exact ⟨start, foundNn, sorted, hlinked, hoptimum, hperm, hsorted,
    Except.ok.inj (Option.some.inj (hrun.symm.trans hrows)), hrows⟩

end VectorQuery

end Retia
