import Mathlib

/-!
# Topological sorting and strata

Kahn's algorithm, as `kahn_g` of `fixed_rule/algos/top_sort.rs` and as `generalized_kahn` of
`query/graph.rs`: a node is taken from the stack, put out, and the edges that leave it are taken off
the counters of their ends; a node whose counter reaches zero goes onto the stack.

The second one cuts its output into strata: a node at the end of a poisoned edge from the current
stratum has to wait for the next one. Such nodes are remembered; when nothing else is left to be
taken, the stratum is closed, and those of them whose counter is zero are taken first in the next.

* `Strata` — the invariant. A counter is the number of edges, with their multiplicities, that come
  from nodes not put out yet (`count`), so a node without such an edge is in the output, on the
  stack or remembered (`zero`). What keeps a poisoned edge from staying in a stratum is `marked`:
  the ends of the poisoned edges of the current stratum are remembered, up to those of the edges
  still to be taken off.
* `generalizedKahn_spec` — on a graph without cycles every node gets a stratum, and edges go the
  right way.
* `kahnLoop_eq` — without poisoned edges there is one stratum, the output of `kahn_g`.
* `kahnG_spec` — on a graph with cycles the loop stops early. A node that is left out has a
  predecessor that is left out, and going back along these in a finite graph one meets a node again:
  it is reached from a cycle. The output is closed under predecessors and ordered, so none of its
  nodes is.
-/

namespace Retia

open List Relation

/-- `DirectedCsrGraph<u32>`: the ends of the edges that leave each node, parallel edges included. -/
structure DirectedCsrGraph (N : Type) where
  outNeighbors : N → List N

/-- There is an edge from `u` to `v`. -/
def DirectedCsrGraph.Edge {N : Type} (g : DirectedCsrGraph N) (u v : N) : Prop :=
  v ∈ g.outNeighbors u

/-- `StratifiedGraph<usize>`: the ends of the edges that leave each node, and whether the edge is
poisoned. -/
structure StratifiedGraph (n : Nat) where
  edges : Fin n → List (Fin n × Bool)

def StratifiedGraph.plain {n : Nat} (g : StratifiedGraph n) : DirectedCsrGraph (Fin n) :=
  ⟨fun v => (g.edges v).map Prod.fst⟩

variable {n : Nat} (g : DirectedCsrGraph (Fin n))

/-- The variables of `kahn_g`; the top of the stack comes first. -/
structure KahnState (n : Nat) where
  inDegree : Fin n → Nat
  sorted : List (Fin n)
  pending : List (Fin n)

/-- The counters before the loop: `in_degree[*to as usize] += 1` for every edge. -/
def inDegrees : Fin n → Nat :=
  ((List.finRange n).flatMap g.outNeighbors).foldl
    (fun deg dst => Function.update deg dst (deg dst + 1)) fun _ => 0

def release (st : KahnState n) (nxt : Fin n) : KahnState n where
  inDegree := Function.update st.inDegree nxt (st.inDegree nxt - 1)
  sorted := st.sorted
  pending := if st.inDegree nxt - 1 = 0 then nxt :: st.pending else st.pending

/-- The `while let` loop. -/
def kahnLoop (fuel : Nat) (st : KahnState n) : Option (List (Fin n)) :=
  match st.pending with
  | [] => some st.sorted
  | removed :: pending =>
    match fuel with
    | 0 => none
    | fuel + 1 =>
      kahnLoop fuel ((g.outNeighbors removed).foldl release
        { st with sorted := st.sorted ++ [removed], pending })

/-- `kahn_g`. No run takes more turns than there are nodes. -/
def kahnG : Option (List (Fin n)) :=
  kahnLoop g n ⟨inDegrees g, [], ((List.finRange n).filter fun v => inDegrees g v = 0).reverse⟩

/-- The variables of `generalized_kahn`; the top of the stack comes first. -/
structure StrataState (n : Nat) where
  inDegree : Fin n → Nat
  ret : List (List (Fin n))
  currentStratum : List (Fin n)
  safePending : List (Fin n)
  unsafeNodes : Finset (Fin n)

open StrataState

def StrataState.releaseEdge (st : StrataState n) (e : Fin n × Bool) : StrataState n :=
  let inDegree := Function.update st.inDegree e.1 (st.inDegree e.1 - 1)
  let unsafeNodes := if e.2 then insert e.1 st.unsafeNodes else st.unsafeNodes
  { st with
    inDegree, unsafeNodes
    safePending := if inDegree e.1 = 0 ∧ e.1 ∉ unsafeNodes then e.1 :: st.safePending else st.safePending }

def StrataState.closeStratum (st : StrataState n) : StrataState n :=
  if st.safePending.isEmpty ∧ st.unsafeNodes ≠ ∅ then
    { st with
      ret := st.ret ++ [st.currentStratum]
      currentStratum := []
      safePending := ((List.finRange n).filter fun node => node ∈ st.unsafeNodes ∧
        st.inDegree node = 0).reverse
      unsafeNodes := ∅ }
  else st

def strataLoop (g : StratifiedGraph n) (fuel : Nat) (st : StrataState n) :
    Option (List (List (Fin n))) :=
  match st.closeStratum.safePending with
  | [] => some (st.closeStratum.ret ++ if st.closeStratum.currentStratum.isEmpty then []
    else [st.closeStratum.currentStratum])
  | removed :: safePending =>
    match fuel with
    | 0 => none
    | fuel + 1 => strataLoop g fuel ((g.edges removed).foldl releaseEdge
        { st.closeStratum with currentStratum :=
          st.closeStratum.currentStratum ++ [removed], safePending })

/-- `generalized_kahn`. No run takes more turns than there are nodes. -/
def generalizedKahn (g : StratifiedGraph n) : Option (List (List (Fin n))) :=
  strataLoop g n ⟨inDegrees g.plain, [], [],
    ((List.finRange n).filter fun v => inDegrees g.plain v = 0).reverse, ∅⟩

/-! ### The counters -/

/-- The edges to `v` that come from nodes not yet put out. -/
def edgesLeft (sorted : List (Fin n)) (v : Fin n) : Nat :=
  ∑ u ∈ Finset.univ.filter (· ∉ sorted), (g.outNeighbors u).count v

theorem inDegrees_eq (v : Fin n) : inDegrees g v = edgesLeft g [] v := by
  have hloop : ∀ (l : List (Fin n)) (deg : Fin n → Nat),
      l.foldl (fun deg dst => Function.update deg dst (deg dst + 1)) deg v = deg v + l.count v := by
    intro l
    induction l with
    | nil => simp
    | cons dst l ih =>
      intro deg
      rw [foldl_cons, ih]
      by_cases hdst : v = dst
      · rw [hdst, Function.update_self, count_cons_self]
        omega
      · rw [Function.update_of_ne hdst, count_cons_of_ne (Ne.symm hdst)]
  rw [inDegrees, hloop, Nat.zero_add, count_flatMap, edgesLeft,
    Finset.filter_true_of_mem (by simp), Fin.sum_univ_def]
  rfl

theorem edgesLeft_concat {sorted : List (Fin n)} {u : Fin n} (hu : u ∉ sorted) (v : Fin n) :
    edgesLeft g sorted v = edgesLeft g (sorted ++ [u]) v + (g.outNeighbors u).count v := by
  have hset : Finset.univ.filter (· ∉ sorted) = insert u (Finset.univ.filter (· ∉ sorted ++ [u])) := by
    ext w
    by_cases hw : w = u <;> simp [hw, hu]
  rw [edgesLeft, hset, Finset.sum_insert (by simp), Nat.add_comm]
  rfl

variable {g} in
theorem mem_of_edgesLeft_eq_zero {sorted : List (Fin n)} {u v : Fin n}
    (h : edgesLeft g sorted v = 0) (he : g.Edge u v) : u ∈ sorted := by
  by_contra hu
  have hcount := Finset.sum_eq_zero_iff.1 h u (by simp [hu])
  exact count_eq_zero.1 hcount he

/-! ### The loop -/

def StrataState.done (st : StrataState n) : List (Fin n) := st.ret.flatten ++ st.currentStratum

/-- The edges to the nodes of a stratum come from the strata before it, and those that are not
poisoned from itself as well. -/
def Follows (g : StratifiedGraph n) (before : List (List (Fin n))) (stratum : List (Fin n)) :
    Prop :=
  ∀ v ∈ stratum, ∀ u p, (v, p) ∈ g.edges u → u ∈ before.flatten ∨ p = false ∧ u ∈ stratum

/-- **The invariant**, with edges `rest` of the removed node still to be taken off. -/
structure Strata (g : StratifiedGraph n) (st : StrataState n) (rest : List (Fin n × Bool)) :
    Prop where
  nodup : (st.done ++ st.safePending).Nodup
  count : ∀ v, st.inDegree v = edgesLeft g.plain st.done v + (rest.map Prod.fst).count v
  taken : ∀ v ∈ st.done ++ st.safePending, st.inDegree v = 0 ∧ v ∉ st.unsafeNodes
  zero : ∀ v, st.inDegree v = 0 → v ∈ st.done ++ st.safePending ∨ v ∈ st.unsafeNodes
  marked : ∀ u ∈ st.currentStratum, ∀ v, (v, true) ∈ g.edges u → v ∈ st.unsafeNodes ∨ (v, true) ∈ rest
  forward : ∀ before v, before ++ [v] <+: st.done → ∀ u, g.plain.Edge u v → u ∈ before
  closed : ∀ before stratum, before ++ [stratum] <+: st.ret → Follows g before stratum
  current : Follows g st.ret st.currentStratum

namespace Strata

variable {g : StratifiedGraph n} {st : StrataState n} {rest : List (Fin n × Bool)}

theorem releaseEdge {e : Fin n × Bool} (h : Strata g st (e :: rest)) :
    Strata g (st.releaseEdge e) rest := by
  have hcount := h.count e.1
  rw [map_cons, count_cons_self] at hcount
  -- its counter is not zero yet, so the node has not been taken
  have hnew : e.1 ∉ st.done ++ st.safePending := fun hmem => by
    have := (h.taken _ hmem).1
    omega
  have hother : ∀ v, v ≠ e.1 → (st.releaseEdge e).inDegree v = st.inDegree v := fun v hv =>
    Function.update_of_ne hv _ _
  have hself : (st.releaseEdge e).inDegree e.1 = st.inDegree e.1 - 1 := Function.update_self _ _ _
  have hremembered : ∀ v, v ∈ (st.releaseEdge e).unsafeNodes ↔ v ∈ st.unsafeNodes ∨
    e = (v, true) := fun v => by
    obtain ⟨w, p⟩ := e
    cases p <;> simp [StrataState.releaseEdge, eq_comm, or_comm]
  have hpending : (st.releaseEdge e).safePending = if (st.releaseEdge e).inDegree e.1 = 0 ∧
    e.1 ∉ (st.releaseEdge e).unsafeNodes then
      e.1 :: st.safePending else st.safePending := rfl
  have hmem : ∀ v, v ∈ st.done ++ (st.releaseEdge e).safePending ↔ v ∈ st.done ++ st.safePending ∨
      v = e.1 ∧ (st.releaseEdge e).inDegree v = 0 ∧ v ∉ (st.releaseEdge e).unsafeNodes := fun v => by
    rw [hpending]
    split
    · rename_i hpush
      by_cases hv : v = e.1
      · exact iff_of_true (by simp [hv]) (.inr ⟨hv, hv ▸ hpush⟩)
      · simp [hv]
    · rename_i hnot
      exact ⟨.inl, fun hv => hv.resolve_right fun hp => hnot (hp.1 ▸ hp.2)⟩
  refine ⟨?_, fun v => ?_, fun v hv => ?_, fun v hv => ?_, fun u hu v he => ?_,
    h.forward, h.closed, h.current⟩
  · show (st.done ++ _).Nodup
    rw [hpending]
    split
    · exact nodup_middle.2 (nodup_cons.2 ⟨hnew, h.nodup⟩)
    · exact h.nodup
  · show _ = edgesLeft _ st.done v + _
    by_cases hv : v = e.1
    · rw [hv, hself, hcount]
      exact Nat.add_succ_sub_one _ _
    · rw [hother v hv, h.count, map_cons, count_cons_of_ne (Ne.symm hv)]
  · rcases (hmem v).1 hv with hold | ⟨-, hnow⟩
    · have hne : v ≠ e.1 := fun hv => hnew (hv ▸ hold)
      rw [hother v hne, hremembered]
      exact ⟨(h.taken v hold).1, fun hmark => hmark.elim (h.taken v hold).2 fun he => hne (he ▸ rfl)⟩
    · exact hnow
  · show v ∈ st.done ++ _ ∨ _
    rw [hmem]
    by_cases hne : v = e.1
    · by_cases hmark : v ∈ (st.releaseEdge e).unsafeNodes
      · exact .inr hmark
      · exact .inl (.inr ⟨hne, hv, hmark⟩)
    · exact (h.zero v (hother v hne ▸ hv)).imp .inl fun hmark => (hremembered v).2 (.inl hmark)
  · rcases h.marked u hu v he with hmark | hrest
    · exact .inl ((hremembered v).2 (.inl hmark))
    · exact (mem_cons.1 hrest).imp (fun heq => (hremembered v).2 (.inr heq.symm)) id

theorem releases (h : Strata g st rest) : Strata g (rest.foldl StrataState.releaseEdge st) [] := by
  induction rest generalizing st with
  | nil => exact h
  | cons e rest ih => exact ih h.releaseEdge

theorem take {removed : Fin n} {pending : List (Fin n)} (h : Strata g st [])
    (hst : st.safePending = removed :: pending) :
    Strata g { st with currentStratum := st.currentStratum ++ [removed], safePending :=
    pending } (g.edges removed) := by
  have hdone : st.done ++ [removed] = st.ret.flatten ++ (st.currentStratum ++ [removed]) :=
    append_assoc _ _ _
  have hmem : st.done ++ st.safePending =
    st.ret.flatten ++ (st.currentStratum ++ [removed]) ++ pending := by
    rw [← hdone, hst, append_assoc]
    rfl
  have hremoved := h.taken removed (by simp [hst])
  have hnone : edgesLeft g.plain st.done removed = 0 := by
    have := h.count removed
    rw [hremoved.1] at this
    exact (Nat.eq_zero_of_add_eq_zero this.symm).1
  refine ⟨hmem ▸ h.nodup, fun v => ?_, fun v hv => h.taken v (hmem ▸ hv), fun v hv =>
    (hmem ▸ h.zero v hv), fun u hu v he => ?_,
    fun before v hpre u he => ?_, h.closed, fun v hv u p he => ?_⟩
  · have hnew : removed ∉ st.done := fun hold => by
      have := h.nodup
      rw [hst] at this
      exact (nodup_cons.1 (nodup_middle.1 this)).1 (mem_append_left _ hold)
    show _ = edgesLeft g.plain (st.ret.flatten ++ (st.currentStratum ++ [removed])) v + _
    rw [h.count, edgesLeft_concat _ hnew, hdone]
    rfl
  · rcases mem_append.1 hu with hu | hu
    · exact (h.marked u hu v he).imp_right nofun
    · exact .inr (mem_singleton.1 hu ▸ he)
  · rw [done, ← hdone] at hpre
    rcases prefix_concat_iff.1 hpre with heq | hpre
    · -- the node itself: no edge to it is left, so all its predecessors are put out
      obtain ⟨rfl, rfl⟩ := append_inj' heq rfl |>.imp_right singleton_inj.1
      exact mem_of_edgesLeft_eq_zero hnone he
    · exact h.forward before v hpre u he
  · rcases mem_append.1 hv with hv | hv
    · exact (h.current v hv u p he).imp_right fun hp => ⟨hp.1, mem_append_left _ hp.2⟩
    · obtain rfl := mem_singleton.1 hv
      -- a poisoned edge to the node does not come from this stratum
      rcases mem_append.1 (mem_of_edgesLeft_eq_zero hnone (mem_map.2 ⟨_, he, rfl⟩)) with hu | hu
      · exact .inl hu
      · cases p with
        | false => exact .inr ⟨rfl, mem_append_left _ hu⟩
        | true => exact absurd ((h.marked u hu v he).resolve_right nofun) hremoved.2

end Strata

theorem StrataState.done_closeStratum (st : StrataState n) : st.closeStratum.done = st.done := by
  rw [closeStratum]
  split
  · simp [done]
  · rfl

theorem StrataState.done_releases (l : List (Fin n × Bool)) (st : StrataState n) :
    (l.foldl releaseEdge st).done = st.done := by
  induction l generalizing st with
  | nil => rfl
  | cons e l ih => exact ih (st.releaseEdge e)

namespace Strata

variable {g : StratifiedGraph n} {st : StrataState n}

/-- After it, only nodes that cannot be taken are remembered if none can be taken. -/
theorem closeStratum (h : Strata g st []) : Strata g st.closeStratum [] ∧
    (st.closeStratum.safePending = [] → st.closeStratum.unsafeNodes = ∅) := by
  by_cases hclose : st.safePending.isEmpty ∧ st.unsafeNodes ≠ ∅
  · obtain ⟨hempty, hne⟩ := hclose
    rw [List.isEmpty_iff] at hempty
    have hdone := st.done_closeStratum
    rw [StrataState.closeStratum, if_pos ⟨by simp [hempty], hne⟩] at hdone ⊢
    have htaken := h.taken
    have hzero := h.zero
    rw [hempty, append_nil] at htaken hzero
    refine ⟨⟨?_, fun v => ?_, fun v hv => ?_, fun v hv => ?_, nofun,
      hdone ▸ h.forward, fun before stratum hpre => ?_, nofun⟩, fun _ => rfl⟩
    · rw [hdone]
      refine nodup_append'.2 ⟨(nodup_append.1 h.nodup).1,
        nodup_reverse.2 ((nodup_finRange n).filter _), fun v hv hv' => ?_⟩
      simp only [mem_reverse, mem_filter, decide_eq_true_eq] at hv'
      exact (htaken v hv).2 hv'.2.1
    · rw [hdone]
      exact h.count v
    · rw [hdone, mem_append] at hv
      refine ⟨hv.elim (fun hv => (htaken v hv).1) fun hv => ?_, Finset.notMem_empty v⟩
      simp only [mem_reverse, mem_filter, decide_eq_true_eq] at hv
      exact hv.2.2
    · rw [hdone, mem_append]
      refine .inl ((hzero v hv).imp_right fun hmark => ?_)
      simp only [mem_reverse, mem_filter, decide_eq_true_eq]
      exact ⟨mem_finRange v, hmark, hv⟩
    · rcases prefix_concat_iff.1 hpre with heq | hpre
      · obtain ⟨rfl, hlast⟩ := append_inj' heq rfl
        exact singleton_inj.1 hlast ▸ h.current
      · exact h.closed before stratum hpre
  · rw [StrataState.closeStratum, if_neg hclose]
    refine ⟨h, fun hempty => ?_⟩
    by_contra hne
    exact hclose ⟨by simp [hempty], hne⟩

theorem loop {fuel : Nat} (h : Strata g st []) (hfuel : n ≤ fuel + st.done.length) :
    ∃ st', strataLoop g fuel st = some (st'.ret ++ if st'.currentStratum.isEmpty then []
      else [st'.currentStratum]) ∧ Strata g st' [] ∧
      st'.safePending = [] ∧ st'.unsafeNodes = ∅ := by
  induction fuel generalizing st with
  | zero =>
    obtain ⟨hclose, hend⟩ := h.closeStratum
    -- all nodes have been put out
    have hlen := hclose.nodup.length_le_card
    rw [Fintype.card_fin, length_append, st.done_closeStratum] at hlen
    have hp : st.closeStratum.safePending = [] := length_eq_zero_iff.1 (by omega)
    exact ⟨_, by rw [strataLoop, hp], hclose, hp, hend hp⟩
  | succ fuel ih =>
    obtain ⟨hclose, hend⟩ := h.closeStratum
    cases hp : st.closeStratum.safePending with
    | nil => exact ⟨_, by rw [strataLoop, hp], hclose, hp, hend hp⟩
    | cons removed pending =>
      rw [strataLoop, hp]
      refine ih (hclose.take hp).releases ?_
      have hdone : st.done.length =
        st.closeStratum.ret.flatten.length + st.closeStratum.currentStratum.length := by
        rw [← st.done_closeStratum, StrataState.done, length_append]
      rw [StrataState.done_releases, StrataState.done, length_append, length_append, length_singleton]
      show n ≤ fuel + (st.closeStratum.ret.flatten.length + _)
      omega

end Strata

/-! ### What is left out -/

variable {g}

theorem exists_cycle_of_forall_exists {P : Fin n → Prop} (h : ∀ v, P v → ∃ u, P u ∧ g.Edge u v)
    {v : Fin n} (hv : P v) :
    ∃ c, TransGen g.Edge c c ∧ ReflTransGen g.Edge c v := by
  choose! back hP hE using h
  -- the walk `v`, `back v`, `back (back v)`, … stays in the set
  have hiter : ∀ k, P (back^[k] v) := fun k => by
    induction k with
    | zero => exact hv
    | succ k ih =>
      rw [Function.iterate_succ_apply']
      exact hP _ ih
  have hreach : ∀ i d, ReflTransGen g.Edge (back^[i + d] v) (back^[i] v) := by
    intro i d
    induction d with
    | zero => exact .refl
    | succ d ih =>
      rw [← Nat.add_assoc, Function.iterate_succ_apply']
      exact .head (hE _ (hiter _)) ih
  -- two of its nodes are the same, and the stretch between them is a cycle
  obtain ⟨i, j, hij, heq⟩ : ∃ i j, i < j ∧ back^[i] v = back^[j] v := by
    obtain ⟨i, j, hne, heq⟩ := Finite.exists_ne_map_eq_of_infinite fun k => back^[k] v
    rcases Nat.lt_or_gt_of_ne hne with hlt | hlt
    · exact ⟨i, j, hlt, heq⟩
    · exact ⟨j, i, hlt, heq.symm⟩
  refine ⟨back^[i] v, ?_, by simpa using hreach 0 i⟩
  obtain ⟨d, rfl⟩ := Nat.exists_eq_add_of_lt hij
  have hlast := hE _ (hiter (i + d))
  rw [← Function.iterate_succ_apply' back, Nat.succ_eq_add_one, ← heq] at hlast
  exact .head' hlast (hreach i d)

def StrataState.strata (st : StrataState n) : List (List (Fin n)) :=
  st.ret ++ if st.currentStratum.isEmpty then [] else [st.currentStratum]

theorem StrataState.flatten_strata (st : StrataState n) : st.strata.flatten = st.done := by
  rw [strata, done]
  cases st.currentStratum <;> simp

theorem generalizedKahn_run (g : StratifiedGraph n) :
    ∃ st, generalizedKahn g = some st.strata ∧ Strata g st [] ∧ st.done.Nodup ∧
    ∀ v, v ∈ st.done ↔ edgesLeft g.plain st.done v = 0 := by
  have hinit : Strata g ⟨inDegrees g.plain, [], [],
    ((List.finRange n).filter fun v => inDegrees g.plain v = 0).reverse, ∅⟩ [] := by
    refine ⟨?_, fun v => inDegrees_eq _ v, fun v hv => ?_, fun v hv => ?_,
      nofun, fun before v hpre => ?_, fun before stratum hpre => ?_, nofun⟩
    · exact nodup_reverse.2 ((nodup_finRange n).filter _)
    · simpa [done] using hv
    · simpa [done] using hv
    · simp [done] at hpre
    · simp at hpre
  obtain ⟨st, hst, h, hpending, hremembered⟩ := hinit.loop (Nat.le_add_right n 0)
  have hnodup := h.nodup
  have htaken := h.taken
  have hzero := h.zero
  rw [hpending, append_nil] at hnodup htaken hzero
  refine ⟨st, hst, h, hnodup, fun v => ?_⟩
  have hcount : st.inDegree v = edgesLeft g.plain st.done v := h.count v
  rw [← hcount]
  exact ⟨fun hv => (htaken v hv).1, fun hv => (hzero v hv).resolve_right (by simp [hremembered])⟩

theorem exists_edge_of_edgesLeft_ne_zero {done : List (Fin n)} {v : Fin n}
    (h : edgesLeft g done v ≠ 0) : ∃ u, u ∉ done ∧ g.Edge u v := by
  obtain ⟨u, hu, hcount⟩ := Finset.exists_ne_zero_of_sum_ne_zero h
  exact ⟨u, (Finset.mem_filter.1 hu).2, count_pos_iff.1 (Nat.pos_of_ne_zero hcount)⟩

/-- **Stratification**: on a graph without cycles the loop ends, every node is in one stratum, edges
go to the same stratum or a later one and poisoned edges to a later one. -/
theorem generalizedKahn_spec (g : StratifiedGraph n) (hacyclic : ∀ v, ¬ TransGen g.plain.Edge v v) :
    ∃ strata, generalizedKahn g = some strata ∧ strata.flatten.Nodup ∧ (∀ v, v ∈ strata.flatten) ∧
      ∀ before stratum, before ++ [stratum] <+: strata → Follows g before stratum := by
  obtain ⟨st, hst, h, hnodup, hmem⟩ := generalizedKahn_run g
  refine ⟨st.strata, hst, st.flatten_strata ▸ hnodup, fun v => ?_, fun before stratum hpre => ?_⟩
  · rw [st.flatten_strata]
    by_contra hv
    obtain ⟨c, hcycle, -⟩ := exists_cycle_of_forall_exists
      (fun w hw => exists_edge_of_edgesLeft_ne_zero fun hnone => hw ((hmem w).2 hnone)) hv
    exact hacyclic c hcycle
  · rw [strata] at hpre
    split at hpre
    · exact h.closed before stratum (append_nil st.ret ▸ hpre)
    · rcases prefix_concat_iff.1 hpre with heq | hpre
      · obtain ⟨rfl, hlast⟩ := append_inj' heq rfl
        exact singleton_inj.1 hlast ▸ h.current
      · exact h.closed before stratum hpre

theorem generalizedKahn_spec_chain : ∃ strata,
    generalizedKahn (n := 3) ⟨![[(1, false), (2, true)], [(2, false)], []]⟩ = some strata ∧
    ∀ v, v ∈ strata.flatten := by
  have hup : ∀ u, ∀ v ∈ (StratifiedGraph.plain (n := 3)
      ⟨![[(1, false), (2, true)], [(2, false)], []]⟩).outNeighbors u, u < v := by decide
  obtain ⟨strata, hrun, -, hall, -⟩ := generalizedKahn_spec _ fun v hv => by
    have hlt := Relation.TransGen.mono hup v v hv
    rw [transGen_eq_self] at hlt
    exact lt_irrefl v hlt
  exact ⟨strata, hrun, hall⟩

/-! ### Graphs without labels -/

def DirectedCsrGraph.unpoisoned (g : DirectedCsrGraph (Fin n)) : StratifiedGraph n :=
  ⟨fun v => (g.outNeighbors v).map (·, false)⟩

theorem plain_unpoisoned : g.unpoisoned.plain = g := by
  simp [DirectedCsrGraph.unpoisoned, StratifiedGraph.plain, Function.comp_def]

/-- **One stratum**, and nothing to wait for. -/
theorem kahnLoop_eq (fuel : Nat) (st : KahnState n) : kahnLoop g fuel st =
    (strataLoop g.unpoisoned fuel ⟨st.inDegree, [], st.sorted, st.pending, ∅⟩).map flatten := by
  have hstep : ∀ (l : List (Fin n)) (st : KahnState n),
      (l.map (·, false)).foldl releaseEdge ⟨st.inDegree, [], st.sorted, st.pending, ∅⟩ =
        ⟨(l.foldl release st).inDegree, [], (l.foldl release st).sorted,
          (l.foldl release st).pending, ∅⟩ := by
    intro l
    induction l with
    | nil => exact fun _ => rfl
    | cons nxt l ih =>
      intro st
      rw [map_cons, foldl_cons, foldl_cons, ← ih (release st nxt)]
      simp [releaseEdge, release]
  induction fuel generalizing st with
  | zero =>
    rw [kahnLoop, strataLoop]
    cases hp : st.pending <;> cases st.sorted <;> simp [closeStratum]
  | succ fuel ih =>
    rw [kahnLoop, strataLoop]
    cases hp : st.pending with
    | nil => cases st.sorted <;> simp [closeStratum]
    | cons removed pending =>
      rw [closeStratum, if_neg (by simp)]
      exact (ih _).trans (congrArg _ (congrArg _ (hstep _ _).symm))

/-- **Kahn's algorithm**: the loop ends, it puts out the nodes that no cycle reaches, each once, and
edges go forward. -/
theorem kahnG_spec (g : DirectedCsrGraph (Fin n)) : ∃ sorted, kahnG g = some sorted ∧ sorted.Nodup ∧
    (∀ v, v ∈ sorted ↔ ¬ ∃ c, TransGen g.Edge c c ∧ ReflTransGen g.Edge c v) ∧
    ∀ u v, u ∈ sorted → v ∈ sorted → g.Edge u v → sorted.idxOf u < sorted.idxOf v := by
  obtain ⟨st, hst, h, hnodup, hmem⟩ := generalizedKahn_run g.unpoisoned
  have hforward := h.forward
  rw [plain_unpoisoned] at hmem hforward
  have hout : kahnG g = some st.done := by
    rw [kahnG, kahnLoop_eq, ← st.flatten_strata]
    rw [generalizedKahn, plain_unpoisoned] at hst
    exact congrArg _ hst
  generalize st.done = sorted at hnodup hmem hforward hout
  have hbefore : ∀ u v, v ∈ sorted → g.Edge u v → sorted.idxOf u < sorted.idxOf v := by
    intro u v hv he
    obtain ⟨before, after, heq, hnot⟩ := eq_append_cons_of_mem hv
    have hu := hforward before v ⟨after, by rw [heq, append_assoc]; rfl⟩ u he
    rw [heq, idxOf_append_of_mem hu, idxOf_append_of_notMem hnot, idxOf_cons_self]
    exact Nat.lt_of_lt_of_le (idxOf_lt_length_of_mem hu) (Nat.le_add_right _ _)
  refine ⟨sorted, hout, hnodup, fun v => ⟨?_, fun hno => ?_⟩, fun u v _ => hbefore u v⟩
  · rintro hv ⟨c, hcycle, hreach⟩
    -- the output is closed under predecessors, so it has the whole cycle, on which positions would
    -- grow
    have hclosed : ∀ {u w}, ReflTransGen g.Edge u w → w ∈ sorted → u ∈ sorted := by
      intro u w hreach hw
      induction hreach using Relation.ReflTransGen.head_induction_on with
      | refl => exact hw
      | head he _ ih => exact mem_of_edgesLeft_eq_zero ((hmem _).1 ih) he
    have hgrow : ∀ {u w}, TransGen g.Edge u w → w ∈ sorted → sorted.idxOf u < sorted.idxOf w := by
      intro u w hpath hw
      induction hpath with
      | single he => exact hbefore _ _ hw he
      | tail _ he ih => exact (ih (mem_of_edgesLeft_eq_zero ((hmem _).1 hw) he)).trans (hbefore _ _ hw he)
    exact (hgrow hcycle (hclosed hreach hv)).false
  · by_contra hv
    refine hno (exists_cycle_of_forall_exists (P := fun v => v ∉ sorted) (fun w hw => ?_) hv)
    exact exists_edge_of_edgesLeft_ne_zero fun hnone => hw ((hmem w).2 hnone)

/-- A cycle and what it reaches are left out. -/
example : kahnG (n := 4) ⟨![[1, 1], [], [3], [2, 1]]⟩ = some [0] := by decide

end Retia
