import Mathlib
import Retia.Query.Sane

/-!
# Range reads of stores

A store of meet aggregates keeps a row in two parts, the group as the key and the aggregated columns
as the value. A range read cuts its bounds down to the length of a group, finds candidates by the
key, and compares whole rows with the whole bounds. Cutting is monotone, and groups of one length
are ordered as their rows are, so the read returns what the same read of a store of plain rows would
return (`MeetAggrStore.rangeIter_eq_flat`), whatever the length of the bounds.
-/

namespace Retia

open Std List

variable {X : Type} [Ord X] [TransOrd X] [LawfulEqOrd X]

theorem compare_append_eq_lt {a b : Tuple X} (hlen : a.length = b.length)
    (hlt : compare a b = .lt) (v w : Tuple X) : compare (a ++ v) (b ++ w) = .lt := by
  induction a generalizing b with
  | nil =>
    obtain rfl := length_eq_zero_iff.1 hlen.symm
    simp at hlt
  | cons x a ih =>
    cases b with
    | nil => cases hlen
    | cons y b =>
      rw [cons_append, cons_append, List.compare_cons_cons] at *
      cases hxy : compare x y with
      | lt => rfl
      | eq =>
        rw [hxy] at hlt
        exact ih (Nat.succ.inj hlen) hlt
      | gt =>
        rw [hxy] at hlt
        cases hlt

theorem eq_of_ascending_of_mem_iff {l l' : List (Tuple X)}
    (hl : l.Pairwise fun a b => compare a b = .lt)
    (hl' : l'.Pairwise fun a b => compare a b = .lt) (h : ∀ t, t ∈ l ↔ t ∈ l') : l = l' := by
  have hnodup : ∀ {l : List (Tuple X)}, l.Pairwise (fun a b => compare a b = .lt) →
    l.Nodup := fun hl => hl.imp fun {a b} hlt heq => by
    have hself : compare b b = .eq := ReflCmp.compare_self
    rw [heq, hself] at hlt
    cases hlt
  have hperm : l.Perm l' := (perm_ext_iff_of_nodup (hnodup hl) (hnodup hl')).2 h
  refine hperm.eq_of_pairwise (fun a b _ _ hab hba => ?_) hl hl'
  have hswap : compare b a = (compare a b).swap := OrientedCmp.eq_swap
  rw [hswap, hab] at hba
  cases hba

theorem MeetAggrStore.rangeIter_ascending {s : MeetAggrStore X}
    (hwf : (TempStore.meetAggr s).WF) {lower upper : Tuple X} {incl : Bool}
    {items : List (TupleInIter X)} (h : s.rangeIter lower upper incl = .ok items) :
    (items.map TupleInIter.intoTuple).Pairwise fun a b => compare a b = .lt := by
  obtain ⟨found, hfound, hret⟩ := bind_ok.1 h
  cases hret
  rw [map_map, pairwise_map]
  refine ((BTree.pairwise_of_range hfound).filter _).imp_of_mem fun {a b} ha hb hlt => ?_
  have hlen : ∀ e ∈ found, e.1.length = s.groupingLen := fun e he =>
    hwf e.1 (BTree.mem_of_mem_range hfound he)
  refine compare_append_eq_lt ?_ hlt a.2 b.2
  rw [hlen a (mem_of_mem_filter ha), hlen b (mem_of_mem_filter hb)]

theorem RegularTempStore.rangeIter_ascending {s : RegularTempStore X}
    {lower upper : Tuple X} {incl : Bool}
    {items : List (TupleInIter X)} (h : s.rangeIter lower upper incl = .ok items) :
    (items.map TupleInIter.intoTuple).Pairwise fun a b => compare a b = .lt := by
  obtain ⟨found, hfound, hret⟩ := bind_ok.1 h
  cases hret
  rw [map_map, pairwise_map]
  refine (BTree.pairwise_of_range hfound).imp fun {a b} hlt => ?_
  simpa [TupleInIter.intoTuple] using hlt

/-- **Range reads of a meet store.** Between ordered bounds of any lengths the read returns the rows
in range in lexicographic order: what the read of a store of plain rows returns that holds the same
rows. (The stores of an evaluation are all keyed by their grouping columns, `evaluateStrata_sane`.)
-/
theorem MeetAggrStore.rangeIter_eq_flat {s : MeetAggrStore X} (hs : s.Keyed s.groupingLen)
    (lower upper : Tuple X)
    (upperInclusive : Bool) (hle : (compare lower upper).isLE) :
    ∃ items, s.rangeIter lower upper upperInclusive = .ok items ∧
      (items.map TupleInIter.intoTuple).Pairwise (fun a b => compare a b = .lt) ∧
      (∀ t, t ∈ items.map TupleInIter.intoTuple ↔
        (∃ k v, s.inner[k]? = some v ∧ t = k ++ v) ∧ InRange lower upper upperInclusive t) ∧
      ∀ flat : RegularTempStore X,
      (∀ t, t ∈ flat.inner ↔ ∃ k v, s.inner[k]? = some v ∧ t = k ++ v) →
        ∃ rows, flat.rangeIter lower upper upperInclusive = .ok rows ∧
        rows.map TupleInIter.intoTuple = items.map TupleInIter.intoTuple := by
  have hwf : (TempStore.meetAggr s).WF := hs.2
  have hread : ∃ items, s.rangeIter lower upper upperInclusive = .ok items ∧ _ :=
    TempStore.mem_rangeIter_meetAggr hwf hle
  obtain ⟨items, hitems, hmem⟩ := hread
  -- both reads are ascending and have the same rows
  have hsorted := rangeIter_ascending hwf hitems
  refine ⟨items, hitems, hsorted, hmem, fun flat hflat => ?_⟩
  have hread : ∃ rows, flat.rangeIter lower upper upperInclusive = .ok rows ∧ _ :=
    TempStore.mem_rangeIter_normal hle
  obtain ⟨rows, hrows, hmem'⟩ := hread
  refine ⟨rows, hrows, eq_of_ascending_of_mem_iff
    (RegularTempStore.rangeIter_ascending hrows) hsorted fun t => ?_⟩
  rw [hmem', hmem, hflat]
  rfl

/-- A contribution to a rule `r[and(x)]`. -/
def conjunction (b : Bool) : MeetAggrStore Nat :=
  ⟨(∅ : ExtTreeMap (Tuple Nat) (Tuple Nat)).insert [] [.bool b], [meetAggrAnd], 0⟩

/-- Bounds that are longer than the group. -/
theorem conjunction_in_range : ∃ items,
    (conjunction true).rangeIter [.bool false] [.bool true] true = .ok items ∧
    items.map TupleInIter.intoTuple = [[.bool true]] := by
  have hkeyed : (conjunction true).Keyed 0 := ⟨rfl, fun k hk => by
    rcases ExtTreeMap.mem_insert.1 hk with heq | hk
    · rw [← LawfulEqCmp.compare_eq_iff_eq.1 heq]
      rfl
    · exact absurd hk ExtTreeMap.not_mem_empty⟩
  obtain ⟨items, hitems, -⟩ := MeetAggrStore.rangeIter_eq_flat hkeyed [.bool false] [.bool true] true rfl
  refine ⟨items, hitems, ?_⟩
  cases hitems
  rfl

end Retia
