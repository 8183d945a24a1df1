import Mathlib
import Retia.Lib.BTree
import Retia.Data.Expr

/-!
# The stores of query evaluation

`runtime/temp_store.rs`: every rule set of a running query owns an `EpochStore`, which holds all
rows derived so far (`total`) and those that the last merge added (`delta`). A normal store is an
ordered map from rows to a flag; a store of meet aggregates maps the grouping columns to the
aggregated ones.

The first merge into an empty store moves the new rows into `total` and remembers that `total` is
also the delta (`useTotalForDelta`), so the two views below are not the two fields:

* `EpochStore.TotalRow`, `EpochStore.DeltaRow` — the rows of the two views;
* `EpochStore.mem_rangeIter`, `EpochStore.mem_deltaRangeIter` — range reads return the rows in
  range;
* `EpochStore.mergeIn_normal` — a merge of normal stores adds the
  new rows to the total, and its delta is what was not there before.
-/

namespace Retia

open Std List

variable {X : Type} [Ord X] [TransOrd X] [LawfulEqOrd X]

/-- A row read from a store: its two parts, and the flag that keeps it out of the final result. -/
structure TupleInIter (X : Type) where
  key : Tuple X
  value : Tuple X
  skip : Bool

/-- `into_tuple`. -/
def TupleInIter.intoTuple (t : TupleInIter X) : Tuple X := t.key ++ t.value

/-! ### Normal stores -/

structure RegularTempStore (X : Type) [Ord X] [TransOrd X] [LawfulEqOrd X] where
  inner : ExtTreeMap (Tuple X) Bool

namespace RegularTempStore

def empty : RegularTempStore X := ⟨∅⟩

def «exists» (s : RegularTempStore X) (key : Tuple X) : Bool := s.inner.contains key

def rangeIter (s : RegularTempStore X) (lower upper : Tuple X) (upperInclusive : Bool) :
    Except Panic (List (TupleInIter X)) := do
  return (← BTree.range s.inner lower upper upperInclusive).map fun e => ⟨e.1, [], e.2⟩

def put (s : RegularTempStore X) (tuple : Tuple X) : RegularTempStore X :=
  ⟨s.inner.insert tuple false⟩

def putWithSkip (s : RegularTempStore X) (tuple : Tuple X) : RegularTempStore X :=
  ⟨s.inner.insert tuple true⟩

/-- The loop of `merge_in` over the new rows: the store and the delta. -/
def mergeEntry (acc : RegularTempStore X × RegularTempStore X) (e : Tuple X × Bool) :
    RegularTempStore X × RegularTempStore X :=
  (⟨acc.1.inner.insert e.1 e.2⟩,
    if acc.1.inner.contains e.1 then acc.2 else ⟨acc.2.inner.insert e.1 e.2⟩)

/-- `merge_in`: the store, the delta, and whether the delta is known to be the whole store. -/
def mergeIn (s new : RegularTempStore X) : RegularTempStore X × RegularTempStore X × Bool :=
  if new.inner.isEmpty then (s, empty, false)
  else if s.inner.isEmpty then (new, empty, true)
  else
    let (s, prev) := new.inner.toList.foldl mergeEntry (s, empty)
    (s, prev, false)

end RegularTempStore

open RegularTempStore

/-! ### Stores of meet aggregates -/

structure MeetAggrStore (X : Type) [Ord X] [TransOrd X] [LawfulEqOrd X] where
  inner : ExtTreeMap (Tuple X) (Tuple X)
  aggregations : List (MeetAggrObj X)
  groupingLen : Nat

/-- `op.update(&mut prev[i], &vals[i])` for each aggregation, and whether any of them reported a
change. -/
def updateAll : List (MeetAggrObj X) → Tuple X → Tuple X → Except (EvalError X) (Tuple X × Bool)
  | [], prev, _ => .ok (prev, false)
  | op :: ops, p :: prev, v :: vals => do
    let (p, changed) ← (op.update p v).mapError .aggr
    let (prev, changed') ← updateAll ops prev vals
    return (p :: prev, changed || changed')
  | _ :: _, _, _ => .error (.panic .indexOutOfBounds)

namespace MeetAggrStore

/-- `aggr.meet_init(args)?` on each aggregated column. -/
def initOps : List (Option (Aggregation X × List (DataValue X))) →
    Except (EvalError X) (List (MeetAggrObj X))
  | [] => .ok []
  | none :: aggrs => initOps aggrs
  | some (aggr, args) :: aggrs => do
    let op ← (aggr.meetInit args).mapError .aggr
    return op :: (← initOps aggrs)

def new (aggrs : List (Option (Aggregation X × List (DataValue X)))) :
    Except (EvalError X) (MeetAggrStore X) := do
  let aggregations ← initOps aggrs
  return ⟨∅, aggregations, aggrs.length - aggregations.length⟩

def «exists» (s : MeetAggrStore X) (key : Tuple X) : Except Panic Bool :=
  if key.length < s.groupingLen then .error .indexOutOfBounds
  else .ok (s.inner.contains (key.take s.groupingLen))

def isEmpty (s : MeetAggrStore X) : Bool := s.inner.isEmpty

/-- `meet_put`: the first row of a group is stored as it is, a later one is merged into it. -/
def meetPut (s : MeetAggrStore X) (tuple : Tuple X) :
    Except (EvalError X) (MeetAggrStore X × Bool) :=
  if tuple.length < s.groupingLen then .error (.panic .indexOutOfBounds)
  else
    let keyPart := tuple.take s.groupingLen
    let valPart := tuple.drop s.groupingLen
    match s.inner[keyPart]? with
    | some prevAggr => do
      let (aggr, changed) ← updateAll s.aggregations prevAggr valPart
      return ({ s with inner := s.inner.insert keyPart aggr }, changed)
    | none => .ok ({ s with inner := s.inner.insert keyPart valPart }, true)

def rangeIter (s : MeetAggrStore X) (lower upper : Tuple X) (upperInclusive : Bool) :
    Except Panic (List (TupleInIter X)) := do
  -- the bounds cut down to the grouping columns select candidates, the full bounds decide
  let found ← BTree.range s.inner (lower.take s.groupingLen) (upper.take s.groupingLen) true
  return (found.filter fun e =>
    compare (e.1 ++ e.2) lower != .lt && (compare
      (e.1 ++ e.2) upper == .lt || upperInclusive && compare (e.1 ++ e.2) upper == .eq)).map
    fun e => ⟨e.1, e.2, false⟩

/-- One new group of `merge_in`: the store and the delta. The delta receives the group if it is new,
or if one of its aggregations reports a change. -/
def mergeEntry (acc : MeetAggrStore X × MeetAggrStore X) (e : Tuple X × Tuple X) :
    Except (EvalError X) (MeetAggrStore X × MeetAggrStore X) :=
  match acc.1.inner[e.1]? with
  | none => .ok ({ acc.1 with inner := acc.1.inner.insert e.1 e.2 },
    { acc.2 with inner := acc.2.inner.insert e.1 e.2 })
  | some target => do
    let (aggr, changed) ← updateAll acc.1.aggregations target e.2
    return ({ acc.1 with inner := acc.1.inner.insert e.1 aggr },
      if changed then { acc.2 with inner := acc.2.inner.insert e.1 aggr } else acc.2)

/-- `merge_in`: the store, the delta, and whether the delta is known to be the whole store. -/
def mergeIn (s prev new : MeetAggrStore X) :
    Except (EvalError X) (MeetAggrStore X × MeetAggrStore X × Bool) :=
  let prev := { prev with inner := ∅ }
  if new.isEmpty then .ok (s, prev, false)
  else if s.isEmpty then .ok (new, prev, true)
  else do
    let (s, prev) ← new.inner.toList.foldlM mergeEntry (s, prev)
    return (s, prev, false)

end MeetAggrStore

/-! ### Epoch stores -/

inductive TempStore (X : Type) [Ord X] [TransOrd X] [LawfulEqOrd X] where
  | normal (s : RegularTempStore X)
  | meetAggr (s : MeetAggrStore X)

namespace TempStore

def «exists» (key : Tuple X) : TempStore X → Except Panic Bool
  | .normal n => .ok (n.exists key)
  | .meetAggr m => m.exists key

def rangeIter (lower upper : Tuple X) (upperInclusive : Bool) :
    TempStore X → Except Panic (List (TupleInIter X))
  | .normal n => n.rangeIter lower upper upperInclusive
  | .meetAggr m => m.rangeIter lower upper upperInclusive

def isEmpty : TempStore X → Bool
  | .normal n => n.inner.isEmpty
  | .meetAggr m => m.inner.isEmpty

end TempStore

structure EpochStore (X : Type) [Ord X] [TransOrd X] [LawfulEqOrd X] where
  total : TempStore X
  delta : TempStore X
  useTotalForDelta : Bool
  arity : Nat

namespace EpochStore

def «exists» (s : EpochStore X) (key : Tuple X) : Except Panic Bool := s.total.exists key

def newNormal (arity : Nat) : EpochStore X :=
  ⟨.normal .empty, .normal .empty, true, arity⟩

def newMeet (aggrs : List (Option (Aggregation X × List (DataValue X)))) :
    Except (EvalError X) (EpochStore X) := do
  return ⟨.meetAggr (← MeetAggrStore.new aggrs), .meetAggr (← MeetAggrStore.new aggrs), true, aggrs.length⟩

def mergeIn (s : EpochStore X) (new : TempStore X) : Except (EvalError X) (EpochStore X) :=
  match s.total, s.delta, new with
  | .normal total, .normal _, .normal new =>
    let (total, prev, useTotalForDelta) := total.mergeIn new
    .ok { s with total := .normal total, delta := .normal prev, useTotalForDelta }
  | .meetAggr total, .meetAggr prev, .meetAggr new => do
    let (total, prev, useTotalForDelta) ← total.mergeIn prev new
    return { s with total := .meetAggr total, delta := .meetAggr prev, useTotalForDelta }
  | _, _, _ => .error (.panic .unreachable)

def deltaStore (s : EpochStore X) : TempStore X := if s.useTotalForDelta then s.total else s.delta

def hasDelta (s : EpochStore X) : Bool := !s.deltaStore.isEmpty

def rangeIter (s : EpochStore X) (lower upper : Tuple X) (upperInclusive : Bool) :
    Except Panic (List (TupleInIter X)) :=
  s.total.rangeIter lower upper upperInclusive

def deltaRangeIter (s : EpochStore X) (lower upper : Tuple X) (upperInclusive : Bool) :
    Except Panic (List (TupleInIter X)) :=
  s.deltaStore.rangeIter lower upper upperInclusive

def prefixIter (s : EpochStore X) (pre : Tuple X) : Except Panic (List (TupleInIter X)) :=
  s.rangeIter pre (pre ++ [.bot]) true

def deltaPrefixIter (s : EpochStore X) (pre : Tuple X) : Except Panic (List (TupleInIter X)) :=
  s.deltaRangeIter pre (pre ++ [.bot]) true

def allIter (s : EpochStore X) : Except Panic (List (TupleInIter X)) := s.prefixIter []

def deltaAllIter (s : EpochStore X) : Except Panic (List (TupleInIter X)) := s.deltaPrefixIter []

def earlyReturnedIter (s : EpochStore X) : Except Panic (List (TupleInIter X)) := do
  return (← s.allIter).filter fun t => !t.skip

end EpochStore

/-! ### Rows and range reads -/

namespace TempStore

def Row : TempStore X → Tuple X → Prop
  | .normal n, t => t ∈ n.inner
  | .meetAggr m, t => ∃ k v, m.inner[k]? = some v ∧ t = k ++ v

def WF : TempStore X → Prop
  | .normal _ => True
  | .meetAggr m => ∀ k ∈ m.inner, k.length = m.groupingLen

end TempStore

def InRange (lower upper : Tuple X) (upperInclusive : Bool) (t : Tuple X) : Prop :=
  (compare lower t).isLE ∧ (compare t upper = .lt ∨ upperInclusive = true ∧ compare t upper = .eq)

theorem isLE_compare_take {α : Type} [Ord α] {a b : List α} (h : (compare a b).isLE)
    (n : Nat) : (compare (a.take n) (b.take n)).isLE := by
  induction n generalizing a b with
  | zero => simp
  | succ n ih =>
    cases a with
    | nil => cases b <;> simp
    | cons x a =>
      cases b with
      | nil => simp at h
      | cons y b =>
        rw [take_succ_cons, take_succ_cons, List.compare_cons_cons] at *
        cases hxy : compare x y with
        | lt => rfl
        | eq =>
          rw [hxy] at h
          exact ih h
        | gt =>
          rw [hxy] at h
          cases h

omit [TransOrd X] [LawfulEqOrd X] in
theorem isLE_of_upper {t upper : Tuple X} {incl : Bool}
    (h : compare t upper = .lt ∨ incl = true ∧ compare t upper = .eq) : (compare t upper).isLE := by
  rcases h with h | ⟨_, h⟩ <;> rw [h] <;> rfl

namespace TempStore

variable {lower upper : Tuple X} {incl : Bool}

theorem mem_rangeIter_normal {n : RegularTempStore X} {incl : Bool}
    (h : (compare lower upper).isLE) : ∃ items, n.rangeIter lower upper incl = .ok items ∧
      ∀ t, t ∈ items.map TupleInIter.intoTuple ↔ t ∈ n.inner ∧ InRange lower upper incl t := by
  refine ⟨_, by rw [RegularTempStore.rangeIter, BTree.range_eq_ok h]; rfl, fun t => ?_⟩
  rw [map_map, mem_map]
  constructor
  · rintro ⟨⟨k, b⟩, he, rfl⟩
    obtain ⟨hk, hrange⟩ := BTree.mem_rangeEntries_iff.1 he
    have hk' : k ∈ n.inner := ExtTreeMap.mem_iff_isSome_getElem?.2 (by rw [hk]; rfl)
    rw [Function.comp_apply, TupleInIter.intoTuple, append_nil]
    exact ⟨hk', hrange⟩
  · rintro ⟨hk, hrange⟩
    obtain ⟨b, hb⟩ := Option.isSome_iff_exists.1 (ExtTreeMap.mem_iff_isSome_getElem?.1 hk)
    exact ⟨(t, b), BTree.mem_rangeEntries_iff.2 ⟨hb, hrange⟩, by simp [TupleInIter.intoTuple]⟩

theorem mem_rangeIter_meetAggr {m : MeetAggrStore X} {incl : Bool}
    (hwf : (TempStore.meetAggr m).WF) (h : (compare lower upper).isLE) :
    ∃ items, m.rangeIter lower upper incl = .ok items ∧ ∀ t, t ∈ items.map TupleInIter.intoTuple ↔
    (TempStore.meetAggr m).Row t ∧ InRange lower upper incl t := by
  refine ⟨_, by
    rw [MeetAggrStore.rangeIter, BTree.range_eq_ok (isLE_compare_take h _)]
    rfl, fun t => ?_⟩
  rw [map_map, mem_map]
  have hlower : ∀ t : Tuple X, (compare t lower != .lt) = true ↔ (compare lower t).isLE := by
    intro t
    have hswap : compare lower t = (compare t lower).swap := OrientedCmp.eq_swap
    rw [hswap]
    cases compare t lower <;> simp
  constructor
  · rintro ⟨⟨k, v⟩, he, rfl⟩
    obtain ⟨hfound, hfilter⟩ := mem_filter.1 he
    rw [Bool.and_eq_true, hlower] at hfilter
    exact ⟨⟨k, v, (BTree.mem_rangeEntries_iff.1 hfound).1, rfl⟩,
      hfilter.1, by simpa [TupleInIter.intoTuple] using hfilter.2⟩
  · rintro ⟨⟨k, v, hk, rfl⟩, hlo, hup⟩
    -- a row within the full bounds has its key within the cut bounds
    have hlen : k.length = m.groupingLen :=
      hwf k (ExtTreeMap.mem_iff_isSome_getElem?.2 (by rw [hk]; rfl))
    have htake : (k ++ v).take m.groupingLen = k := by rw [← hlen, take_left]
    have hlo' : (compare (lower.take m.groupingLen) k).isLE := by
      simpa only [htake] using isLE_compare_take hlo m.groupingLen
    have hup' : (compare k (upper.take m.groupingLen)).isLE := by
      simpa only [htake] using isLE_compare_take (isLE_of_upper hup) m.groupingLen
    refine ⟨(k, v), mem_filter.2 ⟨BTree.mem_rangeEntries_iff.2 ⟨hk, hlo', ?_⟩, ?_⟩, rfl⟩
    · cases hc : compare k (upper.take m.groupingLen) <;> simp_all
    · rw [Bool.and_eq_true, hlower]
      exact ⟨hlo, by simpa using hup⟩

/-- **Range reads.** A read between ordered bounds does not fail and returns the rows in range. -/
theorem mem_rangeIter {s : TempStore X} (hwf : s.WF) {incl : Bool}
    (h : (compare lower upper).isLE) : ∃ items, s.rangeIter lower upper incl = .ok items ∧
      ∀ t, t ∈ items.map TupleInIter.intoTuple ↔ s.Row t ∧ InRange lower upper incl t := by
  cases s with
  | normal n => exact mem_rangeIter_normal h
  | meetAggr m => exact mem_rangeIter_meetAggr hwf h

theorem isEmpty_iff {s : TempStore X} : s.isEmpty = true ↔ ∀ t, ¬ s.Row t := by
  cases s with
  | normal n =>
    rw [TempStore.isEmpty, ExtTreeMap.isEmpty_iff, ExtTreeMap.eq_empty_iff_forall_not_mem]
    rfl
  | meetAggr m =>
    rw [TempStore.isEmpty, ExtTreeMap.isEmpty_iff, ExtTreeMap.eq_empty_iff_forall_not_mem]
    constructor
    · rintro h t ⟨k, v, hk, _⟩
      exact h k (ExtTreeMap.mem_iff_isSome_getElem?.2 (by rw [hk]; rfl))
    · intro h k hk
      obtain ⟨v, hv⟩ := Option.isSome_iff_exists.1 (ExtTreeMap.mem_iff_isSome_getElem?.1 hk)
      exact h (k ++ v) ⟨k, v, hv, rfl⟩

end TempStore

/-! ### Merging -/

namespace RegularTempStore

variable {s : RegularTempStore X} {t : Tuple X}

theorem mem_put {tuple t : Tuple X} : t ∈ (s.put tuple).inner ↔ t = tuple ∨ t ∈ s.inner := by
  rw [put, ExtTreeMap.mem_insert, LawfulEqCmp.compare_eq_iff_eq, eq_comm]

theorem mem_putWithSkip {tuple t : Tuple X} : t ∈ (s.putWithSkip tuple).inner ↔
    t = tuple ∨ t ∈ s.inner := by
  rw [putWithSkip, ExtTreeMap.mem_insert, LawfulEqCmp.compare_eq_iff_eq, eq_comm]

theorem exists_iff : s.exists t = true ↔ t ∈ s.inner := by
  rw [RegularTempStore.exists, ExtTreeMap.mem_iff_contains]

theorem not_mem_empty : t ∉ (empty : RegularTempStore X).inner :=
  ExtTreeMap.not_mem_empty

/-- One new row: the store receives it, the delta only if it was not there. -/
theorem mem_mergeEntry {acc : RegularTempStore X × RegularTempStore X} {e : Tuple X × Bool} :
    (t ∈ (mergeEntry acc e).1.inner ↔ t = e.1 ∨ t ∈ acc.1.inner) ∧
    (t ∈ (mergeEntry acc e).2.inner ↔ t ∈ acc.2.inner ∨ t = e.1 ∧ t ∉ acc.1.inner) := by
  constructor
  · rw [mergeEntry, ExtTreeMap.mem_insert, LawfulEqCmp.compare_eq_iff_eq, eq_comm]
  · rw [mergeEntry]
    by_cases hc : e.1 ∈ acc.1.inner
    · rw [if_pos (ExtTreeMap.mem_iff_contains.1 hc)]
      exact ⟨.inl, fun h => h.elim id fun h => absurd (h.1 ▸ hc) h.2⟩
    · rw [if_neg fun h => hc (ExtTreeMap.mem_iff_contains.2 h), ExtTreeMap.mem_insert,
        LawfulEqCmp.compare_eq_iff_eq]
      constructor
      · rintro (rfl | h)
        · exact .inr ⟨rfl, hc⟩
        · exact .inl h
      · rintro (h | ⟨rfl, _⟩)
        · exact .inr h
        · exact .inl rfl

theorem mem_foldl_mergeEntry (es : List (Tuple X × Bool))
    (acc : RegularTempStore X × RegularTempStore X) (t : Tuple X) :
    (t ∈ (es.foldl mergeEntry acc).1.inner ↔ t ∈ acc.1.inner ∨ t ∈ es.map Prod.fst) ∧
    (t ∈ (es.foldl mergeEntry acc).2.inner ↔ t ∈ acc.2.inner ∨ t ∈ es.map Prod.fst ∧
      t ∉ acc.1.inner) := by
  induction es generalizing acc with
  | nil => simp
  | cons e es ih =>
    obtain ⟨ih₁, ih₂⟩ := ih (mergeEntry acc e)
    have h₁ : t ∈ (mergeEntry acc e).1.inner ↔ _ := mem_mergeEntry.1
    have h₂ : t ∈ (mergeEntry acc e).2.inner ↔ _ := mem_mergeEntry.2
    rw [foldl_cons, ih₁, ih₂, h₁, h₂, map_cons, mem_cons]
    clear ih ih₁ ih₂ h₁ h₂
    generalize (t ∈ acc.1.inner) = old, (t ∈ acc.2.inner) = prev
    exact ⟨by tauto, by tauto⟩

theorem mem_map_fst_toList : t ∈ s.inner.toList.map Prod.fst ↔ t ∈ s.inner := by
  rw [mem_map]
  constructor
  · rintro ⟨⟨k, v⟩, hk, rfl⟩
    rw [ExtTreeMap.mem_toList_iff_getElem?_eq_some] at hk
    exact ExtTreeMap.mem_iff_isSome_getElem?.2 (by rw [hk]; rfl)
  · intro ht
    obtain ⟨v, hv⟩ := Option.isSome_iff_exists.1 (ExtTreeMap.mem_iff_isSome_getElem?.1 ht)
    exact ⟨(t, v), ExtTreeMap.mem_toList_iff_getElem?_eq_some.2 hv, rfl⟩

theorem not_mem_of_isEmpty (h : s.inner.isEmpty = true) (t : Tuple X) : t ∉ s.inner := by
  rw [ExtTreeMap.isEmpty_iff] at h
  rw [h]
  exact ExtTreeMap.not_mem_empty

/-- **A merge of normal stores**: the total grows by the new rows, and the delta view consists of
those that were not there. -/
theorem mem_mergeIn (s new : RegularTempStore X) (t : Tuple X) :
    (t ∈ (s.mergeIn new).1.inner ↔ t ∈ s.inner ∨ t ∈ new.inner) ∧
    (t ∈ (if (s.mergeIn new).2.2 then (s.mergeIn new).1 else (s.mergeIn new).2.1).inner ↔
      t ∈ new.inner ∧ t ∉ s.inner) := by
  rw [mergeIn]
  split
  · rename_i hnew
    simp [not_mem_of_isEmpty hnew, not_mem_empty]
  · split
    · rename_i hs
      simp [not_mem_of_isEmpty hs]
    · obtain ⟨h₁, h₂⟩ := mem_foldl_mergeEntry new.inner.toList (s, empty) t
      rw [mem_map_fst_toList] at h₁ h₂
      refine ⟨h₁, ?_⟩
      rw [if_neg (by simp), h₂]
      simp [not_mem_empty]

end RegularTempStore

namespace EpochStore

def TotalRow (s : EpochStore X) (t : Tuple X) : Prop := s.total.Row t

def DeltaRow (s : EpochStore X) (t : Tuple X) : Prop := s.deltaStore.Row t

def WF (s : EpochStore X) : Prop := s.total.WF ∧ s.delta.WF

def IsNormal (s : EpochStore X) : Prop :=
  ∃ total delta, s.total = .normal total ∧ s.delta = .normal delta

variable {s : EpochStore X}

theorem IsNormal.wf (h : s.IsNormal) : s.WF := by
  obtain ⟨total, delta, ht, hd⟩ := h
  rw [WF, ht, hd]
  exact ⟨trivial, trivial⟩

theorem WF.deltaStore (h : s.WF) : s.deltaStore.WF := by
  rw [EpochStore.deltaStore]
  split
  · exact h.1
  · exact h.2

theorem mem_rangeIter (hwf : s.WF) {lower upper : Tuple X} (incl : Bool)
    (h : (compare lower upper).isLE) : ∃ items, s.rangeIter lower upper incl = .ok items ∧
      ∀ t, t ∈ items.map TupleInIter.intoTuple ↔ s.TotalRow t ∧ InRange lower upper incl t :=
  TempStore.mem_rangeIter hwf.1 h

theorem mem_deltaRangeIter (hwf : s.WF) {lower upper : Tuple X} (incl : Bool)
    (h : (compare lower upper).isLE) : ∃ items, s.deltaRangeIter lower upper incl = .ok items ∧
      ∀ t, t ∈ items.map TupleInIter.intoTuple ↔ s.DeltaRow t ∧ InRange lower upper incl t :=
  TempStore.mem_rangeIter hwf.deltaStore h

theorem hasDelta_iff : s.hasDelta = true ↔ ∃ t, s.DeltaRow t := by
  rw [hasDelta, Bool.not_eq_true', ← Bool.not_eq_true, TempStore.isEmpty_iff, not_forall]
  simp only [not_not]
  rfl

theorem exists_iff (h : s.IsNormal) (t : Tuple X) : ∃ b, s.exists t = .ok b ∧
    (b = true ↔ s.TotalRow t) := by
  obtain ⟨total, delta, ht, hd⟩ := h
  refine ⟨total.exists t, by rw [EpochStore.exists, ht]; rfl, ?_⟩
  rw [RegularTempStore.exists_iff, TotalRow, ht]
  rfl

theorem newNormal_isNormal (arity : Nat) : (newNormal arity : EpochStore X).IsNormal :=
  ⟨_, _, rfl, rfl⟩

theorem not_totalRow_newNormal (arity : Nat) (t : Tuple X) :
    ¬ (newNormal arity : EpochStore X).TotalRow t :=
  not_mem_empty

/-- **The merge of an epoch.** -/
theorem mergeIn_normal (h : s.IsNormal) (new : RegularTempStore X) :
    ∃ s', s.mergeIn (.normal new) = .ok s' ∧ s'.IsNormal ∧
      (∀ t, s'.TotalRow t ↔ s.TotalRow t ∨ t ∈ new.inner) ∧ ∀ t, s'.DeltaRow t ↔
      t ∈ new.inner ∧ ¬ s.TotalRow t := by
  obtain ⟨total, delta, ht, hd⟩ := h
  refine ⟨{ s with
    total := .normal (total.mergeIn new).1
    delta := .normal (total.mergeIn new).2.1
    useTotalForDelta := (total.mergeIn new).2.2 }, by simp only [mergeIn, ht, hd], ⟨_, _, rfl, rfl⟩,
    fun t => ?_, fun t => ?_⟩
  · rw [TotalRow, TotalRow, ht]
    exact (mem_mergeIn total new t).1
  · have hmem := (mem_mergeIn total new t).2
    rw [DeltaRow, deltaStore, TotalRow, ht]
    split at hmem
    · rw [if_pos ‹_›]
      exact hmem
    · rw [if_neg ‹_›]
      exact hmem

end EpochStore

end Retia
