import Mathlib
import Retia.Query.StoredJoin

/-!
# The iterator of a materialised join

`materialized_join` reads the right side into a sorted cache, with the join columns moved to the
front, and returns a `CachedMaterializedIterator`. Its state is a left row and a position in the
cache. Each call of `next` gives the row at the position and moves on, as long as the cached rows
begin with the join columns of the left row; then the next left row is asked for and the position is
searched for anew.

So between two left rows the iterator gives the rest of one range of the cache (`Yields.of_rest`),
and over all of them what `materializedJoin` gives at once (`yields_lefts`). With the columns of the
cached rows put back, that is the nested loop over the two sides, for values on which `==` is the
equality of the order (`materializedJoin_nestedLoop_iff`).
-/

namespace Retia

open Std List

variable {X : Type} [Ord X]

/-- `CachedMaterializedIterator`; `pre` is its field `prefix`. -/
structure CachedMaterializedIterator (X : Type) where
  materialized : List (Tuple X)
  eliminateIndices : List Nat
  leftJoinIndices : List Nat
  rightInvertIndices : List Nat
  rightIdx : Nat
  pre : Tuple X
  left : TupleIter X
  leftCache : Tuple X

/-- `build_mat_range_iter`: the left columns, and where a binary search for them ends in a sorted
cache without duplicates: at the first row that is not before them. -/
def buildMatRangeIter (mat : List (Tuple X)) (leftJoinIndices : List Nat)
    (leftTuple : Tuple X) : Except (EvalError X) (Tuple X × Nat) := do
  let pre ← pick leftTuple leftJoinIndices
  return (pre, mat.findIdx fun t => !(compare t pre == .lt))

namespace CachedMaterializedIterator

/-- `advance_right`. -/
def advanceRight (it : CachedMaterializedIterator X) :
    Option (Tuple X × CachedMaterializedIterator X) :=
  match it.materialized[it.rightIdx]? with
  | none => none
  | some ret =>
    if Tuple.startsWith ret it.pre then some (ret, { it with rightIdx := it.rightIdx + 1 }) else none

/-- `next_inner`: a row and the iterator after it, or the end. -/
def nextInner (it : CachedMaterializedIterator X) :
    Except (EvalError X) (Option (Tuple X × CachedMaterializedIterator X)) :=
  match it.advanceRight with
  | some (data, it) => do
    let ret := it.leftCache ++ (← pick data it.rightInvertIndices)
    return some (eliminateFromTuple ret it.eliminateIndices, it)
  | none =>
    match _hleft : it.left with
    | [] => return none
    | nextLeft :: left => do
      let leftTuple ← nextLeft
      let (pre, rightIdx) ← buildMatRangeIter it.materialized it.leftJoinIndices leftTuple
      nextInner { it with left, leftCache := leftTuple, rightIdx, pre }
termination_by it.left.length
decreasing_by simp [_hleft]

inductive Yields : CachedMaterializedIterator X → List (Tuple X) → Prop
  | done {it} : it.nextInner = .ok none → Yields it []
  | row {it it' t ts} : it.nextInner = .ok (some (t, it')) → Yields it' ts → Yields it (t :: ts)

end CachedMaterializedIterator

/-- `materialized_join`: the iterator, or the empty one when there is no left row. -/
def materializedJoinIter [TransOrd X] [LawfulEqOrd X] (left right : TupleIter X) (width : Nat)
    (indices : List Nat × List Nat) (eliminateIndices : List Nat) :
    Except (EvalError X) (Option (CachedMaterializedIterator X)) := do
  match left with
  | [] => return none
  | leftCache :: left =>
    let leftCache ← leftCache
    let storeIndices := rightStoreIndices indices.2 width
    let cache ← right.mapM fun item => do pick (← item) storeIndices
    let materialized := (ExtTreeSet.ofList cache compare).toList
    let (pre, rightIdx) ← buildMatRangeIter materialized indices.1 leftCache
    return some ⟨materialized, eliminateIndices, indices.1, rightInvertIndices storeIndices,
      rightIdx, pre, left, leftCache⟩

namespace CachedMaterializedIterator

variable {it : CachedMaterializedIterator X}

def rest (it : CachedMaterializedIterator X) : List (Tuple X) :=
  (it.materialized.drop it.rightIdx).takeWhile fun t => Tuple.startsWith t it.pre

theorem advanceRight_eq : it.advanceRight = it.rest.head?.map fun data =>
    (data, { it with rightIdx := it.rightIdx + 1 }) := by
  rw [advanceRight, rest, ← List.head?_drop]
  cases it.materialized.drop it.rightIdx with
  | nil => rfl
  | cons ret more =>
    rw [List.head?_cons, takeWhile_cons]
    dsimp only
    split <;> rfl

theorem rest_advance {data : Tuple X} {more : List (Tuple X)} (h : it.rest = data :: more) :
    ({ it with rightIdx := it.rightIdx + 1 } : CachedMaterializedIterator X).rest = more ∧
    data ∈ it.materialized := by
  rw [rest] at h
  rw [rest, ← tail_drop]
  cases hdrop : it.materialized.drop it.rightIdx with
  | nil => simp [hdrop] at h
  | cons ret more' =>
    rw [hdrop, takeWhile_cons] at h
    split at h
    · obtain ⟨rfl, rfl⟩ := List.cons.inj h
      refine ⟨rfl, mem_of_mem_drop (i := it.rightIdx) ?_⟩
      rw [hdrop]
      exact mem_cons_self
    · cases h

theorem rest_eq_matRange {pre : Tuple X} (hpre : it.pre = pre)
    (hidx : it.rightIdx = it.materialized.findIdx fun t => !(compare t it.pre == .lt)) :
    it.rest = matRange it.materialized pre := by
  rw [rest, matRange, dropWhile_eq_drop_findIdx_not, hidx, hpre]

def joined (it : CachedMaterializedIterator X) (l data : Tuple X) : Tuple X :=
  eliminateFromTuple (l ++ columnsAt data it.rightInvertIndices) it.eliminateIndices

/-- **One range.** The iterator gives the rest of the range it is in, and goes on as from its end.
-/
theorem Yields.of_rest (hpick : ∀ data ∈ it.materialized,
      pick data it.rightInvertIndices = .ok (columnsAt data it.rightInvertIndices))
    {ts : List (Tuple X)} (hts : ∀ idx,
      ({ it with rightIdx := idx } : CachedMaterializedIterator X).advanceRight = none →
      Yields { it with rightIdx := idx } ts) {found : List (Tuple X)} (hfound : it.rest = found) :
    Yields it (found.map (it.joined it.leftCache) ++ ts) := by
  induction found generalizing it with
  | nil =>
    refine hts it.rightIdx ?_
    rw [advanceRight_eq, hfound]
    rfl
  | cons data found ih =>
    obtain ⟨hrest, hmem⟩ := rest_advance hfound
    refine .row ?_ (@ih { it with rightIdx := it.rightIdx + 1 } hpick hts hrest)
    have hadvance : it.advanceRight = some (data, { it with rightIdx := it.rightIdx + 1 }) := by
      rw [advanceRight_eq, hfound]
      rfl
    rw [nextInner, hadvance]
    exact bind_ok.2 ⟨_, hpick data hmem, rfl⟩

theorem Yields.congr {it' : CachedMaterializedIterator X} {ts : List (Tuple X)}
    (heq : it.nextInner = it'.nextInner) (h : Yields it ts) : Yields it' ts := by
  cases h with
  | done h => exact .done (heq ▸ h)
  | row h hts => exact .row (heq ▸ h) hts

/-- **All left rows.** -/
theorem yields_lefts (hpick : ∀ data ∈ it.materialized,
      pick data it.rightInvertIndices = .ok (columnsAt data it.rightInvertIndices))
    {lefts : List (Tuple X)} (hwidth : ∀ l ∈ lefts, ∀ i ∈ it.leftJoinIndices, i < l.length)
    (hleft : it.left = lefts.map .ok)
    (hpre : it.pre = columnsAt it.leftCache it.leftJoinIndices)
    (hidx : it.rightIdx = it.materialized.findIdx fun t => !(compare t it.pre == .lt)) :
    Yields it ((it.leftCache :: lefts).flatMap fun l =>
      (matRange it.materialized (columnsAt l it.leftJoinIndices)).map (it.joined l)) := by
  rw [flatMap_cons]
  -- the induction is on the left rows after the cached one; each of them starts a range of its own
  induction lefts generalizing it with
  | nil =>
    refine Yields.of_rest hpick (fun idx hnone => .done ?_) (rest_eq_matRange hpre hidx)
    rw [nextInner, hnone]
    dsimp only
    split
    · rfl
    · rename_i heq
      cases hleft.symm.trans heq
  | cons l lefts ih =>
    obtain ⟨hl, hwidth⟩ := forall_mem_cons.1 hwidth
    refine Yields.of_rest hpick (fun idx hnone => ?_) (rest_eq_matRange hpre hidx)
    -- the next left row, with its columns and its place in the cache
    let next : CachedMaterializedIterator X := { it with
      left := lefts.map .ok
      leftCache := l
      pre := columnsAt l it.leftJoinIndices
      rightIdx := it.materialized.findIdx fun t => !(compare t (columnsAt l it.leftJoinIndices) == .lt) }
    refine @Yields.congr X _ next _ _ ?_ ?_
    · rw [eq_comm, nextInner, hnone]
      dsimp only
      split
      · rename_i heq
        cases hleft.symm.trans heq
      · rename_i nextLeft left heq
        obtain ⟨rfl, rfl⟩ := List.cons.inj (heq.symm.trans hleft)
        show (buildMatRangeIter _ _ _ >>= _) = _
        rw [buildMatRangeIter, pick_eq hl]
        rfl
    · rw [flatMap_cons]
      exact @ih next hpick hwidth rfl rfl rfl

end CachedMaterializedIterator

/-- The same values, in the order that sorts the cache. -/
def sameColumns (a b : Tuple X) : Bool := compare a b == .eq

/-- **The nested loop** over the rows of both sides, for an equality of join columns. -/
def nestedLoopJoin (agree : Tuple X → Tuple X → Bool) (indices : List Nat × List Nat)
    (eliminateIndices : List Nat) (lefts relation : List (Tuple X)) : List (Tuple X) :=
  lefts.flatMap fun l => (relation.filter fun r =>
    agree (columnsAt l indices.1) (columnsAt r indices.2)).map fun r =>
    eliminateFromTuple (l ++ r) eliminateIndices

def YieldsRows (it : Option (CachedMaterializedIterator X)) (rows : List (Tuple X)) : Prop :=
  match it with
  | none => rows = []
  | some it => it.Yields rows

section NestedLoop

variable [TransOrd X] [LawfulEqOrd X] {lefts rights relation : List (Tuple X)}
  {leftWidth width : Nat} {indices : List Nat × List Nat} {eliminateIndices : List Nat}

/-- **The two equalities of values give one nested loop** just when no two rows show the difference.
-/
theorem nestedLoopJoin_perm_iff :
    (nestedLoopJoin sameColumns indices eliminateIndices lefts relation).Perm
      (nestedLoopJoin DataValue.beqList indices eliminateIndices lefts relation) ↔
    ∀ l ∈ lefts, ∀ r ∈ relation, SameIfEqual (columnsAt l indices.1) (columnsAt r indices.2) := by
  have hsub : ∀ l : Tuple X, (relation.filter fun r =>
        sameColumns (columnsAt l indices.1) (columnsAt r indices.2)).Sublist
      (relation.filter fun r =>
        DataValue.beqList (columnsAt l indices.1) (columnsAt r indices.2)) := fun l =>
    monotone_filter_right _ fun r hsame => by
      rw [← beq_tuple_iff.1 hsame]
      exact DataValue.beqList_self _
  rw [nestedLoopJoin, nestedLoopJoin, flatMap_perm_iff fun l _ => (hsub l).map _]
  refine forall₂_congr fun l _ => ⟨fun heq r hr hequal => ?_, fun hsame => ?_⟩
  · -- the shorter list has as many rows, so it has all of them
    have hrows := (hsub l).eq_of_length (by simpa using congrArg length heq)
    have hmem : r ∈ relation.filter fun r =>
        sameColumns (columnsAt l indices.1) (columnsAt r indices.2) := by
      rw [hrows]
      exact mem_filter.2 ⟨hr, hequal⟩
    exact beq_tuple_iff.1 (mem_filter.1 hmem).2
  · refine congrArg _ (filter_congr fun r hr =>
      Bool.eq_iff_iff.2 ⟨fun h => ?_, fun h => beq_tuple_iff.2 (hsame r hr h)⟩)
    rw [← beq_tuple_iff.1 h]
    exact DataValue.beqList_self _

/-- The iterator gives the rows of the nested loop, when `==` is right for the join columns. -/
theorem yields_nestedLoop (hlength : indices.1.length = indices.2.length)
    (hleft : ∀ i ∈ indices.1, i < leftWidth)
    (hright : ∀ i ∈ indices.2, i < width) (hnodup : indices.2.Nodup)
    (hlefts : ∀ l ∈ lefts, l.length = leftWidth)
    (hrights : ∀ r ∈ rights, r.length = width) (hrelation : relation.Nodup)
    (hmem : ∀ r, r ∈ relation ↔ r ∈ rights) (eliminateIndices : List Nat) :
    ∃ it rows,
      materializedJoinIter (lefts.map .ok) (rights.map .ok) width indices eliminateIndices = .ok it ∧
      YieldsRows it rows ∧
      materializedJoin (.ok (lefts.map .ok)) (.ok (rights.map .ok)) width indices eliminateIndices =
        .ok (rows.map .ok) ∧
      ((∀ l ∈ lefts, ∀ r ∈ relation, SameIfEqual (columnsAt l indices.1) (columnsAt r indices.2)) →
        rows.Perm (nestedLoopJoin sameColumns indices eliminateIndices lefts relation)) := by
  cases lefts with
  | nil => exact ⟨none, [], rfl, rfl, rfl, fun _ => .refl _⟩
  | cons l lefts =>
    have hpick : ∀ l' ∈ l :: lefts, ∀ i ∈ indices.1, i < l'.length := fun l' hl' i hi => by
      rw [hlefts l' hl']
      exact hleft i hi
    obtain ⟨hl, hrest⟩ := forall_mem_cons.1 hpick
    -- the rows of the cache, with the join columns in front
    have hcache : (rights.map .ok).mapM (fun item : Except (EvalError X) (Tuple X) => do
          pick (← item) (rightStoreIndices indices.2 width)) =
        .ok (rights.map fun row => columnsAt row (rightStoreIndices indices.2 width)) := by
      rw [mapM_eq_ok_iff, forall₂_map_left_iff, forall₂_map_right_iff, forall₂_same]
      intro row hrow
      refine pick_eq fun i hi => ?_
      rw [hrights row hrow]
      exact mem_range.1 ((rightStoreIndices_perm hnodup hright).mem_iff.1 hi)
    have hcached := StoredRA.pick_cached hnodup hright hrights
    let materialized := (ExtTreeSet.ofList
      (rights.map fun row => columnsAt row (rightStoreIndices indices.2 width)) compare).toList
    let it : CachedMaterializedIterator X := {
      materialized, eliminateIndices
      leftJoinIndices := indices.1
      rightInvertIndices := rightInvertIndices (rightStoreIndices indices.2 width)
      rightIdx := materialized.findIdx fun t => !(compare t (columnsAt l indices.1) == .lt)
      pre := columnsAt l indices.1
      left := lefts.map .ok
      leftCache := l }
    refine ⟨some it, _, ?_, it.yields_lefts hcached hrest rfl rfl rfl, ?_, ?_⟩
    · refine bind_ok.2 ⟨l, rfl, bind_ok.2 ⟨_, hcache, bind_ok.2 ⟨(_, _), ?_, rfl⟩⟩⟩
      rw [buildMatRangeIter, pick_eq hl]
      rfl
    · -- the rows of all ranges at once
      refine bind_ok.2 ⟨_, rfl, bind_ok.2 ⟨_, rfl, bind_ok.2 ⟨_, hcache, congrArg Except.ok ?_⟩⟩⟩
      rw [map_flatMap, ← map_cons]
      refine (flatMap_map _ _ _).trans (flatMap_congr fun l' hl' => ?_)
      rw [map_map]
      exact StoredRA.materializedJoinRow_eq (hpick l' hl') hcached
    · -- with their columns put back, the rows of a range are those that agree with the left row
      refine fun hsame => List.Perm.flatMap_left _ fun l' hl' => ?_
      have hperm := StoredRA.matRange_columns_perm hlength hnodup hright hrights hrelation hmem
        (hsame l' hl')
      have hrows := hperm.map fun r => eliminateFromTuple (l' ++ r) eliminateIndices
      rw [map_map] at hrows
      have hfilter : relation.filter
        (fun r => sameColumns (columnsAt l' indices.1) (columnsAt r indices.2)) =
          relation.filter fun r => equalAt l' r (indices.1.zip indices.2) :=
        filter_congr fun r _ =>
          Bool.eq_iff_iff.2
          (by rw [sameColumns, beq_tuple_iff, equalAt_iff, columnsAt_eq_iff hlength])
      rwa [hfilter]

end NestedLoop

end Retia
