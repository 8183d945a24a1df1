import Mathlib
import Retia.Query.RA

/-!
# What a plan produces

The execution of a plan is a sequence of rows and errors. Under it lies a relation: `Produces pos
neg` holds of a tuple when the plan yields it from stores whose rows are those of `pos`, where
anti-joins look into `neg`. The relation speaks of arbitrary sets of rows, so it can be asked of
stores that no epoch has.

* `RelAlgebra.mem_iter` — an execution without errors yields exactly the tuples produced from the
  views it reads;
* `RelAlgebra.Produces.mono` — more rows produce more;
* `RelAlgebra.Produces.split` — a tuple produced from a union of old and new rows is produced from
  the old rows alone, or it is still produced when one rule is read only through its new rows,
  provided the rules with new rows occur at most once. This is the step of semi-naive evaluation.
-/

namespace Retia

open Std List

variable {X : Type}

namespace TupleIter

def NoError (it : TupleIter X) : Prop := ∀ e, .error e ∉ it

variable {it : TupleIter X} {t : Tuple X}

theorem mem_flatMapOk {f : Tuple X → TupleIter X} : .ok t ∈ it.flatMapOk f ↔
    ∃ l, .ok l ∈ it ∧ .ok t ∈ f l := by
  rw [flatMapOk, mem_flatMap]
  constructor
  · rintro ⟨item, hitem, ht⟩
    cases item with
    | ok l => exact ⟨l, hitem, ht⟩
    | error e => simp at ht
  · rintro ⟨l, hl, ht⟩
    exact ⟨.ok l, hl, ht⟩

theorem NoError.of_flatMapOk {f : Tuple X → TupleIter X} (h : NoError (it.flatMapOk f)) :
    NoError it ∧ ∀ l, .ok l ∈ it → NoError (f l) := by
  refine ⟨fun e he => h e ?_, fun l hl e he => h e ?_⟩
  · rw [flatMapOk, mem_flatMap]
    exact ⟨.error e, he, by simp⟩
  · rw [flatMapOk, mem_flatMap]
    exact ⟨.ok l, hl, he⟩

variable {f : Tuple X → Except (EvalError X) (Option (Tuple X))}

theorem mem_filterMapOk : .ok t ∈ it.filterMapOk f ↔ ∃ l, .ok l ∈ it ∧ f l = .ok (some t) := by
  rw [filterMapOk, mem_flatMapOk]
  refine exists_congr fun l => and_congr_right fun _ => ?_
  split
  · rename_i hf
    rw [hf]
    simp [eq_comm]
  · rename_i hf
    rw [hf]
    simp
  · rename_i hf
    rw [hf]
    simp

theorem NoError.of_filterMapOk (h : NoError (it.filterMapOk f)) : NoError it :=
  h.of_flatMapOk.1

theorem mem_mapOk {f : Tuple X → Except (EvalError X) (Tuple X)} :
    .ok t ∈ it.mapOk f ↔ ∃ l, .ok l ∈ it ∧ f l = .ok t := by
  rw [mapOk, mem_map]
  constructor
  · rintro ⟨item, hitem, ht⟩
    obtain ⟨l, rfl, hl⟩ := bind_ok.1 ht
    exact ⟨l, hitem, hl⟩
  · rintro ⟨l, hl, ht⟩
    exact ⟨.ok l, hl, ht⟩

theorem NoError.of_mapOk {f : Tuple X → Except (EvalError X) (Tuple X)}
    (h : NoError (it.mapOk f)) : NoError it := by
  intro e he
  refine h e ?_
  rw [mapOk, mem_map]
  exact ⟨.error e, he, rfl⟩

theorem mem_ofExcept {x : Except (EvalError X) (TupleIter X)} :
    .ok t ∈ ofExcept x ↔ ∃ it, x = .ok it ∧ .ok t ∈ it := by
  cases x with
  | ok it | error e => simp [ofExcept]

theorem mem_map_ok {l : List (Tuple X)} : (.ok t : Except (EvalError X) (Tuple X)) ∈ l.map .ok ↔
    t ∈ l := by
  simp

end TupleIter

variable {l pre : Tuple X} {eliminateIndices : List Nat} {indices : List Nat × List Nat}

section Produces

variable [Ord X] [TransOrd X] [LawfulEqOrd X]

abbrev View (X : Type) := MagicSymbol → Tuple X → Prop

/-- The rows that an execution reads: those of the delta view for `deltaRule`, all of them for the
other rules. -/
def view (deltaRule : Option MagicSymbol) (stores : Stores X) : View X := fun k t =>
  ∃ s, stores k = some s ∧ if deltaRule = some k then s.DeltaRow t else s.TotalRow t

def TempStoreRA.scanRange (r : TempStoreRA X) (joinLen : Nat) (pre : Tuple X) : Tuple X × Tuple X :=
  match rangeBounds r.filters (r.bindings.drop joinLen) with
  | some (lower, upper) => (pre ++ lower, pre ++ upper)
  | none => (pre, pre ++ [.bot])

/-- What a prefix join with a store yields for the left row `l`. -/
def TempStoreRA.PrefixRow (r : TempStoreRA X) (pos : View X) (indices : List Nat × List Nat)
    (eliminateIndices : List Nat) (l t : Tuple X) : Prop :=
  ∃ pre found, pick l (leftToPrefixIndices indices.1 indices.2) = .ok pre ∧ pos r.storageKey found ∧
    InRange (r.scanRange indices.2.length pre).1 (r.scanRange indices.2.length pre).2 true found ∧
    joinFound r.passes eliminateIndices l found = .ok (some t)

/-- What a materialised join yields for the left row `l`, given what the right side produces. -/
def MatRow (right : Tuple X → Prop) (width : Nat) (indices : List Nat × List Nat)
    (eliminateIndices : List Nat) (l t : Tuple X) : Prop :=
  ∃ found stored pre row, right found ∧
    pick found (rightStoreIndices indices.2 width) = .ok stored ∧ pick l indices.1 = .ok pre ∧
    stored.take pre.length = pre ∧
    pick stored (rightInvertIndices (rightStoreIndices indices.2 width)) = .ok row ∧
    t = eliminateFromTuple (l ++ row) eliminateIndices

/-- Two tuples that are equal by `==` are the same. Only JSON values can make a difference: the
floats `-0.0` and `0.0` are equal and printed differently. -/
def SameIfEqual (a b : Tuple X) : Prop := DataValue.beqList a b = true → a = b

/-- Rows that are equal by `==` on the join columns are the same there. -/
def JoinAgrees (leftRow rightRow : Tuple X → Prop) (indices : List Nat × List Nat) : Prop :=
  ∀ l r pre cols, leftRow l → rightRow r → pick l indices.1 = .ok pre →
    pick r indices.2 = .ok cols → SameIfEqual pre cols

namespace RelAlgebra

/-- What a join yields for the left row `l`, given what its right side produces. -/
def JoinRow (tx : SessionTx X) (pos : View X) (right : RelAlgebra X)
    (rightProduces : Tuple X → Prop)
    (indices : List Nat × List Nat) (eliminateIndices : List Nat) (l t : Tuple X) : Prop :=
  let mat := MatRow rightProduces right.bindingsAfterEliminate.length indices eliminateIndices l t
  match right with
  | .fixed f => .ok t ∈ f.joinRow indices eliminateIndices l
  | .tempStore r =>
    if joinIsPrefix indices.2 then r.PrefixRow pos indices eliminateIndices l t else mat
  | .stored r =>
    if joinIsPrefix indices.2 then .ok t ∈ r.prefixJoinRow tx indices eliminateIndices l else mat
  | .storedWithValidity r =>
    if joinIsPrefix indices.2 then .ok t ∈ r.prefixJoinRow tx indices eliminateIndices l else mat
  | .join _ _ _ _ | .filter _ _ _ _ | .unification _ _ _ _ _ _ | .search _ _ _ => mat
  | .reorder _ _ | .negJoin _ _ _ _ => False

/-- **What a plan produces** from stores with the rows `pos`, its anti-joins looking into `neg`. -/
def Produces (tx : SessionTx X) (pos : View X) (neg : Stores X) : RelAlgebra X → Tuple X → Prop
  | .fixed f, t => t ∈ f.data
  | .tempStore r, t =>
    pos r.storageKey t ∧ InRange [] [.bot] true t ∧ r.passes t = .ok true
  | .stored r, t => .ok t ∈ r.iter tx
  | .storedWithValidity r, t => .ok t ∈ r.iter tx
  | .join left right joiner toEliminate, t =>
    ∃ indices,
      joiner.joinIndices (X := X) left.bindingsAfterEliminate right.bindingsAfterEliminate =
        .ok indices ∧
      ∃ l, left.Produces tx pos neg l ∧ JoinRow tx pos right (right.Produces tx pos neg) indices
          (getEliminateIndices (left.bindingsAfterEliminate ++ right.bindingsAfterEliminate)
            toEliminate) l t
  | .negJoin left right joiner toEliminate, t =>
    ∃ indices scans isMatch, joiner.joinIndices (X := X) left.bindingsAfterEliminate
        right.bindingsAfterEliminate = .ok indices ∧ negScans tx neg right = .ok scans ∧
      negMatch scans indices = .ok isMatch ∧
      ∃ l, left.Produces tx pos neg l ∧
        negJoinRow isMatch (getEliminateIndices left.bindingsAfterEliminate toEliminate) l =
        .ok (some t)
  | .reorder relation newOrder, t =>
    ∃ indices, reorderIndices (X := X) relation.bindingsAfterEliminate newOrder = .ok indices ∧
      ∃ l, relation.Produces tx pos neg l ∧ pick l indices = .ok t
  | .filter parent _ filtersBytecodes toEliminate, t =>
    ∃ l, parent.Produces tx pos neg l ∧ evalFilters filtersBytecodes l = .ok true ∧
      t = eliminateFromTuple l (getEliminateIndices parent.bindingsAfterEliminate toEliminate)
  | .unification parent binding _ exprBytecode isMulti toEliminate, t =>
    ∃ l, parent.Produces tx pos neg l ∧ .ok t ∈ unificationRow exprBytecode isMulti
        (getEliminateIndices (parent.bindingsAfterEliminate ++ [binding]) toEliminate) l
  | .search parent s _, t =>
    ∃ l, parent.Produces tx pos neg l ∧
      .ok t ∈ searchRow tx s (parent.bindingsAfterEliminate.idxOf? s.query) l

/-- Whether a join with this right side is materialised. -/
def materialized (indices : List Nat × List Nat) : RelAlgebra X → Bool
  | .fixed _ | .reorder _ _ | .negJoin _ _ _ _ => false
  | .tempStore _ | .stored _ | .storedWithValidity _ => !joinIsPrefix indices.2
  | .join _ _ _ _ | .filter _ _ _ _ | .unification _ _ _ _ _ _ | .search _ _ _ => true

/-- **Where the materialised joins of a plan compare rightly**: rows of both sides that are equal on
the join columns by `==` are the same there. -/
def JoinsAgree (tx : SessionTx X) (pos : View X) (neg : Stores X) : RelAlgebra X → Prop
  | .fixed _ | .tempStore _ | .stored _ | .storedWithValidity _ => True
  | .join left right joiner _ => left.JoinsAgree tx pos neg ∧ right.JoinsAgree tx pos neg ∧
    ∀ indices,
      joiner.joinIndices (X := X) left.bindingsAfterEliminate right.bindingsAfterEliminate =
        .ok indices →
      right.materialized indices = true →
        JoinAgrees (left.Produces tx pos neg) (right.Produces tx pos neg) indices
  | .negJoin left _ _ _ => left.JoinsAgree tx pos neg
  | .reorder parent _ | .filter parent _ _ _ | .unification parent _ _ _ _ _ | .search parent _ _ =>
    parent.JoinsAgree tx pos neg

end RelAlgebra

namespace RelAlgebra

/-- The rules whose stores a plan reads positively, once for every place that reads them. -/
def posKeys : RelAlgebra X → List MagicSymbol
  | .fixed _ | .stored _ | .storedWithValidity _ => []
  | .tempStore r => [r.storageKey]
  | .join left right _ _ => left.posKeys ++ right.posKeys
  | .negJoin left _ _ _ => left.posKeys
  | .reorder relation _ => relation.posKeys
  | .filter parent _ _ _ => parent.posKeys
  | .unification parent _ _ _ _ _ => parent.posKeys
  | .search parent _ _ => parent.posKeys

def negKeys : RelAlgebra X → List MagicSymbol
  | .fixed _ | .stored _ | .storedWithValidity _ | .tempStore _ => []
  | .join left right _ _ => left.negKeys ++ right.negKeys
  | .negJoin left (.tempStore r) _ _ => r.storageKey :: left.negKeys
  | .negJoin left _ _ _ => left.negKeys
  | .reorder relation _ => relation.negKeys
  | .filter parent _ _ _ => parent.negKeys
  | .unification parent _ _ _ _ _ => parent.negKeys
  | .search parent _ _ => parent.negKeys

end RelAlgebra

/-! ### Executions yield what is produced -/

theorem isLE_compare_append_bot (pre : Tuple X) : (compare pre (pre ++ [.bot])).isLE := by
  induction pre with
  | nil => simp
  | cons v pre ih =>
    have hv : compare v v = .eq := ReflCmp.compare_self
    rw [cons_append, List.compare_cons_cons, hv]
    exact ih

theorem compare_append_left (pre l u : Tuple X) : compare (pre ++ l) (pre ++ u) = compare l u := by
  induction pre with
  | nil => rfl
  | cons v pre ih =>
    have hv : compare v v = .eq := ReflCmp.compare_self
    rw [cons_append, cons_append, List.compare_cons_cons, hv, ih]
    rfl

omit [TransOrd X] [LawfulEqOrd X] in
theorem rangeBounds_isLE {filters : List (Expr X)} {others : List Symbol}
    {u : Tuple X} (h : rangeBounds filters others = some (l, u)) : (compare l u).isLE := by
  rw [rangeBounds] at h
  split at h
  · cases h
  · split at h
    · rename_i hbounds
      split at h
      · cases h
      · cases h
        exact computeBounds_isLE hbounds
    · cases h

theorem TempStoreRA.mem_scan (r : TempStoreRA X) {storage : EpochStore X}
    (hwf : storage.WF) (scanEpoch : Bool) (joinLen : Nat) (pre : Tuple X) :
    ∃ rows, storeRows (r.scan storage scanEpoch joinLen pre) = .ok rows ∧
    ∀ t, t ∈ rows ↔ (if scanEpoch then storage.DeltaRow t else storage.TotalRow t) ∧
        InRange (r.scanRange joinLen pre).1 (r.scanRange joinLen pre).2 true t := by
  have hrange : (compare (r.scanRange joinLen pre).1 (r.scanRange joinLen pre).2).isLE := by
    rw [scanRange]
    split
    · rename_i hb
      rw [compare_append_left]
      exact rangeBounds_isLE hb
    · exact isLE_compare_append_bot pre
  have hscan : r.scan storage scanEpoch joinLen pre =
      if scanEpoch then
        storage.deltaRangeIter (r.scanRange joinLen pre).1 (r.scanRange joinLen pre).2 true
      else storage.rangeIter (r.scanRange joinLen pre).1 (r.scanRange joinLen pre).2 true := by
    rw [scan, scanRange]
    rcases rangeBounds r.filters (r.bindings.drop joinLen) with _ | ⟨lower, upper⟩ <;> rfl
  rw [hscan]
  cases scanEpoch with
  | true =>
    obtain ⟨items, hitems, hmem⟩ := storage.mem_deltaRangeIter hwf true hrange
    refine ⟨_, by rw [storeRows, if_pos rfl, hitems]; rfl, hmem⟩
  | false =>
    obtain ⟨items, hitems, hmem⟩ := storage.mem_rangeIter hwf true hrange
    refine ⟨_, by rw [storeRows, if_neg (by simp), hitems]; rfl, hmem⟩

variable {deltaRule : Option MagicSymbol} {stores : Stores X} {r : TempStoreRA X} {t : Tuple X}

theorem Stores.unwrap_eq_ok {k : MagicSymbol} {s : EpochStore X} :
    stores.unwrap k = .ok s ↔ stores k = some s := by
  rw [Stores.unwrap]
  split
  · rename_i h
    rw [h]
    simp
  · rename_i h
    rw [h]
    simp

def Stores.WF (stores : Stores X) : Prop := ∀ k s, stores k = some s → s.WF

theorem view_iff {k : MagicSymbol} {s : EpochStore X} (h : stores k = some s) :
    view deltaRule stores k t ↔ if deltaRule = some k then s.DeltaRow t else s.TotalRow t := by
  constructor
  · rintro ⟨s', hs', ht⟩
    rw [h] at hs'
    cases hs'
    exact ht
  · exact fun ht => ⟨s, h, ht⟩

omit [Ord X] [TransOrd X] [LawfulEqOrd X] in
theorem passes_row_iff {t t' : Tuple X} :
    (do return if ← r.passes t then some t else none : Except (EvalError X) (Option (Tuple X))) =
      .ok (some t') ↔ r.passes t = .ok true ∧ t = t' := by
  rw [bind_ok]
  constructor
  · rintro ⟨b, hb, h⟩
    cases b with
    | true =>
      cases h
      exact ⟨hb, rfl⟩
    | false => cases h
  · rintro ⟨hb, rfl⟩
    exact ⟨true, hb, rfl⟩

theorem TempStoreRA.mem_iter {deltaRule : Option MagicSymbol} (hwf : stores.WF)
    {it : TupleIter X} (h : r.iter deltaRule stores = .ok it)
    : .ok t ∈ it ↔ view deltaRule stores r.storageKey t ∧ InRange [] [.bot] true t ∧
    r.passes t = .ok true := by
  rw [TempStoreRA.iter, bind_ok] at h
  obtain ⟨storage, hstorage, h⟩ := h
  obtain ⟨found, hfound, h⟩ := bind_ok.1 h
  cases h
  rw [Stores.unwrap_eq_ok] at hstorage
  have hmem : ∀ t, t ∈ found ↔
      view deltaRule stores r.storageKey t ∧ InRange [] [.bot] true t := by
    intro t
    rw [view_iff hstorage]
    -- a read of everything is a read of the range from the empty tuple to the greatest value
    have hle : (compare ([] : Tuple X) ([] ++ [.bot])).isLE := isLE_compare_append_bot []
    by_cases hd : deltaRule = some r.storageKey
    · rw [if_pos hd] at hfound ⊢
      obtain ⟨items, hitems, hmem⟩ := storage.mem_deltaRangeIter (hwf _ _ hstorage) true hle
      rw [storeRows, EpochStore.deltaAllIter, EpochStore.deltaPrefixIter, hitems] at hfound
      cases hfound
      exact hmem t
    · rw [if_neg hd] at hfound ⊢
      obtain ⟨items, hitems, hmem⟩ := storage.mem_rangeIter (hwf _ _ hstorage) true hle
      rw [storeRows, EpochStore.allIter, EpochStore.prefixIter, hitems] at hfound
      cases hfound
      exact hmem t
  rw [TupleIter.mem_filterMapOk]
  constructor
  · rintro ⟨l, hl, hrow⟩
    obtain ⟨hpass, rfl⟩ := passes_row_iff.1 hrow
    exact ⟨((hmem l).1 (TupleIter.mem_map_ok.1 hl)).1, ((hmem l).1 (TupleIter.mem_map_ok.1 hl)).2, hpass⟩
  · rintro ⟨hview, hrange, hpass⟩
    exact ⟨t, TupleIter.mem_map_ok.2 ((hmem t).2 ⟨hview, hrange⟩), passes_row_iff.2 ⟨hpass, rfl⟩⟩

theorem TempStoreRA.mem_prefixJoinRow {deltaRule : Option MagicSymbol}
    (hwf : stores.WF) {storage : EpochStore X}
    (hstorage : stores r.storageKey = some storage) {t : Tuple X} :
    .ok t ∈ r.prefixJoinRow storage (deltaRule = some r.storageKey) indices eliminateIndices l ↔
      r.PrefixRow (view deltaRule stores) indices eliminateIndices l t := by
  rw [prefixJoinRow, TupleIter.mem_ofExcept, PrefixRow]
  have hview : ∀ t, view deltaRule stores r.storageKey t ↔
      if decide (deltaRule = some r.storageKey) then storage.DeltaRow t else storage.TotalRow t := by
    intro t
    rw [view_iff hstorage]
    simp
  constructor
  · rintro ⟨it, hit, ht⟩
    obtain ⟨pre, hpre, hit⟩ := bind_ok.1 hit
    obtain ⟨rows, hrows, hmem⟩ :=
      r.mem_scan (hwf _ _ hstorage) (deltaRule = some r.storageKey) indices.2.length pre
    obtain ⟨rows', hrows', hit⟩ := bind_ok.1 hit
    obtain rfl : rows = rows' := Except.ok.inj (hrows.symm.trans hrows')
    cases hit
    obtain ⟨found, hfound, hjoin⟩ := TupleIter.mem_filterMapOk.1 ht
    obtain ⟨hrow, hrange⟩ := (hmem found).1 (TupleIter.mem_map_ok.1 hfound)
    exact ⟨pre, found, hpre, (hview found).2 hrow, hrange, hjoin⟩
  · rintro ⟨pre, found, hpre, hrow, hrange, hjoin⟩
    obtain ⟨rows, hrows, hmem⟩ :=
      r.mem_scan (hwf _ _ hstorage) (deltaRule = some r.storageKey) indices.2.length pre
    refine ⟨_, bind_ok.2 ⟨pre, hpre, bind_ok.2 ⟨rows, hrows, rfl⟩⟩, ?_⟩
    exact TupleIter.mem_filterMapOk.2 ⟨found,
      TupleIter.mem_map_ok.2 ((hmem found).2 ⟨(hview found).1 hrow, hrange⟩), hjoin⟩

/-! ### Materialised joins -/

theorem isLE_of_take_eq {t : Tuple X} (h : t.take pre.length = pre) : (compare pre t).isLE := by
  have hle : ∀ rest : Tuple X, (compare pre (pre ++ rest)).isLE := by
    intro rest
    have happ := compare_append_left pre [] rest
    rw [append_nil] at happ
    rw [happ]
    cases rest <;> simp
  have ht : t = pre ++ t.drop pre.length := by
    conv_lhs => rw [← take_append_drop pre.length t, h]
  rw [ht]
  exact hle _

theorem take_eq_of_lt {t t' : Tuple X} (hpre : (compare pre t).isLE)
    (hlt : compare t t' = .lt) (h : t'.take pre.length = pre) : t.take pre.length = pre := by
  have h₁ := isLE_compare_take hpre pre.length
  have h₂ : (compare (t.take pre.length) (t'.take pre.length)).isLE :=
    isLE_compare_take (by rw [hlt]; rfl) pre.length
  rw [take_length] at h₁
  rw [h] at h₂
  have heq : compare (t.take pre.length) pre = .eq := by
    have hswap : compare pre (t.take pre.length) = (compare (t.take pre.length) pre).swap :=
      OrientedCmp.eq_swap
    rw [hswap] at h₁
    cases hc : compare (t.take pre.length) pre with
    | lt => rw [hc] at h₁; cases h₁
    | eq => rfl
    | gt => rw [hc] at h₂; cases h₂
  exact LawfulEqCmp.eq_of_compare heq

theorem beq_tuple_iff {a b : Tuple X} : (compare a b == .eq) = true ↔ a = b := by
  rw [beq_iff_eq]
  exact LawfulEqCmp.compare_eq_iff_eq

theorem startsWith_of_take {t : Tuple X} (h : t.take pre.length = pre) :
    Tuple.startsWith t pre = true := by
  rw [Tuple.startsWith, h]
  exact DataValue.beqList_self pre

theorem mem_matRange {materialized : List (Tuple X)}
    (hsorted : materialized.Pairwise fun a b => compare a b = .lt)
    (hsame : ∀ t ∈ materialized, SameIfEqual pre (t.take pre.length)) {t : Tuple X} :
    t ∈ matRange materialized pre ↔ t ∈ materialized ∧ t.take pre.length = pre := by
  rw [matRange]
  induction materialized with
  | nil => simp
  | cons a m ih =>
    obtain ⟨ha, hm⟩ := pairwise_cons.1 hsorted
    obtain ⟨hsamea, hsamem⟩ := forall_mem_cons.1 hsame
    by_cases hlt : compare a pre = .lt
    · -- before the insertion point
      rw [dropWhile_cons_of_pos (by simp [hlt]), ih hm hsamem, mem_cons]
      refine ⟨fun h => ⟨.inr h.1, h.2⟩, fun h => ⟨h.1.resolve_left ?_, h.2⟩⟩
      rintro rfl
      have hle := isLE_of_take_eq h.2
      have hswap : compare pre t = (compare t pre).swap := OrientedCmp.eq_swap
      rw [hswap, hlt] at hle
      cases hle
    · have hdrop : ∀ l : List (Tuple X), (∀ b ∈ l, (compare pre b).isLE) →
          l.dropWhile (fun t => compare t pre == .lt) = l := by
        intro l hl
        cases l with
        | nil => rfl
        | cons b l =>
          refine dropWhile_cons_of_neg ?_
          have hb := hl b (by simp)
          have hswap : compare pre b = (compare b pre).swap := OrientedCmp.eq_swap
          rw [hswap] at hb
          cases hc : compare b pre <;> simp_all
      have hpre : (compare pre a).isLE := by
        have hswap : compare pre a = (compare a pre).swap := OrientedCmp.eq_swap
        rw [hswap]
        cases hc : compare a pre <;> simp_all
      have hmle : ∀ b ∈ m, (compare pre b).isLE := fun b hb =>
        TransCmp.isLE_trans hpre (by rw [ha b hb]; rfl)
      rw [dropWhile_cons_of_neg (by simp [hlt])]
      rw [hdrop m hmle] at ih
      by_cases hstart : a.take pre.length = pre
      · rw [takeWhile_cons, if_pos (startsWith_of_take hstart), mem_cons, ih hm hsamem, mem_cons]
        refine ⟨fun h => h.elim (fun h => ⟨.inl h, h ▸ hstart⟩) fun h =>
          ⟨.inr h.1, h.2⟩, fun h => h.1.imp id fun hmem => ⟨hmem, h.2⟩⟩
      · rw [takeWhile_cons, if_neg fun h : Tuple.startsWith a pre = true => hstart (hsamea h).symm]
        refine ⟨fun h => absurd h (by simp), fun h => absurd ?_ hstart⟩
        rcases mem_cons.1 h.1 with rfl | hmem
        · exact h.2
        · exact take_eq_of_lt hpre (ha t hmem) h.2

theorem mem_materializedJoinRow {materialized : List (Tuple X)}
    (hsorted : materialized.Pairwise fun a b => compare a b = .lt)
    {leftJoinIndices invertIndices : List Nat} {t : Tuple X}
    (hsame : ∀ pre, pick l leftJoinIndices = .ok pre →
      ∀ t ∈ materialized, SameIfEqual pre (t.take pre.length)) :
    .ok t ∈ materializedJoinRow materialized leftJoinIndices invertIndices eliminateIndices l ↔
      ∃ stored pre row, stored ∈ materialized ∧ pick l leftJoinIndices = .ok pre ∧
        stored.take pre.length = pre ∧ pick stored invertIndices = .ok row ∧
        t = eliminateFromTuple (l ++ row) eliminateIndices := by
  rw [materializedJoinRow, TupleIter.mem_ofExcept]
  constructor
  · rintro ⟨it, hit, ht⟩
    obtain ⟨pre, hpre, hit⟩ := bind_ok.1 hit
    cases hit
    obtain ⟨stored, hstored, hdata⟩ := mem_map.1 ht
    obtain ⟨row, hrow, hout⟩ := bind_ok.1 hdata
    obtain ⟨hmem, hstart⟩ := (mem_matRange hsorted (hsame pre hpre)).1 hstored
    exact ⟨stored, pre, row, hmem, hpre, hstart, hrow, (except_pure_eq_ok.1 hout).symm⟩
  · rintro ⟨stored, pre, row, hmem, hpre, hstart, hrow, rfl⟩
    refine ⟨_, bind_ok.2 ⟨pre, hpre, rfl⟩, mem_map.2 ⟨stored, ?_, ?_⟩⟩
    · exact (mem_matRange hsorted (hsame pre hpre)).2 ⟨hmem, hstart⟩
    · exact bind_ok.2 ⟨row, hrow, rfl⟩

omit [Ord X] [TransOrd X] [LawfulEqOrd X] in
/-- The join columns of the right side come first in the cache. -/
theorem take_of_pick_rightStoreIndices {found stored : Tuple X} {width : Nat}
    (h : pick found (rightStoreIndices indices.2 width) = .ok stored) :
    pick found indices.2 = .ok (stored.take indices.2.length) := by
  rw [rightStoreIndices, pick, mapM_append] at h
  obtain ⟨cols, hcols, h⟩ := bind_ok.1 h
  obtain ⟨others, -, h⟩ := bind_ok.1 h
  cases h
  have hlength : cols.length = indices.2.length := (mapM_eq_ok_iff.1 hcols).length_eq.symm
  rw [← hlength, take_left]
  exact hcols

/-- **The materialised join**, given what its sides produce. -/
theorem mem_materializedJoin {left right : Except (EvalError X) (TupleIter X)}
    {width : Nat} {it : TupleIter X}
    {leftRow rightRow : Tuple X → Prop}
    (hleft : ∀ li, left = .ok li → li.NoError → ∀ l, .ok l ∈ li ↔ leftRow l)
    (hright : ∀ ri, right = .ok ri → ri.NoError → ∀ r, .ok r ∈ ri ↔ rightRow r)
    (hlength : indices.1.length = indices.2.length) (hagrees : JoinAgrees leftRow rightRow indices)
    (h : materializedJoin left right width indices eliminateIndices = .ok it) (hno : it.NoError) :
    .ok t ∈ it ↔ ∃ l, leftRow l ∧ MatRow rightRow width indices eliminateIndices l t := by
  obtain ⟨li, hli, h⟩ := bind_ok.1 h
  match li with
  | [] =>
    cases h
    have hnone := hleft [] hli fun e he => absurd he (by simp)
    refine ⟨fun ht => absurd ht (by simp), ?_⟩
    rintro ⟨l, hl, _⟩
    exact absurd ((hnone l).2 hl) (by simp)
  | .error e :: _ => cases h
  | .ok first :: rest =>
    obtain ⟨ri, hri, h⟩ := bind_ok.1 h
    obtain ⟨cache, hcache, h⟩ := bind_ok.1 h
    cases h
    obtain ⟨hlno, _⟩ := hno.of_flatMapOk
    have hrno : ri.NoError := by
      intro e he
      obtain ⟨b, _, hb⟩ := exists_of_mapM_eq_ok hcache he
      cases hb
    have hsorted : (ExtTreeSet.ofList cache compare).toList.Pairwise fun a b => compare a b = .lt :=
      ExtTreeSet.ordered_toList
    have hmem : ∀ stored, stored ∈ (ExtTreeSet.ofList cache compare).toList ↔
        ∃ found, rightRow found ∧ pick found (rightStoreIndices indices.2 width) = .ok stored := by
      intro stored
      rw [ExtTreeSet.mem_toList, ExtTreeSet.mem_ofList, contains_iff_mem, mem_of_mapM_eq_ok hcache]
      constructor
      · rintro ⟨item, hitem, hpick⟩
        obtain ⟨found, rfl, hpick⟩ := bind_ok.1 hpick
        exact ⟨found, (hright ri hri hrno found).1 hitem, hpick⟩
      · rintro ⟨found, hfound, hpick⟩
        exact ⟨.ok found, (hright ri hri hrno found).2 hfound, hpick⟩
    rw [TupleIter.mem_flatMapOk]
    refine exists_congr fun l => ?_
    rw [hleft _ hli hlno l]
    refine and_congr_right fun hl => ?_
    have hsame : ∀ pre, pick l indices.1 = .ok pre →
        ∀ t ∈ (ExtTreeSet.ofList cache compare).toList, SameIfEqual pre (t.take pre.length) := by
      intro pre hpre stored hstored
      obtain ⟨found, hfound, hpick⟩ := (hmem stored).1 hstored
      have hcols := take_of_pick_rightStoreIndices hpick
      rw [← hlength, (mapM_eq_ok_iff.1 hpre).length_eq] at hcols
      exact hagrees l found pre _ hl hfound hpre hcols
    rw [mem_materializedJoinRow hsorted hsame]
    constructor
    · rintro ⟨stored, pre, row, hstored, hpre, hstart, hrow, ht⟩
      obtain ⟨found, hfound, hpick⟩ := (hmem stored).1 hstored
      exact ⟨found, stored, pre, row, hfound, hpick, hpre, hstart, hrow, ht⟩
    · rintro ⟨found, stored, pre, row, hfound, hpick, hpre, hstart, hrow, ht⟩
      exact ⟨stored, pre, row, (hmem stored).2 ⟨found, hfound, hpick⟩, hpre, hstart, hrow, ht⟩

/-! ### The execution of a plan -/

namespace RelAlgebra

/-- What `mem_iter` says of one plan. -/
def IterSpec (tx : SessionTx X) (deltaRule : Option MagicSymbol) (stores : Stores X)
    (r : RelAlgebra X) : Prop :=
  ∀ it, r.iter tx deltaRule stores = .ok it → it.NoError → ∀ t, .ok t ∈ it ↔
    r.Produces tx (view deltaRule stores) stores t

variable {tx : SessionTx X} {left right : RelAlgebra X} {deltaRule : Option MagicSymbol}
    {toEliminate : List Symbol}
  {stores stores' : Stores X} {r : RelAlgebra X} {old new : View X} {t : Tuple X} {joiner : Joiner}

omit [Ord X] [TransOrd X] [LawfulEqOrd X] in
theorem length_joinIndices {left right : List Symbol}
    (h : joiner.joinIndices (X := X) left right = .ok indices) :
    indices.1.length = indices.2.length := by
  obtain ⟨pairs, -, h⟩ := bind_ok.1 h
  cases h
  simp

theorem iterSpec_join {stores : Stores X} (hwf : stores.WF)
    (hleft : IterSpec tx deltaRule stores left)
    (hright : IterSpec tx deltaRule stores right) (joiner : Joiner) (toEliminate : List Symbol)
    (hagrees : ∀ indices,
      joiner.joinIndices (X := X) left.bindingsAfterEliminate right.bindingsAfterEliminate =
        .ok indices →
      right.materialized indices = true →
        JoinAgrees (left.Produces tx (view deltaRule stores) stores)
          (right.Produces tx (view deltaRule stores) stores) indices) :
    IterSpec tx deltaRule stores (.join left right joiner toEliminate) := by
  intro it h hno t
  rw [iter, joinIter, bind_ok] at h
  obtain ⟨indices, hindices, h⟩ := h
  have hagrees := hagrees indices hindices
  -- the three ways of combining a left row with the right side
  have hmat : right.materialized indices = true → ∀ it : TupleIter X,
      materializedJoin (left.iter tx deltaRule stores)
        (right.iter tx deltaRule stores) right.bindingsAfterEliminate.length indices
        (getEliminateIndices (left.bindingsAfterEliminate ++ right.bindingsAfterEliminate)
          toEliminate) = .ok it → it.NoError →
            ∀ t, (.ok t ∈ it ↔ ∃ l, left.Produces tx (view deltaRule stores) stores l ∧
            MatRow (right.Produces tx (view deltaRule stores) stores)
              right.bindingsAfterEliminate.length indices
              (getEliminateIndices
                (left.bindingsAfterEliminate ++ right.bindingsAfterEliminate) toEliminate) l t) :=
    fun hmat it hit hno t => mem_materializedJoin hleft hright (length_joinIndices hindices)
      (hagrees hmat) hit hno
  have hrows : ∀ (row : Tuple X → TupleIter X) (li : TupleIter X),
      left.iter tx deltaRule stores = .ok li → (li.flatMapOk row).NoError → ∀ t,
        (.ok t ∈ li.flatMapOk row ↔ ∃ l, left.Produces tx (view deltaRule stores) stores l ∧
          .ok t ∈ row l) := by
    intro row li hli hno t
    rw [TupleIter.mem_flatMapOk]
    exact exists_congr fun l => and_congr_left fun _ => hleft li hli hno.of_flatMapOk.1 l
  rw [Produces]
  have hjoin : (.ok t ∈ it ↔ ∃ l, left.Produces tx (view deltaRule stores) stores l ∧
      JoinRow tx (view deltaRule stores) right (right.Produces tx (view deltaRule stores) stores) indices
        (getEliminateIndices (left.bindingsAfterEliminate ++ right.bindingsAfterEliminate)
          toEliminate) l t) := by
    cases right with
    | fixed f =>
      obtain ⟨li, hli, h⟩ := bind_ok.1 h
      rw [except_pure_eq_ok] at h
      by_cases hdata : f.data.isEmpty
      · rw [if_pos hdata] at h
        subst h
        refine ⟨fun ht => absurd ht (by simp), ?_⟩
        rintro ⟨l, _, ht⟩
        simp only [JoinRow, InlineFixedRA.joinRow, isEmpty_iff.1 hdata] at ht
        cases ht
      · rw [if_neg hdata] at h
        subst h
        exact hrows _ li hli hno t
    | tempStore r =>
      simp only [JoinRow] at h ⊢
      by_cases hprefix : joinIsPrefix indices.2
      · rw [if_pos hprefix] at h
        simp only [if_pos hprefix]
        obtain ⟨storage, hstorage, h⟩ := bind_ok.1 h
        obtain ⟨li, hli, h⟩ := bind_ok.1 h
        rw [except_pure_eq_ok] at h
        subst h
        rw [hrows _ li hli hno t]
        exact exists_congr fun l => and_congr_right fun _ =>
          TempStoreRA.mem_prefixJoinRow hwf (Stores.unwrap_eq_ok.1 hstorage)
      · rw [if_neg hprefix] at h
        simp only [if_neg hprefix]
        exact hmat (by simp [materialized, hprefix]) it h hno t
    | stored r | storedWithValidity r =>
      simp only [JoinRow] at h ⊢
      by_cases hprefix : joinIsPrefix indices.2
      · rw [if_pos hprefix] at h
        simp only [if_pos hprefix]
        obtain ⟨li, hli, h⟩ := bind_ok.1 h
        rw [except_pure_eq_ok] at h
        subst h
        exact hrows _ li hli hno t
      · rw [if_neg hprefix] at h
        simp only [if_neg hprefix]
        exact hmat (by simp [materialized, hprefix]) it h hno t
    | join _ _ _ _ | filter _ _ _ _ | unification _ _ _ _ _ _ | search _ _ _ => exact hmat rfl it h hno t
    | reorder _ _ => cases h
    | negJoin _ _ _ _ => cases h
  rw [hjoin]
  constructor
  · exact fun hl => ⟨indices, hindices, hl⟩
  · rintro ⟨indices', hindices', hl⟩
    obtain rfl : indices = indices' := Except.ok.inj (hindices.symm.trans hindices')
    exact hl

/-- **Executions yield what is produced.** When the execution of a plan returns and none of its rows
is an error, its tuples are exactly those the plan produces from the views it reads. -/
theorem mem_iter (tx : SessionTx X) (deltaRule : Option MagicSymbol)
    {stores : Stores X} (hwf : stores.WF)
    (r : RelAlgebra X) (hagree : r.JoinsAgree tx (view deltaRule stores) stores) :
    IterSpec tx deltaRule stores r := by
  induction r with
  | fixed f =>
    intro it h _ t
    cases h
    rw [Produces, TupleIter.mem_map_ok]
  | tempStore r =>
    intro it h _ t
    exact TempStoreRA.mem_iter hwf h
  | stored r | storedWithValidity r =>
    intro it h _ t
    cases h
    exact Iff.rfl
  | join left right joiner toEliminate hleft hright =>
    exact iterSpec_join hwf (hleft hagree.1) (hright hagree.2.1) joiner toEliminate hagree.2.2
  | negJoin left right joiner toEliminate hleft _ =>
    intro it h hno t
    rw [iter, bind_ok] at h
    obtain ⟨indices, hindices, h⟩ := h
    obtain ⟨li, hli, h⟩ := bind_ok.1 h
    obtain ⟨scans, hscans, h⟩ := bind_ok.1 h
    obtain ⟨isMatch, hmatch, h⟩ := bind_ok.1 h
    rw [except_pure_eq_ok] at h
    subst h
    rw [TupleIter.mem_filterMapOk, Produces]
    constructor
    · rintro ⟨l, hl, ht⟩
      exact ⟨indices, scans, isMatch, hindices, hscans, hmatch, l,
        (hleft hagree li hli hno.of_filterMapOk l).1 hl, ht⟩
    · rintro ⟨indices', scans', isMatch', hindices', hscans', hmatch', l, hl, ht⟩
      obtain rfl : indices = indices' := Except.ok.inj (hindices.symm.trans hindices')
      obtain rfl : scans = scans' := Except.ok.inj (hscans.symm.trans hscans')
      obtain rfl : isMatch = isMatch' := Except.ok.inj (hmatch.symm.trans hmatch')
      exact ⟨l, (hleft hagree li hli hno.of_filterMapOk l).2 hl, ht⟩
  | reorder relation newOrder hrel =>
    intro it h hno t
    rw [iter, bind_ok] at h
    obtain ⟨indices, hindices, h⟩ := h
    obtain ⟨li, hli, h⟩ := bind_ok.1 h
    rw [except_pure_eq_ok] at h
    subst h
    rw [TupleIter.mem_mapOk, Produces]
    constructor
    · rintro ⟨l, hl, ht⟩
      exact ⟨indices, hindices, l, (hrel hagree li hli hno.of_mapOk l).1 hl, ht⟩
    · rintro ⟨indices', hindices', l, hl, ht⟩
      obtain rfl : indices = indices' := Except.ok.inj (hindices.symm.trans hindices')
      exact ⟨l, (hrel hagree li hli hno.of_mapOk l).2 hl, ht⟩
  | filter parent filters filtersBytecodes toEliminate hparent =>
    intro it h hno t
    rw [iter, bind_ok] at h
    obtain ⟨li, hli, h⟩ := h
    rw [except_pure_eq_ok] at h
    subst h
    rw [TupleIter.mem_filterMapOk, Produces]
    refine exists_congr fun l => and_congr (hparent hagree li hli hno.of_filterMapOk l) ?_
    rw [bind_ok]
    constructor
    · rintro ⟨b, hb, ht⟩
      cases b with
      | true =>
        cases ht
        exact ⟨hb, rfl⟩
      | false => cases ht
    · rintro ⟨hb, rfl⟩
      exact ⟨true, hb, rfl⟩
  | unification parent binding expr exprBytecode isMulti toEliminate hparent =>
    intro it h hno t
    rw [iter, bind_ok] at h
    obtain ⟨li, hli, h⟩ := h
    rw [except_pure_eq_ok] at h
    subst h
    rw [TupleIter.mem_flatMapOk, Produces]
    exact exists_congr fun l => and_congr_left fun _ => hparent hagree li hli hno.of_flatMapOk.1 l
  | search parent s ownBindings hparent =>
    intro it h hno t
    rw [iter, bind_ok] at h
    obtain ⟨_, _, h⟩ := h
    obtain ⟨li, hli, h⟩ := bind_ok.1 h
    rw [except_pure_eq_ok] at h
    subst h
    rw [TupleIter.mem_flatMapOk, Produces]
    exact exists_congr fun l => and_congr_left fun _ => hparent hagree li hli hno.of_flatMapOk.1 l

/-! ### Monotonicity and the split of new rows -/

variable {pos : View X}

omit [TransOrd X] [LawfulEqOrd X] in
/-- A joined row rests on no row of the right side that could change, on one row of the store that
is read there, or on one row that the right side produces. -/
theorem JoinRow.rests_on {right : RelAlgebra X} {rp : Tuple X → Prop} {t : Tuple X}
    (h : JoinRow tx pos right rp indices eliminateIndices l t) :
    (∀ pos' rp', JoinRow tx pos' right rp' indices eliminateIndices l t) ∨
    (∃ k ∈ right.posKeys, ∃ found, pos k found ∧
        ∀ pos' rp', pos' k found → JoinRow tx pos' right rp' indices eliminateIndices l t) ∨
      ∃ found, rp found ∧ ∀ pos' rp', rp' found →
      JoinRow tx pos' right rp' indices eliminateIndices l t := by
  have hmat : MatRow rp right.bindingsAfterEliminate.length indices eliminateIndices l t →
    ∃ found, rp found ∧
      ∀ (_ : View X) (rp' : Tuple X → Prop), rp' found →
        MatRow rp' right.bindingsAfterEliminate.length indices eliminateIndices l t := by
    rintro ⟨found, stored, pre, row, hfound, hrest⟩
    exact ⟨found, hfound, fun _ _ hfound' => ⟨found, stored, pre, row, hfound', hrest⟩⟩
  cases right with
  | fixed f => exact .inl fun _ _ => h
  | tempStore r =>
    by_cases hprefix : joinIsPrefix indices.2
    · simp only [JoinRow, if_pos hprefix] at h ⊢
      obtain ⟨pre, found, hpre, hfound, hrest⟩ := h
      exact .inr (.inl ⟨r.storageKey, mem_singleton.2 rfl, found,
        hfound, fun _ _ hfound' => ⟨pre, found, hpre, hfound', hrest⟩⟩)
    · simp only [JoinRow, if_neg hprefix] at h ⊢
      exact .inr (.inr (hmat h))
  | stored r | storedWithValidity r =>
    by_cases hprefix : joinIsPrefix indices.2
    · simp only [JoinRow, if_pos hprefix] at h ⊢
      exact .inl fun _ _ => h
    · simp only [JoinRow, if_neg hprefix] at h ⊢
      exact .inr (.inr (hmat h))
  | join _ _ _ _ | filter _ _ _ _ | unification _ _ _ _ _ _ | search _ _ _ => exact .inr (.inr (hmat h))
  | reorder _ _ | negJoin _ _ _ _ => exact h.elim

omit [TransOrd X] [LawfulEqOrd X] in
theorem JoinRow.mono {pos' : View X} {right : RelAlgebra X}
    (hpos : ∀ k ∈ right.posKeys, ∀ t, pos k t → pos' k t) {rp rp' : Tuple X → Prop}
    (hrp : ∀ t, rp t → rp' t) {t : Tuple X}
    (h : JoinRow tx pos right rp indices eliminateIndices l t) :
    JoinRow tx pos' right rp' indices eliminateIndices l t := by
  rcases h.rests_on with hfree | ⟨k, hk, found, hfound, hrow⟩ | ⟨found, hfound, hrow⟩
  · exact hfree pos' rp'
  · exact hrow pos' rp' (hpos k hk found hfound)
  · exact hrow pos' rp' (hrp found hfound)

theorem negScans_congr {left right : RelAlgebra X} {toEliminate : List Symbol}
    (h : ∀ k ∈ (RelAlgebra.negJoin left right joiner toEliminate).negKeys, stores k = stores' k) :
    negScans tx stores right = negScans tx stores' right := by
  cases right with
  | tempStore r =>
    have hr : stores r.storageKey = stores' r.storageKey := h _ mem_cons_self
    simp only [negScans, Stores.unwrap, hr]
  | _ => rfl

omit [Ord X] [TransOrd X] [LawfulEqOrd X] in
theorem negKeys_left_subset {joiner : Joiner} {k : MagicSymbol} (h : k ∈ left.negKeys) :
    k ∈ (RelAlgebra.negJoin left right joiner toEliminate).negKeys := by
  cases right with
  | tempStore r => exact mem_cons_of_mem _ h
  | _ => exact h

/-- More rows of the stores a plan reads produce more, and its anti-joins see only the stores they
look into. -/
theorem Produces.of_views {pos' : View X} {neg neg' : Stores X}
    (hpos : ∀ k ∈ r.posKeys, ∀ t, pos k t → pos' k t) (hneg : ∀ k ∈ r.negKeys, neg k = neg' k)
    (h : r.Produces tx pos neg t) : r.Produces tx pos' neg' t := by
  induction r generalizing t with
  | fixed f | stored r | storedWithValidity r => exact h
  | tempStore r => exact ⟨hpos _ (mem_singleton.2 rfl) _ h.1, h.2⟩
  | join left right joiner toEliminate hleft hright =>
    obtain ⟨indices, hindices, l, hl, hrow⟩ := h
    have hposr := fun k hk => hpos k (mem_append_right _ hk)
    have hleft' := hleft (fun k hk => hpos k (mem_append_left _ hk))
      (fun k hk => hneg k (mem_append_left _ hk)) hl
    exact ⟨indices, hindices, l, hleft', hrow.mono hposr fun _ =>
      hright hposr fun k hk => hneg k (mem_append_right _ hk)⟩
  | negJoin left right joiner toEliminate hleft _ =>
    obtain ⟨indices, scans, isMatch, h₁, h₂, h₃, l, hl, hrow⟩ := h
    rw [negScans_congr hneg] at h₂
    exact ⟨indices, scans, isMatch, h₁, h₂, h₃, l,
      hleft hpos (fun k hk => hneg k (negKeys_left_subset hk)) hl, hrow⟩
  | reorder relation newOrder hrel =>
    obtain ⟨indices, hindices, l, hl, hrow⟩ := h
    exact ⟨indices, hindices, l, hrel hpos hneg hl, hrow⟩
  | filter parent filters filtersBytecodes toEliminate hparent
  | unification parent binding expr exprBytecode isMulti toEliminate hparent
  | search parent s ownBindings hparent =>
    obtain ⟨l, hl, hrow⟩ := h
    exact ⟨l, hparent hpos hneg hl, hrow⟩

/-- Fewer rows leave fewer pairs of rows to compare. -/
theorem JoinsAgree.of_views {pos' : View X} {neg neg' : Stores X}
    (hpos : ∀ k ∈ r.posKeys, ∀ t, pos k t → pos' k t)
    (hneg : ∀ k ∈ r.negKeys, neg k = neg' k) (h : r.JoinsAgree tx pos' neg') :
    r.JoinsAgree tx pos neg := by
  induction r with
  | fixed f | tempStore r | stored r | storedWithValidity r => exact h
  | join left right joiner toEliminate hleft hright =>
    have hposl := fun k hk => hpos k (mem_append_left _ hk)
    have hposr := fun k hk => hpos k (mem_append_right _ hk)
    have hnegl := fun k hk => hneg k (mem_append_left _ hk)
    have hnegr := fun k hk => hneg k (mem_append_right _ hk)
    refine ⟨hleft hposl hnegl h.1,
      hright hposr hnegr h.2.1, fun indices hindices hmat l r pre cols hl hr => ?_⟩
    exact h.2.2 indices hindices hmat l r pre cols (hl.of_views hposl hnegl) (hr.of_views hposr hnegr)
  | negJoin left right joiner toEliminate hleft _ =>
    exact hleft hpos (fun k hk => hneg k (negKeys_left_subset hk)) h
  | reorder parent _ hparent | filter parent _ _ _ hparent | unification parent _ _ _ _ _ hparent
  | search parent _ _ hparent => exact hparent hpos hneg h

/-- **Monotonicity.** -/
theorem Produces.mono {pos' : View X} {neg : Stores X}
    (hpos : ∀ k ∈ r.posKeys, ∀ t, pos k t → pos' k t)
    (h : r.Produces tx pos neg t) : r.Produces tx pos' neg t := h.of_views hpos fun _ _ => rfl

/-- The rows `old` and `new` together. -/
def both (old new : View X) : View X := fun k t => old k t ∨ new k t

/-- The rows `old` and `new` together, but only the new ones of the rule `p`. -/
def onlyNewOf (p : MagicSymbol) (old new : View X) : View X := fun k t =>
  if k = p then new k t else old k t ∨ new k t

omit [Ord X] [TransOrd X] [LawfulEqOrd X] in
theorem onlyNewOf_of_ne {p k : MagicSymbol} (h : k ≠ p) (ht : both old new k t) :
    onlyNewOf p old new k t := by
  rw [onlyNewOf, if_neg h]
  exact ht

omit [TransOrd X] [LawfulEqOrd X] in
theorem JoinRow.split {right : RelAlgebra X} {R : View X → Tuple X → Prop}
    (hR : ∀ t, R (both old new) t → R old t ∨
      ∃ p ∈ right.posKeys, (∃ t, new p t) ∧ R (onlyNewOf p old new) t) {t : Tuple X}
    (h : JoinRow tx (both old new) right (R (both old new)) indices eliminateIndices l t) :
    JoinRow tx old right (R old) indices eliminateIndices l t ∨
    ∃ p ∈ right.posKeys, (∃ t, new p t) ∧ JoinRow tx (onlyNewOf p old new) right
        (R (onlyNewOf p old new)) indices eliminateIndices l t := by
  rcases h.rests_on with hfree | ⟨k, hk, found, hold | hnew, hrow⟩ | ⟨found, hfound, hrow⟩
  · exact .inl (hfree _ _)
  · exact .inl (hrow _ _ hold)
  · refine .inr ⟨k, hk, ⟨found, hnew⟩, hrow _ _ ?_⟩
    rw [onlyNewOf, if_pos rfl]
    exact hnew
  · rcases hR found hfound with hold | ⟨p, hp, hnew, hfound⟩
    · exact .inl (hrow _ _ hold)
    · exact .inr ⟨p, hp, hnew, hrow _ _ hfound⟩

/-- **The split of new rows.** When every rule with new rows is read at most once, a tuple produced
from old and new rows is produced from the old ones, or it is produced with one rule read through
its new rows only. -/
theorem Produces.split {neg : Stores X} (hcount : ∀ k, (∃ t, new k t) → r.posKeys.count k ≤ 1)
    (h : r.Produces tx (both old new) neg t) : r.Produces tx old neg t ∨
      ∃ p ∈ r.posKeys, (∃ t, new p t) ∧ r.Produces tx (onlyNewOf p old new) neg t := by
  induction r generalizing t with
  | fixed f => exact .inl h
  | tempStore r =>
    rcases h.1 with hold | hnew
    · exact .inl ⟨hold, h.2⟩
    · refine .inr ⟨r.storageKey, mem_singleton.2 rfl, ⟨t, hnew⟩, ?_, h.2⟩
      rw [onlyNewOf, if_pos rfl]
      exact hnew
  | stored r | storedWithValidity r => exact .inl h
  | join left right joiner toEliminate hleft hright =>
    obtain ⟨indices, hindices, l, hl, hrow⟩ := h
    -- a rule with new rows is read on one side only
    have hsides : ∀ k, (∃ t, new k t) → left.posKeys.count k + right.posKeys.count k ≤ 1 := by
      intro k hk
      have := hcount k hk
      rwa [posKeys, count_append] at this
    have hcl : ∀ k, (∃ t, new k t) → left.posKeys.count k ≤ 1 := fun k hk => by
      have := hsides k hk
      omega
    have hcr : ∀ k, (∃ t, new k t) → right.posKeys.count k ≤ 1 := fun k hk => by
      have := hsides k hk
      omega
    rcases hleft hcl hl with hl' | ⟨p, hp, hnew, hl'⟩
    · have hsplit := JoinRow.split (R := fun pos => right.Produces tx pos neg)
        (fun t => hright hcr) hrow
      rcases hsplit with hrow' | ⟨p, hp, hnew, hrow'⟩
      · exact .inl ⟨indices, hindices, l, hl', hrow'⟩
      · have hne : ∀ k ∈ left.posKeys, k ≠ p := by
          rintro k hk rfl
          have := hsides k hnew
          have := count_pos_iff.2 hk
          have := count_pos_iff.2 hp
          omega
        refine .inr ⟨p, mem_append_right _ hp, hnew, indices, hindices, l, ?_, hrow'⟩
        exact hl'.mono fun k hk t ht => onlyNewOf_of_ne (hne k hk) (.inl ht)
    · have hne : ∀ k ∈ right.posKeys, k ≠ p := by
        rintro k hk rfl
        have := hsides k hnew
        have := count_pos_iff.2 hk
        have := count_pos_iff.2 hp
        omega
      have hposr : ∀ k ∈ right.posKeys, ∀ t, both old new k t → onlyNewOf p old new k t :=
        fun k hk t ht => onlyNewOf_of_ne (hne k hk) ht
      exact .inr ⟨p, mem_append_left _ hp, hnew, indices, hindices, l, hl',
        hrow.mono hposr fun _ h => h.mono hposr⟩
  | negJoin left right joiner toEliminate hleft _ =>
    obtain ⟨indices, scans, isMatch, h₁, h₂, h₃, l, hl, hrow⟩ := h
    rcases hleft hcount hl with hl | ⟨p, hp, hnew, hl⟩
    · exact .inl ⟨indices, scans, isMatch, h₁, h₂, h₃, l, hl, hrow⟩
    · exact .inr ⟨p, hp, hnew, indices, scans, isMatch, h₁, h₂, h₃, l, hl, hrow⟩
  | reorder relation newOrder hrel =>
    obtain ⟨indices, hindices, l, hl, hrow⟩ := h
    rcases hrel hcount hl with hl | ⟨p, hp, hnew, hl⟩
    · exact .inl ⟨indices, hindices, l, hl, hrow⟩
    · exact .inr ⟨p, hp, hnew, indices, hindices, l, hl, hrow⟩
  | filter parent filters filtersBytecodes toEliminate hparent
  | unification parent binding expr exprBytecode isMulti toEliminate hparent
  | search parent s ownBindings hparent =>
    obtain ⟨l, hl, hrow⟩ := h
    rcases hparent hcount hl with hl | ⟨p, hp, hnew, hl⟩
    · exact .inl ⟨l, hl, hrow⟩
    · exact .inr ⟨p, hp, hnew, l, hl, hrow⟩

/-! ### Only the rules mentioned matter -/

theorem joinIter_congr {deltaRule : Option MagicSymbol} {joiner : Joiner}
    {leftIter rightIter : Except (EvalError X) (TupleIter X)}
    (h : ∀ k ∈ right.posKeys, stores k = stores' k) :
    joinIter tx deltaRule stores left right joiner toEliminate leftIter rightIter =
      joinIter tx deltaRule stores' left right joiner toEliminate leftIter rightIter := by
  cases right with
  | tempStore r =>
    have hr : stores r.storageKey = stores' r.storageKey := h _ (mem_singleton.2 rfl)
    simp only [joinIter, Stores.unwrap, hr]
  | _ => rfl

/-- An execution sees only the stores of the rules that the plan reads. -/
theorem iter_congr {stores stores' : Stores X}
    (h : ∀ k ∈ r.posKeys ++ r.negKeys, stores k = stores' k) :
    r.iter tx deltaRule stores = r.iter tx deltaRule stores' := by
  have hpos : ∀ k ∈ r.posKeys, stores k = stores' k := fun k hk => h k (mem_append_left _ hk)
  have hneg : ∀ k ∈ r.negKeys, stores k = stores' k := fun k hk => h k (mem_append_right _ hk)
  clear h
  induction r with
  | fixed f => rfl
  | tempStore r =>
    have hr : stores r.storageKey = stores' r.storageKey := hpos _ (mem_singleton.2 rfl)
    simp only [iter, TempStoreRA.iter, Stores.unwrap, hr]
  | stored r => rfl
  | storedWithValidity r => rfl
  | join left right joiner toEliminate hleft hright =>
    rw [iter, iter, hleft (fun k hk => hpos k (mem_append_left _ hk)) (fun k hk =>
      hneg k (mem_append_left _ hk)), hright (fun k hk => hpos k (mem_append_right _ hk))
      (fun k hk => hneg k (mem_append_right _ hk))]
    exact joinIter_congr fun k hk => hpos k (mem_append_right _ hk)
  | negJoin left right joiner toEliminate hleft _ =>
    rw [iter, iter, hleft hpos fun k hk => hneg k (negKeys_left_subset hk), negScans_congr hneg]
  | reorder relation newOrder hrel => rw [iter, iter, hrel hpos hneg]
  | filter parent filters filtersBytecodes toEliminate hparent
  | unification parent binding expr exprBytecode isMulti toEliminate hparent =>
    rw [iter, iter, hparent hpos hneg]
  | search parent s ownBindings hparent => rw [iter, iter, hparent hpos hneg]

end RelAlgebra

end Produces

end Retia
