import Mathlib
import Retia.Runtime.TempStore

/-!
# Relational plans

`query/ra.rs`: the plan of a rule body and its execution. A plan reads the stores of other rules
(`tempStore`), stored relations and indices (through the transaction), and combines them by joins,
anti-joins, filters, unifications and searches; `iter` returns its rows in order, each of them a
tuple or an error.

The strategy of a join is picked from the shape of its right side and the join columns: a prefix
scan of a store for every left row, a point lookup, or a materialised right side. The joins only
differ in what they do with one left row, so each strategy is a function from a left row to the rows
it yields.

* `RelAlgebra.iter` — the execution, for the stores of the running query and, in the incremental
  epochs, the one rule whose store is read through its delta view;
* `joinIter`, `negScans`, `negMatch` — the joins and anti-joins, with the strategies that depend on
  where the join columns are.

What a plan produces, as a relation over arbitrary contents of the stores, is in
`Retia.Query.Produces`.
-/

namespace Retia

open Std

variable {X : Type}

inductive MagicSymbol where
  | muggle (inner : Symbol)
  | magic (inner : Symbol) (adornment : List Bool)
  | input (inner : Symbol) (adornment : List Bool)
  | sup (inner : Symbol) (adornment : List Bool) (ruleIdx supIdx : Nat)
deriving DecidableEq

/-- `is_prog_entry`. -/
def MagicSymbol.isProgEntry : MagicSymbol → Bool
  | .muggle inner => inner == "?"
  | _ => false

abbrev TupleIter (X : Type) := List (Except (EvalError X) (Tuple X))

namespace TupleIter

/-- `map_ok` with a fallible function, and `flatten_err`. -/
def mapOk (f : Tuple X → Except (EvalError X) (Tuple X)) (it : TupleIter X) : TupleIter X :=
  it.map fun item => item >>= f

/-- `map_ok` with a function that yields rows, and `flatten_ok`. -/
def flatMapOk (f : Tuple X → TupleIter X) (it : TupleIter X) : TupleIter X :=
  it.flatMap fun item =>
    match item with
    | .ok t => f t
    | .error e => [.error e]

/-- `map_ok` with a function that may drop the row, and `filter_map(invert_option_err)`. -/
def filterMapOk (f : Tuple X → Except (EvalError X) (Option (Tuple X))) (it : TupleIter X) :
    TupleIter X :=
  it.flatMapOk fun t =>
    match f t with
    | .ok (some t) => [.ok t]
    | .ok none => []
    | .error e => [.error e]

def ofExcept : Except (EvalError X) (TupleIter X) → TupleIter X
  | .ok it => it
  | .error e => [.error e]

end TupleIter

/-- A stored relation as the plans see it: its name and the columns of its metadata. -/
structure StorageHandle where
  name : String
  keys : List Symbol
  nonKeys : List Symbol

inductive SearchKind where
  | hnsw | fts | lsh
deriving DecidableEq

/-- `HnswSearch`, `FtsSearch`, `LshSearch`: the relation and the index, the variable that holds the
query, and the filter with its compiled form. -/
structure Search (X : Type) where
  kind : SearchKind
  baseHandle : String
  idxHandle : String
  query : Symbol
  filter : Option (Expr X)
  filterBytecode : Option (List (Bytecode X))

/-- What a plan reads from the transaction: stored relations by scans and point lookups, and the
searches of the indices. -/
structure SessionTx (X : Type) where
  scanAll : StorageHandle → TupleIter X
  scanPrefix : StorageHandle → Tuple X → TupleIter X
  scanBoundedPrefix : StorageHandle → (pre lower upper : Tuple X) → TupleIter X
  get : StorageHandle → Tuple X → Except (EvalError X) (Option (Tuple X))
  skipScanAll : StorageHandle → Int64 → TupleIter X
  skipScanPrefix : StorageHandle → Tuple X → Int64 → TupleIter X
  skipScanBoundedPrefix : StorageHandle → (pre lower upper : Tuple X) → Int64 → TupleIter X
  /-- `tokenizers.get`, for the two text indices. -/
  tokenizer : Search X → Except (EvalError X) Unit
  hnswKnn : Search X → X → Except (EvalError X) (List (Tuple X))
  ftsSearch : Search X → Bytes → Except (EvalError X) (List (Tuple X))
  lshSearch : Search X → DataValue X → Except (EvalError X) (List (Tuple X))

/-! ### Plans -/

structure InlineFixedRA (X : Type) where
  bindings : List Symbol
  data : List (Tuple X)
  toEliminate : List Symbol

structure TempStoreRA (X : Type) where
  bindings : List Symbol
  storageKey : MagicSymbol
  filters : List (Expr X)
  filtersBytecodes : List (List (Bytecode X))

structure StoredRA (X : Type) where
  bindings : List Symbol
  storage : StorageHandle
  filters : List (Expr X)
  filtersBytecodes : List (List (Bytecode X))

structure StoredWithValidityRA (X : Type) where
  bindings : List Symbol
  storage : StorageHandle
  filters : List (Expr X)
  filtersBytecodes : List (List (Bytecode X))
  validAt : Int64

structure Joiner where
  leftKeys : List Symbol
  rightKeys : List Symbol
  length_eq : leftKeys.length = rightKeys.length

inductive RelAlgebra (X : Type) where
  | fixed (r : InlineFixedRA X)
  | tempStore (r : TempStoreRA X)
  | stored (r : StoredRA X)
  | storedWithValidity (r : StoredWithValidityRA X)
  | join (left right : RelAlgebra X) (joiner : Joiner) (toEliminate : List Symbol)
  | negJoin (left right : RelAlgebra X) (joiner : Joiner) (toEliminate : List Symbol)
  | reorder (relation : RelAlgebra X) (newOrder : List Symbol)
  | filter (parent : RelAlgebra X) (filters : List (Expr X))
    (filtersBytecodes : List (List (Bytecode X))) (toEliminate : List Symbol)
  | unification (parent : RelAlgebra X) (binding : Symbol) (expr : Expr X)
      (exprBytecode : List (Bytecode X)) (isMulti : Bool) (toEliminate : List Symbol)
  /-- `HnswSearch`, `FtsSearch` and `LshSearch`. -/
  | search (parent : RelAlgebra X) (search : Search X) (ownBindings : List Symbol)

namespace RelAlgebra

def unit : RelAlgebra X := .fixed ⟨[], [[]], []⟩

def isUnit : RelAlgebra X → Bool
  | .fixed r => r.bindings.isEmpty && r.data.length == 1
  | _ => false

/-- `eliminate_set`, empty where there is none. -/
def eliminateSet : RelAlgebra X → List Symbol
  | .fixed r => r.toEliminate
  | .tempStore _ | .stored _ | .storedWithValidity _ => []
  | .join _ _ _ toEliminate => toEliminate
  | .negJoin _ _ _ toEliminate => toEliminate
  | .reorder _ _ => []
  | .filter _ _ _ toEliminate => toEliminate
  | .unification _ _ _ _ _ toEliminate => toEliminate
  | .search _ _ _ => []

def bindingsBeforeEliminate : RelAlgebra X → List Symbol
  | .fixed r => r.bindings
  | .tempStore r => r.bindings
  | .stored r => r.bindings
  | .storedWithValidity r => r.bindings
  | .join left right _ _ =>
    (left.bindingsBeforeEliminate.filter fun kw => kw ∉ left.eliminateSet) ++
      right.bindingsBeforeEliminate.filter fun kw => kw ∉ right.eliminateSet
  | .negJoin left _ _ _ => left.bindingsBeforeEliminate.filter fun kw => kw ∉ left.eliminateSet
  | .reorder _ newOrder => newOrder
  | .filter parent _ _ _ =>
    parent.bindingsBeforeEliminate.filter fun kw => kw ∉ parent.eliminateSet
  | .unification parent binding _ _ _ _ =>
    (parent.bindingsBeforeEliminate.filter fun kw => kw ∉ parent.eliminateSet) ++ [binding]
  | .search parent _ ownBindings =>
    (parent.bindingsBeforeEliminate.filter fun kw => kw ∉ parent.eliminateSet) ++ ownBindings

def bindingsAfterEliminate (r : RelAlgebra X) : List Symbol :=
  r.bindingsBeforeEliminate.filter fun kw => kw ∉ r.eliminateSet

end RelAlgebra

/-! ### Positions -/

/-- `get_eliminate_indices`. -/
def getEliminateIndices (bindings eliminate : List Symbol) : List Nat :=
  (bindings.zipIdx.filter fun b => b.1 ∈ eliminate).map Prod.snd

/-- `eliminate_from_tuple`. -/
def eliminateFromTuple (t : Tuple X) (eliminateIndices : List Nat) : Tuple X :=
  (t.zipIdx.filter fun v => v.2 ∉ eliminateIndices).map Prod.fst

/-- The map from names to positions that is collected from an enumeration: the last one wins. -/
def positionOf (s : Symbol) : List Symbol → Option Nat
  | [] => none
  | b :: bs =>
    match positionOf s bs with
    | some i => some (i + 1)
    | none => if b = s then some 0 else none

/-- The columns `is` of a tuple. -/
def pick (t : Tuple X) (is : List Nat) : Except (EvalError X) (Tuple X) :=
  is.mapM fun i =>
    match t[i]? with
    | some v => .ok v
    | none => .error (.panic .indexOutOfBounds)

/-- `join_indices`: the positions of the join columns on both sides. -/
def Joiner.joinIndices (j : Joiner) (leftBindings rightBindings : List Symbol) :
    Except (EvalError X) (List Nat × List Nat) := do
  let pairs ← (j.leftKeys.zip j.rightKeys).mapM fun k =>
    match positionOf k.1 leftBindings, positionOf k.2 rightBindings with
    | some l, some r => .ok (l, r)
    | _, _ => .error (.panic .unreachable)
  return pairs.unzip

/-- `reorder_indices`. -/
def reorderIndices (oldOrder newOrder : List Symbol) : Except (EvalError X) (List Nat) :=
  newOrder.mapM fun k =>
    match positionOf k oldOrder with
    | some i => .ok i
    | none => .error (.panic .unreachable)

/-- `join_is_prefix`: the join columns are the first ones of the right side. -/
def joinIsPrefix (rightJoinIndices : List Nat) : Bool :=
  rightJoinIndices.insertionSort (· ≤ ·) = List.range rightJoinIndices.length

/-- `left_to_prefix_indices`: the left positions in the order of the right ones. -/
def leftToPrefixIndices (leftJoinIndices rightJoinIndices : List Nat) : List Nat :=
  ((leftJoinIndices.zip rightJoinIndices).insertionSort fun a b => a.2 ≤ b.2).map Prod.fst

/-! ### Execution

For each operator, the rows that one row of its input yields. -/

section Rows

variable [Ord X] [TransOrd X] [LawfulEqOrd X]

/-- The stores of the rules that have been or are being evaluated. -/
abbrev Stores (X : Type) [Ord X] [TransOrd X] [LawfulEqOrd X] := MagicSymbol → Option (EpochStore X)

/-- `stores.get(key).unwrap()`. -/
def Stores.unwrap (stores : Stores X) (key : MagicSymbol) : Except (EvalError X) (EpochStore X) :=
  match stores key with
  | some s => .ok s
  | none => .error (.panic .unreachable)

def storeRows (found : Except Panic (List (TupleInIter X))) :
    Except (EvalError X) (List (Tuple X)) := do
  return (← found.mapError .panic).map TupleInIter.intoTuple

/-- `filter_iter`. -/
def filterIter (filtersBytecodes : List (List (Bytecode X))) (it : TupleIter X) : TupleIter X :=
  it.filterMapOk fun t => do return if ← evalFilters filtersBytecodes t then some t else none

/-- The row `found` joined to `tuple`, if it passes the filters of its side. -/
def joinFound (passes : Tuple X → Except (EvalError X) Bool) (eliminateIndices : List Nat)
    (tuple found : Tuple X) : Except (EvalError X) (Option (Tuple X)) := do
  return if ← passes found then some (eliminateFromTuple (tuple ++ found) eliminateIndices) else none

/-- The bounds that the filters put on the columns after the join columns, unless they say nothing.
They do not depend on the row, so the check that the code skips after its first failure fails for
all rows or for none. -/
def rangeBounds (filters : List (Expr X)) (otherBindings : List Symbol) :
    Option (Tuple X × Tuple X) :=
  if filters.isEmpty then none
  else
    match computeBounds filters otherBindings with
    | .ok (lower, upper) =>
      if lower.all (fun v => v.beq .null) && upper.all (fun v => v.beq .bot) then none
      else some (lower, upper)
    | .error _ => none

namespace TempStoreRA

def passes (r : TempStoreRA X) (found : Tuple X) : Except (EvalError X) Bool :=
  if r.filters.isEmpty then .ok true else evalFilters r.filtersBytecodes found

def iter (r : TempStoreRA X) (deltaRule : Option MagicSymbol) (stores : Stores X) :
    Except (EvalError X) (TupleIter X) := do
  let storage ← stores.unwrap r.storageKey
  let found ← storeRows (if deltaRule = some r.storageKey then storage.deltaAllIter else
    storage.allIter)
  return TupleIter.filterMapOk (fun t => do return if ← r.passes t then some t else none)
    (found.map .ok)

/-- What `prefix_join` reads of the store for the left columns `pre`. -/
def scan (r : TempStoreRA X) (storage : EpochStore X) (scanEpoch : Bool)
    (joinLen : Nat) (pre : Tuple X) : Except Panic (List (TupleInIter X)) :=
  match rangeBounds r.filters (r.bindings.drop joinLen) with
  | some (lower, upper) =>
    if scanEpoch then storage.deltaRangeIter (pre ++ lower) (pre ++ upper) true
    else storage.rangeIter (pre ++ lower) (pre ++ upper) true
  | none => if scanEpoch then storage.deltaPrefixIter pre else storage.prefixIter pre

/-- `prefix_join` on one left row. -/
def prefixJoinRow (r : TempStoreRA X) (storage : EpochStore X) (scanEpoch : Bool)
    (indices : List Nat × List Nat) (eliminateIndices : List Nat) (tuple : Tuple X) : TupleIter X :=
  .ofExcept do
    let pre ← pick tuple (leftToPrefixIndices indices.1 indices.2)
    let found ← storeRows (r.scan storage scanEpoch indices.2.length pre)
    return TupleIter.filterMapOk (joinFound r.passes eliminateIndices tuple) (found.map .ok)

end TempStoreRA

/-- `tuple[l] == found[r]` for all pairs of join columns; the loop stops at the first difference. -/
def equalColumns (tuple found : Tuple X) : List (Nat × Nat) → Except (EvalError X) Bool
  | [] => .ok true
  | (l, r) :: pairs =>
    match tuple[l]?, found[r]? with
    | some a, some b => if a.beq b then equalColumns tuple found pairs else .ok false
    | _, _ => .error (.panic .indexOutOfBounds)

namespace StoredRA

def iter (r : StoredRA X) (tx : SessionTx X) : TupleIter X :=
  if r.filters.isEmpty then tx.scanAll r.storage
  else filterIter r.filtersBytecodes (tx.scanAll r.storage)

/-- `point_lookup_join` on one left row. The `flatten_ok` here flattens the inner `Result` too, so
an error of the lookup or of a filter drops the row. -/
def pointLookupJoinRow (r : StoredRA X) (tx : SessionTx X) (indices : List Nat × List Nat)
    (eliminateIndices : List Nat) (tuple : Tuple X) : TupleIter X :=
  let row : Except (EvalError X) (TupleIter X) := do
    let pre ← pick tuple (leftToPrefixIndices indices.1 indices.2)
    match ← tx.get r.storage (pre.take r.storage.keys.length) with
    | none => return []
    | some found =>
      if ← equalColumns tuple found (indices.1.zip indices.2) then
        if ← evalFilters r.filtersBytecodes found then
          return [.ok (eliminateFromTuple (tuple ++ found) eliminateIndices)]
        else return []
      else return []
  match row with
  | .ok it => it
  | .error (.panic p) => [.error (.panic p)]
  | .error _ => []

/-- `prefix_join` on one left row. -/
def prefixJoinRow (r : StoredRA X) (tx : SessionTx X) (indices : List Nat × List Nat)
    (eliminateIndices : List Nat) (tuple : Tuple X) : TupleIter X :=
  if r.storage.keys.length ≤ indices.2.length then
    r.pointLookupJoinRow tx indices eliminateIndices tuple
  else
    .ofExcept do
      let pre ← pick tuple (leftToPrefixIndices indices.1 indices.2)
      let others := (r.bindings.take r.storage.keys.length).drop indices.2.length
      let found := match rangeBounds r.filters others with
        | some (lower, upper) => tx.scanBoundedPrefix r.storage pre lower upper
        | none => tx.scanPrefix r.storage pre
      return found.filterMapOk (joinFound (evalFilters r.filtersBytecodes) eliminateIndices tuple)

end StoredRA

namespace StoredWithValidityRA

def iter (r : StoredWithValidityRA X) (tx : SessionTx X) : TupleIter X :=
  if r.filters.isEmpty then tx.skipScanAll r.storage r.validAt
  else filterIter r.filtersBytecodes (tx.skipScanAll r.storage r.validAt)

/-- `prefix_join` on one left row. -/
def prefixJoinRow (r : StoredWithValidityRA X) (tx : SessionTx X) (indices : List Nat × List Nat)
    (eliminateIndices : List Nat) (tuple : Tuple X) : TupleIter X :=
  .ofExcept do
    let pre ← pick tuple (leftToPrefixIndices indices.1 indices.2)
    -- the slice of the bindings between the join columns and the end of the key
    let others ←
      if !r.filters.isEmpty && r.storage.keys.length <
        indices.2.length then .error (.panic .indexOutOfBounds)
      else .ok ((r.bindings.take r.storage.keys.length).drop indices.2.length)
    let found := match rangeBounds r.filters others with
      | some (lower, upper) => tx.skipScanBoundedPrefix r.storage pre lower upper r.validAt
      | none => tx.skipScanPrefix r.storage pre r.validAt
    return found.filterMapOk (joinFound (evalFilters r.filtersBytecodes) eliminateIndices tuple)

end StoredWithValidityRA

namespace InlineFixedRA

/-- `join` on one left row. Only the join with a single row eliminates columns. -/
def joinRow (r : InlineFixedRA X) (indices : List Nat × List Nat)
    (eliminateIndices : List Nat) (tuple : Tuple X) : TupleIter X :=
  .ofExcept do
    match r.data with
    | [] => return []
    | [data] =>
      if ← equalColumns tuple data (indices.1.zip indices.2) then
        return [.ok (eliminateFromTuple (tuple ++ data) eliminateIndices)]
      else return []
    | datas =>
      let found ← datas.filterM fun data => equalColumns tuple data (indices.1.zip indices.2)
      return found.map fun data => .ok (tuple ++ data)

end InlineFixedRA

/-! ### Anti-joins -/

/-- The right side of an anti-join: a scan by the first columns, and a scan of everything. -/
def negScans (tx : SessionTx X) (stores : Stores X) :
    RelAlgebra X → Except (EvalError X) ((Tuple X → TupleIter X) × TupleIter X)
  | .tempStore r => do
    let storage ← stores.unwrap r.storageKey
    return (fun pre => .ofExcept do return (← storeRows (storage.prefixIter pre)).map .ok,
      .ofExcept do return (← storeRows storage.allIter).map .ok)
  | .stored r => .ok (tx.scanPrefix r.storage, tx.scanAll r.storage)
  | _ => .error (.panic .unreachable)

/-- Whether a row of the right side agrees with a left row on the join columns. With the join
columns first on the right side the rows with these columns are searched for every left row,
otherwise the values of the join columns are collected beforehand. -/
def negMatch (scans : (Tuple X → TupleIter X) × TupleIter X) (indices : List Nat × List Nat) :
    Except (EvalError X) (Tuple X → Except (EvalError X) Bool) :=
  if joinIsPrefix indices.2 then
    .ok fun tuple => do
      let pre ← pick tuple (leftToPrefixIndices indices.1 indices.2)
      (scans.1 pre).anyM fun found => do equalColumns tuple (← found) (indices.1.zip indices.2)
  else do
    let rightJoinVals ← scans.2.mapM fun found => do pick (← found) indices.2
    return fun tuple => do
      let leftJoinVals ← pick tuple indices.1
      return rightJoinVals.any fun vals => compare vals leftJoinVals == .eq

/-- `neg_join` on one left row. -/
def negJoinRow (isMatch : Tuple X → Except (EvalError X) Bool) (eliminateIndices : List Nat)
    (tuple : Tuple X) : Except (EvalError X) (Option (Tuple X)) := do
  return if ← isMatch tuple then none else some (eliminateFromTuple tuple eliminateIndices)

/-! ### Materialised joins -/

/-- `right_store_indices`: the join columns first, then the others. -/
def rightStoreIndices (rightJoinIndices : List Nat) (width : Nat) : List Nat :=
  rightJoinIndices ++ (List.range width).filter fun i => i ∉ rightJoinIndices

/-- `right_invert_indices`: where the columns of the right side have gone. -/
def rightInvertIndices (rightStoreIndices : List Nat) : List Nat :=
  (rightStoreIndices.zipIdx.insertionSort fun a b => a.1 ≤ b.1).map Prod.snd

/-- `build_mat_range_iter` and `advance_right`: the place of the left columns is found by binary
search, in the order of values; from there on the cached rows are taken as long as they start with
the left columns, by `==`. -/
def matRange (materialized : List (Tuple X)) (pre : Tuple X) : List (Tuple X) :=
  (materialized.dropWhile fun t => compare t pre == .lt).takeWhile fun t => Tuple.startsWith t pre

def materializedJoinRow (materialized : List (Tuple X)) (leftJoinIndices : List Nat)
    (invertIndices eliminateIndices : List Nat) (tuple : Tuple X) : TupleIter X :=
  .ofExcept do
    let pre ← pick tuple leftJoinIndices
    return (matRange materialized pre).map fun data => do
      return eliminateFromTuple (tuple ++ (← pick data invertIndices)) eliminateIndices

/-- `materialized_join`. The right side is not read when the left one is empty. -/
def materializedJoin (left right : Except (EvalError X) (TupleIter X)) (width : Nat)
    (indices : List Nat × List Nat) (eliminateIndices : List Nat) :
    Except (EvalError X) (TupleIter X) := do
  match ← left with
  | [] => return []
  | .error e :: _ => throw e
  | .ok first :: rest =>
    let storeIndices := rightStoreIndices indices.2 width
    let cache ← (← right).mapM fun item => do pick (← item) storeIndices
    let materialized := (ExtTreeSet.ofList cache compare).toList
    return TupleIter.flatMapOk (materializedJoinRow materialized indices.1
      (rightInvertIndices storeIndices) eliminateIndices)
      (.ok first :: rest)

/-! ### Unifications and searches -/

/-- `UnificationRA::iter` on one row. -/
def unificationRow (exprBytecode : List (Bytecode X)) (isMulti : Bool)
    (eliminateIndices : List Nat) (tuple : Tuple X) : TupleIter X :=
  .ofExcept do
    let result ← evalBytecode exprBytecode tuple
    if isMulti then
      match result.getSlice with
      | some results =>
        return results.map fun result => .ok (eliminateFromTuple (tuple ++ [result]) eliminateIndices)
      | none => throw .badSpreadUnification
    else return [.ok (eliminateFromTuple (tuple ++ [result]) eliminateIndices)]

/-- The query text of a full-text search: a string, or a list of strings joined by `OR`. -/
def ftsQuery : DataValue X → Except (EvalError X) Bytes
  | .str s => .ok s
  | .list l => l.foldlM (fun coll d =>
      match d with
      | .str s => .ok (if coll.isEmpty then s else coll ++ " OR ".toUTF8.toList ++ s)
      | _ => .error (.storage "Expected string for FTS search")) []
  | _ => .error (.storage "Expected string for FTS search")

/-- The two text searches need the tokenizer of their index. -/
def prepareSearch (tx : SessionTx X) (s : Search X) : Except (EvalError X) Unit :=
  match s.kind with
  | .hnsw => .ok ()
  | .fts | .lsh => tx.tokenizer s

def searchFor (tx : SessionTx X) (s : Search X) (q : DataValue X) :
    Except (EvalError X) (List (Tuple X)) :=
  match s.kind with
  | .hnsw =>
    match q with
    | .vec v => tx.hnswKnn s v
    | _ => .error (.storage "Expected vector")
  | .fts => do tx.ftsSearch s (← ftsQuery q)
  | .lsh => tx.lshSearch s q

def searchRow (tx : SessionTx X) (s : Search X) (bindIdx : Option Nat) (tuple : Tuple X) :
    TupleIter X :=
  .ofExcept do
    match bindIdx.bind fun i => tuple[i]? with
    | none => throw (.panic .indexOutOfBounds)
    | some q => return (← searchFor tx s q).map fun t => .ok (tuple ++ t)

namespace RelAlgebra

/-- `InnerJoin::iter`, given the rows of both sides. -/
def joinIter (tx : SessionTx X) (deltaRule : Option MagicSymbol) (stores : Stores X)
    (left right : RelAlgebra X) (joiner : Joiner) (toEliminate : List Symbol)
    (leftIter rightIter : Except (EvalError X) (TupleIter X)) :
    Except (EvalError X) (TupleIter X) := do
  let bindings := left.bindingsAfterEliminate ++ right.bindingsAfterEliminate
  let eliminateIndices := getEliminateIndices bindings toEliminate
  let indices ← joiner.joinIndices left.bindingsAfterEliminate right.bindingsAfterEliminate
  let materialized :=
    materializedJoin leftIter rightIter right.bindingsAfterEliminate.length indices eliminateIndices
  match right with
  | .fixed f =>
    let leftIter ← leftIter
    return if f.data.isEmpty then [] else leftIter.flatMapOk (f.joinRow indices eliminateIndices)
  | .tempStore r =>
    if joinIsPrefix indices.2 then
      let storage ← stores.unwrap r.storageKey
      return (← leftIter).flatMapOk
        (r.prefixJoinRow storage (deltaRule = some r.storageKey) indices eliminateIndices)
    else materialized
  | .stored r =>
    if joinIsPrefix indices.2 then
      return (← leftIter).flatMapOk (r.prefixJoinRow tx indices eliminateIndices)
    else materialized
  | .storedWithValidity r =>
    if joinIsPrefix indices.2 then
      return (← leftIter).flatMapOk (r.prefixJoinRow tx indices eliminateIndices)
    else materialized
  | .join _ _ _ _ | .filter _ _ _ _ | .unification _ _ _ _ _ _ | .search _ _ _ => materialized
  | .reorder _ _ | .negJoin _ _ _ _ => throw (.panic .unreachable)

/-- `RelAlgebra::iter`: the rows of a plan. The store of `deltaRule` is read through its delta
view, except by anti-joins. -/
def iter (tx : SessionTx X) (deltaRule : Option MagicSymbol) (stores : Stores X) :
    RelAlgebra X → Except (EvalError X) (TupleIter X)
  | .fixed f => .ok (f.data.map .ok)
  | .tempStore r => r.iter deltaRule stores
  | .stored r => .ok (r.iter tx)
  | .storedWithValidity r => .ok (r.iter tx)
  | .join left right joiner toEliminate =>
    joinIter tx deltaRule stores left right joiner toEliminate
      (left.iter tx deltaRule stores) (right.iter tx deltaRule stores)
  | .negJoin left right joiner toEliminate => do
    let eliminateIndices := getEliminateIndices left.bindingsAfterEliminate toEliminate
    let indices ← joiner.joinIndices left.bindingsAfterEliminate right.bindingsAfterEliminate
    let leftIter ← left.iter tx deltaRule stores
    let isMatch ← negMatch (← negScans tx stores right) indices
    return leftIter.filterMapOk (negJoinRow isMatch eliminateIndices)
  | .reorder relation newOrder => do
    let indices ← reorderIndices relation.bindingsAfterEliminate newOrder
    return (← relation.iter tx deltaRule stores).mapOk fun t => pick t indices
  | .filter parent _ filtersBytecodes toEliminate => do
    let eliminateIndices := getEliminateIndices parent.bindingsAfterEliminate toEliminate
    return (← parent.iter tx deltaRule stores).filterMapOk
      fun t => do
        return if ← evalFilters filtersBytecodes t then some (eliminateFromTuple t eliminateIndices)
          else none
  | .unification parent binding _ exprBytecode isMulti toEliminate => do
    let bindings := parent.bindingsAfterEliminate ++ [binding]
    let eliminateIndices := getEliminateIndices bindings toEliminate
    return (← parent.iter tx deltaRule stores).flatMapOk
      (unificationRow exprBytecode isMulti eliminateIndices)
  | .search parent s _ => do
    let bindIdx := parent.bindingsAfterEliminate.idxOf? s.query
    prepareSearch tx s
    return (← parent.iter tx deltaRule stores).flatMapOk (searchRow tx s bindIdx)

end RelAlgebra

end Rows

end Retia
