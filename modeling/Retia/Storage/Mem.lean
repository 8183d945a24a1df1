import Mathlib
import Retia.Lib.BTree
import Retia.Data.Tuple

/-!
# The in-memory store and its transactions

`storage/mem.rs`. A write transaction holds the shared map and a private cache of changes: a put is
cached as `some`, a delete as `none`, a commit plays the cache back onto the map. One operation does
not go through the cache: `del_range_from_persisted` removes keys from the shared map at once.

The content of the map during a transaction is described by `MemTx.getElem?_persisted_run`: it is
the initial content without what the executed range deletions cover, whatever else happens in
between. From that follows when dropping a transaction undoes it (`MemTx.persisted_run_eq_iff`).
-/

namespace Retia

open Std List

abbrev Store := ExtTreeMap Bytes Bytes

/-- Pending changes: `some` for a put, `none` for a delete. -/
abbrev Cache := ExtTreeMap Bytes (Option Bytes)

/-- What an operation of a transaction fails with. -/
inductive StoreError where
  | bail (msg : String)
  | panic (p : Panic)
deriving DecidableEq

inductive MemTx where
  | reader (rdr : Store)
  | writer (wtr : Store) (cache : Cache)

namespace MemTx

/-- `transact(true)`. -/
def transactWrite (store : Store) : MemTx := .writer store ∅

/-- The content of the shared map: what is left of the transaction when it is dropped. -/
def persisted : MemTx → Store
  | reader rdr => rdr
  | writer wtr _ => wtr

def get (key : Bytes) : MemTx → Option Bytes
  | reader rdr => rdr[key]?
  | writer wtr cache =>
    match cache[key]? with
    | some r => r
    | none => wtr[key]?

def keyExists (key : Bytes) : MemTx → Bool
  | reader rdr => rdr.contains key
  | writer wtr cache =>
    match cache[key]? with
    | some r => r.isSome
    | none => wtr.contains key

def put (key val : Bytes) : MemTx → Except StoreError MemTx
  | reader _ => .error (.bail "write in read transaction")
  | writer wtr cache => .ok (.writer wtr (cache.insert key (some val)))

def del (key : Bytes) : MemTx → Except StoreError MemTx
  | reader _ => .error (.bail "write in read transaction")
  | writer wtr cache => .ok (.writer wtr (cache.insert key none))

def delRangeFromPersisted (lower upper : Bytes) : MemTx → Except StoreError MemTx
  | reader _ => .error (.bail "write in read transaction")
  | writer wtr cache =>
    match BTree.range wtr lower upper false with
    | .error p => .error (.panic p)
    | .ok entries => .ok (.writer (entries.foldl (fun w e => w.erase e.1) wtr) cache)

/-- The map after the cache has been played back onto it. -/
def applyCache (wtr : Store) (cache : Cache) : Store :=
  cache.toList.foldl (fun w e =>
    match e.2 with
    | none => w.erase e.1
    | some v => w.insert e.1 v) wtr

def commit : MemTx → MemTx
  | reader rdr => .reader rdr
  | writer wtr cached => .writer (applyCache wtr cached) ∅

/-! ### Sequences of operations -/

inductive Op where
  | get (key : Bytes)
  | keyExists (key : Bytes)
  | put (key val : Bytes)
  | del (key : Bytes)
  | delRangeFromPersisted (lower upper : Bytes)
  | rangeScan (lower upper : Bytes)
  | rangeSkipScan (lower upper : Bytes) (validAt : Int64)
deriving DecidableEq

/-- The transaction after an operation. Reads take the transaction by shared reference and leave it
as it is. -/
def step (tx : MemTx) : Op → Except StoreError MemTx
  | .get _ => .ok tx
  | .keyExists _ => .ok tx
  | .put key val => tx.put key val
  | .del key => tx.del key
  | .delRangeFromPersisted lower upper => tx.delRangeFromPersisted lower upper
  | .rangeScan _ _ => .ok tx
  | .rangeSkipScan _ _ _ => .ok tx

/-- The transaction after a sequence of operations, of which the first that fails is the last. -/
def run : MemTx → List Op → MemTx
  | tx, [] => tx
  | tx, op :: ops =>
    match tx.step op with
    | .ok tx' => run tx' ops
    | .error _ => tx

/-- The operations of the sequence that are carried out. -/
def executed : MemTx → List Op → List Op
  | _, [] => []
  | tx, op :: ops =>
    match tx.step op with
    | .ok tx' => op :: executed tx' ops
    | .error _ => []

/-- The operation is a range deletion that covers the key. -/
def Op.deletes (k : Bytes) : Op → Bool
  | .delRangeFromPersisted lower upper => lower ≤ k && k < upper
  | _ => false

/-! ### The content of the map during a transaction -/

theorem getElem?_foldl_erase {V : Type} (l : List (Bytes × V)) (w : Store) (k : Bytes) :
    (l.foldl (fun w e => w.erase e.1) w)[k]? = if k ∈ l.map Prod.fst then none else w[k]? := by
  induction l generalizing w with
  | nil => simp
  | cons e l ih =>
    rw [foldl_cons, ih, ExtTreeMap.getElem?_erase, map_cons]
    by_cases hk : k ∈ l.map Prod.fst
    · simp [hk]
    · by_cases he : e.1 = k
      · simp [he]
      · have hne : compare e.1 k ≠ .eq := fun h => he (LawfulEqCmp.eq_of_compare h)
        simp [hk, hne, Ne.symm he]

theorem getElem?_persisted_step {tx tx' : MemTx} {op : Op} (h : tx.step op = .ok tx')
    (k : Bytes) : tx'.persisted[k]? = if op.deletes k then none else tx.persisted[k]? := by
  cases op with
  | delRangeFromPersisted lower upper =>
    cases tx with
    | reader rdr => cases h
    | writer wtr cache =>
      simp only [step, delRangeFromPersisted, BTree.range_eq] at h
      split at h
      · cases h
      case h_2 entries hent =>
        split at hent
        · cases hent
        cases hent
        cases h
        rw [persisted, getElem?_foldl_erase]
        by_cases hmem : k ∈ (BTree.rangeEntries wtr lower upper false).map Prod.fst
        · obtain ⟨⟨k', v⟩, hv, rfl⟩ := mem_map.1 hmem
          have := (BTree.mem_rangeEntries wtr).1 hv
          rw [if_pos hmem, if_pos (by simp [Op.deletes, this.2])]
        · rw [if_neg hmem]
          by_cases hd : (Op.delRangeFromPersisted lower upper).deletes k = true
          · -- the key is in the range, so it is not in the map
            rw [if_pos hd]
            by_contra hne
            obtain ⟨v, hv⟩ := Option.ne_none_iff_exists'.1 hne
            have hrange : lower ≤ k ∧ k < upper := by simpa [Op.deletes] using hd
            exact hmem (mem_map.2 ⟨(k, v), (BTree.mem_rangeEntries wtr).2 ⟨hv, hrange⟩, rfl⟩)
          · rw [if_neg hd]
            rfl
  | put key val | del key =>
    cases tx with
    | reader rdr => cases h
    | writer wtr cache => cases h; rfl
  | _ => cases h; rfl

/-- **The map during a transaction**: the initial content without what the executed range deletions
cover. -/
theorem getElem?_persisted_run (tx : MemTx) (ops : List Op) (k : Bytes) :
    (tx.run ops).persisted[k]? =
      if (tx.executed ops).any (·.deletes k) then none else tx.persisted[k]? := by
  induction ops generalizing tx with
  | nil => simp [run, executed]
  | cons op ops ih =>
    rw [run, executed]
    cases hstep : tx.step op with
    | error e => simp
    | ok tx' =>
      simp only [any_cons]
      rw [ih, getElem?_persisted_step hstep]
      by_cases h : op.deletes k = true
      · simp [h]
      · simp [h]

/-- **When a dropped transaction leaves no trace**: exactly when none of its executed range
deletions covers a key of the map. -/
theorem persisted_run_eq_iff (store : Store) (ops : List Op) :
    ((transactWrite store).run ops).persisted = store ↔
      ∀ op ∈ (transactWrite store).executed ops, ∀ k ∈ store, op.deletes k = false := by
  constructor
  · intro h op hop k hk
    by_contra hdel
    have hrun := getElem?_persisted_run (transactWrite store) ops k
    rw [h, if_pos (any_eq_true.2 ⟨op, hop, by simpa using hdel⟩)] at hrun
    rw [ExtTreeMap.mem_iff_isSome_getElem?, hrun] at hk
    cases hk
  · intro h
    apply ExtTreeMap.ext_getElem?
    intro k
    rw [getElem?_persisted_run]
    split
    case isTrue hany =>
      obtain ⟨op, hop, hdel⟩ := any_eq_true.1 hany
      symm
      refine ExtTreeMap.getElem?_eq_none fun hk => ?_
      rw [h op hop k hk] at hdel
      cases hdel
    case isFalse => rfl

end MemTx

end Retia
