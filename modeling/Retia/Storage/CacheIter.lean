import Mathlib
import Retia.Lib.Except
import Retia.Storage.Scan

/-!
# The scans of a write transaction

`storage/mem.rs`: the scans of a write transaction merge two iterators, the pending changes and the
entries of the map, with one element of each held back in a cache. A change hides the entry with the
same key; a deletion yields nothing. The iterators `CacheIterRaw` and `CacheIter` differ in what
they make of an entry only.

The merge was described by `cacheIter`, a function of the two lists. Here is the iterator itself,
with its state between two calls of `next`, and the proof that it yields this list (`collect_eq`):
the elements that a state has still to deal with are the cached ones followed by those of the
iterators, and one call takes the first element off the merge of the two.

* `Change`, `applyChanges_spec` — sequences of puts and deletes;
* `write_transaction_reads` — all reads of a write transaction are those of the map with the changes
  applied, and a commit leaves this map.
-/

namespace Retia

open BTree

open Std List

/-! ### The iterator -/

/-- `CacheIterRaw` and `CacheIter`: what is left of the two iterators, and the elements held back.
-/
structure CacheIter where
  changeIter : List (Bytes × Option Bytes)
  dbIter : List (Bytes × Bytes)
  changeCache : Option (Bytes × Option Bytes)
  dbCache : Option (Bytes × Bytes)

namespace CacheIter

def start (changes : List (Bytes × Option Bytes)) (entries : List (Bytes × Bytes)) : CacheIter :=
  ⟨changes, entries, none, none⟩

def fillChangeCache (it : CacheIter) : CacheIter :=
  match it.changeCache, it.changeIter with
  | none, kmv :: rest => { it with changeCache := some kmv, changeIter := rest }
  | _, _ => it

def fillDbCache (it : CacheIter) : CacheIter :=
  match it.dbCache, it.dbIter with
  | none, kv :: rest => { it with dbCache := some kv, dbIter := rest }
  | _, _ => it

/-- `fill_cache`. -/
def fillCache (it : CacheIter) : CacheIter := it.fillChangeCache.fillDbCache

def changes (it : CacheIter) : List (Bytes × Option Bytes) := it.changeCache.toList ++ it.changeIter

def entries (it : CacheIter) : List (Bytes × Bytes) := it.dbCache.toList ++ it.dbIter

def size (it : CacheIter) : Nat := it.changes.length + it.entries.length

@[simp]
theorem changes_fillCache (it : CacheIter) : it.fillCache.changes = it.changes := by
  obtain ⟨cs, ds, cc, dc⟩ := it
  cases cs <;> cases ds <;> cases cc <;> cases dc <;> rfl

@[simp]
theorem entries_fillCache (it : CacheIter) : it.fillCache.entries = it.entries := by
  obtain ⟨cs, ds, cc, dc⟩ := it
  cases cs <;> cases ds <;> cases cc <;> cases dc <;> rfl

variable {it : CacheIter} {kmv : Bytes × Option Bytes} {kv : Bytes × Bytes} {α : Type}

/-- After `fill_cache` nothing is held back only where nothing is left. -/
theorem changes_of_changeCache_none (h : it.fillCache.changeCache = none) : it.changes = [] := by
  obtain ⟨cs, ds, cc, dc⟩ := it
  cases cs <;> cases ds <;> cases cc <;> cases dc <;> first | rfl | cases h

theorem entries_of_dbCache_none (h : it.fillCache.dbCache = none) : it.entries = [] := by
  obtain ⟨cs, ds, cc, dc⟩ := it
  cases cs <;> cases ds <;> cases cc <;> cases dc <;> first | rfl | cases h

theorem changes_of_changeCache_some {kmv : Bytes × Option Bytes}
    (h : it.fillCache.changeCache = some kmv) : it.changes = kmv :: it.fillCache.changeIter := by
  rw [← changes_fillCache, changes, h]
  rfl

theorem entries_of_dbCache_some (h : it.fillCache.dbCache = some kv) :
    it.entries = kv :: it.fillCache.dbIter := by
  rw [← entries_fillCache, entries, h]
  rfl

/-- `change_cache.take()`. -/
def takeChange (it : CacheIter) : CacheIter := { it with changeCache := none }

/-- `db_cache.take()`. -/
def takeDb (it : CacheIter) : CacheIter := { it with dbCache := none }

theorem size_takeChange (h : it.fillCache.changeCache = some kmv) :
    it.fillCache.takeChange.size < it.size := by
  have hentries : it.fillCache.takeChange.entries = it.entries := entries_fillCache it
  rw [size, size, hentries, changes_of_changeCache_some h]
  simp [takeChange, changes]

theorem size_takeDb (h : it.fillCache.dbCache = some kv) : it.fillCache.takeDb.size < it.size := by
  have hchanges : it.fillCache.takeDb.changes = it.changes := changes_fillCache it
  rw [size, size, hchanges, entries_of_dbCache_some h]
  simp [takeDb, entries]

/-- `next_inner`: what is made of the next entry, and the iterator after it. -/
def nextInner {α : Type} (emit : Bytes → Bytes → α) (it : CacheIter) : Option (α × CacheIter) :=
  match _hc : it.fillCache.changeCache, _hd : it.fillCache.dbCache with
  | none, none => none
  | some (k, cv), none =>
    match cv with
    | none => nextInner emit it.fillCache.takeChange
    | some v => some (emit k v, it.fillCache.takeChange)
  | none, some (k, v) => some (emit k v, it.fillCache.takeDb)
  | some (ck, cv), some (dk, dv) =>
    match compare ck dk with
    | .lt =>
      match cv with
      | none => nextInner emit it.fillCache.takeChange
      | some v => some (emit ck v, it.fillCache.takeChange)
    | .gt => some (emit dk dv, it.fillCache.takeDb)
    | .eq => nextInner emit it.fillCache.takeDb
termination_by it.size
decreasing_by
  · exact size_takeChange _hc
  · exact size_takeChange _hc
  · exact size_takeDb _hd

def remaining (it : CacheIter) : List (Bytes × Bytes) := MemTx.cacheIter it.changes it.entries

theorem changes_takeChange (h : it.fillCache.changeCache = some kmv) :
    it.changes = kmv :: it.fillCache.takeChange.changes := changes_of_changeCache_some h

theorem entries_takeDb (h : it.fillCache.dbCache = some kv) :
    it.entries = kv :: it.fillCache.takeDb.entries := entries_of_dbCache_some h

@[simp]
theorem entries_takeChange (it : CacheIter) : it.fillCache.takeChange.entries = it.entries :=
  entries_fillCache it

@[simp]
theorem changes_takeDb (it : CacheIter) : it.fillCache.takeDb.changes = it.changes :=
  changes_fillCache it

/-- What a call of `next` does to the list that is left. -/
def Yields {α : Type} (emit : Bytes → Bytes → α) (it : CacheIter)
    (result : Option (α × CacheIter)) : Prop :=
  (it.remaining = [] ∧ result = none) ∨
    ∃ k v it', it.remaining = (k, v) :: it'.remaining ∧ result = some (emit k v, it') ∧ it'.size < it.size

theorem Yields.of_remaining_eq {emit : Bytes → Bytes → α} {it it₁ : CacheIter}
    {result : Option (α × CacheIter)}
    (h : Yields emit it₁ result) (hremaining : it.remaining = it₁.remaining)
    (hsize : it₁.size < it.size) : Yields emit it result := by
  rcases h with ⟨hnil, hresult⟩ | ⟨k, v, it', hcons, hresult, hlt⟩
  · exact .inl ⟨hremaining.trans hnil, hresult⟩
  · exact .inr ⟨k, v, it', hremaining.trans hcons, hresult, hlt.trans hsize⟩

/-- **One call of `next` takes the first entry off the merge.** -/
theorem nextInner_yields (emit : Bytes → Bytes → α) (it : CacheIter) :
    Yields emit it (it.nextInner emit) := by
  fun_induction nextInner emit it with
  | case1 it hc hd =>
    left
    simp [remaining, changes_of_changeCache_none hc, entries_of_dbCache_none hd, MemTx.cacheIter]
  | case2 it k hd hc _ ih =>
    -- a deletion with no entries left
    refine ih.of_remaining_eq ?_ (size_takeChange hc)
    simp [remaining, changes_takeChange hc, entries_of_dbCache_none hd, MemTx.cacheIter]
  | case3 it k hd v hc _ =>
    refine .inr ⟨k, v, _, ?_, rfl, size_takeChange hc⟩
    simp [remaining, changes_takeChange hc, entries_of_dbCache_none hd, MemTx.cacheIter]
  | case4 it k v hc hd =>
    refine .inr ⟨k, v, _, ?_, rfl, size_takeDb hd⟩
    simp [remaining, changes_of_changeCache_none hc, entries_takeDb hd, MemTx.cacheIter]
  | case5 it ck dk dv hd hlt hc _ ih =>
    -- a deletion before the first entry
    refine ih.of_remaining_eq ?_ (size_takeChange hc)
    simp [remaining, changes_takeChange hc, entries_takeDb hd, MemTx.cacheIter, hlt]
  | case6 it ck dk dv hd hlt v hc _ =>
    refine .inr ⟨ck, v, _, ?_, rfl, size_takeChange hc⟩
    simp [remaining, changes_takeChange hc, entries_takeDb hd, MemTx.cacheIter, hlt]
  | case7 it ck cv dk dv hc hd hgt =>
    refine .inr ⟨dk, dv, _, ?_, rfl, size_takeDb hd⟩
    rw [remaining, remaining, changes_takeDb, changes_takeChange hc, entries_takeDb hd,
      MemTx.cacheIter.eq_def]
    simp only [hgt]
  | case8 it ck cv dk dv hc hd heq ih =>
    -- the entry is hidden by a change with its key
    refine ih.of_remaining_eq ?_ (size_takeDb hd)
    rw [remaining, remaining, changes_takeDb, changes_takeChange hc, entries_takeDb hd,
      MemTx.cacheIter.eq_def]
    simp only [heq]

theorem size_of_nextInner {emit : Bytes → Bytes → α} {it it' : CacheIter} {a : α}
    (h : it.nextInner emit = some (a, it')) : it'.size < it.size := by
  rcases nextInner_yields emit it with ⟨-, hnone⟩ | ⟨k, v, it₁, -, hsome, hsize⟩
  · rw [hnone] at h
    cases h
  · rw [hsome] at h
    cases h
    exact hsize

def collect {α : Type} (emit : Bytes → Bytes → α) (it : CacheIter) : List α :=
  match _h : it.nextInner emit with
  | none => []
  | some (a, it') => a :: collect emit it'
termination_by it.size
decreasing_by exact size_of_nextInner _h

/-- **The iterator yields the merge of the changes and the entries.** -/
theorem collect_eq (emit : Bytes → Bytes → α) (it : CacheIter) :
    it.collect emit = it.remaining.map fun e => emit e.1 e.2 := by
  fun_induction collect emit it with
  | case1 it h =>
    rcases nextInner_yields emit it with ⟨hnil, -⟩ | ⟨k, v, it', -, hsome, -⟩
    · rw [hnil]
      rfl
    · rw [hsome] at h
      cases h
  | case2 it a it' h ih =>
    rcases nextInner_yields emit it with ⟨-, hnone⟩ | ⟨k, v, it₁, hcons, hsome, -⟩
    · rw [hnone] at h
      cases h
    · rw [hsome] at h
      cases h
      rw [hcons, ih, map_cons]

end CacheIter

/-! ### The scans -/

namespace MemTx

/-- A scan of a range: `range_scan` makes pairs of its entries and `range_scan_tuple` tuples, with
the iterators `CacheIterRaw` and `CacheIter` in a write transaction. -/
def rangeScanWith {α : Type} (emit : Bytes → Bytes → α) (lower upper : Bytes) :
    MemTx → Except Panic (List α)
  | reader rdr => do
    let entries ← range rdr lower upper false
    pure (entries.map fun e => emit e.1 e.2)
  | writer wtr cache => do
    let changes ← range cache lower upper false
    let entries ← range wtr lower upper false
    pure ((CacheIter.start changes entries).collect emit)

/-- `range_scan_tuple`; `decode` is `decode_tuple_from_kv`. -/
def rangeScanTuple {Tuple : Type} (decode : Bytes → Bytes → Tuple) (lower upper : Bytes)
    (tx : MemTx) : Except Panic (List Tuple) :=
  tx.rangeScanWith decode lower upper

/-- `range_count`. -/
def rangeCount (lower upper : Bytes) (tx : MemTx) : Except Panic Nat := do
  let entries ← tx.rangeScanWith Prod.mk lower upper
  pure entries.length

/-- `total_scan`. -/
def totalScan : MemTx → List (Bytes × Bytes)
  | reader rdr => rdr.toList
  | writer wtr cache => (CacheIter.start cache.toList wtr.toList).collect Prod.mk

/-- The scan of the pairs is the merge of the lists, so that the iterators may be forgotten. -/
theorem rangeScanWith_eq {α : Type} (emit : Bytes → Bytes → α) (lower upper : Bytes) (tx : MemTx) :
    tx.rangeScanWith emit lower upper = (tx.rangeScan lower upper).map fun es =>
    es.map fun e => emit e.1 e.2 := by
  cases tx with
  | reader rdr =>
    rw [rangeScanWith, rangeScan]
    cases range rdr lower upper false <;> rfl
  | writer wtr cache =>
    rw [rangeScanWith, rangeScan]
    cases range cache lower upper false with
    | error p => rfl
    | ok changes =>
      cases range wtr lower upper false with
      | error p => rfl
      | ok entries =>
        have hcollect := CacheIter.collect_eq emit (CacheIter.start changes entries)
        exact congrArg Except.ok hcollect

theorem pairwise_cacheIter {cs : List (Bytes × Option Bytes)} {ds : List (Bytes × Bytes)}
    (hcs : cs.Pairwise fun a b => a.1 < b.1) (hds : ds.Pairwise fun a b => a.1 < b.1) :
    (cacheIter cs ds).Pairwise fun a b => a.1 < b.1 := by
  fun_induction cacheIter cs ds with
  | case1 ds => exact hds
  | case2 ck v cs ih =>
    obtain ⟨hfirst, hrest⟩ := pairwise_cons.1 hcs
    refine pairwise_cons.2 ⟨fun e he => ?_, ih hrest hds⟩
    rcases (mem_cacheIter hrest hds).1 he with hchange | ⟨hentry, -⟩
    · exact hfirst _ hchange
    · cases hentry
  | case3 ck cs ih | case4 ck cs dk dv ds hlt ih => exact ih (pairwise_cons.1 hcs).2 hds
  | case5 ck cs dk dv ds hlt v ih =>
    obtain ⟨hfirst, hrest⟩ := pairwise_cons.1 hcs
    refine pairwise_cons.2 ⟨fun e he => ?_, ih hrest hds⟩
    rcases (mem_cacheIter hrest hds).1 he with hchange | ⟨hentry, -⟩
    · exact hfirst _ hchange
    · exact lt_of_lt_of_mem_sorted (compare_bytes_eq_lt_iff.1 hlt) hds hentry
  | case6 ck cv cs dk dv ds hgt ih =>
    obtain ⟨hfirst, hrest⟩ := pairwise_cons.1 hds
    have hdk : dk < ck := compare_bytes_eq_lt_iff.1 (OrientedCmp.gt_iff_lt.1 hgt)
    refine pairwise_cons.2 ⟨fun e he => ?_, ih hcs hrest⟩
    rcases (mem_cacheIter hcs hrest).1 he with hchange | ⟨hentry, -⟩
    · exact lt_of_lt_of_mem_sorted hdk hcs hchange
    · exact hfirst _ hentry
  | case7 ck cv cs dk dv ds heq ih => exact ih hcs (pairwise_cons.1 hds).2

variable {tx : MemTx}

theorem pairwise_rangeScan {lower upper : Bytes} {es : List (Bytes × Bytes)}
    (h : tx.rangeScan lower upper = .ok es) : es.Pairwise fun a b => a.1 < b.1 := by
  cases tx with
  | reader rdr =>
    rw [rangeScan, range_eq] at h
    split at h
    · cases h
    cases h
    exact pairwise_rangeEntries rdr
  | writer wtr cache =>
    rw [rangeScan, range_eq, range_eq] at h
    split at h
    · cases h
    split at h
    · cases h
    cases h
    exact pairwise_cacheIter (pairwise_rangeEntries cache) (pairwise_rangeEntries wtr)

theorem mem_totalScan {k v : Bytes} : (k, v) ∈ tx.totalScan ↔ tx.get k = some v := by
  cases tx with
  | reader rdr => simp [totalScan, get, ExtTreeMap.mem_toList_iff_getElem?_eq_some]
  | writer wtr cache =>
    rw [totalScan, CacheIter.collect_eq]
    simp only [Prod.mk.eta, map_id']
    rw [CacheIter.remaining]
    refine (mem_cacheIter (pairwise_toList cache) (pairwise_toList wtr)).trans ?_
    simp only [ExtTreeMap.mem_toList_iff_getElem?_eq_some, get]
    cases cache[k]? <;> simp

theorem pairwise_totalScan (tx : MemTx) : tx.totalScan.Pairwise fun a b => a.1 < b.1 := by
  cases tx with
  | reader rdr => exact pairwise_toList rdr
  | writer wtr cache =>
    rw [totalScan, CacheIter.collect_eq]
    simp only [Prod.mk.eta, map_id']
    exact pairwise_cacheIter (pairwise_toList cache) (pairwise_toList wtr)

/-! ### Puts and deletes -/

inductive Change where
  | put (key val : Bytes)
  | del (key : Bytes)
deriving DecidableEq

def applyChange (tx : MemTx) : Change → Except StoreError MemTx
  | .put key val => tx.put key val
  | .del key => tx.del key

def Change.applyTo (m : Store) : Change → Store
  | .put key val => m.insert key val
  | .del key => m.erase key

/-- **One change.** A write transaction takes every change, and reads the map with the change
applied. -/
theorem applyChange_spec {m : Store} (hwriter : tx.isWriter = true) (hget : ∀ k, tx.get k = m[k]?)
    (c : Change) : ∃ tx', tx.applyChange c = .ok tx' ∧ tx'.isWriter = true ∧
    ∀ k, tx'.get k = (c.applyTo m)[k]? := by
  have hcompare : ∀ {k k' : Bytes}, compare k k' = .eq ↔ k' = k :=
    fun {k k'} => ⟨fun h => (LawfulEqCmp.eq_of_compare h).symm, fun h => h ▸ ReflCmp.compare_self⟩
  cases tx with
  | reader rdr => cases hwriter
  | writer wtr cache =>
    cases c with
    | put key val =>
      have hput : (writer wtr cache).put key val = .ok (.writer wtr (cache.insert key (some val))) := rfl
      refine ⟨_, hput, rfl, fun k => (get_of_put hput k).trans ?_⟩
      rw [Change.applyTo, ExtTreeMap.getElem?_insert, hget]
      simp only [hcompare]
    | del key =>
      have hdel : (writer wtr cache).del key = .ok (.writer wtr (cache.insert key none)) := rfl
      refine ⟨_, hdel, rfl, fun k => (get_of_del hdel k).trans ?_⟩
      rw [Change.applyTo, ExtTreeMap.getElem?_erase, hget]
      simp only [hcompare]

/-- **A sequence of changes.** By induction on the sequence, for every map the transaction reads as.
-/
theorem applyChanges_spec (changes : List Change) {m : Store} (hwriter : tx.isWriter = true)
    (hget : ∀ k, tx.get k = m[k]?) :
    ∃ tx', changes.foldlM applyChange tx = .ok tx' ∧ tx'.isWriter = true ∧
    ∀ k, tx'.get k = (changes.foldl Change.applyTo m)[k]? := by
  induction changes generalizing tx m with
  | nil => exact ⟨tx, rfl, hwriter, hget⟩
  | cons c changes ih =>
    obtain ⟨tx₁, hc, hwriter₁, hget₁⟩ := applyChange_spec hwriter hget c
    obtain ⟨tx', hchanges, hrest⟩ := ih hwriter₁ hget₁
    refine ⟨tx', ?_, hrest⟩
    rw [foldlM_cons, hc]
    exact hchanges

/-- The two transactions read alike: single keys, ranges and the whole store. A range that starts
after its end makes `range` of a map fail, unless the map is empty, so that nothing is read from it.
-/
structure ReadsAs {Tuple : Type} (decode : Bytes → Bytes → Tuple) (tx tx' : MemTx) : Prop where
  get : ∀ k, tx.get k = tx'.get k
  keyExists : ∀ k, tx.keyExists k = tx'.keyExists k
  rangeScan : ∀ lower upper, lower ≤ upper →
    tx.rangeScanWith Prod.mk lower upper = tx'.rangeScanWith Prod.mk lower upper
  rangeScanTuple : ∀ lower upper, lower ≤ upper →
    tx.rangeScanTuple decode lower upper = tx'.rangeScanTuple decode lower upper
  rangeCount : ∀ lower upper, lower ≤ upper → tx.rangeCount lower upper = tx'.rangeCount lower upper
  totalScan : tx.totalScan = tx'.totalScan

/-- **All reads are determined by the content.** -/
theorem readsAs_of_get_eq {Tuple : Type} (decode : Bytes → Bytes → Tuple)
    {tx tx' : MemTx} (hget : ∀ k, tx.get k = tx'.get k) : ReadsAs decode tx tx' := by
  have hscan : ∀ lower upper, lower ≤ upper → tx.rangeScan lower upper = tx'.rangeScan lower upper := by
    intro lower upper hle
    obtain ⟨es, hes⟩ := rangeScan_of_le hle tx
    obtain ⟨es', hes'⟩ := rangeScan_of_le hle tx'
    have heq : es = es' :=
      eq_of_pairwise_of_mem_iff (pairwise_rangeScan hes) (pairwise_rangeScan hes') fun k v => by
        rw [mem_rangeScan hes, mem_rangeScan hes', hget]
    rw [hes, hes', heq]
  have hwith : ∀ {α : Type} (emit : Bytes → Bytes → α) lower upper, lower ≤ upper →
      tx.rangeScanWith emit lower upper = tx'.rangeScanWith emit lower upper := by
    intro α emit lower upper hle
    rw [rangeScanWith_eq, rangeScanWith_eq, hscan lower upper hle]
  refine ⟨hget, fun k => ?_, hwith _, hwith decode, fun lower upper hle => ?_, ?_⟩
  · rw [keyExists_eq, keyExists_eq, hget]
  · rw [rangeCount, rangeCount, hwith _ lower upper hle]
  · refine eq_of_pairwise_of_mem_iff (pairwise_totalScan tx) (pairwise_totalScan tx') fun k v => ?_
    rw [mem_totalScan, mem_totalScan, hget]

theorem rangeScanWith_of_lt {α : Type} {emit : Bytes → Bytes → α} {lower upper : Bytes}
    {as : List α}
    (hlt : upper < lower) (h : tx.rangeScanWith emit lower upper = .ok as) : as = [] := by
  rw [rangeScanWith_eq] at h
  obtain ⟨es, hes, rfl⟩ := except_map_eq_ok.1 h
  have hnil : es = [] := eq_nil_iff_forall_not_mem.2 fun e he => by
    obtain ⟨-, hlo, hhi⟩ := (mem_rangeScan hes).1 he
    exact (hlo.trans_lt (hhi.trans hlt)).false
  rw [hnil]
  rfl

/-- **The reads of a write transaction are those of the changed map.** The changes of a write
transaction all succeed. After them every read is what it would be on the map with the changes
applied in order; the scans come in ascending order of the keys, so without duplicates; and the
commit leaves this map. -/
theorem write_transaction_reads {Tuple : Type} (decode : Bytes → Bytes → Tuple)
    (store : Store) (changes : List Change) :
    ∃ tx, changes.foldlM applyChange (transactWrite store) = .ok tx ∧
    ReadsAs decode tx (.reader (changes.foldl Change.applyTo store)) ∧
      (∀ lower upper es, tx.rangeScanWith Prod.mk lower upper = .ok es →
      es.Pairwise fun a b => a.1 < b.1) ∧
      (∀ lower upper, upper < lower → ∀ es, tx.rangeScanWith Prod.mk lower upper = .ok es →
      es = []) ∧
      (tx.totalScan.Pairwise fun a b => a.1 < b.1) ∧
      tx.commit.persisted = changes.foldl Change.applyTo store := by
  have hempty : ∀ k, (transactWrite store).get k = store[k]? := fun k => by simp [transactWrite, get]
  obtain ⟨tx, hchanges, -, hget⟩ := applyChanges_spec changes rfl hempty
  refine ⟨tx, hchanges, readsAs_of_get_eq decode hget, fun lower upper es h => ?_,
    fun lower upper hlt es h => rangeScanWith_of_lt hlt h, pairwise_totalScan tx, ?_⟩
  · rw [rangeScanWith_eq] at h
    obtain ⟨es', hes', rfl⟩ := except_map_eq_ok.1 h
    simpa using pairwise_rangeScan hes'
  · refine ExtTreeMap.ext_getElem? fun k => ?_
    rw [getElem?_persisted_commit, hget]

/-- The pending deletion of a key that the store does not have makes the range query of the pending
changes fail on a range that starts after its end, where the range query of the empty map yields
nothing. -/
theorem pending_delete_fails_on_inverted_range :
    ∃ tx, [.del [1]].foldlM applyChange (transactWrite ∅) = .ok tx ∧
      tx.rangeScanWith Prod.mk [2] [1] = .error .rangeStartAfterEnd ∧
      (reader ([.del [1]].foldl Change.applyTo ∅)).rangeScanWith Prod.mk [2] [1] = .ok [] := by
  have hlt : ([1] : Bytes) < [2] := by decide
  refine ⟨.writer ∅ ((∅ : Cache).insert [1] none), rfl, ?_, ?_⟩
  · have hrange : range ((∅ : Cache).insert [1] none) [2] [1] false = .error .rangeStartAfterEnd := by
      rw [range_eq, if_pos (by simp [hlt])]
    rw [rangeScanWith, hrange]
    rfl
  · have herase : [.del [1]].foldl Change.applyTo (∅ : Store) = ∅ := by
      refine ExtTreeMap.ext_getElem? fun k => ?_
      simp [Change.applyTo]
    have hrange : range (∅ : Store) [2] [1] false = .ok [] := by
      rw [range_eq, if_neg (by simp), rangeEntries_of_isEmpty (∅ : Store) (by simp)]
    rw [herase, rangeScanWith, hrange]
    rfl

/-! ### Histories -/

/-- A history of write transactions, with their changes and whether they are committed or dropped.
The store has one lock, so they come one after the other. -/
def runHistory (store : Store) (history : List (List Change × Bool)) : Except StoreError Store :=
  history.foldlM (fun store t => do
    let tx ← t.1.foldlM applyChange (transactWrite store)
    .ok (if t.2 then tx.commit else tx).persisted) store

def applyCommitted (store : Store) (history : List (List Change × Bool)) : Store :=
  (history.filter Prod.snd).foldl (fun m t => t.1.foldl Change.applyTo m) store

/-- A write transaction, from its start: what it reads, and what it leaves if it is committed or
dropped. -/
theorem transaction_spec (store : Store) (changes : List Change) :
    ∃ tx, changes.foldlM applyChange (transactWrite store) = .ok tx ∧
    (∀ k, tx.get k = (changes.foldl Change.applyTo store)[k]?) ∧ tx.persisted = store := by
  obtain ⟨tx, htx, -, hget⟩ := applyChanges_spec changes rfl fun k =>
    show (transactWrite store).get k = store[k]? by simp [transactWrite, get]
  refine ⟨tx, htx, hget, foldlM_induction (P := fun tx : MemTx => tx.persisted = store)
    (fun {tx₁ c tx₂} h hc => ?_) rfl htx⟩
  cases tx₁ <;> cases c <;> cases hc <;> exact h

/-- **Histories.** What a transaction reads, after any history and any changes of its own, is what
the committed transactions before it and these changes leave; a transaction that is dropped leaves
nothing. -/
theorem history_reads {Tuple : Type} (decode : Bytes → Bytes → Tuple) (store : Store)
    (history : List (List Change × Bool)) (changes : List Change) :
    ∃ now tx, runHistory store history = .ok now ∧
    changes.foldlM applyChange (transactWrite now) = .ok tx ∧
      ReadsAs decode tx (.reader
      (changes.foldl Change.applyTo (applyCommitted store history))) := by
  have hrun : runHistory store history = .ok (applyCommitted store history) := by
    induction history generalizing store with
    | nil => rfl
    | cons t history ih =>
      obtain ⟨tx, htx, hget, hdropped⟩ := transaction_spec store t.1
      have hcommit : tx.commit.persisted = t.1.foldl Change.applyTo store :=
        ExtTreeMap.ext_getElem? fun k => (getElem?_persisted_commit tx k).trans (hget k)
      rw [runHistory, foldlM_cons, htx]
      refine (ih _).trans (congrArg Except.ok ?_)
      rw [applyCommitted, applyCommitted, filter_cons]
      cases t.2 with
      | false => simp [hdropped]
      | true => simp [hcommit]
  obtain ⟨tx, htx, hget, -⟩ := transaction_spec (applyCommitted store history) changes
  exact ⟨_, tx, hrun, htx, readsAs_of_get_eq decode hget⟩

end MemTx

end Retia
