import Mathlib
import Retia.Storage.Mem

/-!
# What a transaction reads

`storage/mem.rs`. A write transaction reads through its cache: a pending change hides the entry of
the shared map, and a range scan merges the pending changes of the range with the entries of the map
(`CacheIterRaw`). All reads agree on one content, `MemTx.get`, and so does the map that a commit
leaves:

* `MemTx.get_of_put`, `MemTx.get_of_del` — a change is seen at once, at its key and nowhere else;
* `MemTx.mem_rangeScan` — a scan yields the entries of the range;
* `MemTx.getElem?_persisted_commit` — the commit makes the content permanent.
-/

namespace Retia

open BTree

open Std List

namespace MemTx

def isWriter : MemTx → Bool
  | reader _ => false
  | writer _ _ => true

theorem keyExists_eq (tx : MemTx) (k : Bytes) : tx.keyExists k = (tx.get k).isSome := by
  cases tx with
  | reader rdr => simp [keyExists, get]
  | writer wtr cache =>
    simp only [keyExists, get]
    cases cache[k]? <;> simp

/-! ### Changes -/

theorem put_of_isWriter {tx : MemTx} (h : tx.isWriter = true) (k v : Bytes) :
    ∃ tx', tx.put k v = .ok tx' := by
  cases tx with
  | reader rdr => cases h
  | writer wtr cache => exact ⟨_, rfl⟩

variable {tx tx' : MemTx} {lower upper : Bytes} {k v : Bytes}

theorem isWriter_of_put (h : tx.put k v = .ok tx') : tx'.isWriter = tx.isWriter := by
  cases tx <;> cases h
  rfl

theorem isWriter_of_del {k : Bytes} (h : tx.del k = .ok tx') : tx'.isWriter = tx.isWriter := by
  cases tx <;> cases h
  rfl

private theorem get_insert (wtr : Store) (cache : Cache) (k k' : Bytes) (r : Option Bytes) :
    (writer wtr (cache.insert k r)).get k' =
      if k' = k then r else (writer wtr cache).get k' := by
  simp only [get, ExtTreeMap.getElem?_insert]
  by_cases h : k = k'
  · subst h
    simp
  · have hne : compare k k' ≠ .eq := fun hc => h (LawfulEqCmp.eq_of_compare hc)
    simp [hne, Ne.symm h]

theorem get_of_put (h : tx.put k v = .ok tx') (k' : Bytes) :
    tx'.get k' = if k' = k then some v else tx.get k' := by
  cases tx with
  | reader rdr => cases h
  | writer wtr cache =>
    cases h
    exact get_insert wtr cache k k' (some v)

theorem get_of_del {k : Bytes} (h : tx.del k = .ok tx') (k' : Bytes) :
    tx'.get k' = if k' = k then none else tx.get k' := by
  cases tx with
  | reader rdr => cases h
  | writer wtr cache =>
    cases h
    exact get_insert wtr cache k k' none

theorem of_delRangeFromPersisted {lower upper : Bytes}
    (h : tx.delRangeFromPersisted lower upper = .ok tx') :
    tx'.isWriter = tx.isWriter ∧ ∀ k, ¬ (lower ≤ k ∧ k < upper) → tx'.get k = tx.get k ∧
    tx'.persisted[k]? = tx.persisted[k]? := by
  have hstep : tx.step (.delRangeFromPersisted lower upper) = .ok tx' := h
  have hpersisted : ∀ k, ¬ (lower ≤ k ∧ k < upper) → tx'.persisted[k]? = tx.persisted[k]? := by
    intro k hk
    rw [getElem?_persisted_step hstep, if_neg (by simpa [Op.deletes] using hk)]
  cases tx with
  | reader rdr => cases h
  | writer wtr cache =>
    rw [delRangeFromPersisted] at h
    split at h
    · cases h
    cases h
    refine ⟨rfl, fun k hk => ⟨?_, hpersisted k hk⟩⟩
    -- the pending changes are the same, and so is the map at the key
    have hmap := hpersisted k hk
    rw [persisted, persisted] at hmap
    rw [get, get, hmap]

/-! ### Commit -/

/-- **A commit makes permanent what the transaction reads.** -/
theorem getElem?_persisted_commit (tx : MemTx) (k : Bytes) :
    tx.commit.persisted[k]? = tx.get k := by
  cases tx with
  | reader rdr => rfl
  | writer wtr cache =>
    refine Eq.trans (getElem?_foldl_toList (r := id) cache ?_ wtr k) ?_
    · rintro w ⟨k₁, r⟩ k
      by_cases h : k₁ = k
      · subst h
        cases r <;> simp
      · have hne : compare k₁ k ≠ .eq := fun hc => h (LawfulEqCmp.eq_of_compare hc)
        cases r <;> simp [h, hne, ExtTreeMap.getElem?_erase, ExtTreeMap.getElem?_insert]
    · rw [get]
      cases cache[k]? <;> rfl

/-! ### Scans -/

/-- `CacheIterRaw`: the pending changes of a range merged with the entries of the map. Where both
have a key, the entry is dropped first and the change is taken in the next round. -/
def cacheIter : List (Bytes × Option Bytes) → List (Bytes × Bytes) → List (Bytes × Bytes)
  | [], ds => ds
  | (k, some v) :: cs, [] => (k, v) :: cacheIter cs []
  | (_, none) :: cs, [] => cacheIter cs []
  | (ck, cv) :: cs, (dk, dv) :: ds =>
    match compare ck dk with
    | .lt =>
      match cv with
      | none => cacheIter cs ((dk, dv) :: ds)
      | some v => (ck, v) :: cacheIter cs ((dk, dv) :: ds)
    | .gt => (dk, dv) :: cacheIter ((ck, cv) :: cs) ds
    | .eq => cacheIter ((ck, cv) :: cs) ds
termination_by cs ds => cs.length + ds.length

/-- `range_scan`. -/
def rangeScan (lower upper : Bytes) : MemTx → Except Panic (List (Bytes × Bytes))
  | reader rdr => range rdr lower upper false
  | writer wtr cache => do
    let changes ← range cache lower upper false
    let entries ← range wtr lower upper false
    pure (cacheIter changes entries)

theorem lt_of_lt_of_mem_sorted {V : Type} {k : Bytes} {v : V} {l : List (Bytes × V)}
    {c : Bytes} (hc : c < k) (hl : ((k, v) :: l).Pairwise fun a b => a.1 < b.1)
    {e : Bytes × V} (he : e ∈ (k, v) :: l) : c < e.1 := by
  rcases mem_cons.1 he with rfl | he
  · exact hc
  · exact hc.trans ((pairwise_cons.1 hl).1 _ he)

theorem mem_cacheIter {cs : List (Bytes × Option Bytes)} {ds : List (Bytes × Bytes)}
    (hcs : cs.Pairwise fun a b => a.1 < b.1) (hds : ds.Pairwise fun a b => a.1 < b.1)
    : (k, v) ∈ cacheIter cs ds ↔ (k, some v) ∈ cs ∨ (k, v) ∈ ds ∧ ∀ r, (k, r) ∉ cs := by
  fun_induction cacheIter cs ds with
  | case1 ds => simp
  | case2 ck cv cs ih | case3 ck cs ih =>
    have hcs' := pairwise_cons.1 hcs
    simp [ih hcs'.2 hds]
  | case4 ck cs dk dv ds hlt ih | case5 ck cs dk dv ds hlt cv ih =>
    -- the change comes first, and the map does not have its key
    have hne : (k, v) ∈ (dk, dv) :: ds → k ≠ ck := by
      rintro hmem rfl
      exact (lt_of_lt_of_mem_sorted (compare_bytes_eq_lt_iff.1 hlt) hds hmem).false
    simp only [mem_cons, ih (pairwise_cons.1 hcs).2 hds, Prod.mk.injEq] at hne ⊢
    grind
  | case6 ck cv cs dk dv ds hgt ih =>
    -- the entry of the map comes first, before every change
    have hds' := pairwise_cons.1 hds
    have hdk : dk < ck := compare_bytes_eq_lt_iff.1 (OrientedCmp.gt_iff_lt.1 hgt)
    have hne : ∀ r, (k, r) ∈ (ck, cv) :: cs → k ≠ dk := by
      rintro r hmem rfl
      exact (lt_of_lt_of_mem_sorted hdk hcs hmem).false
    rw [mem_cons, ih hcs hds'.2]
    simp only [mem_cons, Prod.mk.injEq] at hne ⊢
    grind
  | case7 ck cv cs dk dv ds heq ih =>
    obtain rfl : ck = dk := LawfulEqCmp.eq_of_compare heq
    rw [ih hcs (pairwise_cons.1 hds).2]
    simp only [mem_cons, Prod.mk.injEq]
    grind

/-- **A scan yields the entries of the range.** -/
theorem mem_rangeScan {tx : MemTx} {entries : List (Bytes × Bytes)}
    (h : tx.rangeScan lower upper = .ok entries) :
    (k, v) ∈ entries ↔ tx.get k = some v ∧ lower ≤ k ∧ k < upper := by
  cases tx with
  | reader rdr =>
    rw [rangeScan, range_eq] at h
    split at h
    · cases h
    cases h
    exact mem_rangeEntries rdr
  | writer wtr cache =>
    rw [rangeScan, range_eq, range_eq] at h
    split at h
    · cases h
    split at h
    · cases h
    cases h
    rw [mem_cacheIter (pairwise_rangeEntries cache) (pairwise_rangeEntries wtr),
      mem_rangeEntries, mem_rangeEntries, get]
    simp only [mem_rangeEntries]
    cases hc : cache[k]? with
    | none => simp
    | some r =>
      by_cases hr : lower ≤ k ∧ k < upper
      · simp [hr]
      · simp [hr]

theorem rangeScan_of_le (h : lower ≤ upper) (tx : MemTx) :
    ∃ entries, tx.rangeScan lower upper = .ok entries := by
  have hlt : ¬ upper < lower := h.not_gt
  cases tx with
  | reader rdr => exact ⟨_, by rw [rangeScan, range_eq, if_neg (by simp [hlt])]⟩
  | writer wtr cache =>
    exact ⟨_, by
      rw [rangeScan, range_eq, range_eq, if_neg (by simp [hlt]), if_neg (by simp [hlt])]
      rfl⟩

end MemTx

end Retia
