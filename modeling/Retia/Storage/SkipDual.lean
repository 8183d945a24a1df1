import Mathlib
import Retia.Storage.SkipScan

/-!
# Time-travel scans inside a write transaction

`SkipDualIterator` of `storage/mem.rs` reads the committed map and the pending changes side by side.
It looks at the smaller of the two next keys; where both have the same key the change wins. A
pending delete is not skipped like an absent key: it is sent on by `checkKeyForValidity` like a
version, past all older versions of its row if the reader could have seen it.

* `overlay` — the two maps as one, with the pending deletes still in it. The loop is the seek loop
  over the overlay (`SkipDualIterator.collect_eq_seekLoop`), so it is exact on the overlay as
  `SkipIterator` is on a map.

The scan after the commit runs over `MemTx.applyCache`, which is the overlay without the deletes.
The two agree exactly when no pending delete stands before an assertion that is current after the
commit (`NoMaskedAssertion`).
-/

namespace Retia

open BTree (mem_rangeEntries range rangeEntries)

open Std List

/-- The iterator of a time-travel scan in a write transaction. -/
structure SkipDualIterator where
  stored : Store
  delta : Cache
  upper : Bytes
  validAt : Int64
  nextBound : Bytes

variable (fromSlice : Bytes → List Value)

namespace SkipDualIterator

/-- The end of a pass that has settled on a version. -/
def candidate (it : SkipDualIterator) (candidateKey candidateVal : Bytes) :
    Except Panic (Option (Option (List Value) × SkipDualIterator)) :=
  match checkKeyForValidity candidateKey it.validAt with
  | none => .error .unreachable
  | some (ret, nxtBound) =>
    .ok (some (ret.map (extendTupleFromV fromSlice · candidateVal),
      { it with nextBound := nxtBound }))

/-- A pass that meets a pending delete: nothing is returned, and the loop continues. -/
def deleted (it : SkipDualIterator) (deltaKey : Bytes) :
    Except Panic (Option (Option (List Value) × SkipDualIterator)) :=
  match checkKeyForValidity deltaKey it.validAt with
  | none => .error .unreachable
  | some (_, nxtSeek) => .ok (some (none, { it with nextBound := nxtSeek }))

/-- One pass of the loop of `next`. -/
def pass (it : SkipDualIterator) :
    Except Panic (Option (Option (List Value) × SkipDualIterator)) := do
  let storedNxt := (← range it.stored it.nextBound it.upper false).head?
  let deltaNxt := (← range it.delta it.nextBound it.upper false).head?
  match storedNxt, deltaNxt with
  | none, none => .ok none
  | none, some (deltaKey, none) => it.deleted deltaKey
  | none, some (deltaKey, some deltaVal) => it.candidate fromSlice deltaKey deltaVal
  | some (storedKey, storedVal), none => it.candidate fromSlice storedKey storedVal
  | some (storedKey, storedVal), some (deltaKey, maybeDeltaVal) =>
    if storedKey < deltaKey then it.candidate fromSlice storedKey storedVal
    else
      match maybeDeltaVal with
      | none => it.deleted deltaKey
      | some deltaVal => it.candidate fromSlice deltaKey deltaVal

/-- All rows of the scan, with fuel for the passes. -/
def collect : Nat → SkipDualIterator → Option (Except Panic (List (List Value)))
  | 0, _ => none
  | n + 1, it =>
    match it.pass fromSlice with
    | .error p => some (.error p)
    | .ok none => some (.ok [])
    | .ok (some (ret, it')) => (collect n it').map (·.map (ret.toList ++ ·))

end SkipDualIterator

/-- `range_skip_scan_tuple` of a write transaction. -/
def rangeSkipScanTupleWriter (stored : Store) (delta : Cache) (lower upper : Bytes)
    (validAt : Int64) : SkipDualIterator :=
  { stored := stored, delta := delta, upper := upper, validAt := validAt, nextBound := lower }

/-! ### The two maps as one -/

/-- The committed map with the pending changes on top, deletes included. -/
def overlay (stored : Store) (delta : Cache) : Cache :=
  delta.toList.foldl (fun w e => w.insert e.1 e.2) (stored.map fun _ v => some v)

variable {stored : Store} {delta : Cache}

theorem getElem?_overlay (k : Bytes) :
    (overlay stored delta)[k]? = delta[k]?.elim (stored[k]?.map some) some := by
  rw [overlay, BTree.getElem?_foldl_toList (r := some), ExtTreeMap.getElem?_map]
  intro w e k
  rw [ExtTreeMap.getElem?_insert]
  simp only [LawfulEqCmp.compare_eq_iff_eq]

theorem getElem?_applyCache (k : Bytes) :
    (MemTx.applyCache stored delta)[k]? = delta[k]?.elim stored[k]? id := by
  rw [MemTx.applyCache, BTree.getElem?_foldl_toList (r := id)]
  rintro w ⟨k', mv⟩ k
  cases mv with
  | none => simp [ExtTreeMap.getElem?_erase]
  | some v => simp [ExtTreeMap.getElem?_insert]

theorem mem_overlay {k : Bytes} : k ∈ overlay stored delta ↔ k ∈ stored ∨ k ∈ delta := by
  simp only [ExtTreeMap.mem_iff_isSome_getElem?, getElem?_overlay]
  cases delta[k]? <;> simp

theorem isEmpty_overlay : (overlay stored delta).isEmpty = (stored.isEmpty && delta.isEmpty) := by
  rw [Bool.eq_iff_iff, Bool.and_eq_true]
  simp only [ExtTreeMap.isEmpty_iff, ExtTreeMap.eq_empty_iff_forall_not_mem, mem_overlay, not_or]
  exact forall_and

/-! ### The loop is a seek loop over the overlay -/

theorem head?_overlay (b upper : Bytes) :
    (rangeEntries (overlay stored delta) b upper false).head? =
      match (rangeEntries stored b upper false).head?, (rangeEntries delta b upper false).head? with
      | none, none => none
      | none, some d => some d
      | some s, none => some (s.1, some s.2)
      | some s, some d => if s.1 < d.1 then some (s.1, some s.2) else some d := by
  cases hs : (rangeEntries stored b upper false).head? with
  | none =>
    have hno {k : Bytes} := BTree.not_lt_of_head?_rangeEntries stored (k := k) hs
    cases hd : (rangeEntries delta b upper false).head? with
    | none =>
      have hno' {k : Bytes} := BTree.not_lt_of_head?_rangeEntries delta (k := k) hd
      rw [List.head?_eq_none_iff, eq_nil_iff_forall_not_mem]
      intro e he
      obtain ⟨hin, hlo, hhi⟩ := BTree.mem_of_mem_rangeEntries _ he
      rcases mem_overlay.1 hin with h | h
      · exact hno h hlo hhi
      · exact hno' h hlo hhi
    | some d =>
      obtain ⟨hd₁, hd₂, hd₃⟩ := BTree.of_head?_rangeEntries delta hd
      refine BTree.head?_rangeEntries_eq_some _ (by rw [getElem?_overlay, hd₁]; rfl) hd₂ hd₃ ?_
      intro k hk hlo hhi
      rcases mem_overlay.1 hk with h | h
      · exact absurd hhi (hno h hlo)
      · exact BTree.le_of_head?_rangeEntries delta hd h hlo hhi
  | some s =>
    obtain ⟨hs₁, hs₂, hs₃⟩ := BTree.of_head?_rangeEntries stored hs
    have hsmin {k : Bytes} := BTree.le_of_head?_rangeEntries stored (k := k) hs
    cases hd : (rangeEntries delta b upper false).head? with
    | none =>
      have hno' {k : Bytes} := BTree.not_lt_of_head?_rangeEntries delta (k := k) hd
      have hnone : delta[s.1]? = none :=
        ExtTreeMap.getElem?_eq_none fun h => hno' h hs₂ hs₃
      refine BTree.head?_rangeEntries_eq_some _ (by rw [getElem?_overlay, hnone, hs₁]; rfl) hs₂ hs₃ ?_
      intro k hk hlo hhi
      rcases mem_overlay.1 hk with h | h
      · exact hsmin h hlo hhi
      · exact absurd hhi (hno' h hlo)
    | some d =>
      obtain ⟨hd₁, hd₂, hd₃⟩ := BTree.of_head?_rangeEntries delta hd
      have hdmin {k : Bytes} := BTree.le_of_head?_rangeEntries delta (k := k) hd
      by_cases hlt : s.1 < d.1
      · have hnone : delta[s.1]? = none :=
          ExtTreeMap.getElem?_eq_none fun h => absurd (hdmin h hs₂ hs₃) (LT.lt.not_ge hlt)
        simp only [hlt, ↓reduceIte]
        refine BTree.head?_rangeEntries_eq_some _ (by rw [getElem?_overlay, hnone, hs₁]; rfl)
          hs₂ hs₃ ?_
        intro k hk hlo hhi
        rcases mem_overlay.1 hk with h | h
        · exact hsmin h hlo hhi
        · exact hlt.le.trans (hdmin h hlo hhi)
      · simp only [hlt, ↓reduceIte]
        refine BTree.head?_rangeEntries_eq_some _ (by rw [getElem?_overlay, hd₁]; rfl) hd₂ hd₃ ?_
        intro k hk hlo hhi
        rcases mem_overlay.1 hk with h | h
        · exact (le_of_not_gt hlt).trans (hsmin h hlo hhi)
        · exact hdmin h hlo hhi

namespace SkipDualIterator

theorem pass_eq (it : SkipDualIterator) : it.pass fromSlice =
      if !(overlay it.stored it.delta).isEmpty && decide (it.upper < it.nextBound) then
        .error .rangeStartAfterEnd
      else
        match (rangeEntries (overlay it.stored it.delta) it.nextBound it.upper false).head? with
        | none => .ok none
        | some (k, none) => it.deleted k
        | some (k, some v) => it.candidate fromSlice k v := by
  rw [pass, BTree.range_eq, BTree.range_eq, isEmpty_overlay, head?_overlay]
  by_cases hlt : it.upper < it.nextBound
  · cases hs : it.stored.isEmpty
    · simp [hlt, bind, Except.bind]
    · cases hd : it.delta.isEmpty
      · simp [hlt, bind, Except.bind]
      · simp [bind, Except.bind, BTree.rangeEntries_of_isEmpty _ hs, BTree.rangeEntries_of_isEmpty _ hd]
  · simp only [hlt, decide_false, Bool.and_false, Bool.false_eq_true, ↓reduceIte, bind, Except.bind]
    cases (rangeEntries it.stored it.nextBound it.upper false).head? with
    | none =>
      cases (rangeEntries it.delta it.nextBound it.upper false).head? with
      | none => rfl
      | some d => obtain ⟨dk, _ | dv⟩ := d <;> rfl
    | some s =>
      cases (rangeEntries it.delta it.nextBound it.upper false).head? with
      | none => rfl
      | some d =>
        obtain ⟨dk, mv⟩ := d
        by_cases hsd : s.1 < dk
        · simp only [hsd, ↓reduceIte]
        · simp only [hsd, ↓reduceIte]
          cases mv <;> rfl

end SkipDualIterator

/-- What an entry of the overlay gives to the scan: a pending delete gives nothing. -/
def seekOutDual (validAt : Int64) (e : Bytes × Option Bytes) : Option (List Value) :=
  e.2.bind fun v => seekOut fromSlice validAt (e.1, v)

variable {arity : RelationId → Nat} {lower upper : Bytes} {validAt : Int64}

namespace SkipDualIterator

theorem collect_eq_seekLoop (hne : (overlay stored delta).isEmpty = false)
    (hk : ∀ e ∈ rangeEntries (overlay stored delta) lower upper false, IsVersionedKey arity e.1)
    (n : Nat) {b : Bytes} (hb : lower ≤ b) :
    collect fromSlice n ⟨stored, delta, upper, validAt, b⟩ = (versionOrder arity validAt).seekLoop
        (rangeEntries (overlay stored delta) lower upper false) upper
        (seekOutDual fromSlice validAt) n b := by
  induction n generalizing b with
  | zero => rfl
  | succ n ih =>
    rw [collect, VersionOrder.seekLoop, pass_eq, hne]
    by_cases hlt : upper < b
    · simp [hlt]
    · simp only [hlt, Bool.not_false, decide_false, Bool.and_false, Bool.false_eq_true,
        ↓reduceIte, ← List.head?_filter, ← BTree.rangeEntries_of_le _ hb]
      cases hhead : (rangeEntries (overlay stored delta) b upper false).head? with
      | none => rfl
      | some e =>
        obtain ⟨k, mv⟩ := e
        obtain ⟨hget, hbk, hku⟩ := BTree.of_head?_rangeEntries _ hhead
        have hkey : IsVersionedKey arity k :=
          hk (k, mv) ((mem_rangeEntries _).2 ⟨hget, hb.trans hbk, hku⟩)
        have hnext := ih (hb.trans (hbk.trans
          (VersionOrder.le_nxt (O := versionOrder arity validAt) hkey)))
        cases mv with
        | none =>
          obtain ⟨ret, hcheck, -⟩ := checkKeyForValidity_eq fromSlice validAt hkey []
          simp only [deleted, hcheck, hnext, seekOutDual, Option.bind_none]
        | some v =>
          obtain ⟨ret, hcheck, hout⟩ := checkKeyForValidity_eq fromSlice validAt hkey v
          simp only [candidate, hcheck, hnext, hout, seekOutDual, Option.bind_some]

theorem collect_of_isEmpty {it : SkipDualIterator} (h : (overlay it.stored it.delta).isEmpty = true)
    (n : Nat) : it.collect fromSlice (n + 1) = some (.ok []) := by
  rw [collect, pass_eq, BTree.rangeEntries_of_isEmpty _ h, h]
  rfl

end SkipDualIterator

/-- The scan of a write transaction ends with `rows` exactly when it is safe on the overlay and
these are what the current versions of the overlay give. -/
theorem collect_rangeSkipScanTupleWriter_iff
    (hk : ∀ e ∈ rangeEntries (overlay stored delta) lower upper false, IsVersionedKey arity e.1)
    {rows : List (List Value)} :
    (∃ n, (rangeSkipScanTupleWriter stored delta lower upper validAt).collect fromSlice n =
      some (.ok rows)) ↔
      ScanSafe (overlay stored delta) lower upper validAt ∧
      rows = (currentVersions validAt (rangeEntries (overlay stored delta) lower upper
          false)).filterMap (seekOutDual fromSlice validAt) := by
  refine scan_iff hk (fun e hv => ?_) rfl
    (fun hemp => SkipDualIterator.collect_of_isEmpty fromSlice hemp)
    (fun hne n => SkipDualIterator.collect_eq_seekLoop fromSlice hne hk n le_rfl)
  cases hmv : e.2 <;> simp [seekOutDual, seekOut, hv, hmv]

/-! ### Agreement with the scan after the commit -/

theorem rangeEntries_applyCache : rangeEntries (MemTx.applyCache stored delta) lower upper false =
      (rangeEntries (overlay stored delta) lower upper false).filterMap fun e =>
      e.2.map (e.1, ·) := by
  have hsorted : ((rangeEntries (overlay stored delta) lower upper false).filterMap
      fun e => e.2.map (e.1, ·)).Pairwise fun a b => a.1 < b.1 := by
    refine List.Pairwise.filterMap _ ?_ (BTree.pairwise_rangeEntries _)
    intro a b hab a' ha b' hb
    obtain ⟨_, -, rfl⟩ := Option.map_eq_some_iff.1 ha
    obtain ⟨_, -, rfl⟩ := Option.map_eq_some_iff.1 hb
    exact hab
  refine BTree.eq_of_pairwise_of_mem_iff (BTree.pairwise_rangeEntries _) hsorted fun k v => ?_
  rw [mem_rangeEntries, getElem?_applyCache, mem_filterMap]
  constructor
  · rintro ⟨hv, hrange⟩
    refine ⟨(k, some v), (mem_rangeEntries _).2 ⟨?_, hrange⟩, rfl⟩
    rw [getElem?_overlay]
    cases hd : delta[k]? with
    | none | some mv => simpa [hd] using hv
  · rintro ⟨⟨k', mv⟩, hmem, heq⟩
    obtain ⟨v', hmv, hkv⟩ := Option.map_eq_some_iff.1 heq
    cases hkv
    obtain ⟨hget, hrange⟩ := (mem_rangeEntries _).1 hmem
    refine ⟨?_, hrange⟩
    rw [getElem?_overlay] at hget
    cases hd : delta[k']? with
    | none | some mv' => simpa [hd, show mv = some v from hmv] using hget

/-- A pending delete of a visible version of the row stands before the entry. -/
def masked (validAt : Int64) (U : List (Bytes × Option Bytes)) (k : Bytes) : Bool :=
  U.any fun e => e.2.isNone && keyVisible validAt e.1 && keyBase e.1 = keyBase k && e.1 < k

theorem filterMap_currentVersions (U : List (Bytes × Option Bytes)) :
    (currentVersions validAt U).filterMap (fun e => e.2.map (e.1, ·)) =
      (currentVersions validAt (U.filterMap fun e => e.2.map (e.1, ·))).filter fun d =>
      !masked validAt U d.1 := by
  rw [currentVersions, currentVersions, filter_filter, filterMap_filter, filter_filterMap]
  refine filterMap_congr fun e _ => ?_
  obtain ⟨k, mv⟩ := e
  cases mv with
  | none => simp
  | some v =>
    have hsplit : (U.any fun d => keyVisible validAt d.1 && keyBase d.1 = keyBase k && d.1 < k) =
        (masked validAt U k || (U.filterMap fun e => e.2.map (e.1, ·)).any fun d =>
          keyVisible validAt d.1 && keyBase d.1 = keyBase k && d.1 < k) := by
      rw [Bool.eq_iff_iff, Bool.or_eq_true, masked, any_filterMap, any_eq_true,
        any_eq_true, any_eq_true, ← exists_or]
      refine exists_congr fun d => ?_
      rw [← and_or_left]
      refine and_congr_right fun _ => ?_
      obtain ⟨dk, mv⟩ := d
      cases mv <;> simp
    simp only [hsplit, Option.map_some, Option.filter_some]
    cases keyVisible validAt k <;> cases masked validAt U k <;> rfl

/-- Dropping elements leaves a `filterMap` unchanged exactly when it drops only what gives nothing.
-/
theorem filterMap_filter_eq_iff {α β : Type} (f : α → Option β) (p : α → Bool) (l : List α) :
    (l.filter p).filterMap f = l.filterMap f ↔ ∀ a ∈ l, (f a).isSome → p a = true := by
  induction l with
  | nil => simp
  | cons a l ih =>
    have hlen : ((l.filter p).filterMap f).length ≤ (l.filterMap f).length :=
      (filter_sublist.filterMap f).length_le
    cases hp : p a with
    | true =>
      rw [filter_cons, if_pos hp, forall_mem_cons]
      cases hf : f a with
      | none => simp [hf, ih]
      | some b => simp [hf, ih, hp]
    | false =>
      rw [filter_cons, if_neg (by simp [hp]), forall_mem_cons]
      cases hf : f a with
      | none => simp [hf, ih]
      | some b =>
        rw [filterMap_cons, hf]
        refine iff_of_false (fun h => ?_) (by simp [hp])
        have := congrArg List.length h
        simp only [length_cons] at this
        omega

/-- No pending delete of a version the reader could see stands before an assertion that is current
after the commit. -/
def NoMaskedAssertion (stored : Store) (delta : Cache) (lower upper : Bytes)
    (validAt : Int64) : Prop :=
  ∀ d ∈ currentVersions validAt
      (rangeEntries (MemTx.applyCache stored delta) lower upper false),
    keyIsAssert d.1 = true → ∀ k, delta[k]? = some none → lower ≤ k → k < d.1 →
      keyVisible validAt k = true → keyBase k ≠ keyBase d.1

theorem masked_iff {k : Bytes} (hk : k < upper) :
    masked validAt (rangeEntries (overlay stored delta) lower upper false) k = true ↔
      ∃ k', delta[k']? = some none ∧ lower ≤ k' ∧ k' < k ∧ keyVisible validAt k' = true ∧
      keyBase k' = keyBase k := by
  rw [masked, any_eq_true]
  constructor
  · rintro ⟨⟨k', mv⟩, hmem, h⟩
    simp only [Bool.and_eq_true, decide_eq_true_iff, Option.isNone_iff_eq_none] at h
    obtain ⟨⟨⟨rfl, hv⟩, hbase⟩, hlt⟩ := h
    obtain ⟨hget, hlo, -⟩ := (mem_rangeEntries _).1 hmem
    refine ⟨k', ?_, hlo, hlt, hv, hbase⟩
    rw [getElem?_overlay] at hget
    cases hd : delta[k']? with
    | none => simp [hd] at hget
    | some mv => simpa [hd] using hget
  · rintro ⟨k', hdel, hlo, hlt, hv, hbase⟩
    refine ⟨(k', none), (mem_rangeEntries _).2 ⟨?_, hlo, hlt.trans hk⟩, ?_⟩
    · rw [getElem?_overlay, hdel]
      rfl
    · simp [hv, hbase, hlt]

theorem mem_overlay_of_mem_applyCache {k : Bytes} (h : k ∈ MemTx.applyCache stored delta) :
    k ∈ overlay stored delta := by
  rw [ExtTreeMap.mem_iff_isSome_getElem?] at h ⊢
  rw [getElem?_applyCache] at h
  rw [getElem?_overlay]
  cases hd : delta[k]? with
  | none => simpa [hd] using h
  | some mv => simp

theorem ScanSafe.applyCache (h : ScanSafe (overlay stored delta) lower upper validAt) :
    ScanSafe (MemTx.applyCache stored delta) lower upper validAt where
  le hne := by
    apply h.le
    rw [Bool.eq_false_iff, ne_eq, ExtTreeMap.isEmpty_iff, ExtTreeMap.eq_empty_iff_forall_not_mem] at hne ⊢
    exact fun hall => hne fun k hk => hall k (mem_overlay_of_mem_applyCache hk)
  not_terminal k hk := h.not_terminal k (mem_overlay_of_mem_applyCache hk)
  nxt_le k hk := h.nxt_le k (mem_overlay_of_mem_applyCache hk)

/-- The two scans are due the same rows exactly when no assertion is masked. -/
theorem currentRows_eq_iff (hk : ∀ e ∈ rangeEntries (overlay stored delta) lower upper false,
      IsVersionedKey arity e.1) :
    (currentVersions validAt (rangeEntries (overlay stored delta) lower upper false)).filterMap
    (seekOutDual fromSlice validAt) =
      currentRows fromSlice validAt
      (rangeEntries (MemTx.applyCache stored delta) lower upper false) ↔
      NoMaskedAssertion stored delta lower upper validAt := by
  have hout : seekOutDual fromSlice validAt = fun e : Bytes × Option Bytes =>
      (e.2.map (e.1, ·)).bind (seekOut fromSlice validAt) := by
    funext e
    cases hmv : e.2 <;> simp [seekOutDual, hmv]
  rw [hout, ← filterMap_filterMap,
    filterMap_currentVersions, ← rangeEntries_applyCache, ← filterMap_seekOut,
    filterMap_filter_eq_iff, NoMaskedAssertion]
  refine forall₂_congr fun d hd => ?_
  have hdM := mem_of_mem_filter hd
  obtain ⟨hin, hlo, hhi⟩ := BTree.mem_of_mem_rangeEntries _ hdM
  obtain ⟨v, hv⟩ := BTree.exists_mem_rangeEntries _ (mem_overlay_of_mem_applyCache hin) hlo hhi
  obtain ⟨vk, -, hvk⟩ := hk _ hv
  have hvis : keyVisible validAt d.1 = true := by
    have := (mem_filter.1 hd).2
    rw [Bool.and_eq_true] at this
    exact this.1
  have hsome : (seekOut fromSlice validAt d).isSome = keyIsAssert d.1 := by
    have hrow : (rowOf fromSlice d).isSome = true := by
      rw [rowOf, ← hvk, vk.decodeTupleFromKey_toBytes]
      rfl
    rw [seekOut, hvis]
    cases keyIsAssert d.1 <;> simp [hrow]
  rw [hsome]
  refine imp_congr_right fun _ => ?_
  rw [Bool.not_eq_true', Bool.eq_false_iff, ne_eq, masked_iff hhi]
  simp only [not_exists, not_and, ne_eq]

/-- **The scan inside a write transaction** ends, and ends with the rows of the same scan after the
commit, exactly when it is safe on the overlay and masks no assertion. -/
theorem rangeSkipScanTupleWriter_agrees_iff (stored : Store) (delta : Cache)
    (lower upper : Bytes) (validAt : Int64)
    (hk : ∀ k, k ∈ stored ∨ k ∈ delta → lower ≤ k → k < upper → IsVersionedKey arity k) : (∃ rows,
      (∃ n, (rangeSkipScanTupleWriter stored delta lower upper validAt).collect fromSlice n =
      some (.ok rows)) ∧
      ∃ n, (rangeSkipScanTuple (MemTx.writer stored delta).commit.persisted
      lower upper validAt).collect fromSlice n = some (.ok rows)) ↔
      ScanSafe (overlay stored delta) lower upper validAt ∧
      NoMaskedAssertion stored delta lower upper validAt := by
  have hkU : ∀ e ∈ BTree.rangeEntries (overlay stored delta) lower upper false,
      IsVersionedKey arity e.1 := by
    intro e he
    obtain ⟨hin, hlo, hhi⟩ := BTree.mem_of_mem_rangeEntries _ he
    exact hk e.1 (mem_overlay.1 hin) hlo hhi
  have hkM : ∀ e ∈ BTree.rangeEntries (MemTx.applyCache stored delta) lower upper false,
      IsVersionedKey arity e.1 := by
    intro e he
    obtain ⟨hin, hlo, hhi⟩ := BTree.mem_of_mem_rangeEntries _ he
    exact hk e.1 (mem_overlay.1 (mem_overlay_of_mem_applyCache hin)) hlo hhi
  have hdual := @collect_rangeSkipScanTupleWriter_iff fromSlice stored delta arity lower upper
    validAt hkU
  have hskip := @collect_rangeSkipScanTuple_iff fromSlice lower upper validAt arity
    (MemTx.applyCache stored delta) hkM
  have hagree := @currentRows_eq_iff fromSlice stored delta arity lower upper validAt hkU
  simp only [MemTx.commit, MemTx.persisted, hdual, hskip]
  constructor
  · rintro ⟨rows, ⟨hsafe, rfl⟩, -, heq⟩
    exact ⟨hsafe, hagree.1 heq⟩
  · rintro ⟨hsafe, hmask⟩
    exact ⟨_, ⟨hsafe, rfl⟩, hsafe.applyCache, hagree.2 hmask⟩

/-- One version asserted at time 5, and a pending retraction at time 7. -/
theorem pending_retraction_agrees :
    ScanSafe (overlay (soleVersion ⟨5, true⟩)
      ((∅ : Cache).insert (soleKey ⟨7, false⟩).toBytes (some [])))
      (encodeAsKey [] ⟨1, by decide⟩) (encodeAsKey [] ⟨2, by decide⟩) 10 ∧
      NoMaskedAssertion (soleVersion ⟨5, true⟩)
      ((∅ : Cache).insert (soleKey ⟨7, false⟩).toBytes (some []))
      (encodeAsKey [] ⟨1, by decide⟩) (encodeAsKey [] ⟨2, by decide⟩) 10 := by
  have hkeys : ∀ k, k ∈ soleVersion ⟨5, true⟩ ∨
      k ∈ (∅ : Cache).insert (soleKey ⟨7, false⟩).toBytes (some []) →
      encodeAsKey [] ⟨1, by decide⟩ ≤ k → k < encodeAsKey [] ⟨2, by decide⟩ →
      IsVersionedKey (fun _ => 0) k := by
    rintro k (h | h) - -
    · exact isVersionedKey_of_mem_soleVersion h
    · rcases ExtTreeMap.mem_insert.1 h with h | h
      · exact ⟨soleKey ⟨7, false⟩, rfl, LawfulEqCmp.eq_of_compare h⟩
      · exact absurd h ExtTreeMap.not_mem_empty
  exact (rangeSkipScanTupleWriter_agrees_iff (fun _ => []) _ _ _ _ 10 hkeys).1
    ⟨[], ⟨3, rfl⟩, ⟨3, rfl⟩⟩

/-- Deleting the newer of two assertions hides the older one until the commit. -/
theorem pending_delete_hides_older_version :
    let stored := (soleVersion ⟨5, true⟩).insert (soleKey ⟨3, true⟩).toBytes []
    let delta := (∅ : Cache).insert (soleKey ⟨5, true⟩).toBytes none
    let lower := encodeAsKey [] ⟨1, by decide⟩
    let upper := encodeAsKey [] ⟨2, by decide⟩
    (rangeSkipScanTupleWriter stored delta lower upper 10).collect (fun _ => []) 2 =
        some (.ok []) ∧
      (rangeSkipScanTuple (MemTx.writer stored delta).commit.persisted lower upper 10).collect
        (fun _ => []) 2 = some (.ok [[.validity ⟨3, true⟩]]) :=
  ⟨rfl, rfl⟩

end Retia
