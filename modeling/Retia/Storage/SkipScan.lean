import Mathlib
import Retia.Storage.Mem
import Retia.Data.Relation

/-!
# Time-travel scans of the committed map

`SkipIterator` of `storage/mem.rs`, which reads a relation as it was at a moment `validAt`. Each
pass of its loop asks the map for the first entry from the current bound on, lets
`checkKeyForValidity` decide about it, and continues at the bound that returns.

* `SkipIterator.pass` — one pass; `SkipIterator.collect` — the loop, driven until it is exhausted.
* `currentVersions` — what a reader is due: of every row the first version in key order, that is the
  newest one, among those not later than `validAt`; `currentRows` keeps the assertions.

The loop is the seek loop of the version order (`SkipIterator.collect_eq_seekLoop`), so
`VersionOrder.seekLoop_eq_iff` says when it is exact: no key of the range is sent back to itself,
which is what happens at the terminal validity, and none is sent past the end of the range.
-/

namespace Retia

open BTree

open Std

/-- `extend_tuple_from_v`: the value columns of a row. They are decoded by a library of the source,
from the ninth byte on. -/
def extendTupleFromV (fromSlice : Bytes → List Value) (key : List Value) (val : Bytes) :
    List Value :=
  if val.isEmpty then key else key ++ fromSlice (val.drop encodedKeyMinLen)

structure SkipIterator where
  inner : Store
  upper : Bytes
  validAt : Int64
  nextBound : Bytes

variable (fromSlice : Bytes → List Value)

namespace SkipIterator

/-- One pass of the loop of `next`: the end, or the row to return, if any, and the iterator to go on
with. -/
def pass (it : SkipIterator) : Except Panic (Option (Option (List Value) × SkipIterator)) := do
  match ← range it.inner it.nextBound it.upper false with
  | [] => .ok none
  | (candidateKey, candidateVal) :: _ =>
    match checkKeyForValidity candidateKey it.validAt with
    | none => .error .unreachable
    | some (ret, nxtBound) =>
      .ok (some (ret.map (extendTupleFromV fromSlice · candidateVal), { it with nextBound := nxtBound }))

/-- All rows of the scan, with fuel for the passes. -/
def collect : Nat → SkipIterator → Option (Except Panic (List (List Value)))
  | 0, _ => none
  | n + 1, it =>
    match it.pass fromSlice with
    | .error p => some (.error p)
    | .ok none => some (.ok [])
    | .ok (some (ret, it')) => (collect n it').map (·.map (ret.toList ++ ·))

end SkipIterator

/-- `range_skip_scan_tuple` of a read transaction. -/
def rangeSkipScanTuple (stored : Store) (lower upper : Bytes) (validAt : Int64) : SkipIterator :=
  { inner := stored, upper := upper, validAt := validAt, nextBound := lower }

/-! ### What a reader is due -/

def keyIsAssert (k : Bytes) : Bool := (keyValidity k).any (·.isAssert)

/-- Of every row the first version, in key order, that a reader at `validAt` can see. -/
def currentVersions {V : Type} (validAt : Int64) (entries : List (Bytes × V)) : List (Bytes × V) :=
  entries.filter fun e => keyVisible validAt e.1 && !entries.any fun d =>
    keyVisible validAt d.1 && keyBase d.1 = keyBase e.1 && d.1 < e.1

def rowOf (e : Bytes × Bytes) : Option (List Value) :=
  (decodeTupleFromKey e.1).map (extendTupleFromV fromSlice · e.2)

/-- The rows a reader at `validAt` is due: the current versions that are assertions. -/
def currentRows (validAt : Int64) (entries : List (Bytes × Bytes)) : List (List Value) :=
  ((currentVersions validAt entries).filter fun e => keyIsAssert e.1).filterMap (rowOf fromSlice)

/-! ### The loop is a seek loop -/

def seekOut (validAt : Int64) (e : Bytes × Bytes) : Option (List Value) :=
  if keyVisible validAt e.1 && keyIsAssert e.1 then rowOf fromSlice e else none

theorem currentVersions_eq_heads {V : Type} (arity : RelationId → Nat)
    (validAt : Int64) (entries : List (Bytes × V)) :
    currentVersions validAt entries = (versionOrder arity validAt).heads entries := by
  rw [currentVersions, VersionOrder.heads]
  rfl

theorem filterMap_seekOut (validAt : Int64) (entries : List (Bytes × Bytes)) :
    (currentVersions validAt entries).filterMap (seekOut fromSlice validAt) =
    currentRows fromSlice validAt entries := by
  rw [currentRows, List.filterMap_filter]
  refine List.filterMap_congr fun e he => ?_
  have hv : keyVisible validAt e.1 = true := by
    have := (List.mem_filter.1 he).2
    rw [Bool.and_eq_true] at this
    exact this.1
  simp [seekOut, hv]

theorem checkKeyForValidity_eq {arity : RelationId → Nat} (validAt : Int64)
    {k : Bytes} (hk : IsVersionedKey arity k) (v : Bytes) :
    ∃ ret, checkKeyForValidity k validAt = some (ret, (versionOrder arity validAt).nxt k) ∧
      ret.map (extendTupleFromV fromSlice · v) = seekOut fromSlice validAt (k, v) := by
  obtain ⟨vk, -, rfl⟩ := hk
  refine ⟨_, by rw [vk.checkKeyForValidity_toBytes, nxt_toBytes], ?_⟩
  have hrow : rowOf fromSlice (vk.toBytes, v) =
      some (extendTupleFromV fromSlice (vk.cols ++ [.validity vk.vld]) v) := by
    simp [rowOf, vk.decodeTupleFromKey_toBytes]
  have hassert : keyIsAssert vk.toBytes = vk.vld.isAssert := by
    rw [keyIsAssert, vk.keyValidity_toBytes, Option.any_some]
  rw [seekOut, hrow, vk.keyVisible_toBytes, hassert]
  by_cases hv : vk.vld.timestamp ≤ validAt
  · cases hb : vk.vld.isAssert <;> simp [hv]
  · simp [hv]

namespace SkipIterator

theorem collect_eq_seekLoop {arity : RelationId → Nat} {stored : Store} {lower upper : Bytes}
    {validAt : Int64} (hne : stored.isEmpty = false)
    (hk : ∀ e ∈ rangeEntries stored lower upper false, IsVersionedKey arity e.1)
    (n : Nat) {b : Bytes} (hb : lower ≤ b) : collect fromSlice n ⟨stored, upper, validAt, b⟩ =
      (versionOrder arity validAt).seekLoop (rangeEntries stored lower upper false) upper
      (seekOut fromSlice validAt) n b := by
  induction n generalizing b with
  | zero => rfl
  | succ n ih =>
    rw [collect, VersionOrder.seekLoop, pass, range_eq, hne]
    by_cases hlt : upper < b
    · simp [hlt, bind, Except.bind]
    · have hentries : rangeEntries stored b upper false =
          (rangeEntries stored lower upper false).filter fun e => b ≤ e.1 :=
        rangeEntries_of_le stored hb
      simp only [hlt, Bool.not_false, decide_false, Bool.and_false, Bool.false_eq_true,
        ↓reduceIte, ← List.head?_filter, hentries]
      cases hfilter : (rangeEntries stored lower upper false).filter fun e => b ≤ e.1 with
      | nil => rfl
      | cons e rest =>
        have hmem : e ∈ (rangeEntries stored lower upper false).filter fun e => b ≤ e.1 := by
          rw [hfilter]; simp
        have hbe : b ≤ e.1 := by simpa using (List.mem_filter.1 hmem).2
        have hkey := hk e (List.mem_filter.1 hmem).1
        obtain ⟨ret, hcheck, hout⟩ := checkKeyForValidity_eq fromSlice validAt hkey e.2
        have hnext := ih (hb.trans (hbe.trans
          (VersionOrder.le_nxt (O := versionOrder arity validAt) hkey)))
        simp only [bind, Except.bind, hcheck, List.head?_cons, hnext, hout]

end SkipIterator

/-- On the empty map a scan ends at once, whatever its bounds. -/
theorem SkipIterator.collect_of_isEmpty {it : SkipIterator} (h : it.inner.isEmpty = true)
    (n : Nat) : it.collect fromSlice (n + 1) = some (.ok []) := by
  rw [collect, pass, range, rangeEntries_of_isEmpty _ h, h]
  rfl

/-! ### When the scan is exact -/

/-- A scan is **safe** on a range when the range does not start beyond its end, no version in it
carries the terminal validity, and the end does not cut off the bound a version is sent to. -/
structure ScanSafe {V : Type} (m : ExtTreeMap Bytes V) (lower upper : Bytes)
    (validAt : Int64) : Prop where
  le : m.isEmpty = false → lower ≤ upper
  not_terminal : ∀ k ∈ m, lower ≤ k → k < upper → keyValidity k ≠ some terminalValidity
  nxt_le : ∀ k ∈ m, lower ≤ k → k < upper →
    ∀ ret nxt, checkKeyForValidity k validAt = some (ret, nxt) → nxt ≤ upper

variable {V : Type} {m : ExtTreeMap Bytes V} {lower upper : Bytes} {validAt : Int64}
  {arity : RelationId → Nat}

theorem forward_entry_iff {k : Bytes} (hk : IsVersionedKey arity k) :
    (k < (versionOrder arity validAt).nxt k ∧ (versionOrder arity validAt).nxt k ≤ upper) ↔
    keyValidity k ≠ some terminalValidity ∧
        ∀ ret nxt, checkKeyForValidity k validAt = some (ret, nxt) → nxt ≤ upper := by
  obtain ⟨vk, hvk, rfl⟩ := hk
  obtain ⟨ret, hcheck, -⟩ :=
    checkKeyForValidity_eq (fun _ => []) validAt ⟨vk, hvk, rfl⟩ []
  rw [lt_nxt_toBytes_iff, vk.keyValidity_toBytes, hcheck, ne_eq, ne_eq, Option.some_inj]
  simp

theorem scanSafe_iff (hk : ∀ e ∈ rangeEntries m lower upper false, IsVersionedKey arity e.1) :
    ScanSafe m lower upper validAt ↔ (m.isEmpty = false → lower ≤ upper) ∧
      (versionOrder arity validAt).Forward (rangeEntries m lower upper false) upper := by
  constructor
  · intro h
    refine ⟨h.le, fun e he => ?_⟩
    obtain ⟨hin, hlo, hhi⟩ := mem_of_mem_rangeEntries m he
    exact (forward_entry_iff (hk e he)).2 ⟨h.not_terminal _ hin hlo hhi, h.nxt_le _ hin hlo hhi⟩
  · rintro ⟨hle, hfwd⟩
    refine ⟨hle, fun k hkm hl hu => ?_, fun k hkm hl hu => ?_⟩
    · obtain ⟨v, hv⟩ := exists_mem_rangeEntries m hkm hl hu
      exact ((forward_entry_iff (hk _ hv)).1 (hfwd _ hv)).1
    · obtain ⟨v, hv⟩ := exists_mem_rangeEntries m hkm hl hu
      exact ((forward_entry_iff (hk _ hv)).1 (hfwd _ hv)).2

/-- A loop that is the seek loop over the entries of a map, and ends at once on the empty map, ends
with `rows` exactly when it is safe and these are what the current versions give. -/
theorem scan_iff {β : Type} {out : Bytes × V → Option β}
    {loop : Nat → Option (Except Panic (List β))}
    (hk : ∀ e ∈ rangeEntries m lower upper false, IsVersionedKey arity e.1)
    (hout : ∀ e, keyVisible validAt e.1 = false → out e = none)
    (hzero : loop 0 = none) (hempty : m.isEmpty = true → ∀ n, loop (n + 1) = some (.ok []))
    (hloop : m.isEmpty = false → ∀ n, loop n = (versionOrder arity validAt).seekLoop
      (rangeEntries m lower upper false) upper out n lower) {rows : List β} :
      (∃ n, loop n = some (.ok rows)) ↔ ScanSafe m lower upper validAt ∧
      rows = (currentVersions validAt (rangeEntries m lower upper false)).filterMap out := by
  rw [scanSafe_iff hk]
  by_cases hemp : m.isEmpty = true
  · have hent : rangeEntries m lower upper false = [] := rangeEntries_of_isEmpty m hemp
    have hcur : (currentVersions validAt ([] : List (Bytes × V))).filterMap out = [] := rfl
    rw [hent, hcur]
    constructor
    · rintro ⟨n, hn⟩
      cases n with
      | zero => rw [hzero] at hn; cases hn
      | succ n =>
        rw [hempty hemp] at hn
        simp_all [VersionOrder.Forward]
    · rintro ⟨-, rfl⟩
      exact ⟨1, hempty hemp 0⟩
  · have hne : m.isEmpty = false := by simpa using hemp
    have hiff := @VersionOrder.seekLoop_eq_iff _ _ _ (versionOrder arity validAt) _ _
      (rangeEntries m lower upper false) upper out _ (pairwise_rangeEntries m) hk
      (fun e _ hv => hout e hv) lower (fun e he => (mem_of_mem_rangeEntries m he).2.1) rows
    rw [← currentVersions_eq_heads, ← and_assoc] at hiff
    simp only [hloop hne, hiff, hne, true_imp_iff]

/-- The scan ends with `rows` exactly when it is safe and these are the rows due. -/
theorem collect_rangeSkipScanTuple_iff {stored : Store}
    (hk : ∀ e ∈ rangeEntries stored lower upper false, IsVersionedKey arity e.1)
    {rows : List (List Value)} :
    (∃ n, (rangeSkipScanTuple stored lower upper validAt).collect fromSlice n = some (.ok rows)) ↔
    ScanSafe stored lower upper validAt ∧
        rows = currentRows fromSlice validAt (rangeEntries stored lower upper false) := by
  rw [← filterMap_seekOut]
  refine scan_iff hk (fun e hv => by simp [seekOut, hv]) rfl
    (fun hemp => SkipIterator.collect_of_isEmpty fromSlice hemp)
    (fun hne n => SkipIterator.collect_eq_seekLoop fromSlice hne hk n le_rfl)

/-- **The scan of a read transaction** ends with the rows due, in key order, exactly when it is
safe. -/
theorem rangeSkipScanTuple_exact_iff (stored : Store) (lower upper : Bytes) (validAt : Int64)
    (hk : ∀ k ∈ stored, lower ≤ k → k < upper → IsVersionedKey arity k) :
    (∃ n, (rangeSkipScanTuple stored lower upper validAt).collect fromSlice n =
      some (.ok (currentRows fromSlice validAt (rangeEntries stored lower upper false)))) ↔
      ScanSafe stored lower upper validAt := by
  have hk' : ∀ e ∈ rangeEntries stored lower upper false, IsVersionedKey arity e.1 := by
    intro e he
    obtain ⟨hin, hlo, hhi⟩ := mem_of_mem_rangeEntries stored he
    exact hk e.1 hin hlo hhi
  rw [collect_rangeSkipScanTuple_iff fromSlice hk', and_iff_left rfl]

def soleKey (v : Validity) : VersionedKey := ⟨⟨1, RelationId.one_le⟩, [], v, trivial⟩

def soleVersion (v : Validity) : Store := (∅ : Store).insert (soleKey v).toBytes []

theorem isVersionedKey_of_mem_soleVersion {v : Validity} {k : Bytes} (h : k ∈ soleVersion v) :
    IsVersionedKey (fun _ => 0) k := by
  rw [soleVersion, ExtTreeMap.mem_insert] at h
  rcases h with h | h
  · exact ⟨soleKey v, rfl, LawfulEqCmp.eq_of_compare h⟩
  · exact absurd h ExtTreeMap.not_mem_empty

/-- A version asserted at time 5, read at time 10. -/
theorem soleVersion_scanSafe : ScanSafe (soleVersion ⟨5, true⟩)
    (encodeAsKey [] ⟨1, by decide⟩) (encodeAsKey [] ⟨2, by decide⟩) 10 :=
  (rangeSkipScanTuple_exact_iff (fun _ => []) _ _ _ _ fun _ h _ _ =>
    isVersionedKey_of_mem_soleVersion h).1 ⟨2, rfl⟩

/-- The terminal validity can be built and stored, and a scan that meets it never ends. -/
theorem scan_of_terminalValidity_diverges : opValidity [.num (.int Int64.minValue), .bool false] =
    .ok (.validity terminalValidity : Value) ∧
    coerceValidity (fun _ => none) 0 (.validity terminalValidity : Value) =
    .ok (.validity terminalValidity) ∧
    ∀ n rows, (rangeSkipScanTuple (soleVersion terminalValidity) (encodeAsKey [] ⟨1, by decide⟩)
      (encodeAsKey [] ⟨2, by decide⟩) 0).collect (fun _ => []) n ≠ some (.ok rows) := by
  refine ⟨rfl, rfl, fun n rows hn => ?_⟩
  have hkeys : ∀ e ∈ rangeEntries (soleVersion terminalValidity)
      (encodeAsKey [] ⟨1, by decide⟩) (encodeAsKey [] ⟨2, by decide⟩) false,
      IsVersionedKey (fun _ => 0) e.1 := by
    intro e he
    exact isVersionedKey_of_mem_soleVersion (mem_of_mem_rangeEntries _ he).1
  have hsafe := ((collect_rangeSkipScanTuple_iff (fun _ => []) hkeys).1 ⟨n, hn⟩).1
  refine hsafe.not_terminal (soleKey terminalValidity).toBytes ?_ (by decide)
    (by decide) (soleKey terminalValidity).keyValidity_toBytes
  rw [soleVersion]
  exact ExtTreeMap.mem_insert_self

/-! ### Later versions -/

/-- Versions that a reader cannot see do not matter for the others. -/
theorem currentVersions_filter_keyVisible (entries : List (Bytes × V)) :
    currentVersions validAt (entries.filter fun e => keyVisible validAt e.1) =
    currentVersions validAt entries := by
  rw [currentVersions, currentVersions, List.filter_filter]
  refine List.filter_congr fun e _ => ?_
  rw [List.any_filter]
  cases keyVisible validAt e.1 with
  | false => rfl
  | true => simp [← Bool.and_assoc]

/-- **The past stays as it is.** On stores that differ only in versions later than `validAt`, the
scans at `validAt` end with the same rows. -/
theorem skipScan_ignores_later {stored stored' : Store}
    (hk : ∀ k, k ∈ stored ∨ k ∈ stored' → lower ≤ k → k < upper → IsVersionedKey arity k)
    (hsafe : ScanSafe stored lower upper validAt) (hsafe' : ScanSafe stored' lower upper validAt)
    (hsame : ∀ k, lower ≤ k → k < upper → keyVisible validAt k = true → stored[k]? = stored'[k]?) :
    ∃ rows,
      (∃ n, (rangeSkipScanTuple stored lower upper validAt).collect fromSlice n = some (.ok rows)) ∧
      ∃ n, (rangeSkipScanTuple stored' lower upper validAt).collect fromSlice n =
      some (.ok rows) := by
  have hentries : (rangeEntries stored lower upper false).filter (fun e => keyVisible validAt e.1) =
      (rangeEntries stored' lower upper false).filter fun e => keyVisible validAt e.1 := by
    refine eq_of_pairwise_of_mem_iff ((pairwise_rangeEntries _).filter _)
      ((pairwise_rangeEntries _).filter _) fun k v => ?_
    rw [List.mem_filter, List.mem_filter, mem_rangeEntries, mem_rangeEntries]
    refine and_congr_left fun hvisible => and_congr_left fun hrange => ?_
    rw [hsame k hrange.1 hrange.2 hvisible]
  have hscan : ∀ {st : Store}, (∀ k ∈ st, k ∈ stored ∨ k ∈ stored') →
    ScanSafe st lower upper validAt → ∃ n,
      (rangeSkipScanTuple st lower upper validAt).collect fromSlice n =
        some (.ok (currentRows fromSlice validAt (rangeEntries st lower upper false))) :=
    fun {st} hsub hsafe =>
    (collect_rangeSkipScanTuple_iff fromSlice fun e he =>
      have hmem := mem_of_mem_rangeEntries st he
      hk e.1 (hsub _ hmem.1) hmem.2.1 hmem.2.2).2 ⟨hsafe, rfl⟩
  refine ⟨_, hscan (fun _ => .inl) hsafe, ?_⟩
  rw [currentRows, ← currentVersions_filter_keyVisible, hentries, currentVersions_filter_keyVisible]
  exact hscan (fun _ => .inr) hsafe'

def withLaterVersion : Store := (soleVersion ⟨3, true⟩).insert (soleKey ⟨7, true⟩).toBytes []

/-- A version from 3 on is read at 5, with a version from 7 on behind it as without it. -/
theorem skipScan_before_laterVersion : ∃ rows, rows.length = 1 ∧
    (∃ n, (rangeSkipScanTuple (soleVersion ⟨3, true⟩) (encodeAsKey [] ⟨1, by decide⟩)
      (encodeAsKey [] ⟨2, by decide⟩) 5).collect (fun _ => []) n = some (.ok rows)) ∧
    ∃ n, (rangeSkipScanTuple withLaterVersion (encodeAsKey [] ⟨1, by decide⟩)
      (encodeAsKey [] ⟨2, by decide⟩) 5).collect (fun _ => []) n = some (.ok rows) := by
  have hone : ∀ k ∈ soleVersion ⟨3, true⟩, IsVersionedKey (fun _ => 0) k := fun k =>
    isVersionedKey_of_mem_soleVersion
  have htwo : ∀ k ∈ withLaterVersion, IsVersionedKey (fun _ => 0) k := by
    intro k hk
    rcases ExtTreeMap.mem_insert.1 hk with h | h
    · exact ⟨soleKey ⟨7, true⟩, rfl, LawfulEqCmp.eq_of_compare h⟩
    · exact hone k h
  have hiff : ∀ st : Store, (∀ k ∈ st, IsVersionedKey (fun _ => 0) k) → ∀ rows,
      (∃ n, (rangeSkipScanTuple st (encodeAsKey [] ⟨1, by decide⟩) (encodeAsKey [] ⟨2, by decide⟩)
        5).collect (fun _ => []) n = some (.ok rows)) ↔ _ := fun st hst rows =>
    collect_rangeSkipScanTuple_iff (fun _ => []) fun e he =>
      hst e.1 (mem_of_mem_rangeEntries st he).1
  obtain ⟨hsafe, hrow⟩ := (hiff _ hone _).1 ⟨3, rfl⟩
  obtain ⟨hsafe', -⟩ := (hiff _ htwo _).1 ⟨4, rfl⟩
  have hsame : ∀ k, keyVisible 5 k = true → (soleVersion ⟨3, true⟩)[k]? = withLaterVersion[k]? := by
    intro k hk
    by_cases h : k = (soleKey ⟨7, true⟩).toBytes
    · exact absurd (h ▸ hk) (by decide)
    · rw [withLaterVersion, ExtTreeMap.getElem?_insert,
        if_neg fun heq => h (LawfulEqCmp.eq_of_compare heq).symm]
  obtain ⟨rows, hrows, hrows'⟩ := skipScan_ignores_later (fun _ => [])
    (fun k h _ _ => h.elim (hone k) (htwo k)) hsafe hsafe' fun k _ _ hk => hsame k hk
  refine ⟨rows, ?_, hrows, hrows'⟩
  rw [((hiff _ hone rows).1 hrows).2, ← hrow]
  rfl

end Retia
