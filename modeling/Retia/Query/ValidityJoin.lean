import Mathlib
import Retia.Data.Row
import Retia.Lib.Except
import Retia.Query.RA
import Retia.Storage.SkipScan

/-!
# Joins with a relation as it was

`StoredWithValidityRA::prefix_join` in `query/ra.rs` with the scans it uses (`skip_scan_prefix` and
`skip_scan_bounded_prefix` in `runtime/relation.rs`): for one row of the left input, the range of
keys that is scanned, the time-travel scan of it, and the filters.

What the join is due is defined by the snapshot of the whole relation: its current rows that agree
with the left row in the join columns and pass the filters (`ValidityAtom.due`). The join narrows
the range before it looks for current versions. This is harmless as long as a range has all versions
of a row or none, which is the case when the join columns end before the validity
(`joinExact_of_prefix`). When the validity is among them, or a filter bounds it, the range cuts
through the versions of a row: the newest version in the range need not be the newest one, and the
scan is sent beyond the end of the range, where the in-memory engine panics. Join columns beyond the
key are not compared at all, and with a filter they panic.

`prefixJoin_iff` states exactly when a join gives what is due: `JoinExact`.
-/

namespace Retia

open BTree VersionedKey

open Std Memcmp List

/-! ### The join of one row -/

/-- A time-travel relation, with the number of key columns before the validity. -/
structure VersionedRelation where
  rel : RelationId
  next : RelationId
  next_eq : next.id = rel.id + 1
  cols : Nat

/-- An atom that reads a relation as it was at `validAt`. A filter passes a row unless it evaluates
to `false`: errors are passed on. -/
structure ValidityAtom where
  relation : VersionedRelation
  bindings : List Symbol
  filters : List (Expr Vector)
  passes : List Value → Bool
  validAt : Int64

namespace ValidityAtom

variable (a : ValidityAtom) (fromSlice : Bytes → List Value) (stored : Store)

def keysLen : Nat := a.relation.cols + 1

/-- The bounds of the filters on the key columns after `n` join columns. The slice of the bindings
is out of range where the join columns go beyond the key. -/
def bounds (n : Nat) : Except Panic (Option (List Value × List Value)) :=
  if a.filters.isEmpty then .ok none
  else if a.keysLen < n then .error .indexOutOfBounds
  else .ok (rangeBounds a.filters ((a.bindings.take a.keysLen).drop n))

/-- The range of keys that is scanned: `skip_scan_prefix` or `skip_scan_bounded_prefix`. -/
def joinRange (pre : List Value) : Option (List Value × List Value) → Bytes × Bytes
  | none => (encodeAsKey (pre.take a.keysLen) a.relation.rel,
    encodeAsKey (pre.take a.keysLen ++ [.bot]) a.relation.rel)
  | some (lower, upper) => (encodeAsKey (pre ++ lower) a.relation.rel,
    encodeAsKey (pre ++ upper ++ [.bot]) a.relation.rel)

/-- `prefix_join` for one left row, with fuel for the scan. -/
def prefixJoin (fuel : Nat) (pre : List Value) : Option (Except Panic (List (List Value))) :=
  match a.bounds pre.length with
  | .error p => some (.error p)
  | .ok b =>
    ((rangeSkipScanTuple stored (a.joinRange pre b).1 (a.joinRange pre b).2 a.validAt).collect
      fromSlice fuel).map
      (·.map (·.filter a.passes))

def versions : List (Bytes × Bytes) :=
  rangeEntries stored (encodeAsKey [] a.relation.rel) (encodeAsKey [] a.relation.next) false

def agrees (pre row : List Value) : Bool := encodeTuple (row.take pre.length) == encodeTuple pre

/-- What the join is due: the rows of the snapshot that agree with the join columns and pass. -/
def due (pre : List Value) : List (List Value) :=
  (currentRows fromSlice a.validAt (a.versions stored)).filter fun row => agrees pre row && a.passes row

end ValidityAtom

open ValidityAtom

/-! ### Versions in a range -/

/-- There is a newer version that a reader at `validAt` can see. -/
def hasNewer (validAt : Int64) (entries : List (Bytes × Bytes)) (k : Bytes) : Bool :=
  entries.any fun d => keyVisible validAt d.1 && keyBase d.1 = keyBase k && d.1 < k

/-- The version is an assertion that a reader can see. -/
def isSeen (validAt : Int64) (k : Bytes) : Bool := keyVisible validAt k && keyIsAssert k

theorem currentRows_eq (fromSlice : Bytes → List Value) (validAt : Int64)
    (entries : List (Bytes × Bytes)) :
    currentRows fromSlice validAt entries = (entries.filter fun e =>
      isSeen validAt e.1 && !hasNewer validAt entries e.1).filterMap (rowOf fromSlice) := by
  rw [currentRows, currentVersions, filter_filter]
  congr 1
  refine filter_congr fun e _ => ?_
  simp only [isSeen, hasNewer]
  cases keyVisible validAt e.1 <;> cases keyIsAssert e.1 <;> simp

theorem filter_filterMap_rows {α β : Type} (f : α → Option β) (p : β → Bool)
    (l : List α) : (l.filterMap f).filter p = (l.filter fun a => (f a).any p).filterMap f := by
  induction l with
  | nil => rfl
  | cons a l ih =>
    cases hf : f a with
    | none => simp [hf, ih]
    | some b => cases hp : p b <;> simp [hf, hp, ih]

/-- Where different elements give different results, two selections give the same exactly if they
are the same. -/
theorem filterMap_filter_eq_filterMap_filter_iff {α β : Type} {f : α → Option β} {l : List α}
    (hf : ∀ a ∈ l, (f a).isSome = true) (hinj : l.Pairwise fun a b => f a ≠ f b) (p q : α → Bool) :
    (l.filter p).filterMap f = (l.filter q).filterMap f ↔ ∀ a ∈ l, p a = q a := by
  induction l with
  | nil => simp
  | cons a l ih =>
    rw [pairwise_cons] at hinj
    have hrest := ih (fun b hb => hf b (mem_cons_of_mem a hb)) hinj.2
    obtain ⟨x, hx⟩ := Option.isSome_iff_exists.1 (hf a mem_cons_self)
    -- the result of the head is not among the others
    have hnot : ∀ s : α → Bool, x ∉ (l.filter s).filterMap f := by
      intro s hmem
      obtain ⟨b, hb, hbx⟩ := mem_filterMap.1 hmem
      exact hinj.1 b (mem_of_mem_filter hb) (hx.trans hbx.symm)
    rw [forall_mem_cons]
    cases hp : p a <;> cases hq : q a
    · simp [hp, hq, hrest]
    · simp only [filter_cons, hp, hq, Bool.false_eq_true, if_false, if_true,
        filterMap_cons, hx, Bool.false_eq_true, false_and, iff_false]
      intro h
      exact hnot p (h ▸ mem_cons_self)
    · simp only [filter_cons, hp, hq, Bool.false_eq_true, if_false, if_true,
        filterMap_cons, hx, Bool.true_eq_false, false_and, iff_false]
      intro h
      exact hnot q (h ▸ mem_cons_self)
    · simp [hp, hq, hx, hrest]

/-! ### When the join gives what is due -/

variable {vk : VersionedKey}

section Exact

variable {a : ValidityAtom} {stored : Store} {fromSlice : Bytes → List Value}

/-- The store holds versions under the keys of the relation, and `Bot` is in none of their columns.
-/
def ValidityAtom.StoresVersions (a : ValidityAtom) (stored : Store) : Prop :=
  ∀ e ∈ a.versions stored, ∃ vk : VersionedKey, vk.rel = a.relation.rel ∧
    vk.cols.length = a.relation.cols ∧ (∀ c ∈ vk.cols, c ≠ .bot) ∧ vk.toBytes = e.1

/-- **When a join gives what is due.** -/
structure JoinExact (a : ValidityAtom) (fromSlice : Bytes → List Value)
    (stored : Store) (pre : List Value)
    (b : Option (List Value × List Value)) : Prop where
  /-- The filters are not asked for bounds beyond the key. -/
  bounds : a.bounds pre.length = .ok b
  /-- The scan stays in its range. -/
  safe : ScanSafe stored (a.joinRange pre b).1 (a.joinRange pre b).2 a.validAt
  /-- A version that is the newest in the range is the newest there is, and agrees with all join
  columns. -/
  fresh : ∀ e ∈ rangeEntries stored (a.joinRange pre b).1 (a.joinRange pre b).2 false,
    isSeen a.validAt e.1 = true → (rowOf fromSlice e).any a.passes = true →
    hasNewer a.validAt (rangeEntries stored (a.joinRange pre b).1 (a.joinRange pre b).2 false) e.1 =
      false →
      hasNewer a.validAt (a.versions stored) e.1 = false ∧ (rowOf fromSlice e).any (agrees pre) = true
  /-- No row that is due lies outside the range. -/
  complete : ∀ e ∈ a.versions stored, isSeen a.validAt e.1 = true →
    (rowOf fromSlice e).any a.passes = true →
    hasNewer a.validAt (a.versions stored) e.1 = false → (rowOf fromSlice e).any (agrees pre) = true →
      (a.joinRange pre b).1 ≤ e.1 ∧ e.1 < (a.joinRange pre b).2

theorem joinRange_within (pre : List Value) (b : Option (List Value × List Value)) {k : Bytes}
    (hlo : (a.joinRange pre b).1 ≤ k) (hhi : k < (a.joinRange pre b).2) :
    keyId k = some a.relation.rel := by
  have hrange : ∀ l u : List Value, encodeAsKey l a.relation.rel ≤ k → k < encodeAsKey u a.relation.rel →
      keyId k = some a.relation.rel := by
    intro l u hl hu
    rw [encodeAsKey] at hl hu
    obtain ⟨z, rfl⟩ := exists_append_of_le_of_le _ hl hu.le
    exact keyId_eq_some_iff.2 ⟨z, rfl⟩
  cases b with
  | none | some b => exact hrange _ _ hlo hhi

theorem rangeEntries_joinRange (pre : List Value) (b : Option (List Value × List Value)) :
    rangeEntries stored (a.joinRange pre b).1 (a.joinRange pre b).2 false =
      (a.versions stored).filter fun e =>
      decide ((a.joinRange pre b).1 ≤ e.1 ∧ e.1 < (a.joinRange pre b).2) := by
  rw [versions, rangeEntries, rangeEntries, filter_filter]
  refine filter_congr fun e _ => ?_
  rw [Bool.eq_iff_iff]
  simp only [Bool.and_eq_true, Std.isLE_compare, beq_iff_eq, compare_bytes_eq_lt_iff,
    Bool.false_and, Bool.or_false, decide_eq_true_eq]
  constructor
  · rintro ⟨hlo, hhi⟩
    have hid := joinRange_within pre b hlo hhi
    exact ⟨⟨hlo, hhi⟩, (keyId_eq_some_iff_range (length_of_keyId hid) a.relation.next_eq).1 hid⟩
  · exact fun h => h.1

theorem rowOf_toBytes (fromSlice : Bytes → List Value) (vk : VersionedKey) (v : Bytes) :
    rowOf fromSlice (vk.toBytes, v) =
    some (extendTupleFromV fromSlice (vk.cols ++ [.validity vk.vld]) v) := by
  simp [rowOf, vk.decodeTupleFromKey_toBytes]

theorem take_of_rowOf {v : Bytes} {row : List Value}
    (h : rowOf fromSlice (vk.toBytes, v) = some row) :
    row.take (vk.cols.length + 1) = vk.cols ++ [.validity vk.vld] := by
  rw [rowOf_toBytes] at h
  cases h
  unfold extendTupleFromV
  split
  · exact take_of_length_le (by simp)
  · exact take_left' (by simp)

theorem pairwise_rowOf (hs : a.StoresVersions stored) :
    (a.versions stored).Pairwise fun d e => rowOf fromSlice d ≠ rowOf fromSlice e := by
  refine (pairwise_rangeEntries stored).imp_of_mem fun {d e} hd he hlt heq => ?_
  obtain ⟨vk, hrel, hcols, -, hvk⟩ := hs d hd
  obtain ⟨wk, hrel', hcols', -, hwk⟩ := hs e he
  rcases d with ⟨kd, vd⟩
  rcases e with ⟨ke, ve⟩
  dsimp only at hvk hwk hlt
  subst hvk hwk
  have hd' := take_of_rowOf (rowOf_toBytes fromSlice vk vd)
  have he' := take_of_rowOf (heq ▸ rowOf_toBytes fromSlice vk vd)
  rw [hcols] at hd'
  rw [hcols'] at he'
  have hkey : vk.cols ++ [.validity vk.vld] = wk.cols ++ [.validity wk.vld] := hd'.symm.trans he'
  have hbytes : vk.toBytes = wk.toBytes := by
    rw [toBytes, toBytes, hkey, hrel, hrel']
  rw [hbytes] at hlt
  exact lt_irrefl _ hlt

theorem isSome_rowOf (fromSlice : Bytes → List Value) (hs : a.StoresVersions stored)
    {e : Bytes × Bytes} (he : e ∈ a.versions stored) :
    (rowOf fromSlice e).isSome = true := by
  obtain ⟨vk, -, -, -, hvk⟩ := hs e he
  rcases e with ⟨k, v⟩
  dsimp only at hvk
  subst hvk
  rw [rowOf_toBytes]
  rfl

theorem hasNewer_mono {validAt : Int64} {l m : List (Bytes × Bytes)} (hsub : l ⊆ m)
    {k : Bytes} (h : hasNewer validAt m k = false) : hasNewer validAt l k = false := by
  rw [hasNewer, any_eq_false] at h ⊢
  exact fun d hd => h d (hsub hd)

/-- **The rows of a scan and the rows due**, as selections of the versions. -/
theorem filter_currentRows_eq_due_iff (hs : a.StoresVersions stored) (pre : List Value)
    (b : Option (List Value × List Value)) :
    (currentRows fromSlice a.validAt
      (rangeEntries stored (a.joinRange pre b).1 (a.joinRange pre b).2 false)).filter a.passes =
      a.due fromSlice stored pre ↔ ∀ e ∈ a.versions stored, isSeen a.validAt e.1 = true →
      (rowOf fromSlice e).any a.passes = true →
      (((a.joinRange pre b).1 ≤ e.1 ∧ e.1 < (a.joinRange pre b).2) ∧ hasNewer a.validAt
          (rangeEntries stored (a.joinRange pre b).1 (a.joinRange pre b).2 false) e.1 = false ↔
        hasNewer a.validAt (a.versions stored) e.1 = false ∧
        (rowOf fromSlice e).any (agrees pre) = true) := by
  rw [due, currentRows_eq, currentRows_eq, filter_filterMap_rows, filter_filterMap_rows,
    filter_filter, filter_filter]
  generalize hR : rangeEntries stored (a.joinRange pre b).1 (a.joinRange pre b).2 false = R
  rw [rangeEntries_joinRange] at hR
  rw [← hR, filter_filter, filterMap_filter_eq_filterMap_filter_iff
    (fun e he => isSome_rowOf fromSlice hs he) (pairwise_rowOf hs), hR]
  refine forall₂_congr fun e he => ?_
  obtain ⟨row, hrow⟩ := Option.isSome_iff_exists.1 (isSome_rowOf fromSlice hs he)
  rw [hrow, Bool.eq_iff_iff]
  simp only [Option.any_some, Bool.and_eq_true, Bool.not_eq_true', decide_eq_true_eq]
  tauto

/-- The join of one row ends with what is due exactly if it is one of `JoinExact`. -/
theorem prefixJoin_iff (a : ValidityAtom) (fromSlice : Bytes → List Value)
    (stored : Store) (hs : a.StoresVersions stored) (pre : List Value) :
    (∃ n, a.prefixJoin fromSlice stored n pre = some (.ok (a.due fromSlice stored pre))) ↔
    ∃ b, JoinExact a fromSlice stored pre b := by
  have hkeys : ∀ b, ∀ e ∈ rangeEntries stored (a.joinRange pre b).1 (a.joinRange pre b).2 false,
      IsVersionedKey (fun _ => a.relation.cols) e.1 := by
    intro b e he
    rw [rangeEntries_joinRange] at he
    obtain ⟨vk, -, hcols, -, hvk⟩ := hs e (mem_of_mem_filter he)
    exact ⟨vk, hcols, hvk⟩
  constructor
  · rintro ⟨n, hn⟩
    unfold prefixJoin at hn
    cases hb : a.bounds pre.length with
    | error p =>
      rw [hb] at hn
      cases hn
    | ok b =>
      rw [hb] at hn
      -- the scan ends, so it is safe and gives the current rows of its range
      obtain ⟨r, hr, hmap⟩ := Option.map_eq_some_iff.1 hn
      obtain ⟨found, hfound, hfilter⟩ := except_map_eq_ok.1 hmap
      subst hfound
      obtain ⟨hsafe, hrows⟩ := (collect_rangeSkipScanTuple_iff fromSlice (hkeys b)).1 ⟨n, hr⟩
      have hiff := (filter_currentRows_eq_due_iff hs pre b).1 (hrows ▸ hfilter)
      refine ⟨b, hb, hsafe, fun e he hseen hpass hnewer => ?_, fun e he hseen hpass hnewer hagree => ?_⟩
      · rw [rangeEntries_joinRange] at he
        have hrange := of_decide_eq_true (mem_filter.1 he).2
        exact (hiff e (mem_of_mem_filter he) hseen hpass).1 ⟨hrange, hnewer⟩
      · exact ((hiff e he hseen hpass).2 ⟨hnewer, hagree⟩).1
  · rintro ⟨b, hb, hsafe, hfresh, hcomplete⟩
    obtain ⟨n, hn⟩ := (collect_rangeSkipScanTuple_iff fromSlice (hkeys b)).2 ⟨hsafe, rfl⟩
    have hsub : rangeEntries stored (a.joinRange pre b).1
      (a.joinRange pre b).2 false ⊆ a.versions stored := by
      rw [rangeEntries_joinRange]
      exact filter_subset_self _
    refine ⟨n, ?_⟩
    unfold prefixJoin
    rw [hb]
    dsimp only
    rw [hn, ← (filter_currentRows_eq_due_iff hs pre b).2 fun e he hseen hpass => ?_]
    · rfl
    constructor
    · rintro ⟨hrange, hnewer⟩
      refine hfresh e ?_ hseen hpass hnewer
      rw [rangeEntries_joinRange]
      exact mem_filter.2 ⟨he, decide_eq_true hrange⟩
    · rintro ⟨hnewer, hagree⟩
      exact ⟨hcomplete e he hseen hpass hnewer hagree, hasNewer_mono hsub hnewer⟩

end Exact

/-! ### Join columns before the validity -/

/-- **A range of keys is a beginning of rows**: the keys from `pre` up to `pre` and `Bot` are those
whose first columns are `pre`. -/
theorem toBytes_in_range_iff (hbot : ∀ c ∈ vk.cols, c ≠ .bot) {pre : List Value}
    (hwf : DataValue.WFList pre) (hlen : pre.length ≤ vk.cols.length) :
    (encodeAsKey pre vk.rel ≤ vk.toBytes ∧ vk.toBytes < encodeAsKey (pre ++ [.bot]) vk.rel) ↔
    vk.cols.take pre.length = pre := by
  have hcols : (.bot : Value) ∉ vk.cols ++ [.validity vk.vld] := by
    simpa using fun h => hbot _ h rfl
  rw [toBytes, key_in_range_iff hwf
    (WFList_append.2 ⟨vk.wf, by simp [DataValue.WFList, DataValue.WF]⟩) hcols,
    prefix_iff_eq_take, take_append_of_le_length hlen, eq_comm (a := pre)]
  exact and_iff_right rfl

section Prefix

variable {a : ValidityAtom} {stored : Store} {fromSlice : Bytes → List Value} {pre : List Value}

theorem cols_eq_of_base {wk : VersionedKey} (hrel : vk.rel = wk.rel)
    (hlen : vk.cols.length = wk.cols.length) (h : vk.base = wk.base) : vk.cols = wk.cols := by
  rw [base, base, encodeAsKey, encodeAsKey, hrel, append_cancel_left_eq] at h
  exact (encodeTuple_append_inj vk.wf wk.wf hlen (by rw [append_nil, append_nil, h])).1

theorem joinRange_of_le (hlen : pre.length ≤ a.relation.cols) :
    a.joinRange pre none = (encodeAsKey pre a.relation.rel,
      encodeAsKey (pre ++ [.bot]) a.relation.rel) := by
  have hkeys : pre.length ≤ a.keysLen := hlen.trans (Nat.le_succ _)
  rw [joinRange, take_of_length_le hkeys]

theorem in_joinRange_iff (hwf : DataValue.WFList pre) (hlen : pre.length ≤ a.relation.cols)
    (hrel : vk.rel = a.relation.rel) (hcols : vk.cols.length = a.relation.cols)
    (hbot : ∀ c ∈ vk.cols, c ≠ .bot) :
    ((a.joinRange pre none).1 ≤ vk.toBytes ∧ vk.toBytes < (a.joinRange pre none).2) ↔
    vk.cols.take pre.length = pre := by
  rw [joinRange_of_le hlen, ← hrel]
  exact toBytes_in_range_iff hbot hwf (hlen.trans_eq hcols.symm)

theorem agrees_iff (hwf : DataValue.WFList pre) (hlen : pre.length ≤ a.relation.cols)
    (hcols : vk.cols.length = a.relation.cols) (v : Bytes) :
    (rowOf fromSlice (vk.toBytes, v)).any (agrees pre) = true ↔ vk.cols.take pre.length = pre := by
  have hrow := rowOf_toBytes fromSlice vk v
  have htake : (extendTupleFromV fromSlice (vk.cols ++ [.validity vk.vld]) v).take pre.length =
      vk.cols.take pre.length := by
    have h := congrArg (List.take pre.length) (take_of_rowOf hrow)
    rwa [take_take, min_eq_left (by omega), take_append_of_le_length (by omega)] at h
  rw [hrow, Option.any_some, agrees, htake, beq_iff_eq]
  constructor
  · intro h
    have hwf' := vk.wf
    rw [← take_append_drop pre.length vk.cols, WFList_append] at hwf'
    exact (encodeTuple_append_inj hwf'.1 hwf (by simp; omega) (by rw [append_nil, append_nil, h])).1
  · intro h
    rw [h]

/-- **Join columns that end before the validity**, without filters: a range has all versions of a
row or none. -/
theorem joinExact_of_prefix (hs : a.StoresVersions stored) (hfilters : a.filters = [])
    (hwf : DataValue.WFList pre) (hlen : pre.length ≤ a.relation.cols)
    (hterminal : ∀ e ∈ a.versions stored, keyValidity e.1 ≠ some terminalValidity) :
    JoinExact a fromSlice stored pre none where
  bounds := by simp [bounds, hfilters]
  safe := by
    have hmem : ∀ k ∈ stored, (a.joinRange pre none).1 ≤ k → k < (a.joinRange pre none).2 →
        ∃ v, (k, v) ∈ a.versions stored := by
      intro k hk hlo hhi
      obtain ⟨v, hv⟩ := exists_mem_rangeEntries stored hk hlo hhi
      rw [rangeEntries_joinRange] at hv
      exact ⟨v, mem_of_mem_filter hv⟩
    refine ⟨fun _ => ?_, fun k hk hlo hhi => ?_, fun k hk hlo hhi ret nxt hcheck => ?_⟩
    · rw [joinRange_of_le hlen]
      dsimp only
      rw [encodeAsKey_append_bot]
      exact le_append_left
    · obtain ⟨v, hv⟩ := hmem k hk hlo hhi
      exact hterminal (k, v) hv
    · -- the scan goes on at another version of the row, which is in the range as well
      obtain ⟨v, hv⟩ := hmem k hk hlo hhi
      obtain ⟨vk, hrel, hcols, hbot, hvk⟩ := hs _ hv
      dsimp only at hvk
      subst hvk
      have htake := (in_joinRange_iff hwf hlen hrel hcols hbot).1 ⟨hlo, hhi⟩
      rw [vk.checkKeyForValidity_toBytes, Option.some.injEq, Prod.mk.injEq] at hcheck
      have hother : ∀ w, (vk.withVld w).toBytes ≤ (a.joinRange pre none).2 := by
        intro w
        have hrel' : (vk.withVld w).rel = a.relation.rel := hrel
        have hcols' : (vk.withVld w).cols.length = a.relation.cols := hcols
        have hbot' : ∀ c ∈ (vk.withVld w).cols, c ≠ .bot := hbot
        exact ((in_joinRange_iff hwf hlen hrel' hcols' hbot').2 htake).2.le
      rw [← hcheck.2]
      split
      · exact hother _
      · exact hother _
  fresh e he hseen hpass hnewer := by
    have hrange := he
    rw [rangeEntries_joinRange] at hrange
    obtain ⟨hmem, hin⟩ := mem_filter.1 hrange
    obtain ⟨vk, hrel, hcols, hbot, hvk⟩ := hs _ hmem
    rcases e with ⟨k, v⟩
    dsimp only at hvk hin hnewer ⊢
    subst hvk
    have htake := (in_joinRange_iff hwf hlen hrel hcols hbot).1 (of_decide_eq_true hin)
    refine ⟨?_, (agrees_iff hwf hlen hcols v).2 htake⟩
    rw [hasNewer, any_eq_false] at hnewer ⊢
    intro d hd hd'
    -- a newer version of the row would be in the range
    refine hnewer d ?_ hd'
    obtain ⟨wk, hrel', hcols', hbot', hwk⟩ := hs d hd
    simp only [Bool.and_eq_true, decide_eq_true_eq] at hd'
    have hbase : wk.base = vk.base := by
      rw [← keyBase_toBytes, ← keyBase_toBytes, hwk]
      exact hd'.1.2
    have hsame := cols_eq_of_base (hrel'.trans hrel.symm) (hcols'.trans hcols.symm) hbase
    rw [rangeEntries_joinRange]
    refine mem_filter.2 ⟨hd, decide_eq_true ?_⟩
    rw [← hwk]
    exact (in_joinRange_iff hwf hlen hrel' hcols' hbot').2 (hsame ▸ htake)
  complete e he hseen hpass hnewer hagree := by
    obtain ⟨vk, hrel, hcols, hbot, hvk⟩ := hs _ he
    rcases e with ⟨k, v⟩
    dsimp only at hvk
    subst hvk
    exact (in_joinRange_iff hwf hlen hrel hcols hbot).2 ((agrees_iff hwf hlen hcols v).1 hagree)

end Prefix

def twoVersions : Store := (soleVersion ⟨5, true⟩).insert (soleKey ⟨8, true⟩).toBytes []

/-- `*r[v @ 10]`. -/
def twoVersionsAtom : ValidityAtom where
  relation := ⟨⟨1, RelationId.one_le⟩, ⟨2, RelationId.two_le⟩, rfl, 0⟩
  bindings := ["v"]
  filters := []
  passes _ := true
  validAt := 10

theorem storesVersions_twoVersions : twoVersionsAtom.StoresVersions twoVersions := by
  rintro ⟨k, v⟩ he
  have hmem : k ∈ twoVersions := (mem_of_mem_rangeEntries twoVersions he).1
  have hkey : ∃ w, (soleKey w).toBytes = k := by
    rw [twoVersions, ExtTreeMap.mem_insert] at hmem
    rcases hmem with h | h
    · exact ⟨⟨8, true⟩, LawfulEqCmp.eq_of_compare h⟩
    · rw [soleVersion, ExtTreeMap.mem_insert] at h
      rcases h with h | h
      · exact ⟨⟨5, true⟩, LawfulEqCmp.eq_of_compare h⟩
      · exact absurd h ExtTreeMap.not_mem_empty
  obtain ⟨w, hw⟩ := hkey
  exact ⟨soleKey w, rfl, rfl, by simp [soleKey], hw⟩

def panicOf {α : Type} : Option (Except Panic α) → Option Panic
  | some (.error p) => some p
  | _ => none

end Retia
