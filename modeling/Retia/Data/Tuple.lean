import Retia.Data.Memcmp
import Retia.Lib.SeekScan

/-!
# Keys of rows, and the time-travel test of a key

`data/tuple.rs`: a row is stored under the identifier of its relation followed by its encoded key
columns. In a time-travel relation the last key column is a validity, so the versions of a row are
neighbours, newest first.

* `checkKeyForValidity` — whether the version under a key is what a reader at `validAt` gets, and
  where the reader should look next.
* `VersionedKey` — a key that ends in a validity, as structured data.
* `versionOrder` — such keys form a `VersionOrder`: a row is an interval of keys, and the two seek
  bounds of `checkKeyForValidity` are its `seek` and `last` (`checkKeyForValidity_toBytes`).
-/

namespace Retia

open DataValue

open Memcmp List

/-- `RelationId`: the constructor of the source refuses anything above `2^48`. -/
structure RelationId where
  id : Nat
  le : id ≤ 2 ^ 48
deriving DecidableEq

theorem RelationId.one_le : 1 ≤ 2 ^ 48 := by decide

theorem RelationId.two_le : 2 ≤ 2 ^ 48 := by decide

/-- `raw_decode`, which panics on a short or too large identifier. -/
def RelationId.rawDecode (src : Bytes) : Option RelationId :=
  if 8 ≤ src.length then
    if h : beNat (src.take 8) ≤ 2 ^ 48 then some ⟨beNat (src.take 8), h⟩ else none
  else none

def encodedKeyMinLen : Nat := 8

def encodeAsKey (t : List Value) (rel : RelationId) : Bytes := beBytes 8 rel.id ++ encodeTuple t

/-- The loop of `decode_tuple_from_key`. -/
def decodeColumns : Nat → Bytes → Option (List Value)
  | _, [] => some []
  | 0, _ :: _ => none
  | fuel + 1, bs@(_ :: _) => do
    let (val, next) ← decodeFromKey bs
    let vals ← decodeColumns fuel next
    some (val :: vals)

def decodeTupleFromKey (key : Bytes) : Option (List Value) :=
  if encodedKeyMinLen ≤ key.length then
    decodeColumns key.length (key.drop encodedKeyMinLen)
  else none

/-- `TERMINAL_VALIDITY`: sorts after every other validity. -/
def terminalValidity : Validity := ⟨Int64.minValue, false⟩

/-- `check_key_for_validity`. The first component is the row if the version is to be returned, the
second the inclusive lower bound of the next seek. The timestamps of the source are reversed, so its
`vld.timestamp < valid_at` says that the version is newer than the moment of reading. -/
def checkKeyForValidity (key : Bytes) (validAt : Int64) : Option (Option (List Value) × Bytes) := do
  let decoded ← decodeTupleFromKey key
  let relId ← RelationId.rawDecode key
  match decoded.getLast? with
  | some (.validity vld) =>
    let terminal := encodeAsKey (decoded.dropLast ++ [.validity terminalValidity]) relId
    if validAt < vld.timestamp then
      some (none, encodeAsKey (decoded.dropLast ++ [.validity ⟨validAt, true⟩]) relId)
    else if !vld.isAssert then some (none, terminal)
    else some (some decoded, terminal)
  | _ => none

/-! ### Keys read back -/

theorem decodeColumns_encodeTuple {l : List Value} (hl : WFList l) {fuel : Nat}
    (hfuel : l.length ≤ fuel) : decodeColumns fuel (encodeTuple l) = some l := by
  induction l generalizing fuel with
  | nil => simp [encodeTuple, decodeColumns]
  | cons v l ih =>
    rw [WFList] at hl
    cases fuel with
    | zero => simp at hfuel
    | succ fuel =>
      obtain ⟨b, bs, hb, -⟩ := encodeDatavalue_head v
      have hdec := decodeFromKey_encode hl.1 (encodeTuple l)
      rw [encodeTuple]
      rw [hb] at hdec ⊢
      simp only [cons_append] at hdec ⊢
      simp [decodeColumns, hdec, ih hl.2 (by simpa using hfuel)]

theorem length_le_length_encodeTuple (l : List Value) : l.length ≤ (encodeTuple l).length := by
  induction l with
  | nil => simp
  | cons v l ih =>
    obtain ⟨b, bs, hb, -⟩ := encodeDatavalue_head v
    rw [encodeTuple, hb, length_append, length_cons, length_cons]
    omega

theorem decodeTupleFromKey_encodeAsKey {l : List Value} (hl : WFList l) (rel : RelationId) :
    decodeTupleFromKey (encodeAsKey l rel) = some l := by
  have hlen := length_le_length_encodeTuple l
  rw [decodeTupleFromKey, encodeAsKey, if_pos (by simp [encodedKeyMinLen]),
    drop_left' (by simp [encodedKeyMinLen])]
  exact decodeColumns_encodeTuple hl (by simp; omega)

/-- **Keys are read back.** A value before any bytes is decoded bit by bit and leaves those bytes,
and the key of a row gives the row. -/
theorem decode_of_encode : (∀ v : Value, WF v →
      ∀ rest : Bytes, decodeFromKey (encodeDatavalue v ++ rest) = some (v, rest)) ∧
      ∀ t : List Value, WFList t →
      ∀ rel : RelationId, decodeTupleFromKey (encodeAsKey t rel) = some t :=
  ⟨fun _ hv rest => decodeFromKey_encode hv rest, fun _ ht rel =>
    decodeTupleFromKey_encodeAsKey ht rel⟩

/-- A list with a set, an array holding a NaN with a payload and `2^53 + 1`, before a stray byte. -/
theorem decode_of_encode_nested :
    let v : Value := .list [.set [.null, .bool true], .vec (.f32 [⟨0x7FC00001⟩]),
      .num (.int 9007199254740993)]
    decodeFromKey (encodeDatavalue v ++ [7]) = some (v, [7]) ∧
      decodeTupleFromKey (encodeAsKey [v, .str [0, 0xFF]] ⟨3, by decide⟩) =
        some [v, .str [0, 0xFF]] := by
  have hsorted : SetSorted ([.null, .bool true] : List Value) := by
    unfold SetSorted
    decide
  refine ⟨decode_of_encode.1 _ ?_ _, decode_of_encode.2 _ ?_ _⟩ <;> simp [WF, WFList, hsorted]

theorem rawDecode_encodeAsKey (l : List Value) (rel : RelationId) :
    RelationId.rawDecode (encodeAsKey l rel) = some rel := by
  have hrel : beNat (beBytes 8 rel.id) = rel.id :=
    beNat_beBytes (rel.le.trans_lt (by decide))
  rw [RelationId.rawDecode, encodeAsKey, if_pos (by simp), take_left' (by simp), dif_pos]
  · simp only [hrel]
  · rw [hrel]; exact rel.le

theorem WFList_append {l m : List Value} : WFList (l ++ m) ↔ WFList l ∧ WFList m := by
  induction l with
  | nil => simp [WFList]
  | cons v l ih => simp [WFList, ih, and_assoc]

theorem encodeTuple_append (l m : List Value) :
    encodeTuple (l ++ m) = encodeTuple l ++ encodeTuple m := by
  induction l with
  | nil => rfl
  | cons v l ih => simp [encodeTuple, ih]

/-! ### Versioned keys -/

/-- **A key that ends in a validity**, with well-formed columns in front of it. -/
structure VersionedKey where
  rel : RelationId
  cols : List Value
  vld : Validity
  wf : WFList cols

namespace VersionedKey

def base (k : VersionedKey) : Bytes := encodeAsKey k.cols k.rel

def toBytes (k : VersionedKey) : Bytes := encodeAsKey (k.cols ++ [.validity k.vld]) k.rel

def withVld (k : VersionedKey) (v : Validity) : VersionedKey := { k with vld := v }

variable (k : VersionedKey)

@[simp] theorem base_withVld (v : Validity) : (k.withVld v).base = k.base := rfl

@[simp] theorem vld_withVld (v : Validity) : (k.withVld v).vld = v := rfl

theorem toBytes_eq : k.toBytes = k.base ++ vldTag :: encodeValidity k.vld := by
  rw [toBytes, base, encodeAsKey, encodeAsKey, encodeTuple_append, ← append_assoc]
  simp [encodeTuple, encodeDatavalue]

theorem decodeTupleFromKey_toBytes :
    decodeTupleFromKey k.toBytes = some (k.cols ++ [.validity k.vld]) :=
  decodeTupleFromKey_encodeAsKey (WFList_append.2 ⟨k.wf, by simp [WFList, WF]⟩) _

theorem checkKeyForValidity_toBytes (validAt : Int64) : checkKeyForValidity k.toBytes validAt = some
      (if k.vld.timestamp ≤ validAt ∧ k.vld.isAssert then some (k.cols ++ [.validity k.vld])
      else none,
        if k.vld.timestamp ≤ validAt then (k.withVld terminalValidity).toBytes
        else (k.withVld ⟨validAt, true⟩).toBytes) := by
  rw [checkKeyForValidity, decodeTupleFromKey_toBytes]
  have hrel : RelationId.rawDecode k.toBytes = some k.rel := rawDecode_encodeAsKey _ _
  simp only [Option.bind_eq_bind, Option.bind_some, hrel, List.getLast?_concat, dropLast_concat]
  by_cases h : validAt < k.vld.timestamp
  · have h' : ¬ k.vld.timestamp ≤ validAt := Int64.not_le.2 h
    simp [h, h', toBytes, withVld]
  · have h' : k.vld.timestamp ≤ validAt := Int64.not_lt.1 h
    cases hb : k.vld.isAssert <;> simp [h, h', toBytes, withVld]

theorem toBytes_withVld_lt_iff (v w : Validity) :
    (k.withVld v).toBytes < (k.withVld w).toBytes ↔ compare v w = .lt := by
  rw [toBytes_eq, toBytes_eq, base_withVld, base_withVld, append_lt_append_iff, ← encodeValidity_lt_iff]
  simp

theorem lt_toBytes_withVld_iff (v : Validity) : k.toBytes < (k.withVld v).toBytes ↔
    compare k.vld v = .lt :=
  k.toBytes_withVld_lt_iff k.vld v

end VersionedKey

/-- A versioned key of a database in which relation `r` has `arity r` columns before the validity.
-/
def IsVersionedKey (arity : RelationId → Nat) (k : Bytes) : Prop :=
  ∃ vk : VersionedKey, vk.cols.length = arity vk.rel ∧ vk.toBytes = k

def keyBase (k : Bytes) : Bytes := k.take (k.length - 10)

def keyValidity (k : Bytes) : Option Validity := (decodeValidity (k.drop (k.length - 9))).map (·.1)

/-- The version under the key is visible to a reader at `validAt`. -/
def keyVisible (validAt : Int64) (k : Bytes) : Bool :=
  (keyValidity k).any fun v => v.timestamp ≤ validAt

namespace VersionedKey

variable (k : VersionedKey)

@[simp] theorem keyBase_toBytes : keyBase k.toBytes = k.base := by
  rw [keyBase, toBytes_eq]
  exact take_left' (by simp [length_encodeValidity])

@[simp] theorem keyValidity_toBytes : keyValidity k.toBytes = some k.vld := by
  have hdrop : k.toBytes.drop (k.toBytes.length - 9) = encodeValidity k.vld := by
    rw [toBytes_eq, show k.base ++ vldTag :: encodeValidity k.vld =
      (k.base ++ [vldTag]) ++ encodeValidity k.vld by simp]
    exact drop_left' (by simp [length_encodeValidity])
  have hdec := decodeValidity_encodeValidity k.vld []
  rw [append_nil] at hdec
  rw [keyValidity, hdrop, hdec]
  rfl

@[simp] theorem keyVisible_toBytes (validAt : Int64) (k : VersionedKey) :
    keyVisible validAt k.toBytes = decide (k.vld.timestamp ≤ validAt) := by
  rw [keyVisible, keyValidity_toBytes, Option.any_some]

theorem toBytes_withVld (v : Validity) :
    (k.withVld v).toBytes = keyBase k.toBytes ++ vldTag :: encodeValidity v := by
  rw [toBytes_eq, keyBase_toBytes]
  rfl

theorem row_eq_of_append_eq {arity : RelationId → Nat} {k l : VersionedKey}
    (hk : k.cols.length = arity k.rel) (hl : l.cols.length = arity l.rel) {x y : Bytes}
    (h : k.base ++ x = l.base ++ y) : k.rel = l.rel ∧ k.cols = l.cols := by
  simp only [base, encodeAsKey, append_assoc] at h
  obtain ⟨hid, hrest⟩ := append_inj h (by simp)
  have hrel : k.rel = l.rel := by
    have hid := congrArg beNat hid
    rw [beNat_beBytes (k.rel.le.trans_lt (by decide)),
      beNat_beBytes (l.rel.le.trans_lt (by decide))] at hid
    cases hk' : k.rel; cases hl' : l.rel
    simp_all
  have hlen : k.cols.length = l.cols.length := by rw [hk, hl, hrel]
  exact ⟨hrel, (encodeTuple_append_inj k.wf l.wf hlen hrest).1⟩

theorem base_eq_of_append_eq {arity : RelationId → Nat} {k l : VersionedKey}
    (hk : k.cols.length = arity k.rel) (hl : l.cols.length = arity l.rel)
    {x y : Bytes} (h : k.base ++ x = l.base ++ y) : k.base = l.base := by
  obtain ⟨hrel, hcols⟩ := row_eq_of_append_eq hk hl h
  rw [base, base, hrel, hcols]

end VersionedKey

/-- A version sorts before the seek bound of a reader exactly when it is too new for the reader. -/
theorem compare_assert_eq_lt_iff (v : Validity) (validAt : Int64) :
    compare v ⟨validAt, true⟩ = .lt ↔ validAt < v.timestamp := by
  rw [Validity.compare_def, Ordering.then_eq_lt, Std.compare_eq_lt, or_iff_left_iff_imp]
  rintro ⟨-, h⟩
  change compare true v.isAssert = .lt at h
  cases hb : v.isAssert <;> rw [hb] at h <;> cases h

theorem compare_terminalValidity_ne_lt (v : Validity) : compare terminalValidity v ≠ .lt := by
  rw [Validity.compare_def, ne_eq, Ordering.then_eq_lt, not_or, not_and]
  constructor
  · rw [Std.compare_eq_lt]
    exact Int64.not_lt.2 (Int64.minValue_le _)
  · intro _
    cases v.isAssert <;> decide

/-- **The versioned keys of a database as a version order**, for a reader at `validAt`. -/
def versionOrder (arity : RelationId → Nat) (validAt : Int64) : VersionOrder Bytes Bytes where
  IsKey := IsVersionedKey arity
  group := keyBase
  visible := keyVisible validAt
  seek k := keyBase k ++ vldTag :: encodeValidity ⟨validAt, true⟩
  last k := keyBase k ++ vldTag :: encodeValidity terminalValidity
  convex := by
    rintro _ _ _ ⟨a, ha, rfl⟩ ⟨b, hb, rfl⟩ ⟨c, hc, rfl⟩ hab hbc hg
    simp only [VersionedKey.keyBase_toBytes] at hg ⊢
    rw [a.toBytes_eq] at hab
    rw [c.toBytes_eq, ← hg] at hbc
    obtain ⟨z, hz⟩ := exists_append_of_le_of_le a.base hab hbc
    rw [b.toBytes_eq] at hz
    exact VersionedKey.base_eq_of_append_eq hb ha hz
  isKey_seek := by
    rintro _ ⟨a, ha, rfl⟩
    exact ⟨a.withVld ⟨validAt, true⟩, ha, a.toBytes_withVld _⟩
  group_seek := by
    rintro _ ⟨a, ha, rfl⟩
    rw [← a.toBytes_withVld]
    simp
  seek_congr := by
    intro a b _ _ hg
    rw [hg]
  visible_iff := by
    rintro _ ⟨a, ha, rfl⟩
    rw [VersionedKey.keyVisible_toBytes, ← a.toBytes_withVld, ← not_lt, a.lt_toBytes_withVld_iff,
      compare_assert_eq_lt_iff, decide_eq_true_iff, Int64.not_lt]
  isKey_last := by
    rintro _ ⟨a, ha, rfl⟩
    exact ⟨a.withVld terminalValidity, ha, a.toBytes_withVld _⟩
  group_last := by
    rintro _ ⟨a, ha, rfl⟩
    rw [← a.toBytes_withVld]
    simp
  last_congr := by
    intro a b _ _ hg
    rw [hg]
  le_last := by
    rintro _ ⟨a, ha, rfl⟩
    rw [← a.toBytes_withVld, ← not_lt]
    exact fun h => compare_terminalValidity_ne_lt a.vld ((a.toBytes_withVld_lt_iff _ a.vld).1 h)

theorem nxt_toBytes (arity : RelationId → Nat) (validAt : Int64) (k : VersionedKey) :
    (versionOrder arity validAt).nxt k.toBytes =
      if k.vld.timestamp ≤ validAt then (k.withVld terminalValidity).toBytes
      else (k.withVld ⟨validAt, true⟩).toBytes := by
  rw [k.toBytes_withVld, k.toBytes_withVld, VersionOrder.nxt]
  simp only [versionOrder, VersionedKey.keyVisible_toBytes, decide_eq_true_iff]

theorem lt_nxt_toBytes_iff (arity : RelationId → Nat) (validAt : Int64) (k : VersionedKey) :
    k.toBytes < (versionOrder arity validAt).nxt k.toBytes ↔ k.vld ≠ terminalValidity := by
  rw [nxt_toBytes]
  split
  case isTrue h =>
    rw [k.lt_toBytes_withVld_iff]
    constructor
    · intro hlt heq
      rw [heq] at hlt
      exact compare_terminalValidity_ne_lt _ hlt
    · intro hne
      cases hcmp : compare k.vld terminalValidity with
      | lt => rfl
      | eq => exact absurd (Std.LawfulEqCmp.eq_of_compare hcmp) hne
      | gt =>
        rw [Std.OrientedCmp.gt_iff_lt] at hcmp
        exact absurd hcmp (compare_terminalValidity_ne_lt _)
  case isFalse h =>
    rw [k.lt_toBytes_withVld_iff, compare_assert_eq_lt_iff]
    refine iff_of_true (Int64.not_le.1 h) ?_
    rintro heq
    exact h (heq ▸ Int64.minValue_le _)

end Retia
