import Mathlib
import Retia.Lib.Serial
import Retia.Query.Stored

/-!
# A serialiser of metadata and rows

Sessions rest on a serialisation library of which they use the round trip only. `codec` is one: it
writes metadata field by field, and rows as they are written in keys. `plainEngine` adds the
simplest of everything else, so that sessions can be run on fixed inputs: values are coerced by
their kind alone, extractors are names of columns, and texts are split at blanks.
-/

namespace Retia

namespace Session

open Serial

/-! ### Column types -/

def vecElementTypeSerial : Serial VecElementType :=
  bool.via (fun t => t = .f64) (fun b => some (if b then .f64 else .f32)) (by rintro (_ | _) <;> rfl)

mutual

def colTypeDepth : ColType → Nat
  | .list eltype _ => nullableDepth eltype + 1
  | .tuple types => maxDepth types + 1
  | _ => 0

def nullableDepth : NullableColType → Nat
  | .mk coltype _ => colTypeDepth coltype

def maxDepth : List NullableColType → Nat
  | [] => 0
  | t :: ts => max (nullableDepth t) (maxDepth ts)

end

mutual

def encColType : ColType → Bytes
  | .any => [0]
  | .bool => [1]
  | .int => [2]
  | .float => [3]
  | .string => [4]
  | .bytes => [5]
  | .uuid => [6]
  | .list eltype len => 7 :: (encNullable eltype ++ nat.option.enc len)
  | .vec eltype len => 8 :: (vecElementTypeSerial.enc eltype ++ encNat len)
  | .tuple types => 9 :: (encNat types.length ++ encNullables types)
  | .validity => [10]
  | .json => [11]

def encNullable : NullableColType → Bytes
  | .mk coltype nullable => encColType coltype ++ bool.enc nullable

def encNullables : List NullableColType → Bytes
  | [] => []
  | t :: ts => encNullable t ++ encNullables ts

end

section Decode

variable (dec : Bytes → Option (ColType × Bytes))

def decNullable (bs : Bytes) : Option (NullableColType × Bytes) :=
  (dec bs).bind fun r => (bool.dec r.2).map fun r' => (.mk r.1 r'.1, r'.2)

def decNullables : Nat → Bytes → Option (List NullableColType × Bytes)
  | 0, bs => some ([], bs)
  | n + 1, bs => (decNullable dec bs).bind fun r =>
    (decNullables n r.2).map fun r' => (r.1 :: r'.1, r'.2)

end Decode

def decColType : Nat → Bytes → Option (ColType × Bytes)
  | _, [] => none
  | depth, tag :: bs =>
    match tag.toNat, depth with
    | 0, _ => some (.any, bs)
    | 1, _ => some (.bool, bs)
    | 2, _ => some (.int, bs)
    | 3, _ => some (.float, bs)
    | 4, _ => some (.string, bs)
    | 5, _ => some (.bytes, bs)
    | 6, _ => some (.uuid, bs)
    | 7, depth + 1 => (decNullable (decColType depth) bs).bind fun r =>
      (nat.option.dec r.2).map fun r' => (.list r.1 r'.1, r'.2)
    | 8, _ => (vecElementTypeSerial.dec bs).bind fun r =>
      (decNat r.2).map fun r' => (.vec r.1 r'.1, r'.2)
    | 9, depth + 1 => (decNat bs).bind fun r =>
      (decNullables (decColType depth) r.1 r.2).map fun r' => (.tuple r'.1, r'.2)
    | 10, _ => some (.validity, bs)
    | 11, _ => some (.json, bs)
    | _, _ => none

mutual

theorem decColType_encColType (t : ColType) {depth : Nat} (h : colTypeDepth t ≤ depth)
    (rest : Bytes) : decColType depth (encColType t ++ rest) = some (t, rest) := by
  cases t with
  | list eltype len =>
    obtain ⟨d, rfl⟩ : ∃ d, depth = d + 1 := ⟨depth - 1, by rw [colTypeDepth] at h; omega⟩
    rw [colTypeDepth] at h
    simp [encColType, decColType, decNullable_encNullable eltype (Nat.le_of_succ_le_succ h),
      Serial.dec_enc]
  | tuple types =>
    obtain ⟨d, rfl⟩ : ∃ d, depth = d + 1 := ⟨depth - 1, by rw [colTypeDepth] at h; omega⟩
    rw [colTypeDepth] at h
    have hlen : ∀ rest, decNat (encNat types.length ++ rest) = some (types.length, rest) :=
      fun rest => nat.dec_enc _ _
    simp [encColType, decColType, hlen, decNullables_encNullables types (Nat.le_of_succ_le_succ h)]
  | vec eltype len =>
    have hlen : ∀ rest, decNat (encNat len ++ rest) = some (len, rest) := fun rest => nat.dec_enc _ _
    cases depth <;> simp [encColType, decColType, hlen, Serial.dec_enc]
  | _ => cases depth <;> simp [encColType, decColType]

theorem decNullable_encNullable (t : NullableColType) {depth : Nat} (h : nullableDepth t ≤ depth)
    (rest : Bytes) : decNullable (decColType depth) (encNullable t ++ rest) = some (t, rest) := by
  cases t with
  | mk coltype nullable =>
    rw [nullableDepth] at h
    simp [encNullable, decNullable, decColType_encColType coltype h, Serial.dec_enc]

theorem decNullables_encNullables (ts : List NullableColType) {depth : Nat}
    (h : maxDepth ts ≤ depth) (rest : Bytes) :
    decNullables (decColType depth) ts.length (encNullables ts ++ rest) = some (ts, rest) := by
  cases ts with
  | nil => rfl
  | cons t ts =>
    rw [maxDepth] at h
    simp [encNullables, decNullables, decNullable_encNullable t ((le_max_left _ _).trans h),
      decNullables_encNullables ts ((le_max_right _ _).trans h)]

end

def nullableColTypeSerial : Serial NullableColType where
  enc t := encNat (nullableDepth t) ++ encNullable t
  dec bs := (decNat bs).bind fun r => decNullable (decColType r.1) r.2
  dec_enc t rest := by
    rw [List.append_assoc, show decNat (encNat _ ++ _) = _ from nat.dec_enc _ _,
      Option.bind_some, decNullable_encNullable t le_rfl]

/-! ### Metadata -/

def columnDefSerial : Serial ColumnDef :=
  (string.pair (nullableColTypeSerial.pair string.option)).via
    (fun c => (c.name, c.typing, c.defaultGen)) (fun p => some ⟨p.1, p.2.1, p.2.2⟩) (fun _ => rfl)

def metadataSerial : Serial StoredRelationMetadata :=
  (columnDefSerial.list.pair columnDefSerial.list).via (fun m => (m.keys, m.nonKeys))
    (fun p => some ⟨p.1, p.2⟩) (fun _ => rfl)

def relationIdSerial : Serial RelationId :=
  (fixed 8).via (fun r => ⟨r.id, r.le.trans_lt (by decide)⟩)
    (fun n => if h : n.1 ≤ 2 ^ 48 then some ⟨n.1, h⟩ else none) (fun r => dif_pos r.le)

def rowSerial : Serial Row :=
  bytes.via (fun t => t.key RelationId.system) Row.ofKey (fun t => Row.ofKey_key t _)

def tokenizerConfigSerial : Serial TokenizerConfig :=
  (string.pair rowSerial).via (fun c => (c.name, c.args)) (fun p => some ⟨p.1, p.2⟩) (fun _ => rfl)

def ftsIndexManifestSerial : Serial FtsIndexManifest :=
  (string.pair (string.pair (string.pair (tokenizerConfigSerial.pair tokenizerConfigSerial.list)))).via
    (fun m => (m.baseRelation, m.indexName, m.extractor, m.tokenizer, m.filters))
    (fun p => some ⟨p.1, p.2.1, p.2.2.1, p.2.2.2.1, p.2.2.2.2⟩) (fun _ => rfl)

def f64Serial : Serial F64 :=
  (fixed 8).via (fun f => ⟨f.bits.toNat, f.bits.isLt⟩) (fun n => some ⟨BitVec.ofNat 64 n.1⟩)
    (fun f => by simp)

def minHashLshIndexManifestSerial : Serial MinHashLshIndexManifest :=
  (ftsIndexManifestSerial.pair (nat.pair (nat.pair (nat.pair (nat.pair (f64Serial.pair bytes)))))).via
    (fun m => (⟨m.baseRelation, m.indexName, m.extractor, m.tokenizer, m.filters⟩,
      m.nGram, m.numPerm, m.nBands, m.nRowsInBand, m.threshold, m.perms))
    (fun p => some ⟨p.1.baseRelation, p.1.indexName, p.1.extractor, p.2.1, p.1.tokenizer, p.1.filters,
      p.2.2.1, p.2.2.2.1, p.2.2.2.2.1, p.2.2.2.2.2.1, p.2.2.2.2.2.2⟩) (fun _ => rfl)

def hnswDistanceSerial : Serial HnswDistance :=
  nat.via (fun | .l2 => 0 | .innerProduct => 1 | .cosine => 2)
    (fun | 0 => some .l2 | 1 => some .innerProduct | _ => some .cosine) (by rintro (_ | _ | _) <;> rfl)

def hnswIndexManifestSerial : Serial HnswIndexManifest :=
  ((string.pair (string.pair (nat.pair
    (vecElementTypeSerial.pair (nat.list.pair hnswDistanceSerial))))).pair
    (nat.pair (nat.pair (nat.pair (nat.pair (string.option.pair (bool.pair bool))))))).via
    (fun m => ((m.baseRelation, m.indexName, m.vecDim, m.dtype, m.vecFields, m.distance),
      m.efConstruction, m.mNeighbours, m.mMax, m.mMax0, m.indexFilter, m.extendCandidates,
      m.keepPrunedConnections))
    (fun p => some ⟨p.1.1, p.1.2.1, p.1.2.2.1, p.1.2.2.2.1, p.1.2.2.2.2.1, p.1.2.2.2.2.2, p.2.1, p.2.2.1,
      p.2.2.2.1, p.2.2.2.2.1, p.2.2.2.2.2.1, p.2.2.2.2.2.2.1, p.2.2.2.2.2.2.2⟩) (fun _ => rfl)

def indexRelationSerial : Serial IndexRelation :=
  (string.pair (relationIdSerial.pair (metadataSerial.pair bool))).via
    (fun r => (r.name, r.id, r.metadata, r.isTemp)) (fun p => some ⟨p.1, p.2.1, p.2.2.1, p.2.2.2⟩)
    (fun _ => rfl)

def accessLevelSerial : Serial AccessLevel :=
  nat.via AccessLevel.level
    (fun | 0 => some .hidden | 1 => some .readOnly | 2 => some .guarded | _ => some .normal)
    (by rintro (_ | _ | _ | _) <;> rfl)

def relationHandleSerial : Serial RelationHandle :=
  ((indexRelationSerial.pair (string.list.pair
    (string.list.pair (string.list.pair (accessLevelSerial.pair string))))).pair
    ((string.pair (indexRelationSerial.pair nat.list)).list.pair
    ((string.pair (indexRelationSerial.pair hnswIndexManifestSerial)).list.pair
    ((string.pair (indexRelationSerial.pair ftsIndexManifestSerial)).list.pair
    (string.pair (indexRelationSerial.pair
      (indexRelationSerial.pair minHashLshIndexManifestSerial))).list)))).via
    (fun h => ((h.toIndexRelation, h.putTriggers, h.rmTriggers, h.replaceTriggers, h.accessLevel,
      h.description), h.indices, h.hnswIndices, h.ftsIndices, h.lshIndices))
    (fun p => some ⟨p.1.1, p.1.2.1, p.1.2.2.1, p.1.2.2.2.1, p.1.2.2.2.2.1, p.2.1,
      p.2.2.1, p.2.2.2.1, p.2.2.2.2, p.1.2.2.2.2.2⟩) (fun _ => rfl)

def codec : Serde where
  encodeHandle := relationHandleSerial.enc
  decodeHandle bs := (relationHandleSerial.dec bs).map Prod.fst
  decode_encodeHandle h := by
    have := relationHandleSerial.dec_enc h []
    rw [List.append_nil] at this
    rw [this]
    rfl
  encodeVals t := t.key RelationId.system
  decodeVals := Row.ofKey
  decode_encodeVals t := Row.ofKey_key t _

/-! ### An engine -/

def hasKind : ColType → Value → Bool
  | .any, _ => true
  | .bool, .bool _ => true
  | .int, .num (.int _) => true
  | .float, .num (.float _) => true
  | .string, .str _ => true
  | .bytes, .bytes _ => true
  | .validity, .validity _ => true
  | _, _ => false

def plainCoerce : NullableColType → Datum → Int64 → Except SessionError Datum
  | .mk coltype nullable, v, _ =>
    match v.1 with
    | .null => if nullable then .ok v else .error (.coercion (.mk coltype nullable) v)
    | w => if hasKind coltype w then .ok v else .error (.coercion (.mk coltype nullable) v)

def splitWords (text : Bytes) : List Token :=
  ((text.splitOn 32).filter (· ≠ [])).zipIdx.map fun (word, i) => ⟨word, 0, 0, i⟩

def plainEngine : Engine where
  toSerde := codec
  coerce := plainCoerce
  evalToConst _ := .ok .null
  compileExtractor code columns :=
    match columns code with
    | none => .error (.bail "unbound variable")
    | some i => .ok fun row => .ok (row.getD i .null)
  configHash analyzer := strBytes analyzer.tokenizer.name
  build _ := .ok ()
  tokenStream _ text := splitWords text
  minHashText _ _ text := text
  minHashList _ _ := []
  hnswPut _ _ _ _ _ _ := ([], none)
  hnswRemove _ _ _ _ := ([], none)

def plainDb : Db where
  toEngine := plainEngine
  parseTrigger _ _ := .error (.bail "no triggers")
  callbackTargets := []
  curVld := 0

end Session

end Retia
