import Mathlib
import Retia.Lib.Effect
import Retia.Data.Row
import Retia.Data.Relation
import Retia.Data.Expr
import Retia.Storage.Scan
import Retia.Storage.Mem

/-!
# Sessions and the catalogue of relations

`runtime/transact.rs` and `runtime/relation.rs`. A session holds a transaction on the persistent
store and a map of its own for temporary relations, those whose name starts with an underscore. Both
are laid out alike: the metadata of a relation stands under the system relation at its name, its
rows under its own identifier. Persistent identifiers come from a counter that all sessions of the
database share and that lives in memory; its last value is also written into the store, where a
database finds it when it is opened.

* `SessionTx`, `SessionM` — the state of a session, and computations on it. A computation that fails
  keeps what it has done so far: undoing is left to whoever owns the transaction.
* `RelationHandle` — the metadata of a relation, with its triggers and its four kinds of indices.
* `createRelation`, `getRelation`, `destroyRelation`, `renameRelation`, … — the catalogue
  operations, each with the store it reads and the store it writes, which are not always the same
  one.

Metadata and the value columns of rows are written by a serialisation library of the source. It is a
parameter, `Serde`, of which only the round trip is assumed.
-/

namespace Retia

inductive AccessLevel where
  | hidden | readOnly | guarded | normal
deriving DecidableEq

def AccessLevel.level : AccessLevel → Nat
  | hidden => 0 | readOnly => 1 | guarded => 2 | normal => 3

def RelationId.system : RelationId := ⟨0, by decide⟩

/-- `next`, which panics past the largest identifier. -/
def RelationId.next (r : RelationId) : Except StoreError RelationId :=
  if h : r.id + 1 ≤ 2 ^ 48 then .ok ⟨r.id + 1, h⟩ else .error (.panic .unreachable)

/-- Where the metadata of a relation is stored. -/
def metaKey (name : String) : Bytes := encodeAsKey [.str (strBytes name)] RelationId.system

namespace Session

/-! ### Handles -/

structure TokenizerConfig where
  name : String
  args : List Datum

structure FtsIndexManifest where
  baseRelation : String
  indexName : String
  extractor : String
  tokenizer : TokenizerConfig
  filters : List TokenizerConfig

structure MinHashLshIndexManifest where
  baseRelation : String
  indexName : String
  extractor : String
  nGram : Nat
  tokenizer : TokenizerConfig
  filters : List TokenizerConfig
  numPerm : Nat
  nBands : Nat
  nRowsInBand : Nat
  threshold : F64
  perms : Bytes

inductive HnswDistance where
  | l2 | innerProduct | cosine
deriving DecidableEq

structure HnswIndexManifest where
  baseRelation : String
  indexName : String
  vecDim : Nat
  dtype : VecElementType
  vecFields : List Nat
  distance : HnswDistance
  efConstruction : Nat
  mNeighbours : Nat
  mMax : Nat
  mMax0 : Nat
  indexFilter : Option String
  extendCandidates : Bool
  keepPrunedConnections : Bool

/-- The handle of an index relation inside the handle of its base relation. Its triggers, its access
level and its own indices are never read there. -/
structure IndexRelation where
  name : String
  id : RelationId
  metadata : StoredRelationMetadata
  isTemp : Bool

structure RelationHandle extends IndexRelation where
  putTriggers : List String
  rmTriggers : List String
  replaceTriggers : List String
  accessLevel : AccessLevel
  /-- Plain indices, with the position in the base row of each of their columns. -/
  indices : List (String × IndexRelation × List Nat)
  hnswIndices : List (String × IndexRelation × HnswIndexManifest)
  ftsIndices : List (String × IndexRelation × FtsIndexManifest)
  /-- Each with its inverse relation, from keys to the hashes of a row. -/
  lshIndices : List (String × IndexRelation × IndexRelation × MinHashLshIndexManifest)
  description : String

/-- What a statement says about the relation it writes to. -/
structure InputRelationHandle where
  name : String
  metadata : StoredRelationMetadata
  keyBindings : List Symbol
  depBindings : List Symbol

/-- The names of temporary relations, `is_temp_store_name`. -/
def isTempStoreName (name : String) : Bool := name.toList.head? == some '_'

/-- Insertion into a map from names, as a list in order. -/
def insertByName {α : Type} (name : String) (a : α) : List (String × α) → List (String × α)
  | [] => [(name, a)]
  | (n, b) :: rest =>
    if name < n then (name, a) :: (n, b) :: rest
    else if name = n then (name, a) :: rest
    else (n, b) :: insertByName name a rest

def containsName {α : Type} (name : String) (l : List (String × α)) : Bool := l.any (·.1 == name)

def removeName {α : Type} (name : String) (l : List (String × α)) : List (String × α) :=
  l.filter (·.1 != name)

namespace RelationHandle

def hasIndex (h : RelationHandle) (indexName : String) : Bool :=
  containsName indexName h.indices || containsName indexName h.hnswIndices ||
    containsName indexName h.ftsIndices || containsName indexName h.lshIndices

def hasNoIndex (h : RelationHandle) : Bool :=
  h.indices.isEmpty && h.hnswIndices.isEmpty && h.ftsIndices.isEmpty && h.lshIndices.isEmpty

def hasTriggers (h : RelationHandle) : Bool := !h.putTriggers.isEmpty || !h.rmTriggers.isEmpty

end RelationHandle

/-! ### State and errors of a session -/

inductive SessionError where
  | store (e : StoreError)
  /-- "Cannot find requested stored relation '…'". -/
  | storedRelationNotFound (name : String)
  /-- "Cannot deserialize relation". -/
  | relationDeser
  /-- "Cannot create relation … as one with the same name already exists". -/
  | relNameConflict (name : String)
  /-- "Insufficient access level … for … on stored relation '…'". -/
  | insufficientAccessLevel (relation operation : String) (level : AccessLevel)
  /-- "Arity mismatch for stored relation …: expect …, got …". -/
  | storedRelArityMismatch (name : String) (expectArity actualArity : Nat)
  /-- "index … for relation … already exists". -/
  | indexAlreadyExists (index relation : String)
  /-- "column … in index … for relation … not found". -/
  | colInIndexNotFound (column index relation : String)
  /-- "index … for relation … not found". -/
  | indexNotFound (index relation : String)
  /-- "Assertion failure for … of …: …". -/
  | transactAssertionFailure (relation : String) (key : Row) (notice : String)
  /-- "replace op in trigger is not allowed: …". -/
  | replaceInTrigger (name : String)
  /-- "cannot replace relation … since it has indices". -/
  | replaceRelationWithIndices (name : String)
  /-- "Stored relation … conflicts with an existing one". -/
  | storeRelationConflict (name : String)
  /-- "Stored relation … not found". -/
  | storeRelationNotFound (name : String)
  /-- "cannot make extractor for column …". -/
  | unableToMakeExtractor (name : String)
  | column (e : ColumnError)
  /-- The value could not be coerced to the type of the column. -/
  | coercion (typing : NullableColType) (v : Datum)
  /-- "FTS index extractor must return a string, got …". -/
  | ftsExtract (v : Datum)
  /-- "Cannot put value … into a LSH index". -/
  | lshPut (v : Datum)
  /-- Any other refusal, by its text. -/
  | bail (msg : String)
  | panic (p : Panic)

structure TextAnalyzer where
  tokenizer : TokenizerConfig
  filters : List TokenizerConfig

/-- Tokenizers already built, by the name they were asked for under and by the hash of their
configuration. -/
structure TokenizerCache where
  namedCache : Std.ExtTreeMap String TextAnalyzer
  hashedCache : Std.ExtTreeMap Bytes TextAnalyzer

inductive CallbackOp where
  | put | rm
deriving DecidableEq

/-- The rows of one mutation: for a put the new and the replaced rows, for a removal the keys asked
for and the removed rows. -/
structure CallbackEvent where
  relation : String
  op : CallbackOp
  new : List Row
  old : List Row

/-- A session. The counter of identifiers and the tokenizers belong to the database. The collector
of mutations is handed along with the session by whoever runs statements in it. -/
structure SessionTx where
  storeTx : MemTx
  tempStoreTx : Store
  relationStoreId : Nat
  tempStoreId : Nat
  tokenizers : TokenizerCache
  callbackCollector : List CallbackEvent

abbrev SessionM := EStateM SessionError SessionTx

namespace SessionM

def attempt {α : Type} : Except SessionError α → SessionM α
  | .ok a => pure a
  | .error e => throw e

/-- `bail!` under a condition. -/
def bailIf (c : Bool) (e : SessionError) : SessionM Unit := if c then throw e else pure ()

/-- A step that is taken under a condition, and its value otherwise. -/
def runOr {α : Type} (c : Bool) (m : SessionM α) (otherwise : α) : SessionM α :=
  if c then m else pure otherwise

def runIf (c : Bool) (m : SessionM Unit) : SessionM Unit := runOr c m ()

def storeOp (f : MemTx → Except StoreError MemTx) : SessionM Unit := fun s =>
  match f s.storeTx with
  | .ok tx => .ok () { s with storeTx := tx }
  | .error e => .error (.store e) s

def storePut (k v : Bytes) : SessionM Unit := storeOp (MemTx.put k v)

def storeDel (k : Bytes) : SessionM Unit := storeOp (MemTx.del k)

def storeGet (k : Bytes) : SessionM (Option Bytes) := do
  pure ((← get).storeTx.get k)

def storeExists (k : Bytes) : SessionM Bool := do
  pure ((← get).storeTx.keyExists k)

def setTokenizers (tokenizers : TokenizerCache) : SessionM Unit :=
  modify fun s => { s with tokenizers }

def tempPut (k v : Bytes) : SessionM Unit :=
  modify fun s => { s with tempStoreTx := s.tempStoreTx.insert k v }

def tempDel (k : Bytes) : SessionM Unit :=
  modify fun s => { s with tempStoreTx := s.tempStoreTx.erase k }

def tempGet (k : Bytes) : SessionM (Option Bytes) := do
  pure (← get).tempStoreTx[k]?

def tempExists (k : Bytes) : SessionM Bool := do
  pure ((← get).tempStoreTx.contains k)

/-- The four operations on the store a relation lives in. -/
def putIn (isTemp : Bool) (k v : Bytes) : SessionM Unit :=
  if isTemp then tempPut k v else storePut k v

def delIn (isTemp : Bool) (k : Bytes) : SessionM Unit :=
  if isTemp then tempDel k else storeDel k

def getIn (isTemp : Bool) (k : Bytes) : SessionM (Option Bytes) :=
  if isTemp then tempGet k else storeGet k

def existsIn (isTemp : Bool) (k : Bytes) : SessionM Bool :=
  if isTemp then tempExists k else storeExists k

end SessionM

open SessionM

def RelationHandle.requireLevel (h : RelationHandle) (needed : AccessLevel)
    (operation : String) : SessionM Unit :=
  bailIf (h.accessLevel.level < needed.level) (.insufficientAccessLevel h.name operation h.accessLevel)

/-! ### Keys and values of rows -/

/-- The serialisation library, for metadata and for the value columns of rows. -/
structure Serde where
  encodeHandle : RelationHandle → Bytes
  decodeHandle : Bytes → Option RelationHandle
  decode_encodeHandle : ∀ h, decodeHandle (encodeHandle h) = some h
  encodeVals : Row → Bytes
  decodeVals : Bytes → Option Row
  decode_encodeVals : ∀ t, decodeVals (encodeVals t) = some t

mutual

/-- Whether there is a regular expression in the value, at any depth. -/
def hasRegex : Value → Bool
  | .regex _ => true
  | .list l => anyRegex l
  | .set l => anyRegex l
  | _ => false

def anyRegex : List Value → Bool
  | [] => false
  | v :: vs => hasRegex v || anyRegex vs

end

namespace IndexRelation

def arity (h : IndexRelation) : Nat := h.metadata.nonKeys.length + h.metadata.keys.length

/-- `encode_key_for_store`. -/
def encodeKeyForStore (h : IndexRelation) (tuple : Row) : Except SessionError Bytes :=
  if h.metadata.keys.length ≤ tuple.length then
    .ok (Row.key (tuple.take h.metadata.keys.length) h.id)
  else .error (.storedRelArityMismatch h.name h.arity tuple.length)

variable (S : Serde)

/-- `encode_val_only_for_store`. Regular expressions cannot be serialised. -/
def encodeValOnlyForStore (h : IndexRelation) (vals : Row) : Except SessionError Bytes :=
  if anyRegex vals.values then .error (.panic .unreachable)
  else .ok (beBytes 8 h.id.id ++ S.encodeVals vals)

/-- `encode_val_for_store`. -/
def encodeValForStore (h : IndexRelation) (tuple : Row) : Except SessionError Bytes :=
  if h.metadata.keys.length ≤ tuple.length then
    h.encodeValOnlyForStore S (tuple.drop h.metadata.keys.length)
  else .error (.panic .indexOutOfBounds)

/-- `raw_binding_map`: the position of each column, the last one of a name. -/
def rawBindingMap (h : IndexRelation) (col : Symbol) : Option Nat :=
  let names := h.metadata.columns.map (·.name)
  (names.reverse.findIdx? (· == col)).map fun i => names.length - 1 - i

end IndexRelation

def valuesOf (S : Serde) (val : Bytes) : Except SessionError Row :=
  if val.isEmpty then .ok []
  else if val.length < encodedKeyMinLen then .error (.panic .indexOutOfBounds)
  else
    match S.decodeVals (val.drop encodedKeyMinLen) with
    | some vals => .ok vals
    | none => .error (.panic .unreachable)

/-- `extend_tuple_from_v`. -/
def extendTupleFromV (S : Serde) (key : Row) (val : Bytes) : Except SessionError Row :=
  (valuesOf S val).map (key ++ ·)

/-- `decode_tuple_from_kv`. -/
def decodeTupleFromKv (S : Serde) (key val : Bytes) : Except SessionError Row :=
  match Row.ofKey key with
  | some tup => extendTupleFromV S tup val
  | none => .error (.panic .unreachable)

namespace IndexRelation

variable (S : Serde)

/-- `scan_all`, collected. -/
def scanAll (h : IndexRelation) : SessionM (List Row) := do
  match h.id.next with
  | .error e => throw (.store e)
  | .ok next =>
    let s ← get
    let scanned := if h.isTemp then BTree.range s.tempStoreTx (Row.key [] h.id) (Row.key [] next) false
      else s.storeTx.rangeScan (Row.key [] h.id) (Row.key [] next)
    match scanned with
    | .error p => throw (.panic p)
    | .ok entries => attempt (entries.mapM fun e => decodeTupleFromKv S e.1 e.2)

/-- The range of `scan_prefix`: of a row longer than the key, only the key columns count. -/
def prefixRange (h : IndexRelation) (pre : Row) : Bytes × Bytes :=
  let lower : Row := pre.take h.metadata.keys.length
  (lower.key h.id, Row.key (lower ++ [Datum.bot]) h.id)

/-- `scan_prefix`, collected. -/
def scanPrefix (h : IndexRelation) (pre : Row) : SessionM (List Row) := do
  let s ← get
  let range := h.prefixRange pre
  match if h.isTemp then BTree.range s.tempStoreTx range.1 range.2 false
    else s.storeTx.rangeScan range.1 range.2 with
  | .error p => throw (.panic p)
  | .ok entries => attempt (entries.mapM fun e => decodeTupleFromKv S e.1 e.2)

/-- `get_val_only`. -/
def getValOnly (h : IndexRelation) (key : Row) : SessionM (Option Row) := do
  match ← getIn h.isTemp (key.key h.id) with
  | none => pure none
  | some val =>
    if val.length < encodedKeyMinLen then throw (.panic .indexOutOfBounds)
    else
      match S.decodeVals (val.drop encodedKeyMinLen) with
      | some vals => pure (some vals)
      | none => throw (.panic .unreachable)

end IndexRelation

/-! ### The catalogue -/

section Catalogue

variable (S : Serde)

/-- `relation_exists`. -/
def relationExists (name : String) : SessionM Bool := existsIn (isTempStoreName name) (metaKey name)

/-- `get_relation`. -/
def getRelation (name : String) : SessionM RelationHandle := do
  match ← getIn (isTempStoreName name) (metaKey name) with
  | none => throw (.storedRelationNotFound name)
  | some found =>
    match S.decodeHandle found with
    | none => throw .relationDeser
    | some handle => pure handle

def lastIdKey : Bytes := Row.key [.null] RelationId.system

/-- Hands out an identifier: the one after the value returned. The temporary counter has 32 bits and
wraps around in the code; here it goes on. -/
def fetchAddId (isTemp : Bool) : SessionM Nat := fun s =>
  if isTemp then .ok s.tempStoreId { s with tempStoreId := s.tempStoreId + 1 }
  else .ok s.relationStoreId { s with relationStoreId := s.relationStoreId + 1 }

/-- `create_relation`. The name is looked up in the other store only: whether it is taken in this
one has been checked by the caller, or does not matter. -/
def createRelation (inputMeta : InputRelationHandle) : SessionM RelationHandle := do
  let encoded := metaKey inputMeta.name
  let isTemp := isTempStoreName inputMeta.name
  bailIf (← existsIn (!isTemp) encoded) (.relNameConflict inputMeta.name)
  let lastId ← fetchAddId isTemp
  if hid : lastId + 1 ≤ 2 ^ 48 then
    let handle : RelationHandle := {
      name := inputMeta.name, id := ⟨lastId + 1, hid⟩, metadata := inputMeta.metadata,
      isTemp, putTriggers := [], rmTriggers := [], replaceTriggers := [], accessLevel := .normal,
      indices := [], hnswIndices := [], ftsIndices := [], lshIndices := [], description := "" }
    putIn isTemp encoded (beBytes 8 handle.id.id)
    putIn isTemp (metaKey handle.name) (S.encodeHandle handle)
    putIn isTemp lastIdKey (beBytes 8 handle.id.id)
    pure handle
  else throw (.panic .unreachable)

/-- `describe_relation`. -/
def describeRelation (name description : String) : SessionM Unit := do
  let handle ← getRelation S name
  let handle := { handle with description }
  putIn handle.isTemp (metaKey handle.name) (S.encodeHandle handle)

/-- `set_relation_triggers`. -/
def setRelationTriggers (name : String) (puts rms replaces : List String) : SessionM Unit := do
  bailIf (isTempStoreName name) (.bail "Cannot set triggers for temp store")
  let original ← getRelation S name
  original.requireLevel .guarded "set triggers"
  let original := { original with putTriggers := puts, rmTriggers := rms, replaceTriggers := replaces }
  storePut (metaKey original.name) (S.encodeHandle original)

/-- `destroy_relation`, which returns the ranges to be cleaned. Behind the index test the loops of
the source over the indices have nothing to do. -/
def destroyRelation (name : String) : SessionM (List (Bytes × Bytes)) := do
  let store ← getRelation S name
  bailIf (!store.hasNoIndex)
    (.bail s!"Cannot remove stored relation `{name}` with indices attached.")
  store.requireLevel .normal "relation removal"
  delIn (isTempStoreName name) (metaKey name)
  match store.id.next with
  | .error e => throw (.store e)
  | .ok next => pure [(Row.key [] store.id, Row.key [] next)]

/-- `set_access_level`. The metadata is written to the persistent store in any case. -/
def setAccessLevel (rel : String) (level : AccessLevel) : SessionM Unit := do
  let handle ← getRelation S rel
  let handle := { handle with accessLevel := level }
  storePut (metaKey handle.name) (S.encodeHandle handle)

/-- `rename_relation`. -/
def renameRelation (old new : String) : SessionM Unit := do
  bailIf (isTempStoreName old || isTempStoreName new) (.bail "Bad name given")
  bailIf (← storeExists (metaKey new)) (.relNameConflict new)
  let rel ← getRelation S old
  rel.requireLevel .normal "renaming relation"
  let rel := { rel with name := new }
  storeDel (metaKey old)
  storePut (metaKey new) (S.encodeHandle rel)

/-- `rename_temp_relation`. The relation is looked up by its name, so it need not be a temporary
one; the new metadata goes to the temporary store in any case. -/
def renameTempRelation (old new : String) : SessionM Unit := do
  bailIf (← tempExists (metaKey new)) (.relNameConflict new)
  let rel ← getRelation S old
  let rel := { rel with name := new }
  tempDel (metaKey old)
  tempPut (metaKey new) (S.encodeHandle rel)

/-! ### Indices -/

/-- `write_idx_relation`. -/
def writeIdxRelation (baseName idxName : String) (idxKeys nonIdxKeys : List ColumnDef) :
    SessionM RelationHandle :=
  createRelation S ⟨s!"{baseName}:{idxName}", ⟨idxKeys, nonIdxKeys⟩,
    idxKeys.map (·.name), nonIdxKeys.map (·.name)⟩

/-- The columns of a plain index: those asked for, then the keys that are not among them. -/
def indexColumns (rel : RelationHandle) (relName idxName : String) (cols : List String) :
    Except SessionError (List ColumnDef) := do
  let colDefs ← cols.mapM fun col =>
    match rel.metadata.columns.find? fun origCol => origCol.name == col with
    | some origCol => Except.ok origCol
    | none => .error (.colInIndexNotFound col idxName relName)
  pure (colDefs ++ rel.metadata.keys.filter fun key => !cols.contains key.name)

def extractionIndex (rel : RelationHandle) (col : ColumnDef) : Except SessionError Nat :=
  match rel.metadata.columns.findIdx? fun kc => kc.name == col.name with
  | some i => .ok i
  | none => .error (.panic .unreachable)

def project (mapper : List Nat) (row : Row) : Except SessionError Row :=
  mapper.mapM fun i =>
    match row[i]? with
    | some v => .ok v
    | none => .error (.panic .indexOutOfBounds)

def putIndexEntry (idx : IndexRelation) (mapper : List Nat) (row : Row) : SessionM Unit := do
  let extracted ← attempt (project mapper row)
  let key ← attempt (idx.encodeKeyForStore extracted)
  storePut key []

def delIndexEntry (idx : IndexRelation) (mapper : List Nat) (row : Row) : SessionM Unit := do
  let extracted ← attempt (project mapper row)
  let key ← attempt (idx.encodeKeyForStore extracted)
  storeDel key

/-- `create_index`. Entries and metadata are written to the persistent store in any case. -/
def createIndex (relName idxName : String) (cols : List String) : SessionM Unit := do
  let rel ← getRelation S relName
  bailIf (rel.hasIndex idxName) (.indexAlreadyExists idxName relName)
  let colDefs ← attempt (indexColumns rel relName idxName cols)
  let idx ← createRelation S ⟨s!"{relName}:{idxName}", ⟨colDefs, []⟩, colDefs.map (·.name), []⟩
  let mapper ← attempt (idx.metadata.keys.mapM (extractionIndex rel))
  let existing ← rel.scanAll S
  forM existing (putIndexEntry idx.toIndexRelation mapper)
  let rel := { rel with indices := insertByName idxName (idx.toIndexRelation, mapper) rel.indices }
  storePut (metaKey relName) (S.encodeHandle rel)

/-- The handle without an index. The four kinds are tried in turn, and one removal is enough. -/
def RelationHandle.withoutIndex (rel : RelationHandle) (idxName relName : String) :
    Except SessionError RelationHandle :=
  if containsName idxName rel.indices then
    .ok { rel with indices := removeName idxName rel.indices }
  else if containsName idxName rel.hnswIndices then
    .ok { rel with hnswIndices := removeName idxName rel.hnswIndices }
  else if containsName idxName rel.lshIndices then
    .ok { rel with lshIndices := removeName idxName rel.lshIndices }
  else if containsName idxName rel.ftsIndices then
    .ok { rel with ftsIndices := removeName idxName rel.ftsIndices }
  else .error (.indexNotFound idxName relName)

/-- `remove_index`, which returns the ranges to be cleaned. -/
def removeIndex (relName idxName : String) : SessionM (List (Bytes × Bytes)) := do
  let rel ← getRelation S relName
  let isLsh := containsName idxName rel.lshIndices
  let isFts := containsName idxName rel.ftsIndices
  runIf (isLsh || isFts) (setTokenizers ⟨∅, ∅⟩)
  let rel ← attempt (rel.withoutIndex idxName relName)
  let toClean ← destroyRelation S s!"{relName}:{idxName}"
  let more ← runOr isLsh (destroyRelation S s!"{relName}:{idxName}:inv") []
  storePut (metaKey relName) (S.encodeHandle rel)
  pure (toClean ++ more)

end Catalogue

end Session

end Retia
