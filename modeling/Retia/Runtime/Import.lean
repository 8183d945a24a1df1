import Mathlib
import Retia.Runtime.Transaction

/-!
# Imports

`import_relations` and `import_from_backup` in `runtime/db.rs`: two ways to write rows into
relations that exist, without a script. Neither runs triggers or serves callbacks, and neither takes
a mode, so whoever calls them has to know whether writing is allowed.

* `Db.importRelations` — rows with headers, by column names. Where a relation has plain indices, the
  entries of a row that is replaced are removed, unless the row that is imported compares equal to
  it, and those of the new row are written;
* `Db.importFromBackup` — the rows of relations in a file, as they are stored there, with the
  identifier of the relation exchanged. Relations with plain indices are refused.
-/

namespace Retia

open Effect

namespace Session

open SessionM

def headerIndex (headers : List String) (name : String) : Option Nat :=
  (headers.reverse.findIdx? (· == name)).map fun i => headers.length - 1 - i

def importIndices (headers : List String) (relation : String) (cols : List ColumnDef) :
    Except SessionError (List (Nat × NullableColType)) :=
  cols.mapM fun col =>
    match headerIndex headers col.name with
    | some i => .ok (i, col.typing)
    | none =>
      let name := col.name
      .error (.bail s!"required header {name} not found for relation {relation}")

/-- The relation an entry of imported data is for, and whether its rows are to be deleted. -/
def importTarget (relationOp : String) : Bool × String :=
  match relationOp.toList with
  | '-' :: rest => (true, String.ofList rest)
  | _ => (false, relationOp)

def importIntoIndex (relation : String) : SessionError :=
  .bail s!"Cannot import data into relation {relation} as it is an index"

namespace Engine

variable (E : Engine)

def importColumns (curVld : Int64) (indices : List (Nat × NullableColType)) (row : Row) :
    Except SessionError Row :=
  indices.mapM fun (i, typing) =>
    match row[i]? with
    | none => .error (.bail "row too short")
    | some v => E.coerce typing v curVld

/-- The index entries of the row that an imported one takes the place of. The comparison is with the
row as it was given, before its columns are sorted and coerced. -/
def importOldRow (handle : RelationHandle) (isDelete : Bool) (keys : Row)
    (row : Row) (key : Bytes) : SessionM Unit := do
  match ← storeGet key with
  | none => pure ()
  | some existing =>
    let old ← attempt (extendTupleFromV E.toSerde keys existing)
    runIf (isDelete || !rowBeq old row)
      (forM handle.indices fun (_, idxRel, extractor) => delIndexEntry idxRel extractor old)

/-- One row of `import_relations`. -/
def importRow (handle : RelationHandle) (curVld : Int64) (isDelete : Bool)
    (keyIndices valIndices : List (Nat × NullableColType)) (row : Row) : SessionM Unit := do
  let keys ← attempt (E.importColumns curVld keyIndices row)
  let key ← attempt (handle.encodeKeyForStore keys)
  runIf (!handle.indices.isEmpty) (E.importOldRow handle isDelete keys row key)
  if isDelete then storeDel key
  else do
    let vals ← attempt (E.importColumns curVld valIndices row)
    let val ← attempt (handle.encodeValOnlyForStore E.toSerde vals)
    storePut key val
    forM handle.indices fun (_, idxRel, extractor) => putIndexEntry idxRel extractor (keys ++ vals)

/-- One relation of `import_relations`. -/
def importRelation (curVld : Int64) (relationOp : String) (inData : NamedRows) : SessionM Unit := do
  let (isDelete, relation) := importTarget relationOp
  bailIf (relation.toList.contains ':') (importIntoIndex relation)
  let handle ← getRelation E.toSerde relation
  handle.requireLevel .guarded "data import"
  let keyIndices ← attempt (importIndices inData.headers relation handle.metadata.keys)
  let valIndices ← attempt (if isDelete then .ok []
    else importIndices inData.headers relation handle.metadata.nonKeys)
  forM inData.rows (E.importRow handle curVld isDelete keyIndices valIndices)

end Engine

/-- `amend_key_prefix`. -/
def RelationHandle.amendKeyPrefix (h : RelationHandle) (data : Bytes) : Except SessionError Bytes :=
  if data.length < encodedKeyMinLen then .error (.panic .indexOutOfBounds)
  else .ok (beBytes 8 h.id.id ++ data.drop encodedKeyMinLen)

def storedEntries (handle : RelationHandle) : SessionM (List (Bytes × Bytes)) := do
  match handle.id.next with
  | .error e => throw (.store e)
  | .ok next =>
    match (← get).storeTx.rangeScan (Row.key [] handle.id) (Row.key [] next) with
    | .error p => throw (.panic p)
    | .ok entries => pure entries

def importEntry (dst : RelationHandle) (entry : Bytes × Bytes) : SessionM Unit := do
  let key ← attempt (dst.amendKeyPrefix entry.1)
  let val ← attempt (dst.amendKeyPrefix entry.2)
  storePut key val

def valueIn {α : Type} (m : SessionM α) (s : SessionTx) : Except SessionError α :=
  match m s with
  | .ok a _ => .ok a
  | .error e _ => .error e

namespace Db

variable (D : Db)

/-- One relation of `import_from_backup`. -/
def importBackupRelation (src : Database) (relation : String) : SessionM Unit := do
  bailIf (relation.toList.contains ':') (importIntoIndex relation)
  let srcHandle ← attempt (valueIn (getRelation D.toSerde relation) (src.transact false))
  let dst ← getRelation D.toSerde relation
  bailIf (!dst.indices.isEmpty)
    (.bail s!"Cannot import data into relation {relation} from backup as the relation has indices")
  dst.requireLevel .guarded "data import"
  let entries ← attempt (valueIn (storedEntries srcHandle) (src.transact false))
  forM entries (importEntry dst)

/-- A computation in a write transaction of its own, which is committed if it succeeds. -/
def inWriteTx (m : SessionM Unit) (d : Database) : Database :=
  match m (d.transact true) with
  | .error _ s => .ofDropped s
  | .ok _ s => .ofCommitted s

/-- `import_relations`. -/
def importRelations (data : List (String × NamedRows)) : Database → Database :=
  inWriteTx (forM data fun (relationOp, inData) => D.importRelation D.curVld relationOp inData)

/-- `import_from_backup`, from the content of the file, which is opened as a database first. -/
def importFromBackup (file : Store) (relations : List String) (d : Database) : Database :=
  match Database.openStore file with
  | .error _ => d
  | .ok src => inWriteTx (forM relations (D.importBackupRelation src)) d

end Db

end Session

end Retia
