import Mathlib
import Retia.Runtime.SearchIndex

/-!
# Mutations of stored relations

`query/stored.rs`. The rows of a query are written to a relation one by one. For each row the
columns are extracted and coerced, the row that stands under its key is looked up where anything
depends on it, the indices are brought up to date, and the row is written. The kinds of mutation
differ in what they look up and where:

* `putRow` (`:create`, `:replace`, `:put`, `:insert`) reads the old row from the persistent store
  and removes what it left in the full-text and LSH indices only together with plain indices;
* `updateRow` (`:update`) reads the old row from the store of the relation and replaces all index
  entries;
* `removeRow` (`:rm`, `:delete`) reads the old row from the persistent store.

When rows are collected, for triggers, callbacks or `:returning`, the triggers of the relation are
run after the last row (`collectMutations`, `removeFromRelation`).
-/

namespace Retia

namespace Session

open SessionM

/-! ### Extractors -/

inductive DataExtractor where
  | default (expr : String) (typing : NullableColType)
  | index (i : Nat) (typing : NullableColType)

inductive RelationOp where
  | create | replace | put | insert | update | rm | delete | ensure | ensureNot
deriving DecidableEq

/-- `make_extractor`. -/
def makeExtractor (input : List ColumnDef) (bindings tupleHeaders : List Symbol)
    (stored : ColumnDef) : Except SessionError DataExtractor :=
  let bound := (input.zip bindings).findSome? fun (inpCol, inpBinding) =>
    if inpCol.name == stored.name then tupleHeaders.findIdx? (· == inpBinding) else none
  match bound with
  | some idx => .ok (.index idx stored.typing)
  | none =>
    match stored.defaultGen with
    | some expr => .ok (.default expr stored.typing)
    | none => .error (.unableToMakeExtractor stored.name)

/-- `make_extractors`. -/
def makeExtractors (stored input : List ColumnDef) (bindings tupleHeaders : List Symbol) :
    Except SessionError (List DataExtractor) :=
  stored.mapM (makeExtractor input bindings tupleHeaders)

/-- `make_update_extractors`: a column that is not given keeps its value. -/
def makeUpdateExtractors (stored input : List ColumnDef) (bindings tupleHeaders : List Symbol) :
    Except SessionError (List (Option DataExtractor)) :=
  stored.mapM fun col =>
    if input.any fun inp => inp.name == col.name then
      some <$> makeExtractor input bindings tupleHeaders col
    else .ok none

namespace Engine

variable (E : Engine)

/-- `extract_data`. -/
def extractData (curVld : Int64) (tuple : Row) : DataExtractor → Except SessionError Datum
  | .default expr typing => do
    let v ← E.evalToConst expr
    E.coerce typing v curVld
  | .index i typing =>
    match tuple[i]? with
    | none => .error (.panic .indexOutOfBounds)
    | some v => E.coerce typing v curVld

def extractAll (curVld : Int64) (extractors : List DataExtractor) (tuple : Row) :
    Except SessionError Row :=
  extractors.mapM (E.extractData curVld tuple)

/-! ### Indices of a relation -/

/-- The tokenizers and extractors of the search indices of a relation, and the filters of its vector
indices. -/
structure Processors where
  fts : List (IndexRelation × TextAnalyzer × Extractor)
  lsh : List (IndexRelation × IndexRelation × MinHashLshIndexManifest × TextAnalyzer × Extractor)
  hnsw : List (IndexRelation × HnswIndexManifest × Option Extractor)

/-- `make_fts_lsh_processors`, for the full-text indices. -/
def makeFtsProcessors (rel : RelationHandle) : List (String × IndexRelation × FtsIndexManifest) →
      SessionM (List (IndexRelation × TextAnalyzer × Extractor))
  | [] => pure []
  | (name, idx, manifest) :: rest => do
    let tokenizer ← E.getTokenizer name manifest.tokenizer manifest.filters
    let extractor ← attempt (E.compileExtractor manifest.extractor rel.rawBindingMap)
    let more ← makeFtsProcessors rel rest
    pure ((idx, tokenizer, extractor) :: more)

/-- `make_fts_lsh_processors`, for the LSH indices. -/
def makeLshProcessors (rel : RelationHandle) :
    List (String × IndexRelation × IndexRelation × MinHashLshIndexManifest) →
      SessionM (List (IndexRelation × IndexRelation × MinHashLshIndexManifest × TextAnalyzer × Extractor))
  | [] => pure []
  | (name, idx, inv, manifest) :: rest => do
    let tokenizer ← E.getTokenizer name manifest.tokenizer manifest.filters
    let extractor ← attempt (E.compileExtractor manifest.extractor rel.rawBindingMap)
    let more ← makeLshProcessors rel rest
    pure ((idx, inv, manifest, tokenizer, extractor) :: more)

/-- `make_hnsw_filters`. -/
def makeHnswFilters (rel : RelationHandle) :
    Except SessionError (List (IndexRelation × HnswIndexManifest × Option Extractor)) :=
  rel.hnswIndices.mapM fun (_, idx, manifest) =>
    match manifest.indexFilter with
    | none => .ok (idx, manifest, none)
    | some code => do
      let filter ← E.compileExtractor code rel.rawBindingMap
      pure (idx, manifest, some filter)

def makeProcessors (rel : RelationHandle) : SessionM Processors := do
  let hnsw ← attempt (E.makeHnswFilters rel)
  let fts ← E.makeFtsProcessors rel rel.ftsIndices
  let lsh ← E.makeLshProcessors rel rel.lshIndices
  pure ⟨fts, lsh, hnsw⟩

def makeRemovalProcessors (rel : RelationHandle) : SessionM Processors := do
  let fts ← E.makeFtsProcessors rel rel.ftsIndices
  let lsh ← E.makeLshProcessors rel rel.lshIndices
  pure ⟨fts, lsh, rel.hnswIndices.map fun (_, idx, manifest) => (idx, manifest, none)⟩

/-- `put_in_fts`. -/
def putInFts (rel : RelationHandle) (p : Processors) (newKv : Row) : SessionM Unit :=
  forM p.fts fun (idx, tokenizer, extractor) =>
    E.putFtsIndexItem newKv extractor tokenizer rel.toIndexRelation idx

/-- `del_in_fts`. -/
def delInFts (rel : RelationHandle) (p : Processors) (oldKv : Row) : SessionM Unit :=
  forM p.fts fun (idx, tokenizer, extractor) =>
    E.delFtsIndexItem oldKv extractor tokenizer rel.toIndexRelation idx

/-- `put_in_lsh`. -/
def putInLsh (rel : RelationHandle) (p : Processors) (newKv : Row) : SessionM Unit :=
  forM p.lsh fun (idx, inv, manifest, tokenizer, extractor) =>
    E.putLshIndexItem newKv extractor tokenizer rel.toIndexRelation idx inv manifest

/-- `del_in_lsh`. -/
def delInLsh (p : Processors) (oldKv : Row) : SessionM Unit :=
  forM p.lsh fun (idx, inv, _) => E.delLshIndexItem oldKv idx inv

/-- `update_in_hnsw`. -/
def updateInHnsw (rel : RelationHandle) (p : Processors) (newKv : Row) : SessionM Unit :=
  forM p.hnsw fun (idx, manifest, filter) => do
    E.applyIndexChanges idx (E.hnswPut manifest rel idx filter newKv (← get))

/-- The loop over `hnsw_remove`. -/
def removeInHnsw (rel : RelationHandle) (p : Processors) (keys : Row) : SessionM Unit :=
  forM p.hnsw fun (idx, _) => do
    E.applyIndexChanges idx (E.hnswRemove rel idx keys (← get))

end Engine

def putInIndex (rel : RelationHandle) (newKv : Row) : SessionM Unit :=
  forM rel.indices fun (_, idx, mapper) => putIndexEntry idx mapper newKv

def delInIndex (rel : RelationHandle) (oldKv : Row) : SessionM Unit :=
  forM rel.indices fun (_, idx, mapper) => delIndexEntry idx mapper oldKv

/-- `update_in_index`. -/
def updateInIndex (rel : RelationHandle) (newKv oldKv : Row) : SessionM Unit :=
  forM rel.indices fun (_, idx, mapper) => do
    delIndexEntry idx mapper oldKv
    putIndexEntry idx mapper newKv

/-- `==` on rows. -/
def rowBeq (a b : Row) : Bool := DataValue.cmpList a.values b.values == .eq

/-! ### Rows -/

namespace Engine

variable (E : Engine)

/-- What a mutation has fixed before its first row. -/
structure Mutation where
  rel : RelationHandle
  processors : Processors
  needToCollect : Bool
  curVld : Int64

namespace Mutation

/-- Whether the old row is of interest: rows are collected, or there is an index of some kind. -/
def readsOld (m : Mutation) : Bool :=
  m.needToCollect || !m.rel.indices.isEmpty || !m.rel.hnswIndices.isEmpty ||
    !m.rel.ftsIndices.isEmpty || !m.rel.lshIndices.isEmpty

end Mutation

/-- A row is put over another one: its plain index entries are replaced if the rows differ, and only
then the old entries in the full-text and LSH indices are removed. -/
def replaceIndices (m : Mutation) (extracted tup : Row) : SessionM Unit :=
  runIf (!m.rel.indices.isEmpty && !rowBeq extracted tup) do
    updateInIndex m.rel extracted tup
    E.delInFts m.rel m.processors tup
    E.delInLsh m.processors tup

def putOldRow (m : Mutation) (key : Bytes) (extracted : Row) : SessionM (List Row) := do
  match ← storeGet key with
  | some existing =>
    let tup ← attempt (extendTupleFromV E.toSerde (extracted.take m.rel.metadata.keys.length)
      existing)
    E.replaceIndices m extracted tup
    pure [tup]
  | none =>
    putInIndex m.rel extracted
    pure []

def putRowIndices (m : Mutation) (key : Bytes) (extracted : Row) :
    SessionM (List Row × List Row) := do
  let old ← E.putOldRow m key extracted
  E.updateInHnsw m.rel m.processors extracted
  E.putInFts m.rel m.processors extracted
  E.putInLsh m.rel m.processors extracted
  pure (if m.needToCollect then ([extracted], old) else ([], []))

/-- One round of `put_into_relation`. -/
def putRow (m : Mutation) (extractors : List DataExtractor) (isInsert : Bool)
    (tuple : Row) : SessionM (List Row × List Row) := do
  let extracted ← attempt (E.extractAll m.curVld extractors tuple)
  let key ← attempt (m.rel.encodeKeyForStore extracted)
  bailIf (isInsert && (← existsIn m.rel.isTemp key))
    (.transactAssertionFailure m.rel.name extracted "key exists in database")
  let val ← attempt (m.rel.encodeValForStore E.toSerde extracted)
  let collected ← runOr m.readsOld (E.putRowIndices m key extracted) ([], [])
  putIn m.rel.isTemp key val
  pure collected

def updatedVals (curVld : Int64) (tuple : Row) : List (Option DataExtractor) →
    Row → Except SessionError Row
  | [], _ => .ok []
  | none :: exs, v :: original => (v :: ·) <$> updatedVals curVld tuple exs original
  | none :: _, [] => .error (.panic .indexOutOfBounds)
  | some ex :: exs, original => do
    let v ← E.extractData curVld tuple ex
    let vs ← updatedVals curVld tuple exs original.tail
    pure (v :: vs)

def updateRowIndices (m : Mutation) (newKv oldKv : Row) : SessionM Unit := do
  E.delInFts m.rel m.processors oldKv
  E.delInLsh m.processors oldKv
  updateInIndex m.rel newKv oldKv
  E.updateInHnsw m.rel m.processors newKv
  E.putInFts m.rel m.processors newKv
  E.putInLsh m.rel m.processors newKv

/-- One round of `update_in_relation`. -/
def updateRow (m : Mutation) (keyExtractors : List DataExtractor)
    (valExtractors : List (Option DataExtractor)) (tuple : Row) :
    SessionM (List Row × List Row) := do
  let keys ← attempt (E.extractAll m.curVld keyExtractors tuple)
  let key ← attempt (m.rel.encodeKeyForStore keys)
  match ← getIn m.rel.isTemp key with
  | none => throw (.transactAssertionFailure m.rel.name keys "key to update does not exist")
  | some v =>
    let originalVal ← attempt (storedVals v)
    let oldKv := keys ++ originalVal
    let newVals ← attempt (E.updatedVals m.curVld tuple valExtractors originalVal)
    let newKv := keys ++ newVals
    let newVal ← attempt (m.rel.encodeValForStore E.toSerde newKv)
    runIf m.readsOld (E.updateRowIndices m newKv oldKv)
    putIn m.rel.isTemp key newVal
    pure (if m.needToCollect then ([newKv], [oldKv]) else ([], []))
where
  /-- Unlike elsewhere, an empty value is not taken for one without columns. -/
  storedVals (v : Bytes) : Except SessionError Row :=
    if v.length < encodedKeyMinLen then .error (.panic .indexOutOfBounds)
    else
      match E.decodeVals (v.drop encodedKeyMinLen) with
      | some vals => .ok vals
      | none => .error (.panic .unreachable)

def removeOldRow (m : Mutation) (key : Bytes) (extracted : Row) : SessionM (List Row) := do
  match ← storeGet key with
  | some existing =>
    let tup ← attempt (extendTupleFromV E.toSerde extracted existing)
    E.delInFts m.rel m.processors tup
    E.delInLsh m.processors tup
    delInIndex m.rel tup
    E.removeInHnsw m.rel m.processors extracted
    pure [tup]
  | none => pure []

def removeRowIndices (m : Mutation) (key : Bytes) (extracted : Row) :
    SessionM (List Row × List Row) := do
  let old ← E.removeOldRow m key extracted
  pure (if m.needToCollect then ([extracted], old) else ([], []))

/-- One round of `remove_from_relation`. -/
def removeRow (m : Mutation) (keyExtractors : List DataExtractor) (checkExists : Bool)
    (tuple : Row) : SessionM (List Row × List Row) := do
  let extracted ← attempt (E.extractAll m.curVld keyExtractors tuple)
  let key ← attempt (m.rel.encodeKeyForStore extracted)
  bailIf (checkExists && !(← existsIn m.rel.isTemp key))
    (.transactAssertionFailure m.rel.name extracted "key does not exists in database")
  let collected ← runOr m.readsOld (E.removeRowIndices m key extracted) ([], [])
  delIn m.rel.isTemp key
  pure collected

/-- The loop over the rows, collecting new and old ones. -/
def eachRow (step : Row → SessionM (List Row × List Row)) :
    List Row → SessionM (List Row × List Row)
  | [] => pure ([], [])
  | tuple :: rest => do
    let (new, old) ← step tuple
    let (news, olds) ← eachRow step rest
    pure (new ++ news, old ++ olds)

/-- One round of `ensure_in_relation`. -/
def ensureRow (rel : RelationHandle) (curVld : Int64) (extractors : List DataExtractor)
    (tuple : Row) : SessionM Unit := do
  let extracted ← attempt (E.extractAll curVld extractors tuple)
  let key ← attempt (rel.encodeKeyForStore extracted)
  let val ← attempt (rel.encodeValForStore E.toSerde extracted)
  match ← getIn rel.isTemp key with
  | none => throw (.transactAssertionFailure rel.name extracted "key does not exist in database")
  | some v =>
    bailIf (v != val) (.transactAssertionFailure rel.name extracted
      "key exists in database, but value does not match")

/-- One round of `ensure_not_in_relation`. -/
def ensureNotRow (rel : RelationHandle) (curVld : Int64) (keyExtractors : List DataExtractor)
    (tuple : Row) : SessionM Unit := do
  let extracted ← attempt (E.extractAll curVld keyExtractors tuple)
  let key ← attempt (rel.encodeKeyForStore extracted)
  bailIf (← existsIn rel.isTemp key)
    (.transactAssertionFailure rel.name extracted "key exists in database")

end Engine

/-! ### Relations -/

/-- A statement that writes: the relation, what is done to it, and whether the affected rows are
returned. -/
structure StoreRelation where
  handle : InputRelationHandle
  op : RelationOp
  returning : Bool

/-- A query, by the columns of its result and by the rows it evaluates to in a session. -/
structure InputProgram where
  storeRelation : Option StoreRelation
  entryHead : List Symbol
  evaluate : SessionTx → Except SessionError (List Row)

structure NamedRows where
  headers : List String
  rows : List Row

/-- The database a session belongs to: what sessions rest on, the parser for triggers, which adds
the rules `_new` and `_old` to the query where they are given, and the relations with registered
callbacks. -/
structure Db extends Engine where
  parseTrigger : String → Option (List Row × List Row) → Except SessionError InputProgram
  callbackTargets : List String
  curVld : Int64

/-- Key ranges to be deleted when the transaction is committed. -/
abbrev Cleanups := List (Bytes × Bytes)

namespace Db

variable (D : Db)

abbrev RunTrigger := String → Option (List Row × List Row) → SessionM Cleanups

section Relation

variable (runTrigger : RunTrigger) (propagateTriggers : Bool) (forceCollect : String)

def runTriggers (args : Option (List Row × List Row)) : List String → SessionM Cleanups
  | [] => pure []
  | trigger :: rest => do
    let cleanups ← runTrigger trigger args
    let more ← runTriggers args rest
    pure (cleanups ++ more)

def isCallbackTarget (rel : RelationHandle) : Bool :=
  D.callbackTargets.contains rel.name || forceCollect == rel.name

def needToCollect (rel : RelationHandle) (triggers : List String) : Bool :=
  forceCollect != "" || (!rel.isTemp &&
    (D.isCallbackTarget forceCollect rel || (propagateTriggers && !triggers.isEmpty)))

def collectMutations (rel : RelationHandle) (op : CallbackOp) (triggers : List String)
    (new old : List Row) : SessionM Cleanups := do
  let cleanups ← runOr propagateTriggers (runTriggers runTrigger (some (new, old)) triggers) []
  runIf (D.isCallbackTarget forceCollect rel) (modify fun s =>
    { s with callbackCollector := s.callbackCollector ++ [⟨rel.name, op, new, old⟩] })
  pure cleanups

def mutate (m : Engine.Mutation) (op : CallbackOp) (triggers : List String)
    (step : Row → SessionM (List Row × List Row)) (rows : List Row) : SessionM Cleanups := do
  let (new, old) ← Engine.eachRow step rows
  runOr (m.needToCollect && !new.isEmpty)
    (D.collectMutations runTrigger propagateTriggers forceCollect m.rel op triggers new old) []

/-- `put_into_relation`. -/
def putIntoRelation (rel : RelationHandle) (input : InputRelationHandle) (headers : List Symbol)
    (isInsert : Bool) (rows : List Row) : SessionM Cleanups := do
  rel.requireLevel .guarded "row insertion"
  let keyExtractors ← attempt (makeExtractors rel.metadata.keys input.metadata.keys
    input.keyBindings headers)
  -- without value columns of its own the statement gives all columns in its key part
  let valExtractors ← attempt <|
    if input.metadata.nonKeys.isEmpty then
      makeExtractors rel.metadata.nonKeys input.metadata.keys input.keyBindings headers
    else makeExtractors rel.metadata.nonKeys input.metadata.nonKeys input.depBindings headers
  let processors ← D.makeProcessors rel
  let m : Engine.Mutation := ⟨rel, processors,
    D.needToCollect propagateTriggers forceCollect rel rel.putTriggers, D.curVld⟩
  D.mutate runTrigger propagateTriggers forceCollect m .put rel.putTriggers
    (D.putRow m (keyExtractors ++ valExtractors) isInsert) rows

/-- `update_in_relation`. -/
def updateInRelation (rel : RelationHandle) (input : InputRelationHandle)
    (headers : List Symbol) (rows : List Row) : SessionM Cleanups := do
  rel.requireLevel .guarded "row update"
  let keyExtractors ← attempt (makeExtractors rel.metadata.keys input.metadata.keys
    input.keyBindings headers)
  let valExtractors ← attempt (makeUpdateExtractors rel.metadata.nonKeys input.metadata.keys
    input.keyBindings headers)
  let processors ← D.makeProcessors rel
  let m : Engine.Mutation := ⟨rel, processors,
    D.needToCollect propagateTriggers forceCollect rel rel.putTriggers, D.curVld⟩
  D.mutate runTrigger propagateTriggers forceCollect m .put rel.putTriggers
    (D.updateRow m keyExtractors valExtractors) rows

/-- `remove_from_relation`. -/
def removeFromRelation (rel : RelationHandle) (input : InputRelationHandle) (headers : List Symbol)
    (checkExists : Bool) (rows : List Row) : SessionM Cleanups := do
  rel.requireLevel .guarded "row removal"
  let keyExtractors ← attempt (makeExtractors rel.metadata.keys input.metadata.keys
    input.keyBindings headers)
  let processors ← D.makeRemovalProcessors rel
  let m : Engine.Mutation := ⟨rel, processors,
    D.needToCollect propagateTriggers forceCollect rel rel.rmTriggers, D.curVld⟩
  D.mutate runTrigger propagateTriggers forceCollect m .rm rel.rmTriggers
    (D.removeRow m keyExtractors checkExists) rows

/-- `ensure_in_relation`. -/
def ensureInRelation (rel : RelationHandle) (input : InputRelationHandle)
    (headers : List Symbol) (rows : List Row) : SessionM Unit := do
  rel.requireLevel .readOnly "row check"
  let keyExtractors ← attempt (makeExtractors rel.metadata.keys input.metadata.keys
    input.keyBindings headers)
  let valExtractors ← attempt (makeExtractors rel.metadata.nonKeys input.metadata.keys
    input.keyBindings headers)
  forM rows (D.ensureRow rel D.curVld (keyExtractors ++ valExtractors))

/-- `ensure_not_in_relation`. -/
def ensureNotInRelation (rel : RelationHandle) (input : InputRelationHandle)
    (headers : List Symbol) (rows : List Row) : SessionM Unit := do
  rel.requireLevel .readOnly "row check"
  let keyExtractors ← attempt (makeExtractors rel.metadata.keys input.metadata.keys
    input.keyBindings headers)
  forM rows (D.ensureNotRow rel D.curVld keyExtractors)

/-- `get_relation`, its failure taken for an absent relation. -/
def findRelation (name : String) : SessionM (Option RelationHandle) := fun s =>
  match getRelation D.toSerde name s with
  | .ok handle s' => .ok (some handle) s'
  | .error _ s' => .ok none s'

/-- The part of `execute_relation` that takes away the relation to be replaced: the ranges to be
cleaned, and the triggers that are carried over. -/
def replaceRelation (name : String) : SessionM (Cleanups × Option (List String × List String)) := do
  bailIf (!propagateTriggers) (.replaceInTrigger name)
  match ← D.findRelation name with
  | none => pure ([], none)
  | some old =>
    bailIf (!old.indices.isEmpty) (.replaceRelationWithIndices old.name)
    old.requireLevel .normal "relation replacement"
    let cleanups ← runTriggers runTrigger none old.replaceTriggers
    let destroyed ← destroyRelation D.toSerde name
    pure (cleanups ++ (if isTempStoreName name then [] else destroyed),
      if old.hasTriggers then some (old.putTriggers, old.rmTriggers) else none)

def targetRelation (op : RelationOp) (input : InputRelationHandle) : SessionM RelationHandle :=
  if op = .replace ∨ op = .create then createRelation D.toSerde input
  else getRelation D.toSerde input.name

def mutateRelation (rel : RelationHandle) (op : RelationOp) (input : InputRelationHandle)
    (headers : List Symbol) (rows : List Row) : SessionM Cleanups :=
  match op with
  | .rm => D.removeFromRelation runTrigger propagateTriggers forceCollect rel input headers false rows
  | .delete => D.removeFromRelation runTrigger propagateTriggers forceCollect rel input headers true rows
  | .ensure => do
    D.ensureInRelation rel input headers rows
    pure []
  | .ensureNot => do
    D.ensureNotInRelation rel input headers rows
    pure []
  | .update => D.updateInRelation runTrigger propagateTriggers forceCollect rel input headers rows
  | .insert => D.putIntoRelation runTrigger propagateTriggers forceCollect rel input headers true rows
  | .create | .replace | .put =>
    D.putIntoRelation runTrigger propagateTriggers forceCollect rel input headers false rows

/-- `execute_relation`. The triggers of a replaced relation are those of the new one for this
statement; its stored metadata has none. -/
def executeRelation (op : RelationOp) (input : InputRelationHandle)
    (headers : List Symbol) (rows : List Row) : SessionM Cleanups := do
  let (toClear, replacedOldTriggers) ←
    runOr (op = .replace) (D.replaceRelation runTrigger propagateTriggers input.name) ([], none)
  let rel ← D.targetRelation op input
  let rel := match replacedOldTriggers with
    | some (oldPut, oldRetract) => { rel with putTriggers := oldPut, rmTriggers := oldRetract }
    | none => rel
  let more ← D.mutateRelation runTrigger propagateTriggers forceCollect rel op input headers rows
  pure (toClear ++ more)

end Relation

end Db

end Session

end Retia
