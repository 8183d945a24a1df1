import Mathlib
import Retia.Query.Stored

/-!
# Statements of a session

`runtime/db.rs`, `runtime/imperative.rs` and the builders of search indices in
`runtime/relation.rs`: what can be run in a session.

* `Db.scriptStoreAsRelation`, `Db.tempSwap` — the two statements of imperative scripts that change
  temporary relations.
-/

namespace Retia

namespace Session

open SessionM

/-! ### Queries -/

namespace RelationHandle

/-- `ensure_compatible`. -/
def ensureCompatible (h : RelationHandle) (inp : InputRelationHandle)
    (isRemoveOrUpdate : Bool) : Except ColumnError Unit := do
  (inp.metadata.keys ++ h.metadata.nonKeys).forM h.metadata.compatibleWithCol
  h.metadata.keys.forM inp.metadata.satisfiedByRequiredCol
  if !isRemoveOrUpdate then h.metadata.nonKeys.forM inp.metadata.satisfiedByRequiredCol

end RelationHandle

namespace Db

variable (D : Db)

/-- The checks of `run_query` before the query is evaluated. -/
def checkStoreRelation (target : StoreRelation) : SessionM Unit := do
  let name := target.handle.name
  match target.op with
  | .replace => pure ()
  | .create => bailIf (← relationExists name) (.storeRelationConflict name)
  | _ =>
    let existing ← getRelation D.toSerde name
    bailIf (!(← relationExists name)) (.storeRelationNotFound name)
    attempt ((existing.ensureCompatible target.handle
      (target.op = .rm || target.op = .delete || target.op = .update)).mapError .column)

def returnedRow (kind : String) (targetLen : Nat) (row : Row) : Row :=
  let v := Datum.str (strBytes kind) :: row
  v ++ List.replicate (targetLen + 1 - v.length) Datum.null

def eventRows (targetLen : Nat) (e : CallbackEvent) : List Row :=
  let (posKey, negKey) := match e.op with
    | .put => ("inserted", "replaced")
    | .rm => ("requested", "deleted")
  e.new.map (returnedRow posKey targetLen) ++ e.old.map (returnedRow negKey targetLen)

def statusOk : NamedRows := ⟨["status"], [[.str (strBytes "OK")]]⟩

/-- `get_returning_rows`: everything the collector holds for the relation. -/
def getReturningRows (rel : String) (returning : Bool) : SessionM NamedRows := do
  if !returning then pure statusOk
  else
    let handle ← getRelation D.toSerde rel
    let columns := handle.metadata.columns
    let collected := (← get).callbackCollector.filter (·.relation == handle.name)
    pure ⟨"_kind" :: columns.map (·.name), collected.flatMap (eventRows columns.length)⟩

/-- `run_query`, given what executes its mutation. -/
def runQueryWith (execute : String → RelationOp → InputRelationHandle →
      List Symbol → List Row → SessionM Cleanups)
    (p : InputProgram) : SessionM (NamedRows × Cleanups) := do
  match p.storeRelation with
  | none =>
    let rows ← attempt (p.evaluate (← get))
    pure (⟨p.entryHead, rows⟩, [])
  | some target =>
    D.checkStoreRelation target
    let rows ← attempt (p.evaluate (← get))
    let forceCollect := if target.returning then target.handle.name else ""
    let toClear ← execute forceCollect target.op target.handle p.entryHead rows
    let returned ← D.getReturningRows target.handle.name target.returning
    pure (returned, toClear)

def runTriggerQuery : RunTrigger := fun trigger args => do
  let p ← attempt (D.parseTrigger trigger args)
  let (_, cleanups) ← D.runQueryWith
    (D.executeRelation (fun _ _ => throw (.panic .unreachable)) false) p
  pure cleanups

/-- `execute_single_program`: a query with its triggers. -/
def runQuery (p : InputProgram) : SessionM (NamedRows × Cleanups) :=
  D.runQueryWith (D.executeRelation D.runTriggerQuery true) p

end Db

/-! ### Search indices -/

namespace Engine

variable (E : Engine)

def keyColumn (name : String) (coltype : ColType) : ColumnDef := ⟨name, .mk coltype false, none⟩

def srcColumns (rel : RelationHandle) : List ColumnDef :=
  rel.metadata.keys.map fun k =>
    let name := k.name
    ⟨s!"src_{name}", k.typing, none⟩

/-- `create_fts_index`. The tokenizer is asked for under the name of the index relation. -/
def createFtsIndex (config : FtsIndexManifest) : SessionM Unit := do
  let rel ← getRelation E.toSerde config.baseRelation
  bailIf (rel.hasIndex config.indexName) (.indexAlreadyExists config.indexName config.indexName)
  let intList : ColType := .list (.mk .int false) none
  let idx ← writeIdxRelation E.toSerde config.baseRelation config.indexName
    (keyColumn "word" .string :: srcColumns rel)
    [keyColumn "offset_from" intList, keyColumn "offset_to" intList,
      keyColumn "position" intList, keyColumn "total_length" .int]
  let tokenizer ← E.getTokenizer idx.name config.tokenizer config.filters
  let extractor ← attempt (E.compileExtractor config.extractor rel.rawBindingMap)
  let existing ← rel.scanAll E.toSerde
  forM existing fun tuple => do
    let keys ← attempt (keyPart rel.toIndexRelation tuple)
    runIf (← existsIn rel.isTemp (keys.key rel.id))
      (E.delFtsIndexItem tuple extractor tokenizer rel.toIndexRelation idx.toIndexRelation)
    E.putFtsIndexItem tuple extractor tokenizer rel.toIndexRelation idx.toIndexRelation
  let rel := { rel with
    ftsIndices := insertByName config.indexName (idx.toIndexRelation, config) rel.ftsIndices }
  storePut (metaKey rel.name) (E.encodeHandle rel)

/-- `create_minhash_lsh_index`. The number of bands is found by numerical integration and the
permutations are drawn at random; the manifest is taken with them. -/
def createMinhashLshIndex (config : MinHashLshIndexManifest) : SessionM Unit := do
  let rel ← getRelation E.toSerde config.baseRelation
  bailIf (rel.hasIndex config.indexName) (.indexAlreadyExists config.indexName config.indexName)
  let idxName := config.indexName
  let idx ← writeIdxRelation E.toSerde config.baseRelation idxName
    (keyColumn "hash" .bytes :: srcColumns rel) []
  let inv ← writeIdxRelation E.toSerde config.baseRelation s!"{idxName}:inv"
    rel.metadata.keys [keyColumn "minhash" .bytes]
  let tokenizer ← E.getTokenizer idx.name config.tokenizer config.filters
  let extractor ← attempt (E.compileExtractor config.extractor rel.rawBindingMap)
  let existing ← rel.scanAll E.toSerde
  forM existing fun tuple =>
    E.putLshIndexItem tuple extractor tokenizer rel.toIndexRelation idx.toIndexRelation
      inv.toIndexRelation config
  let rel := { rel with
    lshIndices := insertByName idxName (idx.toIndexRelation, inv.toIndexRelation, config) rel.lshIndices }
  storePut (metaKey rel.name) (E.encodeHandle rel)

def vecType : NullableColType → Option (VecElementType × Nat)
  | .mk (.vec eltype len) _ => some (eltype, len)
  | .mk (.list (.mk (.vec eltype len) _) _) _ => some (eltype, len)
  | _ => none

/-- `Debug for VecElementType`. -/
def vecElementText : VecElementType → String
  | .f32 => "F32"
  | .f64 => "F64"

def hnswField (rel : RelationHandle) (dtype : VecElementType) (vecDim : Nat)
    (field : String) : Except SessionError Nat :=
  match rel.metadata.columns.findIdx? (·.name == field) with
  | none => .error (.bail s!"Cannot create HNSW index with non-existent field {field}")
  | some i =>
    match (rel.metadata.columns[i]?).bind fun col => vecType col.typing with
    | none => .error (.bail s!"Cannot create HNSW index with non-vector field {field}")
    | some (eltype, len) =>
      if eltype ≠ dtype then
        let found := vecElementText eltype
        let expected := vecElementText dtype
        .error (.bail
          s!"Cannot create HNSW index with field {field} of type {found} (expected {expected})")
      else if len ≠ vecDim then
        .error (.bail s!"Cannot create HNSW index with field {field} of dimension {len} (expected {vecDim})")
      else .ok i

def linkColumns (rel : RelationHandle) (side : String) : List ColumnDef :=
  (rel.metadata.keys.map fun col =>
    let name := col.name
    { col with name := s!"{side}_{name}" }) ++
  [keyColumn s!"{side}__field" .int, keyColumn s!"{side}__sub_idx" .int]

/-- `create_hnsw_index`, on the columns named by `vecFields`; the manifest is the one with their
positions. -/
def createHnswIndex (config : HnswIndexManifest) (vecFields : List String) : SessionM Unit := do
  let rel ← getRelation E.toSerde config.baseRelation
  bailIf (rel.hasIndex config.indexName) (.indexAlreadyExists config.indexName config.indexName)
  bailIf vecFields.isEmpty (.bail "Cannot create HNSW index without vector fields")
  let fields ← attempt (vecFields.mapM (hnswField rel config.dtype config.vecDim))
  let idx ← writeIdxRelation E.toSerde config.baseRelation config.indexName
    (keyColumn "layer" .int :: (linkColumns rel "fr" ++ linkColumns rel "to"))
    [keyColumn "dist" .float, ⟨"hash", .mk .bytes true, none⟩, keyColumn "ignore_link" .bool]
  let manifest := { config with vecFields := fields }
  let existing ← rel.scanAll E.toSerde
  let filter ← attempt <| match manifest.indexFilter with
    | none => .ok none
    | some code => some <$> E.compileExtractor code rel.rawBindingMap
  forM existing fun tuple => do
    E.applyIndexChanges idx.toIndexRelation
      (E.hnswPut manifest rel idx.toIndexRelation filter tuple (← get))
  let rel := { rel with
    hnswIndices := insertByName config.indexName (idx.toIndexRelation, manifest) rel.hnswIndices }
  storePut (metaKey config.baseRelation) (E.encodeHandle rel)

end Engine

/-! ### System operations -/

/-- The system operations that write; those that only report are one, by what they report. -/
inductive SysOp where
  | report (rows : SessionTx → Except SessionError NamedRows)
  | removeRelation (names : List String)
  | renameRelation (pairs : List (String × String))
  | setTriggers (name : String) (puts rms replaces : List String)
  | setAccessLevel (names : List String) (level : AccessLevel)
  | createIndex (relName idxName : String) (cols : List String)
  | createVectorIndex (config : HnswIndexManifest) (vecFields : List String)
  | createFtsIndex (config : FtsIndexManifest)
  | createMinHashLshIndex (config : MinHashLshIndexManifest)
  | removeIndex (relName idxName : String)
  | describeRelation (relName description : String)

/-- A name of the grammar for relations that are neither temporary nor indices. -/
def isCompoundIdent (name : String) : Bool := !isTempStoreName name && !name.toList.contains ':'

namespace SysOp

/-- The names are ones the grammar has in their places. Only the relation to be described may be an
index relation. -/
def wellNamed : SysOp → Bool
  | report _ => true
  | removeRelation names => names.all isCompoundIdent
  | renameRelation pairs => pairs.all fun (old, new) => isCompoundIdent old && isCompoundIdent new
  | setTriggers name _ _ _ => isCompoundIdent name
  | setAccessLevel names _ => names.all isCompoundIdent
  | createIndex relName idxName _ => isCompoundIdent relName && isCompoundIdent idxName
  | createVectorIndex config _ => isCompoundIdent config.baseRelation && isCompoundIdent config.indexName
  | createFtsIndex config => isCompoundIdent config.baseRelation && isCompoundIdent config.indexName
  | createMinHashLshIndex config =>
    isCompoundIdent config.baseRelation && isCompoundIdent config.indexName
  | removeIndex relName idxName => isCompoundIdent relName && isCompoundIdent idxName
  | describeRelation relName _ => !isTempStoreName relName

/-- Whether the operation asks for a lock, in a script that runs several. -/
def needsWriteLocks : SysOp → Bool
  | removeRelation names => !names.isEmpty
  | renameRelation pairs => !pairs.isEmpty
  | createIndex .. | createVectorIndex .. | createFtsIndex _ | createMinHashLshIndex _ | removeIndex .. =>
    true
  | _ => false

end SysOp

abbrev ParsedSysOp := { op : SysOp // op.wellNamed = true }

namespace Db

variable (D : Db)

/-- The loop over `del_range_from_persisted`. -/
def delRanges (bounds : Cleanups) : SessionM Unit :=
  forM bounds fun bound => storeOp (MemTx.delRangeFromPersisted bound.1 bound.2)

/-- The loop over `destroy_relation`, which keeps the ranges of persistent relations. -/
def destroyRelations : List String → SessionM Cleanups
  | [] => pure []
  | name :: names => do
    let bound ← destroyRelation D.toSerde name
    let bounds ← destroyRelations names
    pure ((if isTempStoreName name then [] else bound) ++ bounds)

def applySysOp : SysOp → SessionM Unit
  | .report _ => pure ()
  | .removeRelation names => do
    let bounds ← D.destroyRelations names
    delRanges bounds
  | .renameRelation pairs => forM pairs fun (old, new) => Session.renameRelation D.toSerde old new
  | .setTriggers name puts rms replaces => setRelationTriggers D.toSerde name puts rms replaces
  | .setAccessLevel names level => forM names fun name => Session.setAccessLevel D.toSerde name level
  | .createIndex relName idxName cols => Session.createIndex D.toSerde relName idxName cols
  | .createVectorIndex config vecFields => D.createHnswIndex config vecFields
  | .createFtsIndex config => D.toEngine.createFtsIndex config
  | .createMinHashLshIndex config => D.createMinhashLshIndex config
  | .removeIndex relName idxName => do
    let bounds ← Session.removeIndex D.toSerde relName idxName
    delRanges bounds
  | .describeRelation relName description => Session.describeRelation D.toSerde relName description

def sysOpRows : SysOp → SessionM NamedRows
  | .report rows => do attempt (rows (← get))
  | _ => pure statusOk

/-- `run_sys_op_with_tx`, in a transaction that may write. -/
def runSysOp (op : SysOp) : SessionM NamedRows := do
  D.applySysOp op
  sysOpRows op

/-! ### Imperative scripts -/

/-- The column a header stands for: brackets are not allowed in names. -/
def headerSymbol (header : String) : Symbol :=
  String.ofList ((header.toList.filter (· ≠ ')')).map fun c => if c = '(' then '_' else c)

def distinctSymbols (keyBindings : List Symbol) : Except SessionError Unit :=
  match (keyBindings.zipIdx.find? fun (k, i) => (keyBindings.take i).contains k) with
  | some (k, _) => .error
      (.bail s!"Duplicate variable name {k}, please use distinct variables in `as` construct.")
  | none => .ok ()

/-- Runs a computation with a collector of its own, which is dropped. -/
def withFreshCollector {α : Type} (m : SessionM α) : SessionM α := fun s =>
  match m { s with callbackCollector := [] } with
  | .ok a s' => .ok a { s' with callbackCollector := s.callbackCollector }
  | .error e s' => .error e { s' with callbackCollector := s.callbackCollector }

/-- `script_store_as_relation`: the result of a statement becomes a temporary relation. No callbacks
are served on the way. -/
def scriptStoreAsRelation (name : String) (result : NamedRows) : SessionM Unit := do
  let keyBindings := result.headers.map headerSymbol
  attempt (distinctSymbols keyBindings)
  let keys : List ColumnDef := keyBindings.map fun k => ⟨k, .mk .any true, none⟩
  let input : InputRelationHandle := ⟨name, ⟨keys, []⟩, keyBindings, []⟩
  let silent : Db := { D with callbackTargets := [] }
  let _ ← withFreshCollector
    (silent.executeRelation silent.runTriggerQuery true "" .replace input keyBindings result.rows)

/-- `TempSwap`. -/
def tempSwap (left right : String) : SessionM Unit := do
  renameTempRelation D.toSerde left "_*temp*"
  renameTempRelation D.toSerde right left
  renameTempRelation D.toSerde "_*temp*" right

end Db

/-- A statement of a script, as it is run in a session. -/
inductive Statement where
  | program (p : InputProgram)
  | sysOp (op : ParsedSysOp)
  | storeAs (name : String) (result : NamedRows)
  | tempSwap (left right : String)

namespace Db

variable (D : Db)

/-- What a statement returns, and the ranges to be deleted at the end. -/
def runStatement : Statement → SessionM (NamedRows × Cleanups)
  | .program p => D.runQuery p
  | .sysOp op => do
    let rows ← D.runSysOp op.1
    pure (rows, [])
  | .storeAs name result => do
    D.scriptStoreAsRelation name result
    pure (⟨[], []⟩, [])
  | .tempSwap left right => do
    D.tempSwap left right
    pure (⟨[], []⟩, [])

end Db

end Session

end Retia
