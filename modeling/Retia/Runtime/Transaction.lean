import Mathlib
import Retia.Lib.Effect
import Retia.Runtime.Touches

/-!
# Databases, transactions and scripts

`runtime/db.rs`, `runtime/transact.rs` and `runtime/imperative.rs`: how sessions begin and end, and
in which ways statements share one.

A `Database` is what outlives a session: the store, and the counter of identifiers and the
tokenizers that all its sessions share. It is opened from a store (`Database.initStorage`), can be
written to a backup and filled from one (`Database.backupDb`, `Database.restoreBackup`), and is
changed by

* `Db.executeSingle`, `Db.runSysOpAlone` — one statement in a transaction of its own;
* `Db.executeImperative` — an imperative script, where `%ignore_error` goes on after an error of one
  program;
* `Db.runMultiTransaction` — programs that arrive one after the other, where an error is reported
  and the session goes on.

In the last two, what a failed program has done stays in the transaction. Everything a session can
do is a sequence of statements, some of which may have failed (`Db.runStatements`): this is
`Db.traced_executeImperativeStmts` for imperative scripts, and for the others it is how they are
defined.
-/

namespace Retia

open Effect

namespace Session

open SessionM

/-! ### Databases -/

/-- What outlives a session. -/
structure Database where
  store : Store
  relationStoreId : Nat
  tokenizers : TokenizerCache

namespace Database

/-- `transact` and `transact_write`. -/
def transact (isWrite : Bool) (d : Database) : SessionTx where
  storeTx := if isWrite then .transactWrite d.store else .reader d.store
  tempStoreTx := ∅
  relationStoreId := d.relationStoreId
  tempStoreId := 0
  tokenizers := d.tokenizers
  callbackCollector := []

def ofDropped (s : SessionTx) : Database := ⟨s.storeTx.persisted, s.relationStoreId, s.tokenizers⟩

/-- The database after a session that was committed. -/
def ofCommitted (s : SessionTx) : Database :=
  ⟨s.storeTx.commit.persisted, s.relationStoreId, s.tokenizers⟩

def storageVersionKey : Bytes :=
  Row.key [.null, .str (strBytes "STORAGE_VERSION")] RelationId.system

def currentStorageVersion : Bytes := [0]

/-- `init_storage`: the store, with the entries every store has, and the last identifier. -/
def initStorage (store : Store) : Except SessionError (Store × Nat) :=
  match store[lastIdKey]? with
  | none => .ok ((store.insert storageVersionKey currentStorageVersion).insert lastIdKey (beBytes 8 0), 0)
  | some slice =>
    match store[storageVersionKey]? with
    | none => .error (.bail
      "Storage is used but un-versioned, probably created by an ancient version of Cozo or Retia.")
    | some v =>
      if v ≠ currentStorageVersion then
        .error (.bail s!"Version mismatch: expect storage version {currentStorageVersion}, got {v}")
      else
        match RelationId.rawDecode slice with
        | none => .error (.panic .unreachable)
        | some id => .ok (store, id.id)

def openStore (store : Store) : Except SessionError Database :=
  (initStorage store).map fun (store, id) => ⟨store, id, ⟨∅, ∅⟩⟩

def empty : Database :=
  ⟨((∅ : Store).insert storageVersionKey currentStorageVersion).insert lastIdKey (beBytes 8 0), 0, ⟨∅, ∅⟩⟩

/-- `batch_put`. -/
def batchPut (store : Store) (entries : List (Bytes × Bytes)) : Store :=
  entries.foldl (fun w e => w.insert e.1 e.2) store

/-- `backup_db`: the content of the file, which is a new database first. -/
def backupDb (d : Database) : Except SessionError Store :=
  match BTree.range d.store [] [0xFF] false with
  | .error p => .error (.panic p)
  | .ok entries => .ok (batchPut empty.store entries)

/-- `restore_backup`. The counter of identifiers stays as it is. -/
def restoreBackup (file : Store) (d : Database) : Except SessionError Database := do
  let (source, _) ← initStorage file
  if d.relationStoreId ≠ 0 then
    let storeId := d.relationStoreId
    .error (.bail s!"Cannot restore backup: data exists in the current database. You can only restore into a new database (store id: {storeId}).")
  else .ok { d with store := batchPut d.store source.toList }

end Database

/-! ### Sequences of statements -/

namespace Db

variable (D : Db)

/-- Runs statements one after the other, each in what the ones before have left, failed ones
included; collects the ranges to be deleted. -/
def runStatements : List Statement → SessionTx → Cleanups × SessionTx
  | [], s => ([], s)
  | stmt :: rest, s =>
    match D.runStatement stmt s with
    | .ok (_, cleanups) s' =>
      let (more, s'') := runStatements rest s'
      (cleanups ++ more, s'')
    | .error _ s' => runStatements rest s'

end Db

inductive SessionEnd where
  /-- It is dropped. -/
  | dropped
  /-- Ranges are deleted and it is committed, unless a deletion fails. -/
  | committed
  /-- Ranges are deleted as far as possible and it is committed. -/
  | committedAnyway

namespace Db

variable (D : Db)

/-- The deletions before a commit that does not depend on them. -/
def delRangesAnyway (bounds : Cleanups) : SessionM Unit :=
  forM bounds fun bound s => .ok () (final (storeOp (MemTx.delRangeFromPersisted bound.1 bound.2)) s)

def endSession (how : SessionEnd) (cleanups : Cleanups) (s : SessionTx) : Database :=
  match how with
  | .dropped => .ofDropped s
  | .committed =>
    match delRanges cleanups s with
    | .ok _ s' => .ofCommitted s'
    | .error _ s' => .ofDropped s'
  | .committedAnyway => .ofCommitted (final (delRangesAnyway cleanups) s)

def runSession (isWrite : Bool) (stmts : List Statement) (how : SessionEnd)
    (d : Database) : Database :=
  let (cleanups, s) := D.runStatements stmts (d.transact isWrite)
  endSession how cleanups s

theorem runStatements_append (l l' : List Statement) (s : SessionTx) : D.runStatements (l ++ l') s =
      ((D.runStatements l s).1 ++ (D.runStatements l' (D.runStatements l s).2).1,
      (D.runStatements l' (D.runStatements l s).2).2) := by
  induction l generalizing s with
  | nil => rfl
  | cons stmt l ih =>
    simp only [List.cons_append, runStatements]
    split
    · simp only [ih, List.append_assoc]
    · exact ih _

/-! ### Multi-transactions -/

end Db

/-- What is sent to a multi-transaction. The script has been parsed; anything but a single program
is an error. -/
inductive TransactionPayload where
  | commit
  | abort
  | query (p : Except SessionError InputProgram)

namespace Db

variable (D : Db)

/-- The loop of `run_multi_transaction` over the payloads. A session whose channel is closed is
dropped. -/
def multiTransactionLoop : List TransactionPayload → Cleanups → SessionTx → Database
  | [], _, s => .ofDropped s
  | .commit :: _, cleanups, s => .ofCommitted (final (delRangesAnyway cleanups) s)
  | .abort :: _, _, s => .ofDropped s
  | .query (.error _) :: rest, cleanups, s => multiTransactionLoop rest cleanups s
  | .query (.ok p) :: rest, cleanups, s =>
    match D.runQuery p s with
    | .ok (_, more) s' => multiTransactionLoop rest (cleanups ++ more) s'
    | .error _ s' => multiTransactionLoop rest cleanups s'

/-- `run_multi_transaction`. -/
def runMultiTransaction (isWrite : Bool) (payloads : List TransactionPayload)
    (d : Database) : Database :=
  D.multiTransactionLoop payloads [] (d.transact isWrite)

end Db

namespace TransactionPayload

def session : List TransactionPayload → List Statement × SessionEnd
  | [] => ([], .dropped)
  | .commit :: _ => ([], .committedAnyway)
  | .abort :: _ => ([], .dropped)
  | .query (.error _) :: rest => session rest
  | .query (.ok p) :: rest => (.program p :: (session rest).1, (session rest).2)

end TransactionPayload

namespace Db

variable (D : Db)

private theorem multiTransactionLoop_eq (payloads : List TransactionPayload)
    (cleanups : Cleanups) (s : SessionTx) :
    D.multiTransactionLoop payloads cleanups s = endSession (TransactionPayload.session payloads).2
        (cleanups ++ (D.runStatements (TransactionPayload.session payloads).1 s).1)
        (D.runStatements (TransactionPayload.session payloads).1 s).2 := by
  induction payloads generalizing cleanups s with
  | nil => rfl
  | cons payload rest ih =>
    cases payload with
    | commit => simp [multiTransactionLoop, TransactionPayload.session, runStatements, endSession]
    | abort => rfl
    | query p =>
      cases p with
      | error e => exact ih cleanups s
      | ok p =>
        simp only [multiTransactionLoop, TransactionPayload.session, runStatements, runStatement]
        split
        · rw [ih, List.append_assoc]
        · exact ih _ _

/-- **A multi-transaction is the session of its programs.** -/
theorem runMultiTransaction_eq (isWrite : Bool) (payloads : List TransactionPayload)
    (d : Database) :
    D.runMultiTransaction isWrite payloads d = D.runSession isWrite
    (TransactionPayload.session payloads).1 (TransactionPayload.session payloads).2 d := by
  rw [runMultiTransaction, multiTransactionLoop_eq, List.nil_append]
  rfl

end Db

/-! ### Imperative scripts -/

/-- A program of a script, whose result may become a temporary relation. -/
structure ImperativeStmtClause where
  prog : InputProgram
  storeAs : Option String

structure ImperativeSysop where
  sysop : ParsedSysOp
  storeAs : Option String

/-- A relation or a program whose rows are looked at. -/
inductive ImperativeSource where
  | relation (name : String)
  | clause (c : ImperativeStmtClause)

inductive ImperativeStmt where
  | breakTo (target : Option String)
  | continueTo (target : Option String)
  | returns (returned : List ImperativeSource)
  | program (clause : ImperativeStmtClause)
  | sysOp (sysop : ImperativeSysop)
  | ignoreErrorProgram (clause : ImperativeStmtClause)
  | ifElse (condition : ImperativeSource) (thenBranch elseBranch : List ImperativeStmt) (negated : Bool)
  | loop (label : Option String) (body : List ImperativeStmt)
  | tempSwap (left right : String)
  | tempDebug (temp : String)

/-- `needs_write_lock`. -/
def InputProgram.needsWriteLock (p : InputProgram) : Bool :=
  p.storeRelation.any fun target => !isTempStoreName target.handle.name

namespace ImperativeStmt

def sourceNeedsWriteLocks : ImperativeSource → Bool
  | .relation _ => false
  | .clause c => c.prog.needsWriteLock

mutual

/-- `needs_write_locks`: whether any lock is collected. -/
def needsWriteLocks : ImperativeStmt → Bool
  | program c | ignoreErrorProgram c => c.prog.needsWriteLock
  | returns l => l.any sourceNeedsWriteLocks
  | ifElse condition thenBranch elseBranch _ =>
    sourceNeedsWriteLocks condition || anyNeedsWriteLocks thenBranch || anyNeedsWriteLocks elseBranch
  | loop _ body => anyNeedsWriteLocks body
  | sysOp op => op.sysop.1.needsWriteLocks
  | tempDebug _ | breakTo _ | continueTo _ | tempSwap .. => false

def anyNeedsWriteLocks : List ImperativeStmt → Bool
  | [] => false
  | stmt :: rest => stmt.needsWriteLocks || anyNeedsWriteLocks rest

end

end ImperativeStmt

/-- How a list of statements ends: with the rows of the last one, or with control going elsewhere.
-/
inductive Flow where
  | rows (r : NamedRows)
  | termination (returned : List NamedRows)
  | breakTo (target : Option String)
  | continueTo (target : Option String)

namespace Db

variable (D : Db)

/-- Two steps that each collect ranges to be deleted. -/
def andThen {α β : Type} (m : SessionM (α × Cleanups)) (f : α → SessionM (β × Cleanups)) :
    SessionM (β × Cleanups) := do
  let r ← m
  let r' ← f r.1
  pure (r'.1, r.2 ++ r'.2)

/-- The result of a statement, which may become a temporary relation. -/
def storeResult (storeAs : Option String) (rows : NamedRows) : SessionM (NamedRows × Cleanups) :=
  match storeAs with
  | none => pure (rows, [])
  | some name => do
    D.scriptStoreAsRelation name rows
    pure (rows, [])

def executeClause (c : ImperativeStmtClause) : SessionM (NamedRows × Cleanups) :=
  andThen (D.runQuery c.prog) (D.storeResult c.storeAs)

def statusFailed : NamedRows := ⟨["status"], [[.str (strBytes "FAILED")]]⟩

def executeIgnoringError (c : ImperativeStmtClause) : SessionM (NamedRows × Cleanups) := fun s =>
  match D.runQuery c.prog s with
  | .ok r s' => andThen (pure r) (D.storeResult c.storeAs) s'
  | .error _ s' => .ok (statusFailed, []) s'

/-- `as_named_rows`, of the relation with the name. -/
def asNamedRows (name : String) : SessionM NamedRows := do
  let relation ← getRelation D.toSerde name
  let rows ← relation.scanAll D.toSerde
  pure ⟨relation.metadata.columns.map (·.name), rows⟩

def executeSource : ImperativeSource → SessionM (NamedRows × Cleanups)
  | .relation name => do
    let rows ← D.asNamedRows name
    pure (rows, [])
  | .clause c => D.executeClause c

/-- The loop of `%return`, from the last source to the first. -/
def executeReturns : List ImperativeSource → List NamedRows → SessionM (Flow × Cleanups)
  | [], returned => pure (.termination returned, [])
  | source :: rest, returned =>
    andThen (D.executeSource source) fun rows => executeReturns rest (rows :: returned)

def executeImperativeSysop (op : ImperativeSysop) : SessionM (NamedRows × Cleanups) :=
  andThen (D.runStatement (.sysOp op.sysop)) (D.storeResult op.storeAs)

def processKilled : SessionError := .bail "Running query is killed before completion"

mutual

/-- `execute_imperative_stmts`. A script can be killed whenever it checks for that, before every
statement and every round of a loop; `fuel` is the number of checks it is let through. `%swap`
leaves the list of statements it stands in. -/
def executeImperativeStmts (fuel : Nat) (ps : List ImperativeStmt) (ret : NamedRows) :
    SessionM (Flow × Cleanups) :=
  match fuel, ps with
  | _, [] => pure (.rows ret, [])
  | 0, _ :: _ => throw processKilled
  | _ + 1, .breakTo target :: _ => pure (.breakTo target, [])
  | _ + 1, .continueTo target :: _ => pure (.continueTo target, [])
  | _ + 1, .returns returned :: _ => D.executeReturns returned.reverse []
  | fuel + 1, .tempDebug temp :: rest =>
    andThen (D.executeSource (.relation temp)) fun _ => executeImperativeStmts fuel rest ⟨[], []⟩
  | fuel + 1, .sysOp op :: rest =>
    andThen (D.executeImperativeSysop op) fun rows => executeImperativeStmts fuel rest rows
  | fuel + 1, .program c :: rest =>
    andThen (D.executeClause c) fun rows => executeImperativeStmts fuel rest rows
  | fuel + 1, .ignoreErrorProgram c :: rest =>
    andThen (D.executeIgnoringError c) fun rows => executeImperativeStmts fuel rest rows
  | fuel + 1, .ifElse condition thenBranch elseBranch negated :: rest =>
    andThen (D.executeSource condition) fun rows =>
      let condVal := !rows.rows.isEmpty
      let toExecute := if condVal != negated then thenBranch else elseBranch
      andThen (executeImperativeStmts fuel toExecute ⟨[], []⟩) fun
        | .rows r => executeImperativeStmts fuel rest r
        | ctrl => pure (ctrl, [])
  | fuel + 1, .loop label body :: rest =>
    andThen (executeLoop fuel label body) fun
      | .rows r => executeImperativeStmts fuel rest r
      | ctrl => pure (ctrl, [])
  | _ + 1, .tempSwap left right :: _ => do
    D.tempSwap left right
    pure (.rows ⟨[], []⟩, [])

def executeLoop (fuel : Nat) (label : Option String) (body : List ImperativeStmt) :
    SessionM (Flow × Cleanups) :=
  match fuel with
  | 0 => throw processKilled
  | fuel + 1 =>
    andThen (executeImperativeStmts fuel body ⟨[], []⟩) fun
      | .rows _ => executeLoop fuel label body
      | .termination returned => pure (.termination returned, [])
      | .breakTo target =>
        if target.isNone || target == label then pure (.rows ⟨[], []⟩, [])
        else pure (.breakTo target, [])
      | .continueTo target =>
        if target.isNone || target == label then executeLoop fuel label body
        else pure (.continueTo target, [])

end

def servingCallbacks (isWrite : Bool) : Db :=
  { D with callbackTargets := if isWrite then D.callbackTargets else [] }

/-- `execute_imperative`. -/
def executeImperative (fuel : Nat) (ps : List ImperativeStmt) (d : Database) : Database :=
  let isWrite := ImperativeStmt.anyNeedsWriteLocks ps
  match (D.servingCallbacks isWrite).executeImperativeStmts fuel ps ⟨[], []⟩ (d.transact isWrite) with
  | .error _ s => .ofDropped s
  | .ok (.breakTo _, _) s | .ok (.continueTo _, _) s => .ofDropped s
  | .ok (.rows _, cleanups) s | .ok (.termination _, cleanups) s => endSession .committed cleanups s

/-- `execute_single`. -/
def executeSingle (p : InputProgram) (d : Database) : Database :=
  let isWrite := p.needsWriteLock
  match (D.servingCallbacks isWrite).runQuery p (d.transact isWrite) with
  | .error _ s => .ofDropped s
  | .ok (_, cleanups) s => endSession .committed cleanups s

/-- `run_sys_op`. -/
def runSysOpAlone (op : ParsedSysOp) (d : Database) : Database :=
  match D.runSysOp op.1 (d.transact true) with
  | .error _ s => .ofDropped s
  | .ok _ s => .ofCommitted s

/-! ### Scripts as sequences of statements -/

/-- The statements of two steps, the second of which is run only if the first one succeeds. -/
def thenStatements {α : Type} (m : SessionM (α × Cleanups)) (first : SessionTx → List Statement)
    (next : α → SessionTx → List Statement) (s : SessionTx) : List Statement :=
  first s ++ match m s with
    | .ok r s' => next r.1 s'
    | .error _ _ => []

def storeStatements (storeAs : Option String) (rows : NamedRows) (_ : SessionTx) : List Statement :=
  match storeAs with
  | none => []
  | some name => [.storeAs name rows]

/-- The statements of a program, whether its error is ignored or not. -/
def clauseStatements (c : ImperativeStmtClause) : SessionTx → List Statement :=
  thenStatements (D.runQuery c.prog) (fun _ => [.program c.prog]) (storeStatements c.storeAs)

def sysopStatements (op : ImperativeSysop) : SessionTx → List Statement :=
  thenStatements (D.runStatement (.sysOp op.sysop)) (fun _ => [.sysOp op.sysop])
    (storeStatements op.storeAs)

def sourceStatements : ImperativeSource → SessionTx → List Statement
  | .relation _ => fun _ => []
  | .clause c => D.clauseStatements c

def returnsStatements : List ImperativeSource → SessionTx → List Statement
  | [] => fun _ => []
  | source :: rest =>
    thenStatements (D.executeSource source) (D.sourceStatements source) fun _ => returnsStatements rest

mutual

/-- **The statements that a script comes to run from a state**, in this order. The last one may have
failed, and so may those whose error is ignored. -/
def scriptStatements (fuel : Nat) (ps : List ImperativeStmt) : SessionTx → List Statement :=
  match fuel, ps with
  | _, [] => fun _ => []
  | 0, _ :: _ => fun _ => []
  | _ + 1, .breakTo _ :: _ => fun _ => []
  | _ + 1, .continueTo _ :: _ => fun _ => []
  | _ + 1, .returns returned :: _ => D.returnsStatements returned.reverse
  | fuel + 1, .tempDebug temp :: rest =>
    thenStatements (D.executeSource (.relation temp)) (D.sourceStatements (.relation temp)) fun _ =>
      scriptStatements fuel rest
  | fuel + 1, .sysOp op :: rest =>
    thenStatements (D.executeImperativeSysop op) (D.sysopStatements op) fun _ => scriptStatements fuel rest
  | fuel + 1, .program c :: rest =>
    thenStatements (D.executeClause c) (D.clauseStatements c) fun _ => scriptStatements fuel rest
  | fuel + 1, .ignoreErrorProgram c :: rest =>
    thenStatements (D.executeIgnoringError c) (D.clauseStatements c) fun _ => scriptStatements fuel rest
  | fuel + 1, .ifElse condition thenBranch elseBranch negated :: rest =>
    thenStatements (D.executeSource condition) (D.sourceStatements condition) fun rows =>
      let condVal := !rows.rows.isEmpty
      let toExecute := if condVal != negated then thenBranch else elseBranch
      thenStatements (D.executeImperativeStmts fuel toExecute ⟨[], []⟩)
        (scriptStatements fuel toExecute) fun
        | .rows _ => scriptStatements fuel rest
        | _ => fun _ => []
  | fuel + 1, .loop label body :: rest =>
    thenStatements (D.executeLoop fuel label body) (loopStatements fuel label body) fun
      | .rows _ => scriptStatements fuel rest
      | _ => fun _ => []
  | _ + 1, .tempSwap left right :: _ => fun _ => [.tempSwap left right]

def loopStatements (fuel : Nat) (label : Option String) (body : List ImperativeStmt) :
    SessionTx → List Statement :=
  match fuel with
  | 0 => fun _ => []
  | fuel + 1 =>
    thenStatements (D.executeImperativeStmts fuel body ⟨[], []⟩) (scriptStatements fuel body) fun
      | .rows _ => loopStatements fuel label body
      | .termination _ => fun _ => []
      | .breakTo _ => fun _ => []
      | .continueTo target =>
        if target.isNone || target == label then loopStatements fuel label body else fun _ => []

end

/-- How a script ends the transaction. -/
def scriptEnd (fuel : Nat) (ps : List ImperativeStmt) (s : SessionTx) : SessionEnd :=
  match D.executeImperativeStmts fuel ps ⟨[], []⟩ s with
  | .ok (.rows _, _) _ | .ok (.termination _, _) _ => .committed
  | _ => .dropped

/-- Whatever the outcome, the computation has done what the statements do, and returns the ranges
collected by them. -/
def Traced {α : Type} (m : SessionM (α × Cleanups)) (stmts : SessionTx → List Statement) : Prop :=
  ∀ s, wp m (fun r s' => D.runStatements (stmts s) s = (r.2, s'))
    (fun _ s' => (D.runStatements (stmts s) s).2 = s') s

namespace Traced

variable {D} {α β : Type}

theorem pure (a : α) : D.Traced (pure (a, [])) fun _ => [] := fun _ => rfl

theorem throw (e : SessionError) :
    D.Traced (throw e : SessionM (α × Cleanups)) fun _ => [] := fun _ => rfl

theorem runStatement (stmt : Statement) : D.Traced (D.runStatement stmt) fun _ => [stmt] := by
  intro s
  unfold wp
  split <;> simp_all [runStatements]

theorem andThen {m : SessionM (α × Cleanups)} {f : α → SessionM (β × Cleanups)}
    {first : SessionTx → List Statement} {next : α → SessionTx → List Statement}
    (hm : D.Traced m first) (hf : ∀ a, D.Traced (f a) (next a)) :
    D.Traced (Db.andThen m f) (thenStatements m first next) := by
  intro s
  have hfirst := hm s
  unfold thenStatements
  cases hms : m s with
  | error e s' =>
    rw [wp_iff_of_error hms] at hfirst
    rw [Db.andThen, wp_bind, wp_iff_of_error hms, List.append_nil]
    exact hfirst
  | ok r s' =>
    rw [wp_iff_of_ok hms] at hfirst
    rw [Db.andThen, wp_bind, wp_iff_of_ok hms, wp_bind]
    refine wp_mono (hf r.1 s') (fun r' s'' h => ?_) fun _ s'' h => ?_
    · rw [wp_pure, runStatements_append, hfirst, h]
    · rw [runStatements_append, hfirst, h]

theorem of_final_eq {m : SessionM α} (h : ∀ s, final m s = s) :
    D.Traced (do let a ← m; Pure.pure (a, [])) fun _ => [] := by
  intro s
  cases hms : m s with
  | error e s' => exact (wp_bind.trans (wp_iff_of_error hms)).2 ((h s).symm.trans (final_eq_of_error hms))
  | ok a s' =>
    rw [wp_bind, wp_iff_of_ok hms, wp_pure, ← final_eq_of_ok hms, h s]
    rfl

theorem of_statement {m : SessionM α} (stmt : Statement) (a : α → β) (r : NamedRows)
    (h : D.runStatement stmt = do let _ ← m; Pure.pure (r, [])) :
    D.Traced (do let x ← m; Pure.pure (a x, [])) fun _ => [stmt] := by
  intro s
  cases hms : m s with
  | error e s' =>
    have hs : D.runStatement stmt s = .error e s' := by
      rw [h]
      simp only [bind, EStateM.bind, hms]
    rw [wp_bind, wp_iff_of_error hms]
    simp only [runStatements, hs]
  | ok x s' =>
    have hs : D.runStatement stmt s = .ok (r, []) s' := by
      rw [h]
      simp only [bind, EStateM.bind, hms]
      rfl
    rw [wp_bind, wp_iff_of_ok hms, wp_pure]
    simp only [runStatements, hs, List.nil_append]

end Traced

theorem traced_storeResult (storeAs : Option String) (r : NamedRows) :
    D.Traced (D.storeResult storeAs r) (storeStatements storeAs r) := by
  cases storeAs with
  | none => exact Traced.pure r
  | some name => exact Traced.of_statement (.storeAs name r) (fun _ => r) _ rfl

theorem traced_executeClause (c : ImperativeStmtClause) :
    D.Traced (D.executeClause c) (D.clauseStatements c) :=
  (Traced.runStatement (.program c.prog)).andThen (D.traced_storeResult c.storeAs)

theorem traced_executeIgnoringError (c : ImperativeStmtClause) :
    D.Traced (D.executeIgnoringError c) (D.clauseStatements c) := by
  intro s
  cases hrun : D.runQuery c.prog s with
  | error e s' =>
    simp [wp, executeIgnoringError, hrun, clauseStatements, thenStatements, runStatements, runStatement]
  | ok r s' =>
    have heq : D.executeIgnoringError c s = D.executeClause c s := by
      simp only [executeIgnoringError, hrun, executeClause, andThen, bind, EStateM.bind]
      rfl
    rw [wp, heq]
    exact D.traced_executeClause c s

theorem traced_executeSource (source : ImperativeSource) :
    D.Traced (D.executeSource source) (D.sourceStatements source) := by
  cases source with
  | relation name =>
    exact Traced.of_final_eq ((Reads.getRelation D.toSerde name).bind fun _ =>
      (Reads.scanAll D.toSerde _).bind fun _ => Reads.pure _)
  | clause c => exact D.traced_executeClause c

theorem traced_executeReturns (sources : List ImperativeSource) (returned : List NamedRows) :
    D.Traced (D.executeReturns sources returned) (D.returnsStatements sources) := by
  induction sources generalizing returned with
  | nil => exact Traced.pure _
  | cons source rest ih => exact (D.traced_executeSource source).andThen fun rows => ih _

mutual

/-- **An imperative script is the sequence of its statements.** -/
theorem traced_executeImperativeStmts (fuel : Nat) (ps : List ImperativeStmt) (ret : NamedRows) :
    D.Traced (D.executeImperativeStmts fuel ps ret) (D.scriptStatements fuel ps) := by
  match fuel, ps with
  | _, [] => rw [executeImperativeStmts, scriptStatements]; exact Traced.pure _
  | 0, _ :: _ => rw [executeImperativeStmts, scriptStatements]; exact Traced.throw _
  | fuel + 1, stmt :: rest =>
    have hrest := fun r => traced_executeImperativeStmts fuel rest r
    cases stmt with
    | breakTo target | continueTo target =>
      rw [executeImperativeStmts, scriptStatements]; exact Traced.pure _
    | returns returned => rw [executeImperativeStmts, scriptStatements]; exact D.traced_executeReturns _ _
    | tempDebug temp =>
      rw [executeImperativeStmts, scriptStatements]
      exact (D.traced_executeSource _).andThen fun _ => hrest _
    | sysOp op =>
      rw [executeImperativeStmts, scriptStatements]
      exact ((Traced.runStatement _).andThen (D.traced_storeResult _)).andThen hrest
    | program c =>
      rw [executeImperativeStmts, scriptStatements]
      exact (D.traced_executeClause c).andThen hrest
    | ignoreErrorProgram c =>
      rw [executeImperativeStmts, scriptStatements]
      exact (D.traced_executeIgnoringError c).andThen hrest
    | ifElse condition thenBranch elseBranch negated =>
      rw [executeImperativeStmts, scriptStatements]
      refine (D.traced_executeSource condition).andThen fun rows =>
        (traced_executeImperativeStmts fuel _ _).andThen fun flow => ?_
      cases flow with
      | rows r => exact hrest r
      | _ => exact Traced.pure _
    | loop label body =>
      rw [executeImperativeStmts, scriptStatements]
      refine (traced_executeLoop fuel label body).andThen fun flow => ?_
      cases flow with
      | rows r => exact hrest r
      | _ => exact Traced.pure _
    | tempSwap left right =>
      rw [executeImperativeStmts, scriptStatements]
      exact Traced.of_statement (.tempSwap left right) _ _ rfl

theorem traced_executeLoop (fuel : Nat) (label : Option String) (body : List ImperativeStmt) :
    D.Traced (D.executeLoop fuel label body) (D.loopStatements fuel label body) := by
  match fuel with
  | 0 => rw [executeLoop, loopStatements]; exact Traced.throw _
  | fuel + 1 =>
    rw [executeLoop, loopStatements]
    refine (traced_executeImperativeStmts fuel body _).andThen fun flow => ?_
    cases flow with
    | rows r => exact traced_executeLoop fuel label body
    | termination returned => exact Traced.pure _
    | breakTo target =>
      dsimp only
      split
      · exact Traced.pure _
      · exact Traced.pure _
    | continueTo target =>
      dsimp only
      split
      · exact traced_executeLoop fuel label body
      · exact Traced.pure _

end

/-- **A script is the session of the statements it comes to run.** -/
theorem executeImperative_eq (fuel : Nat) (ps : List ImperativeStmt) (d : Database) :
    let isWrite := ImperativeStmt.anyNeedsWriteLocks ps
    let D' := D.servingCallbacks isWrite
    D.executeImperative fuel ps d =
      D'.runSession isWrite (D'.scriptStatements fuel ps (d.transact isWrite))
      (D'.scriptEnd fuel ps (d.transact isWrite)) d := by
  rw [executeImperative]
  dsimp only
  generalize ImperativeStmt.anyNeedsWriteLocks ps = isWrite
  generalize D.servingCallbacks isWrite = D'
  have hstmts := D'.traced_executeImperativeStmts fuel ps ⟨[], []⟩ (d.transact isWrite)
  rw [runSession, scriptEnd]
  cases h : D'.executeImperativeStmts fuel ps ⟨[], []⟩ (d.transact isWrite) with
  | error e s =>
    rw [wp_iff_of_error h] at hstmts
    rw [← hstmts]
    rfl
  | ok r s =>
    rw [wp_iff_of_ok h] at hstmts
    obtain ⟨flow, cleanups⟩ := r
    rw [hstmts]
    cases flow <;> rfl

end Db

end Session

end Retia
