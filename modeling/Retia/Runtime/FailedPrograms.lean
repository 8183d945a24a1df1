import Mathlib
import Retia.Runtime.ReadOnly

/-!
# Programs that fail in a transaction that goes on

A multi-transaction reports the error of a program and goes on with the same transaction, and so
does an imperative script after a program under `%ignore_error`. Nothing undoes what the program has
written before its error, so a later commit makes it persistent.

`Db.runStatementsUndoing` is the run as it is promised: the persistent writes of a statement that
fails are taken back. The actual run is this one when every statement that fails does so before its
first write to the persistent store (`Statement.FailsEarly`):

* `storeTx_of_failsEarly` — the step: what such a statement leaves behind;
* `runStatements_eq_undoing` — the run, by induction over the statements;
* `failed_programs_leave_nothing` — sessions of both kinds.

A `:put` of several rows is not of this kind: it writes row by row, and stops at the first one that
cannot be coerced (`failed_put_is_committed`). Dropping the transaction does not undo everything
either: a removal deletes rows past it (`failed_remove_loses_rows`).
-/

namespace Retia

open Effect

namespace Session

open SessionM

namespace Db

variable (D : Db)

def runStatementsUndoing : List Statement → SessionTx → Cleanups × SessionTx
  | [], s => ([], s)
  | stmt :: rest, s =>
    match D.runStatement stmt s with
    | .ok (_, cleanups) s' =>
      let (more, s'') := runStatementsUndoing rest s'
      (cleanups ++ more, s'')
    | .error _ s' => runStatementsUndoing rest { s' with storeTx := s.storeTx }

def runSessionUndoing (isWrite : Bool) (stmts : List Statement) (how : SessionEnd)
    (d : Database) : Database :=
  let (cleanups, s) := D.runStatementsUndoing stmts (d.transact isWrite)
  endSession how cleanups s

end Db

/-- **If the statement fails, it does so before its first write to the persistent store**: it writes
to no persistent relation, or it only checks rows, or its target or its evaluation is already
refused; an operation only reports. -/
def Statement.FailsEarly (D : Db) (s : SessionTx) : Statement → Prop
  | .program p => p.needsWriteLock = false ∨ ∃ target, p.storeRelation = some target ∧
      (target.op = .ensure ∨ target.op = .ensureNot ∨
        (∃ e s', D.checkStoreRelation target s = .error e s') ∨ ∃ e, p.evaluate s = .error e)
  | .storeAs name _ => isTempStoreName name = true
  | .tempSwap _ _ => True
  | .sysOp op => op.1.needsWriteLocks = false ∧ op.1.writesUnlocked = false

section Step

variable {D : Db} {s s' : SessionTx} {e : SessionError}

theorem reads_runQuery_of_ensure {p : InputProgram} {target : StoreRelation}
    (hp : p.storeRelation = some target)
    (hop : target.op = .ensure ∨ target.op = .ensureNot) : Reads (D.runQuery p) := by
  have hexecute : ∀ force rows,
      Reads (D.executeRelation D.runTriggerQuery true force target.op target.handle p.entryHead rows) := by
    intro force rows
    rcases hop with hop | hop
    · rw [hop]
      exact (Reads.pure _).bind fun _ => (Reads.getRelation _ _).bind fun _ =>
        ((D.reads_ensureInRelation _ _ _ _).bind fun _ => Reads.pure _).bind fun _ => Reads.pure _
    · rw [hop]
      exact (Reads.pure _).bind fun _ => (Reads.getRelation _ _).bind fun _ =>
        ((D.reads_ensureNotInRelation _ _ _ _).bind fun _ => Reads.pure _).bind fun _ => Reads.pure _
  unfold Db.runQuery Db.runQueryWith
  rw [hp]
  exact (Reads.checkStoreRelation D target).bind fun _ => Reads.get.bind fun _ =>
    (Reads.attempt _).bind fun _ =>
    (hexecute _ _).bind fun _ => (Reads.getReturningRows D _ _).bind fun _ => Reads.pure _

theorem state_of_refused {p : InputProgram} {target : StoreRelation}
    (hp : p.storeRelation = some target)
    (hrefused : (∃ e s', D.checkStoreRelation target s = .error e s') ∨
      ∃ e, p.evaluate s = .error e) : final (D.runQuery p) s = s := by
  have hreads := Reads.checkStoreRelation D target s
  unfold Db.runQuery Db.runQueryWith
  rw [hp]
  cases hcheck : D.checkStoreRelation target s with
  | error e s' =>
    rw [final_eq_of_error hcheck] at hreads
    subst hreads
    simp [final, bind, EStateM.bind, hcheck]
  | ok u s' =>
    rw [final_eq_of_ok hcheck] at hreads
    subst hreads
    obtain ⟨e, he⟩ := hrefused.resolve_left (by simp [hcheck])
    simp [final, bind, EStateM.bind, hcheck, get, getThe, MonadStateOf.get,
      EStateM.get, he, attempt, throw, throwThe, MonadExceptOf.throw, EStateM.throw]

/-- **The step**: a statement that fails early leaves the persistent transaction as it was. -/
theorem storeTx_of_failsEarly {stmt : Statement} (hinv : Inv D.toSerde tempRegime false s)
    (hswap : stmt.SwapsTemp) (hearly : stmt.FailsEarly D s)
    (hrun : D.runStatement stmt s = .error e s') : s'.storeTx = s.storeTx := by
  have hkept : ∀ {α : Type} {F : α → Prop} {m : SessionM α}, Keeps (Kept D.toSerde s.storeTx) F m →
      m s = .error e s' → s'.storeTx = s.storeTx := by
    intro α F m hm hms
    have hfinal := (hm.final ⟨hinv, rfl⟩).storeTx
    rwa [final_eq_of_error hms] at hfinal
  cases stmt with
  | program p =>
    -- whatever leaves the whole state leaves the persistent part
    have hsame : final (D.runQuery p) s = s → s'.storeTx = s.storeTx := by
      intro hfinal
      have hquery : D.runQuery p s = .error e s' := hrun
      rw [final_eq_of_error hquery] at hfinal
      rw [hfinal]
    rcases hearly with hlock | ⟨target, hp, hop | hop | hrefused⟩
    · exact hkept (kept_runQuery D hlock) hrun
    · exact hsame (reads_runQuery_of_ensure hp (.inl hop) s)
    · exact hsame (reads_runQuery_of_ensure hp (.inr hop) s)
    · exact hsame (state_of_refused hp hrefused)
  | sysOp op =>
    exact hkept ((Kept.of_reads (reads_runSysOp D hearly.1 hearly.2)).bind
      (G := fun _ => True) fun _ _ => Keeps.pure trivial) hrun
  | storeAs name result =>
    exact hkept ((kept_scriptStoreAsRelation D hearly result).bind (G := fun _ => True) fun _ _ =>
      Keeps.pure trivial) hrun
  | tempSwap left right =>
    exact hkept ((kept_tempSwap D hswap.1 hswap.2).bind (G := fun _ => True) fun _ _ =>
      Keeps.pure trivial) hrun

end Step

/-! ### Runs -/

/-- What is asked of a statement at its turn: it swaps temporary relations only, and if it fails, it
fails early. -/
structure Statement.Recovers (D : Db) (s : SessionTx) (stmt : Statement) : Prop where
  swaps : stmt.SwapsTemp
  early : ∀ e s', D.runStatement stmt s = .error e s' → stmt.FailsEarly D s

section Runs

variable (D : Db)

/-- **The run**: nothing has to be taken back. -/
theorem runStatements_eq_undoing {stmts : List Statement} {s : SessionTx}
    (hok : D.Each (Statement.Recovers D) stmts s) (hinv : Inv D.toSerde tempRegime false s) :
    D.runStatements stmts s = D.runStatementsUndoing stmts s := by
  induction stmts generalizing s with
  | nil => rfl
  | cons stmt rest ih =>
    obtain ⟨hstmt, hrest⟩ := hok
    -- the catalogue after the first statement, whether it has failed or not
    have hallowed : D.Each (Allowed D.toSerde tempRegime) [stmt] s :=
      ⟨⟨fun _ => False.elim, .inl hstmt.swaps⟩, trivial⟩
    have hnext : Inv D.toSerde tempRegime false (D.runStatements [stmt] s).2 :=
      (inv_runStatements D hallowed hinv).1
    rw [Db.runStatements, Db.runStatementsUndoing]
    rw [Db.runStatements] at hnext
    cases hrun : D.runStatement stmt s with
    | ok r s' =>
      rw [final_eq_of_ok hrun] at hrest
      rw [hrun] at hnext
      dsimp only
      rw [ih hrest hnext]
    | error e s' =>
      rw [final_eq_of_error hrun] at hrest
      rw [hrun] at hnext
      have hsame : s'.storeTx = s.storeTx :=
        storeTx_of_failsEarly hinv hstmt.swaps (hstmt.early e s' hrun) hrun
      dsimp only
      rw [ih hrest hnext, ← hsame]

theorem runSession_eq_undoing {d : Database} (hd : d.Sound D.toSerde tempRegime) {isWrite : Bool}
    {stmts : List Statement} (how : SessionEnd)
    (hok : D.Each (Statement.Recovers D) stmts (d.transact isWrite)) :
    D.runSession isWrite stmts how d = D.runSessionUndoing isWrite stmts how d := by
  rw [Db.runSession, Db.runSessionUndoing, runStatements_eq_undoing D hok (hd.transact isWrite)]

/-- **What a failing program has written is not committed**, in the sessions in which the statements
that fail do so early: a multi-transaction, and a script with the statements it comes to run, is the
session in which the writes of every failed statement are taken back. -/
theorem failed_programs_leave_nothing {S : Serde} {d : Database}
    (h : Reached S (fun _ stmt => stmt.SwapsTemp) (fun _ => True) d) (hD : D.toSerde = S) :
    (∀ isWrite payloads,
      D.Each (Statement.Recovers D) (TransactionPayload.session payloads).1 (d.transact isWrite) →
      D.runMultiTransaction isWrite payloads d =
        D.runSessionUndoing isWrite (TransactionPayload.session payloads).1
          (TransactionPayload.session payloads).2 d) ∧
    ∀ fuel ps,
      let isWrite := ImperativeStmt.anyNeedsWriteLocks ps
      let D' := D.servingCallbacks isWrite
      let stmts := D'.scriptStatements fuel ps (d.transact isWrite)
      D'.Each (Statement.Recovers D') stmts (d.transact isWrite) →
      D.executeImperative fuel ps d =
        D'.runSessionUndoing isWrite stmts (D'.scriptEnd fuel ps (d.transact isWrite)) d := by
  subst hD
  have hsound := named_of_reached h
  constructor
  · intro isWrite payloads hok
    rw [D.runMultiTransaction_eq]
    exact runSession_eq_undoing D hsound _ hok
  · intro fuel ps isWrite D' stmts hok
    rw [D.executeImperative_eq]
    exact runSession_eq_undoing D' hsound _ hok

end Runs

/-! ### A row of a program that has failed -/

/-- `:put` of the rows into the relation `r`, or a check that they are there. -/
def onRows (op : RelationOp) (rows : List Row) : InputProgram :=
  { putOne "r" false with
    storeRelation := some ⟨⟨"r", ⟨[⟨"a", .mk .int false, none⟩], []⟩, ["a"], []⟩, op, false⟩
    evaluate := fun _ => .ok rows }

/-- The second row cannot be coerced. -/
def putTwo : InputProgram := onRows .put [[.int 1], [.str (strBytes "x")]]

/-- A check that fails, and a `:put` that does not. -/
def ensureAndPut : List TransactionPayload :=
  [.query (.ok (onRows .ensure [[.int 1]])), .query (.ok (putOne "r" false)), .commit]

/-- The same in a script, which ignores the error of the check. -/
def ensureAndPutScript : List ImperativeStmt :=
  [.ignoreErrorProgram ⟨onRows .ensure [[.int 1]], none⟩, .program ⟨putOne "r" false, none⟩]

theorem failed_ensure_leaves_nothing :
    isFailure (plainDb.runQuery (onRows .ensure [[.int 1]]) (oneRelationDb.transact true)) = true ∧
      plainDb.runMultiTransaction true ensureAndPut oneRelationDb =
        plainDb.runSessionUndoing true (TransactionPayload.session ensureAndPut).1
          (TransactionPayload.session ensureAndPut).2 oneRelationDb ∧
      plainDb.executeImperative 9 ensureAndPutScript oneRelationDb =
        plainDb.runSessionUndoing true
          (plainDb.scriptStatements 9 ensureAndPutScript (oneRelationDb.transact true))
          (plainDb.scriptEnd 9 ensureAndPutScript (oneRelationDb.transact true)) oneRelationDb := by
  have hreached : Reached codec (fun _ stmt => stmt.SwapsTemp) (fun _ => True) oneRelationDb :=
    .session .new plainDb rfl true _ .committed ⟨trivial, trivial⟩
  have hensure : isFailure (plainDb.runQuery (onRows .ensure [[.int 1]])
      (oneRelationDb.transact true)) = true := by decide +kernel
  have hput : isFailure (plainDb.runQuery (putOne "r" false)
      (final (plainDb.runQuery (onRows .ensure [[.int 1]])) (oneRelationDb.transact true))) = false := by
    decide +kernel
  have hrecovers : plainDb.Each (Statement.Recovers plainDb) (TransactionPayload.session ensureAndPut).1
      (oneRelationDb.transact true) := by
    refine ⟨⟨trivial, fun _ _ _ => .inr ⟨_, rfl, .inl rfl⟩⟩, ⟨trivial, ?_⟩, trivial⟩
    intro e s' hrun
    have hquery : plainDb.runQuery (putOne "r" false)
        (final (plainDb.runQuery (onRows .ensure [[.int 1]])) (oneRelationDb.transact true)) =
          .error e s' := hrun
    rw [hquery] at hput
    exact (Bool.false_ne_true hput.symm).elim
  -- the script comes to run both programs, the first one with its error
  have hstmts : plainDb.scriptStatements 9 ensureAndPutScript (oneRelationDb.transact true) =
      (TransactionPayload.session ensureAndPut).1 := by
    obtain ⟨e, s', hrun⟩ := isFailure_iff.1 hensure
    have hignored : plainDb.executeIgnoringError ⟨onRows .ensure [[.int 1]], none⟩
        (oneRelationDb.transact true) = .ok (Db.statusFailed, []) s' := by
      rw [Db.executeIgnoringError, hrun]
    rw [ensureAndPutScript, Db.scriptStatements, Db.thenStatements, hignored, Db.clauseStatements,
      Db.thenStatements, hrun]
    dsimp only
    rw [Db.scriptStatements, Db.thenStatements, Db.clauseStatements, Db.thenStatements]
    cases plainDb.runQuery (putOne "r" false) s' <;>
      cases plainDb.executeClause ⟨putOne "r" false, none⟩ s' <;> rfl
  have hboth := failed_programs_leave_nothing plainDb hreached rfl
  exact ⟨hensure, hboth.1 true ensureAndPut hrecovers,
    hboth.2 9 ensureAndPutScript (hstmts.symm ▸ hrecovers)⟩

/-- **The first row of a program that fails at its second one is committed**, in a multi-transaction
and by a script that ignores the error. -/
theorem failed_put_is_committed :
    let k := Row.key [.int 1] ⟨1, by decide⟩
    isFailure (plainDb.runQuery putTwo (oneRelationDb.transact true)) = true ∧
      (plainDb.runMultiTransaction true [.query (.ok putTwo), .commit] oneRelationDb).store[k]?.isSome ∧
      (plainDb.executeImperative 9 [.ignoreErrorProgram ⟨putTwo, none⟩] oneRelationDb).store[k]?.isSome ∧
      (plainDb.runSessionUndoing true [.program putTwo] .committed oneRelationDb).store[k]? = none := by
  decide +kernel

/-! ### What is gone although the transaction is dropped -/

/-- A database with a relation `r` that has the row 1, and an index of it on its column. -/
def indexedRowDb : Database :=
  plainDb.runSession true
    [.program (createWith "r" [[.int 1]]), .sysOp ⟨.createIndex "r" "j" ["a"], rfl⟩] .committed .empty

/-- **A script that removes an index, or the index and the relation, and then fails has lost their
rows.** The rows are deleted from the persisted part of the store at once; the metadata is not. -/
theorem failed_remove_loses_rows :
    let row := Row.key [.int 1] ⟨1, by decide⟩
    let indexRow := Row.key [.int 1] ⟨2, by decide⟩
    let drop := ImperativeStmt.sysOp ⟨⟨.removeIndex "r" "j", rfl⟩, none⟩
    let remove := ImperativeStmt.sysOp ⟨⟨.removeRelation ["r"], rfl⟩, none⟩
    let afterDrop := plainDb.executeImperative 9 [drop, .program ⟨putTwo, none⟩] indexedRowDb
    let afterRemove := plainDb.executeImperative 9 [drop, remove, .program ⟨putTwo, none⟩] indexedRowDb
    indexedRowDb.store[row]?.isSome ∧ indexedRowDb.store[indexRow]?.isSome ∧
      (plainDb.executeImperativeResult 9 [drop, .program ⟨putTwo, none⟩] indexedRowDb).isOk = false ∧
      afterDrop.store[indexRow]? = none ∧ afterDrop.store[metaKey "r:j"]?.isSome ∧
      (plainDb.executeImperativeResult 9 [drop, remove, .program ⟨putTwo, none⟩]
        indexedRowDb).isOk = false ∧
      afterRemove.store[row]? = none ∧ afterRemove.store[metaKey "r"]?.isSome := by
  decide +kernel

end Session

end Retia
