import Mathlib
import Retia.Runtime.Imperative
import Retia.Runtime.Temporary

/-!
# Read transactions

A script is run in a read transaction when it may not write (`ScriptMutability::Immutable`) or when
none of its statements asks for a write lock. What a write in a read transaction does depends on the
engine: the in-memory one rejects it, SQLite applies it as it arrives.

* `kept_runQuery`, `reads_runSysOp` — a statement that asks for no lock, and is not one of the three
  system operations that write without asking for one, leaves the persistent transaction alone;
* `kept_executeImperativeStmts` — so do scripts of such statements;
* `guarded_script_leaves_store` — and so the store is as it was, in engines of both kinds.

The three operations are `::set_triggers`, `::access_level` and `::describe`; the last one is not
refused in read-only mode either.
-/

namespace Retia

open Effect List

namespace Session

open SessionM

/-! ### Statements on temporary relations -/

/-- Nothing has been written to the persistent store. -/
def SameStore (s s' : SessionTx) : Prop := s'.storeTx = s.storeTx

instance : IsPreorder SessionTx SameStore where
  refl _ := rfl
  trans _ _ _ h h' := h'.trans h

theorem sameStore_of_apart {α : Type} {m : SessionM α} (h : Apart m) : Moves SameStore m :=
  fun _ => congrArg Persistent.storeTx (Ignores.get_final h trivial)

section Rows

variable {E : Engine} {m : Engine.Mutation}

theorem reads_putRowIndices (hm : m.Temporary) (key : Bytes) (row : Row) :
    Reads (E.putRowIndices m key row) := by
  have hreplace : ∀ tup, Reads (E.replaceIndices m row tup) := by
    intro tup
    unfold Engine.replaceIndices
    rw [hm.rel.noIndex.1]
    exact fun _ => rfl
  have hold : Reads (E.putOldRow m key row) := by
    refine (Reads.storeGet key).bind fun existing => ?_
    cases existing with
    | none =>
      unfold putInIndex
      rw [hm.rel.noIndex.1]
      exact fun _ => rfl
    | some v => exact (Reads.attempt _).bind fun tup => (hreplace tup).bind fun _ => Reads.pure _
  unfold Engine.putRowIndices Engine.updateInHnsw Engine.putInFts Engine.putInLsh
  rw [hm.processors]
  exact hold.bind fun _ => fun _ => rfl

theorem reads_removeRowIndices (hm : m.Temporary) (key : Bytes) (row : Row) :
    Reads (E.removeRowIndices m key row) := by
  have hold : Reads (E.removeOldRow m key row) := by
    unfold Engine.removeOldRow Engine.delInFts Engine.delInLsh delInIndex Engine.removeInHnsw
    rw [hm.processors, hm.rel.noIndex.1]
    refine (Reads.storeGet key).bind fun existing => ?_
    cases existing with
    | none => exact Reads.pure _
    | some v => exact (Reads.attempt _).bind fun tup => fun _ => rfl
  exact hold.bind fun _ => Reads.pure _

theorem sameStore_putRow (hm : m.Temporary) (extractors : List DataExtractor)
    (isInsert : Bool) (tuple : Row) :
    Moves SameStore (E.putRow m extractors isInsert tuple) := by
  unfold Engine.putRow
  rw [hm.rel.isTemp]
  exact (Reads.attempt _).moves.bind fun row => (Reads.attempt _).moves.bind fun key =>
    (Reads.existsIn _ _).moves.bind fun _ => (Reads.bailIf _ _).moves.bind fun _ =>
      (Reads.attempt _).moves.bind fun val =>
        (moves_runOr (reads_putRowIndices hm key row).moves).bind fun _ =>
        (sameStore_of_apart (apart_putIn _ _)).bind fun _ => Moves.pure _

theorem sameStore_removeRow (hm : m.Temporary) (keyExtractors : List DataExtractor)
    (checkExists : Bool)
    (tuple : Row) : Moves SameStore (E.removeRow m keyExtractors checkExists tuple) := by
  unfold Engine.removeRow
  rw [hm.rel.isTemp]
  exact (Reads.attempt _).moves.bind fun row => (Reads.attempt _).moves.bind fun key =>
    (Reads.existsIn _ _).moves.bind fun _ => (Reads.bailIf _ _).moves.bind fun _ =>
      (moves_runOr (reads_removeRowIndices hm key row).moves).bind fun _ =>
        (sameStore_of_apart (apart_delIn _)).bind fun _ => Moves.pure _

end Rows

section Relations

variable (D : Db) {runTrigger : Db.RunTrigger} (propagateTriggers : Bool) (forceCollect : String)
  {rel : RelationHandle}

def LeavesStore (m : SessionM Cleanups) : Prop := Moves SameStore m ∧ Yields (· = []) m

theorem leavesStore_mutate {m : Engine.Mutation} (op : CallbackOp)
    {step : Row → SessionM (List Row × List Row)}
    (hstep : ∀ tuple, Moves SameStore (step tuple)) (rows : List Row) :
    LeavesStore (D.mutate runTrigger propagateTriggers forceCollect m op [] step rows) := by
  have htriggers : ∀ args, runOr propagateTriggers (Db.runTriggers runTrigger args []) [] = pure [] := by
    intro args
    cases propagateTriggers <;> rfl
  have hcollect : ∀ new old, LeavesStore
      (D.collectMutations runTrigger propagateTriggers forceCollect m.rel op [] new old) := by
    intro new old
    unfold Db.collectMutations
    rw [htriggers]
    refine ⟨(Moves.pure _).bind fun _ => (moves_runOr (R := SameStore) ?_).bind fun _ => Moves.pure _, ?_⟩
    · exact Moves.modify fun _ => rfl
    exact (Yields.pure (F := (· = [])) rfl).bind fun cleanups hc =>
      (Yields.trivial _).bind fun _ _ => Yields.pure hc
  unfold Db.mutate
  constructor
  · exact (moves_eachRow hstep rows).bind fun got => moves_runOr (hcollect _ _).1
  · refine (Yields.trivial _).bind ?_
    rintro ⟨new, old⟩ -
    dsimp only
    unfold runOr
    split
    · exact (hcollect _ _).2
    · exact Yields.pure rfl

theorem LeavesStore.reads_bind {α : Type} {n : SessionM α} {f : α → SessionM Cleanups}
    (hn : Reads n) (hf : ∀ a, LeavesStore (f a)) : LeavesStore (n >>= f) :=
  ⟨hn.moves.bind fun a => (hf a).1, (Yields.trivial n).bind fun a _ => (hf a).2⟩

/-- **A mutation of a temporary relation** leaves the persistent store alone, also if it returns
rows. -/
theorem leavesStore_mutateRelation (hrel : rel.Temporary) (op : RelationOp)
    (input : InputRelationHandle) (headers : List Symbol) (rows : List Row) :
    LeavesStore (D.mutateRelation runTrigger propagateTriggers forceCollect rel
      op input headers rows) := by
  obtain ⟨hput, hrm, -⟩ := hrel.quiet
  have hputInto : ∀ isInsert, LeavesStore
      (D.putIntoRelation runTrigger propagateTriggers forceCollect rel input headers isInsert rows) := by
    intro isInsert
    unfold Db.putIntoRelation
    rw [makeProcessors_of_temporary D hrel, hput]
    refine .reads_bind (Reads.requireLevel _ _ _) fun _ => .reads_bind (Reads.attempt _) fun _ =>
      .reads_bind (Reads.attempt _) fun _ => ?_
    exact leavesStore_mutate D _ _ _ (sameStore_putRow ⟨hrel, rfl⟩ _ _) rows
  have hremove : ∀ checkExists, LeavesStore
      (D.removeFromRelation runTrigger propagateTriggers forceCollect rel input
        headers checkExists rows) := by
    intro checkExists
    unfold Db.removeFromRelation
    rw [makeRemovalProcessors_of_temporary D hrel, hrm]
    refine .reads_bind (Reads.requireLevel _ _ _) fun _ => .reads_bind (Reads.attempt _) fun _ => ?_
    exact leavesStore_mutate D _ _ _ (sameStore_removeRow ⟨hrel, rfl⟩ _ _) rows
  have hcheck : ∀ {n : SessionM Unit}, Reads n → LeavesStore (do n; pure []) := fun hn =>
    .reads_bind hn fun _ => ⟨Moves.pure _, Yields.pure rfl⟩
  cases op with
  | create | replace | put => exact hputInto false
  | insert => exact hputInto true
  | rm => exact hremove false
  | delete => exact hremove true
  | update =>
    unfold Db.mutateRelation Db.updateInRelation
    rw [makeProcessors_of_temporary D hrel, hput]
    refine .reads_bind (Reads.requireLevel _ _ _) fun _ => .reads_bind (Reads.attempt _) fun _ =>
      .reads_bind (Reads.attempt _) fun _ => ?_
    exact leavesStore_mutate D _ _ _ (fun t => sameStore_of_apart (apart_updateRow ⟨hrel, rfl⟩ _ _ t)) rows
  | ensure => exact hcheck (D.reads_ensureInRelation _ _ _ _)
  | ensureNot => exact hcheck (D.reads_ensureNotInRelation _ _ _ _)

end Relations

/-! ### Statements that ask for no lock -/

/-- The persistent transaction is as it was at first, and temporary names are those of temporary
relations. -/
structure Kept (S : Serde) (tx : MemTx) (s : SessionTx) : Prop where
  inv : Inv S tempRegime false s
  storeTx : s.storeTx = tx

section Statements

variable {α : Type} {S : Serde} {tx : MemTx}

variable {m : SessionM α}

theorem Kept.of_keeps {F : α → Prop} (hk : Keeps (Inv S tempRegime false) F m)
    (hm : ∀ s, Inv S tempRegime false s → (final m s).storeTx = s.storeTx) :
    Keeps (Kept S tx) F m := by
  intro s hs
  have hinv := hk s hs.inv
  have hstore := (hm s hs.inv).trans hs.storeTx
  unfold wp at hinv ⊢
  unfold final at hstore
  cases hr : m s with
  | ok a s' =>
    rw [hr] at hinv hstore
    exact ⟨⟨hinv.1, hstore⟩, hinv.2⟩
  | error e s' =>
    rw [hr] at hinv hstore
    exact ⟨hinv, hstore⟩

theorem Kept.of_reads (h : Reads m) : Keeps (Kept S tx) (fun _ => True) m :=
  Kept.of_keeps (keeps_of_reads h) fun s _ => congrArg SessionTx.storeTx (h s)

theorem storeTx_of_isolated (h : Isolated (Inv S tempRegime false) m) (s : SessionTx)
    (hs : Inv S tempRegime false s) : (final m s).storeTx = s.storeTx :=
  congrArg Persistent.storeTx (Ignores.get_final h hs)

variable (D : Db)

theorem kept_findRelation {name : String} (hname : isTempStoreName name = true) :
    Keeps (Kept D.toSerde tx) (fun found => ∀ h, found = some h →
      h.Temporary) (D.findRelation name) := by
  refine Kept.of_keeps (fun s hs => ?_) fun s _ => congrArg SessionTx.storeTx (Reads.findRelation D name s)
  refine wp_mono (wp_findRelation D name s) ?_ fun _ _ h => h.elim
  rintro found s' ⟨rfl, hr⟩
  refine ⟨hs, fun h hh => ?_⟩
  have hr := hr h hh
  rw [hname] at hr
  exact hs.temp name h hr

theorem kept_replaceRelation {runTrigger : Db.RunTrigger} (propagateTriggers : Bool)
    {name : String} (hname : isTempStoreName name = true) :
    Keeps (Kept D.toSerde tx) (· = ([], none))
    (D.replaceRelation runTrigger propagateTriggers name) := by
  unfold Db.replaceRelation
  refine (Kept.of_reads (Reads.bailIf _ _)).bind fun _ _ =>
    (kept_findRelation D hname).bind fun found hfound => ?_
  cases found with
  | none => exact Keeps.pure rfl
  | some old =>
    obtain ⟨hput, hrm, hreplace⟩ := (hfound old rfl).quiet
    dsimp only
    rw [hreplace]
    refine (Kept.of_reads (Reads.bailIf _ _)).bind fun _ _ =>
      (Kept.of_reads (Reads.requireLevel _ _ _)).bind
      fun _ _ => (Keeps.pure (F := (· = [])) rfl).bind fun cleanups hc => ?_
    refine Keeps.bind (F := fun _ => True) ?_ fun destroyed _ => Keeps.pure ?_
    · exact (Kept.of_keeps (keeps_of_keepsWith_nil (keeps_destroyRelation (by simp)))
        fun s _ => sameStore_of_apart (apart_destroyRelation hname) s).mono fun _ _ => trivial
    · simp [hname, hc, RelationHandle.hasTriggers, hput, hrm]

theorem kept_targetRelation {op : RelationOp} {input : InputRelationHandle}
    (hname : isTempStoreName input.name = true) :
    Keeps (Kept D.toSerde tx) RelationHandle.Temporary (D.targetRelation op input) := by
  unfold Db.targetRelation
  split
  · refine Kept.of_keeps (fun s hs => ?_) (storeTx_of_isolated (isolated_createRelation hname))
    refine wp_mono (wp_createRelation (by simp) (by simp [hname]) hs.with_nil) ?_ fun _ _ h => h.toInv
    rintro h s' ⟨hs', -, htemp, hindex, hquiet, hid, -⟩
    exact ⟨hs'.toInv, htemp.trans hname, hid, hindex, hquiet⟩
  · exact Kept.of_keeps (keeps_getRelation_temp hname) fun s _ =>
      sameStore_of_apart (apart_getRelation hname) s

/-- The persistent transaction afterwards, and no ranges to be deleted. -/
abbrev Leaves (tx : MemTx) (m : SessionM Cleanups) (s : SessionTx) : Prop :=
  wp m (fun cleanups s' => s'.storeTx = tx ∧ cleanups = []) (fun _ s' => s'.storeTx = tx) s

theorem LeavesStore.leaves {m : SessionM Cleanups} (h : LeavesStore m)
    {s : SessionTx} (hs : s.storeTx = tx) : Leaves tx m s := by
  have hstore := h.1 s
  have hvalue := h.2 s
  unfold SameStore final at hstore
  unfold Leaves wp
  cases hr : m s with
  | ok c s' =>
    rw [hr] at hstore
    exact ⟨hstore.trans hs, hvalue c s' hr⟩
  | error e s' =>
    rw [hr] at hstore
    exact hstore.trans hs

theorem leaves_executeRelation {runTrigger : Db.RunTrigger} (propagateTriggers : Bool)
    (forceCollect : String)
    {op : RelationOp} {input : InputRelationHandle} (hname : isTempStoreName input.name = true)
    (headers : List Symbol) (rows : List Row) {s : SessionTx} (hs : Kept D.toSerde tx s) :
    Leaves tx (D.executeRelation runTrigger propagateTriggers forceCollect op input headers rows)
    s := by
  have herr : ∀ (_ : SessionError) s', Kept D.toSerde tx s' → s'.storeTx = tx := fun _ _ h => h.storeTx
  have hreplace : Keeps (Kept D.toSerde tx) (· = ([], none))
      (runOr (op = .replace) (D.replaceRelation runTrigger propagateTriggers input.name) ([], none)) := by
    unfold runOr
    split
    · exact kept_replaceRelation D propagateTriggers hname
    · exact Keeps.pure rfl
  unfold Db.executeRelation
  refine hreplace.wp_bind hs herr ?_
  rintro _ s hs rfl
  refine (kept_targetRelation D hname).wp_bind hs herr fun rel s hs hrel => ?_
  dsimp only
  rw [wp_bind]
  refine wp_mono ((leavesStore_mutateRelation D propagateTriggers forceCollect
    hrel op input headers rows).leaves
    hs.storeTx) ?_ fun _ _ => id
  rintro more s' ⟨hstore, rfl⟩
  exact ⟨hstore, rfl⟩

end Statements

section Queries

variable {S : Serde} {tx : MemTx} (D : Db)

/-- **A query that asks for no lock.** -/
theorem kept_runQuery {p : InputProgram} (hp : p.needsWriteLock = false) :
    Keeps (Kept D.toSerde tx) (fun r => r.2 = []) (D.runQuery p) := by
  intro s hs
  have hstore : wp (D.runQuery p) (fun r s' => s'.storeTx = tx ∧ r.2 = [])
      (fun _ s' => s'.storeTx = tx) s := by
    unfold Db.runQuery Db.runQueryWith
    cases htarget : p.storeRelation with
    | none =>
      dsimp only
      rw [wp_bind]
      refine Reads.get.wp (fun _ => ?_) fun _ => hs.storeTx
      rw [wp_bind]
      exact (Reads.attempt _).wp (fun _ => ⟨hs.storeTx, rfl⟩) fun _ => hs.storeTx
    | some target =>
      have hname : isTempStoreName target.handle.name = true := by
        simpa [InputProgram.needsWriteLock, htarget] using hp
      dsimp only
      rw [wp_bind]
      refine (Reads.checkStoreRelation D target).wp (fun _ => ?_) fun _ => hs.storeTx
      rw [wp_bind]
      refine Reads.get.wp (fun _ => ?_) fun _ => hs.storeTx
      rw [wp_bind]
      refine (Reads.attempt _).wp (fun rows => ?_) fun _ => hs.storeTx
      rw [wp_bind]
      refine wp_mono (leaves_executeRelation D true _ hname p.entryHead rows hs) ?_ fun _ _ => id
      rintro cleanups s' ⟨hs', rfl⟩
      rw [wp_bind]
      exact (Reads.getReturningRows D _ _).wp (fun _ => ⟨hs', rfl⟩) fun _ => hs'
  have hinv := wp_runQuery (c := false) D (p := p) (s := s) (G := tempRegime) (fun hmay => by
    obtain ⟨target, htarget, hmay⟩ := hmay
    have hname : isTempStoreName target.handle.name = true := by
      simpa [InputProgram.needsWriteLock, htarget] using hp
    rcases hmay with ⟨-, hpersistent⟩ | hnot
    · rw [hname] at hpersistent
      cases hpersistent
    · exact absurd (quietTarget_of_temp hname hs.inv) hnot) hs.inv
  refine wp_mono (wp_and hinv hstore) ?_ ?_
  · exact fun r s' h => ⟨⟨h.1.1, h.2.1⟩, h.2.2⟩
  · exact fun e s' h => ⟨h.1, h.2⟩

theorem kept_scriptStoreAsRelation {name : String} (hname : isTempStoreName name = true)
    (result : NamedRows) :
    Keeps (Kept D.toSerde tx) (fun _ => True) (D.scriptStoreAsRelation name result) := by
  refine Kept.of_keeps (fun s hs => ?_)
    (storeTx_of_isolated (isolated_scriptStoreAsRelation D hname result))
  refine wp_mono (wp_scriptStoreAsRelation D (fun hno => ?_) hs) (fun _ _ h => ⟨h, trivial⟩) fun _ _ => id
  rcases hno with hpersistent | hnot
  · rw [hname] at hpersistent
    cases hpersistent
  · exact absurd (quietTarget_of_temp hname hs) hnot

theorem kept_tempSwap {left right : String} (hleft : isTempStoreName left = true)
    (hright : isTempStoreName right = true) :
    Keeps (Kept D.toSerde tx) (fun _ => True) (D.tempSwap left right) := by
  refine Kept.of_keeps ?_ fun s _ => sameStore_of_apart (apart_tempSwap D hleft hright) s
  exact (keeps_renameTempRelation (Or.inl hleft) _).bind fun _ _ =>
    (keeps_renameTempRelation (Or.inl hright) _).bind fun _ _ => keeps_renameTempRelation (Or.inl rfl) _

end Queries

/-! ### Scripts that ask for no lock -/

/-- The operation writes but asks for no lock in a script. -/
def SysOp.writesUnlocked : SysOp → Bool
  | setTriggers .. | setAccessLevel .. | describeRelation .. => true
  | _ => false

variable {d : Database} {op : SysOp}

theorem reads_runSysOp (D : Db) (hlock : op.needsWriteLocks = false)
    (hunlocked : op.writesUnlocked = false) : Reads (D.runSysOp op) := by
  cases op with
  | report rows => exact (Reads.pure ()).bind fun _ => Reads.get.bind fun _ => Reads.attempt _
  | removeRelation names | renameRelation pairs =>
    rw [SysOp.needsWriteLocks, Bool.not_eq_false', List.isEmpty_iff] at hlock
    subst hlock
    exact fun _ => rfl
  | setTriggers | setAccessLevel | describeRelation => cases hunlocked
  | createIndex | createVectorIndex | createFtsIndex | createMinHashLshIndex | removeIndex => cases hlock

namespace ImperativeStmt

def storesTemp (storeAs : Option String) : Bool := storeAs.all isTempStoreName

def sourceStoresTemp : ImperativeSource → Bool
  | .relation _ => true
  | .clause c => storesTemp c.storeAs

mutual

/-- No system operation in the statement writes without a lock, and `%swap` is given temporary
names. Names behind `as` are temporary, as in the grammar. -/
def guarded : ImperativeStmt → Bool
  | program c | ignoreErrorProgram c => storesTemp c.storeAs
  | returns l => l.all sourceStoresTemp
  | sysOp op => !op.sysop.1.writesUnlocked && storesTemp op.storeAs
  | ifElse condition thenBranch elseBranch _ =>
    sourceStoresTemp condition && allGuarded thenBranch && allGuarded elseBranch
  | loop _ body => allGuarded body
  | tempSwap left right => isTempStoreName left && isTempStoreName right
  | tempDebug _ | breakTo _ | continueTo _ => true

def allGuarded : List ImperativeStmt → Bool
  | [] => true
  | stmt :: rest => stmt.guarded && allGuarded rest

end

end ImperativeStmt

section Scripts

variable {tx : MemTx} (D : Db)

open Retia.Session.ImperativeStmt

theorem kept_andThen {α β : Type} {m : SessionM (α × Cleanups)} {f : α → SessionM (β × Cleanups)}
    (hm : Keeps (Kept D.toSerde tx) (fun r => r.2 = []) m)
    (hf : ∀ a, Keeps (Kept D.toSerde tx) (fun r => r.2 = []) (f a)) :
    Keeps (Kept D.toSerde tx) (fun r => r.2 = []) (Db.andThen m f) := by
  refine hm.bind fun r hr => (hf r.1).bind fun r' hr' => Keeps.pure ?_
  rw [hr, hr', append_nil]

theorem kept_storeResult {storeAs : Option String} (h : storesTemp storeAs = true)
    (rows : NamedRows) :
    Keeps (Kept D.toSerde tx) (fun r => r.2 = []) (D.storeResult storeAs rows) := by
  cases storeAs with
  | none => exact Keeps.pure rfl
  | some name => exact (kept_scriptStoreAsRelation D h rows).bind fun _ _ => Keeps.pure rfl

theorem kept_executeClause {c : ImperativeStmtClause} (hlock : c.prog.needsWriteLock = false)
    (h : storesTemp c.storeAs = true) :
    Keeps (Kept D.toSerde tx) (fun r => r.2 = []) (D.executeClause c) :=
  kept_andThen D (kept_runQuery D hlock) (kept_storeResult D h)

theorem kept_executeIgnoringError {c : ImperativeStmtClause}
    (hlock : c.prog.needsWriteLock = false) (h : storesTemp c.storeAs = true) :
    Keeps (Kept D.toSerde tx) (fun r => r.2 = []) (D.executeIgnoringError c) := by
  intro s hs
  have hquery := kept_runQuery D hlock s hs
  unfold wp at hquery
  unfold wp Db.executeIgnoringError
  cases hr : D.runQuery c.prog s with
  | error e s' =>
    rw [hr] at hquery
    exact ⟨hquery, rfl⟩
  | ok r s' =>
    rw [hr] at hquery
    exact kept_andThen D (Keeps.pure (a := r) hquery.2) (kept_storeResult D h) s' hquery.1

theorem kept_executeSource {source : ImperativeSource}
    (hlock : sourceNeedsWriteLocks source = false) (h : sourceStoresTemp source = true) :
    Keeps (Kept D.toSerde tx) (fun r => r.2 = []) (D.executeSource source) := by
  cases source with
  | relation name =>
    have hreads : Reads (D.asNamedRows name) :=
      (Reads.getRelation _ _).bind fun _ => (Reads.scanAll _ _).bind fun _ => Reads.pure _
    exact (Kept.of_reads hreads).bind fun _ _ => Keeps.pure rfl
  | clause c => exact kept_executeClause D hlock h

theorem kept_executeReturns {l : List ImperativeSource}
    (hlock : l.any sourceNeedsWriteLocks = false)
    (h : l.all sourceStoresTemp = true) (returned : List NamedRows) :
    Keeps (Kept D.toSerde tx) (fun r => r.2 = []) (D.executeReturns l returned) := by
  induction l generalizing returned with
  | nil => exact Keeps.pure rfl
  | cons source rest ih =>
    rw [any_cons, Bool.or_eq_false_iff] at hlock
    rw [all_cons, Bool.and_eq_true] at h
    exact kept_andThen D (kept_executeSource D hlock.1 h.1) fun rows => ih hlock.2 h.2 _

theorem kept_continueWith {fuel : Nat} {rest : List ImperativeStmt}
    (hrest : ∀ r, Keeps (Kept D.toSerde tx) (fun r => r.2 = [])
      (D.executeImperativeStmts fuel rest r))
    (flow : Flow) : Keeps (Kept D.toSerde tx) (fun r => r.2 = [])
    (D.continueWith fuel rest flow) := by
  cases flow with
  | rows r => exact hrest r
  | termination rs | breakTo t | continueTo t => exact Keeps.pure rfl

/-- **A script that asks for no lock**, with all its branches and loops. -/
theorem kept_executeImperativeStmts (fuel : Nat) :
    (∀ ps ret, anyNeedsWriteLocks ps = false → allGuarded ps = true →
      Keeps (Kept D.toSerde tx) (fun r => r.2 = []) (D.executeImperativeStmts fuel ps ret)) ∧
    ∀ label body, anyNeedsWriteLocks body = false → allGuarded body = true →
    Keeps (Kept D.toSerde tx) (fun r => r.2 = []) (D.executeLoop fuel label body) := by
  induction fuel with
  | zero =>
    constructor
    · intro ps ret hlock hguard
      cases ps with
      | nil =>
        rw [Db.executeImperativeStmts]
        exact Keeps.pure rfl
      | cons p rest => simp only [Db.executeImperativeStmts]; exact Keeps.throw _
    · intro label body hlock hguard
      rw [Db.executeLoop]
      exact Keeps.throw _
  | succ fuel ih =>
    obtain ⟨ihStmts, ihLoop⟩ := ih
    constructor
    · intro ps ret hlock hguard
      cases ps with
      | nil =>
        rw [Db.executeImperativeStmts]
        exact Keeps.pure rfl
      | cons p rest =>
        rw [anyNeedsWriteLocks, Bool.or_eq_false_iff] at hlock
        rw [allGuarded, Bool.and_eq_true] at hguard
        obtain ⟨hlock, hlockRest⟩ := hlock
        obtain ⟨hguard, hguardRest⟩ := hguard
        have hrest := fun r => ihStmts rest r hlockRest hguardRest
        cases p with
        | breakTo t | continueTo t => simp only [Db.executeImperativeStmts]; exact Keeps.pure rfl
        | returns l =>
          simp only [Db.executeImperativeStmts]
          rw [needsWriteLocks] at hlock
          rw [guarded] at hguard
          exact kept_executeReturns D (by rwa [any_reverse]) (by rwa [all_reverse]) []
        | tempDebug temp =>
          simp only [Db.executeImperativeStmts]
          exact kept_andThen D (kept_executeSource D rfl rfl) fun _ => hrest _
        | sysOp op =>
          simp only [Db.executeImperativeStmts]
          rw [needsWriteLocks] at hlock
          rw [guarded, Bool.and_eq_true, Bool.not_eq_true'] at hguard
          refine kept_andThen D (kept_andThen D ?_ (kept_storeResult D hguard.2)) fun rows => hrest rows
          exact (Kept.of_reads (reads_runSysOp D hlock hguard.1)).bind fun _ _ => Keeps.pure rfl
        | program c =>
          simp only [Db.executeImperativeStmts]
          rw [needsWriteLocks] at hlock
          rw [guarded] at hguard
          exact kept_andThen D (kept_executeClause D hlock hguard) fun rows => hrest rows
        | ignoreErrorProgram c =>
          simp only [Db.executeImperativeStmts]
          rw [needsWriteLocks] at hlock
          rw [guarded] at hguard
          exact kept_andThen D (kept_executeIgnoringError D hlock hguard) fun rows => hrest rows
        | ifElse condition thenBranch elseBranch negated =>
          simp only [Db.executeImperativeStmts]
          rw [needsWriteLocks, Bool.or_eq_false_iff, Bool.or_eq_false_iff] at hlock
          rw [guarded, Bool.and_eq_true, Bool.and_eq_true] at hguard
          refine kept_andThen D (kept_executeSource D hlock.1.1 hguard.1.1) fun rows =>
            kept_andThen D ?_ (kept_continueWith D hrest)
          split
          · exact ihStmts thenBranch _ hlock.1.2 hguard.1.2
          · exact ihStmts elseBranch _ hlock.2 hguard.2
        | loop label body =>
          simp only [Db.executeImperativeStmts]
          rw [needsWriteLocks] at hlock
          rw [guarded] at hguard
          exact kept_andThen D (ihLoop label body hlock hguard) (kept_continueWith D hrest)
        | tempSwap left right =>
          simp only [Db.executeImperativeStmts]
          rw [guarded, Bool.and_eq_true] at hguard
          exact (kept_tempSwap D hguard.1 hguard.2).bind fun _ _ => Keeps.pure rfl
    · intro label body hlock hguard
      rw [Db.executeLoop]
      refine kept_andThen D (ihStmts body _ hlock hguard) fun flow => ?_
      cases flow with
      | rows r => exact ihLoop label body hlock hguard
      | termination rs => exact Keeps.pure rfl
      | breakTo t => dsimp only; split <;> exact Keeps.pure rfl
      | continueTo t =>
        dsimp only
        split
        · exact ihLoop label body hlock hguard
        · exact Keeps.pure rfl

end Scripts

/-! ### Running a script -/

/-- What an engine makes of a write in a read transaction. -/
inductive ReadTx where
  | rejects
  | applies
deriving DecidableEq

inductive RetiaScript where
  | single (p : InputProgram)
  | imperative (ps : List ImperativeStmt)
  | sys (op : ParsedSysOp)

/-- What `run_sys_op_with_tx` answers in read-only mode before anything else. `::describe` has no
such answer. -/
def SysOp.readOnlyRefusal : SysOp → Option String
  | report _ | describeRelation .. => none
  | removeRelation _ => some "Cannot remove relations in read-only mode"
  | renameRelation _ => some "Cannot rename relations in read-only mode"
  | setTriggers .. => some "Cannot set triggers in read-only mode"
  | setAccessLevel .. => some "Cannot set access level in read-only mode"
  | createIndex .. => some "Cannot create index in read-only mode"
  | createVectorIndex .. => some "Cannot create vector index in read-only mode"
  | createFtsIndex _ => some "Cannot create fts index in read-only mode"
  | createMinHashLshIndex _ => some "Cannot create minhash lsh index in read-only mode"
  | removeIndex .. => some "Cannot remove index in read-only mode"

/-- The operation in a mode: one that is refused reports that. -/
def SysOp.inMode (readOnly : Bool) (op : SysOp) : SysOp :=
  if readOnly then
    match op.readOnlyRefusal with
    | some refusal => .report fun _ => .error (.bail refusal)
    | none => op
  else op

theorem SysOp.wellNamed_inMode (readOnly : Bool) (h : op.wellNamed = true) :
    (op.inMode readOnly).wellNamed = true := by
  unfold SysOp.inMode
  split
  · split
    · rfl
    · exact h
  · exact h

namespace ImperativeStmt

mutual

def inMode (readOnly : Bool) : ImperativeStmt → ImperativeStmt
  | sysOp op => sysOp { op with sysop :=
    ⟨op.sysop.1.inMode readOnly, op.sysop.1.wellNamed_inMode readOnly op.sysop.2⟩ }
  | ifElse condition thenBranch elseBranch negated =>
    ifElse condition (allInMode readOnly thenBranch) (allInMode readOnly elseBranch) negated
  | loop label body => loop label (allInMode readOnly body)
  | stmt => stmt

def allInMode (readOnly : Bool) : List ImperativeStmt → List ImperativeStmt
  | [] => []
  | stmt :: rest => stmt.inMode readOnly :: allInMode readOnly rest

end

end ImperativeStmt

theorem SysOp.needsWriteLocks_inMode (readOnly : Bool) (h : op.needsWriteLocks = false) :
    (op.inMode readOnly).needsWriteLocks = false := by
  unfold SysOp.inMode
  split
  · split
    · rfl
    · exact h
  · exact h

namespace ImperativeStmt

mutual

theorem needsWriteLocks_inMode (readOnly : Bool) : ∀ stmt : ImperativeStmt,
    stmt.needsWriteLocks = false → (stmt.inMode readOnly).needsWriteLocks = false
  | sysOp op, h => by
    rw [needsWriteLocks] at h
    rw [inMode, needsWriteLocks]
    exact op.sysop.1.needsWriteLocks_inMode readOnly h
  | ifElse condition thenBranch elseBranch negated, h => by
    rw [needsWriteLocks, Bool.or_eq_false_iff, Bool.or_eq_false_iff] at h
    rw [inMode, needsWriteLocks, h.1.1, anyNeedsWriteLocks_inMode readOnly thenBranch h.1.2,
      anyNeedsWriteLocks_inMode readOnly elseBranch h.2]
    rfl
  | loop label body, h => by
    rw [needsWriteLocks] at h
    rw [inMode, needsWriteLocks]
    exact anyNeedsWriteLocks_inMode readOnly body h
  | breakTo _, h | continueTo _, h | returns _, h | program _, h | ignoreErrorProgram _, h
  | tempSwap _ _, h | tempDebug _, h => by simpa only [inMode] using h

theorem anyNeedsWriteLocks_inMode (readOnly : Bool) : ∀ ps : List ImperativeStmt,
    anyNeedsWriteLocks ps = false → anyNeedsWriteLocks (allInMode readOnly ps) = false
  | [], h => by simpa only [allInMode] using h
  | stmt :: rest, h => by
    rw [anyNeedsWriteLocks, Bool.or_eq_false_iff] at h
    rw [allInMode, anyNeedsWriteLocks, needsWriteLocks_inMode readOnly stmt h.1,
      anyNeedsWriteLocks_inMode readOnly rest h.2]
    rfl

end

end ImperativeStmt

namespace RetiaScript

def opensWrite : RetiaScript → Bool
  | single p => p.needsWriteLock
  | imperative ps => ImperativeStmt.anyNeedsWriteLocks ps
  | sys _ => true

/-- In the mode, no system operation of the script writes without asking for a lock, and `%swap` is
given temporary names only. -/
def guarded (readOnly : Bool) : RetiaScript → Bool
  | single _ => true
  | imperative ps => ImperativeStmt.allGuarded (ImperativeStmt.allInMode readOnly ps)
  | sys op => !(op.1.inMode readOnly).writesUnlocked

end RetiaScript

namespace Database

def transactRead (e : ReadTx) (d : Database) : SessionTx := d.transact (e = .applies)

/-- The database after a read transaction, whatever the outcome: writes that were applied stay. -/
def ofRead : ReadTx → SessionTx → Database
  | .rejects => ofDropped
  | .applies => ofCommitted

end Database

namespace Db

variable (D : Db)

/-- A computation in a read transaction, with the ranges to be deleted at the end. -/
def runReadTx {α : Type} (e : ReadTx) (m : SessionM (α × Cleanups)) (d : Database) : Database :=
  .ofRead e (final (do
    let r ← m
    delRanges r.2) (d.transactRead e))

def executeBlock (fuel : Nat) (ps : List ImperativeStmt) : SessionM (Flow × Cleanups) := do
  let r ← D.executeImperativeStmts fuel ps ⟨[], []⟩
  bailIf r.1.jump.isSome danglingControlFlow
  pure r

/-- `run_script_ast`: the database after a script. Read-only scripts that ask for a lock are
refused. -/
def runScript (e : ReadTx) (readOnly : Bool) (fuel : Nat) (script : RetiaScript)
    (d : Database) : Database :=
  match script with
  | .single p =>
    if p.needsWriteLock then if readOnly then d else D.executeSingle p d
    else runReadTx e ((D.servingCallbacks false).runQuery p) d
  | .imperative ps =>
    if ImperativeStmt.anyNeedsWriteLocks ps then if readOnly then d else D.executeImperative fuel ps d
    else runReadTx e ((D.servingCallbacks false).executeBlock fuel
      (ImperativeStmt.allInMode readOnly ps)) d
  | .sys op =>
    if readOnly then
      runReadTx e (do
        let rows ← D.runSysOp (op.1.inMode true)
        pure (rows, [])) d
    else D.runSysOpAlone op d

end Db

theorem store_ofRead {e : ReadTx} {s : SessionTx} (h : s.storeTx = (d.transactRead e).storeTx) :
    (Database.ofRead e s).store = d.store := by
  cases e with
  | rejects =>
    show s.storeTx.persisted = d.store
    rw [h]
    rfl
  | applies =>
    show s.storeTx.commit.persisted = d.store
    rw [h]
    rfl

theorem store_runReadTx {α : Type} {S : Serde} {e : ReadTx} {m : SessionM (α × Cleanups)}
    (hinv : Inv S tempRegime false (d.transactRead e))
    (hm : Keeps (Kept S (d.transactRead e).storeTx) (fun r => r.2 = []) m) :
    (Db.runReadTx e m d).store = d.store := by
  refine store_ofRead (Keeps.final (I := Kept S (d.transactRead e).storeTx)
    (F := fun _ => True) ?_ ⟨hinv, rfl⟩).storeTx
  refine hm.bind fun r hr => ?_
  rw [hr]
  exact Keeps.pure trivial

theorem SysOp.needsWriteLocks_readOnly (op : SysOp) : (op.inMode true).needsWriteLocks = false := by
  cases op <;> rfl

/-- A guarded script that is run read-only, or that opens no write transaction, leaves the store,
where all metadata is that of persistent relations. -/
theorem store_runScript {S : Serde} (h : d.Sound S tempRegime) (D : Db) (hD : D.toSerde = S)
    (e : ReadTx) (fuel : Nat) {script : RetiaScript} {readOnly : Bool}
    (hguard : script.guarded readOnly = true)
    (hread : readOnly = true ∨ script.opensWrite = false) :
    (D.runScript e readOnly fuel script d).store = d.store := by
  subst hD
  have hinv : Inv D.toSerde tempRegime false (d.transactRead e) := h.transact _
  cases script with
  | single p =>
    rw [Db.runScript]
    cases hlock : p.needsWriteLock with
    | true =>
      rw [hread.resolve_right (by simp [RetiaScript.opensWrite, hlock])]
      rfl
    | false => exact store_runReadTx hinv (kept_runQuery (D.servingCallbacks false) hlock)
  | imperative ps =>
    rw [Db.runScript]
    cases hlock : ImperativeStmt.anyNeedsWriteLocks ps with
    | true =>
      rw [hread.resolve_right (by simp [RetiaScript.opensWrite, hlock])]
      rfl
    | false =>
      refine store_runReadTx hinv (((kept_executeImperativeStmts (D.servingCallbacks false) fuel).1 _ _
        (ImperativeStmt.anyNeedsWriteLocks_inMode readOnly ps hlock) hguard).bind fun r hr => ?_)
      exact (Kept.of_reads (Reads.bailIf _ _)).bind fun _ _ => Keeps.pure hr
  | sys op =>
    have hmode : readOnly = true := hread.resolve_right (by simp [RetiaScript.opensWrite])
    subst hmode
    rw [Db.runScript]
    rw [RetiaScript.guarded, Bool.not_eq_true'] at hguard
    exact store_runReadTx hinv ((Kept.of_reads
      (reads_runSysOp D (SysOp.needsWriteLocks_readOnly _) hguard)).bind fun _ _ => Keeps.pure rfl)

/-- **Scripts and read transactions**, on every database that has been reached by swapping temporary
relations only, in engines that reject writes in read transactions and in those that apply them. A
script whose system operations all ask for locks when they write, and that swaps temporary relations
only, leaves the persistent store as it is, if it is run read-only, and if it is run in a read
transaction because no statement of it asks for a lock. -/
theorem guarded_script_leaves_store {S : Serde} {d : Database}
    (h : Reached S (fun _ stmt => stmt.SwapsTemp) (fun _ => True) d) (D : Db)
    (hD : D.toSerde = S) (e : ReadTx)
    (fuel : Nat) {script : RetiaScript} {readOnly : Bool} (hguard : script.guarded readOnly = true)
    (hread : readOnly = true ∨ script.opensWrite = false) :
    (D.runScript e readOnly fuel script d).store = d.store :=
  store_runScript (named_of_reached h) D hD e fuel hguard hread

/-- A script that creates and swaps temporary relations, read-only. -/
theorem swapScript_leaves_store :
    (plainDb.runScript .applies true 9 (.imperative swapScript) Database.empty).store =
    Database.empty.store :=
  guarded_script_leaves_store (S := codec) .new plainDb rfl .applies 9
    (show (RetiaScript.imperative swapScript).guarded true = true by decide) (Or.inl rfl)

/-! ### Operations that ask for no lock -/

/-- `::describe r "x"`. -/
def describeOp : ParsedSysOp := ⟨.describeRelation "r" "x", rfl⟩

/-- `{::access_level hidden r}`. -/
def accessScript : List ImperativeStmt := [.sysOp ⟨⟨.setAccessLevel ["r"] .hidden, rfl⟩, none⟩]

/-- Where writes in read transactions are applied, a read-only `::describe` changes the metadata,
and so does a script with `::access_level`, which is not run in a write transaction. -/
theorem unlocked_operations_write :
    (plainDb.runScript .applies true 9 (.sys describeOp) oneRelationDb).store[metaKey "r"]? ≠
        oneRelationDb.store[metaKey "r"]? ∧
        (RetiaScript.imperative accessScript).opensWrite = false ∧
      (plainDb.runScript .applies false 9 (.imperative accessScript)
      oneRelationDb).store[metaKey "r"]? ≠ oneRelationDb.store[metaKey "r"]? := by
  refine ⟨?_, rfl, ?_⟩
  · decide +kernel
  · decide +kernel

end Session

end Retia
