import Mathlib
import Retia.Runtime.Tables
import Retia.Runtime.Temporary

/-!
# Returned rows

A mutation with `:returning` answers with the rows it has inserted and replaced, or was asked to
delete and has deleted. It does not remember them itself: `run_query` reads them back from the
collector of the transaction, in which mutations leave what they did for the callbacks.

* **What is collected of one statement is what it did** (`Reports`): of every row it says how the
  relation has changed and which row was there before (`report_of_putRow`, `report_of_updateRow`,
  `report_of_removeRow`).
* The collector only grows (`Grows`), at the end, and a statement is answered with everything that
  it holds for the relation (`runQuery_eq_ok`). So the answer is right exactly if nothing was
  collected for the relation before.
-/

namespace Retia

open Effect List

namespace Session

open SessionM

/-! ### What is reported of a row -/

/-- **What is reported of one row is what happens to the relation**: only the row with the key
changes, and the old row is the one that was there. -/
structure Report (S : Serde) (rel : IndexRelation) (op : CallbackOp) (row : Row)
    (old : List Row) (s s' : SessionTx) : Prop where
  change : ∀ k, keyId k = some rel.id → s'.storeTx.get k =
    if k = rowKey rel row then (match op with | .put => some (rowVal S rel row) | .rm => none)
    else s.storeTx.get k
  there : ∀ t ∈ rowsOf S s.storeTx.get rel, rowKey rel t = rowKey rel row → old = [t]
  absent : s.storeTx.get (rowKey rel row) = none → old = []

inductive Reports (S : Serde) (rel : IndexRelation) (op : CallbackOp) :
    List Row → List Row → SessionTx → SessionTx → Prop
  | nil (s : SessionTx) : Reports S rel op [] [] s s
  | cons {row : Row} {old news olds : List Row} {s s₁ s' : SessionTx}
    (first : Report S rel op row old s s₁)
      (rest : Reports S rel op news olds s₁ s') : Reports S rel op (row :: news) (old ++ olds) s s'

variable {op : CallbackOp} {step : Row → SessionM (List Row × List Row)}
    {keyExtractors : List DataExtractor}

section Rows

variable {E : Engine} {m : Engine.Mutation} {s s' : SessionTx}

open Engine

variable {c : List Row × List Row} {rel : IndexRelation} {tuple : Row} {S : Serde}

theorem reports_of_eachRow (hstep : ∀ t s c s', step t s = .ok c s' →
      ∃ row old, c = ([row], old) ∧ Report S rel op row old s s')
    {rows : List Row} (h : eachRow step rows s = .ok c s') : Reports S rel op c.1 c.2 s s' := by
  induction rows generalizing s c with
  | nil =>
    obtain ⟨rfl, rfl⟩ := pure_eq_ok.1 h
    exact .nil s
  | cons t rest ih =>
    obtain ⟨first, s₁, hfirst, hrest⟩ := bind_eq_ok.1 h
    obtain ⟨more, s₂, hmore, hpure⟩ := bind_eq_ok.1 hrest
    obtain ⟨rfl, rfl⟩ := pure_eq_ok.1 hpure
    obtain ⟨row, old, rfl, hreport⟩ := hstep t s first s₁ hfirst
    exact .cons hreport (ih hmore)

abbrev Separate (rel : RelationHandle) : Prop := rel.IndicesWithin (· ≠ rel.id)

theorem sameOn_of_indices {α : Type} {n : SessionM α} {a : α} {rel : RelationHandle}
    (h : Moves (Touches (· ≠ rel.id)) n) (hok : n s = .ok a s') : SameOn rel.id s s' :=
  sameOn_of_moves h hok fun hne => hne rfl

theorem get_of_mem_rowsOf {t : Row} (ht : t ∈ rowsOf S s.storeTx.get rel) :
    s.storeTx.get (rowKey rel t) = some (rowVal S rel t) := ht.2

theorem extended_eq {t row tup : Row} {v : Bytes} (ht : t ∈ rowsOf S s.storeTx.get rel)
    (hkey : rowKey rel t = rowKey rel row)
    (hv : s.storeTx.get (rowKey rel row) = some v)
    (htup : extendTupleFromV S (row.take rel.metadata.keys.length) v = .ok tup) : tup = t := by
  have hval : rowVal S rel t = v := by
    have hget := get_of_mem_rowsOf ht
    rw [hkey, hv] at hget
    exact (Option.some.inj hget).symm
  rw [← rowKey_inj hkey, ← hval, extendTupleFromV_rowVal] at htup
  exact (Except.ok.inj htup).symm

theorem report_of_putRow (htemp : m.rel.isTemp = false) (hsep : Separate m.rel)
    (hp : m.processors.Of m.rel) (hcollect : m.needToCollect = true)
    {extractors : List DataExtractor}
    {isInsert : Bool} {c : List Row × List Row}
    (h : E.putRow m extractors isInsert tuple s = .ok c s') :
    ∃ row old, c = ([row], old) ∧ Report E.toSerde m.rel.toIndexRelation .put row old s s' := by
  obtain ⟨row, s₁, -, -, -, hindices, hput⟩ := putRow_eq_ok htemp h
  have hreads : m.readsOld = true := by simp [Mutation.readsOld, hcollect]
  obtain ⟨-, hindices⟩ := hindices.resolve_right fun hno => by simp [hreads] at hno
  have hsame := sameOn_of_indices (touches_putRowIndices hsep hp _ _) hindices
  obtain ⟨old, s₂, s₃, s₄, hold, -, -, -, rfl⟩ := putRowIndices_eq_ok hindices
  refine ⟨row, old, by rw [hcollect]; rfl, ?_, ?_, ?_⟩
  · intro k hk
    rw [hput, hsame k hk]
  · intro t ht hkey
    rcases putOldRow_eq_ok hold with ⟨v, tup, hv, htup, -, rfl⟩ | ⟨hnone, -, -⟩
    · rw [extended_eq ht hkey hv htup]
    · have hget := get_of_mem_rowsOf ht
      rw [hkey, hnone] at hget
      cases hget
  · intro hnone
    rcases putOldRow_eq_ok hold with ⟨v, tup, hv, -⟩ | ⟨-, -, rfl⟩
    · rw [hnone] at hv
      cases hv
    · rfl

theorem length_of_extractAll {curVld : Int64} {extractors : List DataExtractor} {tuple row : Row}
    (h : E.extractAll curVld extractors tuple = .ok row) : row.length = extractors.length :=
  (mapM_eq_ok_iff.1 h).length_eq.symm

theorem storedVals_rowVal (rel : IndexRelation) (t : Row) :
    updateRow.storedVals E (rowVal E.toSerde rel t) = .ok (t.drop rel.metadata.keys.length) := by
  have hlen : ¬ (rowVal E.toSerde rel t).length < encodedKeyMinLen := by simp [rowVal, encodedKeyMinLen]
  have hdrop : (rowVal E.toSerde rel t).drop encodedKeyMinLen =
      E.encodeVals (t.drop rel.metadata.keys.length) := drop_left' (by simp [encodedKeyMinLen])
  rw [updateRow.storedVals, if_neg hlen, hdrop, E.decode_encodeVals]

theorem report_of_updateRow (htemp : m.rel.isTemp = false) (hsep : Separate m.rel)
    (hp : m.processors.Of m.rel) (hcollect : m.needToCollect = true)
    (hkeys : keyExtractors.length = m.rel.metadata.keys.length)
    {valExtractors : List (Option DataExtractor)} {c : List Row × List Row}
    (h : E.updateRow m keyExtractors valExtractors tuple s = .ok c s') :
    ∃ row old, c = ([row], old) ∧ Report E.toSerde m.rel.toIndexRelation .put row old s s' := by
  obtain ⟨keys, v, vals, newVals, s₁, hextract, -, hv, hvals, -, hindices, hput, rfl⟩ :=
    updateRow_eq_ok htemp h
  have hreads : m.readsOld = true := by simp [Mutation.readsOld, hcollect]
  obtain ⟨-, hindices⟩ := hindices.resolve_right fun hno => by simp [hreads] at hno
  have hsame := sameOn_of_indices (touches_updateRowIndices hsep hp _ _) hindices
  have hlen : keys.length = m.rel.metadata.keys.length := (length_of_extractAll hextract).trans hkeys
  -- the new row has the keys that were looked up
  have hkey : ∀ l : Row, rowKey m.rel.toIndexRelation (keys ++ l) = rowKey m.rel.toIndexRelation keys := by
    intro l
    rw [rowKey, rowKey, take_append_of_le_length hlen.ge]
  refine ⟨keys ++ newVals, [keys ++ vals], by rw [hcollect]; rfl, ?_, ?_, ?_⟩
  · intro k hk
    rw [hput, hsame k hk, hkey]
  · intro t ht hkeyt
    have hget := get_of_mem_rowsOf ht
    rw [hkey] at hkeyt
    have htake := rowKey_inj hkeyt
    rw [hkeyt, hv] at hget
    rw [Option.some.inj hget, storedVals_rowVal] at hvals
    rw [← Except.ok.inj hvals, ← take_of_length_le hlen.le, ← htake, take_append_drop]
  · intro hnone
    rw [hkey, hv] at hnone
    cases hnone

theorem report_of_removeRow (htemp : m.rel.isTemp = false) (hsep : Separate m.rel)
    (hp : m.processors.Of m.rel) (hcollect : m.needToCollect = true)
    (hkeys : keyExtractors.length = m.rel.metadata.keys.length) {checkExists : Bool}
    (h : E.removeRow m keyExtractors checkExists tuple s = .ok c s') :
    ∃ row old, c = ([row], old) ∧ Report E.toSerde m.rel.toIndexRelation .rm row old s s' := by
  obtain ⟨keys, s₁, hextract, -, hindices, hdel⟩ := removeRow_eq_ok htemp h
  have hreads : m.readsOld = true := by simp [Mutation.readsOld, hcollect]
  obtain ⟨-, old, hold, rfl⟩ := hindices.resolve_right fun hno => by simp [hreads] at hno
  have hsame := sameOn_of_indices (touches_removeOldRow hsep hp _ _) hold
  have hlen : keys.length = m.rel.metadata.keys.length := (length_of_extractAll hextract).trans hkeys
  refine ⟨keys, old, by rw [hcollect]; rfl, ?_, ?_, ?_⟩
  · intro k hk
    rw [hdel, hsame k hk]
  · intro t ht hkey
    rcases removeOldRow_eq_ok hold with ⟨v, tup, hv, htup, -, -, -, -, -, -, -, rfl⟩ | ⟨hnone, -, -⟩
    · rw [← take_of_length_le hlen.le] at htup
      rw [extended_eq ht hkey hv htup]
    · have hget := get_of_mem_rowsOf ht
      rw [hkey, hnone] at hget
      cases hget
  · intro hnone
    rcases removeOldRow_eq_ok hold with ⟨v, tup, hv, -⟩ | ⟨-, -, rfl⟩
    · rw [hnone] at hv
      cases hv
    · rfl

end Rows

/-! ### The collector -/

/-- Rows have been collected, behind those that were there. -/
def Grows (s s' : SessionTx) : Prop := ∃ own, s'.callbackCollector = s.callbackCollector ++ own

def Silent (s s' : SessionTx) : Prop := s'.callbackCollector = s.callbackCollector

instance : IsPreorder SessionTx Silent where
  refl _ := rfl
  trans _ _ _ h h' := h'.trans h

instance : IsPreorder SessionTx Grows where
  refl s := ⟨[], (append_nil _).symm⟩
  trans s s' s'' := by
    rintro ⟨own, h⟩ ⟨own', h'⟩
    exact ⟨own ++ own', by rw [h', h, append_assoc]⟩

variable {s s' : SessionTx} {S : Serde}

theorem Silent.grows (h : Silent s s') : Grows s s' := ⟨[], by rw [append_nil]; exact h⟩

theorem Touches.silent {P : RelationId → Prop} (h : Touches P s s') : Silent s s' :=
  h.callbackCollector

section Collector

theorem silent_storeOp (f : MemTx → Except StoreError MemTx) : Moves Silent (storeOp f) :=
  moves_storeOp fun _ _ _ => rfl

theorem silent_putIn (isTemp : Bool) (k v : Bytes) : Moves Silent (putIn isTemp k v) := by
  cases isTemp
  · exact silent_storeOp _
  · exact fun _ => rfl

theorem silent_delIn (isTemp : Bool) (k : Bytes) : Moves Silent (delIn isTemp k) := by
  cases isTemp
  · exact silent_storeOp _
  · exact fun _ => rfl

theorem silent_createRelation (S : Serde) (input : InputRelationHandle) :
    Moves Silent (createRelation S input) := by
  refine (Reads.existsIn _ _).moves.bind fun _ => (Reads.bailIf _ _).moves.bind fun _ => ?_
  refine Moves.bind (fun s => ?_) fun lastId => ?_
  · show Silent s (final (fetchAddId (isTempStoreName input.name)) s)
    cases isTempStoreName input.name <;> rfl
  · split
    · exact (silent_putIn _ _ _).bind fun _ => (silent_putIn _ _ _).bind fun _ =>
        (silent_putIn _ _ _).bind fun _ => Moves.pure _
    · exact Moves.throw _

theorem silent_destroyRelation (S : Serde) (name : String) :
    Moves Silent (destroyRelation S name) := by
  refine (Reads.getRelation _ _).moves.bind fun store => (Reads.bailIf _ _).moves.bind fun _ =>
    (Reads.requireLevel _ _ _).moves.bind fun _ => (silent_delIn _ _).bind fun _ => ?_
  split
  · exact Moves.throw _
  · exact Moves.pure _

variable (D : Db) {runTrigger : Db.RunTrigger} (hrun : ∀ t a, Moves Grows (runTrigger t a))

include hrun

theorem grows_runTriggers (args : Option (List Row × List Row)) (triggers : List String) :
    Moves Grows (Db.runTriggers runTrigger args triggers) := by
  induction triggers with
  | nil => exact Moves.pure _
  | cons t rest ih => exact (hrun t args).bind fun _ => ih.bind fun _ => Moves.pure _

variable (propagateTriggers : Bool)

theorem grows_replaceRelation (name : String) :
    Moves Grows (D.replaceRelation runTrigger propagateTriggers name) := by
  refine (Reads.bailIf _ _).moves.bind fun _ => (Reads.findRelation D name).moves.bind fun found => ?_
  cases found with
  | none => exact Moves.pure _
  | some old =>
    exact (Reads.bailIf _ _).moves.bind fun _ => (Reads.requireLevel _ _ _).moves.bind fun _ =>
      (grows_runTriggers hrun none _).bind fun _ =>
        ((silent_destroyRelation _ _).mono fun _ _ => Silent.grows).bind fun _ => Moves.pure _

theorem grows_mutateRelation (forceCollect : String) (rel : RelationHandle)
    (op : RelationOp) (input : InputRelationHandle) (headers : List Symbol) (rows : List Row) :
    Moves Grows (D.mutateRelation runTrigger propagateTriggers forceCollect rel
      op input headers rows) := by
  intro s₀
  have htop : Db.Collects (fun _ => True) := ⟨trivial, fun _ _ => trivial⟩
  -- what is kept is that the collector of the beginning is a part of it
  have hkeeps : Keeps (Grows s₀) (fun _ => True)
      (D.mutateRelation runTrigger propagateTriggers forceCollect rel op input headers rows) :=
    Db.keeps_mutateRelation D htop propagateTriggers forceCollect
      (fun s s' ht hs => trans_of Grows hs ht.silent.grows)
        (fun s event hs => trans_of Grows hs ⟨[event], rfl⟩)
      (fun t _ a => Keeps.of_moves (hrun t a) fun s s' hg hs => trans_of Grows hs hg) op input headers rows
  exact hkeeps.final (refl_of Grows s₀)

theorem grows_executeRelation (forceCollect : String) (op : RelationOp)
    (input : InputRelationHandle) (headers : List Symbol) (rows : List Row) :
    Moves Grows (D.executeRelation runTrigger propagateTriggers forceCollect op
      input headers rows) := by
  refine (moves_runOr (grows_replaceRelation D hrun propagateTriggers input.name)).bind fun replaced =>
    Moves.bind ?_ fun rel => ?_
  · unfold Db.targetRelation
    split
    · exact (silent_createRelation _ _).mono fun _ _ => Silent.grows
    · exact (Reads.getRelation _ _).moves
  · exact (grows_mutateRelation D hrun _ _ _ _ _ _ _).bind fun _ => Moves.pure _

end Collector

theorem grows_runTriggerQuery (D : Db) (t : String) (args : Option (List Row × List Row)) :
    Moves Grows (D.runTriggerQuery t args) := by
  refine moves_attempt_bind fun p _ => Moves.bind ?_ fun _ => Moves.pure _
  unfold Db.runQueryWith
  split
  · exact Moves.get.bind fun _ => moves_attempt_bind fun _ _ => Moves.pure _
  · refine (Reads.checkStoreRelation D _).moves.bind fun _ => Moves.get.bind fun _ =>
      moves_attempt_bind fun rows _ => Moves.bind ?_ fun _ =>
        (Reads.getReturningRows D _ _).moves.bind fun _ => Moves.pure _
    exact grows_executeRelation D (fun _ _ => Moves.throw _) _ _ _ _ _ _

/-! ### What a statement collects -/

/-- The kind under which the rows of a mutation are collected. -/
def RelationOp.callbackOp : RelationOp → CallbackOp
  | .rm | .delete => .rm
  | _ => .put

def ownEvents (name : String) (op : CallbackOp) (new old : List Row) : List CallbackEvent :=
  if new.isEmpty then [] else [⟨name, op, new, old⟩]

def RelationOp.triggers (op : RelationOp) (rel : RelationHandle) : List String :=
  match op.callbackOp with
  | .put => rel.putTriggers
  | .rm => rel.rmTriggers

/-- The triggers have run on the rows that a mutation reports, if there are any, and have collected
`trig`. -/
structure TriggersRun (runTrigger : Db.RunTrigger) (triggers : List String) (new old : List Row)
    (trig : List CallbackEvent) (s s' : SessionTx) : Prop where
  ran : new = [] ∧ s' = s ∨
    new ≠ [] ∧ ∃ cleanups, Db.runTriggers runTrigger (some (new, old)) triggers s = .ok cleanups s'
  collected : s'.callbackCollector = s.callbackCollector ++ trig

theorem TriggersRun.eq_nil {runTrigger : Db.RunTrigger} {new old : List Row}
    {trig : List CallbackEvent} (h : TriggersRun runTrigger [] new old trig s s') : trig = [] := by
  have hsame : s' = s := by
    rcases h.ran with ⟨-, hsame⟩ | ⟨-, cleanups, hrun⟩
    · exact hsame
    · exact (pure_eq_ok.1 hrun).2.symm
  have hcollected := h.collected
  rw [hsame] at hcollected
  exact append_right_eq_self.1 hcollected.symm

/-- **What a mutation does**. It writes its rows one after another, from what the relation holds at
the beginning. Then its triggers run, on the state that the writes have left, and what they leave is
the state of the end. Last it collects the rows it reports. -/
structure CollectsOwn (S : Serde) (runTrigger : Db.RunTrigger) (rel : RelationHandle)
    (op : RelationOp)
    (new old : List Row) (trig : List CallbackEvent) (s s' : SessionTx) : Prop where
  run : ∃ s₀ s₁ s₂, SameOn rel.id s s₀ ∧ Reports S rel.toIndexRelation op.callbackOp new old s₀ s₁ ∧
    Silent s s₁ ∧ TriggersRun runTrigger (op.triggers rel) new old trig s₁ s₂ ∧
    s' = { s₂ with
      callbackCollector := s₂.callbackCollector ++ ownEvents rel.name op.callbackOp new old }

namespace CollectsOwn

variable {runTrigger : Db.RunTrigger} {rel : RelationHandle} {op : RelationOp} {new old : List Row}
  {trig : List CallbackEvent}

theorem collector (h : CollectsOwn S runTrigger rel op new old trig s s') :
    s'.callbackCollector =
      s.callbackCollector ++ trig ++ ownEvents rel.name op.callbackOp new old := by
  obtain ⟨s₀, s₁, s₂, -, -, hsilent, htriggers, rfl⟩ := h.run
  show s₂.callbackCollector ++ _ = _
  rw [htriggers.collected, hsilent]

theorem quiet (h : CollectsOwn S runTrigger rel op new old trig s s')
    (hput : rel.putTriggers = []) (hrm : rel.rmTriggers = []) : trig = [] := by
  obtain ⟨s₀, s₁, s₂, -, -, -, htriggers, -⟩ := h.run
  have hnone : op.triggers rel = [] := by
    unfold RelationOp.triggers
    split
    · exact hput
    · exact hrm
  rw [hnone] at htriggers
  exact htriggers.eq_nil

end CollectsOwn

variable {input : InputRelationHandle}

section Own

variable (D : Db) {runTrigger : Db.RunTrigger} (hrun : ∀ t a, Moves Grows (runTrigger t a))
  {s s' : SessionTx}

include hrun

variable {rows : List Row} {c : Cleanups}

theorem collected_of_mutate {m : Engine.Mutation} (hcollect : m.needToCollect = true)
    {triggers : List String}
    (h : D.mutate runTrigger true m.rel.name m op triggers step rows s = .ok c s') :
    ∃ got s₁ s₂ trig, Engine.eachRow step rows s = .ok got s₁ ∧
      TriggersRun runTrigger triggers got.1 got.2 trig s₁ s₂ ∧
      s' = { s₂ with
        callbackCollector := s₂.callbackCollector ++ ownEvents m.rel.name op got.1 got.2 } := by
  obtain ⟨⟨new, old⟩, s₁, hrows, hrest⟩ := bind_eq_ok.1 h
  rcases runOr_eq_ok hrest with ⟨hsome, hrest⟩ | ⟨hnone, -, rfl⟩
  · have hne : new ≠ [] := by
      rintro rfl
      simp at hsome
    obtain ⟨cleanups, s₂, htriggers, hrest⟩ := bind_eq_ok.1 hrest
    obtain ⟨_, s₃, hmodify, hpure⟩ := bind_eq_ok.1 hrest
    obtain ⟨-, rfl⟩ := pure_eq_ok.1 hpure
    -- the triggers come first
    obtain ⟨trig, htrig⟩ : Grows s₁ s₂ := (grows_runTriggers hrun _ _).of_ok htriggers
    have htarget : D.isCallbackTarget m.rel.name m.rel = true := by simp [Db.isCallbackTarget]
    rw [runIf, runOr, htarget] at hmodify
    cases hmodify
    refine ⟨(new, old), s₁, s₂, trig, hrows, ⟨.inr ⟨hne, cleanups, htriggers⟩, htrig⟩, ?_⟩
    rw [ownEvents, if_neg (by simpa using hne)]
  · have hempty : new = [] := by simpa [hcollect] using hnone
    refine ⟨(new, old), s₁, s₁, [], hrows, ⟨.inl ⟨hempty, rfl⟩, (append_nil _).symm⟩, ?_⟩
    simp [ownEvents, hempty]

/-- A batch whose rows are reported, behind what only prepares it. -/
theorem collectsOwn_of_mutate {m : Engine.Mutation} (hcollect : m.needToCollect = true)
    {op : RelationOp} (hstep : ∀ t, Moves (Touches fun _ => True) (step t))
    (hreport : ∀ t s c s', step t s = .ok c s' → ∃ row old, c = ([row], old) ∧
      Report D.toSerde m.rel.toIndexRelation op.callbackOp row old s s')
    {s₀ : SessionTx} (htouch : Touches (fun _ => False) s s₀)
    (h : D.mutate runTrigger true m.rel.name m op.callbackOp (op.triggers m.rel) step rows s₀ =
      .ok c s') :
    ∃ new old trig, CollectsOwn D.toSerde runTrigger m.rel op new old trig s s' := by
  obtain ⟨got, s₁, s₂, trig, hrows, htriggers, hlast⟩ := collected_of_mutate D hrun hcollect h
  have hsilent : Silent s₀ s₁ :=
    (moves_eachRow (fun t => (hstep t).mono fun _ _ => Touches.silent) rows).of_ok hrows
  exact ⟨got.1, got.2, trig, s₀, s₁, s₂, htouch.sameOn id, reports_of_eachRow hreport hrows,
    trans_of Silent htouch.silent hsilent, htriggers, hlast⟩

theorem collectsOwn_of_mutateRelation {rel : RelationHandle} (htemp : rel.isTemp = false)
    (hsep : Separate rel) (hname : rel.name ≠ "") {op : RelationOp}
    {headers : List Symbol} {c : Cleanups}
    (h : D.mutateRelation runTrigger true rel.name rel op input headers rows s = .ok c s') :
    ∃ new old trig, CollectsOwn D.toSerde runTrigger rel op new old trig s s' := by
  have hneed : ∀ triggers, D.needToCollect true rel.name rel triggers = true := by
    intro triggers
    simp [Db.needToCollect, hname]
  have hall : rel.Within (fun _ => True) := ⟨trivial, fun _ _ => trivial⟩
  have hput : ∀ isInsert, op.callbackOp = .put →
      D.putIntoRelation runTrigger true rel.name rel input headers isInsert rows s = .ok c s' →
      ∃ new old trig, CollectsOwn D.toSerde runTrigger rel op new old trig s s' := by
    intro isInsert hop h
    simp only [Db.putIntoRelation, bind_eq_ok, attempt_eq_ok, RelationHandle.requireLevel,
      bailIf_eq_ok] at h
    obtain ⟨_, _, ⟨-, rfl⟩, keyExtractors, _, ⟨-, rfl⟩, valExtractors, _,
      ⟨-, rfl⟩, processors, s₀, hproc, h⟩ := h
    have hof := yields_makeProcessors _ _ s processors s₀ hproc
    have htriggers : op.triggers rel = rel.putTriggers := by rw [RelationOp.triggers, hop]
    rw [← hop, ← htriggers] at h
    exact collectsOwn_of_mutate D hrun (m := ⟨rel, processors, _, D.curVld⟩) (hneed _)
      (fun t => touches_putRow hall hof _ _ t)
      (fun t s c s' => hop ▸ report_of_putRow htemp hsep hof (hneed _))
      ((touches_makeProcessors _ _).of_ok hproc) h
  have hrm : ∀ checkExists, op.callbackOp = .rm →
      D.removeFromRelation runTrigger true rel.name rel input headers checkExists rows s = .ok c s' →
      ∃ new old trig, CollectsOwn D.toSerde runTrigger rel op new old trig s s' := by
    intro checkExists hop h
    simp only [Db.removeFromRelation, bind_eq_ok, attempt_eq_ok,
      RelationHandle.requireLevel, bailIf_eq_ok] at h
    obtain ⟨_, _, ⟨-, rfl⟩, keyExtractors, _, ⟨hkeys, rfl⟩, processors, s₀, hproc, h⟩ := h
    have hof := yields_makeRemovalProcessors _ _ s processors s₀ hproc
    have hlen := (mapM_eq_ok_iff.1 hkeys).length_eq.symm
    have htriggers : op.triggers rel = rel.rmTriggers := by rw [RelationOp.triggers, hop]
    rw [← hop, ← htriggers] at h
    exact collectsOwn_of_mutate D hrun (m := ⟨rel, processors, _, D.curVld⟩) (hneed _)
      (fun t => touches_removeRow hall hof _ _ t)
      (fun t s c s' => hop ▸ report_of_removeRow htemp hsep hof (hneed _) hlen)
      ((touches_makeRemovalProcessors _ _).of_ok hproc) h
  have hupdate : op.callbackOp = .put →
      D.updateInRelation runTrigger true rel.name rel input headers rows s = .ok c s' →
      ∃ new old trig, CollectsOwn D.toSerde runTrigger rel op new old trig s s' := by
    intro hop h
    simp only [Db.updateInRelation, bind_eq_ok, attempt_eq_ok, RelationHandle.requireLevel,
      bailIf_eq_ok] at h
    obtain ⟨_, _, ⟨-, rfl⟩, keyExtractors, _, ⟨hkeys, rfl⟩, valExtractors, _,
      ⟨-, rfl⟩, processors, s₀, hproc, h⟩ := h
    have hof := yields_makeProcessors _ _ s processors s₀ hproc
    have hlen := (mapM_eq_ok_iff.1 hkeys).length_eq.symm
    have htriggers : op.triggers rel = rel.putTriggers := by rw [RelationOp.triggers, hop]
    rw [← hop, ← htriggers] at h
    exact collectsOwn_of_mutate D hrun (m := ⟨rel, processors, _, D.curVld⟩) (hneed _)
      (fun t => touches_updateRow hall hof _ _ t)
      (fun t s c s' => hop ▸ report_of_updateRow htemp hsep hof (hneed _) hlen)
      ((touches_makeProcessors _ _).of_ok hproc) h
  -- checks report nothing
  have hcheck : ∀ {m : SessionM Unit}, Reads m → (do m; pure [] : SessionM Cleanups) s = .ok c s' →
      ∃ new old trig, CollectsOwn D.toSerde runTrigger rel op new old trig s s' := by
    intro m hreads h
    obtain ⟨_, s₁, hm, hpure⟩ := bind_eq_ok.1 h
    obtain ⟨-, rfl⟩ := pure_eq_ok.1 hpure
    have hsame : s₁ = s := (final_eq_of_ok hm).symm.trans (hreads s)
    subst hsame
    exact ⟨[], [], [], s₁, s₁, s₁, SameOn.refl _ _, .nil s₁, refl_of Silent s₁,
      ⟨.inl ⟨rfl, rfl⟩, (append_nil _).symm⟩, by simp [ownEvents]⟩
  cases op with
  | rm => exact hrm false rfl h
  | delete => exact hrm true rfl h
  | ensure => exact hcheck (D.reads_ensureInRelation rel input headers rows) h
  | ensureNot => exact hcheck (D.reads_ensureNotInRelation rel input headers rows) h
  | update => exact hupdate rfl h
  | insert => exact hput true rfl h
  | create | replace | put => exact hput false rfl h

end Own

/-! ### Whole statements -/

theorem record_of_getRelation {name : String} {h : RelationHandle}
    (hget : getRelation S name s = .ok h s') :
    s' = s ∧ Record S (s.viewOf (isTempStoreName name)) name h :=
  (wp_iff_of_ok hget).1 (wp_getRelation name s)

theorem separate_of_record {s : SessionTx} {c : Bool} (hs : Inv S idsRegime c s) {name : String}
    (hname : isCompoundIdent name = true) {rel : RelationHandle}
    (hr : Record S s.storeTx.get name rel) : Separate rel := by
  intro idx hidx hid
  obtain ⟨last, hordered⟩ := hs.store.ordered trivial
  have hproper := hs.store.of_record hr
  have hcolon := hproper.index idx hidx
  have heq : idx.name = rel.name := hordered.unique _ _ idx.id (hr.live (mem_cons_of_mem _ hidx))
    (hid ▸ hr.live mem_cons_self)
  rw [heq, hproper.name_eq] at hcolon
  simp [isCompoundIdent, hcolon] at hname

theorem createRelation_eq_ok {rel : RelationHandle} (h : createRelation S input s = .ok rel s') :
    rel.name = input.name ∧ rel.isTemp = isTempStoreName input.name ∧
    rel.indexRelations = [] ∧ rel.Quiet := by
  obtain ⟨_, _, -, h⟩ := bind_eq_ok.1 h
  obtain ⟨_, _, -, h⟩ := bind_eq_ok.1 h
  obtain ⟨lastId, _, -, h⟩ := bind_eq_ok.1 h
  split at h
  · obtain ⟨_, _, -, h⟩ := bind_eq_ok.1 h
    obtain ⟨_, _, -, h⟩ := bind_eq_ok.1 h
    obtain ⟨_, _, -, h⟩ := bind_eq_ok.1 h
    obtain ⟨rfl, -⟩ := pure_eq_ok.1 h
    exact ⟨rfl, rfl, rfl, rfl, rfl, rfl⟩
  · cases h

section Statements

variable (D : Db) {s s' : SessionTx}

theorem silent_of_replaceRelation {runTrigger : Db.RunTrigger} {propagateTriggers : Bool}
    {name : String}
    (hquiet : QuietTarget D.toSerde name s) {r : Cleanups × Option (List String × List String)}
    (h : D.replaceRelation runTrigger propagateTriggers name s = .ok r s') :
    Silent s s' ∧ r.2 = none := by
  simp only [Db.replaceRelation, bind_eq_ok, bailIf_eq_ok] at h
  obtain ⟨_, _, ⟨-, rfl⟩, found, s₁, hfound, h⟩ := h
  obtain ⟨rfl, hrecord⟩ := (wp_iff_of_ok hfound).1 (wp_findRelation D name s)
  cases found with
  | none =>
    obtain ⟨rfl, rfl⟩ := pure_eq_ok.1 h
    exact ⟨rfl, rfl⟩
  | some old =>
    obtain ⟨hput, hrm, hreplace⟩ := hquiet old (hrecord old rfl)
    simp only [bind_eq_ok, bailIf_eq_ok, RelationHandle.requireLevel, hreplace, Db.runTriggers] at h
    obtain ⟨_, _, ⟨-, rfl⟩, _, _, ⟨-, rfl⟩, _, s₂, htriggers, destroyed, s₃, hdestroy, h⟩ := h
    obtain ⟨-, rfl⟩ := pure_eq_ok.1 htriggers
    obtain ⟨rfl, rfl⟩ := pure_eq_ok.1 h
    exact ⟨(silent_destroyRelation _ _).of_ok hdestroy,
      if_neg (by simp [RelationHandle.hasTriggers, hput, hrm])⟩

/-- A new relation with the triggers of the one it replaces. -/
def RelationHandle.carrying (rel : RelationHandle) :
    Option (List String × List String) → RelationHandle
  | some (oldPut, oldRetract) => { rel with putTriggers := oldPut, rmTriggers := oldRetract }
  | none => rel

/-- **What a statement does to its relation, and what it collects**. The relation to be replaced is
taken away, which runs its triggers for that; the relation of the statement is created or looked up;
the mutation is that of its rows. What is collected by triggers of both kinds is `trig`. -/
structure Mutates (D : Db) (op : RelationOp) (input : InputRelationHandle) (new old : List Row)
    (trig : List CallbackEvent) (s s' : SessionTx) : Prop where
  run : ∃ toClear replaced rel s₁ s₂ own,
    runOr (op = .replace) (D.replaceRelation D.runTriggerQuery true input.name) ([], none) s =
      .ok (toClear, replaced) s₁ ∧
    D.targetRelation op input s₁ = .ok rel s₂ ∧
    CollectsOwn D.toSerde D.runTriggerQuery (rel.carrying replaced) op new old own s₂ s' ∧
    s₂.callbackCollector ++ own = s.callbackCollector ++ trig
  collector : s'.callbackCollector =
    s.callbackCollector ++ trig ++ ownEvents input.name op.callbackOp new old
  quiet : QuietTarget D.toSerde input.name s → trig = []

theorem mutates_of_executeRelation {c : Bool} (hs : Inv D.toSerde idsRegime c s) {op : RelationOp}
    (hname : isCompoundIdent input.name = true) (hne : input.name ≠ "") {headers : List Symbol}
    {rows : List Row} {cleanups : Cleanups}
    (h : D.executeRelation D.runTriggerQuery true input.name op input headers rows s =
      .ok cleanups s') :
    ∃ new old trig, Mutates D op input new old trig s s' := by
  have hrun := grows_runTriggerQuery D
  have hpersistent := isTempStoreName_of_isCompoundIdent hname
  obtain ⟨⟨toClear, replaced⟩, s₁, hreplace, h⟩ := bind_eq_ok.1 h
  obtain ⟨rel, s₂, hrel, h⟩ := bind_eq_ok.1 h
  obtain ⟨more, s₃, hmutate, hpure⟩ := bind_eq_ok.1 h
  obtain ⟨-, rfl⟩ := pure_eq_ok.1 hpure
  have hmutate' : D.mutateRelation D.runTriggerQuery true input.name (rel.carrying replaced) op input
      headers rows s₂ = .ok more s₃ := by
    cases replaced <;> exact hmutate
  have hown : (rel.carrying replaced).name = input.name → (rel.carrying replaced).isTemp = false →
      Separate (rel.carrying replaced) → ∃ new old own,
        CollectsOwn D.toSerde D.runTriggerQuery (rel.carrying replaced) op new old own s₂ s₃ := by
    intro hname' htemp hsep
    rw [← hname'] at hmutate'
    exact collectsOwn_of_mutateRelation D hrun htemp hsep (hname' ▸ hne) hmutate'
  by_cases hop : op = .replace ∨ op = .create
  · -- a new relation, with the triggers of the replaced one
    have hnew := hrel
    rw [Db.targetRelation, if_pos hop] at hnew
    obtain ⟨hrelname, htemp, hindex, hquiet⟩ := createRelation_eq_ok hnew
    rw [hpersistent] at htemp
    have hcreate := (silent_createRelation _ _).of_ok hnew
    obtain ⟨before, hbefore⟩ : Grows s s₂ :=
      trans_of Grows ((moves_runOr (grows_replaceRelation D hrun _ _)).of_ok hreplace) hcreate.grows
    have hsilent : QuietTarget D.toSerde input.name s → Silent s s₂ ∧ replaced = none := by
      intro hq
      rcases runOr_eq_ok hreplace with ⟨-, hreplace⟩ | ⟨-, hnone, rfl⟩
      · obtain ⟨hsilent, hnone⟩ := silent_of_replaceRelation D hq hreplace
        exact ⟨trans_of Silent hsilent hcreate, hnone⟩
      · exact ⟨hcreate, congrArg Prod.snd hnone.symm⟩
    have hsep : Separate (rel.carrying replaced) := by
      have hnone : (rel.carrying replaced).indexRelations = [] := by cases replaced <;> exact hindex
      simp [Separate, RelationHandle.IndicesWithin, hnone]
    have hname' : (rel.carrying replaced).name = input.name := by
      cases replaced <;> exact hrelname
    obtain ⟨new, old, own, hcollects⟩ := hown hname' (by cases replaced <;> exact htemp) hsep
    refine ⟨new, old, before ++ own, ⟨toClear, replaced, rel, s₁, s₂, own, hreplace, hrel, hcollects,
      by rw [hbefore, append_assoc]⟩, ?_, fun hq => ?_⟩
    · rw [hcollects.collector, hbefore, hname', ← append_assoc s.callbackCollector]
    · obtain ⟨hsame, rfl⟩ := hsilent hq
      rw [hsame] at hbefore
      rw [append_right_eq_self.1 hbefore.symm, nil_append]
      exact hcollects.quiet hquiet.1 hquiet.2.1
  · -- the relation that is there
    rw [not_or] at hop
    have hkept := hreplace
    rw [runOr, if_neg (by simpa using hop.1)] at hkept
    obtain ⟨hnone, rfl⟩ := pure_eq_ok.1 hkept
    cases hnone
    have hthere := hrel
    rw [Db.targetRelation, if_neg (by simpa using hop)] at hthere
    obtain ⟨rfl, hrecord⟩ := record_of_getRelation hthere
    have hrecord' := hrecord
    rw [hpersistent] at hrecord'
    have hproper := hs.store.of_record hrecord'
    obtain ⟨new, old, own, hcollects⟩ :=
      hown hproper.name_eq hproper.isTemp (separate_of_record hs hname hrecord')
    refine ⟨new, old, own, ⟨_, none, rel, _, _, own, hreplace, hrel, hcollects, rfl⟩, ?_, fun hq => ?_⟩
    · rw [hcollects.collector]
      exact congrArg (fun name => _ ++ ownEvents name _ _ _) hproper.name_eq
    · obtain ⟨hput, hrm, -⟩ := hq rel hrecord
      exact hcollects.quiet hput hrm

def collectedRows (handle : RelationHandle) (events : List CallbackEvent) : List Row :=
  (events.filter (·.relation == handle.name)).flatMap (Db.eventRows handle.metadata.columns.length)

theorem collectedRows_append (handle : RelationHandle) (a b : List CallbackEvent) :
    collectedRows handle (a ++ b) = collectedRows handle a ++ collectedRows handle b := by
  rw [collectedRows, filter_append, flatMap_append]
  rfl

theorem Reports.old_eq_nil {S : Serde} {rel : IndexRelation} {old : List Row}
    (h : Reports S rel op [] old s s') : old = [] := by
  cases h
  rfl

theorem collectedRows_ownEvents {handle : RelationHandle} {S : Serde}
    {rel : IndexRelation} {new old : List Row} (h : Reports S rel op new old s s') :
    collectedRows handle (ownEvents handle.name op new old) =
    Db.eventRows handle.metadata.columns.length ⟨handle.name, op, new, old⟩ := by
  cases new with
  | nil =>
    rw [h.old_eq_nil]
    cases op <;> rfl
  | cons row rest => simp [collectedRows, ownEvents]

theorem runQuery_eq_ok {p : InputProgram} {target : StoreRelation}
    (hp : p.storeRelation = some target)
    (hreturning : target.returning = true) {returned : NamedRows} {cleanups : Cleanups}
    (h : D.runQuery p s = .ok (returned, cleanups) s') :
    ∃ rows handle, D.executeRelation D.runTriggerQuery true target.handle.name
    target.op target.handle
        p.entryHead rows s = .ok cleanups s' ∧
        getRelation D.toSerde target.handle.name s' = .ok handle s' ∧
      returned.rows = collectedRows handle s'.callbackCollector := by
  rw [Db.runQuery, Db.runQueryWith, hp] at h
  obtain ⟨_, s₁, hcheck, hrest⟩ := bind_eq_ok.1 h
  obtain rfl : s₁ = s := (final_eq_of_ok hcheck).symm.trans (Reads.checkStoreRelation D target s)
  obtain ⟨_, s₂, hget, hrest⟩ := bind_eq_ok.1 hrest
  cases hget
  simp only [bind_eq_ok, attempt_eq_ok, hreturning, if_true] at hrest
  obtain ⟨rows, _, ⟨-, rfl⟩, toClear, s₃, hexecute, answer, s₄, hanswer, hpure⟩ := hrest
  obtain ⟨hresult, rfl⟩ := pure_eq_ok.1 hpure
  cases hresult
  simp only [Db.getReturningRows, Bool.not_true, Bool.false_eq_true, if_false, bind_eq_ok] at hanswer
  obtain ⟨handle, s₅, hhandle, _, s₆, hget, hpure⟩ := hanswer
  obtain ⟨rfl, -⟩ := record_of_getRelation hhandle
  cases hget
  obtain ⟨rfl, rfl⟩ := pure_eq_ok.1 hpure
  exact ⟨rows, handle, hexecute, hhandle, rfl⟩

end Statements

/-- **Returned rows**, at every point of every session of a database that has been reached by
creating relations in order. A statement on a persistent relation with `:returning` returns the rows
collected for the relation by the statements before it, those collected by its triggers, and then
those that it has inserted and replaced, or was asked to delete and has deleted. -/
theorem returned_rows_iff {S : Serde} {d : Database}
    (h : Reached S (CreatesInOrder S) Database.NotBehind d)
    (D : Db) (hD : D.toSerde = S) (isWrite : Bool) {stmts : List Statement}
    (hok : D.Each (CreatesInOrder S) stmts (d.transact isWrite)) {p : InputProgram}
    {target : StoreRelation}
    (hp : p.storeRelation = some target) (hreturning : target.returning = true)
    (hname : isCompoundIdent target.handle.name = true) (hne : target.handle.name ≠ "")
    {s s' : SessionTx} (hs : s = (D.runStatements stmts (d.transact isWrite)).2)
    (hcreates : CreatesInOrder S s (.program p)) {returned : NamedRows} {cleanups : Cleanups}
    (hrun : D.runQuery p s = .ok (returned, cleanups) s') :
    ∃ handle new old trig, Record S s'.storeTx.get target.handle.name handle ∧
      Mutates D target.op target.handle new old trig s s' ∧
      (returned.rows = Db.eventRows handle.metadata.columns.length
          ⟨target.handle.name, target.op.callbackOp, new, old⟩ ↔
        collectedRows handle s.callbackCollector = [] ∧ collectedRows handle trig = []) := by
  subst hD
  have hinv : Inv D.toSerde idsRegime false s := hs ▸ (inv_runStatements D
    (hok.mono fun _ _ => allowed_of_createsInOrder) ((sound_of_reached h).transact isWrite)).1
  have hinv' : Sound D.toSerde idsRegime s' := by
    have hallowed : D.Each (Allowed D.toSerde idsRegime) [.program p] s :=
      ⟨allowed_of_createsInOrder hcreates, trivial⟩
    have hfinal := (inv_runStatements D hallowed hinv).1
    rw [Db.runStatements, Db.runStatement, hrun] at hfinal
    exact hfinal.toSound
  obtain ⟨rows, handle, hexecute, hhandle, hrows⟩ := runQuery_eq_ok D hp hreturning hrun
  obtain ⟨new, old, trig, hmutates⟩ :=
    mutates_of_executeRelation D hinv hname hne hexecute
  obtain ⟨-, hrecord⟩ := record_of_getRelation hhandle
  rw [isTempStoreName_of_isCompoundIdent hname] at hrecord
  have hhandleName := (hinv'.store.of_record hrecord).name_eq
  refine ⟨handle, new, old, trig, hrecord, hmutates, ?_⟩
  obtain ⟨_, _, rel, _, _, own, -, -, hcollects, -⟩ := hmutates.run
  obtain ⟨s₀, s₁, s₂, -, hreports, -⟩ := hcollects.run
  rw [hrows, hmutates.collector, collectedRows_append, collectedRows_append, ← hhandleName,
    collectedRows_ownEvents hreports, append_left_eq_self, append_eq_nil_iff]

/-! ### Two statements on one relation -/

/-- A session that has created an empty relation `r`. -/
def createdSession : SessionTx :=
  (plainDb.runStatements [.program (createWith "r" [])] (Database.empty.transact true)).2

/-- A session that has put a row into the relation, with `:returning`. -/
def putSession : SessionTx := final (plainDb.runQuery (putOne "r" true)) createdSession

/-- The first `:put` into a new relation. -/
theorem first_put_returns_own : ∃ returned cleanups s',
    plainDb.runQuery (putOne "r" true) createdSession = .ok (returned, cleanups) s' ∧
      ∃ handle new old trig, Record codec s'.storeTx.get "r" handle ∧
        Mutates plainDb .put ⟨"r", ⟨[⟨"a", .mk .int false, none⟩], []⟩, ["a"], []⟩ new old trig
          createdSession s' ∧
        (returned.rows = Db.eventRows handle.metadata.columns.length ⟨"r", .put, new, old⟩ ↔
          collectedRows handle createdSession.callbackCollector = [] ∧
          collectedRows handle trig = []) := by
  have hsome : numReturned (plainDb.runQuery (putOne "r" true) createdSession) = 1 := by decide +kernel
  cases hrun : plainDb.runQuery (putOne "r" true) createdSession with
  | error e s' =>
    rw [hrun] at hsome
    cases hsome
  | ok r s' =>
    obtain ⟨returned, cleanups⟩ := r
    have hok : plainDb.Each (CreatesInOrder codec) [.program (createWith "r" [])]
      (Database.empty.transact true) :=
      ⟨fun _ => notBehind_of_get RelationId.system (by decide +kernel) le_rfl, trivial⟩
    have hcreates : CreatesInOrder codec createdSession (.program (putOne "r" true)) :=
      fun _ => notBehind_of_get ⟨1, by decide⟩ (by decide +kernel) (by decide +kernel)
    exact ⟨returned, cleanups, s', rfl,
      returned_rows_iff (S := codec) .new plainDb rfl true hok (p := putOne "r" true)
      rfl rfl (by decide) (by decide) rfl hcreates hrun⟩

/-- The same row put a second time is inserted and replaces the first one. The rows returned are
three: the insertion of the first statement is among them. With nothing collected before they are
two. -/
theorem second_put_returns_first : numReturned (plainDb.runQuery (putOne "r" true) putSession) = 3 ∧
      numReturned (plainDb.runQuery (putOne "r" true) { putSession with callbackCollector := [] }) =
      2 := by
  constructor
  · decide +kernel
  · decide +kernel

end Session

end Retia
