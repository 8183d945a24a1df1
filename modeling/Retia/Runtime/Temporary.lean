import Mathlib
import Retia.Runtime.UniqueIds

/-!
# Temporary relations

Temporary relations are kept in a store of the session's own. Their identifiers come from a counter
of their own, so they coincide with identifiers of persistent relations, and the keys of their rows
with keys of rows of those relations: an operation that looks into the wrong store finds rows of
another relation there.

A statement that writes to a temporary relation is *apart* from the persistent store when it neither
changes it, the counter of identifiers or the tokenizers, nor returns anything that depends on them
(`Apart`). Primitive operations on the temporary store are apart, and from them the operations on
handles (`apart_getRelation`, `isolated_createRelation`), on rows (`apart_putRow`,
`apart_updateRow`, `apart_removeRow`) and on relations (`apart_mutateRelation`) are, when the handle
is one of a temporary relation (`RelationHandle.Temporary`).

Two paths lead out of the temporary store.

* `putRow` and `removeRow` look the old row up in the persistent store. Without indices they look it
  up only for rows that are returned, so statements with `:returning` are apart only if they update
  or check rows.
* `%swap` accepts a persistent relation, whose handle then stands under a temporary name. Where only
  temporary relations are swapped, all handles in the temporary store are temporary
  (`tempRegime`, `named_of_reached`).
-/

namespace Retia

open Effect

namespace Session

open SessionM

/-! ### The persistent part of a session -/

/-- What a session shares with others. -/
structure Persistent where
  storeTx : MemTx
  relationStoreId : Nat
  tokenizers : TokenizerCache

def persistentPart : Part SessionTx Persistent where
  get s := ⟨s.storeTx, s.relationStoreId, s.tokenizers⟩
  set q s := { s with storeTx := q.storeTx, relationStoreId :=
    q.relationStoreId, tokenizers := q.tokenizers }
  get_set _ _ := rfl
  set_get _ := rfl

abbrev Apart {α : Type} (m : SessionM α) : Prop := Ignores persistentPart (fun _ => True) m

/-- The same between sessions with `I`. -/
abbrev Isolated {α : Type} (I : SessionTx → Prop) (m : SessionM α) : Prop :=
  Ignores persistentPart I m

section Primitives

variable {α β : Type}

variable {m : SessionM α}

theorem Apart.bind {f : α → SessionM β} (hm : Apart m) (hf : ∀ a, Apart (f a)) :
    Apart (m >>= f) := Ignores.bind_top hm hf

theorem Apart.isolated {I : SessionTx → Prop} (h : Apart m) : Isolated I m :=
  h.mono fun _ _ => trivial

theorem apart_attempt (x : Except SessionError α) : Apart (attempt x) := by
  cases x with
  | ok a => exact Ignores.pure a
  | error e => exact Ignores.throw e

theorem apart_bailIf (c : Bool) (e : SessionError) : Apart (bailIf c e) := by
  cases c with
  | true => exact Ignores.throw e
  | false => exact Ignores.pure ()

theorem apart_runOr {c : Bool} {a : α} (h : c = true → Apart m) : Apart (runOr c m a) := by
  cases c with
  | true => exact h rfl
  | false => exact Ignores.pure a

theorem apart_requireLevel (h : RelationHandle) (needed : AccessLevel) (operation : String) :
    Apart (h.requireLevel needed operation) := apart_bailIf _ _

theorem apart_getIn (k : Bytes) : Apart (getIn true k) := Ignores.read fun _ _ _ _ => rfl

theorem apart_existsIn (k : Bytes) : Apart (existsIn true k) := Ignores.read fun _ _ _ _ => rfl

theorem apart_putIn (k v : Bytes) : Apart (putIn true k v) := Ignores.modify fun _ _ => rfl

theorem apart_delIn (k : Bytes) : Apart (delIn true k) := Ignores.modify fun _ _ => rfl

theorem apart_fetchAddId : Apart (fetchAddId true) := fun _ _ _ _ => rfl

end Primitives

/-! ### Handles -/

structure RelationHandle.Temporary (h : RelationHandle) : Prop where
  isTemp : h.isTemp = true
  id : h.id ≠ RelationId.system
  index : h.indexRelations = []
  quiet : h.Quiet

/-- All handles in the temporary store are those of temporary relations. -/
def tempRegime : Regime where
  ids := False
  temp := RelationHandle.Temporary
  within _ h := ⟨h.id, by simp [RelationHandle.IndicesWithin, h.index]⟩
  created _ htemp hindex hquiet hid := ⟨htemp, hid, hindex, hquiet⟩
  renamed _ _ h := ⟨h.isTemp, h.id, h.index, h.quiet⟩

section Handles

variable {S : Serde} {s : SessionTx} {name : String}

theorem apart_getRelation (hname : isTempStoreName name = true) : Apart (getRelation S name) := by
  unfold getRelation
  rw [hname]
  refine (apart_getIn _).bind fun found => ?_
  cases found with
  | none => exact Ignores.throw _
  | some bytes =>
    dsimp only
    cases S.decodeHandle bytes with
    | none => exact Ignores.throw _
    | some h => exact Ignores.pure h

theorem keeps_getRelation_temp (hname : isTempStoreName name = true) :
    Keeps (Inv S tempRegime false) RelationHandle.Temporary (getRelation S name) := by
  intro s hs
  refine wp_mono (wp_getRelation name s) ?_ ?_
  · rintro h s' ⟨rfl, hr⟩
    rw [hname] at hr
    exact ⟨hs, hs.temp name h hr⟩
  · rintro e s' rfl
    exact hs

theorem not_keyExists_metaKey (hs : Inv S tempRegime false s)
    (hname : isTempStoreName name = true) : s.storeTx.keyExists (metaKey name) = false := by
  rw [MemTx.keyExists_eq, Option.isSome_eq_false_iff, Option.isNone_iff_eq_none,
    Option.eq_none_iff_forall_ne_some]
  intro bytes hb
  obtain ⟨h, -, hproper⟩ := hs.store.record name bytes hb
  rw [hproper.persistent] at hname
  cases hname

theorem isolated_createRelation {input : InputRelationHandle}
    (hname : isTempStoreName input.name = true) :
    Isolated (Inv S tempRegime false) (createRelation S input) := by
  have hexists : Isolated (Inv S tempRegime false) (existsIn false (metaKey input.name)) := by
    refine Ignores.read fun s q hs hq => ?_
    rw [not_keyExists_metaKey hs hname, not_keyExists_metaKey hq hname]
  unfold createRelation
  dsimp only
  rw [hname]
  refine hexists.bind_top fun taken => (apart_bailIf _ _).bind fun _ =>
    apart_fetchAddId.bind fun lastId => ?_
  split
  · exact (apart_putIn _ _).bind fun _ => (apart_putIn _ _).bind fun _ => (apart_putIn _ _).bind fun _ =>
      Ignores.pure _
  · exact Ignores.throw _

theorem apart_destroyRelation (hname : isTempStoreName name = true) :
    Apart (destroyRelation S name) := by
  unfold destroyRelation
  refine (apart_getRelation hname).bind fun h => (apart_bailIf _ _).bind fun _ =>
    (apart_requireLevel _ _ _).bind fun _ => ?_
  rw [hname]
  refine (apart_delIn _).bind fun _ => ?_
  cases h.id.next with
  | error e => exact Ignores.throw _
  | ok next => exact Ignores.pure _

theorem apart_renameTempRelation {old new : String} (hold : isTempStoreName old = true) :
    Apart (renameTempRelation S old new) :=
  (apart_existsIn _).bind fun _ => (apart_bailIf _ _).bind fun _ => (apart_getRelation hold).bind fun _ =>
    (apart_delIn _).bind fun _ => apart_putIn _ _

end Handles

/-! ### Rows -/

namespace RelationHandle.Temporary

variable {h : RelationHandle}

theorem noIndex (ht : h.Temporary) : h.indices = [] ∧ h.hnswIndices = [] ∧
    h.ftsIndices = [] ∧ h.lshIndices = [] := by
  have hindex := ht.index
  simp only [RelationHandle.indexRelations, List.append_eq_nil_iff, List.map_eq_nil_iff,
    List.flatMap_eq_nil_iff] at hindex
  obtain ⟨⟨⟨hplain, hhnsw⟩, hfts⟩, hlsh⟩ := hindex
  refine ⟨hplain, hhnsw, hfts, List.eq_nil_iff_forall_not_mem.2 fun e he => ?_⟩
  exact absurd (hlsh e he) (by simp)

end RelationHandle.Temporary

variable {step : Row → SessionM (List Row × List Row)}

section Rows

variable {E : Engine}

structure Engine.Mutation.Temporary (m : Engine.Mutation) : Prop where
  rel : m.rel.Temporary
  processors : m.processors = ⟨[], [], []⟩

variable {m : Engine.Mutation}

theorem readsOld_of_temporary (hm : m.Temporary) : m.readsOld = m.needToCollect := by
  obtain ⟨hplain, hhnsw, hfts, hlsh⟩ := hm.rel.noIndex
  simp [Engine.Mutation.readsOld, hplain, hhnsw, hfts, hlsh]

theorem apart_putRow (hm : m.Temporary) (hcollect : m.needToCollect = false)
    (extractors : List DataExtractor) (isInsert : Bool) (tuple : Row) :
    Apart (E.putRow m extractors isInsert tuple) := by
  unfold Engine.putRow
  rw [hm.rel.isTemp, readsOld_of_temporary hm, hcollect]
  refine (apart_attempt _).bind fun extracted => (apart_attempt _).bind fun key =>
    (apart_existsIn _).bind fun _ => (apart_bailIf _ _).bind fun _ => (apart_attempt _).bind fun val =>
      (apart_runOr (by simp)).bind fun _ => (apart_putIn _ _).bind fun _ => Ignores.pure _

theorem apart_updateRowIndices (hm : m.Temporary) (newKv oldKv : Row) :
    Apart (E.updateRowIndices m newKv oldKv) := by
  unfold Engine.updateRowIndices Engine.delInFts Engine.delInLsh updateInIndex
    Engine.updateInHnsw Engine.putInFts Engine.putInLsh
  rw [hm.processors, hm.rel.noIndex.1]
  exact fun _ _ _ _ => rfl

theorem apart_updateRow (hm : m.Temporary) (keyExtractors : List DataExtractor)
    (valExtractors : List (Option DataExtractor)) (tuple : Row) :
    Apart (E.updateRow m keyExtractors valExtractors tuple) := by
  unfold Engine.updateRow
  rw [hm.rel.isTemp]
  refine (apart_attempt _).bind fun keys => (apart_attempt _).bind fun key =>
    (apart_getIn _).bind fun found => ?_
  cases found with
  | none => exact Ignores.throw _
  | some v =>
    exact (apart_attempt _).bind fun originalVal => (apart_attempt _).bind fun newVals =>
      (apart_attempt _).bind fun newVal =>
        (apart_runOr fun _ => apart_updateRowIndices hm _ _).bind fun _ =>
          (apart_putIn _ _).bind fun _ => Ignores.pure _

theorem apart_removeRow (hm : m.Temporary) (hcollect : m.needToCollect = false)
    (keyExtractors : List DataExtractor) (checkExists : Bool) (tuple : Row) :
    Apart (E.removeRow m keyExtractors checkExists tuple) := by
  unfold Engine.removeRow
  rw [hm.rel.isTemp, readsOld_of_temporary hm, hcollect]
  refine (apart_attempt _).bind fun extracted => (apart_attempt _).bind fun key =>
    (apart_existsIn _).bind fun _ => (apart_bailIf _ _).bind fun _ =>
      (apart_runOr (by simp)).bind fun _ => (apart_delIn _).bind fun _ => Ignores.pure _

theorem apart_ensureRow {rel : RelationHandle} (hrel : rel.Temporary) (curVld : Int64)
    (extractors : List DataExtractor) (tuple : Row) :
    Apart (E.ensureRow rel curVld extractors tuple) := by
  unfold Engine.ensureRow
  rw [hrel.isTemp]
  refine (apart_attempt _).bind fun extracted => (apart_attempt _).bind fun key =>
    (apart_attempt _).bind fun val => (apart_getIn _).bind fun found => ?_
  cases found with
  | none => exact Ignores.throw _
  | some v => exact apart_bailIf _ _

theorem apart_ensureNotRow {rel : RelationHandle} (hrel : rel.Temporary) (curVld : Int64)
    (keyExtractors : List DataExtractor) (tuple : Row) :
    Apart (E.ensureNotRow rel curVld keyExtractors tuple) := by
  unfold Engine.ensureNotRow
  rw [hrel.isTemp]
  exact (apart_attempt _).bind fun extracted => (apart_attempt _).bind fun key =>
    (apart_existsIn _).bind fun _ => apart_bailIf _ _

theorem apart_eachRow (hstep : ∀ tuple, Apart (step tuple)) (rows : List Row) :
    Apart (Engine.eachRow step rows) := by
  induction rows with
  | nil => exact Ignores.pure _
  | cons tuple rest ih => exact (hstep tuple).bind fun _ => ih.bind fun _ => Ignores.pure _

end Rows

/-! ### Relations -/

section Relations

variable (D : Db) {runTrigger : Db.RunTrigger} (propagateTriggers : Bool) (forceCollect : String)
  {rel : RelationHandle}

theorem makeProcessors_of_temporary (hrel : rel.Temporary) :
    D.makeProcessors rel = pure ⟨[], [], []⟩ := by
  obtain ⟨-, hhnsw, hfts, hlsh⟩ := hrel.noIndex
  unfold Engine.makeProcessors Engine.makeHnswFilters
  rw [hhnsw, hfts, hlsh]
  rfl

theorem makeRemovalProcessors_of_temporary (hrel : rel.Temporary) :
    D.makeRemovalProcessors rel = pure ⟨[], [], []⟩ := by
  obtain ⟨-, hhnsw, hfts, hlsh⟩ := hrel.noIndex
  unfold Engine.makeRemovalProcessors
  rw [hhnsw, hfts, hlsh]
  rfl

theorem apart_mutate {m : Engine.Mutation} (op : CallbackOp)
    (hstep : ∀ tuple, Apart (step tuple)) (rows : List Row) :
    Apart (D.mutate runTrigger propagateTriggers forceCollect m op [] step rows) := by
  unfold Db.mutate Db.collectMutations
  refine (apart_eachRow hstep rows).bind fun collected => apart_runOr fun _ => ?_
  refine (apart_runOr fun _ => Ignores.pure _).bind fun cleanups => ?_
  exact (apart_runOr fun _ => Ignores.modify fun _ _ => rfl).bind fun _ => Ignores.pure _

theorem needToCollect_of_temporary (hrel : rel.Temporary) (triggers : List String) :
    D.needToCollect propagateTriggers "" rel triggers = false := by
  simp [Db.needToCollect, hrel.isTemp]

def RelationOp.returnsOwn (op : RelationOp) : Prop := op = .update ∨ op = .ensure ∨ op = .ensureNot

/-- **A mutation of a temporary relation.** -/
theorem apart_mutateRelation (hrel : rel.Temporary) {op : RelationOp}
    (hreturn : forceCollect = "" ∨ op.returnsOwn) (input : InputRelationHandle)
    (headers : List Symbol) (rows : List Row) :
    Apart (D.mutateRelation runTrigger propagateTriggers forceCollect rel op
      input headers rows) := by
  obtain ⟨hput, hrm, -⟩ := hrel.quiet
  have hforce := hreturn.resolve_right
  have hputInto : ∀ isInsert, forceCollect = "" →
      Apart (D.putIntoRelation runTrigger propagateTriggers forceCollect rel
        input headers isInsert rows) := by
    rintro isInsert rfl
    unfold Db.putIntoRelation
    rw [makeProcessors_of_temporary D hrel, hput]
    refine (apart_requireLevel _ _ _).bind fun _ => (apart_attempt _).bind fun keyExtractors =>
      (apart_attempt _).bind fun valExtractors => ?_
    exact apart_mutate D _ _ _ (apart_putRow ⟨hrel, rfl⟩
      (needToCollect_of_temporary D propagateTriggers hrel _) _ _) rows
  have hremove : ∀ checkExists, forceCollect = "" →
      Apart (D.removeFromRelation runTrigger propagateTriggers forceCollect rel
        input headers checkExists rows) := by
    rintro checkExists rfl
    unfold Db.removeFromRelation
    rw [makeRemovalProcessors_of_temporary D hrel, hrm]
    refine (apart_requireLevel _ _ _).bind fun _ => (apart_attempt _).bind fun keyExtractors => ?_
    exact apart_mutate D _ _ _ (apart_removeRow ⟨hrel, rfl⟩
      (needToCollect_of_temporary D propagateTriggers hrel _) _ _) rows
  cases op with
  | create | replace | put => exact hputInto false (hforce (by simp [RelationOp.returnsOwn]))
  | insert => exact hputInto true (hforce (by simp [RelationOp.returnsOwn]))
  | rm => exact hremove false (hforce (by simp [RelationOp.returnsOwn]))
  | delete => exact hremove true (hforce (by simp [RelationOp.returnsOwn]))
  | update =>
    unfold Db.mutateRelation Db.updateInRelation
    rw [makeProcessors_of_temporary D hrel, hput]
    refine (apart_requireLevel _ _ _).bind fun _ => (apart_attempt _).bind fun keyExtractors =>
      (apart_attempt _).bind fun valExtractors => ?_
    exact apart_mutate D _ _ _ (apart_updateRow ⟨hrel, rfl⟩ _ _) rows
  | ensure =>
    unfold Db.mutateRelation Db.ensureInRelation
    refine Apart.bind ?_ fun _ => Ignores.pure _
    exact (apart_requireLevel _ _ _).bind fun _ => (apart_attempt _).bind fun _ =>
      (apart_attempt _).bind fun _ => Ignores.forM fun _ _ => apart_ensureRow hrel _ _ _
  | ensureNot =>
    unfold Db.mutateRelation Db.ensureNotInRelation
    refine Apart.bind ?_ fun _ => Ignores.pure _
    exact (apart_requireLevel _ _ _).bind fun _ => (apart_attempt _).bind fun _ =>
      Ignores.forM fun _ _ => apart_ensureNotRow hrel _ _ _

variable {name : String}

theorem apart_findRelation (hname : isTempStoreName name = true) : Apart (D.findRelation name) := by
  intro s q hs hq
  have heq := apart_getRelation (S := D.toSerde) hname s q hs hq
  unfold Db.findRelation
  rw [heq]
  cases getRelation D.toSerde name s with
  | ok h s' => rfl
  | error e s' => rfl

theorem quietTarget_of_temp {S : Serde} {s : SessionTx} (hname : isTempStoreName name = true)
    (hs : Inv S tempRegime false s) : QuietTarget S name s := by
  intro h hr
  rw [hname] at hr
  exact (hs.temp name h hr).quiet

theorem isolated_replaceRelation (hname : isTempStoreName name = true) :
    Isolated (Inv D.toSerde tempRegime false)
    (D.replaceRelation runTrigger propagateTriggers name) := by
  have hfind : Keeps (Inv D.toSerde tempRegime false)
      (fun found => ∀ h, found = some h → h.Temporary) (D.findRelation name) := by
    intro s hs
    refine wp_mono (wp_findRelation D name s) ?_ fun _ _ h => h.elim
    rintro found s' ⟨rfl, hr⟩
    refine ⟨hs, fun h hh => ?_⟩
    have hr := hr h hh
    rw [hname] at hr
    exact hs.temp name h hr
  unfold Db.replaceRelation
  refine (apart_bailIf _ _).isolated.bind (keeps_of_reads (Reads.bailIf _ _)) fun _ _ => ?_
  refine (apart_findRelation D hname).isolated.bind hfind fun found hfound => ?_
  cases found with
  | none => exact Ignores.pure _
  | some old =>
    dsimp only
    rw [(hfound old rfl).quiet.2.2]
    exact ((apart_bailIf _ _).bind fun _ => (apart_requireLevel _ _ _).bind fun _ =>
      Apart.bind (Ignores.pure _) fun _ => (apart_destroyRelation hname).bind fun _ =>
        Ignores.pure _).isolated

/-- **A mutation of a temporary relation, with what goes before it.** -/
theorem isolated_executeRelation {op : RelationOp} {input : InputRelationHandle}
    (hname : isTempStoreName input.name = true) (hreturn : forceCollect = "" ∨ op.returnsOwn)
    (headers : List Symbol) (rows : List Row) :
    Isolated (Inv D.toSerde tempRegime false)
    (D.executeRelation runTrigger propagateTriggers forceCollect op input headers rows) := by
  -- what is replaced leaves no triggers behind
  have hreplace : Isolated (Inv D.toSerde tempRegime false)
      (runOr (op = .replace) (D.replaceRelation runTrigger propagateTriggers input.name) ([], none)) := by
    unfold runOr
    split
    · exact isolated_replaceRelation D propagateTriggers hname
    · exact Ignores.pure _
  have hreplaced : Keeps (Inv D.toSerde tempRegime false) (fun r => r.2 = none)
      (runOr (op = .replace) (D.replaceRelation runTrigger propagateTriggers input.name) ([], none)) := by
    unfold runOr
    split
    · intro s hs
      refine wp_mono (wp_replaceRelation D propagateTriggers (by simp) (by simp)
        (.inr (quietTarget_of_temp hname hs)) hs.with_nil) ?_
        fun _ _ h => h.toInv
      exact fun r s' h => ⟨h.1.toInv, h.2.2.1.resolve_left (by simp)⟩
    · exact Keeps.pure rfl
  have htarget : Isolated (Inv D.toSerde tempRegime false) (D.targetRelation op input) := by
    unfold Db.targetRelation
    split
    · exact isolated_createRelation hname
    · exact (apart_getRelation hname).isolated
  have hrel : Keeps (Inv D.toSerde tempRegime false) RelationHandle.Temporary
    (D.targetRelation op input) := by
    unfold Db.targetRelation
    split
    · intro s hs
      refine wp_mono (wp_createRelation (by simp) (by simp [hname]) hs.with_nil) ?_ fun _ _ h => h.toInv
      rintro h s' ⟨hs', -, htemp, hindex, hquiet, hid, -⟩
      exact ⟨hs'.toInv, htemp.trans hname, hid, hindex, hquiet⟩
    · exact keeps_getRelation_temp hname
  unfold Db.executeRelation
  refine hreplace.bind hreplaced fun r hr => htarget.bind hrel fun rel hrel => ?_
  dsimp only
  rw [hr]
  exact ((apart_mutateRelation D propagateTriggers forceCollect hrel hreturn
    input headers rows).bind fun _ => Ignores.pure _).isolated

end Relations

/-! ### Statements -/

def InputProgram.answering (p : InputProgram) (rows : Except SessionError (List Row)) :
    InputProgram :=
  { p with evaluate := fun _ => rows }

def InputProgram.ReturnsOwn (p : InputProgram) : Prop :=
  ∀ target, p.storeRelation = some target → target.returning = true → target.op.returnsOwn

section Queries

variable (D : Db)

variable {name : String}

theorem apart_relationExists (hname : isTempStoreName name = true) :
    Apart (relationExists name) := by
  unfold relationExists
  rw [hname]
  exact apart_existsIn _

theorem apart_checkStoreRelation {target : StoreRelation}
    (hname : isTempStoreName target.handle.name = true) : Apart (D.checkStoreRelation target) := by
  have hexisting : Apart (do
      let existing ← getRelation D.toSerde target.handle.name
      bailIf (!(← relationExists target.handle.name)) (.storeRelationNotFound target.handle.name)
      attempt ((existing.ensureCompatible target.handle
        (target.op = .rm || target.op = .delete || target.op = .update)).mapError
          .column) : SessionM Unit) :=
    (apart_getRelation hname).bind fun existing => (apart_relationExists hname).bind fun _ =>
      (apart_bailIf _ _).bind fun _ => apart_attempt _
  unfold Db.checkStoreRelation
  cases hop : target.op <;> rw [hop] at hexisting
  case replace => exact Ignores.pure ()
  case create => exact (apart_relationExists hname).bind fun _ => apart_bailIf _ _
  all_goals exact hexisting

theorem apart_getReturningRows (hname : isTempStoreName name = true) (returning : Bool) :
    Apart (D.getReturningRows name returning) := by
  unfold Db.getReturningRows
  split
  · exact Ignores.pure _
  · exact (apart_getRelation hname).bind fun h => Ignores.read fun _ _ _ _ => rfl

theorem runQuery_answering (p : InputProgram) (s : SessionTx) :
    D.runQuery (p.answering (p.evaluate s)) s = D.runQuery p s := by
  unfold Db.runQuery Db.runQueryWith
  cases htarget : p.storeRelation with
  | none =>
    simp only [InputProgram.answering, htarget]
    rfl
  | some target =>
    simp only [InputProgram.answering, htarget]
    have hcheck := Reads.checkStoreRelation D target s
    unfold final at hcheck
    cases hr : D.checkStoreRelation target s with
    | error e s' => simp only [Bind.bind, EStateM.bind, hr]
    | ok a s' =>
      rw [hr] at hcheck
      dsimp only at hcheck
      subst hcheck
      simp only [Bind.bind, EStateM.bind, hr]
      rfl

/-- **A query that writes to a temporary relation**, with its rows given. -/
theorem isolated_runQuery {p : InputProgram} {target : StoreRelation}
    (htarget : p.storeRelation = some target)
    (hname : isTempStoreName target.handle.name = true) (hreturn : p.ReturnsOwn)
    (rows : Except SessionError (List Row)) :
    Isolated (Inv D.toSerde tempRegime false) (D.runQuery (p.answering rows)) := by
  have hcollect : (if target.returning = true then target.handle.name else "") = "" ∨
      target.op.returnsOwn := by
    split
    case isTrue h => exact .inr (hreturn target htarget h)
    case isFalse => exact .inl rfl
  unfold Db.runQuery Db.runQueryWith
  simp only [InputProgram.answering, htarget]
  refine (apart_checkStoreRelation D hname).isolated.bind
    (keeps_of_reads (Reads.checkStoreRelation D _)) fun _ _ => ?_
  -- the session is not looked at for the rows
  have hget : Isolated (Inv D.toSerde tempRegime false)
      (do attempt ((fun _ => rows) (← get)) : SessionM (List Row)) := fun s q _ _ =>
        apart_attempt rows s q trivial trivial
  refine hget.bind (keeps_of_reads (Reads.get.bind fun _ => Reads.attempt _)) fun rows _ => ?_
  refine (isolated_executeRelation D true _ hname hcollect _ rows).bind_top fun toClear => ?_
  exact (apart_getReturningRows D hname _).bind fun _ => Ignores.pure _

theorem isolated_withFreshCollector {S : Serde} {α : Type} {m : SessionM α}
    (hm : Isolated (Inv S tempRegime false) m) :
    Isolated (Inv S tempRegime false) (Db.withFreshCollector m) := by
  intro s q hs hq
  have heq := hm { s with callbackCollector := [] } q (hs.of_collector []) (hq.of_collector [])
  unfold Db.withFreshCollector
  cases hr : m { s with callbackCollector := [] } with
  | ok a s' | error e s' =>
    rw [hr] at heq
    rw [show m { persistentPart.set q s with callbackCollector := [] } = _ from heq]
    rfl

theorem isolated_scriptStoreAsRelation (hname : isTempStoreName name = true) (result : NamedRows) :
    Isolated (Inv D.toSerde tempRegime false) (D.scriptStoreAsRelation name result) := by
  unfold Db.scriptStoreAsRelation
  dsimp only
  refine (apart_attempt _).isolated.bind (keeps_of_reads (Reads.attempt _)) fun _ _ => ?_
  let silent : Db := { D with callbackTargets := [] }
  have hexecute : Isolated (Inv silent.toSerde tempRegime false)
      (silent.executeRelation silent.runTriggerQuery true "" .replace
        ⟨name, ⟨(result.headers.map Db.headerSymbol).map fun k => ⟨k, .mk .any true, none⟩, []⟩,
          result.headers.map Db.headerSymbol, []⟩ (result.headers.map Db.headerSymbol) result.rows) :=
    isolated_executeRelation silent true "" hname (.inl rfl) _ _
  exact (isolated_withFreshCollector hexecute).bind_top fun _ => Ignores.pure _

theorem apart_tempSwap {left right : String} (hleft : isTempStoreName left = true)
    (hright : isTempStoreName right = true) : Apart (D.tempSwap left right) :=
  (apart_renameTempRelation hleft).bind fun _ => (apart_renameTempRelation hright).bind fun _ =>
    apart_renameTempRelation rfl

end Queries

namespace Statement

def TargetsTemp : Statement → Prop
  | .program p => ∃ target, p.storeRelation = some target ∧ isTempStoreName target.handle.name = true
  | .sysOp _ => False
  | .storeAs name _ => isTempStoreName name = true
  | .tempSwap left right => isTempStoreName left = true ∨ isTempStoreName right = true

def ReturnsOwn : Statement → Prop
  | .program p => p.ReturnsOwn
  | _ => True

/-- The query of the statement, which may read any relation, has the same rows in both sessions. -/
def AnswersAlike (s s' : SessionTx) : Statement → Prop
  | .program p => p.evaluate s = p.evaluate s'
  | _ => True

end Statement

section Statements

variable (D : Db) {s : SessionTx} {stmt : Statement}

/-- **One statement.** -/
theorem runStatement_apart (htemp : stmt.TargetsTemp) (hswap : stmt.SwapsTemp)
    (hreturn : stmt.ReturnsOwn)
    {q : Persistent} (hs : Inv D.toSerde tempRegime false s)
    (hq : Inv D.toSerde tempRegime false (persistentPart.set q s))
    (halike : stmt.AnswersAlike s (persistentPart.set q s)) :
    D.runStatement stmt (persistentPart.set q s) =
    mapState (persistentPart.set q) (D.runStatement stmt s) := by
  cases stmt with
  | program p =>
    obtain ⟨target, htarget, hname⟩ := htemp
    have hrun := isolated_runQuery D htarget hname hreturn (p.evaluate s) s q hs hq
    rw [runQuery_answering] at hrun
    rw [halike, runQuery_answering] at hrun
    exact hrun
  | sysOp op => exact htemp.elim
  | storeAs name result =>
    exact (isolated_scriptStoreAsRelation D htemp result).bind_top (fun _ => Ignores.pure _) s q hs hq
  | tempSwap left right =>
    exact ((apart_tempSwap D hswap.1 hswap.2).bind fun _ => Ignores.pure _) s q trivial trivial

theorem persistentPart_final_runStatement (htemp : stmt.TargetsTemp) (hswap : stmt.SwapsTemp)
    (hreturn : stmt.ReturnsOwn) (hs : Inv D.toSerde tempRegime false s) :
    persistentPart.get (final (D.runStatement stmt) s) = persistentPart.get s := by
  -- the statement is compared with itself
  refine Ignores.get_final (I := (· = s)) ?_ rfl
  rintro s' q rfl hq
  refine runStatement_apart D htemp hswap hreturn hs (by rwa [hq]) ?_
  rw [hq]
  cases stmt <;> first | rfl | trivial

end Statements

/-! ### Runs -/

section Runs

variable {S : Serde}

theorem Named.of_or {view view₁ view₂ : View} (h₁ : Named S view₁) (h₂ : Named S view₂)
    (h : ∀ name, view (metaKey name) = view₁ (metaKey name) ∨
      view (metaKey name) = view₂ (metaKey name)) : Named S view where
  record name bytes hb := by
    rcases h name with heq | heq
    · exact h₁.record name bytes (heq.symm.trans hb)
    · exact h₂.record name bytes (heq.symm.trans hb)
  positive name id := by
    rintro ⟨n, r, hr, hparts⟩
    rcases h n with heq | heq
    · exact h₁.positive name id ⟨n, r, hr.congr heq.symm, hparts⟩
    · exact h₂.positive name id ⟨n, r, hr.congr heq.symm, hparts⟩

theorem Named.sound {d : Database} (h : Named S fun k : Bytes => d.store[k]?) :
    d.Sound S tempRegime :=
  ⟨h, False.elim⟩

theorem getElem?_initStorage_metaKey {store source : Store} {n : Nat}
    (h : Database.initStorage store = .ok (source, n)) (name : String) :
    source[metaKey name]? = store[metaKey name]? := by
  cases hlast : store[lastIdKey]? with
  | some slice => rw [initStorage_of_some hlast h]
  | none =>
    rw [Database.initStorage, hlast] at h
    cases h
    rw [getElem?_insert_of_ne (metaKey_ne_lastIdKey name),
      getElem?_insert_of_ne (metaKey_ne_storageVersionKey name)]

/-- **The run lemma**: when only temporary relations are swapped, the metadata of every database
that is reached is that of persistent relations. -/
theorem named_of_reached {d : Database}
    (h : Reached S (fun _ stmt => stmt.SwapsTemp) (fun _ => True) d) : d.Sound S tempRegime := by
  induction h with
  | new => exact sound_empty
  | session h D hD isWrite stmts how hok ih =>
    subst hD
    exact sound_runSession D ih how (hok.mono fun _ _ hswap => ⟨fun _ => False.elim, .inl hswap⟩)
  | reopened h hopen ih =>
    obtain ⟨⟨source, n⟩, hinit, rfl⟩ := except_map_eq_ok.1 hopen
    exact Named.sound (ih.toNamed.of_or ih.toNamed fun name =>
      .inl (getElem?_initStorage_metaKey hinit name))
  | restored h hsrc hfile hd hrestore ih ihsrc =>
    obtain ⟨⟨source, n⟩, hinit, hrest⟩ := bind_ok.1 hrestore
    dsimp only at hrest
    split at hrest
    · cases hrest
    cases hrest
    refine Named.sound (ihsrc.toNamed.of_or ih.toNamed fun name => ?_)
    dsimp only
    rw [getElem?_batchPut_toList, getElem?_initStorage_metaKey hinit, getElem?_backupDb_metaKey hfile]
    cases (_ : Store)[metaKey name]? with
    | some bytes => exact .inl rfl
    | none => exact .inr rfl

/-- A persistent part with metadata of persistent relations only, committed or not. -/
structure Persistent.Named (S : Serde) (q : Persistent) : Prop where
  store : Session.Named S q.storeTx.get
  persisted : Session.Named S fun k => q.storeTx.persisted[k]?

theorem Persistent.Named.inv {q : Persistent} {s : SessionTx} (hq : q.Named S)
    (hs : Inv S tempRegime false s) : Inv S tempRegime false (persistentPart.set q s) where
  store := ⟨hq.store, False.elim⟩
  persisted := ⟨hq.persisted, False.elim⟩
  temp := hs.temp
  notBehind _ := False.elim

theorem Inv.named_persistentPart {s : SessionTx} (hs : Inv S tempRegime false s) :
    (persistentPart.get s).Named S := ⟨hs.store.toNamed, hs.persisted.toNamed⟩

/-- **A statement on a temporary relation stays in the temporary store**, at every point of every
session of a database that has been reached by swapping temporary relations only. Unless it returns
rows that it has put or removed, it leaves the persistent store, the counter of identifiers and the
tokenizers as they are; and with any other persistent part in which its query has the same rows, it
ends in the same way, returns the same rows and makes the same changes. -/
theorem temporary_statement_apart {d : Database}
    (h : Reached S (fun _ stmt => stmt.SwapsTemp) (fun _ => True) d) (D : Db)
    (hD : D.toSerde = S) (isWrite : Bool) {stmts : List Statement}
    (hok : D.Each (fun _ stmt => stmt.SwapsTemp) stmts (d.transact isWrite)) {stmt : Statement}
    (htemp : stmt.TargetsTemp) (hswap : stmt.SwapsTemp) (hreturn : stmt.ReturnsOwn) :
    let s := (D.runStatements stmts (d.transact isWrite)).2
    persistentPart.get (final (D.runStatement stmt) s) = persistentPart.get s ∧
      ∀ q : Persistent, q.Named S → stmt.AnswersAlike s (persistentPart.set q s) →
        D.runStatement stmt (persistentPart.set q s) =
          mapState (persistentPart.set q) (D.runStatement stmt s) := by
  subst hD
  obtain ⟨hs, -⟩ := inv_runStatements D (hok.mono fun _ _ hswap => ⟨fun _ => False.elim, .inl hswap⟩)
    ((named_of_reached h).transact isWrite)
  exact ⟨persistentPart_final_runStatement D htemp hswap hreturn hs, fun q hq =>
    runStatement_apart D htemp hswap hreturn hs (hq.inv hs)⟩

end Runs

/-! ### A row in both stores -/

/-- `:create` with a row. -/
def createWith (name : String) (rows : List Row) : InputProgram :=
  { createProgram name with evaluate := fun _ => .ok rows }

/-- `:put` of a row, with `:returning` or without. -/
def putOne (name : String) (returning : Bool) : InputProgram where
  storeRelation := some ⟨⟨name, ⟨[⟨"a", .mk .int false, none⟩], []⟩, ["a"], []⟩, .put, returning⟩
  entryHead := ["a"]
  evaluate _ := .ok [[.int 1]]

/-- A session with an empty temporary relation `_t`, on a new database. -/
def tempSession : SessionTx :=
  (plainDb.runStatements [.program (createProgram "_t")] (Database.empty.transact true)).2

/-- The persistent part of a session on a database with a relation `r`, which has a row. -/
def rowInStore : Persistent :=
  persistentPart.get ((plainDb.runSession true [.program (createWith "r" [[.int 1]])] .committed
    Database.empty).transact true)

theorem named_rowInStore : rowInStore.Named codec := by
  have hok : plainDb.Each (fun _ stmt => stmt.SwapsTemp) [.program (createWith "r" [[.int 1]])]
      (Database.empty.transact true) := ⟨trivial, trivial⟩
  exact ((named_of_reached (.session .new plainDb rfl true _ .committed hok)).transact
    true).named_persistentPart

def isFailure {α : Type} : EStateM.Result SessionError SessionTx α → Bool
  | .ok _ _ => false
  | .error _ _ => true

theorem isFailure_iff {α : Type} {r : EStateM.Result SessionError SessionTx α} :
    isFailure r = true ↔ ∃ e s', r = .error e s' := by
  cases r <;> simp [isFailure]

def numReturned : EStateM.Result SessionError SessionTx (NamedRows × Cleanups) → Nat
  | .ok r _ => r.1.rows.length
  | .error _ _ => 0

/-- `:put` without `:returning`, with and without the row in the persistent store. -/
theorem put_into_temporary_apart :
    persistentPart.get (final (plainDb.runStatement (.program (putOne "_t" false))) tempSession) =
        persistentPart.get tempSession ∧
        plainDb.runStatement (.program (putOne "_t" false))
        (persistentPart.set rowInStore tempSession) =
        mapState (persistentPart.set rowInStore)
        (plainDb.runStatement (.program (putOne "_t" false)) tempSession) := by
  have hok : plainDb.Each (fun _ stmt => stmt.SwapsTemp) [.program (createProgram "_t")]
      (Database.empty.transact true) := ⟨trivial, trivial⟩
  have htemp : Statement.TargetsTemp (.program (putOne "_t" false)) := ⟨_, rfl, rfl⟩
  have hreturn : Statement.ReturnsOwn (.program (putOne "_t" false)) := by
    rintro target ⟨⟩ hreturning
    cases hreturning
  have happly := temporary_statement_apart (S := codec) .new plainDb rfl true hok htemp trivial hreturn
  exact ⟨happly.1, happly.2 rowInStore named_rowInStore rfl⟩

/-- With `:returning`, the row of the persistent relation is reported as replaced. -/
theorem returned_rows_depend_on_store :
    Reached codec (fun _ stmt => stmt.SwapsTemp) (fun _ => True) Database.empty ∧
      rowInStore.Named codec ∧ numReturned
      (plainDb.runStatement (.program (putOne "_t" true)) tempSession) = 1 ∧
      numReturned (plainDb.runStatement (.program (putOne "_t" true))
      (persistentPart.set rowInStore tempSession)) = 2 :=
  ⟨.new, named_rowInStore, by decide +kernel, by decide +kernel⟩

end Session

end Retia
