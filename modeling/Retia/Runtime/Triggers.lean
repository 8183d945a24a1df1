import Mathlib
import Retia.Runtime.Temporary
import Retia.Runtime.Tables
import Retia.Runtime.Renames

/-!
# Triggers of replaced relations

Triggers stand in the metadata of their relation, and every mutation takes them from there.
`:replace` removes the metadata together with the relation and writes new metadata, without
triggers; the triggers of the old relation are put into the handle that the statement itself goes on
with, and are not written. So they are run once more and then lost:

* `wp_executeRelation`, `wp_runQueryWith` of the catalogue — **the step**: a program keeps the
  metadata of every persistent relation that it does not replace, whatever its triggers do;
* `wp_replace` — a program that replaces a relation leaves it with metadata without triggers;
* `record_of_runPrograms` — **the run**: the metadata is the one at the beginning, or it has no
  triggers;
* `triggers_attached_iff` — over any number of committed transactions, the triggers are still there
  if and only if nothing has replaced the relation.
-/

namespace Retia

open Effect List

namespace Session

open SessionM

/-! ### Programs keep the metadata of other relations -/

section Programs

variable {G : Regime} {s : SessionTx} (D : Db) {records : List (String × RelationHandle)}

def InputProgram.Replaces (p : InputProgram) (name : String) : Prop :=
  ∃ target, p.storeRelation = some target ∧ target.op = .replace ∧ target.handle.name = name

theorem wp_runQuery_with {p : InputProgram}
    (hreplace : ∀ name ∈ records.map Prod.fst, ¬ p.Replaces name)
    (hs : InvWith D.toSerde G true records s) :
    wp (D.runQuery p) (fun r s' => InvWith D.toSerde G true records s' ∧ RelationRanges r.2)
      (fun _ => InvWith D.toSerde G true records) s :=
  wp_runQueryWith D true (fun _ => keeps_runTriggerQuery D)
    (fun target htarget hop _ hmem => hreplace _ hmem ⟨target, htarget, hop, rfl⟩) (fun _ => rfl) hs

/-- **A replaced relation has no triggers.** The metadata is that of a new relation, and the
mutation that follows keeps it. -/
theorem wp_replace {p : InputProgram} {name : String} (hname : isTempStoreName name = false)
    (hp : p.Replaces name) (hs : Inv D.toSerde G true s) :
    wp (D.runQuery p) (fun r s' => (∃ h, InvWith D.toSerde G true [(name, h)] s' ∧ h.Quiet) ∧
      RelationRanges r.2) (fun _ _ => True) s := by
  obtain ⟨⟨handle, op, returning⟩, htarget, hop, hhandle⟩ := hp
  dsimp only at hop hhandle
  subst hop
  subst hhandle
  have htrue : ∀ {α : Type} {m : SessionM α}, Reads m → ∀ {Q : α → SessionTx → Prop} {s}, (∀ a, Q a s) →
      wp m Q (fun _ _ => True) s := fun hm _ _ hq => hm.wp hq fun _ => trivial
  rw [Db.runQuery, Db.runQueryWith, htarget]
  dsimp only
  rw [wp_bind]
  refine htrue (Reads.checkStoreRelation D _) fun _ => ?_
  rw [wp_bind]
  refine htrue Reads.get fun _ => ?_
  rw [wp_bind]
  refine htrue (Reads.attempt _) fun rows => ?_
  rw [wp_bind, Db.executeRelation, wp_bind, runOr, if_pos (by simp)]
  have hother : handle.name ∉ ([] : List (String × RelationHandle)).map Prod.fst := by simp
  have htaken := wp_replaceRelation D true (fun _ => keeps_runTriggerQuery D)
    (fun _ => hother) (.inl rfl) hs.with_nil
  refine wp_mono htaken ?_ fun _ _ _ => trivial
  rintro ⟨toClear, replaced⟩ s₁ ⟨hs₁, hclear, -⟩
  rw [wp_bind, Db.targetRelation, if_pos (Or.inl rfl)]
  refine wp_mono (wp_createRelation (by simp) (fun _ => rfl) hs₁) ?_ fun _ _ _ => trivial
  rintro rel s₂ ⟨hs₂, -, -, hindex, hquiet, hid, hrecord⟩
  have hwith : InvWith D.toSerde G true [(handle.name, rel)] s₂ := ⟨hs₂.toInv, fun q hq => by
    cases mem_singleton.1 hq
    exact hrecord hname⟩
  have hrel : rel.Within (· ≠ RelationId.system) := ⟨hid, by simp [RelationHandle.IndicesWithin, hindex]⟩
  -- the handle that is gone on with, with the old triggers or without
  have hmutate : ∀ rel' : RelationHandle, rel'.Within (· ≠ RelationId.system) →
      wp (D.mutateRelation D.runTriggerQuery true (if returning then handle.name else "") rel'
          .replace handle p.entryHead rows)
        (fun more s' => InvWith D.toSerde G true [(handle.name, rel)] s' ∧ RelationRanges more)
        (fun _ _ => True) s₂ := fun rel' hrel' =>
    wp_mono (keeps_mutateRelation D true _ (fun _ => keeps_runTriggerQuery D) hrel'
      (.inl rfl) .replace handle p.entryHead rows s₂ hwith) (fun _ _ h => h) fun _ _ _ => trivial
  rw [wp_bind]
  refine wp_mono (hmutate _ ?_) ?_ fun _ _ _ => trivial
  · cases replaced with
    | none => exact hrel
    | some old => exact ⟨hrel.base, hrel.index⟩
  · rintro more s₃ ⟨hs₃, hmore⟩
    change wp (_ >>= _) _ _ s₃
    rw [wp_bind]
    exact htrue (Reads.getReturningRows D _ _) fun _ =>
      ⟨⟨rel, hs₃, hquiet⟩, collects_relationRanges.append hclear hmore⟩

end Programs

/-! ### Runs -/

namespace Db

variable (D : Db)

/-- Programs one after the other, up to the first that fails. -/
def runPrograms : List InputProgram → SessionM Cleanups
  | [] => pure []
  | p :: ps => do
    let (_, cleanups) ← D.runQuery p
    let more ← runPrograms ps
    pure (cleanups ++ more)

def commitPrograms (ps : List InputProgram) (d : Database) : Option Database :=
  match (do delRanges (← D.runPrograms ps) : SessionM Unit) (d.transact true) with
  | .ok _ s => some (.ofCommitted s)
  | .error _ _ => none

end Db

section Runs

variable {G : Regime} {s : SessionTx} (D : Db) {name : String} {h : RelationHandle}

/-- **The run** of a transaction: the metadata of the relation is what it was, or it has no
triggers. -/
theorem record_of_runPrograms (hname : isTempStoreName name = false)
    (ps : List InputProgram) (hs : InvWith D.toSerde G true [(name, h)] s) :
    wp (D.runPrograms ps) (fun cleanups s' => (∃ h', InvWith D.toSerde G true [(name, h')] s' ∧
        ((∀ p ∈ ps, ¬ p.Replaces name) → h' = h) ∧ ((∃ p ∈ ps, p.Replaces name) → h'.Quiet)) ∧
        RelationRanges cleanups) (fun _ _ => True) s := by
  induction ps generalizing s h with
  | nil => exact ⟨⟨h, hs, fun _ => rfl, by simp⟩, collects_relationRanges.nil⟩
  | cons p ps ih =>
    -- the programs after the first, from the metadata that it leaves
    have hrest : ∀ h₁ s₁ first, InvWith D.toSerde G true [(name, h₁)] s₁ → RelationRanges first →
        (¬ p.Replaces name → h₁ = h) → (p.Replaces name → h₁.Quiet) →
        wp (do
            let more ← D.runPrograms ps
            pure (first ++ more) : SessionM Cleanups)
          (fun cleanups s' => (∃ h', InvWith D.toSerde G true [(name, h')] s' ∧
            ((∀ q ∈ p :: ps, ¬ q.Replaces name) → h' = h) ∧
              ((∃ q ∈ p :: ps, q.Replaces name) → h'.Quiet)) ∧
            RelationRanges cleanups)
          (fun _ _ => True) s₁ := by
      intro h₁ s₁ first hs₁ hfirst hsame hquiet
      rw [wp_bind]
      refine wp_mono (ih hs₁) ?_ fun _ _ _ => trivial
      rintro more s₂ ⟨⟨h₂, hs₂, hkept, hlost⟩, hmore⟩
      refine ⟨⟨h₂, hs₂, fun hall => ?_, fun hsome => ?_⟩, collects_relationRanges.append hfirst hmore⟩
      · rw [forall_mem_cons] at hall
        rw [hkept hall.2, hsame hall.1]
      · by_cases hps : ∃ q ∈ ps, q.Replaces name
        · exact hlost hps
        · have hall : ∀ q ∈ ps, ¬ q.Replaces name := fun q hq hr => hps ⟨q, hq, hr⟩
          obtain ⟨q, hq, hr⟩ := hsome
          rcases mem_cons.1 hq with rfl | hq
          · rw [hkept hall]
            exact hquiet hr
          · exact absurd hr (hall q hq)
    rw [Db.runPrograms, wp_bind]
    by_cases hp : p.Replaces name
    · refine wp_mono (wp_replace D hname hp hs.toInv) ?_ fun _ _ _ => trivial
      rintro ⟨rows, first⟩ s₁ ⟨⟨h₁, hs₁, hquiet⟩, hfirst⟩
      exact hrest h₁ s₁ first hs₁ hfirst (fun h => absurd hp h) fun _ => hquiet
    · have hkeep : ∀ n ∈ [(name, h)].map Prod.fst, ¬ p.Replaces n := by simpa using hp
      refine wp_mono (wp_runQuery_with D hkeep hs) ?_ fun _ _ _ => trivial
      rintro ⟨rows, first⟩ s₁ ⟨hs₁, hfirst⟩
      exact hrest h s₁ first hs₁ hfirst (fun _ => rfl) fun h => absurd h hp

structure Holds (S : Serde) (name : String) (h : RelationHandle) (d : Database) : Prop where
  sound : d.Sound S tempRegime
  record : Record S (fun k => d.store[k]?) name h

theorem Holds.transact {S : Serde} {d : Database} (hd : Holds S name h d) (isWrite : Bool) :
    InvWith S tempRegime true [(name, h)] (d.transact isWrite) where
  toInv := ⟨(hd.sound.transact isWrite).toSound, fun _ hids => hids.elim⟩
  records p hp := by
    cases mem_singleton.1 hp
    refine hd.record.congr ?_
    cases isWrite <;> simp [Database.transact, MemTx.transactWrite, MemTx.get]

theorem holds_of_commitPrograms {ps : List InputProgram} {d d' : Database}
    (hd : Holds D.toSerde name h d) (hrun : D.commitPrograms ps d = some d') :
    ∃ h', Holds D.toSerde name h' d' ∧ ((∀ p ∈ ps, ¬ p.Replaces name) → h' = h) ∧
    ((∃ p ∈ ps, p.Replaces name) → h'.Quiet) := by
  have hname := (hd.sound.of_record hd.record).persistent
  have hwp := record_of_runPrograms D hname ps (hd.transact true)
  unfold Db.commitPrograms at hrun
  split at hrun
  case h_2 => cases hrun
  case h_1 s hs =>
    cases hrun
    obtain ⟨cleanups, s₁, hps, hdel⟩ := bind_eq_ok.1 hs
    unfold wp at hwp
    rw [hps] at hwp
    obtain ⟨⟨h', hs₁, hkept, hlost⟩, hranges⟩ := hwp
    -- the ranges that are deleted belong to other relations than the one of the metadata
    have hdelete : Keeps (InvWith D.toSerde tempRegime true [(name, h')])
      (fun _ => True) (Db.delRanges cleanups) := by
      refine Keeps.forM fun b hmem => ?_
      obtain ⟨id, next, hnext, hid, rfl⟩ := hranges b hmem
      exact keepsWith_of_touches (touches_delRange hnext hid)
    have hfinal := hdelete s₁ hs₁
    unfold wp at hfinal
    rw [hdel] at hfinal
    refine ⟨h', ⟨hfinal.1.toInv.toSound.ofCommitted, ?_⟩, hkept, hlost⟩
    exact (hfinal.1.records _ mem_cons_self).congr (MemTx.getElem?_persisted_commit _ _)

/-- **The run** of transactions. -/
theorem holds_of_run {runs : List (List InputProgram)} {d d' : Database}
    (hd : Holds D.toSerde name h d)
    (hrun : runs.foldlM (fun d ps => D.commitPrograms ps d) d = some d') :
    ∃ h', Holds D.toSerde name h' d' ∧ ((∀ ps ∈ runs, ∀ p ∈ ps, ¬ p.Replaces name) → h' = h) ∧
    ((∃ ps ∈ runs, ∃ p ∈ ps, p.Replaces name) → h'.Quiet) := by
  induction runs generalizing d h with
  | nil =>
    cases hrun
    exact ⟨h, hd, fun _ => rfl, by simp⟩
  | cons ps runs ih =>
    rw [foldlM_cons] at hrun
    obtain ⟨d₁, hd₁, hrun⟩ := Option.bind_eq_some_iff.1 hrun
    obtain ⟨h₁, hh₁, hsame, hquiet⟩ := holds_of_commitPrograms D hd hd₁
    obtain ⟨h₂, hh₂, hkept, hlost⟩ := ih hh₁ hrun
    refine ⟨h₂, hh₂, fun hall => ?_, fun hsome => ?_⟩
    · rw [forall_mem_cons] at hall
      rw [hkept hall.2, hsame hall.1]
    · by_cases hlater : ∃ qs ∈ runs, ∃ p ∈ qs, p.Replaces name
      · exact hlost hlater
      · have hnone : ∀ qs ∈ runs, ∀ p ∈ qs, ¬ p.Replaces name := fun qs hqs p hp hr =>
          hlater ⟨qs, hqs, p, hp, hr⟩
        rw [hkept hnone]
        obtain ⟨qs, hqs, p, hp, hr⟩ := hsome
        rcases mem_cons.1 hqs with rfl | hqs
        · exact hquiet ⟨p, hp, hr⟩
        · exact absurd hr (hnone qs hqs p hp)

/-- **The triggers of a relation stay attached** over a run of committed programs, so that the next
mutation is given them, if and only if no program of the run has replaced the relation. -/
theorem triggers_attached_iff {S : Serde} {d d' : Database}
    (hreached : Reached S (fun _ stmt => stmt.SwapsTemp) (fun _ => True) d) (hD : D.toSerde = S)
    (hrecord : Record S (fun k => d.store[k]?) name h) (htriggers : ¬ h.Quiet)
    {runs : List (List InputProgram)}
    (hrun : runs.foldlM (fun d ps => D.commitPrograms ps d) d = some d') (isWrite : Bool) :
    (∃ h', getRelation S name (d'.transact isWrite) = .ok h' (d'.transact isWrite) ∧
      h'.putTriggers = h.putTriggers ∧ h'.rmTriggers = h.rmTriggers ∧
      h'.replaceTriggers = h.replaceTriggers) ↔ ∀ ps ∈ runs, ∀ p ∈ ps, ¬ p.Replaces name := by
  subst hD
  have hd : Holds D.toSerde name h d := ⟨named_of_reached hreached, hrecord⟩
  obtain ⟨h', hd', hkept, hlost⟩ := holds_of_run D hd hrun
  have hname := (hd'.sound.of_record hd'.record).persistent
  have hrec : Record D.toSerde (d'.transact isWrite).storeTx.get name h' :=
    (hd'.transact isWrite).records (name, h') mem_cons_self
  have hget : getRelation D.toSerde name (d'.transact isWrite) = .ok h' (d'.transact isWrite) :=
    getRelation_of_record hname hrec
  constructor
  · rintro ⟨found, hfound, hput, hrm, hreplace⟩ ps hps p hp hr
    obtain ⟨rfl, -⟩ := EStateM.Result.ok.inj (hget.symm.trans hfound)
    obtain ⟨hput', hrm', hreplace'⟩ := hlost ⟨ps, hps, p, hp, hr⟩
    exact htriggers ⟨hput.symm.trans hput', hrm.symm.trans hrm', hreplace.symm.trans hreplace'⟩
  · intro hall
    have hsame := hkept hall
    exact ⟨h', hget, by rw [hsame], by rw [hsame], by rw [hsame]⟩

end Runs

/-! ### A trigger that is lost -/

/-- Every trigger puts a row into `log`. -/
def loggingDb : Db := { plainDb with parseTrigger := fun _ _ => .ok (putOne "log" false) }

/-- The relations `r` and `log`, and a trigger on `r`. -/
def watchedStmts : List Statement :=
  [.program (createProgram "r"), .program (createProgram "log"),
    .sysOp ⟨.setTriggers "r" ["t"] [] [], rfl⟩]

def watchedDb : Database := loggingDb.runSession true watchedStmts .committed Database.empty

def watchedHandle : RelationHandle :=
  { newHandle "r" ⟨1, RelationId.one_le⟩ with putTriggers := ["t"] }

/-- `:replace r {a}`, without rows. -/
def replaceEmpty : InputProgram :=
  { createProgram "r" with
    storeRelation := some ⟨⟨"r", ⟨[⟨"a", .mk .int false, none⟩], []⟩, ["a"], []⟩, .replace, false⟩ }

/-- Whether there is a row in `log`. -/
def logged (d : Database) : Bool := d.store[Row.key [.int 1] ⟨2, RelationId.two_le⟩]?.isSome

theorem put_keeps_trigger : ∃ d',
    [[putOne "r" false]].foldlM (fun d ps => loggingDb.commitPrograms ps d) watchedDb = some d' ∧
      logged d' = true ∧ ∃ h', getRelation codec "r" (d'.transact true) =
      .ok h' (d'.transact true) ∧
        h'.putTriggers = watchedHandle.putTriggers ∧ h'.rmTriggers = [] ∧
        h'.replaceTriggers = [] := by
  have hreached : Reached codec (fun _ stmt => stmt.SwapsTemp) (fun _ => True) watchedDb :=
    .session .new loggingDb rfl true watchedStmts .committed ⟨trivial, trivial, trivial, trivial⟩
  have hrecord : Record codec (fun k => watchedDb.store[k]?) "r" watchedHandle :=
    ⟨_, by decide +kernel, codec.decode_encodeHandle _⟩
  have hsome : ([[putOne "r" false]].foldlM
    (fun d ps => loggingDb.commitPrograms ps d) watchedDb).map logged =
    some true := by decide +kernel
  cases hrun : [[putOne "r" false]].foldlM (fun d ps => loggingDb.commitPrograms ps d) watchedDb with
  | none => rw [hrun] at hsome; cases hsome
  | some d' =>
    rw [hrun] at hsome
    refine ⟨d', rfl, Option.some.inj hsome,
      (triggers_attached_iff loggingDb hreached rfl hrecord (fun h => (nomatch h.1)) hrun true).2
      ?_⟩
    intro ps hps p hp
    cases mem_singleton.1 hps
    cases mem_singleton.1 hp
    rintro ⟨target, htarget, hop, -⟩
    cases htarget
    cases hop

/-- **The trigger is lost with `:replace`**: a `:put` after it writes nothing into `log`, although
the same `:put` before it does. -/
theorem replaced_relation_loses_trigger :
    (loggingDb.commitPrograms [putOne "r" false] watchedDb).map logged = some true ∧ (do
        let d ← loggingDb.commitPrograms [replaceEmpty] watchedDb
        let d ← loggingDb.commitPrograms [putOne "r" false] d
        return logged d) = some false := by
  decide +kernel

end Session

end Retia
