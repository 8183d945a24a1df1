import Mathlib
import Retia.Runtime.Catalogue

/-!
# The catalogue over the statements of a session

Every statement keeps the catalogue (`wp_runStatement`), and so does every session, whether it is
committed or dropped (`inv_runStatements`, `sound_runSession`). A statement has to meet two
conditions for that (`Allowed`): if it may create a persistent relation, and identifiers are kept
track of, it is run when the counter is not behind the stored identifier; and what it swaps is of
the kind that is kept in the temporary store.
-/

namespace Retia

open Effect

namespace Session

open SessionM

namespace SysOp

def createsIndex : SysOp → Bool
  | createIndex .. | createVectorIndex .. | createFtsIndex _ | createMinHashLshIndex _ => true
  | _ => false

end SysOp

section Statements

variable {G : Regime} {c : Bool} {s : SessionTx} (D : Db) {records : List (String × RelationHandle)}

theorem keeps_destroyRelations (names : List String) :
    Keeps (Inv D.toSerde G c) RelationRanges (D.destroyRelations names) := by
  induction names with
  | nil => exact Keeps.pure collects_relationRanges.nil
  | cons name names ih =>
    refine (keeps_of_keepsWith_nil (keeps_destroyRelation (by simp))).bind fun bound hbound =>
      ih.bind fun bounds hbounds => Keeps.pure (collects_relationRanges.append ?_ hbounds)
    split
    · exact collects_relationRanges.nil
    · exact hbound

/-- **System operations** keep the invariant. -/
theorem keeps_applySysOp {op : SysOp} (hop : op.wellNamed = true)
    (hc : op.createsIndex = true → c = true) :
    Keeps (Inv D.toSerde G c) (fun _ => True) (D.applySysOp op) := by
  cases op with
  | report rows => exact Keeps.pure trivial
  | removeRelation names => exact (keeps_destroyRelations D names).bind fun _ h => keeps_delRanges h
  | renameRelation pairs =>
    refine Keeps.forM fun pair hmem => ?_
    have := List.all_eq_true.1 hop pair hmem
    exact keeps_renameRelation (Bool.and_eq_true_iff.1 this).1 _
  | setTriggers name puts rms replaces =>
    exact keeps_setRelationTriggers (isTempStoreName_of_isCompoundIdent hop) puts rms replaces
  | setAccessLevel names level =>
    refine Keeps.forM fun name hmem => ?_
    exact keeps_setAccessLevel (isTempStoreName_of_isCompoundIdent
      (List.all_eq_true.1 hop name hmem)) level
  | createIndex relName idxName cols =>
    obtain rfl := hc rfl
    exact keeps_createIndex (Bool.and_eq_true_iff.1 hop).1 idxName cols
  | createVectorIndex config vecFields =>
    obtain rfl := hc rfl
    exact keeps_createHnswIndex D.toEngine config vecFields (Bool.and_eq_true_iff.1 hop).1
  | createFtsIndex config =>
    obtain rfl := hc rfl
    exact keeps_createFtsIndex D.toEngine config (Bool.and_eq_true_iff.1 hop).1
  | createMinHashLshIndex config =>
    obtain rfl := hc rfl
    exact keeps_createMinhashLshIndex D.toEngine config (Bool.and_eq_true_iff.1 hop).1
  | removeIndex relName idxName =>
    exact (keeps_removeIndex (Bool.and_eq_true_iff.1 hop).1 idxName).bind fun _ h => keeps_delRanges h
  | describeRelation relName description =>
    exact keeps_describeRelation (by simpa [SysOp.wellNamed] using hop) description

/-! ### Queries -/

/-- The relation to be written to has no triggers. -/
def QuietTarget (S : Serde) (name : String) (s : SessionTx) : Prop :=
  ∀ h, Record S (s.viewOf (isTempStoreName name)) name h → h.Quiet

theorem wp_findRelation (name : String) (s : SessionTx) :
    wp (D.findRelation name) (fun found s' => s' = s ∧
        ∀ h, found = some h → Record D.toSerde (s.viewOf (isTempStoreName name)) name h)
        (fun _ _ => False) s := by
  have hget := wp_getRelation (S := D.toSerde) name s
  unfold wp at hget ⊢
  unfold Db.findRelation
  cases hr : getRelation D.toSerde name s with
  | error e s' =>
    rw [hr] at hget
    exact ⟨hget, by simp⟩
  | ok h s' =>
    rw [hr] at hget
    refine ⟨hget.1, fun h' hh' => ?_⟩
    cases hh'
    exact hget.2

theorem Inv.of_collector {S : Serde} (hs : Inv S G c s) (collector : List CallbackEvent) :
    Inv S G c { s with callbackCollector := collector } where
  store := hs.store
  persisted := hs.persisted
  temp := hs.temp
  notBehind := hs.notBehind

theorem InvWith.of_collector {S : Serde} (hs : InvWith S G c records s)
    (collector : List CallbackEvent) :
    InvWith S G c records { s with callbackCollector := collector } where
  toInv := hs.toInv.of_collector collector
  records := hs.records

section Execute

variable {runTrigger : Db.RunTrigger} (propagateTriggers : Bool) (forceCollect : String)
  (hrun : c = true → ∀ t a, Keeps (InvWith D.toSerde G c records) RelationRanges (runTrigger t a))

include hrun

theorem wp_replaceRelation {name : String}
    (hname : propagateTriggers = true → name ∉ records.map Prod.fst)
    (hquiet : c = true ∨ QuietTarget D.toSerde name s) (hs : InvWith D.toSerde G c records s) :
    wp (D.replaceRelation runTrigger propagateTriggers name)
    (fun r s' => InvWith D.toSerde G c records s' ∧ RelationRanges r.1 ∧
        (c = true ∨ r.2 = none) ∧
        propagateTriggers = true) (fun _ => InvWith D.toSerde G c records) s := by
  rw [Db.replaceRelation, wp_bind]
  cases propagateTriggers with
  | false => exact hs
  | true =>
    refine (Reads.bailIf _ _).wp (fun _ => ?_) fun _ => hs
    rw [wp_bind]
    refine wp_mono (wp_findRelation D name s) ?_ fun _ _ h => h.elim
    rintro found s' ⟨rfl, hfound⟩
    cases found with
    | none => exact ⟨hs, collects_relationRanges.nil, .inr rfl, rfl⟩
    | some old =>
      have hold : c = true ∨ old.Quiet := hquiet.imp_right fun h => h old (hfound old rfl)
      have htriggers : ∀ t ∈ old.replaceTriggers, ∀ a,
        Keeps (InvWith D.toSerde G c records) RelationRanges (runTrigger t a) := by
        rcases hold with hc | hquiet
        · exact fun t _ => hrun hc t
        · rw [hquiet.2.2]
          simp
      have herr : ∀ (_ : SessionError) s', InvWith D.toSerde G c records s' →
        InvWith D.toSerde G c records s' := fun _ _ => id
      refine (keepsWith_of_reads (Reads.bailIf _ _)).wp_bind hs herr fun _ s hs _ => ?_
      refine (keepsWith_of_reads (Reads.requireLevel _ _ _)).wp_bind hs herr fun _ s hs _ => ?_
      refine (Db.keeps_runTriggers collects_relationRanges _ htriggers none).wp_bind
        hs herr fun cleanups s hs hcleanups => ?_
      refine (keeps_destroyRelation (hname rfl)).wp_bind hs herr fun destroyed s hs hdestroyed => ?_
      refine ⟨hs, collects_relationRanges.append hcleanups ?_, ?_, rfl⟩
      · split
        · exact collects_relationRanges.nil
        · exact hdestroyed
      · refine hold.imp_right fun h => if_neg ?_
        simp [RelationHandle.hasTriggers, h.1, h.2.1]

theorem keeps_mutateRelation {rel : RelationHandle} (hrel : rel.Within (· ≠ RelationId.system))
    (htriggers : c = true ∨ rel.putTriggers = [] ∧ rel.rmTriggers = [])
    (op : RelationOp) (input : InputRelationHandle)
    (headers : List Symbol) (rows : List Row) : Keeps (InvWith D.toSerde G c records) RelationRanges
      (D.mutateRelation runTrigger propagateTriggers forceCollect rel op input headers rows) := by
  refine Db.keeps_mutateRelation D collects_relationRanges _ _
    (fun _ _ ht hs => hs.of_touches (ht.mono fun _ hid => hrel.of_owns hid))
    (fun _ _ hs => hs.of_collector _) ?_ op input headers rows
  rcases htriggers with hc | ⟨hput, hrm⟩
  · exact fun t _ => hrun hc t
  · rw [hput, hrm]
    simp

/-- **A mutation with its triggers** keeps the metadata of the relations that it does not create or
replace. -/
theorem wp_executeRelation {op : RelationOp} {input : InputRelationHandle}
    (hreplace : op = .replace → propagateTriggers = true → input.name ∉ records.map Prod.fst)
    (hnew : op = .create → input.name ∉ records.map Prod.fst)
    (hcreate : op = .replace ∨ op = .create → isTempStoreName input.name = false → c = true)
    (hquiet : c = true ∨ QuietTarget D.toSerde input.name s) (headers : List Symbol)
    (rows : List Row)
    (hs : InvWith D.toSerde G c records s) :
    wp (D.executeRelation runTrigger propagateTriggers forceCollect op input headers rows)
      (fun cleanups s' => InvWith D.toSerde G c records s' ∧
      RelationRanges cleanups) (fun _ => InvWith D.toSerde G c records) s := by
  -- what follows once the relation is known
  have hmutate : ∀ (rel : RelationHandle), rel.Within (· ≠ RelationId.system) →
      (c = true ∨ rel.putTriggers = [] ∧ rel.rmTriggers = []) → ∀ toClear, RelationRanges toClear →
      ∀ s, InvWith D.toSerde G c records s →
      wp (do
          let more ← D.mutateRelation runTrigger propagateTriggers forceCollect rel op input headers rows
          pure (toClear ++ more) : SessionM Cleanups)
        (fun cleanups s' => InvWith D.toSerde G c records s' ∧ RelationRanges cleanups)
        (fun _ => InvWith D.toSerde G c records) s := by
    intro rel hrel htriggers toClear hclear s hs
    exact Keeps.bind (F := RelationRanges)
      (keeps_mutateRelation D propagateTriggers forceCollect hrun hrel htriggers
      op input headers rows)
      (fun more hmore => Keeps.pure (collects_relationRanges.append hclear hmore)) s hs
  have hfirst : wp (runOr (op = .replace) (D.replaceRelation runTrigger propagateTriggers input.name)
      ([], none)) (fun r s' => InvWith D.toSerde G c records s' ∧ RelationRanges r.1 ∧
        (c = true ∨ r.2 = none) ∧
        (op = .replace → propagateTriggers = true) ∧ (op ≠ .replace → s' = s ∧ r.2 = none))
      (fun _ => InvWith D.toSerde G c records) s := by
    by_cases hop : op = .replace
    · rw [runOr, if_pos (by simpa using hop)]
      refine wp_mono (wp_replaceRelation D propagateTriggers hrun (hreplace hop) hquiet hs)
        ?_ fun _ _ => id
      exact fun r s' h => ⟨h.1, h.2.1, h.2.2.1, fun _ => h.2.2.2, fun hne => absurd hop hne⟩
    · rw [runOr, if_neg (by simpa using hop)]
      exact ⟨hs, collects_relationRanges.nil, .inr rfl, fun h => absurd h hop, fun _ => ⟨rfl, rfl⟩⟩
  rw [Db.executeRelation, wp_bind]
  refine wp_mono hfirst ?_ fun _ _ => id
  rintro ⟨toClear, replaced⟩ s' ⟨hs', hclear, hold, hpropagate, hsame⟩
  rw [wp_bind]
  by_cases hop : op = .replace ∨ op = .create
  · -- a new relation, which has the triggers of the old one at most
    have hname : input.name ∉ records.map Prod.fst := hop.elim (fun h => hreplace h (hpropagate h)) hnew
    rw [Db.targetRelation, if_pos hop]
    refine wp_mono (wp_createRelation hname (hcreate hop) hs') ?_ fun _ _ => id
    rintro rel s'' ⟨hs'', -, -, hindex, hquiet', hid, -⟩
    have hrel : rel.Within (· ≠ RelationId.system) := ⟨hid, by simp [RelationHandle.IndicesWithin, hindex]⟩
    cases replaced with
    | none => exact hmutate rel hrel (.inr ⟨hquiet'.1, hquiet'.2.1⟩) toClear hclear s'' hs''
    | some old =>
      have hc : c = true := hold.resolve_right (by simp)
      exact hmutate { rel with putTriggers := old.1, rmTriggers :=
        old.2 } ⟨hrel.base, hrel.index⟩ (.inl hc) toClear hclear s'' hs''
  · -- the relation that is there
    rw [Db.targetRelation, if_neg hop]
    obtain ⟨rfl, rfl⟩ := hsame fun h => hop (.inl h)
    refine wp_mono (wp_getRelation input.name s') ?_ ?_
    · rintro rel s'' ⟨rfl, hr⟩
      exact hmutate rel (hs'.within hr)
        (hquiet.imp_right fun h => ⟨(h rel hr).1, (h rel hr).2.1⟩) toClear hclear s'' hs'
    · rintro e s'' rfl
      exact hs'

end Execute

end Statements

/-! ### Statements -/

/-- Running the program may create a persistent relation: it does so itself, or the relation it
writes to has triggers. -/
def InputProgram.MayCreate (S : Serde) (p : InputProgram) (s : SessionTx) : Prop :=
  ∃ target, p.storeRelation = some target ∧
    ((target.op = .replace ∨ target.op = .create) ∧ isTempStoreName target.handle.name = false ∨
      ¬ QuietTarget S target.handle.name s)

section Statements

variable {G : Regime} {c : Bool} {s : SessionTx} (D : Db) {records : List (String × RelationHandle)}

theorem wp_checkStoreRelation_create {target : StoreRelation}
    (hs : InvWith D.toSerde G c records s) : wp (D.checkStoreRelation target)
      (fun _ s' => s' = s ∧ (target.op = .create → target.handle.name ∉ records.map Prod.fst))
      (fun _ s' => s' = s) s := by
  have hreads := Reads.checkStoreRelation D target s
  unfold wp
  cases hcheck : D.checkStoreRelation target s with
  | error e s' => exact (final_eq_of_error hcheck).symm.trans hreads
  | ok a s' =>
    refine ⟨(final_eq_of_ok hcheck).symm.trans hreads, fun hop hmem => ?_⟩
    obtain ⟨⟨name, h⟩, hp, hname⟩ := List.mem_map.1 hmem
    dsimp only at hname
    subst hname
    have hrec := hs.records _ hp
    have hproper := hs.store.of_record hrec
    obtain ⟨bytes, hb, -⟩ := hrec
    dsimp only at hb
    -- the test finds the metadata
    have hexists : relationExists target.handle.name s = .ok true s := by
      rw [relationExists, hproper.persistent]
      have hkey : s.storeTx.keyExists (metaKey target.handle.name) = true := by
        rw [MemTx.keyExists_eq, hb]
        rfl
      change EStateM.Result.ok (s.storeTx.keyExists (metaKey target.handle.name)) s = _
      rw [hkey]
    rw [Db.checkStoreRelation, hop] at hcheck
    dsimp only at hcheck
    obtain ⟨found, s₁, hfound, hbail⟩ := bind_eq_ok.1 hcheck
    rw [hexists] at hfound
    cases hfound
    cases hbail

/-- **A query**, given what its triggers keep, keeps the metadata of the relations that it does not
replace. -/
theorem wp_runQueryWith {runTrigger : Db.RunTrigger} (propagateTriggers : Bool) {p : InputProgram}
    (hrun : c = true → ∀ t a, Keeps (InvWith D.toSerde G c records) RelationRanges (runTrigger t a))
    (hreplace : ∀ target, p.storeRelation = some target → target.op = .replace →
      propagateTriggers = true →
      target.handle.name ∉ records.map Prod.fst) (hc : p.MayCreate D.toSerde s → c = true)
      (hs : InvWith D.toSerde G c records s) :
    wp (D.runQueryWith (D.executeRelation runTrigger propagateTriggers) p)
      (fun r s' => InvWith D.toSerde G c records s' ∧
      RelationRanges r.2) (fun _ => InvWith D.toSerde G c records) s := by
  unfold Db.runQueryWith
  cases htarget : p.storeRelation with
  | none =>
    dsimp only
    rw [wp_bind]
    refine Reads.get.wp (fun _ => ?_) fun _ => hs
    rw [wp_bind]
    exact (Reads.attempt _).wp (fun _ => ⟨hs, collects_relationRanges.nil⟩) fun _ => hs
  | some target =>
    dsimp only
    rw [wp_bind]
    refine wp_mono (wp_checkStoreRelation_create D hs) ?_ ?_
    · rintro _ s' ⟨rfl, hnew⟩
      rw [wp_bind]
      refine Reads.get.wp (fun _ => ?_) fun _ => hs
      rw [wp_bind]
      refine (Reads.attempt _).wp (fun rows => ?_) fun _ => hs
      rw [wp_bind]
      have hquiet : c = true ∨ QuietTarget D.toSerde target.handle.name s' := by
        by_contra hnot
        rw [not_or] at hnot
        exact hnot.1 (hc ⟨target, htarget, .inr hnot.2⟩)
      refine wp_mono (wp_executeRelation D propagateTriggers _ hrun (hreplace target htarget) hnew
        (fun hop hname => hc ⟨target, htarget, .inl ⟨hop, hname⟩⟩) hquiet p.entryHead rows hs)
          ?_ fun _ _ => id
      rintro toClear s'' ⟨hs'', hclear⟩
      rw [wp_bind]
      exact (Reads.getReturningRows D _ _).wp (fun _ => ⟨hs'', hclear⟩) fun _ => hs''
    · rintro e s' rfl
      exact hs

theorem keeps_runTriggerQuery (t : String) (args : Option (List Row × List Row)) :
    Keeps (InvWith D.toSerde G true records) RelationRanges (D.runTriggerQuery t args) := by
  refine (keepsWith_of_reads (Reads.attempt _)).bind fun p _ =>
    Keeps.bind (F := fun r => RelationRanges r.2) ?_ fun r hr => Keeps.pure hr
  exact fun s hs => wp_runQueryWith D false (fun _ _ _ => Keeps.throw _)
    (fun _ _ _ h => (nomatch h)) (fun _ => rfl) hs

theorem wp_runQuery {p : InputProgram} (hc : p.MayCreate D.toSerde s → c = true)
    (hs : Inv D.toSerde G c s) :
    wp (D.runQuery p) (fun r s' => Inv D.toSerde G c s' ∧
      RelationRanges r.2) (fun _ => Inv D.toSerde G c) s := by
  refine wp_mono (wp_runQueryWith D true (fun hc t a => ?_) (by simp) hc hs.with_nil)
    (fun _ _ h => ⟨h.1.toInv, h.2⟩) fun _ _ h => h.toInv
  subst hc
  exact keeps_runTriggerQuery D t a

theorem wp_withFreshCollector {α : Type} {m : SessionM α} {Q : α → SessionTx → Prop}
    {E : SessionError → SessionTx → Prop}
    (h : wp m (fun a s' => Q a { s' with callbackCollector := s.callbackCollector })
      (fun e s' => E e { s' with callbackCollector := s.callbackCollector })
      { s with callbackCollector := [] }) : wp (Db.withFreshCollector m) Q E s := by
  unfold wp at h ⊢
  unfold Db.withFreshCollector
  split at h
  case h_1 a s' hm => rwa [hm]
  case h_2 e s' hm => rwa [hm]

theorem wp_scriptStoreAsRelation {name : String} {result : NamedRows}
    (hc : isTempStoreName name = false ∨ ¬ QuietTarget D.toSerde name s → c = true)
    (hs : Inv D.toSerde G c s) :
    wp (D.scriptStoreAsRelation name result) (fun _ => Inv D.toSerde G c)
    (fun _ => Inv D.toSerde G c) s := by
  rw [Db.scriptStoreAsRelation]
  dsimp only
  rw [wp_bind]
  refine (Reads.attempt _).wp (fun _ => ?_) fun _ => hs
  rw [wp_bind]
  refine wp_withFreshCollector ?_
  let silent : Db := { D with callbackTargets := [] }
  have hquiet : c = true ∨ QuietTarget silent.toSerde name { s with callbackCollector := [] } := by
    by_contra hnot
    rw [not_or] at hnot
    exact hnot.1 (hc (.inr hnot.2))
  have hrun : c = true → ∀ t a,
    Keeps (InvWith silent.toSerde G c []) RelationRanges (silent.runTriggerQuery t a) := by
    rintro rfl t a
    exact keeps_runTriggerQuery silent t a
  have hs' : Inv silent.toSerde G c { s with callbackCollector := [] } := hs.of_collector []
  let input : InputRelationHandle :=
    ⟨name, ⟨(result.headers.map Db.headerSymbol).map fun k => ⟨k, .mk .any true, none⟩, []⟩,
      result.headers.map Db.headerSymbol, []⟩
  have hcreate : RelationOp.replace = .replace ∨ RelationOp.replace = .create →
      isTempStoreName input.name = false → c = true := fun _ hname => hc (.inl hname)
  have hexecute := wp_executeRelation silent true "" hrun (by simp) (by simp) hcreate hquiet
    (result.headers.map Db.headerSymbol) result.rows hs'.with_nil
  exact wp_mono hexecute (fun _ _ h => h.1.toInv.of_collector _) fun _ _ h => h.toInv.of_collector _

end Statements

def Statement.SwapsTemp : Statement → Prop
  | .tempSwap left right => isTempStoreName left = true ∧ isTempStoreName right = true
  | _ => True

def Statement.MayCreate (S : Serde) (s : SessionTx) : Statement → Prop
  | .program p => p.MayCreate S s
  | .sysOp op => op.1.createsIndex = true
  | .storeAs name _ => isTempStoreName name = false ∨ ¬ QuietTarget S name s
  | .tempSwap .. => False

section Statements

variable {G : Regime} {c : Bool} {s : SessionTx} (D : Db)

/-- **One statement.** -/
theorem wp_runStatement {stmt : Statement} (hc : stmt.MayCreate D.toSerde s → c = true)
    (hswap : stmt.SwapsTemp ∨ ∀ h, h.Within (· ≠ RelationId.system) → G.temp h)
    (hs : Inv D.toSerde G c s) :
    wp (D.runStatement stmt) (fun r s' => Inv D.toSerde G c s' ∧
      RelationRanges r.2) (fun _ => Inv D.toSerde G c) s := by
  cases stmt with
  | program p => exact wp_runQuery D hc hs
  | sysOp op =>
    refine Keeps.bind (F := fun _ => True) (G := fun r : NamedRows × Cleanups => RelationRanges r.2)
      ((keeps_applySysOp D op.2 hc).bind fun _ _ => ?_)
      (fun _ _ => Keeps.pure collects_relationRanges.nil) s hs
    cases op.1 with
    | report rows => exact keeps_of_reads (Reads.get.bind fun _ => Reads.attempt _)
    | _ => exact Keeps.pure trivial
  | storeAs name result =>
    rw [Db.runStatement, wp_bind]
    exact wp_mono (wp_scriptStoreAsRelation D hc hs)
      (fun _ _ h => ⟨h, collects_relationRanges.nil⟩) fun _ _ => id
  | tempSwap left right =>
    refine Keeps.bind (F := fun _ => True) (G := fun r : NamedRows × Cleanups => RelationRanges r.2) ?_
      (fun _ _ => Keeps.pure collects_relationRanges.nil) s hs
    exact (keeps_renameTempRelation (hswap.imp_left And.left) _).bind fun _ _ =>
      (keeps_renameTempRelation (hswap.imp_left And.right) _).bind fun _ _ =>
        keeps_renameTempRelation (.inl rfl) _

end Statements

namespace Db

variable (D : Db)

/-- Every statement meets a condition when its turn comes. -/
def Each (ok : SessionTx → Statement → Prop) : List Statement → SessionTx → Prop
  | [], _ => True
  | stmt :: rest, s => ok s stmt ∧ Each ok rest (final (D.runStatement stmt) s)

end Db

/-! ### Sessions -/

section Sessions

variable {S : Serde} {G : Regime} (D : Db) {s : SessionTx}

structure Allowed (S : Serde) (G : Regime) (s : SessionTx) (stmt : Statement) : Prop where
  /-- Relations are created when the counter is not behind, if that is kept track of. -/
  creates : stmt.MayCreate S s → G.ids → NotBehind s
  swaps : stmt.SwapsTemp ∨ ∀ h, h.Within (· ≠ RelationId.system) → G.temp h

/-- **A run of statements** keeps the invariant. -/
theorem inv_runStatements {stmts : List Statement} (hok : D.Each (Allowed D.toSerde G) stmts s)
    (hs : Inv D.toSerde G false s) :
    Inv D.toSerde G false (D.runStatements stmts s).2 ∧
    RelationRanges (D.runStatements stmts s).1 := by
  induction stmts generalizing s with
  | nil => exact ⟨hs, collects_relationRanges.nil⟩
  | cons stmt rest ih =>
    obtain ⟨hstmt, hrest⟩ := hok
    -- the first statement, with or without the counter
    have hwp : wp (D.runStatement stmt) (fun r s' => Inv D.toSerde G false s' ∧ RelationRanges r.2)
        (fun _ => Inv D.toSerde G false) s := by
      have hdown : ∀ s, Inv D.toSerde G true s → Inv D.toSerde G false s :=
        fun s h => ⟨h.toSound, fun hc => by cases hc⟩
      by_cases hmay : stmt.MayCreate D.toSerde s
      · refine wp_mono (wp_runStatement (c := true) D
          (fun _ => rfl) hstmt.swaps ⟨hs.toSound, fun _ => hstmt.creates hmay⟩) ?_ ?_
        · exact fun _ s' h => ⟨hdown s' h.1, h.2⟩
        · exact fun _ s' h => hdown s' h
      · exact wp_runStatement D (fun h => absurd h hmay) hstmt.swaps hs
    rw [Db.runStatements]
    unfold wp at hwp
    cases hrun : D.runStatement stmt s with
    | ok r s' =>
      rw [hrun] at hwp
      rw [final_eq_of_ok hrun] at hrest
      obtain ⟨hs', hranges⟩ := ih hrest hwp.1
      exact ⟨hs', collects_relationRanges.append hwp.2 hranges⟩
    | error e s' =>
      rw [hrun] at hwp
      rw [final_eq_of_error hrun] at hrest
      exact ih hrest hwp

def Database.Sound (S : Serde) (G : Regime) (d : Database) : Prop :=
  Catalogue S G fun k : Bytes => d.store[k]?

theorem Database.Sound.transact {d : Database} (h : d.Sound S G) (isWrite : Bool) :
    Inv S G false (d.transact isWrite) := by
  have hget : (fun k => (d.transact isWrite).storeTx.get k) = fun k : Bytes => d.store[k]? := by
    funext k
    cases isWrite <;> simp [Database.transact, MemTx.transactWrite, MemTx.get]
  have hpersisted : (fun k => (d.transact isWrite).storeTx.persisted[k]?) = fun k : Bytes =>
    d.store[k]? := by
    funext k
    cases isWrite <;> rfl
  refine ⟨⟨?_, ?_, ?_⟩, by simp⟩
  · rw [hget]
    exact h
  · rw [hpersisted]
    exact h
  · rintro name h' ⟨bytes, hb, -⟩
    simp [SessionTx.viewOf, Database.transact] at hb

theorem Sound.ofDropped (hs : Sound S G s) : (Database.ofDropped s).Sound S G := hs.persisted

theorem Sound.ofCommitted (hs : Sound S G s) : (Database.ofCommitted s).Sound S G :=
  hs.store.congr (MemTx.getElem?_persisted_commit _ _) fun _ => MemTx.getElem?_persisted_commit _ _

theorem sound_endSession {cleanups : Cleanups} (how : SessionEnd) (hs : Inv S G false s)
    (hc : RelationRanges cleanups) : (Db.endSession how cleanups s).Sound S G := by
  cases how with
  | dropped => exact hs.toSound.ofDropped
  | committed =>
    have hwp := keeps_delRanges (S := S) (G := G) (c := false) hc s hs
    unfold wp at hwp
    unfold Db.endSession
    dsimp only
    split
    case h_1 h =>
      rw [h] at hwp
      exact hwp.1.toSound.ofCommitted
    case h_2 h =>
      rw [h] at hwp
      exact hwp.toSound.ofDropped
  | committedAnyway => exact ((keeps_delRangesAnyway hc).final hs).toSound.ofCommitted

/-- **A whole session.** -/
theorem sound_runSession {d : Database} (h : d.Sound D.toSerde G) {isWrite : Bool}
    {stmts : List Statement} (how : SessionEnd)
    (hok : D.Each (Allowed D.toSerde G) stmts (d.transact isWrite)) :
    (D.runSession isWrite stmts how d).Sound D.toSerde G := by
  obtain ⟨hs, hranges⟩ := inv_runStatements D hok (h.transact isWrite)
  exact sound_endSession how hs hranges

end Sessions

end Session

end Retia
