import Mathlib
import Retia.Runtime.CatalogueRun
import Retia.Runtime.Codec

/-!
# Identifiers over the life of a database

Sessions keep the identifiers of live relations in order, provided that a statement which may create
a persistent relation is run when the counter is not behind the stored identifier
(`CreatesInOrder`). Opening a store and restoring a backup keep the order as well
(`Database.Sound.openStore`, `Database.Sound.restoreBackup`). So it holds in every database that is
reached by these steps (`sound_of_reached`, `live_relations_disjoint`).

The proviso fails in one way. `restore_backup` copies the stored identifier and leaves the counter
at zero, so that until the database is opened again the next relation gets an identifier that is
taken (`restored_relations_collide`).
-/

namespace Retia

open Effect

namespace Session

open SessionM

/-! ### Opening, backups -/

section Backups

variable {S : Serde} {G : Regime} {d : Database}

theorem getElem?_batchPut (store : Store) {entries : List (Bytes × Bytes)}
    (hsorted : entries.Pairwise fun a b => a.1 < b.1) (k : Bytes) :
    (∀ v, (k, v) ∈ entries → (Database.batchPut store entries)[k]? = some v) ∧
    ((∀ v, (k, v) ∉ entries) → (Database.batchPut store entries)[k]? = store[k]?) := by
  refine BTree.getElem?_foldl_of_pairwise (r := some) (fun w e k => ?_) k entries store hsorted
  by_cases h : e.1 = k
  · subst h
    simp
  · rw [if_neg h]
    exact getElem?_insert_of_ne (Ne.symm h)

theorem key_system_lt (t : Row) : Row.key t .system < [0xFF] := by
  have h : Row.key t .system = [0] ++ (Row.key t .system).tail := rfl
  rw [h]
  exact append_lt_append_of_lt (a := [0]) (b := [0xFF]) (by decide) rfl _ []

theorem getElem?_backupDb {file : Store} (h : d.backupDb = .ok file) (t : Row) :
    file[t.key RelationId.system]? =
      (d.store[t.key RelationId.system]?).or Database.empty.store[t.key RelationId.system]? := by
  rw [Database.backupDb, BTree.range_eq] at h
  split at h
  · cases h
  case h_2 entries hentries =>
    split at hentries
    · cases hentries
    cases hentries
    cases h
    obtain ⟨h₁, h₂⟩ := getElem?_batchPut Database.empty.store
      (@BTree.pairwise_rangeEntries _ d.store [] [0xFF]) (t.key RelationId.system)
    cases hv : d.store[t.key RelationId.system]? with
    | some v =>
      exact h₁ v ((BTree.mem_rangeEntries _).2 ⟨hv, List.nil_le _, key_system_lt t⟩)
    | none =>
      refine h₂ fun v hmem => ?_
      rw [((BTree.mem_rangeEntries _).1 hmem).1] at hv
      cases hv

theorem backupDb_eq (d : Database) : d.backupDb =
    .ok (Database.batchPut Database.empty.store (BTree.rangeEntries d.store [] [0xFF] false)) := by
  rw [Database.backupDb, BTree.range_eq, if_neg (by simp)]

theorem metaKey_ne_storageVersionKey (name : String) :
    metaKey name ≠ Database.storageVersionKey := by
  intro h
  have hrow := (Row.key_inj (t := [.str (strBytes name)])
    (u := [.null, .str (strBytes "STORAGE_VERSION")]) h).1
  cases hrow

theorem getElem?_empty_metaKey (name : String) : Database.empty.store[metaKey name]? = none := by
  rw [Database.empty, getElem?_insert_of_ne (metaKey_ne_lastIdKey name),
    getElem?_insert_of_ne (metaKey_ne_storageVersionKey name)]
  exact Std.ExtTreeMap.getElem?_empty

theorem getElem?_backupDb_metaKey {d : Database} {file : Store} (h : d.backupDb = .ok file)
    (name : String) : file[metaKey name]? = d.store[metaKey name]? := by
  have := getElem?_backupDb h [.str (strBytes name)]
  rw [show Database.empty.store[Row.key [.str (strBytes name)] RelationId.system]? = none from
    getElem?_empty_metaKey name, Option.or_none] at this
  exact this

theorem getElem?_batchPut_toList (store source : Store) (k : Bytes) :
    (Database.batchPut store source.toList)[k]? = (source[k]?).or store[k]? := by
  obtain ⟨h₁, h₂⟩ := getElem?_batchPut store (BTree.pairwise_toList source) k
  cases hv : source[k]? with
  | some v => exact h₁ v (Std.ExtTreeMap.mem_toList_iff_getElem?_eq_some.2 hv)
  | none =>
    refine h₂ fun v hmem => ?_
    rw [Std.ExtTreeMap.mem_toList_iff_getElem?_eq_some.1 hmem] at hv
    cases hv

theorem sound_empty : Database.empty.Sound S G := by
  have hno : ∀ name id, ¬ Live S (fun k : Bytes => Database.empty.store[k]?) name id := by
    rintro name id ⟨n, h, ⟨bytes, hb, -⟩, -⟩
    dsimp only at hb
    rw [getElem?_empty_metaKey] at hb
    cases hb
  refine ⟨⟨fun name bytes hb => ?_, fun name id h => absurd h (hno name id)⟩, fun _ =>
    ⟨RelationId.system, Std.ExtTreeMap.getElem?_insert_self,
      fun name id h => absurd h (hno name id), fun name _ id h => absurd h (hno name id)⟩⟩
  rw [getElem?_empty_metaKey] at hb
  cases hb

theorem initStorage_of_some {store source : Store} {n : Nat} {slice : Bytes}
    (hlast : store[lastIdKey]? = some slice) (h : Database.initStorage store = .ok (source, n)) :
    source = store := by
  rw [Database.initStorage, hlast] at h
  dsimp only at h
  split at h
  · cases h
  split at h
  · cases h
  split at h
  · cases h
  · cases h
    rfl

/-- Identifiers are kept in order; of temporary relations nothing is asked. -/
def idsRegime : Regime where
  ids := True
  temp h := h.Within (· ≠ .system)
  within _ := id
  created h _ hindex _ hid := ⟨hid, by simp [RelationHandle.IndicesWithin, hindex]⟩
  renamed _ _ hh := ⟨hh.base, hh.index⟩

theorem Database.Sound.exists_ordered (h : d.Sound S idsRegime) :
    ∃ last, Ordered S (fun k : Bytes => d.store[k]?) last := h.ordered trivial

theorem Database.Sound.openStore {d d' : Database} (h : d.Sound S idsRegime)
    (hopen : Database.openStore d.store = .ok d') : d'.Sound S idsRegime := by
  obtain ⟨last, ho⟩ := h.exists_ordered
  obtain ⟨⟨source, n⟩, hinit, rfl⟩ := except_map_eq_ok.1 hopen
  obtain rfl := initStorage_of_some ho.lastId hinit
  exact h

def Database.NotBehind (d : Database) : Prop :=
  ∀ last : RelationId, d.store[lastIdKey]? = some (beBytes 8 last.id) → last.id ≤ d.relationStoreId

/-- **Restoring a backup.** The counter is zero, so there was no relation before. -/
theorem Database.Sound.restoreBackup {d d' src : Database} {file : Store} (h : d.Sound S idsRegime)
    (hd : d.NotBehind) (hsrc : src.Sound S idsRegime) (hfile : src.backupDb = .ok file)
    (hrestore : d.restoreBackup file = .ok d') : d'.Sound S idsRegime := by
  obtain ⟨last, ho⟩ := hsrc.exists_ordered
  obtain ⟨last₀, ho₀⟩ := h.exists_ordered
  have hlast : file[lastIdKey]? = some (beBytes 8 last.id) := by
    have := getElem?_backupDb hfile [.null]
    rw [show src.store[Row.key [.null] RelationId.system]? = _ from ho.lastId] at this
    exact this
  obtain ⟨⟨source, n⟩, hinit, hrest⟩ := bind_ok.1 hrestore
  obtain rfl := initStorage_of_some hlast hinit
  dsimp only at hrest
  split at hrest
  · cases hrest
  case isFalse hzero =>
    cases hrest
    rw [not_not] at hzero
    -- no metadata was there before
    have hnone : ∀ name, d.store[metaKey name]? = none := by
      intro name
      rw [Option.eq_none_iff_forall_ne_some]
      intro bytes hb
      obtain ⟨r, hdec, -⟩ := h.record name bytes hb
      have hlive : Live S (fun k : Bytes => d.store[k]?) r.name r.id :=
        ⟨name, r, ⟨bytes, hb, hdec⟩, r.toIndexRelation, List.mem_cons_self, rfl, rfl⟩
      have hrange := ho₀.range r.name r.id hlive
      have hle := hd last₀ ho₀.lastId
      refine h.positive r.name r.id hlive ?_
      cases hid : r.id with
      | mk n hn =>
        rw [hid] at hrange
        have : n = 0 := by
          dsimp only at hrange
          omega
        subst this
        rfl
    refine Catalogue.congr hsrc ?_ fun name => ?_
    · dsimp only
      rw [getElem?_batchPut_toList, hlast, ho.lastId]
      rfl
    · dsimp only
      rw [getElem?_batchPut_toList, getElem?_backupDb_metaKey hfile, hnone, Option.or_none]

end Backups

/-! ### Runs -/

/-- The databases that are reached from a new one by sessions, by opening their store again and by
restoring backups of such databases, when the statements meet one condition and the databases that
are restored into another. -/
inductive Reached (S : Serde) (ok : SessionTx → Statement → Prop) (okRestore : Database → Prop) :
    Database → Prop
  | new : Reached S ok okRestore .empty
  | session {d : Database} (h : Reached S ok okRestore d) (D : Db) (hD : D.toSerde = S)
    (isWrite : Bool)
      (stmts : List Statement) (how : SessionEnd) (hok : D.Each ok stmts (d.transact isWrite)) :
      Reached S ok okRestore (D.runSession isWrite stmts how d)
  | reopened {d d' : Database} (h : Reached S ok okRestore d)
    (hopen : Database.openStore d.store = .ok d') : Reached S ok okRestore d'
  | restored {d d' src : Database} {file : Store} (h : Reached S ok okRestore d)
      (hsrc : Reached S ok okRestore src) (hfile : src.backupDb = .ok file) (hd : okRestore d)
      (hrestore : d.restoreBackup file = .ok d') : Reached S ok okRestore d'

def CreatesInOrder (S : Serde) (s : SessionTx) (stmt : Statement) : Prop :=
  stmt.MayCreate S s → NotBehind s

theorem Db.Each.mono {D : Db} {ok ok' : SessionTx → Statement → Prop}
    (h : ∀ s stmt, ok s stmt → ok' s stmt)
    {stmts : List Statement} {s : SessionTx} (hok : D.Each ok stmts s) : D.Each ok' stmts s := by
  induction stmts generalizing s with
  | nil => trivial
  | cons stmt rest ih => exact ⟨h s stmt hok.1, ih hok.2⟩

theorem allowed_of_createsInOrder {S : Serde} {s : SessionTx} {stmt : Statement}
    (h : CreatesInOrder S s stmt) : Allowed S idsRegime s stmt :=
  ⟨fun hmay _ => h hmay, Or.inr fun _ => id⟩

/-- **The run lemma.** -/
theorem sound_of_reached {S : Serde} {d : Database}
    (h : Reached S (CreatesInOrder S) Database.NotBehind d) : d.Sound S idsRegime := by
  induction h with
  | new => exact sound_empty
  | session h D hD isWrite stmts how hok ih =>
    subst hD
    exact sound_runSession D ih how (hok.mono fun _ _ => allowed_of_createsInOrder)
  | reopened h hopen ih => exact ih.openStore hopen
  | restored h hsrc hfile hd hrestore ih ihsrc => exact ih.restoreBackup hd ihsrc hfile hrestore

theorem ranges_disjoint {id id' next next' : RelationId} (hne : id ≠ id')
    (hnext : id.next = .ok next)
    (hnext' : id'.next = .ok next') (k : Bytes) :
    ¬ ((Row.key [] id ≤ k ∧ k < Row.key [] next) ∧ Row.key [] id' ≤ k ∧ k < Row.key [] next') := by
  have hid : ∀ {a b : RelationId}, a.next = .ok b → b.id = a.id + 1 := by
    intro a b hab
    rw [RelationId.next] at hab
    split at hab
    · cases hab
      rfl
    · cases hab
  have hmono : ∀ {a b : RelationId}, a.id ≤ b.id → Row.key [] a ≤ Row.key [] b := by
    intro a b hab
    have hkey : ∀ r : RelationId, Row.key [] r = beBytes 8 r.id ++ [] := fun r => by
      simp [Row.key, Row.values, encodeAsKey, Memcmp.encodeTuple]
    rcases hab.lt_or_eq with hlt | heq
    · rw [hkey, hkey]
      exact (append_lt_append_of_lt ((beBytes_lt_beBytes_iff (a.le.trans_lt (by decide))
        (b.le.trans_lt (by decide))).2 hlt) (by simp) _ _).le
    · rw [hkey, hkey, heq]
  rintro ⟨⟨hlo, hhi⟩, hlo', hhi'⟩
  have h := hid hnext
  have h' := hid hnext'
  rcases lt_trichotomy id.id id'.id with hlt | heq | hgt
  · exact absurd (hhi.trans_le ((hmono (by omega)).trans hlo')) (lt_irrefl _)
  · cases id
    cases id'
    cases heq
    exact hne rfl
  · exact absurd (hhi'.trans_le ((hmono (by omega)).trans hlo)) (lt_irrefl _)

/-- **Live relations have identifiers of their own**, at every point of every session of a database
that has been reached by creating relations only when the counter is not behind, and their ranges of
keys are disjoint. -/
theorem live_relations_disjoint {S : Serde} {d : Database}
    (h : Reached S (CreatesInOrder S) Database.NotBehind d) (D : Db)
    (hD : D.toSerde = S) (isWrite : Bool)
    {stmts : List Statement} (hok : D.Each (CreatesInOrder S) stmts (d.transact isWrite))
    {name name' : String} {id id' : RelationId}
    (hlive : Live S (D.runStatements stmts (d.transact isWrite)).2.storeTx.get name id)
    (hlive' : Live S (D.runStatements stmts (d.transact isWrite)).2.storeTx.get name' id')
    (hne : name ≠ name') :
    id ≠ id' ∧ ∀ next next', id.next = .ok next → id'.next = .ok next' → ∀ k,
      ¬ ((Row.key [] id ≤ k ∧ k < Row.key [] next) ∧ Row.key [] id' ≤ k ∧
      k < Row.key [] next') := by
  subst hD
  obtain ⟨hs, -⟩ := inv_runStatements D (hok.mono fun _ _ => allowed_of_createsInOrder)
    ((sound_of_reached h).transact isWrite)
  obtain ⟨last, ho⟩ := hs.store.ordered trivial
  have hid : id ≠ id' := by
    rintro rfl
    exact hne (ho.unique name name' id hlive hlive')
  exact ⟨hid, fun next next' hnext hnext' => ranges_disjoint hid hnext hnext'⟩

/-! ### A restored database -/

def createProgram (name : String) : InputProgram where
  storeRelation := some ⟨⟨name, ⟨[⟨"a", .mk .int false, none⟩], []⟩, ["a"], []⟩, .create, false⟩
  entryHead := ["a"]
  evaluate _ := .ok []

def newHandle (name : String) (id : RelationId) : RelationHandle where
  name := name
  id := id
  metadata := ⟨[⟨"a", .mk .int false, none⟩], []⟩
  isTemp := false
  putTriggers := []
  rmTriggers := []
  replaceTriggers := []
  accessLevel := .normal
  indices := []
  hnswIndices := []
  ftsIndices := []
  lshIndices := []
  description := ""

/-- A database with a relation `r`. -/
def oneRelationDb : Database :=
  plainDb.runSession true [.program (createProgram "r")] .committed .empty

def oneRelationBackup : Store :=
  Database.batchPut Database.empty.store (BTree.rangeEntries oneRelationDb.store [] [0xFF] false)

def restoredDb : Database :=
  { Database.empty with store := Database.batchPut Database.empty.store oneRelationBackup.toList }

def reopenedDb : Database := { restoredDb with relationStoreId := 1 }

theorem initStorage_eq {store : Store} (id : RelationId)
    (hlast : store[lastIdKey]? = some (beBytes 8 id.id))
    (hversion : store[Database.storageVersionKey]? = some Database.currentStorageVersion) :
    Database.initStorage store = .ok (store, id.id) := by
  have hid : RelationId.rawDecode (beBytes 8 id.id) = some id :=
    keyId_eq_some_iff.2 ⟨[], (List.append_nil _).symm⟩
  simp [Database.initStorage, hlast, hversion, hid]

theorem restoreBackup_empty : Database.empty.restoreBackup oneRelationBackup = .ok restoredDb := by
  have hinit : Database.initStorage oneRelationBackup = .ok (oneRelationBackup, 1) :=
    initStorage_eq ⟨1, by decide⟩ (by decide +kernel) (by decide +kernel)
  rw [Database.restoreBackup, hinit]
  rfl

theorem openStore_restoredDb : Database.openStore restoredDb.store = .ok reopenedDb := by
  have hinit : Database.initStorage restoredDb.store = .ok (restoredDb.store, 1) :=
    initStorage_eq ⟨1, by decide⟩ (by decide +kernel) (by decide +kernel)
  rw [Database.openStore, hinit]
  rfl

theorem live_of_stored {view : View} {h : RelationHandle}
    (hview : view (metaKey h.name) = some (codec.encodeHandle h)) : Live codec view h.name h.id :=
  Record.live ⟨_, hview, codec.decode_encodeHandle h⟩ List.mem_cons_self

theorem notBehind_of_get {s : SessionTx} (last : RelationId)
    (hlast : s.storeTx.get lastIdKey = some (beBytes 8 last.id))
    (hle : last.id ≤ s.relationStoreId) : NotBehind s := by
  intro l hl
  rw [hlast] at hl
  have hnat : beNat (beBytes 8 last.id) = beNat (beBytes 8 l.id) := by rw [Option.some.inj hl]
  rw [beNat_beBytes (last.le.trans_lt (by decide)), beNat_beBytes (l.le.trans_lt (by decide))] at hnat
  omega

/-- Two relations, one of them restored and one created after the database was opened again. -/
theorem reopened_relations_disjoint :
    let view := (plainDb.runStatements [.program (createProgram "s")]
      (reopenedDb.transact true)).2.storeTx.get
    Live codec view "r" ⟨1, by decide⟩ ∧ Live codec view "s" ⟨2, by decide⟩ ∧
      (⟨1, by decide⟩ : RelationId) ≠ ⟨2, by decide⟩ ∧
      ∀ next next', RelationId.next ⟨1, by decide⟩ = .ok next →
        RelationId.next ⟨2, by decide⟩ = .ok next' →
        ∀ k, ¬ ((Row.key [] ⟨1, by decide⟩ ≤ k ∧ k < Row.key [] next) ∧
          Row.key [] ⟨2, by decide⟩ ≤ k ∧ k < Row.key [] next') := by
  have hr : Live codec (plainDb.runStatements [.program (createProgram "s")]
      (reopenedDb.transact true)).2.storeTx.get "r" ⟨1, by decide⟩ :=
    live_of_stored (h := newHandle "r" ⟨1, by decide⟩) (by decide +kernel)
  have hs : Live codec (plainDb.runStatements [.program (createProgram "s")]
      (reopenedDb.transact true)).2.storeTx.get "s" ⟨2, by decide⟩ :=
    live_of_stored (h := newHandle "s" ⟨2, by decide⟩) (by decide +kernel)
  have hone : Reached codec (CreatesInOrder codec) Database.NotBehind oneRelationDb :=
    .session .new plainDb rfl true _ _
      ⟨fun _ => notBehind_of_get RelationId.system (by decide +kernel) le_rfl, trivial⟩
  have hempty : Database.empty.NotBehind := fun last hlast =>
    @notBehind_of_get (Database.empty.transact false) RelationId.system
      (by decide +kernel) le_rfl last hlast
  have hreached : Reached codec (CreatesInOrder codec) Database.NotBehind reopenedDb :=
    .reopened (.restored .new hone (backupDb_eq _) hempty restoreBackup_empty) openStore_restoredDb
  have hok : plainDb.Each (CreatesInOrder codec) [.program (createProgram "s")]
    (reopenedDb.transact true) :=
    ⟨fun _ => notBehind_of_get ⟨1, by decide⟩ (by decide +kernel) le_rfl, trivial⟩
  exact ⟨hr, hs, live_relations_disjoint hreached plainDb rfl true hok hr hs (by decide)⟩

/-- A relation created in a restored database that was not opened again has the identifier of a
restored one. -/
theorem restored_relations_collide : ∃ d, Reached codec (fun _ _ => True) (fun _ => True) d ∧
      Live codec (fun k : Bytes => d.store[k]?) "r" ⟨1, by decide⟩ ∧
      Live codec (fun k : Bytes => d.store[k]?) "s" ⟨1, by decide⟩ := by
  refine ⟨plainDb.runSession true [.program (createProgram "s")] .committed restoredDb, ?_,
    live_of_stored (h := newHandle "r" ⟨1, by decide⟩) (by decide +kernel),
    live_of_stored (h := newHandle "s" ⟨1, by decide⟩) (by decide +kernel)⟩
  have hone : Reached codec (fun _ _ => True) (fun _ => True) oneRelationDb :=
    .session .new plainDb rfl true _ _ ⟨trivial, trivial⟩
  exact .session (.restored .new hone (backupDb_eq _) trivial restoreBackup_empty)
    plainDb rfl true _ _ ⟨trivial, trivial⟩

/-! ### A backup that is restored -/

/-- **Backups.** A database that is written to a file and restored into a new one has the same
content, and is opened with the same last identifier. -/
theorem restore_of_backup (d : Database) (id : RelationId)
    (hlast : d.store[lastIdKey]? = some (beBytes 8 id.id))
    (hversion : d.store[Database.storageVersionKey]? = some Database.currentStorageVersion)
    (hkeys : ∀ k ∈ d.store, k < [0xFF]) : ∃ file d',
      d.backupDb = .ok file ∧ Database.empty.restoreBackup file = .ok d' ∧
      d'.store = d.store ∧ Database.openStore d'.store = .ok ⟨d.store, id.id, ⟨∅, ∅⟩⟩ := by
  -- a new database has no keys that every database has
  have hempty : ∀ k : Bytes, d.store[k]? = none → Database.empty.store[k]? = none := by
    intro k hk
    have h₁ : k ≠ lastIdKey := fun h => by simp [← h, hk] at hlast
    have h₂ : k ≠ Database.storageVersionKey := fun h => by simp [← h, hk] at hversion
    rw [Database.empty, getElem?_insert_of_ne h₁, getElem?_insert_of_ne h₂]
    exact Std.ExtTreeMap.getElem?_empty
  have hfile : Database.batchPut Database.empty.store (BTree.rangeEntries d.store [] [0xFF] false) =
    d.store := by
    refine Std.ExtTreeMap.ext_getElem? fun k => ?_
    obtain ⟨h₁, h₂⟩ := getElem?_batchPut Database.empty.store
      (@BTree.pairwise_rangeEntries _ d.store [] [0xFF]) k
    cases hk : d.store[k]? with
    | some v => exact h₁ v ((BTree.mem_rangeEntries _).2 ⟨hk, List.nil_le _,
      hkeys k (Std.ExtTreeMap.mem_iff_isSome_getElem?.2 (by simp [hk]))⟩)
    | none => rw [h₂ fun v hmem => by simp [((BTree.mem_rangeEntries _).1 hmem).1] at hk, hempty k hk]
  have hstore : Database.batchPut Database.empty.store d.store.toList = d.store := by
    refine Std.ExtTreeMap.ext_getElem? fun k => ?_
    rw [getElem?_batchPut_toList]
    cases hk : d.store[k]? with
    | some v => rfl
    | none => rw [Option.none_or, hempty k hk]
  have hinit := initStorage_eq id hlast hversion
  refine ⟨d.store, { Database.empty with store := d.store }, by rw [backupDb_eq, hfile],
    ?_, rfl, by rw [Database.openStore, hinit]; rfl⟩
  rw [Database.restoreBackup, hinit]
  exact congrArg _ (congrArg (fun store => { Database.empty with store }) hstore)

/-- A database with a relation, which is in the backup and found again. -/
theorem restore_of_backup_oneRelation : ∃ file d',
    oneRelationDb.backupDb = .ok file ∧ Database.empty.restoreBackup file = .ok d' ∧
      d'.store = oneRelationDb.store ∧ d'.store[metaKey "r"]?.isSome ∧
      Database.openStore d'.store = .ok ⟨oneRelationDb.store, 1, ⟨∅, ∅⟩⟩ := by
  have hentries : ∀ e ∈ oneRelationDb.store.toList, e.1 < [0xFF] := by decide +kernel
  have hkeys : ∀ k ∈ oneRelationDb.store, k < [0xFF] := by
    intro k hk
    obtain ⟨v, hv⟩ := Option.isSome_iff_exists.1 (Std.ExtTreeMap.mem_iff_isSome_getElem?.1 hk)
    exact hentries (k, v) (Std.ExtTreeMap.mem_toList_iff_getElem?_eq_some.2 hv)
  obtain ⟨file, d', hfile, hd', hstore, hopen⟩ :=
    restore_of_backup oneRelationDb ⟨1, RelationId.one_le⟩ (by decide +kernel) (by decide +kernel) hkeys
  exact ⟨file, d', hfile, hd', hstore, by rw [hstore]; decide +kernel, hopen⟩

end Session

end Retia
