import Mathlib
import Retia.Lib.Except
import Retia.Runtime.Script

/-!
# What a statement can touch

Every write of a session goes to a key of some relation, and the first eight bytes of the key say to
which. `Touches P s s'` says that between two states nothing has changed outside the relations with
`P`, in either store, that no identifier was handed out and that no rows were collected. It is a
preorder, so it is enough to look at the primitive writes:

* the row operations touch the relation they write to and its index relations (`touches_putRow`,
  `touches_updateRow`, `touches_removeRow`);
* a range of keys to be deleted belongs to one relation (`touches_delRange`).

A handle `h` is `h.Within P` when it and all its index relations have `P`.
-/

namespace Retia

open Effect List

namespace Session

open SessionM

/-! ### Computations that only read -/

def Reads {α : Type} (m : SessionM α) : Prop := ∀ s, final m s = s

namespace Reads

variable {α β : Type}

theorem pure (a : α) : Reads (pure a) := fun _ => rfl

theorem throw (e : SessionError) : Reads (throw e : SessionM α) := fun _ => rfl

theorem get : Reads (get : SessionM SessionTx) := fun _ => rfl

theorem bind {m : SessionM α} {f : α → SessionM β} (hm : Reads m) (hf : ∀ a, Reads (f a)) :
    Reads (m >>= f) := by
  intro s
  have hs := hm s
  rw [final_bind]
  unfold final at hs
  split
  case h_1 a s' hok =>
    rw [hok] at hs
    rw [hf a s']
    exact hs
  case h_2 e s' herr =>
    rw [herr] at hs
    exact hs

theorem attempt (x : Except SessionError α) : Reads (attempt x) := by
  cases x <;> exact fun _ => rfl

theorem bailIf (c : Bool) (e : SessionError) : Reads (bailIf c e) := by
  cases c <;> exact fun _ => rfl

theorem requireLevel (h : RelationHandle) (needed : AccessLevel) (operation : String) :
    Reads (h.requireLevel needed operation) := bailIf _ _

theorem forM {l : List α} {f : α → SessionM PUnit} (hf : ∀ a ∈ l, Reads (f a)) :
    Reads (ForM.forM l f) := by
  induction l with
  | nil => exact fun _ => rfl
  | cons a l ih =>
    rw [forM_cons]
    exact bind (hf a mem_cons_self) fun _ => ih fun b hb => hf b (mem_cons_of_mem a hb)

theorem getIn (isTemp : Bool) (k : Bytes) : Reads (getIn isTemp k) := by
  cases isTemp <;> exact fun _ => rfl

theorem existsIn (isTemp : Bool) (k : Bytes) : Reads (existsIn isTemp k) := by
  cases isTemp <;> exact fun _ => rfl

theorem storeGet (k : Bytes) : Reads (storeGet k) := fun _ => rfl

theorem getRelation (S : Serde) (name : String) : Reads (getRelation S name) := by
  refine (getIn _ _).bind fun found => ?_
  cases found with
  | none => exact throw _
  | some found =>
    dsimp only
    split
    · exact throw _
    · exact pure _

theorem findRelation (D : Db) (name : String) : Reads (D.findRelation name) := by
  intro s
  have hs := getRelation D.toSerde name s
  unfold final at hs ⊢
  rw [Db.findRelation]
  split at hs
  case h_1 h s' hok =>
    rw [hok]
    exact hs
  case h_2 e s' herr =>
    rw [herr]
    exact hs

theorem scanAll (S : Serde) (h : IndexRelation) : Reads (h.scanAll S) := by
  unfold IndexRelation.scanAll
  split
  · exact throw _
  · refine get.bind fun s => ?_
    dsimp only
    split
    · exact throw _
    · exact attempt _

theorem getValOnly (S : Serde) (h : IndexRelation) (key : Row) : Reads (h.getValOnly S key) := by
  refine (getIn _ _).bind fun found => ?_
  cases found with
  | none => exact pure _
  | some val =>
    dsimp only
    split
    · exact throw _
    · split
      · exact pure _
      · exact throw _

theorem checkStoreRelation (D : Db) (target : StoreRelation) :
    Reads (D.checkStoreRelation target) := by
  have hother : Reads (do
      let existing ← Session.getRelation D.toSerde target.handle.name
      SessionM.bailIf (!(← relationExists target.handle.name)) (.storeRelationNotFound target.handle.name)
      SessionM.attempt ((existing.ensureCompatible target.handle
        (target.op = .rm || target.op = .delete || target.op = .update)).mapError .column)) :=
    (getRelation _ _).bind fun _ => (existsIn _ _).bind fun _ => (bailIf _ _).bind fun _ => attempt _
  unfold Db.checkStoreRelation
  dsimp only
  split
  · exact pure _
  · exact (existsIn _ _).bind fun _ => bailIf _ _
  · exact hother

theorem getReturningRows (D : Db) (rel : String) (returning : Bool) :
    Reads (D.getReturningRows rel returning) := by
  cases returning with
  | false => exact pure _
  | true => exact (getRelation _ _).bind fun _ => get.bind fun _ => pure _

end Reads

variable {α : Type}

theorem Reads.wp {m : SessionM α} {Q : α → SessionTx → Prop}
    {E : SessionError → SessionTx → Prop} {s : SessionTx} (h : Reads m)
    (hQ : ∀ a, Q a s) (hE : ∀ e, E e s) : wp m Q E s := by
  have hs := h s
  unfold final at hs
  unfold Effect.wp
  split
  case h_1 a s' hok =>
    rw [hok] at hs
    subst hs
    exact hQ a
  case h_2 e s' herr =>
    rw [herr] at hs
    subst hs
    exact hE e

/-! ### The frame -/

/-- The key belongs to a relation without `P`. -/
def Outside (P : RelationId → Prop) (k : Bytes) : Prop := ∃ id, keyId k = some id ∧ ¬ P id

theorem ne_of_outside {P : RelationId → Prop} {k k' : Bytes} {id : RelationId}
    (h : Outside P k) (hk' : keyId k' = some id) (hP : P id) : k ≠ k' := by
  rintro rfl
  obtain ⟨id', hid', hnot⟩ := h
  rw [hid'] at hk'
  exact hnot (Option.some.inj hk' ▸ hP)

theorem Outside.mono {P Q : RelationId → Prop} (hPQ : ∀ id, P id → Q id)
    {k : Bytes} (h : Outside Q k) : Outside P k := by
  obtain ⟨id, hid, hnot⟩ := h
  exact ⟨id, hid, fun hP => hnot (hPQ id hP)⟩

/-- Nothing has changed outside the relations with `P`, no identifier was handed out and nothing was
collected. -/
structure Touches (P : RelationId → Prop) (s s' : SessionTx) : Prop where
  /-- What the persistent transaction reads. -/
  store : ∀ k, Outside P k → s'.storeTx.get k = s.storeTx.get k
  /-- What is left of the persistent transaction when it is dropped. -/
  persisted : ∀ k, Outside P k → s'.storeTx.persisted[k]? = s.storeTx.persisted[k]?
  temp : ∀ k, Outside P k → s'.tempStoreTx[k]? = s.tempStoreTx[k]?
  relationStoreId : s'.relationStoreId = s.relationStoreId
  tempStoreId : s'.tempStoreId = s.tempStoreId
  isWriter : s'.storeTx.isWriter = s.storeTx.isWriter
  callbackCollector : s'.callbackCollector = s.callbackCollector

namespace Touches

variable {P Q : RelationId → Prop} {s s' s'' : SessionTx}

theorem refl (P : RelationId → Prop) (s : SessionTx) : Touches P s s :=
  ⟨fun _ _ => rfl, fun _ _ => rfl, fun _ _ => rfl, rfl, rfl, rfl, rfl⟩

theorem trans (h : Touches P s s') (h' : Touches P s' s'') : Touches P s s'' where
  store k hk := (h'.store k hk).trans (h.store k hk)
  persisted k hk := (h'.persisted k hk).trans (h.persisted k hk)
  temp k hk := (h'.temp k hk).trans (h.temp k hk)
  relationStoreId := h'.relationStoreId.trans h.relationStoreId
  tempStoreId := h'.tempStoreId.trans h.tempStoreId
  isWriter := h'.isWriter.trans h.isWriter
  callbackCollector := h'.callbackCollector.trans h.callbackCollector

instance : IsPreorder SessionTx (Touches P) where
  refl := refl P
  trans _ _ _ := trans

theorem mono (h : Touches P s s') (hPQ : ∀ id, P id → Q id) : Touches Q s s' where
  store k hk := h.store k (hk.mono hPQ)
  persisted k hk := h.persisted k (hk.mono hPQ)
  temp k hk := h.temp k (hk.mono hPQ)
  relationStoreId := h.relationStoreId
  tempStoreId := h.tempStoreId
  isWriter := h.isWriter
  callbackCollector := h.callbackCollector

end Touches

theorem Reads.moves {R : SessionTx → SessionTx → Prop} [IsPreorder SessionTx R]
    {m : SessionM α} (h : Reads m) : Moves R m := Moves.of_final_eq h

/-! ### Primitive writes -/

variable {f : MemTx → Except StoreError MemTx}

section Writes

variable {P : RelationId → Prop} {id : RelationId} {k : Bytes}

theorem persisted_of_put {tx tx' : MemTx} {k v : Bytes} (h : tx.put k v = .ok tx') :
    tx'.persisted = tx.persisted := by
  cases tx <;> cases h
  rfl

theorem persisted_of_del {tx tx' : MemTx} {k : Bytes} (h : tx.del k = .ok tx') :
    tx'.persisted = tx.persisted := by
  cases tx <;> cases h
  rfl

variable {R : SessionTx → SessionTx → Prop}

theorem moves_storeOp [IsPreorder SessionTx R]
    (h : ∀ s tx, f s.storeTx = .ok tx → R s { s with storeTx := tx }) : Moves R (storeOp f) := by
  intro s
  unfold final storeOp
  cases hf : f s.storeTx with
  | error e => exact refl_of R s
  | ok tx => exact h s tx hf

theorem wp_storeOp {Q : Unit → SessionTx → Prop} {E : SessionError → SessionTx → Prop}
    {s : SessionTx} (hok : ∀ tx, f s.storeTx = .ok tx → Q () { s with storeTx := tx })
    (herr : ∀ e, f s.storeTx = .error e → E (.store e) s) : wp (storeOp f) Q E s := by
  unfold wp storeOp
  cases hf : f s.storeTx with
  | error e => exact herr e hf
  | ok tx => exact hok tx hf

theorem touches_storePut (hk : keyId k = some id) (hP : P id) (v : Bytes) :
    Moves (Touches P) (storePut k v) := by
  refine moves_storeOp fun s tx htx =>
    ⟨fun k' hk' => ?_, fun k' _ => ?_, fun _ _ => rfl, rfl, rfl, MemTx.isWriter_of_put htx, rfl⟩
  · rw [MemTx.get_of_put htx, if_neg (ne_of_outside hk' hk hP)]
  · dsimp only
    rw [persisted_of_put htx]

theorem touches_storeDel (hk : keyId k = some id) (hP : P id) : Moves (Touches P) (storeDel k) := by
  refine moves_storeOp fun s tx htx =>
    ⟨fun k' hk' => ?_, fun k' _ => ?_, fun _ _ => rfl, rfl, rfl, MemTx.isWriter_of_del htx, rfl⟩
  · rw [MemTx.get_of_del htx, if_neg (ne_of_outside hk' hk hP)]
  · dsimp only
    rw [persisted_of_del htx]

theorem getElem?_insert_of_ne {m : Store} {k k' v : Bytes} (h : k' ≠ k) :
    (m.insert k v)[k']? = m[k']? := by
  have hne : compare k k' ≠ .eq := fun hc => h (Std.LawfulEqCmp.eq_of_compare hc).symm
  simp [Std.ExtTreeMap.getElem?_insert, hne]

theorem getElem?_erase_of_ne {m : Store} {k k' : Bytes} (h : k' ≠ k) :
    (m.erase k)[k']? = m[k']? := by
  have hne : compare k k' ≠ .eq := fun hc => h (Std.LawfulEqCmp.eq_of_compare hc).symm
  simp [Std.ExtTreeMap.getElem?_erase, hne]

theorem touches_tempPut (hk : keyId k = some id) (hP : P id) (v : Bytes) :
    Moves (Touches P) (tempPut k v) :=
  Moves.modify fun _ => ⟨fun _ _ => rfl, fun _ _ => rfl, fun _ hk' =>
    getElem?_insert_of_ne (ne_of_outside hk' hk hP), rfl, rfl, rfl, rfl⟩

theorem touches_tempDel (hk : keyId k = some id) (hP : P id) : Moves (Touches P) (tempDel k) :=
  Moves.modify fun _ => ⟨fun _ _ => rfl, fun _ _ => rfl, fun _ hk' =>
    getElem?_erase_of_ne (ne_of_outside hk' hk hP), rfl, rfl, rfl, rfl⟩

theorem touches_putIn (isTemp : Bool) (hk : keyId k = some id) (hP : P id) (v : Bytes) :
    Moves (Touches P) (putIn isTemp k v) := by
  cases isTemp
  · exact touches_storePut hk hP v
  · exact touches_tempPut hk hP v

theorem touches_delIn (isTemp : Bool) (hk : keyId k = some id) (hP : P id) :
    Moves (Touches P) (delIn isTemp k) := by
  cases isTemp
  · exact touches_storeDel hk hP
  · exact touches_tempDel hk hP

theorem touches_delRange {next : RelationId} (hnext : next.id = id.id + 1) (hP : P id) :
    Moves (Touches P)
      (storeOp (MemTx.delRangeFromPersisted (Row.key [] id) (Row.key [] next))) := by
  refine moves_storeOp fun s tx htx => ?_
  obtain ⟨hwriter, hrest⟩ := MemTx.of_delRangeFromPersisted htx
  have hout : ∀ k, Outside P k → ¬ (Row.key [] id ≤ k ∧ k < Row.key [] next) := by
    rintro k ⟨id', hid', hnot⟩ hrange
    have hid := (keyId_eq_some_iff_range (length_of_keyId hid') hnext).2 hrange
    rw [hid'] at hid
    exact hnot (Option.some.inj hid ▸ hP)
  exact ⟨fun k hk => (hrest k (hout k hk)).1, fun k hk => (hrest k (hout k hk)).2, fun _ _ => rfl,
    rfl, rfl, hwriter, rfl⟩

theorem moves_attempt_bind {β : Type} [IsPreorder SessionTx R]
    {x : Except SessionError α} {f : α → SessionM β} (h : ∀ a, x = .ok a → Moves R (f a)) :
    Moves R (attempt x >>= f) := by
  cases x with
  | error e => exact Moves.throw e
  | ok a => exact h a rfl

theorem moves_runOr [IsPreorder SessionTx R] {c : Bool} {m : SessionM α} {a : α}
    (h : Moves R m) : Moves R (runOr c m a) := by
  cases c
  · exact Moves.pure _
  · exact h

theorem keyId_of_encodeKeyForStore {h : IndexRelation} {t : Row} {k : Bytes}
    (hk : h.encodeKeyForStore t = .ok k) : keyId k = some h.id := by
  unfold IndexRelation.encodeKeyForStore at hk
  split at hk
  · cases hk
    exact keyId_key _ _
  · cases hk

end Writes

/-! ### Index entries -/

section Entries

variable {P : RelationId → Prop} {idx inv rel : IndexRelation} (E : Engine)

theorem touches_putIndexEntry (h : P idx.id) (mapper : List Nat) (row : Row) :
    Moves (Touches P) (putIndexEntry idx mapper row) :=
  moves_attempt_bind fun _ _ => moves_attempt_bind fun _ hk =>
    touches_storePut (keyId_of_encodeKeyForStore hk) h []

theorem touches_delIndexEntry (h : P idx.id) (mapper : List Nat) (row : Row) :
    Moves (Touches P) (delIndexEntry idx mapper row) :=
  moves_attempt_bind fun _ _ => moves_attempt_bind fun _ hk =>
    touches_storeDel (keyId_of_encodeKeyForStore hk) h

theorem touches_putFtsIndexItem (h : P idx.id) (tuple : Row) (extractor : Extractor)
    (tokenizer : TextAnalyzer) :
    Moves (Touches P) (E.putFtsIndexItem tuple extractor tokenizer rel idx) := by
  refine moves_attempt_bind fun text _ => ?_
  cases text with
  | none => exact Moves.pure _
  | some text =>
    exact moves_attempt_bind fun _ _ => Moves.forM fun _ _ => moves_attempt_bind fun _ hk =>
      moves_attempt_bind fun _ _ => touches_storePut (keyId_of_encodeKeyForStore hk) h _

theorem touches_delFtsIndexItem (h : P idx.id) (tuple : Row) (extractor : Extractor)
    (tokenizer : TextAnalyzer) :
    Moves (Touches P) (E.delFtsIndexItem tuple extractor tokenizer rel idx) := by
  refine moves_attempt_bind fun text _ => ?_
  cases text with
  | none => exact Moves.pure _
  | some text =>
    exact moves_attempt_bind fun _ _ => Moves.forM fun _ _ => moves_attempt_bind fun _ hk =>
      touches_storeDel (keyId_of_encodeKeyForStore hk) h

theorem touches_delBands (h : P idx.id) (tuple : Row) (bands : List Bytes) :
    Moves (Touches P) (Engine.delBands tuple idx bands) :=
  Moves.forM fun _ _ => moves_attempt_bind fun _ hk =>
    touches_storeDel (keyId_of_encodeKeyForStore hk) h

theorem touches_delLshIndexItem (h : P idx.id) (hinv : P inv.id) (tuple : Row) :
    Moves (Touches P) (E.delLshIndexItem tuple idx inv) := by
  refine moves_attempt_bind fun _ _ => (Reads.getValOnly _ _ _).moves.bind fun found => ?_
  cases found with
  | none => exact Moves.pure _
  | some found =>
    exact moves_attempt_bind fun _ hk =>
      (touches_storeDel (keyId_of_encodeKeyForStore hk) hinv).bind fun _ =>
        moves_attempt_bind fun bands _ => touches_delBands h tuple bands

theorem touches_delFormerBands (h : P idx.id) (tuple keys : Row) :
    Moves (Touches P) (E.delFormerBands tuple keys idx inv) := by
  refine (Reads.getValOnly _ _ _).moves.bind fun found => ?_
  cases found with
  | none => exact Moves.pure _
  | some found => exact moves_attempt_bind fun bands _ => touches_delBands h tuple bands

theorem touches_putBands (h : P idx.id) (hinv : P inv.id) (keys : Row) (chunks : List Bytes) :
    Moves (Touches P) (E.putBands keys idx inv chunks) := by
  refine Moves.bind (Moves.forM fun _ _ => ?_) fun _ => ?_
  · exact moves_attempt_bind fun _ hk => touches_storePut (keyId_of_encodeKeyForStore hk) h []
  · exact moves_attempt_bind fun _ hk => moves_attempt_bind fun _ _ =>
      touches_storePut (keyId_of_encodeKeyForStore hk) hinv _

theorem touches_putLshIndexItem (h : P idx.id) (hinv : P inv.id) (tuple : Row)
    (extractor : Extractor) (tokenizer : TextAnalyzer) (manifest : MinHashLshIndexManifest) :
    Moves (Touches P) (E.putLshIndexItem tuple extractor tokenizer rel idx inv manifest) := by
  refine moves_attempt_bind fun keys _ => (touches_delFormerBands E h tuple keys).bind fun _ =>
    moves_attempt_bind fun hash _ => ?_
  cases hash with
  | none => exact Moves.pure _
  | some bytes => exact moves_attempt_bind fun chunks _ => touches_putBands E h hinv keys chunks

theorem touches_applyIndexChanges (h : P idx.id) (outcome : IndexChanges × Option SessionError) :
    Moves (Touches P) (E.applyIndexChanges idx outcome) := by
  refine Moves.bind (Moves.forM fun change _ => moves_attempt_bind fun _ hk => ?_) fun _ => ?_
  · have hid := keyId_of_encodeKeyForStore hk
    split
    · exact touches_storeDel hid h
    · exact moves_attempt_bind fun _ _ => touches_storePut hid h _
  · split
    · exact Moves.pure _
    · exact Moves.throw _

end Entries

/-! ### Rows -/

namespace RelationHandle

def indexRelations (h : RelationHandle) : List IndexRelation :=
  h.indices.map (·.2.1) ++ h.hnswIndices.map (·.2.1) ++ h.ftsIndices.map
    (·.2.1) ++ h.lshIndices.flatMap fun e => [e.2.1, e.2.2.1]

/-- All index relations of the relation have `P`. -/
def IndicesWithin (P : RelationId → Prop) (h : RelationHandle) : Prop :=
  ∀ idx ∈ h.indexRelations, P idx.id

/-- The relation and all its index relations have `P`. -/
structure Within (P : RelationId → Prop) (h : RelationHandle) : Prop where
  base : P h.id
  index : h.IndicesWithin P

def Owns (h : RelationHandle) (id : RelationId) : Prop :=
  h.id = id ∨ ∃ idx ∈ h.indexRelations, idx.id = id

theorem within_owns (h : RelationHandle) : h.Within h.Owns :=
  ⟨Or.inl rfl, fun idx hidx => Or.inr ⟨idx, hidx, rfl⟩⟩

section Within

variable {P : RelationId → Prop} {h : RelationHandle}

theorem Within.of_owns (w : h.Within P) {id : RelationId} (hid : h.Owns id) : P id := by
  rcases hid with rfl | ⟨idx, hidx, rfl⟩
  · exact w.base
  · exact w.index idx hidx

namespace IndicesWithin

theorem plain (w : h.IndicesWithin P) {e : String × IndexRelation × List Nat}
    (he : e ∈ h.indices) : P e.2.1.id :=
  w _ (by simp only [indexRelations, mem_append, mem_map]; grind)

theorem hnsw (w : h.IndicesWithin P) {e : String × IndexRelation × HnswIndexManifest}
    (he : e ∈ h.hnswIndices) : P e.2.1.id :=
  w _ (by simp only [indexRelations, mem_append, mem_map]; grind)

theorem fts (w : h.IndicesWithin P) {e : String × IndexRelation × FtsIndexManifest}
    (he : e ∈ h.ftsIndices) : P e.2.1.id :=
  w _ (by simp only [indexRelations, mem_append, mem_map]; grind)

theorem lsh (w : h.IndicesWithin P)
    {e : String × IndexRelation × IndexRelation × MinHashLshIndexManifest}
    (he : e ∈ h.lshIndices) : P e.2.1.id ∧ P e.2.2.1.id := by
  constructor <;> refine w _ ?_ <;> simp only [indexRelations, mem_append, mem_flatMap] <;>
    exact Or.inr ⟨e, he, by simp⟩

end IndicesWithin

end Within

end RelationHandle

namespace Engine

structure Processors.Of (p : Processors) (rel : RelationHandle) : Prop where
  fts : ∀ x ∈ p.fts, ∃ e ∈ rel.ftsIndices, e.2.1 = x.1
  lsh : ∀ x ∈ p.lsh, ∃ e ∈ rel.lshIndices, e.2.1 = x.1 ∧ e.2.2.1 = x.2.1
  hnsw : ∀ x ∈ p.hnsw, ∃ e ∈ rel.hnswIndices, e.2.1 = x.1

namespace Processors.Of

variable {P : RelationId → Prop} {p : Processors} {rel : RelationHandle}

theorem fts_within (hp : p.Of rel) (hw : rel.IndicesWithin P) : ∀ x ∈ p.fts, P x.1.id := by
  intro x hx
  obtain ⟨e, he, heq⟩ := hp.fts x hx
  exact heq ▸ hw.fts he

theorem lsh_within (hp : p.Of rel) (hw : rel.IndicesWithin P) :
    ∀ x ∈ p.lsh, P x.1.id ∧ P x.2.1.id := by
  intro x hx
  obtain ⟨e, he, heq, heq'⟩ := hp.lsh x hx
  exact ⟨heq ▸ (hw.lsh he).1, heq' ▸ (hw.lsh he).2⟩

theorem hnsw_within (hp : p.Of rel) (hw : rel.IndicesWithin P) : ∀ x ∈ p.hnsw, P x.1.id := by
  intro x hx
  obtain ⟨e, he, heq⟩ := hp.hnsw x hx
  exact heq ▸ hw.hnsw he

end Processors.Of

end Engine

variable {step : Row → SessionM (List Row × List Row)}

section Rows

variable {P : RelationId → Prop} {E : Engine}

open Engine

section Indices

variable {p : Processors} {rel : RelationHandle}

theorem touches_putInFts (hP : ∀ x ∈ p.fts, P x.1.id) (row : Row) :
    Moves (Touches P) (E.putInFts rel p row) :=
  Moves.forM fun x hx => touches_putFtsIndexItem E (hP x hx) _ _ _

theorem touches_delInFts (hP : ∀ x ∈ p.fts, P x.1.id) (row : Row) :
    Moves (Touches P) (E.delInFts rel p row) :=
  Moves.forM fun x hx => touches_delFtsIndexItem E (hP x hx) _ _ _

theorem touches_putInLsh (hP : ∀ x ∈ p.lsh, P x.1.id ∧ P x.2.1.id) (row : Row) :
    Moves (Touches P) (E.putInLsh rel p row) :=
  Moves.forM fun x hx => touches_putLshIndexItem E (hP x hx).1 (hP x hx).2 _ _ _ _

theorem touches_delInLsh (hP : ∀ x ∈ p.lsh, P x.1.id ∧ P x.2.1.id) (row : Row) :
    Moves (Touches P) (E.delInLsh p row) :=
  Moves.forM fun x hx => touches_delLshIndexItem E (hP x hx).1 (hP x hx).2 _

theorem touches_updateInHnsw (hP : ∀ x ∈ p.hnsw, P x.1.id) (row : Row) :
    Moves (Touches P) (E.updateInHnsw rel p row) :=
  Moves.forM fun x hx => Moves.get.bind fun _ => touches_applyIndexChanges E (hP x hx) _

theorem touches_removeInHnsw (hP : ∀ x ∈ p.hnsw, P x.1.id) (keys : Row) :
    Moves (Touches P) (E.removeInHnsw rel p keys) :=
  Moves.forM fun x hx => Moves.get.bind fun _ => touches_applyIndexChanges E (hP x hx) _

theorem touches_putInIndex (hP : ∀ e ∈ rel.indices, P e.2.1.id) (row : Row) :
    Moves (Touches P) (putInIndex rel row) :=
  Moves.forM fun e he => touches_putIndexEntry (hP e he) _ _

theorem touches_delInIndex (hP : ∀ e ∈ rel.indices, P e.2.1.id) (row : Row) :
    Moves (Touches P) (delInIndex rel row) :=
  Moves.forM fun e he => touches_delIndexEntry (hP e he) _ _

theorem touches_updateInIndex (hP : ∀ e ∈ rel.indices, P e.2.1.id) (new old : Row) :
    Moves (Touches P) (updateInIndex rel new old) :=
  Moves.forM fun e he => (touches_delIndexEntry (hP e he) _ _).bind fun _ =>
    touches_putIndexEntry (hP e he) _ _

end Indices

variable {m : Mutation}

theorem touches_replaceIndices (hw : m.rel.IndicesWithin P) (hp : m.processors.Of m.rel)
    (row tup : Row) : Moves (Touches P) (E.replaceIndices m row tup) :=
  moves_runOr ((touches_updateInIndex (fun _ he => hw.plain he) row tup).bind fun _ =>
    (touches_delInFts (hp.fts_within hw) tup).bind fun _ => touches_delInLsh (hp.lsh_within hw) tup)

theorem touches_putOldRow (hw : m.rel.IndicesWithin P) (hp : m.processors.Of m.rel)
    (key : Bytes) (row : Row) : Moves (Touches P) (E.putOldRow m key row) := by
  refine (Reads.storeGet key).moves.bind fun existing => ?_
  cases existing with
  | none => exact (touches_putInIndex (fun _ he => hw.plain he) row).bind fun _ => Moves.pure _
  | some existing =>
    exact moves_attempt_bind fun tup _ => (touches_replaceIndices hw hp row tup).bind fun _ =>
      Moves.pure _

theorem touches_putRowIndices (hw : m.rel.IndicesWithin P) (hp : m.processors.Of m.rel)
    (key : Bytes) (row : Row) : Moves (Touches P) (E.putRowIndices m key row) :=
  (touches_putOldRow hw hp key row).bind fun _ =>
    (touches_updateInHnsw (hp.hnsw_within hw) row).bind fun _ =>
    (touches_putInFts (hp.fts_within hw) row).bind fun _ =>
      (touches_putInLsh (hp.lsh_within hw) row).bind fun _ =>
      Moves.pure _

/-- **A row that is put** touches its relation and the index relations. -/
theorem touches_putRow (hw : m.rel.Within P) (hp : m.processors.Of m.rel)
    (extractors : List DataExtractor) (isInsert : Bool) (tuple : Row) :
    Moves (Touches P) (E.putRow m extractors isInsert tuple) := by
  refine moves_attempt_bind fun row _ => moves_attempt_bind fun key hk =>
    (Reads.existsIn _ _).moves.bind fun _ => (Reads.bailIf _ _).moves.bind fun _ =>
      moves_attempt_bind fun val _ => (moves_runOr ?_).bind fun _ =>
        (touches_putIn _ (keyId_of_encodeKeyForStore hk) hw.base val).bind fun _ => Moves.pure _
  exact touches_putRowIndices hw.index hp key row

theorem touches_updateRowIndices (hw : m.rel.IndicesWithin P) (hp : m.processors.Of m.rel)
    (new old : Row) : Moves (Touches P) (E.updateRowIndices m new old) :=
  (touches_delInFts (hp.fts_within hw) old).bind fun _ =>
    (touches_delInLsh (hp.lsh_within hw) old).bind fun _ =>
    (touches_updateInIndex (fun _ he => hw.plain he) new old).bind fun _ =>
      (touches_updateInHnsw (hp.hnsw_within hw) new).bind fun _ =>
      (touches_putInFts (hp.fts_within hw) new).bind fun _ => touches_putInLsh (hp.lsh_within hw) new

/-- **A row that is updated** touches its relation and the index relations. -/
theorem touches_updateRow (hw : m.rel.Within P) (hp : m.processors.Of m.rel)
    (keyExtractors : List DataExtractor) (valExtractors : List (Option DataExtractor))
    (tuple : Row) : Moves (Touches P) (E.updateRow m keyExtractors valExtractors tuple) := by
  refine moves_attempt_bind fun keys _ => moves_attempt_bind fun key hk =>
    (Reads.getIn _ _).moves.bind fun found => ?_
  cases found with
  | none => exact Moves.throw _
  | some v =>
    exact moves_attempt_bind fun original _ => moves_attempt_bind fun vals _ =>
      moves_attempt_bind fun val _ =>
        (moves_runOr (touches_updateRowIndices hw.index hp _ _)).bind fun _ =>
          (touches_putIn _ (keyId_of_encodeKeyForStore hk) hw.base val).bind fun _ => Moves.pure _

theorem touches_removeOldRow (hw : m.rel.IndicesWithin P) (hp : m.processors.Of m.rel)
    (key : Bytes) (row : Row) : Moves (Touches P) (E.removeOldRow m key row) := by
  refine (Reads.storeGet key).moves.bind fun existing => ?_
  cases existing with
  | none => exact Moves.pure _
  | some existing =>
    exact moves_attempt_bind fun tup _ => (touches_delInFts (hp.fts_within hw) tup).bind fun _ =>
      (touches_delInLsh (hp.lsh_within hw) tup).bind fun _ =>
        (touches_delInIndex (fun _ he => hw.plain he) tup).bind fun _ =>
        (touches_removeInHnsw (hp.hnsw_within hw) row).bind fun _ => Moves.pure _

/-- **A row that is removed** touches its relation and the index relations. -/
theorem touches_removeRow (hw : m.rel.Within P) (hp : m.processors.Of m.rel)
    (keyExtractors : List DataExtractor) (checkExists : Bool) (tuple : Row) :
    Moves (Touches P) (E.removeRow m keyExtractors checkExists tuple) := by
  refine moves_attempt_bind fun row _ => moves_attempt_bind fun key hk =>
    (Reads.existsIn _ _).moves.bind fun _ => (Reads.bailIf _ _).moves.bind fun _ =>
      (moves_runOr ?_).bind fun _ =>
        (touches_delIn _ (keyId_of_encodeKeyForStore hk) hw.base).bind fun _ => Moves.pure _
  exact (touches_removeOldRow hw.index hp key row).bind fun _ => Moves.pure _

theorem moves_eachRow {R : SessionTx → SessionTx → Prop} [IsPreorder SessionTx R]
    (h : ∀ t, Moves R (step t)) (rows : List Row) : Moves R (eachRow step rows) := by
  induction rows with
  | nil => exact Moves.pure _
  | cons t rest ih => exact (h t).bind fun _ => ih.bind fun _ => Moves.pure _

theorem reads_ensureRow (rel : RelationHandle) (curVld : Int64) (extractors : List DataExtractor)
    (tuple : Row) : Reads (E.ensureRow rel curVld extractors tuple) := by
  refine (Reads.attempt _).bind fun _ => (Reads.attempt _).bind fun _ =>
    (Reads.attempt _).bind fun _ => (Reads.getIn _ _).bind fun found => ?_
  cases found with
  | none => exact Reads.throw _
  | some v => exact Reads.bailIf _ _

theorem reads_ensureNotRow (rel : RelationHandle) (curVld : Int64)
    (keyExtractors : List DataExtractor) (tuple : Row) :
    Reads (E.ensureNotRow rel curVld keyExtractors tuple) :=
  (Reads.attempt _).bind fun _ => (Reads.attempt _).bind fun _ => (Reads.existsIn _ _).bind fun _ =>
    Reads.bailIf _ _

end Rows

/-! ### Mutations -/

section Processors

variable {P : RelationId → Prop} (E : Engine) (rel : RelationHandle)

open Engine

theorem touches_setTokenizers (tokenizers : TokenizerCache) :
    Moves (Touches P) (setTokenizers tokenizers) :=
  Moves.modify fun _ => ⟨fun _ _ => rfl, fun _ _ => rfl, fun _ _ => rfl, rfl, rfl, rfl, rfl⟩

theorem touches_getTokenizer (name : String) (tokenizer : TokenizerConfig)
    (filters : List TokenizerConfig) :
    Moves (Touches P) (E.getTokenizer name tokenizer filters) := by
  refine Moves.get.bind fun s => ?_
  dsimp only
  split
  · exact Moves.pure _
  · split
    · exact (touches_setTokenizers _).bind fun _ => Moves.pure _
    · exact moves_attempt_bind fun _ _ => (touches_setTokenizers _).bind fun _ => Moves.pure _

variable (l : List (String × IndexRelation × FtsIndexManifest))

theorem touches_makeFtsProcessors : Moves (Touches P) (E.makeFtsProcessors rel l) := by
  induction l with
  | nil => exact Moves.pure _
  | cons e rest ih =>
    exact (touches_getTokenizer E _ _ _).bind fun _ => moves_attempt_bind fun _ _ =>
      ih.bind fun _ => Moves.pure _

theorem touches_makeLshProcessors
    (l : List (String × IndexRelation × IndexRelation × MinHashLshIndexManifest)) :
    Moves (Touches P) (E.makeLshProcessors rel l) := by
  induction l with
  | nil => exact Moves.pure _
  | cons e rest ih =>
    exact (touches_getTokenizer E _ _ _).bind fun _ => moves_attempt_bind fun _ _ =>
      ih.bind fun _ => Moves.pure _

theorem touches_makeProcessors : Moves (Touches P) (E.makeProcessors rel) :=
  moves_attempt_bind fun _ _ => (touches_makeFtsProcessors E rel _).bind fun _ =>
    (touches_makeLshProcessors E rel _).bind fun _ => Moves.pure _

theorem touches_makeRemovalProcessors : Moves (Touches P) (E.makeRemovalProcessors rel) :=
  (touches_makeFtsProcessors E rel _).bind fun _ =>
    (touches_makeLshProcessors E rel _).bind fun _ => Moves.pure _

theorem yields_makeFtsProcessors :
    Yields (fun p => ∀ x ∈ p, ∃ e ∈ l, e.2.1 = x.1) (E.makeFtsProcessors rel l) := by
  induction l with
  | nil => exact Yields.pure (by simp)
  | cons e rest ih =>
    refine (Yields.trivial _).bind fun _ _ => (Yields.trivial _).bind fun _ _ =>
      ih.bind fun p hp => Yields.pure ?_
    intro x hx
    rcases mem_cons.1 hx with rfl | hx
    · exact ⟨e, mem_cons_self, rfl⟩
    · obtain ⟨e', he', heq⟩ := hp x hx
      exact ⟨e', mem_cons_of_mem _ he', heq⟩

theorem yields_makeLshProcessors
    (l : List (String × IndexRelation × IndexRelation × MinHashLshIndexManifest)) :
    Yields (fun p => ∀ x ∈ p, ∃ e ∈ l, e.2.1 = x.1 ∧
      e.2.2.1 = x.2.1) (E.makeLshProcessors rel l) := by
  induction l with
  | nil => exact Yields.pure (by simp)
  | cons e rest ih =>
    refine (Yields.trivial _).bind fun _ _ => (Yields.trivial _).bind fun _ _ =>
      ih.bind fun p hp => Yields.pure ?_
    intro x hx
    rcases mem_cons.1 hx with rfl | hx
    · exact ⟨e, mem_cons_self, rfl, rfl⟩
    · obtain ⟨e', he', heq⟩ := hp x hx
      exact ⟨e', mem_cons_of_mem _ he', heq⟩

theorem yields_makeProcessors : Yields (·.Of rel) (E.makeProcessors rel) := by
  refine Yields.bind (F := fun hnsw => ∀ x ∈ hnsw, ∃ e ∈ rel.hnswIndices, e.2.1 = x.1) ?_
    fun hnsw hhnsw => (yields_makeFtsProcessors E rel _).bind fun fts hfts =>
      (yields_makeLshProcessors E rel _).bind fun lsh hlsh => Yields.pure ⟨hfts, hlsh, hhnsw⟩
  intro s hnsw s' hok
  cases hx : E.makeHnswFilters rel with
  | error e =>
    rw [hx] at hok
    cases hok
  | ok l =>
    rw [hx] at hok
    cases hok
    intro x hmem
    obtain ⟨e, he, hex⟩ := (mem_of_mapM_eq_ok hx).1 hmem
    refine ⟨e, he, ?_⟩
    dsimp only at hex
    split at hex
    · cases hex
      rfl
    · obtain ⟨f, -, hf⟩ := bind_ok.1 hex
      cases hf
      rfl

theorem yields_makeRemovalProcessors : Yields (·.Of rel) (E.makeRemovalProcessors rel) := by
  refine (yields_makeFtsProcessors E rel _).bind fun fts hfts =>
    (yields_makeLshProcessors E rel _).bind fun lsh hlsh => Yields.pure ⟨hfts, hlsh, ?_⟩
  intro x hx
  obtain ⟨e, he, rfl⟩ := mem_map.1 hx
  exact ⟨e, he, rfl⟩

end Processors

namespace Db

variable {I : SessionTx → Prop} {F : Cleanups → Prop} (D : Db)

structure Collects (F : Cleanups → Prop) : Prop where
  nil : F []
  append : ∀ {a b}, F a → F b → F (a ++ b)

theorem keeps_runTriggers (hF : Collects F) {runTrigger : RunTrigger} (triggers : List String)
    (h : ∀ t ∈ triggers, ∀ a, Keeps I F (runTrigger t a)) (args : Option (List Row × List Row)) :
    Keeps I F (runTriggers runTrigger args triggers) := by
  induction triggers with
  | nil => exact Keeps.pure hF.nil
  | cons t rest ih =>
    refine (h t mem_cons_self args).bind fun a ha => ?_
    refine (ih fun u hu => h u (mem_cons_of_mem t hu)).bind fun b hb => ?_
    exact Keeps.pure (hF.append ha hb)

theorem reads_ensureInRelation (rel : RelationHandle) (input : InputRelationHandle)
    (headers : List Symbol) (rows : List Row) : Reads (D.ensureInRelation rel input headers rows) :=
  (Reads.requireLevel _ _ _).bind fun _ => (Reads.attempt _).bind fun _ =>
    (Reads.attempt _).bind fun _ => Reads.forM fun _ _ => reads_ensureRow _ _ _ _

theorem reads_ensureNotInRelation (rel : RelationHandle) (input : InputRelationHandle)
    (headers : List Symbol)
    (rows : List Row) : Reads (D.ensureNotInRelation rel input headers rows) :=
  (Reads.requireLevel _ _ _).bind fun _ => (Reads.attempt _).bind fun _ =>
    Reads.forM fun _ _ => reads_ensureNotRow _ _ _ _

section Relation

variable (hF : Collects F) {runTrigger : RunTrigger} (propagateTriggers : Bool)
  (forceCollect : String) {rel : RelationHandle}
  (hI : ∀ s s', Touches rel.Owns s s' → I s → I s')
  (hC : ∀ s event, I s → I { s with callbackCollector := s.callbackCollector ++ [event] })

include hF hC

theorem wp_mutate {m : Engine.Mutation} (op : CallbackOp) (triggers : List String)
    (hrun : ∀ t ∈ triggers, ∀ a, Keeps I F (runTrigger t a))
    {rows : List Row} {s : SessionTx}
    (hrows : wp (Engine.eachRow step rows) (fun _ => I) (fun _ => I) s) :
    wp (D.mutate runTrigger propagateTriggers forceCollect m op triggers step rows)
    (fun c s' => I s' ∧ F c) (fun _ => I) s := by
  rw [mutate, wp_bind]
  refine wp_mono hrows (fun collected s' hs' => ?_) fun _ _ => id
  refine (show Keeps I F _ from ?_) s' hs'
  dsimp only
  unfold runOr
  split
  case isFalse => exact Keeps.pure hF.nil
  refine Keeps.bind (F := F) ?_ fun cleanups hc => ?_
  · unfold runOr
    split
    · exact keeps_runTriggers hF _ hrun _
    · exact Keeps.pure hF.nil
  · refine Keeps.bind (F := fun _ => True) ?_ fun _ _ => Keeps.pure hc
    unfold runIf runOr
    split
    · exact fun s hs => ⟨hC s _ hs, trivial⟩
    · exact Keeps.pure trivial

include hI

theorem keeps_mutate {m : Engine.Mutation} (op : CallbackOp) (triggers : List String)
    (hrun : ∀ t ∈ triggers, ∀ a, Keeps I F (runTrigger t a))
    (hstep : ∀ t, Moves (Touches rel.Owns) (step t)) (rows : List Row) :
    Keeps I F (D.mutate runTrigger propagateTriggers forceCollect m op triggers step rows) := by
  intro s hs
  refine wp_mutate D hF _ _ hC op triggers hrun ?_
  exact wp_mono (Keeps.of_moves (moves_eachRow hstep rows) hI s hs) (fun _ _ h => h.1) fun _ _ => id

/-- **A mutation** keeps what its relation does not touch, if its triggers do. -/
theorem keeps_mutateRelation (hrun : ∀ t ∈ rel.putTriggers ++ rel.rmTriggers,
      ∀ a, Keeps I F (runTrigger t a))
    (op : RelationOp) (input : InputRelationHandle) (headers : List Symbol) (rows : List Row) :
    Keeps I F (D.mutateRelation runTrigger propagateTriggers forceCollect rel
      op input headers rows) := by
  have hputs : ∀ t ∈ rel.putTriggers, ∀ a, Keeps I F (runTrigger t a) :=
    fun t ht => hrun t (mem_append_left _ ht)
  have hrms : ∀ t ∈ rel.rmTriggers, ∀ a, Keeps I F (runTrigger t a) :=
    fun t ht => hrun t (mem_append_right _ ht)
  have hreads : ∀ {α : Type} {m : SessionM α}, Reads m → Keeps I (fun _ => True) m :=
    fun h => Keeps.of_moves (R := Touches rel.Owns) h.moves hI
  have hput : ∀ isInsert, Keeps I F (D.putIntoRelation runTrigger propagateTriggers forceCollect rel
      input headers isInsert rows) := by
    intro isInsert
    refine (hreads (Reads.requireLevel _ _ _)).bind fun _ _ => (hreads (Reads.attempt _)).bind fun _ _ =>
      (hreads (Reads.attempt _)).bind fun _ _ =>
        ((Keeps.of_moves (touches_makeProcessors _ _) hI).and_yields
        (yields_makeProcessors _ _)).bind fun p hp => ?_
    exact keeps_mutate D hF _ _ hI hC _ _ hputs (fun t => touches_putRow rel.within_owns hp.2 _ _ t) rows
  have hrm : ∀ checkExists, Keeps I F (D.removeFromRelation runTrigger propagateTriggers forceCollect
      rel input headers checkExists rows) := by
    intro checkExists
    refine (hreads (Reads.requireLevel _ _ _)).bind fun _ _ => (hreads (Reads.attempt _)).bind fun _ _ =>
      ((Keeps.of_moves (touches_makeRemovalProcessors _ _) hI).and_yields
        (yields_makeRemovalProcessors _ _)).bind fun p hp => ?_
    exact keeps_mutate D hF _ _ hI hC _ _ hrms (fun t => touches_removeRow rel.within_owns hp.2 _ _ t) rows
  have hupdate : Keeps I F (D.updateInRelation runTrigger propagateTriggers forceCollect rel input
      headers rows) := by
    refine (hreads (Reads.requireLevel _ _ _)).bind fun _ _ => (hreads (Reads.attempt _)).bind fun _ _ =>
      (hreads (Reads.attempt _)).bind fun _ _ =>
        ((Keeps.of_moves (touches_makeProcessors _ _) hI).and_yields
        (yields_makeProcessors _ _)).bind fun p hp => ?_
    exact keeps_mutate D hF _ _ hI hC _ _ hputs
      (fun t => touches_updateRow rel.within_owns hp.2 _ _ t) rows
  cases op with
  | rm => exact hrm false
  | delete => exact hrm true
  | ensure => exact (hreads (D.reads_ensureInRelation _ _ _ _)).bind fun _ _ => Keeps.pure hF.nil
  | ensureNot => exact (hreads (D.reads_ensureNotInRelation _ _ _ _)).bind fun _ _ => Keeps.pure hF.nil
  | update => exact hupdate
  | insert => exact hput true
  | create | replace | put => exact hput false

end Relation

end Db

end Session

end Retia
