import Mathlib
import Retia.Runtime.CatalogueRun

/-!
# Rows and index entries

What the rows of a relation and the entries of its indices are after a mutation has written a row. A
mutation that succeeds is taken apart into its steps (`putRow_eq_ok`, `updateRow_eq_ok`,
`removeRow_eq_ok`); a step on one of the relations that belong to the handle leaves the others as
they are (`SameOn`).

* `scanPrefix_exact` — a prefix scan reads the rows that begin with the prefix, cut to the key
  columns.
-/

namespace Retia

open Effect

namespace Session

open SessionM

/-! ### Steps that succeed -/

variable {k : Bytes}

section Successes

variable {α : Type} {s s' : SessionTx}

theorem attempt_eq_ok {x : Except SessionError α} {a : α} :
    attempt x s = .ok a s' ↔ x = .ok a ∧ s = s' := by
  cases x with
  | ok b =>
    rw [attempt, pure_eq_ok]
    simp
  | error e => exact ⟨nofun, fun h => nomatch h.1⟩

variable {u : Unit}

theorem bailIf_eq_ok {c : Bool} {e : SessionError} : bailIf c e s = .ok u s' ↔
    c = false ∧ s = s' := by
  cases c with
  | true => exact ⟨nofun, fun h => nomatch h.1⟩
  | false =>
    rw [show bailIf false e = pure () from rfl, pure_eq_ok]
    simp

theorem runOr_eq_ok {c : Bool} {m : SessionM α} {a b : α} (h : runOr c m a s = .ok b s') :
    c = true ∧ m s = .ok b s' ∨ c = false ∧ a = b ∧ s = s' := by
  cases c with
  | true => exact .inl ⟨rfl, h⟩
  | false => exact .inr ⟨rfl, pure_eq_ok.1 h⟩

theorem storeGet_eq_ok {v : Option Bytes} : storeGet k s = .ok v s' ↔
    s.storeTx.get k = v ∧ s = s' := pure_eq_ok

theorem storeOp_eq_ok {f : MemTx → Except StoreError MemTx} (h : storeOp f s = .ok u s') :
    ∃ tx, f s.storeTx = .ok tx ∧ s' = { s with storeTx := tx } := by
  unfold storeOp at h
  split at h
  case h_1 tx htx =>
    cases h
    exact ⟨tx, htx, rfl⟩
  case h_2 => cases h

theorem get_of_storePut {v : Bytes} (h : storePut k v s = .ok u s') (k' : Bytes) :
    s'.storeTx.get k' = if k' = k then some v else s.storeTx.get k' := by
  obtain ⟨tx, htx, rfl⟩ := storeOp_eq_ok h
  exact MemTx.get_of_put htx k'

theorem get_of_storeDel (h : storeDel k s = .ok u s') (k' : Bytes) :
    s'.storeTx.get k' = if k' = k then none else s.storeTx.get k' := by
  obtain ⟨tx, htx, rfl⟩ := storeOp_eq_ok h
  exact MemTx.get_of_del htx k'

end Successes

/-! ### One relation at a time -/

def SameOn (i : RelationId) (s s' : SessionTx) : Prop :=
  ∀ k, keyId k = some i → s'.storeTx.get k = s.storeTx.get k

section SameOn

variable {i : RelationId} {s s' s'' : SessionTx}

theorem SameOn.refl (i : RelationId) (s : SessionTx) : SameOn i s s := fun _ _ => rfl

theorem Touches.sameOn {P : RelationId → Prop} (h : Touches P s s') (hi : ¬ P i) : SameOn i s s' :=
  fun k hk => h.store k ⟨i, hk, hi⟩

theorem sameOn_of_moves {α : Type} {P : RelationId → Prop} {m : SessionM α}
    {a : α} (hm : Moves (Touches P) m) (h : m s = .ok a s') (hi : ¬ P i) : SameOn i s s' :=
  (hm.of_ok h).sameOn hi

end SameOn

/-! ### Rows -/

section Rows

variable (S : Serde) (view : View) (h : IndexRelation)

def rowKey (t : Row) : Bytes := Row.key (t.take h.metadata.keys.length) h.id

def rowVal (t : Row) : Bytes := beBytes 8 h.id.id ++ S.encodeVals (t.drop h.metadata.keys.length)

def rowsOf : Set Row := { t | t.length = h.arity ∧ view (rowKey h t) = some (rowVal S h t) }

variable {S view h} {view' : View}

theorem rowKey_inj {t u : Row} (heq : rowKey h t = rowKey h u) :
    t.take h.metadata.keys.length = u.take h.metadata.keys.length := (Row.key_inj heq).1

theorem encodeKeyForStore_eq_ok {t : Row} : h.encodeKeyForStore t = .ok k ↔
    h.metadata.keys.length ≤ t.length ∧ rowKey h t = k := by
  unfold IndexRelation.encodeKeyForStore
  split
  case isTrue hle =>
    rw [Except.ok.injEq]
    exact ⟨fun heq => ⟨hle, heq⟩, fun heq => heq.2⟩
  case isFalse hle => exact ⟨nofun, fun heq => absurd heq.1 hle⟩

theorem encodeValForStore_eq_ok {t : Row} {v : Bytes} (heq : h.encodeValForStore S t = .ok v) :
    rowVal S h t = v := by
  unfold IndexRelation.encodeValForStore IndexRelation.encodeValOnlyForStore at heq
  split at heq
  · split at heq
    · cases heq
    · cases heq
      rfl
  · cases heq

theorem extendTupleFromV_rowVal (t : Row) :
    extendTupleFromV S (t.take h.metadata.keys.length) (rowVal S h t) = .ok t := by
  have hlen : 8 ≤ (rowVal S h t).length := by simp [rowVal]
  have hdrop : (rowVal S h t).drop encodedKeyMinLen = S.encodeVals (t.drop h.metadata.keys.length) :=
    List.drop_left' (by simp [encodedKeyMinLen])
  have hvalues : valuesOf S (rowVal S h t) = .ok (t.drop h.metadata.keys.length) := by
    unfold valuesOf
    rw [if_neg, if_neg, hdrop, S.decode_encodeVals]
    · unfold encodedKeyMinLen
      omega
    · intro hempty
      rw [List.isEmpty_iff.1 hempty] at hlen
      simp at hlen
  rw [extendTupleFromV, hvalues]
  exact congrArg Except.ok (List.take_append_drop _ t)

end Rows

/-! ### The steps of a mutation -/

variable {keyExtractors : List DataExtractor}

section Steps

variable {E : Engine} {m : Engine.Mutation} {s s' : SessionTx}

theorem existsIn_false_eq_ok {b : Bool} : existsIn false k s = .ok b s' ↔
    (s.storeTx.get k).isSome = b ∧ s = s' := by
  rw [← MemTx.keyExists_eq]
  exact pure_eq_ok

theorem getIn_false_eq_ok {v : Option Bytes} : getIn false k s = .ok v s' ↔
    s.storeTx.get k = v ∧ s = s' := pure_eq_ok

variable {c : List Row × List Row} {tuple : Row} {key : Bytes}

theorem putRow_eq_ok (htemp : m.rel.isTemp = false) {extractors : List DataExtractor}
    {isInsert : Bool} (h : E.putRow m extractors isInsert tuple s = .ok c s') :
    ∃ new s₁, E.extractAll m.curVld extractors tuple = .ok new ∧
    m.rel.metadata.keys.length ≤ new.length ∧
      (isInsert = true → s.storeTx.get (rowKey m.rel.toIndexRelation new) = none) ∧
      (m.readsOld = true ∧ E.putRowIndices m (rowKey m.rel.toIndexRelation new) new s = .ok c s₁ ∨
      m.readsOld = false ∧ s = s₁) ∧
      ∀ k, s'.storeTx.get k = if k = rowKey m.rel.toIndexRelation new then some
      (rowVal E.toSerde m.rel.toIndexRelation new) else s₁.storeTx.get k := by
  unfold Engine.putRow at h
  rw [htemp] at h
  simp only [bind_eq_ok, attempt_eq_ok, bailIf_eq_ok, existsIn_false_eq_ok, encodeKeyForStore_eq_ok] at h
  obtain ⟨new, _, ⟨hnew, rfl⟩, _, _, ⟨⟨hlen, rfl⟩, rfl⟩, _, _, ⟨rfl, rfl⟩, _,
    _, ⟨hinsert, rfl⟩, val, _, ⟨hval, rfl⟩, collected, s₁, hindices, _, s₂, hput, hc⟩ := h
  obtain ⟨rfl, rfl⟩ := pure_eq_ok.1 hc
  obtain rfl := encodeValForStore_eq_ok hval
  refine ⟨new, s₁, hnew, hlen, fun hi => ?_, ?_, get_of_storePut hput⟩
  · rw [hi, Bool.true_and, Option.isSome_eq_false_iff, Option.isNone_iff_eq_none] at hinsert
    exact hinsert
  · exact (runOr_eq_ok hindices).imp_right fun h => ⟨h.1, h.2.2⟩

theorem putRowIndices_eq_ok {new : Row} (h : E.putRowIndices m key new s = .ok c s') :
    ∃ old s₁ s₂ s₃, E.putOldRow m key new s = .ok old s₁ ∧
      E.updateInHnsw m.rel m.processors new s₁ = .ok () s₂ ∧
      E.putInFts m.rel m.processors new s₂ = .ok () s₃ ∧
      E.putInLsh m.rel m.processors new s₃ = .ok () s' ∧
      c = if m.needToCollect then ([new], old) else ([], []) := by
  simp only [Engine.putRowIndices, bind_eq_ok] at h
  obtain ⟨old, s₁, hold, _, s₂, hhnsw, _, s₃, hfts, _, s₄, hlsh, hc⟩ := h
  obtain ⟨rfl, rfl⟩ := pure_eq_ok.1 hc
  exact ⟨old, s₁, s₂, s₃, hold, hhnsw, hfts, hlsh, rfl⟩

theorem putOldRow_eq_ok {new : Row} {old : List Row} (h : E.putOldRow m key new s = .ok old s') :
    (∃ v tup, s.storeTx.get key = some v ∧
      extendTupleFromV E.toSerde (new.take m.rel.metadata.keys.length) v = .ok tup ∧
      E.replaceIndices m new tup s = .ok () s' ∧ old = [tup]) ∨
    (s.storeTx.get key = none ∧ putInIndex m.rel new s = .ok () s' ∧ old = []) := by
  simp only [Engine.putOldRow, bind_eq_ok, storeGet_eq_ok] at h
  obtain ⟨found, _, ⟨hfound, rfl⟩, hrest⟩ := h
  cases found with
  | none =>
    simp only [bind_eq_ok] at hrest
    obtain ⟨_, s₁, hput, hc⟩ := hrest
    obtain ⟨rfl, rfl⟩ := pure_eq_ok.1 hc
    exact .inr ⟨hfound, hput, rfl⟩
  | some v =>
    simp only [bind_eq_ok, attempt_eq_ok] at hrest
    obtain ⟨tup, _, ⟨htup, rfl⟩, _, s₁, hreplace, hc⟩ := hrest
    obtain ⟨rfl, rfl⟩ := pure_eq_ok.1 hc
    exact .inl ⟨v, tup, hfound, htup, hreplace, rfl⟩

theorem updateRow_eq_ok (htemp : m.rel.isTemp = false) {valExtractors : List (Option DataExtractor)}
    {c : List Row × List Row} (h : E.updateRow m keyExtractors valExtractors tuple s = .ok c s') :
    ∃ keys v vals newVals s₁, E.extractAll m.curVld keyExtractors tuple = .ok keys ∧
    m.rel.metadata.keys.length ≤ keys.length ∧
      s.storeTx.get (rowKey m.rel.toIndexRelation keys) = some v ∧
      Engine.updateRow.storedVals E v = .ok vals ∧
      E.updatedVals m.curVld tuple valExtractors vals = .ok newVals ∧
      (m.readsOld = true ∧ E.updateRowIndices m (keys ++ newVals) (keys ++ vals) s = .ok () s₁ ∨
      m.readsOld = false ∧ s = s₁) ∧
      (∀ k, s'.storeTx.get k = if k = rowKey m.rel.toIndexRelation keys then some
      (rowVal E.toSerde m.rel.toIndexRelation (keys ++ newVals)) else s₁.storeTx.get k) ∧
      c = if m.needToCollect then ([keys ++ newVals], [keys ++ vals]) else ([], []) := by
  unfold Engine.updateRow at h
  rw [htemp] at h
  simp only [bind_eq_ok, attempt_eq_ok, getIn_false_eq_ok, encodeKeyForStore_eq_ok] at h
  obtain ⟨keys, _, ⟨hkeys, rfl⟩, _, _, ⟨⟨hlen, rfl⟩, rfl⟩, found, _, ⟨hfound, rfl⟩, hrest⟩ := h
  cases found with
  | none => cases hrest
  | some v =>
    simp only [bind_eq_ok, attempt_eq_ok] at hrest
    obtain ⟨vals, _, ⟨hvals, rfl⟩, newVals, _, ⟨hnew, rfl⟩, val, _, ⟨hval, rfl⟩,
      _, s₁, hindices, _, s₂, hput, hc⟩ :=
      hrest
    obtain ⟨rfl, rfl⟩ := pure_eq_ok.1 hc
    obtain rfl := encodeValForStore_eq_ok hval
    refine ⟨keys, v, vals, newVals, s₁, hkeys, hlen, hfound, hvals, hnew, ?_, get_of_storePut hput, rfl⟩
    exact (runOr_eq_ok hindices).imp_right fun h => ⟨h.1, h.2.2⟩

theorem removeRow_eq_ok (htemp : m.rel.isTemp = false) {checkExists : Bool}
    {c : List Row × List Row} (h : E.removeRow m keyExtractors checkExists tuple s = .ok c s') :
    ∃ keys s₁, E.extractAll m.curVld keyExtractors tuple = .ok keys ∧
    m.rel.metadata.keys.length ≤ keys.length ∧
      (m.readsOld = true ∧ (∃ old,
      E.removeOldRow m (rowKey m.rel.toIndexRelation keys) keys s = .ok old s₁ ∧
          c = if m.needToCollect then ([keys], old) else ([], [])) ∨ m.readsOld = false ∧ s = s₁) ∧
      ∀ k, s'.storeTx.get k = if k = rowKey m.rel.toIndexRelation keys then none
      else s₁.storeTx.get k := by
  unfold Engine.removeRow at h
  rw [htemp] at h
  simp only [bind_eq_ok, attempt_eq_ok, bailIf_eq_ok, existsIn_false_eq_ok, encodeKeyForStore_eq_ok] at h
  obtain ⟨keys, _, ⟨hkeys, rfl⟩, _, _, ⟨⟨hlen, rfl⟩, rfl⟩, _, _, ⟨rfl, rfl⟩, _,
    _, ⟨-, rfl⟩, collected, s₁, hindices, _, s₂, hdel, hc⟩ := h
  obtain ⟨rfl, rfl⟩ := pure_eq_ok.1 hc
  refine ⟨keys, s₁, hkeys, hlen, ?_, get_of_storeDel hdel⟩
  rcases runOr_eq_ok hindices with ⟨hreads, hrun⟩ | ⟨hreads, -, rfl⟩
  · simp only [Engine.removeRowIndices, bind_eq_ok] at hrun
    obtain ⟨old, s₃, hold, hc⟩ := hrun
    obtain ⟨rfl, rfl⟩ := pure_eq_ok.1 hc
    exact .inl ⟨hreads, old, hold, rfl⟩
  · exact .inr ⟨hreads, rfl⟩

theorem removeOldRow_eq_ok {keys : Row} {old : List Row}
    (h : E.removeOldRow m key keys s = .ok old s') :
    (∃ v tup, s.storeTx.get key = some v ∧ extendTupleFromV E.toSerde keys v = .ok tup ∧
      ∃ s₁ s₂ s₃, E.delInFts m.rel m.processors tup s = .ok () s₁ ∧
      E.delInLsh m.processors tup s₁ = .ok () s₂ ∧
        delInIndex m.rel tup s₂ = .ok () s₃ ∧
        E.removeInHnsw m.rel m.processors keys s₃ = .ok () s' ∧ old = [tup]) ∨
    (s.storeTx.get key = none ∧ s = s' ∧ old = []) := by
  simp only [Engine.removeOldRow, bind_eq_ok, storeGet_eq_ok] at h
  obtain ⟨found, _, ⟨hfound, rfl⟩, hrest⟩ := h
  cases found with
  | none =>
    obtain ⟨rfl, rfl⟩ := pure_eq_ok.1 hrest
    exact .inr ⟨hfound, rfl, rfl⟩
  | some v =>
    simp only [bind_eq_ok, attempt_eq_ok] at hrest
    obtain ⟨tup, _, ⟨htup, rfl⟩, _, s₁, h₁, _, s₂, h₂, _, s₃, h₃, _, s₄, h₄, hc⟩ := hrest
    obtain ⟨rfl, rfl⟩ := pure_eq_ok.1 hc
    exact .inl ⟨v, tup, hfound, htup, s₁, s₂, s₃, h₁, h₂, h₃, h₄, rfl⟩

end Steps

/-! ### Prefix scans -/

namespace IndexRelation

open List

theorem mem_prefixRange_iff (h : IndexRelation) (pre t : Row) (rel : RelationId)
    (ht : Datum.bot ∉ t) :
    ((h.prefixRange pre).1 ≤ t.key rel ∧ t.key rel < (h.prefixRange pre).2) ↔
    rel = h.id ∧ pre.take h.metadata.keys.length <+: t := by
  have hbot : DataValue.bot ∉ t.values := by
    rintro hmem
    obtain ⟨d, hd, hval⟩ := mem_map.1 hmem
    exact ht ((Subtype.ext hval : d = Datum.bot) ▸ hd)
  have hkey : (h.prefixRange pre).2 =
    encodeAsKey (Row.values (pre.take h.metadata.keys.length) ++ [.bot]) h.id := by
    simp [prefixRange, Row.key, Row.values, Datum.bot]
  rw [hkey]
  refine (key_in_range_iff (Row.wfList_values _) (Row.wfList_values _) hbot h.id rel).trans
    (and_congr_right' ?_)
  refine ⟨fun hp => ?_, fun hp => hp.map _⟩
  obtain ⟨l, hl, heq⟩ := prefix_map_iff.1 hp
  exact (map_injective_iff.2 Subtype.val_injective heq) ▸ hl

/-- **A prefix scan reads the rows that begin with the prefix**, cut to the key columns, and nothing
of another relation. -/
theorem scanPrefix_exact (S : Serde) (h : IndexRelation) (pre : Row) (s : SessionTx) :
    (∀ (t : Row) (rel : RelationId), Datum.bot ∉ t →
      (((h.prefixRange pre).1 ≤ t.key rel ∧ t.key rel < (h.prefixRange pre).2) ↔
      rel = h.id ∧ pre.take h.metadata.keys.length <+: t)) ∧
    ∃ entries : List (Bytes × Bytes),
    h.scanPrefix S pre s = attempt (entries.mapM fun e => decodeTupleFromKv S e.1 e.2) s ∧
      ∀ (t : Row) (rel : RelationId) (val : Bytes), Datum.bot ∉ t → ((t.key rel, val) ∈ entries ↔
        (if h.isTemp then s.tempStoreTx[t.key rel]? else s.storeTx.get (t.key rel)) = some val ∧
          rel = h.id ∧ pre.take h.metadata.keys.length <+: t) := by
  refine ⟨h.mem_prefixRange_iff pre, ?_⟩
  have hle : (h.prefixRange pre).1 ≤ (h.prefixRange pre).2 := by
    simp only [prefixRange, Row.key, Row.values, map_append, map_cons, map_nil,
      Datum.bot, encodeAsKey_append_bot]
    exact le_append_left
  obtain ⟨entries, hscan, hmem⟩ : ∃ entries,
    (if h.isTemp then BTree.range s.tempStoreTx (h.prefixRange pre).1 (h.prefixRange pre).2 false
      else s.storeTx.rangeScan (h.prefixRange pre).1 (h.prefixRange pre).2) = .ok entries ∧
      ∀ k val, (k, val) ∈ entries ↔ (if h.isTemp then s.tempStoreTx[k]? else s.storeTx.get k) = some val ∧
        (h.prefixRange pre).1 ≤ k ∧ k < (h.prefixRange pre).2 := by
    cases h.isTemp with
    | true =>
      exact ⟨_, by rw [if_pos rfl, BTree.range_eq, if_neg (by simp [hle.not_gt])], fun k val =>
        BTree.mem_rangeEntries _⟩
    | false =>
      obtain ⟨entries, hscan⟩ := MemTx.rangeScan_of_le hle s.storeTx
      exact ⟨entries, hscan, fun k val => MemTx.mem_rangeScan hscan⟩
  refine ⟨entries, ?_, fun t rel val ht => by rw [hmem, h.mem_prefixRange_iff pre t rel ht]⟩
  have hget : (MonadState.get : SessionM SessionTx) s = .ok s s := rfl
  unfold scanPrefix
  show EStateM.bind _ _ s = _
  simp only [EStateM.bind, hget, hscan]

/-- A prefix longer than the key: the row is in its range and does not begin with it. -/
theorem scanPrefix_of_long : ∃ (h : IndexRelation) (pre t : Row), Datum.bot ∉ t ∧
    ((h.prefixRange pre).1 ≤ t.key h.id ∧ t.key h.id < (h.prefixRange pre).2) ∧ ¬ pre <+: t := by
  let h : IndexRelation := ⟨"r", ⟨1, by decide⟩, ⟨[⟨"k", .mk .any true, none⟩], []⟩, false⟩
  have hbot : Datum.bot ∉ ([Datum.null] : Row) := by simp [Datum.bot, Datum.null, Subtype.ext_iff]
  exact ⟨h, [Datum.null, Datum.null], [Datum.null], hbot,
    (h.mem_prefixRange_iff _ _ _ hbot).2 ⟨rfl, prefix_rfl⟩, by simp⟩

end IndexRelation

end Session

end Retia
