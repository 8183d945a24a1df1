import Mathlib
import Retia.Runtime.Temporary
import Retia.Runtime.Tables

/-!
# Indices of renamed relations

The relation of an index is stored under a name made from the name of the base relation when the
index is created, `relation:index`. `remove_index` makes that name again, from the name the base
relation has then, and `rename_relation` moves the metadata of the base relation only. So an index
can be removed as long as its relation is still stored under the name that is made:

* `removesExactly_of_storedAs`, `stored_of_removesExactly` — in any state, an index is removed
  together with the key ranges of exactly its relations if and only if these are stored under the
  made names;
* `renameAll_eq_ok` — a chain of renames leaves the indices in the metadata, and all other metadata
  as it is;
* after a chain of renames the first condition holds if and only if the chain ends at the name it
  began with, since relations with one identifier have one name.
-/

namespace Retia

open Effect List

namespace Session

open SessionM

/-! ### The relations of an index -/

/-- The relations of an index of the relation, and what is behind `relation:index` in their names.
-/
inductive RelationHandle.IndexAt (rel : RelationHandle) (idxName : String) :
    List (String × IndexRelation) → Prop
  | plain {idx : IndexRelation} {mapper : List Nat} (h : (idxName, idx, mapper) ∈ rel.indices) :
      rel.IndexAt idxName [("", idx)]
  | hnsw {idx : IndexRelation} {manifest : HnswIndexManifest}
    (h : (idxName, idx, manifest) ∈ rel.hnswIndices) :
      rel.IndexAt idxName [("", idx)]
  | fts {idx : IndexRelation} {manifest : FtsIndexManifest}
    (h : (idxName, idx, manifest) ∈ rel.ftsIndices) :
      rel.IndexAt idxName [("", idx)]
  | lsh {idx inv : IndexRelation} {manifest : MinHashLshIndexManifest}
    (h : (idxName, idx, inv, manifest) ∈ rel.lshIndices) :
      rel.IndexAt idxName [("", idx), (":inv", inv)]

/-- Index names are distinct, over all four kinds. -/
structure RelationHandle.DistinctIndices (rel : RelationHandle) (idxName : String) : Prop where
  one : (containsName idxName rel.indices).toNat + (containsName idxName rel.hnswIndices).toNat +
    (containsName idxName rel.ftsIndices).toNat + (containsName idxName rel.lshIndices).toNat ≤ 1

def RelationHandle.dropIndex (rel : RelationHandle) (idxName : String) : RelationHandle :=
  { rel with
    indices := removeName idxName rel.indices, hnswIndices := removeName idxName rel.hnswIndices,
    ftsIndices := removeName idxName rel.ftsIndices, lshIndices := removeName idxName rel.lshIndices }

section Metadata

variable {rel : RelationHandle} {idxName : String} {parts : List (String × IndexRelation)}

theorem containsName_of_mem {α : Type} {l : List (String × α)} {a : α} (h : (idxName, a) ∈ l) :
    containsName idxName l = true := any_eq_true.2 ⟨_, h, beq_self_eq_true _⟩

theorem removeName_of_not_contains {α : Type} {l : List (String × α)}
    (h : containsName idxName l = false) : removeName idxName l = l := by
  rw [containsName, any_eq_false] at h
  refine filter_eq_self.2 fun e he => ?_
  simpa using h e he

theorem withoutIndex_eq (hdistinct : rel.DistinctIndices idxName)
    (hidx : rel.IndexAt idxName parts) (relName : String) :
    rel.withoutIndex idxName relName = .ok (rel.dropIndex idxName) ∧
    (containsName idxName rel.lshIndices = true ↔ parts.length = 2) := by
  have hone := hdistinct.one
  cases hidx with
  | plain h | hnsw h | fts h | lsh h =>
    -- the name is in one list, so the other three are left as they are
    have hc := containsName_of_mem h
    simp only [hc, Bool.toNat_true, Nat.add_assoc, Nat.add_comm _ 1,
      add_le_iff_nonpos_right, nonpos_iff_eq_zero, Nat.add_eq_zero_iff, Bool.toNat_eq_zero] at hone
    simp [RelationHandle.withoutIndex, RelationHandle.dropIndex, hc, hone, removeName_of_not_contains]

end Metadata

/-! ### Removing a relation -/

section Removal

variable {S : Serde} {s s' : SessionTx} {name : String} {h : RelationHandle}

theorem getRelation_of_record (hname : isTempStoreName name = false)
    (hr : Record S s.storeTx.get name h) : getRelation S name s = .ok h s := by
  obtain ⟨bytes, hget, hdec⟩ := hr
  have hin : getIn false (metaKey name) s = .ok (some bytes) s := by rw [← hget]; rfl
  rw [getRelation, hname]
  simp only [bind, EStateM.bind, hin, hdec]
  rfl

theorem storePut_of_writer (hw : s.storeTx.isWriter = true) (k v : Bytes) :
    ∃ s', storePut k v s = .ok () s' ∧ s'.storeTx.isWriter = true ∧
      ∀ k', s'.storeTx.get k' = if k' = k then some v else s.storeTx.get k' := by
  obtain ⟨tx, htx⟩ : ∃ tx, s.storeTx.put k v = .ok tx := by
    cases hs : s.storeTx with
    | reader store => rw [hs] at hw; cases hw
    | writer wtr cache => exact ⟨_, rfl⟩
  have hput : storePut k v s = .ok () { s with storeTx := tx } := by
    simp only [storePut, storeOp, htx]
  exact ⟨_, hput, (MemTx.isWriter_of_put htx).trans hw, get_of_storePut hput⟩

theorem storeDel_of_writer (hw : s.storeTx.isWriter = true) (k : Bytes) :
    ∃ s', storeDel k s = .ok () s' ∧ s'.storeTx.isWriter = true ∧
      ∀ k', s'.storeTx.get k' = if k' = k then none else s.storeTx.get k' := by
  obtain ⟨tx, htx⟩ : ∃ tx, s.storeTx.del k = .ok tx := by
    cases hs : s.storeTx with
    | reader store => rw [hs] at hw; cases hw
    | writer wtr cache => exact ⟨_, rfl⟩
  have hdel : storeDel k s = .ok () { s with storeTx := tx } := by
    simp only [storeDel, storeOp, htx]
  exact ⟨_, hdel, (MemTx.isWriter_of_del htx).trans hw, get_of_storeDel hdel⟩

structure Removable (h : RelationHandle) : Prop where
  noIndex : h.hasNoIndex = true
  level : h.accessLevel = .normal

def rangeOf (id next : RelationId) : Bytes × Bytes := (Row.key [] id, Row.key [] next)

/-- **Removing a relation** takes away its metadata, and its key range is to be deleted. -/
theorem destroyRelation_of_record (hw : s.storeTx.isWriter = true)
    (hname : isTempStoreName name = false)
    (hr : Record S s.storeTx.get name h) (hremovable : Removable h) {next : RelationId}
    (hnext : h.id.next = .ok next) :
    ∃ s', destroyRelation S name s = .ok [rangeOf h.id next] s' ∧ s'.storeTx.isWriter = true ∧
      ∀ k, s'.storeTx.get k = if k = metaKey name then none else s.storeTx.get k := by
  obtain ⟨s', hdel, hw', hget⟩ := storeDel_of_writer hw (metaKey name)
  refine ⟨s', ?_, hw', hget⟩
  unfold destroyRelation
  rw [hname]
  refine bind_eq_ok.2 ⟨h, s, getRelation_of_record hname hr,
    bind_eq_ok.2 ⟨(), s, ?_, bind_eq_ok.2 ⟨(), s, ?_, bind_eq_ok.2 ⟨(), s', hdel, ?_⟩⟩⟩⟩
  · exact bailIf_eq_ok.2 ⟨by rw [hremovable.noIndex]; rfl, rfl⟩
  · exact bailIf_eq_ok.2 ⟨by rw [hremovable.level]; decide, rfl⟩
  · rw [hnext]
    rfl

theorem destroyRelation_eq_ok (hname : isTempStoreName name = false)
    {ranges : Cleanups} (hok : destroyRelation S name s = .ok ranges s') :
    ∃ h next, Record S s.storeTx.get name h ∧ h.id.next = .ok next ∧ ranges = [rangeOf h.id next] ∧
      ∀ k, s'.storeTx.get k = if k = metaKey name then none else s.storeTx.get k := by
  unfold destroyRelation at hok
  rw [hname] at hok
  obtain ⟨h, s₁, hget, hrest⟩ := bind_eq_ok.1 hok
  obtain ⟨rfl, hrecord⟩ := (wp_iff_of_ok hget).1 (wp_getRelation name s)
  rw [hname] at hrecord
  simp only [bind_eq_ok, bailIf_eq_ok, RelationHandle.requireLevel] at hrest
  obtain ⟨_, _, ⟨-, rfl⟩, _, _, ⟨-, rfl⟩, _, s₂, hdel, hlast⟩ := hrest
  cases hnext : h.id.next with
  | error e => rw [hnext] at hlast; cases hlast
  | ok next =>
    rw [hnext] at hlast
    obtain ⟨rfl, rfl⟩ := pure_eq_ok.1 hlast
    exact ⟨h, next, hrecord, hnext, rfl, get_of_storeDel hdel⟩

end Removal

/-! ### Removing an index -/

def indexRelationName (relName idxName rest : String) : String :=
  relName ++ ":" ++ (idxName ++ rest)

theorem indexRelationName_nil (relName idxName : String) :
    (s!"{relName}:{idxName}" : String) = indexRelationName relName idxName "" := by
  simp only [toString, indexRelationName, String.append_assoc, String.append_empty]

theorem indexRelationName_inv (relName idxName : String) :
    (s!"{relName}:{idxName}:inv" : String) = indexRelationName relName idxName ":inv" := by
  simp only [toString, indexRelationName, String.append_assoc]

section RemoveIndex

variable {S : Serde} {s s' : SessionTx} {relName idxName : String} {rel : RelationHandle}
  {parts : List (String × IndexRelation)}

/-- **The index is removed, and nothing else**: its metadata in the base relation and that of its
own relations go, and the ranges to be deleted are those of its own relations. If it was the last
index, the relation itself can then be removed. -/
def RemovesExactly (S : Serde) (relName idxName : String) (rel : RelationHandle)
    (parts : List (String × IndexRelation)) (s : SessionTx) : Prop :=
  ∃ ranges s', removeIndex S relName idxName s = .ok ranges s' ∧
    List.Forall₂ (fun (p : String × IndexRelation) range =>
      ∃ next, p.2.id.next = .ok next ∧ range = rangeOf p.2.id next) parts ranges ∧
    (∀ k, s'.storeTx.get k = if k = metaKey relName then some (S.encodeHandle (rel.dropIndex idxName))
      else if k ∈ parts.map (fun p => metaKey (indexRelationName relName idxName p.1)) then none
      else s.storeTx.get k) ∧
    (Removable (rel.dropIndex idxName) → (∃ next, rel.id.next = .ok next) →
      ∃ bounds s'', destroyRelation S relName s' = .ok bounds s'')

structure StoredAs (S : Serde) (s : SessionTx) (name : String) (idx : IndexRelation) : Prop where
  stored : ∃ h, Record S s.storeTx.get name h ∧ h.id = idx.id ∧ Removable h
  next : ∃ next, idx.id.next = .ok next

theorem indexRelationName_ne_inv (relName idxName : String) :
    indexRelationName relName idxName ":inv" ≠ indexRelationName relName idxName "" := by
  intro h
  have hlen := congrArg String.length h
  simp [indexRelationName] at hlen

theorem isTempStoreName_indexRelationName (hname : isCompoundIdent relName = true)
    (idxName rest : String) :
    isTempStoreName (indexRelationName relName idxName rest) = false :=
  isTempStoreName_append (isTempStoreName_of_isCompoundIdent hname) _

theorem destroyRelation_of_storedAs (hw : s.storeTx.isWriter = true)
    (hname : isCompoundIdent relName = true)
    {rest : String} {idx : IndexRelation}
    (hstored : StoredAs S s (indexRelationName relName idxName rest) idx) :
    ∃ next s', idx.id.next = .ok next ∧
    destroyRelation S (indexRelationName relName idxName rest) s = .ok [rangeOf idx.id next] s' ∧
      s'.storeTx.isWriter = true ∧ ∀ k, s'.storeTx.get k =
        if k = metaKey (indexRelationName relName idxName rest) then none else s.storeTx.get k := by
  obtain ⟨⟨h, hr, hid, hremovable⟩, next, hnext⟩ := hstored
  obtain ⟨s', hdestroy, hw', hget⟩ := destroyRelation_of_record hw
    (isTempStoreName_indexRelationName hname idxName rest) hr hremovable (hid ▸ hnext)
  exact ⟨next, s', hnext, hid ▸ hdestroy, hw', hget⟩

theorem StoredAs.congr {name : String} {idx : IndexRelation} (h : StoredAs S s name idx)
    (hget : s'.storeTx.get (metaKey name) = s.storeTx.get (metaKey name)) :
    StoredAs S s' name idx := by
  obtain ⟨⟨h, hr, hid, hremovable⟩, hnext⟩ := h
  exact ⟨⟨h, hr.congr hget, hid, hremovable⟩, hnext⟩

theorem removesExactly_of_storedAs (hw : s.storeTx.isWriter = true)
    (hname : isCompoundIdent relName = true)
    (hr : Record S s.storeTx.get relName rel) (hdistinct : rel.DistinctIndices idxName)
    (hidx : rel.IndexAt idxName parts)
    (hstored : ∀ p ∈ parts, StoredAs S s (indexRelationName relName idxName p.1) p.2) :
    RemovesExactly S relName idxName rel parts s := by
  obtain ⟨hwithout, hlsh⟩ := withoutIndex_eq hdistinct hidx relName
  have hrel := getRelation_of_record (isTempStoreName_of_isCompoundIdent hname) hr
  -- the tokenizers may be dropped first
  obtain ⟨s₁, htokenizers, hsame⟩ : ∃ s₁, runIf (containsName idxName rel.lshIndices ||
      containsName idxName rel.ftsIndices) (setTokenizers ⟨∅, ∅⟩) s = .ok () s₁ ∧
        s₁.storeTx = s.storeTx := by
    unfold runIf runOr
    split
    · exact ⟨_, rfl, rfl⟩
    · exact ⟨s, rfl, rfl⟩
  have hw₁ : s₁.storeTx.isWriter = true := hsame ▸ hw
  have hstored₁ : ∀ p ∈ parts, StoredAs S s₁ (indexRelationName relName idxName p.1) p.2 :=
    fun p hp => (hstored p hp).congr (by rw [hsame])
  -- without its last index the relation can be removed
  have hlast : ∀ s' : SessionTx, s'.storeTx.isWriter = true →
      s'.storeTx.get (metaKey relName) = some (S.encodeHandle (rel.dropIndex idxName)) →
      Removable (rel.dropIndex idxName) → (∃ next, rel.id.next = .ok next) →
      ∃ bounds s'', destroyRelation S relName s' = .ok bounds s'' := by
    rintro s' hw' hget hremovable ⟨next, hnext⟩
    obtain ⟨s'', hdestroy, -⟩ := destroyRelation_of_record hw' (isTempStoreName_of_isCompoundIdent hname)
      ⟨_, hget, S.decode_encodeHandle _⟩ hremovable hnext
    exact ⟨_, s'', hdestroy⟩
  unfold RemovesExactly removeIndex
  rw [indexRelationName_inv, indexRelationName_nil]
  rcases (by cases hidx <;> simp : (∃ idx, parts = [("", idx)]) ∨
    ∃ idx inv, parts = [("", idx), (":inv", inv)]) with ⟨idx, rfl⟩ | ⟨idx, inv, rfl⟩
  · obtain ⟨next, s₂, hnext, hdestroy, hw₂, hget₂⟩ :=
      destroyRelation_of_storedAs hw₁ hname (hstored₁ _ mem_cons_self)
    obtain ⟨s₃, hput, hw₃, hget₃⟩ :=
      storePut_of_writer hw₂ (metaKey relName) (S.encodeHandle (rel.dropIndex idxName))
    have hno : containsName idxName rel.lshIndices = false := by
      cases hl : containsName idxName rel.lshIndices with
      | false => rfl
      | true => simp [hl] at hlsh
    refine ⟨[rangeOf idx.id next], s₃, ?_, .cons ⟨next, hnext, rfl⟩ .nil, fun k => ?_,
      hlast s₃ hw₃ (by rw [hget₃, if_pos rfl])⟩
    · refine bind_eq_ok.2 ⟨rel, s, hrel, bind_eq_ok.2 ⟨(), s₁, htokenizers, bind_eq_ok.2 ⟨_, s₁,
        attempt_eq_ok.2 ⟨hwithout, rfl⟩, bind_eq_ok.2 ⟨_, s₂, hdestroy,
          bind_eq_ok.2 ⟨[], s₂, ?_, bind_eq_ok.2 ⟨(), s₃, hput, ?_⟩⟩⟩⟩⟩⟩
      · rw [hno]; rfl
      · rw [append_nil]; rfl
    · rw [hget₃, hget₂, hsame]
      simp
  · obtain ⟨next, s₂, hnext, hdestroy, hw₂, hget₂⟩ :=
      destroyRelation_of_storedAs hw₁ hname (hstored₁ _ mem_cons_self)
    have hinv : StoredAs S s₂ (indexRelationName relName idxName ":inv") inv := by
      refine (hstored₁ (":inv", inv) (by simp)).congr ?_
      rw [hget₂, if_neg fun heq => indexRelationName_ne_inv _ _ (metaKey_injective heq)]
    obtain ⟨next', s₃, hnext', hdestroy', hw₃, hget₃⟩ := destroyRelation_of_storedAs hw₂ hname hinv
    obtain ⟨s₄, hput, hw₄, hget₄⟩ :=
      storePut_of_writer hw₃ (metaKey relName) (S.encodeHandle (rel.dropIndex idxName))
    have hyes : containsName idxName rel.lshIndices = true := hlsh.2 rfl
    refine ⟨[rangeOf idx.id next, rangeOf inv.id next'], s₄, ?_,
      .cons ⟨next, hnext, rfl⟩ (.cons ⟨next', hnext', rfl⟩ .nil), fun k => ?_,
      hlast s₄ hw₄ (by rw [hget₄, if_pos rfl])⟩
    · refine bind_eq_ok.2 ⟨rel, s, hrel, bind_eq_ok.2 ⟨(), s₁, htokenizers, bind_eq_ok.2 ⟨_, s₁,
        attempt_eq_ok.2 ⟨hwithout, rfl⟩, bind_eq_ok.2 ⟨_, s₂, hdestroy,
          bind_eq_ok.2 ⟨[rangeOf inv.id next'], s₃, ?_, bind_eq_ok.2 ⟨(), s₄, hput, rfl⟩⟩⟩⟩⟩⟩
      rw [hyes]
      exact hdestroy'
    · rw [hget₄, hget₃, hget₂, hsame]
      simp only [map_cons, map_nil, mem_cons, not_mem_nil, or_false]
      grind

theorem stored_of_removesExactly (hname : isCompoundIdent relName = true)
    (hidx : rel.IndexAt idxName parts) (h : RemovesExactly S relName idxName rel parts s) :
    ∃ idx h, ("", idx) ∈ parts ∧ Record S s.storeTx.get (indexRelationName relName idxName "") h ∧
    h.id = idx.id := by
  obtain ⟨ranges, s', hremove, hranges, -⟩ := h
  unfold removeIndex at hremove
  rw [indexRelationName_inv, indexRelationName_nil] at hremove
  obtain ⟨rel', s₁, hrel, hrest⟩ := bind_eq_ok.1 hremove
  obtain ⟨rfl, -⟩ := (wp_iff_of_ok hrel).1 (wp_getRelation relName s)
  obtain ⟨_, s₂, htokenizers, hrest⟩ := bind_eq_ok.1 hrest
  have hsame : s₂.storeTx = s₁.storeTx := by
    rcases runOr_eq_ok htokenizers with ⟨-, hset⟩ | ⟨-, -, rfl⟩
    · cases hset
      rfl
    · rfl
  obtain ⟨_, s₃, hwithout, hrest⟩ := bind_eq_ok.1 hrest
  obtain ⟨-, rfl⟩ := attempt_eq_ok.1 hwithout
  obtain ⟨toClean, s₄, hdestroy, hrest⟩ := bind_eq_ok.1 hrest
  obtain ⟨h, next, hrecord, -, rfl, -⟩ :=
    destroyRelation_eq_ok (isTempStoreName_indexRelationName hname idxName "") hdestroy
  obtain ⟨more, s₅, -, hrest⟩ := bind_eq_ok.1 hrest
  obtain ⟨_, s₆, -, hpure⟩ := bind_eq_ok.1 hrest
  obtain ⟨rfl, -⟩ := pure_eq_ok.1 hpure
  rw [hsame] at hrecord
  -- the first range is that of the relation found, and that of the index
  obtain ⟨idx, rest, rfl⟩ : ∃ idx rest, parts = ("", idx) :: rest := by
    cases hidx <;> exact ⟨_, _, rfl⟩
  cases hranges with
  | cons hfirst _ =>
    obtain ⟨next', -, heq⟩ := hfirst
    exact ⟨idx, h, mem_cons_self, hrecord, (Row.key_inj (congrArg Prod.fst heq)).2⟩

end RemoveIndex

/-! ### Chains of renames -/

/-- The relation is renamed again and again; the result is its name in the end. -/
def renameAll (S : Serde) : String → List String → SessionM String
  | name, [] => pure name
  | name, new :: rest => do
    renameRelation S name new
    renameAll S new rest

section Renames

variable {S : Serde} {s s' : SessionTx} {rel : RelationHandle}

theorem renameRelation_eq_ok {old new : String} (hold : isTempStoreName old = false)
    (hr : Record S s.storeTx.get old rel) {u : Unit} (h : renameRelation S old new s = .ok u s') :
    s'.storeTx.isWriter = s.storeTx.isWriter ∧ ∀ k, s'.storeTx.get k =
      if k = metaKey new then some (S.encodeHandle { rel with name := new })
      else if k = metaKey old then none else s.storeTx.get k := by
  unfold renameRelation at h
  simp only [bind_eq_ok, bailIf_eq_ok] at h
  obtain ⟨_, _, ⟨-, rfl⟩, _, _, hexists, _, _, ⟨-, rfl⟩, rel', s₁, hrel, hrest⟩ := h
  obtain ⟨-, rfl⟩ := existsIn_false_eq_ok.1 hexists
  rw [getRelation_of_record hold hr] at hrel
  cases hrel
  simp only [RelationHandle.requireLevel, bailIf_eq_ok] at hrest
  obtain ⟨_, _, ⟨-, rfl⟩, _, s₂, hdel, hput⟩ := hrest
  refine ⟨?_, fun k => ?_⟩
  · obtain ⟨tx, htx, rfl⟩ := storeOp_eq_ok hdel
    obtain ⟨tx', htx', rfl⟩ := storeOp_eq_ok hput
    exact (MemTx.isWriter_of_put htx').trans (MemTx.isWriter_of_del htx)
  · rw [get_of_storePut hput, get_of_storeDel hdel]

/-- **A chain of renames** leaves the indices in the metadata, and all other metadata as it is. -/
theorem renameAll_eq_ok {G : Regime} {c : Bool} {news : List String} {name cur : String}
    (hs : Inv S G c s) (hname : isCompoundIdent name = true)
    (hnews : ∀ n ∈ news, isCompoundIdent n = true)
    (hr : Record S s.storeTx.get name rel) (h : renameAll S name news s = .ok cur s') :
    Inv S G c s' ∧ isCompoundIdent cur = true ∧
    Record S s'.storeTx.get cur { rel with name := cur } ∧
      s'.storeTx.isWriter = s.storeTx.isWriter ∧
      ∀ n : String, ':' ∈ n.toList → s'.storeTx.get (metaKey n) = s.storeTx.get (metaKey n) := by
  induction news generalizing s name rel with
  | nil =>
    obtain ⟨rfl, rfl⟩ := pure_eq_ok.1 h
    have heq : { rel with name := name } = rel := by
      conv_lhs => rw [← (hs.store.of_record hr).name_eq]
    exact ⟨hs, hname, heq ▸ hr, rfl, fun _ _ => rfl⟩
  | cons new rest ih =>
    obtain ⟨_, s₁, hrename, hrest⟩ := bind_eq_ok.1 h
    have hnew := hnews new mem_cons_self
    have hs₁ : Inv S G c s₁ := by
      have hfinal := (keeps_renameRelation hname new).final hs
      rwa [final_eq_of_ok hrename] at hfinal
    obtain ⟨hw₁, hget₁⟩ := renameRelation_eq_ok (isTempStoreName_of_isCompoundIdent hname) hr hrename
    have hr₁ : Record S s₁.storeTx.get new { rel with name := new } :=
      ⟨_, (hget₁ _).trans (if_pos rfl), S.decode_encodeHandle _⟩
    obtain ⟨hs', hcur, hr', hw', hget'⟩ :=
      ih hs₁ hnew (fun n hn => hnews n (mem_cons_of_mem _ hn)) hr₁ hrest
    refine ⟨hs', hcur, hr', hw'.trans hw₁, fun n hn => ?_⟩
    have hne : ∀ m, isCompoundIdent m = true → metaKey n ≠ metaKey m := by
      intro m hm heq
      rw [metaKey_injective heq] at hn
      simp [isCompoundIdent, hn] at hm
    rw [hget' n hn, hget₁, if_neg (hne new hnew), if_neg (hne name hname)]

end Renames

/-- **Indices of a renamed relation**, at every point of every session of a database that has been
reached by creating relations in order: let the relations of an index be stored under the names made
from the name of the base relation, as they are when the index is created. A chain of renames of the
base relation keeps the index in the metadata, and in the end the index can be removed if and only
if the relation has the name again that it had at first. -/
theorem index_removable_iff {S : Serde} {d : Database}
    (h : Reached S (CreatesInOrder S) Database.NotBehind d)
    (D : Db) (hD : D.toSerde = S) {stmts : List Statement}
    (hok : D.Each (CreatesInOrder S) stmts (d.transact true))
    {s s' : SessionTx} (hs : s = (D.runStatements stmts (d.transact true)).2)
    (hw : s.storeTx.isWriter = true)
    {name idxName : String} {rel : RelationHandle} {parts : List (String × IndexRelation)}
    (hname : isCompoundIdent name = true) (hr : Record S s.storeTx.get name rel)
    (hdistinct : rel.DistinctIndices idxName) (hidx : rel.IndexAt idxName parts)
    (hstored : ∀ p ∈ parts, StoredAs S s (indexRelationName name idxName p.1) p.2)
    {news : List String} (hnews : ∀ n ∈ news, isCompoundIdent n = true)
    {cur : String} (hrename : renameAll S name news s = .ok cur s') :
    Record S s'.storeTx.get cur { rel with name := cur } ∧
      (RemovesExactly S cur idxName { rel with name := cur } parts s' ↔ cur = name) := by
  subst hD
  have hinv : Inv D.toSerde idsRegime false s := hs ▸ (inv_runStatements D
    (hok.mono fun _ _ => allowed_of_createsInOrder) ((sound_of_reached h).transact true)).1
  obtain ⟨hinv', hcur, hr', hw', hother⟩ := renameAll_eq_ok hinv hname hnews hr hrename
  have hidx' : RelationHandle.IndexAt { rel with name := cur } idxName parts := by
    cases hidx with
    | plain h => exact .plain h
    | hnsw h => exact .hnsw h
    | fts h => exact .fts h
    | lsh h => exact .lsh h
  have hcolon : ∀ base rest, ':' ∈ (indexRelationName base idxName rest).toList :=
    fun base rest => colon_mem_append _ _
  refine ⟨hr', fun hexact => ?_, fun heq => ?_⟩
  · -- the relation found under the made name has the identifier of the index, so it has its name
    obtain ⟨idx, h₁, hmem, hr₁, hid₁⟩ := stored_of_removesExactly hcur hidx' hexact
    obtain ⟨⟨h₂, hr₂, hid₂, -⟩, -⟩ := hstored _ hmem
    have hr₂' : Record D.toSerde s'.storeTx.get (indexRelationName name idxName "") h₂ :=
      hr₂.congr (hother _ (hcolon name ""))
    obtain ⟨last, hordered⟩ := hinv'.store.ordered trivial
    have hlive₁ := hr₁.live mem_cons_self
    have hlive₂ := hr₂'.live mem_cons_self
    have hnames := hordered.unique _ _ _ hlive₁ (hid₁.trans hid₂.symm ▸ hlive₂)
    rw [(hinv'.store.of_record hr₁).name_eq, (hinv'.store.of_record hr₂').name_eq] at hnames
    exact (String.append_left_inj _).1 ((String.append_left_inj _).1 hnames)
  · subst heq
    exact removesExactly_of_storedAs (hw'.trans hw) hcur hr' ⟨hdistinct.one⟩ hidx'
      fun p hp => (hstored p hp).congr (hother _ (hcolon cur p.1))

/-! ### A renamed relation with an index -/

/-- `:create r {a}` and `::index create r:i {a}`. -/
def indexedStmts : List Statement :=
  [.program (createProgram "r"), .sysOp ⟨.createIndex "r" "i" ["a"], rfl⟩]

def indexedSession : SessionTx :=
  (plainDb.runStatements indexedStmts (Database.empty.transact true)).2

def indexRelationI : IndexRelation := (newHandle "r:i" ⟨2, RelationId.two_le⟩).toIndexRelation

def indexedHandle : RelationHandle :=
  { newHandle "r" ⟨1, RelationId.one_le⟩ with indices := [("i", indexRelationI, [0])] }

/-- The relation is renamed to `q` and back to `r`, and then the index can be removed. -/
theorem renamed_back_index_removable :
    ∃ s', renameAll codec "r" ["q", "r"] indexedSession = .ok "r" s' ∧
      Record codec s'.storeTx.get "r" { indexedHandle with name := "r" } ∧
      RemovesExactly codec "r" "i" { indexedHandle with name := "r" } [("", indexRelationI)] s' := by
  have hok : plainDb.Each (CreatesInOrder codec) indexedStmts (Database.empty.transact true) :=
    ⟨fun _ => notBehind_of_get RelationId.system (by decide +kernel) le_rfl,
      fun _ => notBehind_of_get ⟨1, by decide⟩ (by decide +kernel) (by decide +kernel), trivial⟩
  have hr : Record codec indexedSession.storeTx.get "r" indexedHandle :=
    ⟨_, by decide +kernel, codec.decode_encodeHandle _⟩
  have hstored : StoredAs codec indexedSession (indexRelationName "r" "i" "") indexRelationI :=
    ⟨⟨newHandle "r:i" ⟨2, by decide⟩, ⟨_, by decide +kernel, codec.decode_encodeHandle _⟩, rfl, rfl, rfl⟩,
      ⟨3, by decide⟩, rfl⟩
  have hname : (match renameAll codec "r" ["q", "r"] indexedSession with
      | .ok cur _ => some cur
      | .error _ _ => none) = some "r" := by decide +kernel
  cases hrename : renameAll codec "r" ["q", "r"] indexedSession with
  | error e s' =>
    rw [hrename] at hname
    cases hname
  | ok cur s' =>
    rw [hrename] at hname
    cases hname
    have hdistinct : indexedHandle.DistinctIndices "i" := ⟨by decide⟩
    have hindex : indexedHandle.IndexAt "i" [("", indexRelationI)] :=
      @RelationHandle.IndexAt.plain _ _ _ [0] mem_cons_self
    obtain ⟨hrecord, hiff⟩ := index_removable_iff (S := codec) .new plainDb rfl hok
      (s := indexedSession) rfl (by decide +kernel) (by decide) hr hdistinct hindex
      (by simpa using hstored) (by decide) hrename
    exact ⟨s', rfl, hrecord, hiff.2 rfl⟩

def notFound {α : Type} : EStateM.Result SessionError SessionTx α → Option String
  | .error (.storedRelationNotFound name) _ => some name
  | _ => none

/-- After `::rename r -> q` the index of `q` cannot be removed, since its relation is looked for
under `q:i`, and so `q` cannot be removed either. -/
theorem renamed_index_not_removable :
    let s := final (renameRelation codec "r" "q") indexedSession
    isFailure (renameRelation codec "r" "q" indexedSession) = false ∧
      notFound (removeIndex codec "q" "i" s) = some "q:i" ∧
      isFailure (destroyRelation codec "q" s) = true := by
  refine ⟨?_, ?_, ?_⟩
  · decide +kernel
  · decide +kernel
  · decide +kernel

end Session

end Retia
