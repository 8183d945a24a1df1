import Mathlib
import Retia.Runtime.FailedPrograms
import Retia.Runtime.Returning

/-!
# Relations as tables

What a stored relation is for is a table: a map from the keys of its rows to their values. The store
has bytes, which the loops of `put_into_relation`, `update_in_relation` and `remove_from_relation`
write row by row, among all they do to indices.

* The store **holds a table** if under the key of every row there are its values, and nothing else
  under the relation (`Represents`).
* A round of a loop asks for a change at one key (`RowStep.apply`). An inserted key must be new, an
  updated or deleted one must be there.
* **The round does that change** (`represents_of_step`), because it writes its own key and no other
  key of the relation (`Represents.write`): the relations of indices are other relations.
* So a run of rounds leads to the table that its changes lead to, and refuses what the table refuses
  (`runSteps_table`).
-/

namespace Retia

open Effect List

namespace Session

open SessionM

/-- **A table**: the values for each key. -/
abbrev Table := Row → Option Row

open Classical in
/-- **A change at a key**: what is made of the values there, which may be refused. -/
noncomputable def Table.change (T : Table) (keys : Row) (f : Option Row → Option (Option Row)) :
    Option Table :=
  (f (T keys)).map (Function.update T keys)

abbrev IndexRelation.keysLen (rel : IndexRelation) : Nat := rel.metadata.keys.length

/-- **The store holds the table** for the relation, and nothing else. -/
structure Represents (S : Serde) (rel : IndexRelation) (T : Table) (s : SessionTx) : Prop where
  get_key : ∀ keys : Row, keys.length = rel.keysLen →
    s.storeTx.get (keys.key rel.id) = (T keys).map fun vals => beBytes 8 rel.id.id ++ S.encodeVals vals
  only : ∀ k, keyId k = some rel.id → s.storeTx.get k ≠ none →
    ∃ keys : Row, keys.length = rel.keysLen ∧ k = keys.key rel.id

/-- A round of one of the three loops, with its row. -/
inductive RowStep where
  | put (extractors : List DataExtractor) (isInsert : Bool) (tuple : Row)
  | update (keyExtractors : List DataExtractor) (valExtractors : List (Option DataExtractor)) (tuple : Row)
  | remove (keyExtractors : List DataExtractor) (checkExists : Bool) (tuple : Row)

namespace RowStep

variable (E : Engine) (m : Engine.Mutation)

def run : RowStep → SessionM (List Row × List Row)
  | put extractors isInsert tuple => E.putRow m extractors isInsert tuple
  | update keyExtractors valExtractors tuple => E.updateRow m keyExtractors valExtractors tuple
  | remove keyExtractors checkExists tuple => E.removeRow m keyExtractors checkExists tuple

def runAll : List RowStep → SessionM Unit
  | [] => pure ()
  | step :: rest => do
    let _ ← step.run E m
    runAll rest

/-- **What the round says**, of the row that its extractors give. -/
noncomputable def apply (T : Table) : RowStep → Option Table
  | put extractors isInsert tuple => do
    let row ← (E.extractAll m.curVld extractors tuple).toOption
    T.change (row.take m.rel.keysLen) fun old => if isInsert && old.isSome then none
      else some (some (row.drop m.rel.keysLen))
  | update keyExtractors valExtractors tuple => do
    let keys ← (E.extractAll m.curVld keyExtractors tuple).toOption
    T.change (keys.take m.rel.keysLen) fun old => do
      let new ← (E.updatedVals m.curVld tuple valExtractors (← old)).toOption
      some (some ((keys ++ new).drop m.rel.keysLen))
  | remove keyExtractors checkExists tuple => do
    let keys ← (E.extractAll m.curVld keyExtractors tuple).toOption
    T.change (keys.take m.rel.keysLen) fun old => if checkExists && old.isNone then none else some none

end RowStep

section Tables

variable {S : Serde} {rel : IndexRelation} {T : Table} {s s' : SessionTx}
    (hT : Represents S rel T s)

include hT

open Classical in
/-- **One key is written.** -/
theorem Represents.write {keys : Row} (hkeys : keys.length = rel.keysLen)
    {f : Option Row → Option (Option Row)} (vals : Option Row)
    (hvals : f (T keys) = some vals) (h : ∀ k, keyId k = some rel.id → s'.storeTx.get k =
      if k = keys.key rel.id then vals.map (fun vals => beBytes 8 rel.id.id ++ S.encodeVals vals)
      else s.storeTx.get k) :
    ∃ T', T.change keys f = some T' ∧ Represents S rel T' s' := by
  refine ⟨_, by rw [Table.change, hvals]; rfl, fun keys' hkeys' => ?_, fun k hk hsome => ?_⟩
  · rw [h _ (keyId_key keys' rel.id)]
    by_cases heq : keys' = keys
    · rw [heq, if_pos rfl, Function.update_self]
    · rw [if_neg fun hkey => heq (Row.key_inj hkey).1, Function.update_of_ne heq, hT.get_key keys' hkeys']
  · by_cases heq : k = keys.key rel.id
    · exact ⟨keys, hkeys, heq⟩
    · rw [h k hk, if_neg heq] at hsome
      exact hT.only k hk hsome

end Tables

section Steps

variable {E : Engine} {m : Engine.Mutation} {T : Table} {s s' : SessionTx}

theorem sameOn_of_readsOld {α : Type} {n : SessionM α} {a : α}
    (hn : Moves (Touches (· ≠ m.rel.id)) n)
    (h : m.readsOld = true ∧ n s = .ok a s' ∨ m.readsOld = false ∧ s = s') :
    SameOn m.rel.id s s' := by
  rcases h with ⟨-, hok⟩ | ⟨-, rfl⟩
  · exact sameOn_of_indices hn hok
  · exact SameOn.refl _ _

variable (htemp : m.rel.isTemp = false) (hsep : Separate m.rel) (hp : m.processors.Of m.rel)
    (hT : Represents E.toSerde m.rel.toIndexRelation T s)

include htemp hsep hp hT

/-- **A round does its change.** -/
theorem represents_of_step {step : RowStep} {c : List Row × List Row}
    (h : step.run E m s = .ok c s') :
    ∃ T', step.apply E m T = some T' ∧ Represents E.toSerde m.rel.toIndexRelation T' s' := by
  cases step with
  | put extractors isInsert tuple =>
    obtain ⟨row, s₁, hrow, hlen, hinsert, hindices, hput⟩ := putRow_eq_ok htemp h
    have hsame := sameOn_of_readsOld (touches_putRowIndices hsep hp _ _) hindices
    have hkeys : (row.take m.rel.keysLen).length = m.rel.keysLen := length_take_of_le hlen
    simp only [RowStep.apply, hrow, Except.toOption, Option.bind_eq_bind, Option.bind_some]
    refine hT.write hkeys _ (if_neg fun hbad => ?_) fun k hk => by rw [hput, hsame k hk]; rfl
    rw [Bool.and_eq_true] at hbad
    have hnone := hinsert hbad.1
    rw [rowKey, hT.get_key _ hkeys, Option.map_eq_none_iff] at hnone
    rw [hnone] at hbad
    cases hbad.2
  | update keyExtractors valExtractors tuple =>
    obtain ⟨keys, v, vals, newVals, s₁, hextract, hlen, hv, hvals, hnew, hindices, hput, -⟩ :=
      updateRow_eq_ok htemp h
    have hsame := sameOn_of_readsOld (touches_updateRowIndices hsep hp _ _) hindices
    have hkeys : (keys.take m.rel.keysLen).length = m.rel.keysLen := length_take_of_le hlen
    -- the values read from the store are those of the table
    rw [rowKey, hT.get_key _ hkeys, Option.map_eq_some_iff] at hv
    obtain ⟨old, hold, rfl⟩ := hv
    have hstored := storedVals_rowVal (E := E) m.rel.toIndexRelation (keys.take m.rel.keysLen ++ old)
    rw [rowVal, drop_left' hkeys, hvals] at hstored
    obtain rfl := Except.ok.inj hstored
    simp only [RowStep.apply, hextract, Except.toOption, Option.bind_eq_bind, Option.bind_some]
    refine hT.write hkeys (some ((keys ++ newVals).drop m.rel.keysLen))
      (by simp [hold, hnew]) fun k hk => ?_
    rw [hput, hsame k hk]
    rfl
  | remove keyExtractors checkExists tuple =>
    obtain ⟨keys, s₁, hextract, hlen, hindices, hdel⟩ := removeRow_eq_ok htemp h
    have hsame : SameOn m.rel.id s s₁ := by
      rcases hindices with ⟨hreads, old, hold, -⟩ | hnone
      · exact sameOn_of_readsOld (touches_removeOldRow hsep hp _ _) (.inl ⟨hreads, hold⟩)
      · exact hnone.2 ▸ SameOn.refl _ _
    have hkeys : (keys.take m.rel.keysLen).length = m.rel.keysLen := length_take_of_le hlen
    have hchecked : (checkExists && !(s.storeTx.get (rowKey m.rel.toIndexRelation keys)).isSome) =
      false := by
      simp only [RowStep.run, Engine.removeRow, htemp, bind_eq_ok, attempt_eq_ok,
        bailIf_eq_ok, existsIn_false_eq_ok,
        encodeKeyForStore_eq_ok, hextract, Except.ok.injEq] at h
      obtain ⟨_, _, ⟨rfl, rfl⟩, _, _, ⟨⟨-, rfl⟩, rfl⟩, _, _, ⟨rfl, rfl⟩, _, _, ⟨hexists, -⟩, -⟩ := h
      exact hexists
    rw [rowKey, hT.get_key _ hkeys, Option.isSome_map, Option.not_isSome] at hchecked
    simp only [RowStep.apply, hextract, Except.toOption, Option.bind_eq_bind, Option.bind_some]
    refine hT.write hkeys none (by rw [hchecked]; rfl) fun k hk => ?_
    rw [hdel, hsame k hk]
    rfl

/-- **A run of rounds does to the relation what the rounds say.** If the store holds a table for the
relation, no round of a run that succeeds is refused by the table, and in the end the store holds
the table that the rounds lead to. -/
theorem runSteps_table {steps : List RowStep} (h : RowStep.runAll E m steps s = .ok () s') :
    ∃ T', steps.foldlM (RowStep.apply E m) T = some T' ∧
    Represents E.toSerde m.rel.toIndexRelation T' s' := by
  induction steps generalizing s T with
  | nil =>
    obtain ⟨-, rfl⟩ := pure_eq_ok.1 h
    exact ⟨T, rfl, hT⟩
  | cons step rest ih =>
    obtain ⟨c, s₁, hstep, hrest⟩ := bind_eq_ok.1 h
    obtain ⟨T₁, happly, hT₁⟩ := represents_of_step htemp hsep hp hT hstep
    obtain ⟨T', hrun, hend⟩ := ih hT₁ hrest
    exact ⟨T', by rw [foldlM_cons, happly]; exact hrun, hend⟩

end Steps

/-- A mutation of a relation with one key column and no values. -/
def keyMutation : Engine.Mutation := ⟨newHandle "r" ⟨1, RelationId.one_le⟩, ⟨[], [], []⟩, false, 0⟩

def insertDelete : List RowStep :=
  [.put [.index 0 (.mk .int false)] true [.int 1], .remove [.index 0 (.mk .int false)] true [.int 1]]

def freshSession : SessionTx := ⟨.transactWrite ∅, ∅, 0, 0, ⟨∅, ∅⟩, []⟩

theorem represents_freshSession (rel : IndexRelation) :
    Represents codec rel (fun _ => none) freshSession :=
  ⟨fun _ _ => rfl, fun _ _ h => absurd rfl h⟩

theorem insertDelete_table : ∃ T' s',
    RowStep.runAll plainEngine keyMutation insertDelete freshSession = .ok () s' ∧
    insertDelete.foldlM (RowStep.apply plainEngine keyMutation) (fun _ => none) = some T' ∧
    Represents codec keyMutation.rel.toIndexRelation T' s' := by
  have hsome : isFailure (RowStep.runAll plainEngine keyMutation insertDelete freshSession) =
    false := by decide +kernel
  cases hrun : RowStep.runAll plainEngine keyMutation insertDelete freshSession with
  | error e s' =>
    rw [hrun] at hsome
    cases hsome
  | ok u s' =>
    obtain ⟨T', happly, hT'⟩ := runSteps_table (m := keyMutation) rfl (fun _ h => absurd h not_mem_nil)
      ⟨fun _ h => absurd h not_mem_nil, fun _ h => absurd h not_mem_nil, fun _ h =>
        absurd h not_mem_nil⟩ (represents_freshSession _) hrun
    exact ⟨T', s', rfl, happly, hT'⟩

end Session

end Retia
