import Mathlib
import Retia.Query.Eval

/-!
# The stores that an evaluation leaves

Whatever the rules of a program are and whether there is a limit or not: the store of a rule set has
the form that its aggregations ask for (`StoreOf`), the groups of a meet store are keyed by as many
columns as the head has before its aggregations, and the delta view of a store shows only rows that
the total view shows with the same values. So range reads of stores find what they should, and a
rule that reads a delta sees nothing that is not there (`SaneStores`).

* `runEpoch_spec` — what one epoch does to the stores: each is merged with the contribution of its
  rule set;
* `evaluateStrata_sane` — the stores are sane after any number of strata.
-/

namespace Retia

open Std List

variable {X : Type} [Ord X] [TransOrd X] [LawfulEqOrd X]

/-! ### Meet stores -/

namespace MeetAggrStore

/-- The store with the values `v` for one group. -/
def withGroup (s : MeetAggrStore X) (key v : Tuple X) : MeetAggrStore X :=
  { s with inner := s.inner.insert key v }

/-- The groups are keyed by `g` columns. -/
def Keyed (g : Nat) (s : MeetAggrStore X) : Prop :=
  s.groupingLen = g ∧ ∀ key ∈ s.inner, key.length = g

variable {acc acc' : MeetAggrStore X × MeetAggrStore X} {ops : List (MeetAggrObj X)}
    {s : MeetAggrStore X} {g : Nat} {changed : Bool}
  {t : Tuple X}

theorem Keyed.insert (h : s.Keyed g) {key : Tuple X} (hkey : key.length = g)
    (v : Tuple X) : Keyed g (s.withGroup key v) := by
  refine ⟨h.1, fun key' hmem => ?_⟩
  rw [withGroup, ExtTreeMap.mem_insert, LawfulEqCmp.compare_eq_iff_eq] at hmem
  rcases hmem with rfl | hmem
  · exact hkey
  · exact h.2 key' hmem

theorem meetPut_eq_ok {s s' : MeetAggrStore X} {changed : Bool}
    (h : s.meetPut t = .ok (s', changed)) :
    s.groupingLen ≤ t.length ∧ ∃ v, s' = s.withGroup (t.take s.groupingLen) v ∧
      ((s.inner[t.take s.groupingLen]? = none ∧ v = t.drop s.groupingLen) ∨
      ∃ prev, s.inner[t.take s.groupingLen]? = some prev ∧
          updateAll s.aggregations prev (t.drop s.groupingLen) = .ok (v, changed)) := by
  rw [meetPut] at h
  split at h
  · simp at h
  · rename_i hlen
    refine ⟨Nat.le_of_not_lt hlen, ?_⟩
    cases hprev : s.inner[t.take s.groupingLen]? with
    | none =>
      simp only [hprev] at h
      obtain ⟨rfl, rfl⟩ := Prod.mk.inj (Except.ok.inj h)
      exact ⟨_, rfl, .inl ⟨rfl, rfl⟩⟩
    | some prev =>
      simp only [hprev] at h
      obtain ⟨⟨v, changed'⟩, hu, hret⟩ := bind_ok.1 h
      obtain ⟨rfl, rfl⟩ := Prod.mk.inj (Except.ok.inj hret)
      exact ⟨v, rfl, .inr ⟨prev, rfl, hu⟩⟩

theorem Keyed.meetPut {s s' : MeetAggrStore X} (hs : s.Keyed g)
    (h : s.meetPut t = .ok (s', changed)) : s'.Keyed g ∧ s'.aggregations = s.aggregations := by
  obtain ⟨hlen, v, rfl, -⟩ := meetPut_eq_ok h
  refine ⟨hs.insert ?_ v, rfl⟩
  rw [length_take, hs.1] at *
  exact Nat.min_eq_left hlen

/-- Stores of one shape: aggregations `ops`, keys of `g` columns. -/
def HasShape (ops : List (MeetAggrObj X)) (g : Nat) (s : MeetAggrStore X) : Prop :=
  s.aggregations = ops ∧ s.Keyed g

theorem HasShape.meetPut {s s' : MeetAggrStore X} (hs : s.HasShape ops g)
    (h : s.meetPut t = .ok (s', changed)) : s'.HasShape ops g :=
  ⟨(hs.2.meetPut h).2.trans hs.1, (hs.2.meetPut h).1⟩

theorem hasShape_new {aggrs : List (Option (Aggregation X × List (DataValue X)))}
    (h : MeetAggrStore.new aggrs = .ok s) :
    ∃ ops, initOps aggrs = .ok ops ∧ s.HasShape ops (aggrs.length - ops.length) ∧ s.inner = ∅ := by
  obtain ⟨ops, hops, hret⟩ := bind_ok.1 h
  cases hret
  exact ⟨ops, hops, ⟨rfl, rfl, fun key hmem => absurd hmem ExtTreeMap.not_mem_empty⟩, rfl⟩

theorem mergeEntry_eq_ok {e : Tuple X × Tuple X} (h : mergeEntry acc e = .ok acc') :
    ∃ v, acc'.1 = acc.1.withGroup e.1 v ∧
      ((acc.1.inner[e.1]? = none ∧ v = e.2 ∧ acc'.2 = acc.2.withGroup e.1 v) ∨
      ∃ target changed, acc.1.inner[e.1]? = some target ∧
          updateAll acc.1.aggregations target e.2 = .ok (v, changed) ∧
          acc'.2 = if changed then acc.2.withGroup e.1 v else acc.2) := by
  rw [mergeEntry] at h
  cases htarget : acc.1.inner[e.1]? with
  | none =>
    simp only [htarget] at h
    cases h
    exact ⟨e.2, rfl, .inl ⟨rfl, rfl, rfl⟩⟩
  | some target =>
    simp only [htarget] at h
    obtain ⟨⟨v, changed⟩, hu, hret⟩ := bind_ok.1 h
    cases hret
    exact ⟨v, rfl, .inr ⟨target, changed, rfl, hu, rfl⟩⟩

structure MergeShape (ops : List (MeetAggrObj X)) (g : Nat)
    (acc : MeetAggrStore X × MeetAggrStore X) : Prop where
  store : acc.1.HasShape ops g
  delta : acc.2.Keyed g
  /-- The delta shows groups of the store with their values. -/
  delta_le : ∀ key v : Tuple X, acc.2.inner[key]? = some v → acc.1.inner[key]? = some v

theorem getElem?_withGroup {key key' v : Tuple X} :
    (s.withGroup key v).inner[key']? = if key = key' then some v else s.inner[key']? := by
  rw [withGroup, ExtTreeMap.getElem?_insert]
  simp only [LawfulEqCmp.compare_eq_iff_eq]

/-- What a merge makes of a group: its value in the store, and its value in the delta view. -/
def mergedGroup (ops : List (MeetAggrObj X)) : Option (Tuple X) → Option (Tuple X) →
    Except (EvalError X) (Option (Tuple X) × Option (Tuple X))
  | old, none => .ok (old, none)
  | none, some v => .ok (some v, some v)
  | some old, some v => do
    let (aggr, changed) ← updateAll ops old v
    return (some aggr, if changed then some aggr else none)

omit [Ord X] [TransOrd X] [LawfulEqOrd X] in
theorem mergedGroup_le {old new total delta : Option (Tuple X)}
    (h : mergedGroup ops old new = .ok (total, delta)) (hv : delta = some t) : total = some t := by
  match old, new with
  | old, none =>
    rw [mergedGroup] at h
    cases h
    cases hv
  | none, some v =>
    cases h
    exact hv
  | some old, some v =>
    obtain ⟨⟨aggr, changed⟩, -, hret⟩ := bind_ok.1 h
    cases hret
    cases changed with
    | true => exact hv
    | false => cases hv

omit [Ord X] [TransOrd X] [LawfulEqOrd X] in
theorem mergedGroup_source {old new total delta : Option (Tuple X)}
    (h : mergedGroup ops old new = .ok (total, delta)) (hv : total = some t) :
    (∃ v, old = some v) ∨ ∃ v, new = some v := by
  match old, new with
  | some v, _ => exact .inl ⟨v, rfl⟩
  | _, some v => exact .inr ⟨v, rfl⟩
  | none, none =>
    cases h
    cases hv

theorem pairwise_toList_ne (m : ExtTreeMap (Tuple X) (Tuple X)) :
    m.toList.Pairwise fun a b => a.1 ≠ b.1 := by
  refine ExtTreeMap.distinct_keys_toList.imp ?_
  intro a b hne heq
  exact hne (LawfulEqCmp.compare_eq_iff_eq.2 heq)

theorem mem_of_getElem? {m : ExtTreeMap (Tuple X) (Tuple X)} {key v : Tuple X}
    (h : m[key]? = some v) : key ∈ m :=
  ExtTreeMap.mem_iff_isSome_getElem?.2 (by rw [h]; rfl)

theorem mergeEntry_group {e : Tuple X × Tuple X} (hfresh : acc.2.inner[e.1]? = none)
    (h : mergeEntry acc e = .ok acc') : acc'.1.aggregations = acc.1.aggregations ∧
    (∀ key : Tuple X, key ≠ e.1 → acc'.1.inner[key]? = acc.1.inner[key]? ∧
      acc'.2.inner[key]? = acc.2.inner[key]?) ∧
    mergedGroup acc.1.aggregations acc.1.inner[e.1]? (some e.2) =
    .ok (acc'.1.inner[e.1]?, acc'.2.inner[e.1]?) := by
  obtain ⟨v, hstore, ⟨hnone, rfl, hd⟩ | ⟨target, changed, htarget, hu, hd⟩⟩ := mergeEntry_eq_ok h
  · refine ⟨by rw [hstore]; rfl, fun key hne => ?_, ?_⟩
    · rw [hstore, hd, getElem?_withGroup, getElem?_withGroup, if_neg hne.symm, if_neg hne.symm]
      exact ⟨rfl, rfl⟩
    · rw [hstore, hd, getElem?_withGroup, getElem?_withGroup, if_pos rfl, if_pos rfl, hnone]
      rfl
  · have hgroup : ∀ key : Tuple X, acc'.2.inner[key]? = if changed = true ∧
      e.1 = key then some v else acc.2.inner[key]? := by
      intro key
      rw [hd]
      cases changed with
      | false => simp
      | true => simp only [if_true, getElem?_withGroup, true_and]
    refine ⟨by rw [hstore]; rfl, fun key hne => ?_, ?_⟩
    · rw [hgroup, hstore, getElem?_withGroup, if_neg hne.symm, if_neg fun h => hne h.2.symm]
      exact ⟨rfl, rfl⟩
    · rw [hgroup, hstore, getElem?_withGroup, if_pos rfl, htarget, mergedGroup, hu, hfresh]
      cases changed <;> simp

theorem mergeEntries_group {es : List (Tuple X × Tuple X)}
    (hdistinct : es.Pairwise fun a b => a.1 ≠ b.1)
    (hfresh : ∀ e ∈ es, acc.2.inner[e.1]? = none) (h : es.foldlM mergeEntry acc = .ok acc')
    (key : Tuple X) :
    (key ∉ es.map Prod.fst → acc'.1.inner[key]? = acc.1.inner[key]? ∧
      acc'.2.inner[key]? = acc.2.inner[key]?) ∧ ∀ v, (key, v) ∈ es →
      mergedGroup acc.1.aggregations acc.1.inner[key]? (some v) =
      .ok (acc'.1.inner[key]?, acc'.2.inner[key]?) := by
  induction es generalizing acc with
  | nil =>
    cases h
    exact ⟨fun _ => ⟨rfl, rfl⟩, fun v hv => absurd hv (by simp)⟩
  | cons e es ih =>
    rw [foldlM_cons] at h
    obtain ⟨acc₁, hentry, hrest⟩ := bind_ok.1 h
    obtain ⟨hne, hdistinct⟩ := pairwise_cons.1 hdistinct
    obtain ⟨hnew, hfresh⟩ := forall_mem_cons.1 hfresh
    obtain ⟨hops, hothers, hthis⟩ := mergeEntry_group hnew hentry
    have hih := ih hdistinct (fun e' he' => (hothers e'.1 (hne e' he').symm).2.trans (hfresh e' he')) hrest
    constructor
    · intro hkey
      rw [map_cons, mem_cons, not_or] at hkey
      obtain ⟨h₁, h₂⟩ := hih.1 hkey.2
      rw [h₁, h₂]
      exact hothers key hkey.1
    · intro v hv
      rcases mem_cons.1 hv with rfl | hv
      · -- the entries that follow have other keys
        obtain ⟨h₁, h₂⟩ := hih.1 fun hmem => by
          obtain ⟨e', he', heq⟩ := mem_map.1 hmem
          exact hne e' he' heq.symm
        rw [h₁, h₂]
        exact hthis
      · obtain ⟨h₁, -⟩ := hothers key fun heq => hne _ hv heq.symm
        rw [← hops, ← h₁]
        exact hih.2 v hv

variable {prev new d : MeetAggrStore X} {useTotal : Bool}

/-- **A merge of meet stores**, group by group. -/
theorem mergeIn_group {s s' : MeetAggrStore X} (h : s.mergeIn prev new = .ok (s', d, useTotal))
    (key : Tuple X) :
    mergedGroup s.aggregations s.inner[key]? new.inner[key]? =
    .ok (s'.inner[key]?, (if useTotal then s' else d).inner[key]?) := by
  have hempty : ∀ {m : ExtTreeMap (Tuple X) (Tuple X)}, m.isEmpty = true → m[key]? = none := by
    intro m hm
    rw [ExtTreeMap.isEmpty_iff.1 hm]
    exact ExtTreeMap.getElem?_empty
  rw [mergeIn] at h
  split at h
  · rename_i hnew
    cases h
    rw [hempty hnew]
    exact congrArg (fun o => Except.ok (s.inner[key]?, o)) ExtTreeMap.getElem?_empty.symm
  split at h
  · rename_i hs
    cases h
    rw [hempty hs, if_pos rfl]
    cases new.inner[key]? <;> rfl
  obtain ⟨⟨s₁, d₁⟩, hfold, hret⟩ := bind_ok.1 h
  cases hret
  obtain ⟨hothers, hmerged⟩ := mergeEntries_group (pairwise_toList_ne _)
    (fun _ _ => ExtTreeMap.getElem?_empty) hfold key
  cases hv : new.inner[key]? with
  | some v => exact hmerged v (ExtTreeMap.mem_toList_iff_getElem?_eq_some.2 hv)
  | none =>
    obtain ⟨h₁, h₂⟩ := hothers fun hmem => by
      obtain ⟨⟨k, v⟩, hkv, rfl⟩ := mem_map.1 hmem
      exact absurd (hv.symm.trans (ExtTreeMap.mem_toList_iff_getElem?_eq_some.1 hkv)) (by simp)
    rw [if_neg (by simp), h₁, h₂, ExtTreeMap.getElem?_empty]
    cases s.inner[key]? <;> rfl

theorem mergeIn_fields {s s' : MeetAggrStore X} (h : s.mergeIn prev new = .ok (s', d, useTotal)) :
    (s' = new ∨ s'.aggregations = s.aggregations ∧ s'.groupingLen = s.groupingLen) ∧
    d.groupingLen = prev.groupingLen ∧ (useTotal = true → d.inner = ∅) := by
  rw [mergeIn] at h
  split at h
  · cases h
    exact ⟨.inr ⟨rfl, rfl⟩, rfl, fun _ => rfl⟩
  split at h
  · cases h
    exact ⟨.inl rfl, rfl, fun _ => rfl⟩
  obtain ⟨⟨s₁, d₁⟩, hfold, hret⟩ := bind_ok.1 h
  cases hret
  have hkept := foldlM_induction
    (P := fun acc : MeetAggrStore X × MeetAggrStore X => acc.1.aggregations = s.aggregations ∧
      acc.1.groupingLen = s.groupingLen ∧
        acc.2.groupingLen = prev.groupingLen) (fun {acc e acc'} hacc hstep => by
    obtain ⟨v, hs, ⟨-, -, hd⟩ | ⟨target, changed, -, -, hd⟩⟩ := mergeEntry_eq_ok hstep
    · rw [hs, hd]
      exact hacc
    · rw [hs, hd]
      refine ⟨hacc.1, hacc.2.1, ?_⟩
      split <;> exact hacc.2.2) ⟨rfl, rfl, rfl⟩ hfold
  exact ⟨.inr ⟨hkept.1, hkept.2.1⟩, hkept.2.2, by simp⟩

theorem mergeIn_shape {s s' : MeetAggrStore X} (hs : s.HasShape ops g)
    (hprev : prev.groupingLen = g)
    (hnew : new.HasShape ops g) (h : s.mergeIn prev new = .ok (s', d, useTotal)) :
    MergeShape ops g (s', d) := by
  obtain ⟨hfields, hlen, hempty⟩ := mergeIn_fields h
  have hdelta : ∀ key v : Tuple X, d.inner[key]? = some v → s'.inner[key]? = some v := by
    intro key v hv
    have hgroup := mergeIn_group h key
    cases useTotal with
    | true => simp [hempty rfl] at hv
    | false => exact mergedGroup_le hgroup hv
  have hkeys : ∀ key ∈ s'.inner, key.length = g := by
    intro key hkey
    obtain ⟨v, hv⟩ := Option.isSome_iff_exists.1 (ExtTreeMap.mem_iff_isSome_getElem?.1 hkey)
    rcases mergedGroup_source (mergeIn_group h key) hv with ⟨w, hw⟩ | ⟨w, hw⟩
    · exact hs.2.2 key (mem_of_getElem? hw)
    · exact hnew.2.2 key (mem_of_getElem? hw)
  refine ⟨⟨?_, ?_, hkeys⟩, ⟨hlen.trans hprev, fun key hkey => ?_⟩, hdelta⟩
  · exact hfields.elim (fun heq => heq ▸ hnew.1) fun heq => heq.1.trans hs.1
  · exact hfields.elim (fun heq => heq ▸ hnew.2.1) fun heq => heq.2.trans hs.2.1
  · obtain ⟨v, hv⟩ := Option.isSome_iff_exists.1 (ExtTreeMap.mem_iff_isSome_getElem?.1 hkey)
    exact hkeys key (mem_of_getElem? (hdelta key v hv))

end MeetAggrStore

open MeetAggrStore

/-! ### The form of a store -/

def NormalStore (s : EpochStore X) : Prop := s.IsNormal ∧ ∀ t, s.DeltaRow t → s.TotalRow t

structure MeetStore (aggrs : List (Option (Aggregation X × List (DataValue X))))
    (ops : List (MeetAggrObj X)) (s : EpochStore X) (m d : MeetAggrStore X) : Prop where
  initOps_eq : initOps aggrs = .ok ops
  total_eq : s.total = .meetAggr m
  delta_eq : s.delta = .meetAggr d
  shape : MergeShape ops (aggrs.length - ops.length) (m, d)

def StoreOf (rs : CompiledRuleSet X) (s : EpochStore X) : Prop :=
  match rs with
  | .rules first _ =>
    if headAggrKind first.aggr = .meet then ∃ ops m d, MeetStore first.aggr ops s m d
    else NormalStore s
  | .fixed _ => NormalStore s

def ContributionOf (rs : CompiledRuleSet X) (new : TempStore X) : Prop :=
  match rs with
  | .rules first _ =>
    if headAggrKind first.aggr = .meet then ∃ ops m, initOps first.aggr = .ok ops ∧
      new = .meetAggr m ∧ m.HasShape ops (first.aggr.length - ops.length)
    else ∃ out, new = .normal out
  | .fixed _ => ∃ out, new = .normal out

theorem NormalStore.mergeIn {s s' : EpochStore X} (h : NormalStore s)
    {out : RegularTempStore X} (hmerge : s.mergeIn (.normal out) = .ok s') : NormalStore s' := by
  obtain ⟨s₁, hmerge₁, hnormal, htotal, hdelta⟩ := EpochStore.mergeIn_normal h.1 out
  obtain rfl := Except.ok.inj (hmerge.symm.trans hmerge₁)
  refine ⟨hnormal, fun t ht => ?_⟩
  rw [htotal]
  exact .inr ((hdelta t).1 ht).1

variable {m : MeetAggrStore X}

theorem EpochStore.mergeIn_meet {s s' : EpochStore X} {d new : MeetAggrStore X}
    (hm : s.total = .meetAggr m) (hd : s.delta = .meetAggr d)
    (h : s.mergeIn (.meetAggr new) = .ok s') :
    ∃ m' d' useTotal, m.mergeIn d new = .ok (m', d', useTotal) ∧ s'.total = .meetAggr m' ∧
      s'.delta = .meetAggr d' ∧ s'.useTotalForDelta = useTotal := by
  simp only [EpochStore.mergeIn, hm, hd] at h
  obtain ⟨⟨m', d', useTotal⟩, hmerge, hret⟩ := bind_ok.1 h
  cases hret
  exact ⟨m', d', useTotal, hmerge, rfl, rfl, rfl⟩

variable {stores stores' : Stores X} {prog : CompiledProgram X} {tx : SessionTx X}
    {rs : CompiledRuleSet X}
  {order : MagicSymbol → List MagicSymbol} {limiter limiter' : QueryLimiter}
    {ops : List (MeetAggrObj X)} {s : EpochStore X}

theorem StoreOf.mergeIn {s s' : EpochStore X} (hs : StoreOf rs s) {new : TempStore X}
    (hnew : ContributionOf rs new) (h : s.mergeIn new = .ok s') : StoreOf rs s' := by
  cases rs with
  | rules first rest =>
    by_cases hmeet : headAggrKind first.aggr = .meet
    · simp only [StoreOf, ContributionOf, if_pos hmeet] at hs hnew ⊢
      obtain ⟨ops, m, d, hst⟩ := hs
      obtain ⟨ops', new, hops', rfl, hshape⟩ := hnew
      obtain rfl := Except.ok.inj (hst.initOps_eq.symm.trans hops')
      obtain ⟨m', d', useTotal, hmerge, htotal, hdelta, -⟩ :=
        EpochStore.mergeIn_meet hst.total_eq hst.delta_eq h
      exact ⟨ops, m', d', hops', htotal, hdelta,
        MeetAggrStore.mergeIn_shape hst.shape.store hst.shape.delta.1 hshape hmerge⟩
    · simp only [StoreOf, ContributionOf, if_neg hmeet] at hs hnew ⊢
      obtain ⟨out, rfl⟩ := hnew
      exact hs.mergeIn h
  | fixed f =>
    obtain ⟨out, rfl⟩ := hnew
    exact NormalStore.mergeIn hs h

theorem MeetStore.row_iff {aggrs : List (Option (Aggregation X × List (DataValue X)))}
    {d : MeetAggrStore X}
    (h : MeetStore aggrs ops s m d) {t : Tuple X} :
    s.TotalRow t ↔ ∃ key v : Tuple X, m.inner[key]? = some v ∧ t = key ++ v := by
  rw [EpochStore.TotalRow, h.total_eq]
  rfl

theorem MeetStore.deltaStore_le {aggrs : List (Option (Aggregation X × List (DataValue X)))}
    {d : MeetAggrStore X}
    (h : MeetStore aggrs ops s m d) : ∃ e : MeetAggrStore X, s.deltaStore = .meetAggr e ∧
    e = (if s.useTotalForDelta then m else d) ∧
      ∀ key v : Tuple X, e.inner[key]? = some v → m.inner[key]? = some v := by
  rw [EpochStore.deltaStore]
  by_cases huse : s.useTotalForDelta = true
  · rw [if_pos huse, if_pos huse]
    exact ⟨m, h.total_eq, rfl, fun _ _ hv => hv⟩
  · rw [if_neg huse, if_neg huse]
    exact ⟨d, h.delta_eq, rfl, h.shape.delta_le⟩

theorem StoreOf.sane (h : StoreOf rs s) : s.WF ∧ ∀ t, s.DeltaRow t → s.TotalRow t := by
  have hnormal : NormalStore s → s.WF ∧ ∀ t, s.DeltaRow t → s.TotalRow t :=
    fun h => ⟨h.1.wf, h.2⟩
  cases rs with
  | rules first rest =>
    by_cases hmeet : headAggrKind first.aggr = .meet
    · simp only [StoreOf, if_pos hmeet] at h
      obtain ⟨ops, m, d, hst⟩ := h
      refine ⟨?_, fun t ht => ?_⟩
      · rw [EpochStore.WF, hst.total_eq, hst.delta_eq]
        refine ⟨fun key hkey => ?_, fun key hkey => ?_⟩
        · exact (hst.shape.store.2.2 key hkey).trans hst.shape.store.2.1.symm
        · exact (hst.shape.delta.2 key hkey).trans hst.shape.delta.1.symm
      · obtain ⟨e, he, -, hle⟩ := hst.deltaStore_le
        rw [EpochStore.DeltaRow, he] at ht
        obtain ⟨key, v, hv, rfl⟩ := ht
        exact hst.row_iff.2 ⟨key, v, hle key v hv, rfl⟩
    · simp only [StoreOf, if_neg hmeet] at h
      exact hnormal h
  | fixed f => exact hnormal h

theorem newStore_storeOf (h : newStore rs = .ok s) : StoreOf rs s := by
  have hnormal : ∀ arity, NormalStore (EpochStore.newNormal arity : EpochStore X) :=
    fun arity => ⟨EpochStore.newNormal_isNormal arity, fun t ht => ht⟩
  cases rs with
  | rules first rest =>
    by_cases hmeet : headAggrKind first.aggr = .meet
    · simp only [newStore, CompiledRuleSet.aggrKind, hmeet, EpochStore.newMeet] at h
      simp only [StoreOf, if_pos hmeet]
      obtain ⟨m, hm, h₁⟩ := bind_ok.1 h
      obtain ⟨d, hd, hret⟩ := bind_ok.1 h₁
      cases hret
      obtain ⟨ops, hops, hshape, hinner⟩ := MeetAggrStore.hasShape_new hm
      obtain rfl := Except.ok.inj (hm.symm.trans hd)
      exact ⟨ops, m, m, hops, rfl, rfl, hshape, hshape.2, fun _ _ hv => hv⟩
    · simp only [StoreOf, if_neg hmeet]
      unfold newStore at h
      split at h
      · exact absurd ‹_› hmeet
      · exact absurd ‹_› hmeet
      · cases h
        exact hnormal _
  | fixed f =>
    cases h
    exact hnormal _

/-! ### Contributions -/

variable {out : MeetAggrStore X}

theorem meetItems_shape {g : Nat} {items : TupleIter X}
    {out' : MeetAggrStore X} (hout : out.HasShape ops g) (h : meetItems items out = .ok out') :
    out'.HasShape ops g := by
  refine foldlM_induction (P := fun out : MeetAggrStore X => out.HasShape ops g) ?_ hout h
  intro out item out' hout hstep
  obtain ⟨t, -, h₁⟩ := bind_ok.1 hstep
  obtain ⟨⟨out₁, changed⟩, hput, hret⟩ := bind_ok.1 h₁
  cases hret
  exact hout.meetPut hput

theorem initialRuleMeetEval_shape {first : CompiledRule X} {rest : List (CompiledRule X)}
    {stores : Stores X}
    (h : initialRuleMeetEval tx first rest stores = .ok out) :
    ∃ ops, initOps first.aggr = .ok ops ∧ out.HasShape ops (first.aggr.length - ops.length) := by
  obtain ⟨out₀, hnew, h₁⟩ := bind_ok.1 h
  obtain ⟨out₁, hfold, h₂⟩ := bind_ok.1 h₁
  obtain ⟨ops, hops, hshape, -⟩ := hasShape_new hnew
  have hshape₁ : out₁.HasShape ops (first.aggr.length - ops.length) := by
    refine foldlM_induction (P := fun out : MeetAggrStore X => out.HasShape ops _) ?_ hshape hfold
    intro out rule out' hout hstep
    obtain ⟨_, -, hstep₁⟩ := bind_ok.1 hstep
    obtain ⟨items, -, hitems⟩ := bind_ok.1 hstep₁
    exact meetItems_shape hout hitems
  refine ⟨ops, hops, ?_⟩
  -- the row of no rows, for a head of aggregations only
  split at h₂
  · obtain ⟨_, -, h₃⟩ := bind_ok.1 h₂
    obtain ⟨⟨out₂, changed⟩, hput, hret⟩ := bind_ok.1 h₃
    cases hret
    exact hshape₁.meetPut hput
  · cases h₂
    exact hshape₁

theorem incrementalRuleMeetEval_shape {first : CompiledRule X} {rest : List (CompiledRule X)}
    {stores : Stores X} {order : List MagicSymbol}
    (h : incrementalRuleMeetEval tx first rest stores order = .ok out) :
    ∃ ops, initOps first.aggr = .ok ops ∧ out.HasShape ops (first.aggr.length - ops.length) := by
  obtain ⟨out₀, hnew, hfold⟩ := bind_ok.1 h
  obtain ⟨ops, hops, hshape, -⟩ := hasShape_new hnew
  refine ⟨ops, hops, ?_⟩
  refine foldlM_induction (P := fun out : MeetAggrStore X => out.HasShape ops _) ?_ hshape hfold
  intro out rule out' hout hstep
  obtain ⟨runs, -, hstep₁⟩ := bind_ok.1 hstep
  split at hstep₁
  · cases hstep₁
    exact hout
  · obtain ⟨_, -, hruns⟩ := bind_ok.1 hstep₁
    refine foldlM_induction (P := fun out : MeetAggrStore X => out.HasShape ops _) ?_ hout hruns
    intro out deltaRule out' hout hrun
    obtain ⟨items, -, hitems⟩ := bind_ok.1 hrun
    exact meetItems_shape hout hitems

theorem initialEval_contributionOf {stores : Stores X} {k : MagicSymbol}
    {limiter : QueryLimiter} {c : Contribution X}
    (h : initialEval tx stores k rs limiter = .ok c) : ContributionOf rs c.2.1 := by
  cases rs with
  | rules first rest =>
    simp only [initialEval, CompiledRuleSet.aggrKind] at h
    rw [ContributionOf]
    cases haggr : headAggrKind first.aggr with
    | none | normal =>
      rw [haggr] at h
      obtain ⟨⟨_, out, _⟩, -, hret⟩ := bind_ok.1 h
      cases hret
      exact ⟨out, rfl⟩
    | meet =>
      rw [haggr] at h
      obtain ⟨out, hout, hret⟩ := bind_ok.1 h
      cases hret
      obtain ⟨ops, hops, hshape⟩ := initialRuleMeetEval_shape hout
      exact ⟨ops, out, hops, rfl, hshape⟩
  | fixed f =>
    obtain ⟨out, -, hret⟩ := bind_ok.1 h
    cases hret
    exact ⟨out, rfl⟩

theorem incrementalEval_contributionOf {stores : Stores X} {k : MagicSymbol}
    {limiter : QueryLimiter} {c : Contribution X}
    (h : incrementalEval tx stores order k rs limiter = .ok c) : ContributionOf rs c.2.1 := by
  cases rs with
  | rules first rest =>
    simp only [incrementalEval, CompiledRuleSet.aggrKind] at h
    rw [ContributionOf]
    cases haggr : headAggrKind first.aggr with
    | none =>
      rw [haggr] at h
      obtain ⟨⟨_, out, _⟩, -, hret⟩ := bind_ok.1 h
      cases hret
      exact ⟨out, rfl⟩
    | normal =>
      rw [haggr] at h
      cases h
      exact ⟨_, rfl⟩
    | meet =>
      rw [haggr] at h
      obtain ⟨out, hout, hret⟩ := bind_ok.1 h
      cases hret
      obtain ⟨ops, hops, hshape⟩ := incrementalRuleMeetEval_shape hout
      exact ⟨ops, out, hops, rfl, hshape⟩
  | fixed f =>
    cases h
    exact ⟨_, rfl⟩

/-! ### Epochs -/

namespace CompiledProgram

def symbols (prog : CompiledProgram X) : List MagicSymbol := prog.ruleSets.map Prod.fst

theorem mem_symbols {prog : CompiledProgram X} {k : MagicSymbol} :
    k ∈ prog.symbols ↔ ∃ rs, (k, rs) ∈ prog.ruleSets := by
  rw [symbols, mem_map]
  exact ⟨fun ⟨⟨_, rs⟩, he, hk⟩ => ⟨rs, hk ▸ he⟩, fun ⟨rs, he⟩ => ⟨(k, rs), he, rfl⟩⟩

end CompiledProgram

variable {used : Bool} {ruleSets : List (MagicSymbol × CompiledRuleSet X)}
    {toMerge : List (MagicSymbol × TempStore X)}

theorem executeAll_forall₂ {execution : MagicSymbol → CompiledRuleSet X →
      QueryLimiter → Except (EvalError X) (Contribution X)}
    (h : executeAll execution ruleSets limiter = .ok (toMerge, limiter', used)) :
    List.Forall₂ (fun e m => e.1 = m.1 ∧ ∃ l c, execution e.1 e.2 l = .ok c ∧
      c.2.1 = m.2) ruleSets toMerge := by
  induction ruleSets generalizing limiter toMerge limiter' used with
  | nil =>
    obtain ⟨rfl, -⟩ : [] = toMerge ∧ _ := by simpa [executeAll] using h
    exact .nil
  | cons e ruleSets ih =>
    obtain ⟨k, rs⟩ := e
    rw [executeAll] at h
    obtain ⟨⟨used₁, store, limiter₁⟩, hrun, hrest⟩ := bind_ok.1 h
    obtain ⟨⟨toMerge₂, limiter₂, used₂⟩, hall, hret⟩ := bind_ok.1 hrest
    obtain ⟨rfl, -⟩ : (k, store) :: toMerge₂ = toMerge ∧ _ := by simpa using Except.ok.inj hret
    exact .cons ⟨rfl, limiter, _, hrun, rfl⟩ (ih hall)

/-- The merges of an epoch: each store is merged with its contribution, the others stay; and when
nothing has changed no store has a delta. -/
theorem mergeAll_spec (hnodup : (toMerge.map Prod.fst).Nodup) {changed : Bool}
    (h : mergeAll toMerge stores = .ok (stores', changed)) :
    (∀ k ∉ toMerge.map Prod.fst, stores' k = stores k) ∧ ∀ k new, (k, new) ∈ toMerge →
    ∃ s s', stores k = some s ∧ s.mergeIn new = .ok s' ∧
      stores' k = some s' ∧ (changed = false → s'.hasDelta = false) := by
  induction toMerge generalizing stores changed with
  | nil =>
    obtain ⟨rfl, -⟩ : stores = stores' ∧ false = changed := by simpa [mergeAll] using h
    simp
  | cons e toMerge ih =>
    obtain ⟨k, new⟩ := e
    rw [mergeAll] at h
    obtain ⟨old, hold, h₁⟩ := bind_ok.1 h
    obtain ⟨s, hs, h₂⟩ := bind_ok.1 h₁
    obtain ⟨⟨stores₂, changed₂⟩, hall, hret⟩ := bind_ok.1 h₂
    obtain ⟨rfl, rfl⟩ : stores₂ = stores' ∧ (s.hasDelta || changed₂) = changed := by
      simpa using Except.ok.inj hret
    rw [map_cons, nodup_cons] at hnodup
    obtain ⟨hframe, hmerged⟩ := ih hnodup.2 hall
    rw [Stores.unwrap_eq_ok] at hold
    have hk : stores₂ k = some s := by rw [hframe k hnodup.1, Function.update_self]
    refine ⟨fun k' hk' => ?_, fun k' new' hmem => ?_⟩
    · rw [map_cons, mem_cons, not_or] at hk'
      rw [hframe k' hk'.2, Function.update_of_ne hk'.1]
    · rcases mem_cons.1 hmem with heq | hrest
      · obtain ⟨rfl, rfl⟩ := Prod.mk.inj heq
        exact ⟨old, s, hold, hs, hk, fun hc => (Bool.or_eq_false_iff.1 hc).1⟩
      · obtain ⟨s₀, s', hs₀, hs', hk', hc'⟩ := hmerged k' new' hrest
        have hne : k' ≠ k := by
          rintro rfl
          exact hnodup.1 (mem_map.2 ⟨_, hrest, rfl⟩)
        rw [Function.update_of_ne hne] at hs₀
        exact ⟨s₀, s', hs₀, hs', hk', fun hc => hc' (Bool.or_eq_false_iff.1 hc).2⟩

theorem executionOrder_perm (prog : CompiledProgram X) (limiterEnabled : Bool) :
    (executionOrder prog limiterEnabled).Perm prog.ruleSets :=
  filter_append_perm _ _

/-- **One epoch**: the stores of the other strata stay, and each store of the stratum is merged with
the contribution of its rule set. When nothing has changed no store has a delta. -/
theorem runEpoch_spec {epoch : Nat} {stores stores' : Stores X} {changed : Bool}
    (h : runEpoch tx prog epoch order stores limiter = .ok (stores', changed, limiter', used)) :
    (∀ k ∉ prog.symbols, stores' k = stores k) ∧ ∀ k rs, (k, rs) ∈ prog.ruleSets → ∃ s s' l c,
      (if epoch = 0 then initialEval tx stores else incrementalEval tx stores order) k rs l =
      .ok c ∧
      stores k = some s ∧ s.mergeIn c.2.1 = .ok s' ∧ stores' k = some s' ∧
      (changed = false → s'.hasDelta = false) := by
  rw [runEpoch] at h
  obtain ⟨⟨toMerge, limiter₁, used₁⟩, hexec, h₁⟩ := bind_ok.1 h
  obtain ⟨⟨stores₁, changed₁⟩, hmerge, hret⟩ := bind_ok.1 h₁
  obtain ⟨rfl, rfl, -⟩ : stores₁ = stores' ∧ changed₁ = changed ∧ _ := by
    simpa using Except.ok.inj hret
  have hcontrib := executeAll_forall₂ hexec
  have hperm := executionOrder_perm prog limiter.total.isSome
  -- the contributions are for the rules of the stratum, in the order of execution
  have hkeys : toMerge.map Prod.fst =
      (executionOrder prog limiter.total.isSome).map Prod.fst := by
    rw [← forall₂_eq_eq_eq, forall₂_map_left_iff, forall₂_map_right_iff]
    exact hcontrib.flip.imp fun _ _ h => h.1.symm
  have hsymbols : ∀ k, k ∈ toMerge.map Prod.fst ↔ k ∈ prog.symbols := fun k => by
    rw [hkeys]
    exact (hperm.map Prod.fst).mem_iff
  have hnodup : (toMerge.map Prod.fst).Nodup := by
    rw [hkeys, (hperm.map Prod.fst).nodup_iff]
    exact prog.nodup
  obtain ⟨hframe, hmerged⟩ := mergeAll_spec hnodup hmerge
  refine ⟨fun k hk => hframe k (mt (hsymbols k).1 hk), fun k rs hmem => ?_⟩
  obtain ⟨⟨_, new⟩, hnew, rfl, l, c, hrun, rfl⟩ := exists_of_forall₂ hcontrib (hperm.mem_iff.2 hmem)
  obtain ⟨s, s', hs, hm, hs', hc⟩ := hmerged k _ hnew
  exact ⟨s, s', l, c, hrun, hs, hm, hs', hc⟩

def StoresOf (prog : CompiledProgram X) (stores : Stores X) : Prop :=
  ∀ k rs, (k, rs) ∈ prog.ruleSets → ∃ s, stores k = some s ∧ StoreOf rs s

theorem StoresOf.runEpoch {epoch : Nat} {stores stores' : Stores X} {changed : Bool}
    (hst : StoresOf prog stores)
    (h : runEpoch tx prog epoch order stores limiter = .ok (stores', changed, limiter', used)) :
    StoresOf prog stores' := by
  intro k rs hmem
  obtain ⟨s, s', l, c, hrun, hs, hmerge, hs', -⟩ := (runEpoch_spec h).2 k rs hmem
  obtain ⟨s₁, hs₁, hof⟩ := hst k rs hmem
  obtain rfl := Option.some.inj (hs.symm.trans hs₁)
  have hnew : ContributionOf rs c.2.1 := by
    by_cases hzero : epoch = 0
    · rw [if_pos hzero] at hrun
      exact initialEval_contributionOf hrun
    · rw [if_neg hzero] at hrun
      exact incrementalEval_contributionOf hrun
  exact ⟨s', hs', hof.mergeIn hnew hmerge⟩

theorem StoresOf.epochs {prog : CompiledProgram X} {order : Nat → MagicSymbol → List MagicSymbol}
    {fuel epoch : Nat}
    {limiter : QueryLimiter} (hst : StoresOf prog stores)
    (h : Retia.epochs tx prog order fuel epoch stores limiter = .ok (stores', used)) :
    StoresOf prog stores' ∧ ∀ k ∉ prog.symbols, stores' k = stores k := by
  induction fuel generalizing epoch stores limiter used with
  | zero => simp [Retia.epochs] at h
  | succ fuel ih =>
    rw [Retia.epochs] at h
    obtain ⟨⟨stores₁, changed, limiter₁, used₁⟩, hepoch, hrest⟩ := bind_ok.1 h
    have hst₁ := hst.runEpoch hepoch
    have hframe := (runEpoch_spec hepoch).1
    cases changed with
    | false =>
      obtain ⟨rfl, rfl⟩ : stores₁ = stores' ∧ used₁ = used := by simpa using Except.ok.inj hrest
      exact ⟨hst₁, hframe⟩
    | true =>
      obtain ⟨⟨stores₂, used₂⟩, hnext, hret⟩ := bind_ok.1 hrest
      obtain ⟨rfl, -⟩ : stores₂ = stores' ∧ _ := by simpa using Except.ok.inj hret
      obtain ⟨hst₂, hframe₂⟩ := ih hst₁ hnext
      exact ⟨hst₂, fun k hk => (hframe₂ k hk).trans (hframe k hk)⟩

/-! ### Strata -/

structure SaneStores (stores : Stores X) : Prop where
  wf : stores.WF
  delta_le : ∀ k s, stores k = some s → ∀ t, s.DeltaRow t → s.TotalRow t

theorem SaneStores.view_le {stores : Stores X} (h : SaneStores stores)
    (deltaRule : Option MagicSymbol) : view deltaRule stores ≤ view none stores := by
  rintro k t ⟨s, hs, hrow⟩
  refine ⟨s, hs, ?_⟩
  split at hrow
  · exact h.delta_le k s hs t hrow
  · exact hrow

theorem saneStores_empty : SaneStores (fun _ => none : Stores X) :=
  ⟨fun _ _ hs => absurd hs (by simp), fun _ _ hs => absurd hs (by simp)⟩

theorem SaneStores.of_storesOf {lower stores : Stores X} (hlower : SaneStores lower)
    (hst : StoresOf prog stores)
    (hframe : ∀ k ∉ prog.symbols, stores k = lower k) : SaneStores stores := by
  have hsane : ∀ k s, stores k = some s → s.WF ∧ ∀ t, s.DeltaRow t → s.TotalRow t := by
    intro k s hs
    by_cases hk : k ∈ prog.symbols
    · obtain ⟨rs, hmem⟩ := CompiledProgram.mem_symbols.1 hk
      obtain ⟨s', hs', hof⟩ := hst k rs hmem
      exact Option.some.inj (hs'.symm.trans hs) ▸ hof.sane
    · rw [hframe k hk] at hs
      exact ⟨hlower.wf k s hs, hlower.delta_le k s hs⟩
  exact ⟨fun k s hs => (hsane k s hs).1, fun k s hs => (hsane k s hs).2⟩

theorem insertStores_spec (hnodup : (ruleSets.map Prod.fst).Nodup)
    (h : insertStores ruleSets stores = .ok stores') :
    (∀ k ∉ ruleSets.map Prod.fst, stores' k = stores k) ∧ ∀ k rs, (k, rs) ∈ ruleSets →
    ∃ s, newStore rs = .ok s ∧ stores' k = some s := by
  induction ruleSets generalizing stores with
  | nil =>
    cases h
    simp
  | cons e ruleSets ih =>
    obtain ⟨k, rs⟩ := e
    rw [insertStores] at h
    obtain ⟨s, hs, hrest⟩ := bind_ok.1 h
    rw [map_cons, nodup_cons] at hnodup
    obtain ⟨hframe, hown⟩ := ih hnodup.2 hrest
    refine ⟨fun k' hk' => ?_, fun k' rs' hmem => ?_⟩
    · rw [map_cons, mem_cons, not_or] at hk'
      rw [hframe k' hk'.2, Function.update_of_ne hk'.1]
    · rcases mem_cons.1 hmem with heq | hmem
      · obtain ⟨rfl, rfl⟩ := Prod.mk.inj heq
        exact ⟨s, hs, by rw [hframe k' hnodup.1, Function.update_self]⟩
      · exact hown k' rs' hmem

theorem insertStores_storesOf {stores stores' : Stores X}
    (h : insertStores prog.ruleSets stores = .ok stores') :
    StoresOf prog stores' ∧ ∀ k ∉ prog.symbols, stores' k = stores k := by
  obtain ⟨hframe, hown⟩ := insertStores_spec prog.nodup h
  refine ⟨fun k rs hmem => ?_, hframe⟩
  obtain ⟨s, hs, hk⟩ := hown k rs hmem
  exact ⟨s, hk, newStore_storeOf hs⟩

section Strata

variable {tx : SessionTx X} {lifetimes : MagicSymbol → Option Nat} {totalNumToTake : Option Nat}
  {numToSkip : Option Nat} {order : Nat → Nat → MagicSymbol → List MagicSymbol} {fuel : Nat}

theorem liveStores_eq_or (stratum : Nat) (stores : Stores X) (k : MagicSymbol) :
    liveStores lifetimes stratum stores k = stores k ∨
      liveStores lifetimes stratum stores k = none := by
  rw [liveStores]
  split
  · rw [retain]
    split
    · exact .inl rfl
    · exact .inr rfl
  · exact .inl rfl

theorem SaneStores.live {stores : Stores X} (h : SaneStores stores) (stratum : Nat) :
    SaneStores (liveStores lifetimes stratum stores) := by
  have hlive : ∀ k s, liveStores lifetimes stratum stores k = some s → stores k = some s := by
    intro k s hs
    rcases liveStores_eq_or stratum stores k with heq | heq
    · exact heq.symm.trans hs
    · exact absurd (heq.symm.trans hs) (by simp)
  exact ⟨fun k s hs => h.wf k s (hlive k s hs), fun k s hs => h.delta_le k s (hlive k s hs)⟩

theorem evaluateStrata_append (pre post : List (CompiledProgram X)) (stratum : Nat)
    (stores : Stores X) (early : Bool) :
    evaluateStrata tx lifetimes totalNumToTake numToSkip order fuel
    (pre ++ post) stratum stores early = (do
        let (stores, early) ← evaluateStrata tx lifetimes totalNumToTake numToSkip order fuel pre
          stratum stores early
        evaluateStrata tx lifetimes totalNumToTake numToSkip order fuel post
          (stratum + pre.length) stores early) := by
  induction pre generalizing stratum stores early with
  | nil => rfl
  | cons prog pre ih =>
    simp only [cons_append, evaluateStrata, ih, bind_assoc, length_cons]
    simp only [Nat.add_right_comm _ 1, Nat.add_assoc]

/-- **What strata leave behind**: sane stores, in which the stores of other rules are untouched or
dropped. -/
theorem evaluateStrata_sane {strata : List (CompiledProgram X)} {stratum : Nat}
    {stores stores' : Stores X} {early early' : Bool} (hsane : SaneStores stores)
    (h : evaluateStrata tx lifetimes totalNumToTake numToSkip order fuel strata
      stratum stores early = .ok (stores', early')) :
    SaneStores stores' ∧ ∀ k, (∀ prog ∈ strata, k ∉ prog.symbols) →
    stores' k = stores k ∨ stores' k = none := by
  induction strata generalizing stratum stores early with
  | nil =>
    obtain ⟨rfl, rfl⟩ := Prod.mk.inj (Except.ok.inj h)
    exact ⟨hsane, fun _ _ => .inl rfl⟩
  | cons prog strata ih =>
    rw [evaluateStrata] at h
    obtain ⟨base, hinsert, h₁⟩ := bind_ok.1 h
    obtain ⟨⟨stores₁, early₁⟩, heval, hrest⟩ := bind_ok.1 h₁
    obtain ⟨hbase, hframe⟩ := insertStores_storesOf hinsert
    obtain ⟨hst₁, hframe₁⟩ := hbase.epochs heval
    have hframe₁ : ∀ k ∉ prog.symbols, stores₁ k = liveStores lifetimes stratum stores k :=
      fun k hk => (hframe₁ k hk).trans (hframe k hk)
    obtain ⟨hsane', hkept⟩ := ih ((hsane.live stratum).of_storesOf hst₁ hframe₁) hrest
    refine ⟨hsane', fun k hk => ?_⟩
    rw [forall_mem_cons] at hk
    rcases hkept k hk.2 with heq | heq
    · rw [heq, hframe₁ k hk.1]
      exact liveStores_eq_or stratum stores k
    · exact .inr heq

/-- The run of a program seen from one of its strata: the strata before it, the stores it starts on,
its epochs, and the strata after it. -/
theorem evaluateStrata_split {pre post : List (CompiledProgram X)}
    {prog : CompiledProgram X} {stores : Stores X} {early : Bool}
    (h : evaluateStrata tx lifetimes totalNumToTake numToSkip order fuel
      (pre ++ prog :: post) 0 (fun _ => none) false = .ok (stores, early)) :
    ∃ before base after early₁ early₂,
    evaluateStrata tx lifetimes totalNumToTake numToSkip order fuel pre 0 (fun _ => none) false =
        .ok (before, early₁) ∧ insertStores prog.ruleSets (liveStores lifetimes pre.length before) =
        .ok base ∧
      semiNaiveMagicEvaluate tx prog base totalNumToTake numToSkip (order pre.length) fuel =
      .ok (after, early₂) ∧
      evaluateStrata tx lifetimes totalNumToTake numToSkip order fuel
      (pre ++ [prog]) 0 (fun _ => none) false = .ok (after, early₂) ∧
      evaluateStrata tx lifetimes totalNumToTake numToSkip order fuel post
      (pre.length + 1) after early₂ = .ok (stores, early) := by
  rw [evaluateStrata_append, Nat.zero_add] at h
  obtain ⟨⟨before, early₁⟩, hbefore, hstratum⟩ := bind_ok.1 h
  simp only [evaluateStrata] at hstratum
  obtain ⟨base, hinsert, h₁⟩ := bind_ok.1 hstratum
  obtain ⟨⟨after, early₂⟩, heval, hlater⟩ := bind_ok.1 h₁
  refine ⟨before, base, after, early₁, early₂, hbefore, hinsert, heval, ?_, hlater⟩
  rw [evaluateStrata_append, hbefore, Nat.zero_add]
  simp only [evaluateStrata]
  refine bind_ok.2 ⟨(before, early₁), rfl, ?_⟩
  refine bind_ok.2 ⟨base, hinsert, ?_⟩
  exact bind_ok.2 ⟨(after, early₂), heval, rfl⟩

end Strata

end Retia
