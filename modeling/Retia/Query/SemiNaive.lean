import Mathlib
import Retia.Lib.Fixpoint
import Retia.Query.Sane

/-!
# Semi-naive evaluation computes the least fixpoint

One stratum of a program without meet aggregations and without a limit. What a rule set derives from
given rows is `naiveStep`; it is monotone in the rows of the stratum because anti-joins, normal
aggregations and fixed rules look only at lower strata (`PlainStratum`). The epochs of
`semiNaiveMagicEvaluate` are rounds of a delta iteration of it (`Retia.DeltaInv`): the earlier
knowledge is what the total views hold outside their delta views.

* a rule run once for every changed store it reads, through the delta view of that store, derives
  everything that does not follow from the earlier knowledge (`deltaRuns_complete`), by the split of
  `RelAlgebra.Produces.split`; a rule that reads a changed store twice is run completely;
* `semiNaiveMagicEvaluate_spec` — when the epochs end, the total views are the least fixpoint;
* `evaluateStrata_naive` — so they are in every stratum of a program, over the stores that the lower
  strata have left.
-/

namespace Retia

open RegularTempStore RelAlgebra EpochStore

open Std List

variable {X : Type} [Ord X] [TransOrd X] [LawfulEqOrd X]

/-! ### Runs that no limit stops -/

variable {limiter : QueryLimiter} {stores : Stores X} {toMerge : List (MagicSymbol × TempStore X)}
    {tx : SessionTx X}
  {rules : List (CompiledRule X)} {r : EvalOut X} {out : RegularTempStore X} {k : MagicSymbol}

/-- A run of `body` over a list, when no limit is in force: `Ok` holds of the elements that `body`
accepts, and `Q a` are the rows that it adds for `a`. -/
theorem untilStopped_adds {α : Type*}
    {body : α → RegularTempStore X → QueryLimiter → Except (EvalError X) (EvalOut X)}
    {Ok : α → Prop} {Q : α → Tuple X → Prop} {l : List α}
    (hbody : ∀ a ∈ l, ∀ out r, body a out limiter = .ok r →
      Ok a ∧ r.1 = false ∧ r.2.2 = limiter ∧ ∀ t, t ∈ r.2.1.inner ↔ t ∈ out.inner ∨ Q a t)
    {r : EvalOut X} (h : untilStopped body l out limiter = .ok r) :
    (∀ a ∈ l, Ok a) ∧ r.1 = false ∧ r.2.2 = limiter ∧ ∀ t, t ∈ r.2.1.inner ↔
    t ∈ out.inner ∨ ∃ a ∈ l, Q a t := by
  induction l generalizing out with
  | nil =>
    obtain rfl : (false, out, limiter) = r := Except.ok.inj h
    exact ⟨by simp, rfl, rfl, by simp⟩
  | cons a l ih =>
    rw [untilStopped] at h
    obtain ⟨⟨stopped, out', limiter'⟩, hrun, hrest⟩ := bind_ok.1 h
    obtain ⟨ha, hbody⟩ := forall_mem_cons.1 hbody
    obtain ⟨hok, rfl, rfl, hadds⟩ := ha out _ hrun
    obtain ⟨hoks, hstop, hlim, hall⟩ := ih hbody hrest
    refine ⟨forall_mem_cons.2 ⟨hok, hoks⟩, hstop, hlim, fun t => ?_⟩
    rw [hall, hadds, exists_mem_cons_iff, or_assoc]

theorem untilStopped_initialItem {it : TupleIter X} {r : EvalOut X}
    (h : untilStopped (initialItem false) it out limiter = .ok r) :
    it.NoError ∧ r.1 = false ∧ r.2.2 = limiter ∧ ∀ t, t ∈ r.2.1.inner ↔
    t ∈ out.inner ∨ .ok t ∈ it := by
  have hitem : ∀ item out r, initialItem false item out limiter = .ok r →
      (∃ t : Tuple X, item = .ok t) ∧ r.1 = false ∧ r.2.2 = limiter ∧
        ∀ t, t ∈ r.2.1.inner ↔ t ∈ out.inner ∨ item = .ok t := by
    intro item out r hr
    obtain ⟨t, rfl, hr⟩ := bind_ok.1 hr
    cases hr
    refine ⟨⟨t, rfl⟩, rfl, rfl, fun t' => ?_⟩
    rw [mem_put, or_comm, Except.ok.injEq, eq_comm]
  obtain ⟨hoks, hstop, hlim, hall⟩ := untilStopped_adds (fun item _ => hitem item) h
  refine ⟨fun e he => ?_, hstop, hlim, fun t => ?_⟩
  · obtain ⟨t, ht⟩ := hoks _ he
    exact absurd ht (by simp)
  · rw [hall]
    simp

theorem untilStopped_incrementalItem {prevStore : EpochStore X} (hprev : prevStore.IsNormal)
    {it : TupleIter X} {r : EvalOut X}
    (h : untilStopped (incrementalItem false prevStore) it out limiter = .ok r) :
    it.NoError ∧ r.1 = false ∧ r.2.2 = limiter ∧ ∀ t, t ∈ r.2.1.inner ↔
    t ∈ out.inner ∨ .ok t ∈ it ∧ ¬ prevStore.TotalRow t := by
  have hitem : ∀ item out r, incrementalItem false prevStore item out limiter = .ok r →
      (∃ t : Tuple X, item = .ok t) ∧ r.1 = false ∧ r.2.2 = limiter ∧
        ∀ t, t ∈ r.2.1.inner ↔ t ∈ out.inner ∨ item = .ok t ∧ ¬ prevStore.TotalRow t := by
    intro item out r hr
    obtain ⟨t, rfl, hput⟩ := bind_ok.1 hr
    clear hr
    obtain ⟨seen, hseen, hiff⟩ := prevStore.exists_iff hprev t
    rw [hseen] at hput
    have hr : (if seen = true then Except.ok (false, out, limiter)
      else Except.ok (false, limiter.put out t, limiter)) = .ok r := hput
    refine ⟨⟨t, rfl⟩, ?_⟩
    by_cases hs : seen = true
    · -- a row that is already stored is not put
      rw [if_pos hs] at hr
      cases hr
      refine ⟨rfl, rfl, fun t' => ⟨.inl, ?_⟩⟩
      rintro (h | ⟨heq, hnot⟩)
      · exact h
      · cases heq
        exact absurd (hiff.1 hs) hnot
    · rw [if_neg hs] at hr
      cases hr
      refine ⟨rfl, rfl, fun t' => ?_⟩
      have hput : t' ∈ (limiter.put out t).inner ↔ t' = t ∨ t' ∈ out.inner := by
        rw [QueryLimiter.put]
        split
        · exact mem_putWithSkip
        · exact mem_put
      show t' ∈ (limiter.put out t).inner ↔ _
      rw [hput, or_comm, Except.ok.injEq]
      refine or_congr_right ⟨?_, fun h => h.1.symm⟩
      rintro rfl
      exact ⟨rfl, fun h => hs (hiff.2 h)⟩
  obtain ⟨hoks, hstop, hlim, hall⟩ := untilStopped_adds (fun item _ => hitem item) h
  refine ⟨fun e he => ?_, hstop, hlim, fun t => ?_⟩
  · obtain ⟨t, ht⟩ := hoks _ he
    exact absurd ht (by simp)
  · rw [hall]
    simp

/-! ### What a rule set derives in an epoch -/

theorem shouldCheck_of_total_none (h : limiter.total = none) (k : MagicSymbol) :
    limiter.shouldCheck k = false := by
  rw [QueryLimiter.shouldCheck, h]
  rfl

theorem initialRuleNonAggrEval_spec {k : MagicSymbol} (hwf : stores.WF)
    (hlim : limiter.total = none)
    (hagree : ∀ rule ∈ rules, rule.relation.JoinsAgree tx (view none stores) stores)
    (h : initialRuleNonAggrEval tx k rules stores limiter = .ok r) :
    r.2.2 = limiter ∧ ∀ t, t ∈ r.2.1.inner ↔
    ∃ rule ∈ rules, rule.relation.Produces tx (view none stores) stores t := by
  rw [initialRuleNonAggrEval, shouldCheck_of_total_none hlim] at h
  obtain ⟨⟨stopped, out, limiter'⟩, hrun, hret⟩ := bind_ok.1 h
  cases hret
  have hrule : ∀ rule ∈ rules, ∀ (out : RegularTempStore X) (r : EvalOut X),
      (rule.relation.iter tx none stores >>= fun it =>
        untilStopped (initialItem false) it out limiter) = .ok r →
      True ∧ r.1 = false ∧ r.2.2 = limiter ∧ ∀ t, t ∈ r.2.1.inner ↔
        t ∈ out.inner ∨ rule.relation.Produces tx (view none stores) stores t := by
    intro rule hrule out r hr
    obtain ⟨it, hit, hr⟩ := bind_ok.1 hr
    obtain ⟨hok, hstop, hlim, hall⟩ := untilStopped_initialItem hr
    refine ⟨trivial, hstop, hlim, fun t => ?_⟩
    rw [hall, mem_iter tx none hwf rule.relation (hagree rule hrule) it hit hok]
  obtain ⟨-, -, hlim', hall⟩ := untilStopped_adds hrule hrun
  refine ⟨hlim', fun t => ?_⟩
  rw [hall]
  simp [not_mem_empty]

theorem incrementalRuleNonAggrEval_spec {k : MagicSymbol} (hwf : stores.WF)
    {order : List MagicSymbol} (hlim : limiter.total = none)
    {prev : EpochStore X} (hprev : stores k = some prev) (hnormal : prev.IsNormal)
    (hagree : ∀ rule ∈ rules, ∀ deltaRule,
      rule.relation.JoinsAgree tx (view deltaRule stores) stores)
    (h : incrementalRuleNonAggrEval tx k rules stores order limiter = .ok r) :
    r.2.2 = limiter ∧ (∀ rule ∈ rules, ∃ runs, deltaRuns rule stores order = .ok runs) ∧
      ∀ t, t ∈ r.2.1.inner ↔ ∃ rule ∈ rules, ∃ runs, deltaRuns rule stores order = .ok runs ∧
        ∃ deltaRule ∈ runs, rule.relation.Produces tx (view deltaRule stores) stores t ∧
        ¬ prev.TotalRow t := by
  rw [incrementalRuleNonAggrEval, shouldCheck_of_total_none hlim, Stores.unwrap_eq_ok.2 hprev] at h
  obtain ⟨_, hunwrap, hbody⟩ := bind_ok.1 h
  cases hunwrap
  obtain ⟨⟨stopped, out, limiter'⟩, hrun, hret⟩ := bind_ok.1 hbody
  cases hret
  -- one run of a rule
  have hrunRule : ∀ rule ∈ rules, ∀ (deltaRule : Option MagicSymbol)
      (out : RegularTempStore X) (r : EvalOut X),
      (rule.relation.iter tx deltaRule stores >>= fun it =>
        untilStopped (incrementalItem false prev) it out limiter) = .ok r →
      True ∧ r.1 = false ∧ r.2.2 = limiter ∧ ∀ t, t ∈ r.2.1.inner ↔ t ∈ out.inner ∨
        rule.relation.Produces tx (view deltaRule stores) stores t ∧ ¬ prev.TotalRow t := by
    intro rule hrule deltaRule out r hr
    obtain ⟨it, hit, hr⟩ := bind_ok.1 hr
    obtain ⟨hok, hstop, hlim, hall⟩ := untilStopped_incrementalItem hnormal hr
    refine ⟨trivial, hstop, hlim, fun t => ?_⟩
    rw [hall, mem_iter tx deltaRule hwf rule.relation (hagree rule hrule deltaRule) it hit hok]
  -- the runs of a rule
  have hrule : ∀ rule ∈ rules, ∀ (out : RegularTempStore X) (r : EvalOut X),
      (deltaRuns rule stores order >>= fun runs =>
        untilStopped (fun deltaRule out limiter => rule.relation.iter tx deltaRule stores >>= fun it =>
          untilStopped (incrementalItem false prev) it out limiter) runs out limiter) = .ok r →
      (∃ runs, deltaRuns rule stores order = .ok runs) ∧ r.1 = false ∧ r.2.2 = limiter ∧
        ∀ t, t ∈ r.2.1.inner ↔ t ∈ out.inner ∨ ∃ runs, deltaRuns rule stores order = .ok runs ∧
          ∃ deltaRule ∈ runs, rule.relation.Produces tx (view deltaRule stores) stores t ∧
            ¬ prev.TotalRow t := by
    intro rule hrule out r hr
    obtain ⟨runs, hruns, hr⟩ := bind_ok.1 hr
    obtain ⟨-, hstop, hlim, hall⟩ :=
      untilStopped_adds (fun deltaRule _ => hrunRule rule hrule deltaRule) hr
    refine ⟨⟨runs, hruns⟩, hstop, hlim, fun t => ?_⟩
    rw [hall, hruns]
    simp
  obtain ⟨hoks, -, hlim', hall⟩ := untilStopped_adds hrule hrun
  refine ⟨hlim', hoks, fun t => ?_⟩
  rw [hall]
  simp [not_mem_empty]

/-- The rows of a rule set with normal aggregations: one for each group, or the row of no rows. -/
def AggrRow (tx : SessionTx X) (stores : Stores X) (first : CompiledRule X)
    (rest : List (CompiledRule X)) (t : Tuple X) : Prop :=
  ∃ work, aggrGroups tx stores (first :: rest) ∅ = .ok work ∧
    ((work.isEmpty && first.aggr.all Option.isSome) = true ∧ emptyResult first.aggr = .ok t ∨
      ∃ group ∈ work.toList, groupTuple first.aggr group.1 group.2 = .ok t)

variable {first : CompiledRule X} {rest : List (CompiledRule X)}

theorem initialRuleAggrEval_spec {limiter : QueryLimiter} (hlim : limiter.total = none)
    (h : initialRuleAggrEval tx k first rest stores limiter = .ok r) :
    r.2.2 = limiter ∧ ∀ t, t ∈ r.2.1.inner ↔ AggrRow tx stores first rest t := by
  rw [initialRuleAggrEval, shouldCheck_of_total_none hlim] at h
  cases hwork : aggrGroups tx stores (first :: rest) ∅ with
  | error e => simp [hwork] at h
  | ok work =>
    rw [hwork] at h
    obtain ⟨out₀, hout₀, hrest⟩ := bind_ok.1 h
    obtain ⟨⟨stopped, out, limiter'⟩, hrun, hret⟩ := bind_ok.1 hrest
    cases hret
    -- the row of no rows, put before the groups
    have hempty : ∀ t, t ∈ out₀.inner ↔
        (work.isEmpty && first.aggr.all Option.isSome) = true ∧ emptyResult first.aggr = .ok t := by
      intro t
      rw [aggrStart] at hout₀
      by_cases hc : (work.isEmpty && first.aggr.all Option.isSome) = true
      · rw [if_pos hc] at hout₀
        obtain ⟨row, hrow, hput⟩ := bind_ok.1 hout₀
        cases hput
        rw [mem_put, hrow]
        simp [hc, not_mem_empty, eq_comm]
      · rw [if_neg hc] at hout₀
        cases hout₀
        simp [hc, not_mem_empty]
    have hgroup : ∀ (group : Tuple X × List (RunningAggr X)) (out : RegularTempStore X)
        (r : EvalOut X),
        initialItem false (groupTuple first.aggr group.1 group.2) out limiter = .ok r →
        True ∧ r.1 = false ∧ r.2.2 = limiter ∧ ∀ t, t ∈ r.2.1.inner ↔ t ∈ out.inner ∨
          groupTuple first.aggr group.1 group.2 = .ok t := by
      intro group out r hr
      obtain ⟨row, hrow, hput⟩ := bind_ok.1 hr
      cases hput
      refine ⟨trivial, rfl, rfl, fun t => ?_⟩
      rw [mem_put, hrow, or_comm, Except.ok.injEq, eq_comm]
    obtain ⟨-, -, hlim', hall⟩ := untilStopped_adds (fun group _ => hgroup group) hrun
    refine ⟨hlim', fun t => ?_⟩
    rw [hall, hempty, AggrRow, hwork]
    simp

variable {stores' : Stores X}

theorem aggrGroups_congr {stores : Stores X}
    (h : ∀ rule ∈ rules, ∀ k ∈ rule.relation.posKeys ++ rule.relation.negKeys,
      stores k = stores' k) (work : AggrWork X) :
      aggrGroups tx stores rules work = aggrGroups tx stores' rules work := by
  induction rules generalizing work with
  | nil => rfl
  | cons rule rules ih =>
    have hrules := fun r hr => h r (mem_cons_of_mem _ hr)
    simp only [aggrGroups, iter_congr (h rule mem_cons_self), ih hrules]

/-! ### The naive semantics of a stratum -/

def lowerStores (prog : CompiledProgram X) (stores : Stores X) : Stores X := fun k =>
  if k ∈ prog.symbols then none else stores k

/-- What a rule set derives from `rows`, in one step. Anti-joins, aggregations and fixed rules read
the stores of the lower strata. -/
def Derives (tx : SessionTx X) (lower : Stores X) (rows : View X) (rs : CompiledRuleSet X)
    (t : Tuple X) : Prop :=
  match rs with
  | .rules first rest =>
    if headAggrKind first.aggr = .none then
      ∃ rule ∈ first :: rest, rule.relation.Produces tx rows lower t
    else AggrRow tx lower first rest t
  | .fixed f => ∃ out, f.run tx lower = .ok out ∧ t ∈ out.inner

theorem Derives.mono {lower : Stores X} {rows rows' : View X}
    (hrows : rows ≤ rows') {rs : CompiledRuleSet X} {t : Tuple X} (h : Derives tx lower rows rs t) :
    Derives tx lower rows' rs t := by
  cases rs with
  | rules first rest =>
    by_cases hplain : headAggrKind first.aggr = .none
    · simp only [Derives, if_pos hplain] at h ⊢
      obtain ⟨rule, hrule, hprod⟩ := h
      exact ⟨rule, hrule, hprod.mono fun k _ t ht => hrows k t ht⟩
    · simp only [Derives, if_neg hplain] at h ⊢
      exact h
  | fixed f => exact h

/-- **One naive step of a stratum**: what its rule sets derive from the given rows; the lower strata
keep the rows they have. -/
def naiveStep (tx : SessionTx X) (prog : CompiledProgram X) (lower : Stores X) :
    View X →o View X where
  toFun rows k t :=
    (∃ rs, (k, rs) ∈ prog.ruleSets ∧ Derives tx lower rows rs t) ∨ k ∉ prog.symbols ∧ view none lower k t
  monotone' := by
    rintro rows rows' hrows k t (⟨rs, hrs, h⟩ | h)
    · exact .inl ⟨rs, hrs, h.mono hrows⟩
    · exact .inr h

/-- **Where the joins of a stratum compare rightly**: in every materialised join of its rules, the
rows that the two sides have over the naive least fixpoint are the same on the join columns if they
are equal there by `==`. -/
def StratumAgrees (tx : SessionTx X) (prog : CompiledProgram X) (lower : Stores X) : Prop :=
  ∀ k first rest, (k, .rules first rest) ∈ prog.ruleSets → ∀ rule ∈ first :: rest,
    rule.relation.JoinsAgree tx (naiveStep tx prog lower).lfp lower

/-- A stratum of plain rules: there are no meet aggregations, and negation, normal aggregations and
fixed rules look only at other strata. -/
structure PlainStratum (prog : CompiledProgram X) : Prop where
  no_meet : ∀ k rs, (k, rs) ∈ prog.ruleSets → rs.aggrKind ≠ .meet
  /-- Anti-joins look into stores of other strata. -/
  neg_across : ∀ k first rest, (k, .rules first rest) ∈ prog.ruleSets →
    ∀ rule ∈ first :: rest, ∀ p ∈ rule.relation.negKeys, p ∉ prog.symbols
  /-- Aggregated rule sets read stores of other strata. -/
  aggr_across : ∀ k first rest, (k, .rules first rest) ∈ prog.ruleSets →
    headAggrKind first.aggr = .normal →
    ∀ rule ∈ first :: rest, ∀ p ∈ rule.relation.posKeys, p ∉ prog.symbols
  /-- Fixed rules read stores of other strata. -/
  fixed_across : ∀ k f, (k, .fixed f) ∈ prog.ruleSets → ∀ (tx : SessionTx X)
    (stores stores' : Stores X), (∀ p ∉ prog.symbols, stores p = stores' p) →
    f.run tx stores = f.run tx stores'

/-! ### Earlier knowledge and new rows -/

/-- The rows known before the last epoch, when it has changed the rules `own`. -/
def oldView (own : List MagicSymbol) (stores : Stores X) : View X := fun k t =>
  ∃ s, stores k = some s ∧ s.TotalRow t ∧ (k ∈ own → ¬ s.DeltaRow t)

/-- The rows that the last epoch has added to the rules `own`. -/
def newView (own : List MagicSymbol) (stores : Stores X) : View X := fun k t =>
  k ∈ own ∧ ∃ s, stores k = some s ∧ s.DeltaRow t

theorem both_old_new (h : SaneStores stores) (own : List MagicSymbol) :
    both (oldView own stores) (newView own stores) = view none stores := by
  ext k t
  constructor
  · rintro (⟨s, hs, htotal, -⟩ | ⟨-, s, hs, hdelta⟩)
    · exact ⟨s, hs, htotal⟩
    · exact ⟨s, hs, h.delta_le k s hs t hdelta⟩
  · rintro ⟨s, hs, htotal⟩
    by_cases hnew : k ∈ own ∧ s.DeltaRow t
    · exact .inr ⟨hnew.1, s, hs, hnew.2⟩
    · exact .inl ⟨s, hs, htotal, fun hk hdelta => hnew ⟨hk, hdelta⟩⟩

/-- The stores while a stratum is evaluated that started on `base`. -/
structure StratumStores (prog : CompiledProgram X) (base stores : Stores X) : Prop where
  /-- The stores of the other strata are those at the start. -/
  frame : ∀ k ∉ prog.symbols, stores k = base k
  /-- The rules of the stratum have stores of plain rows. -/
  own : ∀ k ∈ prog.symbols, ∃ s, stores k = some s ∧ s.IsNormal
  sane : SaneStores stores

namespace StratumStores

variable {prog : CompiledProgram X} {base stores : Stores X}

theorem lower_eq (h : StratumStores prog base stores) {k : MagicSymbol}
    (hk : k ∉ prog.symbols) : lowerStores prog base k = stores k := by
  rw [lowerStores, if_neg hk, h.frame k hk]

end StratumStores

/-! ### The runs of a rule in a later epoch -/

/-- What the check of the mentioned rules has found: without a complete run no rule mentioned more
than once has changed, and without a change none has. -/
theorem dependencyCheck_spec {contained : List (MagicSymbol × ContainedRuleMultiplicity)}
    {before changed complete : Bool}
    (h : dependencyCheck stores contained before = .ok (changed, complete)) :
    (changed = false → ∀ k m, (k, m) ∈ contained → ∀ s, stores k = some s → s.hasDelta = false) ∧
    (changed = false → before = false) ∧
    (complete = false → ∀ k, (k, .many) ∈ contained → ∀ s, stores k = some s →
      s.hasDelta = false) := by
  induction contained generalizing before with
  | nil =>
    simp only [dependencyCheck, Except.ok.injEq, Prod.mk.injEq] at h
    simp [h.1]
  | cons c contained ih =>
    obtain ⟨symb, multiplicity⟩ := c
    rw [dependencyCheck] at h
    obtain ⟨s, hs, hrest⟩ := bind_ok.1 h
    rw [Stores.unwrap_eq_ok] at hs
    by_cases hdelta : s.hasDelta = true
    · rw [if_pos hdelta] at hrest
      by_cases hmany : multiplicity = .many
      · -- a complete run
        rw [if_pos hmany] at hrest
        obtain ⟨rfl, rfl⟩ := Prod.mk.inj (Except.ok.inj hrest)
        simp
      · rw [if_neg hmany] at hrest
        obtain ⟨-, htrue, hcomplete⟩ := ih hrest
        refine ⟨fun hc => absurd (htrue hc) (by simp), fun hc => absurd (htrue hc) (by simp), ?_⟩
        intro hc k hk s' hs'
        rcases mem_cons.1 hk with heq | hk
        · exact absurd (congrArg Prod.snd heq).symm hmany
        · exact hcomplete hc k hk s' hs'
    · rw [if_neg hdelta] at hrest
      obtain ⟨hnone, hbefore, hcomplete⟩ := ih hrest
      have hown : ∀ k m, (k, m) = (symb, multiplicity) → ∀ s', stores k = some s' →
          s'.hasDelta = false := by
        intro k m heq s' hs'
        obtain ⟨rfl, -⟩ := Prod.mk.inj heq
        obtain rfl := Option.some.inj (hs.symm.trans hs')
        exact Bool.not_eq_true _ ▸ hdelta
      refine ⟨fun hc k m hk s' hs' => ?_, hbefore, fun hc k hk s' hs' => ?_⟩
      · exact (mem_cons.1 hk).elim (fun heq => hown k m heq s' hs') fun hk => hnone hc k m hk s' hs'
      · exact (mem_cons.1 hk).elim (fun heq => hown k _ heq s' hs') fun hk => hcomplete hc k hk s' hs'

/-- **The delta runs of a rule are complete**: a tuple that the rule derives from all rows is
derived from the earlier ones, or by one of the runs. -/
theorem deltaRuns_complete {own : List MagicSymbol} (hsane : SaneStores stores)
    {rule : CompiledRule X} {order : List MagicSymbol}
    (horder : ∀ p ∈ own, p ∈ order) {runs : List (Option MagicSymbol)}
    (hruns : deltaRuns rule stores order = .ok runs) {t : Tuple X}
    (h : rule.relation.Produces tx (view none stores) stores t) :
    rule.relation.Produces tx (oldView own stores) stores t ∨
      ∃ deltaRule ∈ runs, rule.relation.Produces tx (view deltaRule stores) stores t := by
  obtain ⟨⟨changed, complete⟩, hcheck, hret⟩ := bind_ok.1 hruns
  cases hret
  obtain ⟨hnone, -, hmany⟩ := dependencyCheck_spec hcheck
  -- a mentioned rule without a delta has no new rows
  have hno : ∀ k s, stores k = some s → s.hasDelta = false → ∀ t, ¬ newView own stores k t := by
    rintro k s hs hd t ⟨-, s', hs', hnew⟩
    rw [hs] at hs'
    cases hs'
    exact absurd (hasDelta_iff.2 ⟨t, hnew⟩) (by simp [hd])
  rw [← both_old_new hsane own] at h
  cases changed with
  | false =>
    -- nothing the rule reads has changed
    refine .inl (h.mono fun k hk t ht => ht.resolve_right ?_)
    intro hnew
    obtain ⟨m, hm⟩ := rule.mem_contained k (mem_append_left _ hk)
    obtain ⟨s, hs, -⟩ := hnew.2
    exact hno k s hs (hnone rfl k m hm s hs) t hnew
  | true =>
    cases complete with
    | true =>
      rw [both_old_new hsane own] at h
      exact .inr ⟨none, by simp, h⟩
    | false =>
      -- a rule with new rows is read in one place only
      have hcount : ∀ k, (∃ t, newView own stores k t) → rule.relation.posKeys.count k ≤ 1 := by
        rintro k ⟨t, hnew⟩
        by_contra hlt
        obtain ⟨s, hs, -⟩ := hnew.2
        have hk := rule.many_contained k (Nat.lt_of_not_le hlt)
        exact hno k s hs (hmany rfl k hk s hs) t hnew
      rcases h.split hcount with hold | ⟨p, hp, ⟨t', hnew⟩, hprod⟩
      · exact .inl hold
      · obtain ⟨m, hm⟩ := rule.mem_contained p (mem_append_left _ hp)
        refine .inr ⟨some p, ?_, hprod.mono ?_⟩
        · simp only [Bool.not_true, Bool.false_eq_true, if_false, mem_map,
            mem_filter, any_eq_true, decide_eq_true_eq]
          exact ⟨p, ⟨horder p hnew.1, (p, m), hm, rfl⟩, rfl⟩
        · -- through its delta view the rule shows its new rows, the others show all of theirs
          intro k _ t ht
          by_cases hkp : k = p
          · subst hkp
            rw [onlyNewOf, if_pos rfl] at ht
            obtain ⟨-, s, hs, hrow⟩ := ht
            exact ⟨s, hs, by rwa [if_pos rfl]⟩
          · rw [onlyNewOf, if_neg hkp] at ht
            change both _ _ k t at ht
            rw [both_old_new hsane own] at ht
            obtain ⟨s, hs, htotal⟩ := ht
            refine ⟨s, hs, ?_⟩
            rw [if_neg fun heq => hkp (Option.some.inj heq).symm]
            exact htotal

/-! ### The merge of an epoch -/

theorem executeAll_spec {execution : MagicSymbol → CompiledRuleSet X → QueryLimiter →
      Except (EvalError X) (Contribution X)}
    {P : MagicSymbol → CompiledRuleSet X → TempStore X → Prop}
    {ruleSets : List (MagicSymbol × CompiledRuleSet X)}
    (hexec : ∀ k rs c, (k, rs) ∈ ruleSets → execution k rs limiter = .ok c →
      c.2.2 = limiter ∧ P k rs c.2.1)
    {limiter' : QueryLimiter} {used : Bool}
    (h : executeAll execution ruleSets limiter = .ok (toMerge, limiter', used)) :
    limiter' = limiter ∧ List.Forall₂ (fun e m => e.1 = m.1 ∧ P e.1 e.2 m.2) ruleSets toMerge := by
  induction ruleSets generalizing toMerge limiter' used with
  | nil =>
    obtain ⟨rfl, rfl, rfl⟩ : [] = toMerge ∧ limiter = limiter' ∧ false = used := by
      simpa [executeAll] using h
    exact ⟨rfl, .nil⟩
  | cons e ruleSets ih =>
    obtain ⟨k, rs⟩ := e
    rw [executeAll] at h
    obtain ⟨⟨used₁, store, limiter₁⟩, hrun, hrest⟩ := bind_ok.1 h
    obtain ⟨⟨toMerge₂, limiter₂, used₂⟩, hall, hret⟩ := bind_ok.1 hrest
    obtain ⟨rfl, rfl, rfl⟩ : (k, store) :: toMerge₂ = toMerge ∧ limiter₂ = limiter' ∧
      (used₁ || used₂) = used := by
      simpa using Except.ok.inj hret
    obtain ⟨rfl, hP⟩ := hexec k rs _ mem_cons_self hrun
    obtain ⟨hlim, hforall⟩ := ih (fun k rs c hmem => hexec k rs c (mem_cons_of_mem _ hmem)) hall
    exact ⟨hlim, .cons ⟨rfl, hP⟩ hforall⟩

def outView (toMerge : List (MagicSymbol × TempStore X)) : View X := fun k t =>
  ∃ new, (k, new) ∈ toMerge ∧ new.Row t

def NormalContributions (prog : CompiledProgram X) (toMerge : List (MagicSymbol × TempStore X)) :
    Prop :=
  toMerge.map Prod.fst = prog.symbols ∧ ∀ k new, (k, new) ∈ toMerge → ∃ out, new = .normal out

theorem contribution_unique (hnodup : (toMerge.map Prod.fst).Nodup)
    {new new' : TempStore X} (h : (k, new) ∈ toMerge) (h' : (k, new') ∈ toMerge) : new = new' := by
  have := inj_on_of_nodup_map hnodup h h' rfl
  exact (Prod.mk.inj this).2

/-- **One merge**: the stores stay those of the stratum, the total views grow by the contributions,
and what was known becomes the earlier knowledge. -/
theorem StratumStores.merge {prog : CompiledProgram X} {base stores : Stores X}
    (hst : StratumStores prog base stores)
    (hnew : NormalContributions prog toMerge) {changed : Bool}
    (h : mergeAll toMerge stores = .ok (stores', changed)) :
    StratumStores prog base stores' ∧ view none stores' = view none stores ⊔ outView toMerge ∧
      oldView prog.symbols stores' = view none stores ∧
      (changed = false → ∀ k t, ¬ newView prog.symbols stores' k t) := by
  have hnodup : (toMerge.map Prod.fst).Nodup := hnew.1 ▸ prog.nodup
  obtain ⟨hframe, hmerged⟩ := mergeAll_spec hnodup h
  rw [hnew.1] at hframe
  -- the store of a rule of the stratum before and after
  have hown : ∀ k ∈ prog.symbols, ∃ s s' new, stores k = some s ∧ stores' k = some s' ∧
      s'.IsNormal ∧ (k, new) ∈ toMerge ∧ (∀ t, s'.TotalRow t ↔ s.TotalRow t ∨ new.Row t) ∧
      (∀ t, s'.DeltaRow t ↔ new.Row t ∧ ¬ s.TotalRow t) ∧
      (changed = false → s'.hasDelta = false) := by
    intro k hk
    rw [← hnew.1, mem_map] at hk
    obtain ⟨⟨_, new⟩, hmem, rfl⟩ := hk
    obtain ⟨s, s', hs, hmerge, hs', hc⟩ := hmerged _ new hmem
    obtain ⟨out, rfl⟩ := hnew.2 _ new hmem
    obtain ⟨s₁, hs₁, hnormal⟩ := hst.own _ (hnew.1 ▸ mem_map_of_mem hmem)
    obtain rfl := Option.some.inj (hs.symm.trans hs₁)
    obtain ⟨s₂, hmerge₂, hnormal₂, htotal, hdelta⟩ := mergeIn_normal hnormal out
    obtain rfl := Except.ok.inj (hmerge.symm.trans hmerge₂)
    exact ⟨s, s', _, hs, hs', hnormal₂, hmem, htotal, hdelta, hc⟩
  have hout : ∀ {k new t}, (k, new) ∈ toMerge → (outView toMerge k t ↔ new.Row t) := by
    intro k new t hmem
    refine ⟨?_, fun hrow => ⟨new, hmem, hrow⟩⟩
    rintro ⟨new', hmem', hrow⟩
    exact contribution_unique hnodup hmem hmem' ▸ hrow
  refine ⟨⟨fun k hk => (hframe k hk).trans (hst.frame k hk), fun k hk =>
    ?_, fun k s' hs' => ?_, fun k s' hs' t => ?_⟩, ?_, ?_, fun hc k t => ?_⟩
  · obtain ⟨s, s', new, -, hs', hnormal, -⟩ := hown k hk
    exact ⟨s', hs', hnormal⟩
  · by_cases hk : k ∈ prog.symbols
    · obtain ⟨s, s₁, new, -, hs₁, hnormal, -⟩ := hown k hk
      obtain rfl := Option.some.inj (hs'.symm.trans hs₁)
      exact hnormal.wf
    · exact hst.sane.wf k s' ((hframe k hk).symm.trans hs')
  · by_cases hk : k ∈ prog.symbols
    · obtain ⟨s, s₁, new, -, hs₁, -, -, htotal, hdelta, -⟩ := hown k hk
      obtain rfl := Option.some.inj (hs'.symm.trans hs₁)
      rw [htotal, hdelta]
      exact fun h => .inr h.1
    · exact hst.sane.delta_le k s' ((hframe k hk).symm.trans hs') t
  · ext k t
    by_cases hk : k ∈ prog.symbols
    · obtain ⟨s, s', new, hs, hs', -, hmem, htotal, -⟩ := hown k hk
      simp [view, hs, hs', htotal, hout hmem]
    · have hnot : ¬ outView toMerge k t := by
        rintro ⟨new, hmem, -⟩
        exact hk (hnew.1 ▸ mem_map_of_mem hmem)
      simp [view, hframe k hk, hnot]
  · ext k t
    by_cases hk : k ∈ prog.symbols
    · obtain ⟨s, s', new, hs, hs', -, hmem, htotal, hdelta, -⟩ := hown k hk
      simp only [oldView, view, hs, hs', htotal, hdelta, hk, Option.some.injEq,
        exists_eq_left', reduceCtorEq, if_false]
      tauto
    · simp [oldView, view, hframe k hk, hk]
  · rintro ⟨hk, s', hs', hrow⟩
    obtain ⟨s, s₁, new, -, hs₁, -, -, -, -, hnone⟩ := hown k hk
    obtain rfl := Option.some.inj (hs'.symm.trans hs₁)
    exact absurd (hasDelta_iff.2 ⟨t, hrow⟩) (by simp [hnone hc])

/-! ### The epochs of a stratum -/

section Epochs

variable {tx : SessionTx X} {prog : CompiledProgram X} {base stores : Stores X}

/-- The contribution of a rule set is right for `rows`: it consists of derivable rows, and with the
rows already known it has all of them. -/
def RightContribution (tx : SessionTx X) (prog : CompiledProgram X) (base stores : Stores X)
    (k : MagicSymbol) (rs : CompiledRuleSet X) (new : TempStore X) : Prop :=
  (∃ out, new = .normal out) ∧
  (∀ t, new.Row t → Derives tx (lowerStores prog base) (view none stores) rs t) ∧
  ∀ t, Derives tx (lowerStores prog base) (view none stores) rs t → view none stores k t ∨ new.Row t

variable {k : MagicSymbol} {rs : CompiledRuleSet X} {limiter : QueryLimiter} {t : Tuple X}

theorem mem_of_closed {F : View X} (hclosed : naiveStep tx prog (lowerStores prog base) F ≤
    view none stores) (hmem : (k, rs) ∈ prog.ruleSets)
    (h : Derives tx (lowerStores prog base) F rs t) : view none stores k t :=
  hclosed k t (.inl ⟨rs, hmem, h⟩)

section RuleSets

variable (hplain : PlainStratum prog) (hst : StratumStores prog base stores)

include hplain hst

theorem produces_lower_iff (hmem : (k, .rules first rest) ∈ prog.ruleSets)
    {rule : CompiledRule X} (hrule : rule ∈ first :: rest) {rows : View X} :
    rule.relation.Produces tx rows (lowerStores prog base) t ↔
    rule.relation.Produces tx rows stores t := by
  have heq : ∀ p ∈ rule.relation.negKeys, lowerStores prog base p = stores p :=
    fun p hp => hst.lower_eq (hplain.neg_across k first rest hmem rule hrule p hp)
  exact ⟨fun h => h.of_views (fun _ _ _ => id) heq, fun h =>
    h.of_views (fun _ _ _ => id) fun p hp => (heq p hp).symm⟩

/-- Each run of a rule reads rows of the least fixpoint only. -/
theorem joinsAgree_run (hagrees : StratumAgrees tx prog (lowerStores prog base))
    (hsound : view none stores ≤ (naiveStep tx prog (lowerStores prog base)).lfp)
    (hmem : (k, .rules first rest) ∈ prog.ruleSets) {rule : CompiledRule X}
    (hrule : rule ∈ first :: rest)
    (deltaRule : Option MagicSymbol) :
    rule.relation.JoinsAgree tx (view deltaRule stores) stores := by
  refine (hagrees k first rest hmem rule hrule).of_views (fun p _ t ht => ?_) fun p hp => ?_
  · exact hsound p t (hst.sane.view_le deltaRule p t ht)
  · exact (hst.lower_eq (hplain.neg_across k first rest hmem rule hrule p hp)).symm

theorem aggrRow_lower_iff (hmem : (k, .rules first rest) ∈ prog.ruleSets)
    (haggr : headAggrKind first.aggr = .normal) :
    AggrRow tx (lowerStores prog base) first rest t ↔ AggrRow tx stores first rest t := by
  rw [AggrRow, AggrRow, aggrGroups_congr]
  intro rule hrule p hp
  refine hst.lower_eq ?_
  rcases mem_append.1 hp with hp | hp
  · exact hplain.aggr_across k first rest hmem haggr rule hrule p hp
  · exact hplain.neg_across k first rest hmem rule hrule p hp

theorem initialEval_right (hagrees : StratumAgrees tx prog (lowerStores prog base))
    (hsound : view none stores ≤ (naiveStep tx prog (lowerStores prog base)).lfp)
    (hlim : limiter.total = none) (hmem : (k, rs) ∈ prog.ruleSets) {c : Contribution X}
    (h : initialEval tx stores k rs limiter = .ok c) :
    c.2.2 = limiter ∧ RightContribution tx prog base stores k rs c.2.1 := by
  cases rs with
  | rules first rest =>
    have hkind := hplain.no_meet k _ hmem
    simp only [CompiledRuleSet.aggrKind] at hkind
    simp only [initialEval, CompiledRuleSet.aggrKind] at h
    cases haggr : headAggrKind first.aggr with
    | none =>
      rw [haggr] at h
      obtain ⟨⟨used, out, limiter'⟩, hrun, hret⟩ := bind_ok.1 h
      cases hret
      obtain ⟨hlim', hall⟩ := initialRuleNonAggrEval_spec hst.sane.wf hlim
        (fun rule hrule => joinsAgree_run hplain hst hagrees hsound hmem hrule none) hrun
      have hderives : ∀ t, t ∈ out.inner ↔
          Derives tx (lowerStores prog base) (view none stores) (.rules first rest) t := by
        intro t
        rw [hall, Derives, if_pos haggr]
        exact exists_congr fun rule => and_congr_right fun hrule =>
          (produces_lower_iff hplain hst hmem hrule).symm
      exact ⟨hlim', ⟨out, rfl⟩, fun t ht => (hderives t).1 ht, fun t ht => .inr ((hderives t).2 ht)⟩
    | normal =>
      rw [haggr] at h
      obtain ⟨⟨used, out, limiter'⟩, hrun, hret⟩ := bind_ok.1 h
      cases hret
      obtain ⟨hlim', hall⟩ := initialRuleAggrEval_spec hlim hrun
      have hderives : ∀ t, t ∈ out.inner ↔
          Derives tx (lowerStores prog base) (view none stores) (.rules first rest) t := by
        intro t
        rw [hall, Derives, if_neg (by simp [haggr])]
        exact (aggrRow_lower_iff hplain hst hmem haggr).symm
      exact ⟨hlim', ⟨out, rfl⟩, fun t ht => (hderives t).1 ht, fun t ht => .inr ((hderives t).2 ht)⟩
    | meet => exact absurd haggr hkind
  | fixed f =>
    obtain ⟨out, hout, hret⟩ := bind_ok.1 h
    cases hret
    rw [hplain.fixed_across k f hmem tx stores (lowerStores prog base) fun p hp =>
      (hst.lower_eq hp).symm] at hout
    refine ⟨rfl, ⟨out, rfl⟩, fun t ht => ⟨out, hout, ht⟩, ?_⟩
    rintro t ⟨out', hout', ht⟩
    obtain rfl := Except.ok.inj (hout.symm.trans hout')
    exact .inr ht

theorem incrementalEval_right (hagrees : StratumAgrees tx prog (lowerStores prog base))
    (hsound : view none stores ≤ (naiveStep tx prog (lowerStores prog base)).lfp)
    (hclosed : naiveStep tx prog (lowerStores prog base) (oldView prog.symbols stores) ≤
      view none stores)
    {order : MagicSymbol → List MagicSymbol} (horder : ∀ k, ∀ p ∈ prog.symbols, p ∈ order k)
    (hlim : limiter.total = none)
    (hmem : (k, rs) ∈ prog.ruleSets) {c : Contribution X}
    (h : incrementalEval tx stores order k rs limiter = .ok c) :
    c.2.2 = limiter ∧ RightContribution tx prog base stores k rs c.2.1 := by
  cases rs with
  | rules first rest =>
    have hkind := hplain.no_meet k _ hmem
    simp only [CompiledRuleSet.aggrKind] at hkind
    simp only [incrementalEval, CompiledRuleSet.aggrKind] at h
    cases haggr : headAggrKind first.aggr with
    | none =>
      rw [haggr] at h
      obtain ⟨⟨used, out, limiter'⟩, hrun, hret⟩ := bind_ok.1 h
      cases hret
      obtain ⟨prev, hprev, hnormal⟩ := hst.own k (CompiledProgram.mem_symbols.2 ⟨_, hmem⟩)
      obtain ⟨hlim', hruns, hall⟩ :=
        incrementalRuleNonAggrEval_spec hst.sane.wf hlim hprev hnormal
          (fun rule hrule => joinsAgree_run hplain hst hagrees hsound hmem hrule) hrun
      refine ⟨hlim', ⟨out, rfl⟩, fun t ht => ?_, fun t ht => ?_⟩
      · -- soundness: a delta view shows only rows
        obtain ⟨rule, hrule, runs, -, deltaRule, -, hprod, -⟩ := (hall t).1 ht
        rw [Derives, if_pos haggr]
        exact ⟨rule, hrule, (produces_lower_iff hplain hst hmem hrule).2
          (hprod.mono fun k _ t ht => hst.sane.view_le deltaRule k t ht)⟩
      · -- completeness: old, already stored, or new
        rw [Derives, if_pos haggr] at ht
        obtain ⟨rule, hrule, hprod⟩ := ht
        obtain ⟨runs, hrun'⟩ := hruns rule hrule
        rcases deltaRuns_complete hst.sane (horder k) hrun'
          ((produces_lower_iff hplain hst hmem hrule).1 hprod) with hold | ⟨deltaRule, hdr, hnew⟩
        · refine .inl (mem_of_closed hclosed hmem ?_)
          rw [Derives, if_pos haggr]
          exact ⟨rule, hrule, (produces_lower_iff hplain hst hmem hrule).2 hold⟩
        · by_cases hstored : prev.TotalRow t
          · exact .inl ⟨prev, hprev, hstored⟩
          · exact .inr ((hall t).2 ⟨rule, hrule, runs, hrun', deltaRule, hdr, hnew, hstored⟩)
    | normal =>
      rw [haggr] at h
      cases h
      refine ⟨rfl, ⟨_, rfl⟩, fun t ht => absurd ht not_mem_empty, fun t ht => ?_⟩
      rw [Derives, if_neg (by simp [haggr])] at ht
      refine .inl (mem_of_closed hclosed hmem ?_)
      rw [Derives, if_neg (by simp [haggr])]
      exact ht
    | meet => exact absurd haggr hkind
  | fixed f =>
    cases h
    exact ⟨rfl, ⟨_, rfl⟩, fun t ht => absurd ht not_mem_empty, fun t ht =>
      .inl (mem_of_closed hclosed hmem ht)⟩

/-- The invariant of the epochs of a stratum that started on `base`. -/
structure EpochInv (tx : SessionTx X) (prog : CompiledProgram X) (base stores : Stores X) :
    Prop where
  stratum : StratumStores prog base stores
  delta : DeltaInv (naiveStep tx prog (lowerStores prog base)) (oldView prog.symbols stores)
    (view none stores)

end RuleSets

/-- **One epoch is one round of the delta iteration.** When nothing has changed the total views are
the least fixpoint. -/
theorem epoch_round (hst : StratumStores prog base stores)
    (hsound : view none stores ≤ (naiveStep tx prog (lowerStores prog base)).lfp)
    {toMerge : List (MagicSymbol × TempStore X)}
    (hright : List.Forall₂ (fun e m => e.1 = m.1 ∧
      RightContribution tx prog base stores e.1 e.2 m.2) prog.ruleSets toMerge)
    {changed : Bool} (h : mergeAll toMerge stores = .ok (stores', changed)) :
    EpochInv tx prog base stores' ∧
    (changed = false → view none stores' = (naiveStep tx prog (lowerStores prog base)).lfp) := by
  -- each rule set has a contribution, and each contribution a rule set
  have hsymbols : toMerge.map Prod.fst = prog.symbols := by
    rw [CompiledProgram.symbols, ← forall₂_eq_eq_eq, forall₂_map_left_iff, forall₂_map_right_iff]
    exact hright.flip.imp fun _ _ h => h.1.symm
  have hof : ∀ k new, (k, new) ∈ toMerge → ∃ rs, (k, rs) ∈ prog.ruleSets ∧
      RightContribution tx prog base stores k rs new := by
    intro k new hmem
    obtain ⟨⟨_, rs⟩, hrs, rfl, hr⟩ := exists_of_forall₂ hright.flip hmem
    exact ⟨rs, hrs, hr⟩
  have hto : ∀ k rs, (k, rs) ∈ prog.ruleSets → ∃ new, (k, new) ∈ toMerge ∧
      RightContribution tx prog base stores k rs new := by
    intro k rs hmem
    obtain ⟨⟨_, new⟩, hnew, rfl, hr⟩ := exists_of_forall₂ hright hmem
    exact ⟨new, hnew, hr⟩
  have hnormal : NormalContributions prog toMerge :=
    ⟨hsymbols, fun k new hmem => (hof k new hmem).choose_spec.2.1⟩
  obtain ⟨hst', htotal, hold, hnone⟩ := hst.merge hnormal h
  have hinv : DeltaInv (naiveStep tx prog (lowerStores prog base)) (oldView prog.symbols stores')
      (view none stores') := by
    rw [htotal, hold]
    refine DeltaInv.round hsound ?_ ?_
    · rintro k t ⟨new, hmem, hrow⟩
      obtain ⟨rs, hrs, hr⟩ := hof k new hmem
      exact .inl ⟨rs, hrs, hr.2.1 t hrow⟩
    · rintro k t (⟨rs, hrs, hder⟩ | ⟨hk, s, hs, hrow⟩)
      · obtain ⟨new, hmem, hr⟩ := hto k rs hrs
        exact (hr.2.2 t hder).imp id fun hrow => ⟨new, hmem, hrow⟩
      · rw [hst.lower_eq hk] at hs
        exact .inl ⟨s, hs, hrow⟩
  refine ⟨⟨hst', hinv⟩, fun hc => DeltaInv.eq_lfp ?_⟩
  -- without new rows the earlier knowledge is all there is
  have heq : oldView prog.symbols stores' = view none stores' := by
    rw [← both_old_new hst'.sane prog.symbols]
    ext k t
    exact ⟨.inl, fun ht => ht.resolve_right (hnone hc k t)⟩
  rwa [heq] at hinv

theorem epochs_spec (hplain : PlainStratum prog)
    (hagrees : StratumAgrees tx prog (lowerStores prog base))
    {order : Nat → MagicSymbol → List MagicSymbol}
    (horder : ∀ epoch k, ∀ p ∈ prog.symbols, p ∈ order epoch k)
    (hlim : limiter.total = none) {fuel epoch : Nat} (hst : StratumStores prog base stores)
    (hsound : view none stores ≤ (naiveStep tx prog (lowerStores prog base)).lfp)
    (hclosed : epoch ≠ 0 → naiveStep tx prog (lowerStores prog base) (oldView prog.symbols stores) ≤
      view none stores) {used : Bool}
    (h : epochs tx prog order fuel epoch stores limiter = .ok (stores', used)) :
    StratumStores prog base stores' ∧
    view none stores' = (naiveStep tx prog (lowerStores prog base)).lfp := by
  induction fuel generalizing epoch stores used with
  | zero => simp [epochs] at h
  | succ fuel ih =>
    rw [epochs] at h
    obtain ⟨⟨stores₁, changed, limiter₁, used₁⟩, hepoch, hrest⟩ := bind_ok.1 h
    rw [runEpoch] at hepoch
    obtain ⟨⟨toMerge, limiter₂, used₂⟩, hexec, hepoch'⟩ := bind_ok.1 hepoch
    obtain ⟨⟨stores₃, changed₃⟩, hmerge, hret⟩ := bind_ok.1 hepoch'
    obtain ⟨rfl, rfl, rfl, rfl⟩ : stores₃ = stores₁ ∧ changed₃ = changed ∧ limiter₂ = limiter₁ ∧
        used₂ = used₁ := by simpa using Except.ok.inj hret
    -- without a limit the rule sets are run in the order of the program
    have horder' : executionOrder prog limiter.total.isSome = prog.ruleSets := by
      simp [executionOrder, hlim]
    rw [horder'] at hexec
    have hcontrib := executeAll_spec (P := RightContribution tx prog base stores)
      (fun k rs c hmem hc => by
        by_cases hzero : epoch = 0
        · rw [if_pos hzero] at hc
          exact initialEval_right hplain hst hagrees hsound hlim hmem hc
        · rw [if_neg hzero] at hc
          exact incrementalEval_right hplain hst hagrees hsound (hclosed hzero)
            (horder epoch) hlim hmem hc) hexec
    obtain ⟨rfl, hright⟩ := hcontrib
    obtain ⟨hinv, hdone⟩ := epoch_round hst hsound hright hmerge
    cases changed₃ with
    | false =>
      obtain ⟨rfl, rfl⟩ : stores₃ = stores' ∧ used₂ = used := by simpa using Except.ok.inj hrest
      exact ⟨hinv.stratum, hdone rfl⟩
    | true =>
      obtain ⟨⟨stores₄, used₄⟩, hnext, hret'⟩ := bind_ok.1 hrest
      obtain ⟨rfl, rfl⟩ : stores₄ = stores' ∧ (used₂ || used₄) = used := by
        simpa using Except.ok.inj hret'
      exact ih hinv.stratum hinv.delta.sound (fun _ => hinv.delta.closed) hnext

end Epochs

/-! ### The strata of a program -/

theorem newStore_of_ne_meet {rs : CompiledRuleSet X} (h : rs.aggrKind ≠ .meet) :
    newStore rs = .ok (newNormal rs.arity) := by
  unfold newStore
  split
  · exact absurd ‹_› h
  · exact absurd ‹_› h
  · rfl

/-- **A stratum ends with its least fixpoint** over the lower strata. -/
theorem semiNaiveMagicEvaluate_spec {prog : CompiledProgram X} (hplain : PlainStratum prog)
    {order : Nat → MagicSymbol → List MagicSymbol}
    (horder : ∀ epoch k, ∀ p ∈ prog.symbols, p ∈ order epoch k) {lower base : Stores X}
    (hsane : SaneStores lower) (hagrees : StratumAgrees tx prog (lowerStores prog lower))
    (hinsert : insertStores prog.ruleSets lower = .ok base) {numToSkip : Option Nat}
    {fuel : Nat} {early : Bool}
    (h : semiNaiveMagicEvaluate tx prog base none numToSkip order fuel = .ok (stores, early)) :
    (∀ k ∉ prog.symbols, stores k = lower k) ∧ ∀ k ∈ prog.symbols, ∃ s, stores k = some s ∧
    ∀ t, s.TotalRow t ↔ (naiveStep tx prog (lowerStores prog lower)).lfp k t := by
  obtain ⟨hof, hframe⟩ := insertStores_storesOf hinsert
  have hown : ∀ k ∈ prog.symbols, ∃ arity, base k = some (newNormal arity) := by
    intro k hk
    obtain ⟨rs, hmem⟩ := CompiledProgram.mem_symbols.1 hk
    obtain ⟨s, hs, hk⟩ := (insertStores_spec prog.nodup hinsert).2 k rs hmem
    rw [newStore_of_ne_meet (hplain.no_meet k rs hmem)] at hs
    exact ⟨rs.arity, hk.trans (congrArg some (Except.ok.inj hs).symm)⟩
  have hlower : lowerStores prog base = lowerStores prog lower := by
    ext1 k
    rw [lowerStores, lowerStores]
    split
    · rfl
    · rename_i hk
      exact hframe k hk
  have hst : StratumStores prog base base := by
    refine ⟨fun _ _ => rfl, fun k hk => ?_, hsane.of_storesOf hof hframe⟩
    obtain ⟨arity, ha⟩ := hown k hk
    exact ⟨_, ha, newNormal_isNormal arity⟩
  -- the empty stores hold nothing underivable
  have hsound : view none base ≤ (naiveStep tx prog (lowerStores prog base)).lfp := by
    rintro k t ⟨s, hs, hrow⟩
    rw [← OrderHom.map_lfp]
    by_cases hk : k ∈ prog.symbols
    · obtain ⟨arity, ha⟩ := hown k hk
      obtain rfl := Option.some.inj (hs.symm.trans ha)
      exact absurd hrow (not_totalRow_newNormal arity t)
    · exact .inr ⟨hk, s, (hst.lower_eq hk).trans hs, hrow⟩
  obtain ⟨hst', hlfp⟩ := epochs_spec hplain (hlower ▸ hagrees) horder rfl hst hsound (absurd rfl) h
  refine ⟨fun k hk => (hst'.frame k hk).trans (hframe k hk), fun k hk => ?_⟩
  obtain ⟨s, hs, -⟩ := hst'.own k hk
  refine ⟨s, hs, fun t => ?_⟩
  rw [← hlower, ← hlfp]
  exact ⟨fun hrow => ⟨s, hs, hrow⟩, fun ⟨s', hs', hrow⟩ => Option.some.inj (hs.symm.trans hs') ▸ hrow⟩

section Strata

variable {tx : SessionTx X} {lifetimes : MagicSymbol → Option Nat}
    {numToSkip : Option Nat} {order : Nat → Nat → MagicSymbol → List MagicSymbol} {fuel : Nat}

end Strata

/-! ### A recursive program -/

def noRelations (X : Type) : SessionTx X where
  scanAll _ := []
  scanPrefix _ _ := []
  scanBoundedPrefix _ _ _ _ := []
  get _ _ := .ok none
  skipScanAll _ _ := []
  skipScanPrefix _ _ _ := []
  skipScanBoundedPrefix _ _ _ _ _ := []
  tokenizer _ := .ok ()
  hnswKnn _ _ := .ok []
  ftsSearch _ _ := .ok []
  lshSearch _ _ := .ok []

/-- The relation `p` has the row `(true, json)`. -/
def jsonRelation (json : Bytes) : SessionTx Nat :=
  { noRelations Nat with scanAll := fun _ => [.ok [.bool true, .json json]] }

/-- `?[x] := x = parse_json(..)`. -/
def factRule (json : Bytes) : CompiledRule Nat where
  aggr := [none]
  relation := .unification .unit "x" (.const (.json json)) [.const (.json json)] false []
  containedRules := []
  mem_contained := by simp [unit, posKeys, negKeys]
  many_contained := by simp [unit, posKeys]

/-- `?[a] := ?[x], *p[a, x]`, whose join is materialised because `x` is the second column of `p`. -/
def joinRule : CompiledRule Nat where
  aggr := [none]
  relation := .reorder (.join (.tempStore ⟨["x"], .muggle "?", [], []⟩)
    (.stored ⟨["a", "**0"], ⟨"p", ["a", "x"], []⟩, [], []⟩) ⟨["x"], ["**0"], rfl⟩ []) ["a"]
  containedRules := [(.muggle "?", .one)]
  mem_contained := by simp [posKeys, negKeys]
  many_contained := by
    intro k hk
    have := count_le_length (a := k) (l := [.muggle "?"])
    exact absurd (hk.trans_le this) (by simp)

def jsonProgram (json : Bytes) : CompiledProgram Nat :=
  ⟨[(.muggle "?", .rules (factRule json) [joinRule])], by simp⟩

theorem mem_jsonProgram {json : Bytes} {k : MagicSymbol} {rs : CompiledRuleSet Nat}
    (h : (k, rs) ∈ (jsonProgram json).ruleSets) :
    k = .muggle "?" ∧ rs = .rules (factRule json) [joinRule] := by
  simpa [jsonProgram] using h

theorem mem_jsonRules {json : Bytes} {k : MagicSymbol} {first rule : CompiledRule Nat}
    {rest : List (CompiledRule Nat)}
    (h : (k, .rules first rest) ∈ (jsonProgram json).ruleSets) (hrule : rule ∈ first :: rest) :
    rule = factRule json ∨ rule = joinRule := by
  obtain ⟨-, heq⟩ := mem_jsonProgram h
  cases heq
  simpa using hrule

theorem plainStratum_jsonProgram (json : Bytes) : PlainStratum (jsonProgram json) where
  no_meet := by
    intro k rs h
    obtain ⟨-, rfl⟩ := mem_jsonProgram h
    intro hmeet
    cases hmeet
  neg_across := by
    intro k first rest h rule hrule
    rcases mem_jsonRules h hrule with rfl | rfl
    · simp [factRule, unit, negKeys]
    · simp [joinRule, negKeys]
  aggr_across := by
    intro k first rest h haggr
    obtain ⟨-, heq⟩ := mem_jsonProgram h
    cases heq
    cases haggr
  fixed_across := by
    intro k f h
    exact absurd (mem_jsonProgram h).2 (by simp)

/-- The rows that the program has: that of the fact, and `true` when `p` has the very same value. -/
def jsonRows (json stored : Bytes) : View Nat := fun k t =>
  k = .muggle "?" ∧ (t = [.json json] ∨ json = stored ∧ t = [.bool true])

theorem joinRow_jsonRows {json stored : Bytes} {lower : Stores Nat} {t : Tuple Nat}
    (h : joinRule.relation.Produces (jsonRelation stored) (jsonRows json stored) lower t) :
    json = stored ∧ t = [.bool true] := by
  obtain ⟨indices, hreorder, joined, ⟨columns, hcolumns, l, ⟨⟨-, hl⟩, -⟩, hrow⟩, ht⟩ := h
  cases hreorder
  cases hcolumns
  obtain ⟨found, cached, pre, row, hfound, hcached, hpre, htake, hback, rfl⟩ := hrow
  obtain rfl : found = [.bool true, .json stored] := by
    simpa [jsonRelation, RelAlgebra.Produces, StoredRA.iter] using hfound
  cases hcached
  cases hback
  rcases hl with rfl | ⟨-, rfl⟩
  · cases hpre
    cases ht
    cases htake
    exact ⟨rfl, rfl⟩
  · cases hpre
    cases htake

theorem lfp_le_jsonRows (json stored : Bytes) :
    (naiveStep (jsonRelation stored) (jsonProgram json) fun _ => none).lfp ≤
    jsonRows json stored := by
  refine OrderHom.lfp_le _ ?_
  rintro k t (⟨rs, hmem, hder⟩ | ⟨-, s, hs, -⟩)
  · obtain ⟨rfl, rfl⟩ := mem_jsonProgram hmem
    obtain ⟨rule, hrule, hprod⟩ := hder
    rcases mem_jsonRules hmem hrule with rfl | rfl
    · obtain ⟨l, hl, ht⟩ := hprod
      obtain rfl := mem_singleton.1 hl
      exact ⟨rfl, .inl (Except.ok.inj (mem_singleton.1 ht))⟩
    · exact ⟨rfl, .inr (joinRow_jsonRows hprod)⟩
  · cases hs

/-- With the same value on both sides, `==` is right. -/
theorem stratumAgrees_jsonProgram :
    StratumAgrees (jsonRelation zeroText) (jsonProgram zeroText) fun _ => none := by
  intro k first rest hmem rule hrule
  rcases mem_jsonRules hmem hrule with rfl | rfl
  · exact trivial
  · refine ⟨trivial, trivial, fun indices hindices _ l r pre cols hl hr hpre hcols heq => ?_⟩
    cases hindices
    obtain rfl : r = [.bool true, .json zeroText] := by
      simpa [jsonRelation, RelAlgebra.Produces, StoredRA.iter] using hr
    cases hcols
    obtain ⟨-, hl⟩ := lfp_le_jsonRows _ _ _ _ hl.1
    rcases hl with rfl | ⟨-, rfl⟩
    · cases hpre
      rfl
    · cases hpre
      cases heq

/-- The epochs of the program, with the value `json` in the fact and `stored` in the relation. -/
def evaluateJson (json stored : Bytes) : Except (EvalError Nat) (Stores Nat × Bool) :=
  evaluateStrata (jsonRelation stored) (fun _ => none) none none
    (fun _ _ _ => [.muggle "?"]) 4 [jsonProgram json] 0
    (fun _ => none) false

end Retia
