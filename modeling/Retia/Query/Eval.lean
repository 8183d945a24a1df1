import Mathlib
import Retia.Query.Produces

/-!
# Evaluating a stratified program

`query/eval.rs`: the compiled rules of a program are evaluated stratum by stratum. Within a stratum
the first epoch runs every rule on the stores as they are; every further epoch runs a rule only
where a store it reads has changed, once for each such store with that store read through its delta
view, or completely when a changed store is read in more than one place. The new rows are merged at
the end of an epoch, and the stratum ends with the first epoch that adds nothing.

* `CompiledRule` — a rule: its plan and the rules it mentions. That the plan reads only rules it
  mentions, and those it mentions once in one place, is part of the type;
* `initialRuleNonAggrEval`, `initialRuleAggrEval`, `initialRuleMeetEval`,
  `incrementalRuleNonAggrEval`, `incrementalRuleMeetEval` — one rule set in one epoch;
* `semiNaiveMagicEvaluate` — one stratum; the order in which the stores are tried as deltas is a
  parameter;
* `stratifiedMagicEvaluate` — the program, dropping stores that have outlived their usefulness.
-/

namespace Retia

open Std

variable {X : Type}

inductive AggrKind where
  | none | normal | meet
deriving DecidableEq

inductive ContainedRuleMultiplicity where
  | one | many
deriving DecidableEq

section Eval

variable [Ord X] [TransOrd X] [LawfulEqOrd X]

structure CompiledRule (X : Type) where
  aggr : List (Option (Aggregation X × List (DataValue X)))
  relation : RelAlgebra X
  containedRules : List (MagicSymbol × ContainedRuleMultiplicity)
  /-- The rules that the plan reads are mentioned. -/
  mem_contained : ∀ k ∈ relation.posKeys ++ relation.negKeys, ∃ m, (k, m) ∈ containedRules
  /-- A rule read in more than one place is mentioned more than once. -/
  many_contained : ∀ k, 1 < relation.posKeys.count k → (k, .many) ∈ containedRules

/-- `MagicFixedRuleApply`: an algorithm, as a function of the stores and the transaction. -/
structure FixedRuleApply (X : Type) [Ord X] [TransOrd X] [LawfulEqOrd X] where
  arity : Nat
  run : SessionTx X → Stores X → Except (EvalError X) (RegularTempStore X)

/-- `CompiledRuleSet`. A rule set has at least one rule. -/
inductive CompiledRuleSet (X : Type) [Ord X] [TransOrd X] [LawfulEqOrd X] where
  | rules (first : CompiledRule X) (rest : List (CompiledRule X))
  | fixed (fixed : FixedRuleApply X)

/-- The loop of `aggr_kind` over the head of the first rule: whether there is an aggregation, and
whether the rule set has to be aggregated the normal way. -/
def aggrFlags : List (Option (Aggregation X × List (DataValue X))) → Bool × Bool → Bool × Bool
  | [], flags => flags
  | .none :: aggrs, (hasAggr, hasNonMeet) =>
    -- meet aggregations must all be at the last positions
    aggrFlags aggrs (hasAggr, hasNonMeet || hasAggr)
  | some (aggr, _) :: aggrs, (_, hasNonMeet) => aggrFlags aggrs (true, hasNonMeet || !aggr.isMeet)

def headAggrKind (aggrs : List (Option (Aggregation X × List (DataValue X)))) : AggrKind :=
  match aggrFlags aggrs (false, false) with
  | (false, _) => .none
  | (true, true) => .normal
  | (true, false) => .meet

namespace CompiledRuleSet

def arity : CompiledRuleSet X → Nat
  | rules first _ => first.aggr.length
  | fixed f => f.arity

def aggrKind : CompiledRuleSet X → AggrKind
  | rules first _ => headAggrKind first.aggr
  | fixed _ => .none

end CompiledRuleSet

structure CompiledProgram (X : Type) [Ord X] [TransOrd X] [LawfulEqOrd X] where
  ruleSets : List (MagicSymbol × CompiledRuleSet X)
  nodup : (ruleSets.map Prod.fst).Nodup

/-! ### The limiter -/

structure QueryLimiter where
  total : Option Nat
  skip : Option Nat
  counter : Nat

namespace QueryLimiter

def incrAndShouldStop (l : QueryLimiter) : Bool × QueryLimiter :=
  match l.total with
  | some limit => (l.counter + 1 ≥ limit, { l with counter := l.counter + 1 })
  | none => (false, l)

def shouldSkipNext (l : QueryLimiter) : Bool := l.skip.any fun i => i > l.counter

/-- A new row, marked if it is still to be skipped. -/
def put (l : QueryLimiter) (out : RegularTempStore X) (item : Tuple X) : RegularTempStore X :=
  if l.shouldSkipNext then out.putWithSkip item else out.put item

/-- `limiter.total.is_some() && rule_symb.is_prog_entry()`. -/
def shouldCheck (l : QueryLimiter) (ruleSymb : MagicSymbol) : Bool :=
  l.total.isSome && ruleSymb.isProgEntry

end QueryLimiter

/-- The state of an evaluation of a rule set: the rows so far and the limiter; and whether the
evaluation has been stopped by the limit. -/
abbrev EvalOut (X : Type) [Ord X] [TransOrd X] [LawfulEqOrd X] :=
  Bool × RegularTempStore X × QueryLimiter

/-- Runs `body` on each element until one of them is stopped by the limit. -/
def untilStopped {α : Type*} (body : α → RegularTempStore X → QueryLimiter →
      Except (EvalError X) (EvalOut X)) :
    List α → RegularTempStore X → QueryLimiter → Except (EvalError X) (EvalOut X)
  | [], out, limiter => .ok (false, out, limiter)
  | a :: as, out, limiter => do
    let (stopped, out, limiter) ← body a out limiter
    if stopped then return (true, out, limiter) else untilStopped body as out limiter

/-! ### Plain rules -/

def initialItem (shouldCheckLimit : Bool) (item : Except (EvalError X) (Tuple X))
    (out : RegularTempStore X) (limiter : QueryLimiter) : Except (EvalError X) (EvalOut X) := do
  let item ← item
  if shouldCheckLimit then
    if out.exists item then return (false, out, limiter)
    else
      let out := limiter.put out item
      let (stop, limiter) := limiter.incrAndShouldStop
      return (stop, out, limiter)
  else return (false, out.put item, limiter)

def initialRuleNonAggrEval (tx : SessionTx X) (ruleSymb : MagicSymbol)
    (ruleset : List (CompiledRule X)) (stores : Stores X) (limiter : QueryLimiter) :
    Except (EvalError X) (EvalOut X) := do
  let shouldCheckLimit := limiter.shouldCheck ruleSymb
  let (stopped, out, limiter) ← untilStopped (fun rule out limiter => do
    untilStopped (initialItem shouldCheckLimit) (← rule.relation.iter tx none stores) out limiter)
    ruleset .empty limiter
  return (stopped || shouldCheckLimit, out, limiter)

/-- The check of the rules that a rule mentions: whether the store of one of them has changed, and
whether the rule has to be run completely. -/
def dependencyCheck (stores : Stores X) : List (MagicSymbol × ContainedRuleMultiplicity) →
    Bool → Except (EvalError X) (Bool × Bool)
  | [], dependenciesChanged => .ok (dependenciesChanged, false)
  | (symb, multiplicity) :: contained, dependenciesChanged => do
    let s ← stores.unwrap symb
    if s.hasDelta then
      if multiplicity = .many then return (true, true) else dependencyCheck stores contained true
    else dependencyCheck stores contained dependenciesChanged

def deltaRuns (rule : CompiledRule X) (stores : Stores X) (order : List MagicSymbol) :
    Except (EvalError X) (List (Option MagicSymbol)) := do
  let (dependenciesChanged, needCompleteRun) ← dependencyCheck stores rule.containedRules false
  return if !dependenciesChanged then []
    else if needCompleteRun then [none]
    else (order.filter fun k => rule.containedRules.any fun c => c.1 = k).map some

def incrementalItem (shouldCheckLimit : Bool) (prevStore : EpochStore X)
    (item : Except (EvalError X) (Tuple X)) (out : RegularTempStore X)
    (limiter : QueryLimiter) : Except (EvalError X) (EvalOut X) := do
  let item ← item
  if ← (prevStore.exists item).mapError .panic then return (false, out, limiter)
  else
    let out := limiter.put out item
    if shouldCheckLimit then
      let (stop, limiter) := limiter.incrAndShouldStop
      return (stop, out, limiter)
    else return (false, out, limiter)

def incrementalRuleNonAggrEval (tx : SessionTx X) (ruleSymb : MagicSymbol)
    (ruleset : List (CompiledRule X)) (stores : Stores X) (order : List MagicSymbol)
    (limiter : QueryLimiter) : Except (EvalError X) (EvalOut X) := do
  let prevStore ← stores.unwrap ruleSymb
  let shouldCheckLimit := limiter.shouldCheck ruleSymb
  let (stopped, out, limiter) ← untilStopped (fun rule out limiter => do
    untilStopped (fun deltaRule out limiter => do
      untilStopped (incrementalItem shouldCheckLimit prevStore)
        (← rule.relation.iter tx deltaRule stores) out limiter)
      (← deltaRuns rule stores order) out limiter)
    ruleset .empty limiter
  return (stopped || shouldCheckLimit, out, limiter)

/-! ### Normal aggregations -/

/-- A running aggregation: its implementation and accumulator. -/
structure RunningAggr (X : Type) where
  op : NormalAggrObj X
  state : op.State

namespace RunningAggr

def set (a : RunningAggr X) (v : DataValue X) : Except (EvalError X) (RunningAggr X) :=
  match a.op.set a.state v with
  | .ok state => .ok ⟨a.op, state⟩
  | .error e => .error (.aggr e)

def get (a : RunningAggr X) : Except (EvalError X) (DataValue X) :=
  (a.op.get a.state).mapError .aggr

/-- `normal_init`. -/
def init (aggr : Aggregation X × List (DataValue X)) : Except (EvalError X) (RunningAggr X) :=
  match aggr.1.normalInit aggr.2 with
  | .ok op => .ok ⟨op, op.default⟩
  | .error e => .error (.aggr e)

end RunningAggr

/-- `set` on each running aggregation with the value of its column. -/
def setAll : List (RunningAggr X) → Tuple X → Except (EvalError X) (List (RunningAggr X))
  | a :: aggrs, v :: vals =>
    match a.set v with
    | .error e => .error e
    | .ok a =>
      match setAll aggrs vals with
      | .error e => .error e
      | .ok aggrs => .ok (a :: aggrs)
  | aggrs, [] => .ok aggrs
  | [], _ :: _ => .error (.panic .indexOutOfBounds)

/-- `normal_init` on each aggregated column. -/
def initAll : List (Aggregation X × List (DataValue X)) →
    Except (EvalError X) (List (RunningAggr X))
  | [] => .ok []
  | aggr :: aggrs =>
    match RunningAggr.init aggr with
    | .error e => .error e
    | .ok a =>
      match initAll aggrs with
      | .error e => .error e
      | .ok aggrs => .ok (a :: aggrs)

/-- The positions of the grouping columns and of the aggregated ones. -/
def keysIndices (aggrs : List (Option (Aggregation X × List (DataValue X)))) : List Nat :=
  (aggrs.zipIdx.filter fun a => a.1.isNone).map Prod.snd

def valIndices (aggrs : List (Option (Aggregation X × List (DataValue X)))) : List Nat :=
  (aggrs.zipIdx.filter fun a => a.1.isSome).map Prod.snd

/-- The groups of a rule set and their running aggregations. -/
abbrev AggrWork (X : Type) [Ord X] [TransOrd X] [LawfulEqOrd X] :=
  ExtTreeMap (Tuple X) (List (RunningAggr X))

def groupOps (aggrs : List (Option (Aggregation X × List (DataValue X)))) (work : AggrWork X)
    (keys : Tuple X) : Except (EvalError X) (List (RunningAggr X)) :=
  match work[keys]? with
  | some ops => .ok ops
  | none => initAll aggrs.reduceOption

def aggrItem (aggrs : List (Option (Aggregation X × List (DataValue X)))) (work : AggrWork X)
    (item : Except (EvalError X) (Tuple X)) : Except (EvalError X) (AggrWork X) :=
  match item with
  | .error e => .error e
  | .ok item =>
    match pick item (keysIndices aggrs), pick item (valIndices aggrs) with
    | .ok keys, .ok vals =>
      match groupOps aggrs work keys with
      | .error e => .error e
      | .ok ops =>
        match setAll ops vals with
        | .error e => .error e
        | .ok ops => .ok (work.insert keys ops)
    | _, _ => .error (.panic .indexOutOfBounds)

def aggrGroups (tx : SessionTx X) (stores : Stores X) : List (CompiledRule X) →
    AggrWork X → Except (EvalError X) (AggrWork X)
  | [], work => .ok work
  | rule :: ruleset, work =>
    match rule.relation.iter tx none stores with
    | .error e => .error e
    | .ok items =>
      match items.foldlM (aggrItem rule.aggr) work with
      | .error e => .error e
      | .ok work => aggrGroups tx stores ruleset work

def groupTuple : List (Option (Aggregation X × List (DataValue X))) → Tuple X →
    List (RunningAggr X) → Except (EvalError X) (Tuple X)
  | [], _, _ => .ok []
  | some _ :: head, keys, a :: aggrs => do return (← a.get) :: (← groupTuple head keys aggrs)
  | none :: head, k :: keys, aggrs => do return k :: (← groupTuple head keys aggrs)
  | _, _, _ => .error (.panic .indexOutOfBounds)

/-- The row of a rule set that aggregates everything and has derived nothing. -/
def emptyResult (head : List (Option (Aggregation X × List (DataValue X)))) :
    Except (EvalError X) (Tuple X) :=
  head.mapM fun a =>
    match a with
    | some aggr =>
      match RunningAggr.init aggr with
      | .ok a => a.get
      | .error e => .error e
    | none => .error (.panic .unreachable)

/-- The rows before those of the groups: with everything aggregated and nothing derived, the row of
no rows. -/
def aggrStart (head : List (Option (Aggregation X × List (DataValue X))))
    (work : AggrWork X) : Except (EvalError X) (RegularTempStore X) :=
  if work.isEmpty && head.all Option.isSome then do
    return RegularTempStore.empty.put (← emptyResult head)
  else .ok .empty

def initialRuleAggrEval (tx : SessionTx X) (ruleSymb : MagicSymbol) (first : CompiledRule X)
    (rest : List (CompiledRule X)) (stores : Stores X) (limiter : QueryLimiter) :
    Except (EvalError X) (EvalOut X) :=
  match aggrGroups tx stores (first :: rest) ∅ with
  | .error e => .error e
  | .ok work => do
    let shouldCheckLimit := limiter.shouldCheck ruleSymb
    let out ← aggrStart first.aggr work
    let (stopped, out, limiter) ← untilStopped (fun group out limiter =>
      initialItem shouldCheckLimit (groupTuple first.aggr group.1 group.2) out limiter)
      work.toList out limiter
    return (stopped || shouldCheckLimit, out, limiter)

/-! ### Meet aggregations -/

/-- The rows of one run of a rule, merged into the groups. -/
def meetItems (items : TupleIter X) (out : MeetAggrStore X) :
    Except (EvalError X) (MeetAggrStore X) :=
  items.foldlM (fun out item => do return (← out.meetPut (← item)).1) out

def initialRuleMeetEval (tx : SessionTx X) (first : CompiledRule X) (rest : List (CompiledRule X))
    (stores : Stores X) : Except (EvalError X) (MeetAggrStore X) := do
  let out ← MeetAggrStore.new first.aggr
  let out ← (first :: rest).foldlM (fun out rule => do
    -- the aggregations of the rule itself are initialised, and fail, but are not used
    let _ ← MeetAggrStore.initOps rule.aggr
    meetItems (← rule.relation.iter tx none stores) out) out
  if out.isEmpty && first.aggr.all Option.isSome then
    let ops ← MeetAggrStore.initOps first.aggr
    return (← out.meetPut (ops.map MeetAggrObj.initVal)).1
  else return out

def incrementalRuleMeetEval (tx : SessionTx X) (first : CompiledRule X)
    (rest : List (CompiledRule X)) (stores : Stores X) (order : List MagicSymbol) :
    Except (EvalError X) (MeetAggrStore X) := do
  let out ← MeetAggrStore.new first.aggr
  (first :: rest).foldlM (fun out rule => do
    let runs ← deltaRuns rule stores order
    if runs.isEmpty then return out
    else
      let _ ← MeetAggrStore.initOps rule.aggr
      runs.foldlM (fun out deltaRule => do
        meetItems (← rule.relation.iter tx deltaRule stores) out) out) out

/-! ### Strata -/

/-- What a rule set contributes to the merge of an epoch: whether the limiter was in use, and the
new rows. -/
abbrev Contribution (X : Type) [Ord X] [TransOrd X] [LawfulEqOrd X] :=
  Bool × TempStore X × QueryLimiter

def initialEval (tx : SessionTx X) (stores : Stores X) (k : MagicSymbol) (rs : CompiledRuleSet X)
    (limiter : QueryLimiter) : Except (EvalError X) (Contribution X) :=
  match rs with
  | .rules first rest =>
    match rs.aggrKind with
    | .none => do
      let (used, out, limiter) ← initialRuleNonAggrEval tx k (first :: rest) stores limiter
      return (used, .normal out, limiter)
    | .normal => do
      let (used, out, limiter) ← initialRuleAggrEval tx k first rest stores limiter
      return (used, .normal out, limiter)
    | .meet => do return (false, .meetAggr (← initialRuleMeetEval tx first rest stores), limiter)
  | .fixed f => do return (false, .normal (← f.run tx stores), limiter)

def incrementalEval (tx : SessionTx X) (stores : Stores X) (order : MagicSymbol → List MagicSymbol)
    (k : MagicSymbol) (rs : CompiledRuleSet X) (limiter : QueryLimiter) :
    Except (EvalError X) (Contribution X) :=
  match rs with
  | .rules first rest =>
    match rs.aggrKind with
    | .none => do
      let (used, out, limiter) ←
        incrementalRuleNonAggrEval tx k (first :: rest) stores (order k) limiter
      return (used, .normal out, limiter)
    | .meet => do
      return (false, .meetAggr (← incrementalRuleMeetEval tx first rest stores (order k)), limiter)
    -- not doing anything
    | .normal => .ok (false, .normal .empty, limiter)
  -- no need to do anything, algos are only calculated once
  | .fixed _ => .ok (false, .normal .empty, limiter)

/-- The rule sets of an epoch one after the other: what is to be merged, the limiter, and whether
the limiter was in use. -/
def executeAll (execution : MagicSymbol → CompiledRuleSet X → QueryLimiter →
      Except (EvalError X) (Contribution X)) :
    List (MagicSymbol × CompiledRuleSet X) → QueryLimiter →
    Except (EvalError X) (List (MagicSymbol × TempStore X) × QueryLimiter × Bool)
  | [], limiter => .ok ([], limiter, false)
  | (k, rs) :: ruleSets, limiter => do
    let (used, store, limiter) ← execution k rs limiter
    let (toMerge, limiter, used') ← executeAll execution ruleSets limiter
    return ((k, store) :: toMerge, limiter, used || used')

def executionOrder (prog : CompiledProgram X) (limiterEnabled : Bool) :
    List (MagicSymbol × CompiledRuleSet X) :=
  (prog.ruleSets.filter fun e => limiterEnabled && e.1.isProgEntry) ++ prog.ruleSets.filter fun e =>
    !(limiterEnabled && e.1.isProgEntry)

def mergeAll : List (MagicSymbol × TempStore X) → Stores X → Except (EvalError X) (Stores X × Bool)
  | [], stores => .ok (stores, false)
  | (k, new) :: toMerge, stores => do
    let old ← stores.unwrap k
    let s ← old.mergeIn new
    let (stores, changed) ← mergeAll toMerge (Function.update stores k (some s))
    return (stores, s.hasDelta || changed)

/-- One epoch: the stores after it, whether one of them has changed, the limiter, and whether the
limiter was in use. -/
def runEpoch (tx : SessionTx X) (prog : CompiledProgram X) (epoch : Nat)
    (order : MagicSymbol → List MagicSymbol) (stores : Stores X) (limiter : QueryLimiter) :
    Except (EvalError X) (Stores X × Bool × QueryLimiter × Bool) := do
  let execution := if epoch = 0 then initialEval tx stores else incrementalEval tx stores order
  let (toMerge, limiter, used) ←
    executeAll execution (executionOrder prog limiter.total.isSome) limiter
  let (stores, changed) ← mergeAll toMerge stores
  return (stores, changed, limiter, used)

/-- The epochs of a stratum, for at most `fuel` of them. -/
def epochs (tx : SessionTx X) (prog : CompiledProgram X)
    (order : Nat → MagicSymbol → List MagicSymbol) :
    (fuel epoch : Nat) → Stores X → QueryLimiter → Except (EvalError X) (Stores X × Bool)
  | 0, _, _, _ => .error .unfinished
  | fuel + 1, epoch, stores, limiter => do
    let (stores, changed, limiter, used) ← runEpoch tx prog epoch (order epoch) stores limiter
    if !changed then return (stores, used)
    else
      let (stores, used') ← epochs tx prog order fuel (epoch + 1) stores limiter
      return (stores, used || used')

/-- `semi_naive_magic_evaluate`: the stores after the stratum, and whether early return is
activated. -/
def semiNaiveMagicEvaluate (tx : SessionTx X) (prog : CompiledProgram X) (stores : Stores X)
    (totalNumToTake numToSkip : Option Nat) (order : Nat → MagicSymbol → List MagicSymbol)
    (fuel : Nat) : Except (EvalError X) (Stores X × Bool) :=
  epochs tx prog order fuel 0 stores ⟨totalNumToTake, numToSkip, 0⟩

def newStore (rs : CompiledRuleSet X) : Except (EvalError X) (EpochStore X) :=
  match rs.aggrKind, rs with
  | .meet, .rules first _ => EpochStore.newMeet first.aggr
  | .meet, .fixed _ => .error (.panic .unreachable)
  | _, rs => .ok (EpochStore.newNormal rs.arity)

def insertStores : List (MagicSymbol × CompiledRuleSet X) → Stores X →
    Except (EvalError X) (Stores X)
  | [], stores => .ok stores
  | (k, rs) :: ruleSets, stores => do
    insertStores ruleSets (Function.update stores k (some (← newStore rs)))

/-- Remove stores that have outlived their usefulness. -/
def retain (lifetimes : MagicSymbol → Option Nat) (stratum : Nat) (stores : Stores X) : Stores X :=
  fun k => if (lifetimes k).any fun n => n ≥ stratum then stores k else none

def liveStores (lifetimes : MagicSymbol → Option Nat) (stratum : Nat) (stores : Stores X) :
    Stores X :=
  if stratum > 0 then retain lifetimes stratum stores else stores

/-- The strata from number `stratum` on, on the stores left by those before it; and whether early
return was activated in the last one. -/
def evaluateStrata (tx : SessionTx X) (lifetimes : MagicSymbol → Option Nat)
    (totalNumToTake numToSkip : Option Nat) (order : Nat → Nat → MagicSymbol → List MagicSymbol)
    (fuel : Nat) : List (CompiledProgram X) → (stratum : Nat) → Stores X → Bool →
    Except (EvalError X) (Stores X × Bool)
  | [], _, stores, earlyReturn => .ok (stores, earlyReturn)
  | prog :: strata, stratum, stores, _ => do
    let stores ← insertStores prog.ruleSets (liveStores lifetimes stratum stores)
    let (stores, earlyReturn) ←
      semiNaiveMagicEvaluate tx prog stores totalNumToTake numToSkip (order stratum) fuel
    evaluateStrata tx lifetimes totalNumToTake numToSkip order fuel strata (stratum + 1) stores earlyReturn

/-- `stratified_magic_evaluate`: the store of the entry rule, and whether early return is
activated. -/
def stratifiedMagicEvaluate (tx : SessionTx X) (strata : List (CompiledProgram X))
    (lifetimes : MagicSymbol → Option Nat) (totalNumToTake numToSkip : Option Nat)
    (order : Nat → Nat → MagicSymbol → List MagicSymbol) (fuel : Nat) :
    Except (EvalError X) (EpochStore X × Bool) := do
  let (stores, earlyReturn) ←
    evaluateStrata tx lifetimes totalNumToTake numToSkip order fuel strata 0 (fun _ => none) false
  match stores (.muggle "?") with
  | some s => return (s, earlyReturn)
  | none => throw .noEntry

end Eval

end Retia
