import Mathlib
import Retia.Query.Eval
import Retia.Runtime.Session

/-!
# Compiling rules to plans

`query/compile.rs`, with the functions of `query/ra.rs` that build plans: the atoms of a rule body
are joined one after the other to what the atoms before them have given. A variable that has been
seen is joined on under a generated name; for an atom over a stored relation an index may be picked,
which then replaces the relation or stands before it.

* `RelAlgebra.addFilter` — a condition goes as far down the joins as its variables allow;
* `RelAlgebra.eliminateTempVars`, `RelAlgebra.fillBindingIndicesAndCompile` — what follows when the
  plan is complete.

Access levels are tested in one place only, for the relations of positive atoms.
-/

namespace Retia

open Std

variable {X : Type}

/-- `symbol`: the name of the rule in the program that was rewritten. -/
def MagicSymbol.symbol : MagicSymbol → Symbol
  | muggle inner | magic inner _ | input inner _ | sup inner _ _ _ => inner

/-- An atom of a rewritten rule. The three index searches are treated alike; `allBindings` are the
variables a search binds. -/
inductive MagicAtom (X : Type) where
  | rule (name : MagicSymbol) (args : List Symbol)
  | relation (name : String) (args : List Symbol) (validAt : Option Int64)
  | predicate (p : Expr X)
  | negatedRule (name : MagicSymbol) (args : List Symbol)
  | negatedRelation (name : String) (args : List Symbol) (validAt : Option Int64)
  | unification (binding : Symbol) (expr : Expr X) (oneManyUnif : Bool)
  | search (s : Search X) (allBindings : List Symbol)

inductive CompileError (X : Type) where
  /-- The relation could not be looked up. -/
  | relation (msg : String)
  /-- `RuleNotFound`. -/
  | ruleNotFound (name : Symbol)
  /-- `ArityMismatch`: required, given. -/
  | arityMismatch (name : String) (required given : Nat)
  /-- `InsufficientAccessLevel`: the relation, the operation and the level. -/
  | insufficientAccessLevel (name operation : String) (level : AccessLevel)
  /-- `InvalidTimeTravelScanning`. -/
  | invalidTimeTravel (name : String)
  /-- `UnboundSymbolInRuleHead`. -/
  | unboundSymbolInRuleHead (name : Symbol)
  | eval (e : EvalError X)

/-! ### Building plans -/

def Joiner.ofPairs (keys : List (Symbol × Symbol)) : Joiner :=
  ⟨keys.map Prod.fst, keys.map Prod.snd, by simp⟩

def Session.IndexRelation.storage (h : Session.IndexRelation) : StorageHandle :=
  ⟨h.name, h.metadata.keys.map (·.name), h.metadata.nonKeys.map (·.name)⟩

section Build

variable [Ord X]

namespace RelAlgebra

def derived (bindings : List Symbol) (storageKey : MagicSymbol) : RelAlgebra X :=
  .tempStore ⟨bindings, storageKey, [], []⟩

/-- A stored relation, now or at another time; the latter needs a validity in the last key column.
-/
def relation (bindings : List Symbol) (storage : Session.IndexRelation)
    (validity : Option Int64) : Except (CompileError X) (RelAlgebra X) :=
  match validity with
  | none => .ok (.stored ⟨bindings, storage.storage, [], []⟩)
  | some vld =>
    match storage.metadata.keys.getLast? with
    | none => .error (.eval (.panic .unreachable))
    | some col =>
      if !col.typing.beq (.mk .validity false) then .error (.invalidTimeTravel storage.name)
      else .ok (.storedWithValidity ⟨bindings, storage.storage, [], [], vld⟩)

/-- How deep joins are nested along the way of a filter. -/
def joinDepth : RelAlgebra X → Nat
  | .join left right _ _ => max left.joinDepth right.joinDepth + 1
  | _ => 0

def placeFilter (push : RelAlgebra X → Expr X → Except (EvalError X) (RelAlgebra X))
    (leftBindings rightBindings : List Symbol) (acc : RelAlgebra X × RelAlgebra X × List (Expr X))
    (e : Expr X) : Except (EvalError X) (RelAlgebra X × RelAlgebra X × List (Expr X)) := do
  let (left, right, remaining) := acc
  let fBindings ← e.bindings
  if fBindings.all (· ∈ leftBindings) then return (← push left e, right, remaining)
  else if fBindings.all (· ∈ rightBindings) then return (left, ← push right e, remaining)
  else return (left, right, remaining ++ [e])

/-- `filter`, down to a number of nested joins. -/
def filterWithin : Nat → RelAlgebra X → Expr X → Except (EvalError X) (RelAlgebra X)
  | _, .filter parent filters filtersBytecodes toEliminate, e =>
    .ok (.filter parent (filters ++ [e]) filtersBytecodes toEliminate)
  | _, .tempStore r, e => .ok (.tempStore { r with filters := r.filters ++ [e] })
  | _, .stored r, e => .ok (.stored { r with filters := r.filters ++ [e] })
  | _, .storedWithValidity r, e => .ok (.storedWithValidity { r with filters := r.filters ++ [e] })
  | 0, .join _ _ _ _, _ => .error (.panic .unreachable)
  | depth + 1, .join left right joiner toEliminate, e => do
    let (left, right, remaining) ← e.toConjunction.foldlM
      (placeFilter (filterWithin depth) left.bindingsBeforeEliminate right.bindingsBeforeEliminate)
      (left, right, [])
    let joined := .join left right joiner toEliminate
    return if remaining.isEmpty then joined else .filter joined remaining [] []
  | _, s, e => .ok (.filter s [e] [] [])

/-- `filter`. -/
def addFilter (r : RelAlgebra X) (e : Expr X) : Except (EvalError X) (RelAlgebra X) :=
  filterWithin r.joinDepth r e

def unused (bindings used : List Symbol) : List Symbol := bindings.filter (· ∉ used)

def bindingsOf (filters : List (Expr X)) : Except (EvalError X) (List Symbol) := do
  return (← filters.mapM Expr.bindings).flatten

def rightFilters : RelAlgebra X → List (Expr X)
  | .tempStore r => r.filters
  | _ => []

/-- `eliminate_temp_vars`. -/
def eliminateTempVars : RelAlgebra X → List Symbol → Except (EvalError X) (RelAlgebra X)
  | .fixed r, used => .ok (.fixed { r with toEliminate := r.toEliminate ++ unused r.bindings used })
  | .join left right joiner toEliminate, used => do
    let bindings := left.bindingsAfterEliminate ++ right.bindingsAfterEliminate
    let filters ← bindingsOf right.rightFilters
    return .join (← left.eliminateTempVars (used ++ joiner.leftKeys ++ filters))
      (← right.eliminateTempVars (used ++ joiner.rightKeys)) joiner (toEliminate ++ unused bindings used)
  | .reorder relation newOrder, used => do return .reorder (← relation.eliminateTempVars used) newOrder
  | .filter parent filters filtersBytecodes toEliminate, used => do
    let bindings := parent.bindingsBeforeEliminate
    let more ← bindingsOf filters
    return .filter (← parent.eliminateTempVars (used ++ more)) filters filtersBytecodes
      (toEliminate ++ unused bindings used)
  | .negJoin left right joiner toEliminate, used => do
    let bindings := left.bindingsAfterEliminate
    -- the right side acts as a filter and introduces nothing
    return .negJoin (← left.eliminateTempVars (used ++ joiner.leftKeys)) right joiner
      (toEliminate ++ unused bindings used)
  | .unification parent binding expr exprBytecode isMulti toEliminate, used => do
    let bindings := parent.bindingsBeforeEliminate
    let more ← expr.bindings
    return .unification (← parent.eliminateTempVars (used ++ more)) binding expr
      exprBytecode isMulti (toEliminate ++ unused bindings used)
  | r, _ => .ok r

/-- The positions of the variables are filled in and the expressions compiled. -/
def compileFilters (bindings : List Symbol) (filters : List (Expr X))
    (filtersBytecodes : List (List (Bytecode X))) :
    Except (EvalError X) (List (Expr X) × List (List (Bytecode X))) := do
  let compiled ← filters.mapM fun e => do
    let e ← e.fillBindingIndices (positionOf · bindings)
    return (e, ← e.compile)
  return (compiled.map Prod.fst, filtersBytecodes ++ compiled.map Prod.snd)

/-- `fill_binding_indices_and_compile`. The right side of an anti-join is left as it is. -/
def fillBindingIndicesAndCompile : RelAlgebra X → Except (EvalError X) (RelAlgebra X)
  | .fixed r => .ok (.fixed r)
  | .tempStore r => do
    let (filters, filtersBytecodes) ← compileFilters r.bindings r.filters r.filtersBytecodes
    return .tempStore { r with filters, filtersBytecodes }
  | .stored r => do
    let (filters, filtersBytecodes) ← compileFilters r.bindings r.filters r.filtersBytecodes
    return .stored { r with filters, filtersBytecodes }
  | .storedWithValidity r => do
    let (filters, filtersBytecodes) ← compileFilters r.bindings r.filters r.filtersBytecodes
    return .storedWithValidity { r with filters, filtersBytecodes }
  | .search parent s ownBindings => do
    let parent ← parent.fillBindingIndicesAndCompile
    match s.filter with
    | none => return .search parent s ownBindings
    | some e =>
      let e ← e.fillBindingIndices (positionOf · ownBindings)
      return .search parent { s with filter := some e, filterBytecode := some (← e.compile) } ownBindings
  | .reorder relation newOrder => do return .reorder (← relation.fillBindingIndicesAndCompile) newOrder
  | .filter parent filters filtersBytecodes toEliminate => do
    let parent ← parent.fillBindingIndicesAndCompile
    let (filters, filtersBytecodes) ← compileFilters parent.bindingsAfterEliminate filters filtersBytecodes
    return .filter parent filters filtersBytecodes toEliminate
  | .negJoin left right joiner toEliminate => do
    return .negJoin (← left.fillBindingIndicesAndCompile) right joiner toEliminate
  | .unification parent binding expr _ isMulti toEliminate => do
    let parent ← parent.fillBindingIndicesAndCompile
    let expr ← expr.fillBindingIndices (positionOf · parent.bindingsAfterEliminate)
    return .unification parent binding expr (← expr.compile) isMulti toEliminate
  | .join left right joiner toEliminate => do
    return .join (← left.fillBindingIndicesAndCompile)
      (← right.fillBindingIndicesAndCompile) joiner toEliminate

end RelAlgebra

end Build

/-! ### Indices -/

inductive IndexPositionUse where
  | join | bindForLater | ignored
deriving DecidableEq

/-- `is_generated_ignored_symbol`. -/
def isGeneratedIgnoredSymbol (s : Symbol) : Bool := s.toList.head? == some '~'

/-- The number of columns at the front of an index that are joined on. -/
def joinPrefixLen (argUses : List IndexPositionUse) : List Nat → Except (CompileError X) Nat
  | [] => .ok 0
  | i :: mapper =>
    match argUses[i]? with
    | none => .error (.eval (.panic .indexOutOfBounds))
    | some .join => do return (← joinPrefixLen argUses mapper) + 1
    | some _ => .ok 0

/-- The index picked so far, its columns in the relation, and whether the relation is still needed.
-/
abbrev ChosenIndex := Option (Session.IndexRelation × List Nat × Bool)

/-- One index in the loop of `choose_index`. -/
def considerIndex (keyLen : Nat) (argUses : List IndexPositionUse) (validityQuery : Bool)
    (acc : Nat × ChosenIndex) (index : Session.IndexRelation × List Nat) :
    Except (CompileError X) (Nat × ChosenIndex) := do
  let (maxPrefixLen, chosen) := acc
  let (manifest, mapper) := index
  let skipped ← if validityQuery then
      match mapper.getLast? with
      | none => throw (.eval (.panic .unreachable))
      | some last => pure (last + 1 ≠ keyLen : Bool)
    else pure false
  if skipped then return (maxPrefixLen, chosen)
  else
    let curPrefixLen ← joinPrefixLen argUses mapper
    if curPrefixLen > maxPrefixLen then
      let requiredPositions := (argUses.zipIdx.filter fun u => u.1 ≠ .ignored).map Prod.snd
      let needJoin := requiredPositions.any (· ∉ mapper)
      return (curPrefixLen, some (manifest, mapper, needJoin))
    else return (maxPrefixLen, chosen)

/-- `choose_index`: the index with the most columns at its front that are joined on, unless the
relation itself starts with such a column. -/
def chooseIndex (h : Session.RelationHandle) (argUses : List IndexPositionUse)
    (validityQuery : Bool) : Except (CompileError X) ChosenIndex :=
  if h.indices.isEmpty then .ok none
  else
    match argUses.head? with
    | none => .error (.eval (.panic .unreachable))
    | some .join => .ok none
    | some _ => do
      let (_, chosen) ← (h.indices.map Prod.snd).foldlM
        (considerIndex h.metadata.keys.length argUses validityQuery) (0, none)
      return chosen

/-! ### Atoms -/

structure Building (X : Type) where
  ret : RelAlgebra X
  seenVariables : List Symbol
  serialId : Nat

structure AtomArgs where
  /-- `prev_joiner_vars` with `right_joiner_vars`. -/
  joined : List (Symbol × Symbol)
  /-- `right_joiner_vars_pos_rev`: which of these pairs an argument has given. -/
  posRev : List (Option Nat)
  rightVars : List Symbol
  joinIndices : List IndexPositionUse

/-- `gen_symb`. -/
def genSymb (serialId : Nat) : Symbol := s!"**{serialId}"

/-- One argument: a variable that has been seen is joined on under a generated name. -/
def bindArg (remember : Bool) (acc : AtomArgs × List Symbol × Nat) (var : Symbol) :
    AtomArgs × List Symbol × Nat :=
  let (a, seenVariables, serialId) := acc
  if var ∈ seenVariables then
    let rk := genSymb serialId
    (⟨a.joined ++ [(var, rk)], a.posRev ++ [some a.joined.length], a.rightVars ++ [rk],
      a.joinIndices ++ [.join]⟩, seenVariables, serialId + 1)
  else
    (⟨a.joined, a.posRev ++ [none], a.rightVars ++ [var],
      a.joinIndices ++ [if isGeneratedIgnoredSymbol var then .ignored else .bindForLater]⟩,
      if remember then seenVariables ++ [var] else seenVariables, serialId)

/-- The loop over the arguments. In negated applications of rules new variables are not remembered.
-/
def bindArgs (remember : Bool) (args : List Symbol) (b : Building X) : AtomArgs × Building X :=
  let (a, seenVariables, serialId) :=
    args.foldl (bindArg remember) (⟨[], [], [], []⟩, b.seenVariables, b.serialId)
  (a, { b with seenVariables, serialId })

/-- The columns of an index, by their positions in the relation. -/
def mapVars {α : Type} (vars : List α) (mapper : List Nat) : Except (CompileError X) (List α) :=
  mapper.mapM fun i =>
    match vars[i]? with
    | some v => .ok v
    | none => .error (.eval (.panic .indexOutOfBounds))

def equateVars [Ord X] (left right : Symbol) : Expr X :=
  .buildEquate [.binding left none, .binding right none]

section Join

variable [Ord X]

/-- The last case of a positive atom: the index is joined on the columns it has, then the relation
on its key, and the other bound columns are compared. -/
def indexWithJoin (store : Session.RelationHandle) (validAt : Option Int64)
    (chosenIndex : Session.IndexRelation)
    (mapper : List Nat) (a : AtomArgs) (b : Building X) : Except (CompileError X) (Building X) := do
  let joinedAt ← mapVars a.posRev mapper
  let indexVars := (List.range mapper.length).map fun i => genSymb (b.serialId + i)
  -- the pairs of the join with the index, and which of the joined variables they use
  let used := joinedAt.reduceOption
  let indexKeys := (joinedAt.zip indexVars).filterMap fun p =>
    p.1.bind fun i => (a.joined[i]?).map fun pair => (pair.1, p.2)
  let index ← RelAlgebra.relation indexVars chosenIndex validAt
  let ret := RelAlgebra.join b.ret index (.ofPairs indexKeys) []
  let keyVars ← mapVars a.rightVars mapper
  let relationKeys := ((mapper.zip (indexVars.zip keyVars)).filter fun p =>
    p.1 < store.metadata.keys.length).map Prod.snd
  let relation ← RelAlgebra.relation a.rightVars store.toIndexRelation validAt
  let ret := RelAlgebra.join ret relation (.ofPairs relationKeys) []
  let notBound := a.joined.zipIdx.filter fun p => p.2 ∉ used
  let ret ← (notBound.foldlM (fun (ret : RelAlgebra X) p =>
    ret.addFilter (equateVars p.1.1 p.1.2)) ret).mapError
    .eval
  return { b with ret, serialId := b.serialId + mapper.length }

end Join

section Compile

variable [Ord X] (relations : String → Except (CompileError X) Session.RelationHandle)
  (storeArities : MagicSymbol → Option Nat)

def checkRule (name : MagicSymbol) (args : List Symbol) : Except (CompileError X) Unit :=
  match storeArities name with
  | none => .error (.ruleNotFound name.symbol)
  | some arity => if arity = args.length then .ok ()
    else .error (.arityMismatch name.symbol arity args.length)

/-- The arguments are as many as the columns of the relation. -/
def checkArity (store : Session.RelationHandle) (name : String) (args : List Symbol) :
    Except (CompileError X) Unit :=
  let arity := store.metadata.keys.length + store.metadata.nonKeys.length
  if arity = args.length then .ok () else .error (.arityMismatch name arity args.length)

def checkReadable (store : Session.RelationHandle) : Except (CompileError X) Unit :=
  if store.accessLevel.level < AccessLevel.readOnly.level then
    .error (.insufficientAccessLevel store.name "reading rows" store.accessLevel)
  else .ok ()

def bindSearchVar (acc : List Symbol × List (Expr X) × List Symbol × Nat) (var : Symbol) :
    List Symbol × List (Expr X) × List Symbol × Nat :=
  let (ownBindings, postFilters, seenVariables, serialId) := acc
  if var ∈ seenVariables then
    let rk := genSymb serialId
    (ownBindings ++ [rk], postFilters ++ [equateVars var rk], seenVariables, serialId + 1)
  else (ownBindings ++ [var], postFilters, seenVariables ++ [var], serialId)

def compileAtom (b : Building X) : MagicAtom X → Except (CompileError X) (Building X)
  | .rule name args => do
    checkRule storeArities name args
    let (a, b) := bindArgs true args b
    return { b with ret := .join b.ret (.derived a.rightVars name) (.ofPairs a.joined) [] }
  | .relation name args validAt => do
    let store ← relations name
    checkReadable store
    checkArity store name args
    let (a, b) := bindArgs true args b
    match ← chooseIndex store a.joinIndices validAt.isSome with
    | none =>
      let right ← RelAlgebra.relation a.rightVars store.toIndexRelation validAt
      return { b with ret := .join b.ret right (.ofPairs a.joined) [] }
    | some (chosenIndex, mapper, false) =>
      let right ← RelAlgebra.relation (← mapVars a.rightVars mapper) chosenIndex validAt
      return { b with ret := .join b.ret right (.ofPairs a.joined) [] }
    | some (chosenIndex, mapper, true) => indexWithJoin store validAt chosenIndex mapper a b
  | .predicate p => do return { b with ret := ← (b.ret.addFilter p).mapError .eval }
  | .negatedRule name args => do
    checkRule storeArities name args
    let (a, b) := bindArgs false args b
    return { b with ret := .negJoin b.ret (.derived a.rightVars name) (.ofPairs a.joined) [] }
  | .negatedRelation name args validAt => do
    let store ← relations name
    checkArity store name args
    let (a, b) := bindArgs true args b
    let right ← match ← chooseIndex store a.joinIndices validAt.isSome with
      | none | some (_, _, true) => RelAlgebra.relation a.rightVars store.toIndexRelation validAt
      | some (chosenIndex, mapper, false) => do
        RelAlgebra.relation (← mapVars a.rightVars mapper) chosenIndex validAt
    return { b with ret := .negJoin b.ret right (.ofPairs a.joined) [] }
  | .unification binding expr oneManyUnif =>
    if binding ∈ b.seenVariables then do
      let sides := [.binding binding none, expr]
      let equation := if oneManyUnif then Expr.buildIsIn sides else .buildEquate sides
      return { b with ret := ← (b.ret.addFilter equation).mapError .eval }
    else
      .ok { b with ret := .unification b.ret binding expr [] oneManyUnif [], seenVariables :=
        b.seenVariables ++ [binding] }
  | .search s allBindings => do
    let (ownBindings, postFilters, seenVariables, serialId) :=
      allBindings.foldl bindSearchVar ([], [], b.seenVariables, b.serialId)
    let ret := .search b.ret s ownBindings
    let ret ← if postFilters.isEmpty then pure ret
      else ((RelAlgebra.addFilter ret (.buildAnd postFilters)).mapError .eval)
    return ⟨ret, seenVariables, serialId⟩

def sameSymbols (l l' : List Symbol) : Bool := l.all (· ∈ l') && l'.all (· ∈ l)

/-- The plan of a body gets the columns of the head, in their order. -/
def finishBody (ret : RelAlgebra X) (retVars : List Symbol) :
    Except (CompileError X) (RelAlgebra X) := do
  let ret ← (ret.eliminateTempVars retVars).mapError .eval
  let ret ← if sameSymbols ret.bindingsAfterEliminate retVars then pure ret
    else ((RelAlgebra.join ret .unit (.ofPairs []) []).eliminateTempVars retVars).mapError .eval
  let current := ret.bindingsAfterEliminate
  if !sameSymbols current retVars then
    match ((retVars.filter (· ∉ current)).insertionSort (· ≤ ·)).head? with
    | some unbound => throw (.unboundSymbolInRuleHead unbound)
    | none => throw (.eval (.panic .unreachable))
  else return if retVars ≠ current then .reorder ret retVars else ret

/-- `compile_magic_rule_body`. -/
def compileMagicRuleBody (body : List (MagicAtom X)) (retVars : List Symbol) :
    Except (CompileError X) (RelAlgebra X) := do
  let b ← body.foldlM (compileAtom relations storeArities) ⟨.unit, [], 0⟩
  finishBody b.ret retVars

end Compile

end Retia
