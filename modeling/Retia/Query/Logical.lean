import Retia.Lib.Except
import Retia.Lib.Projection
import Retia.Data.PartialEval
import Retia.Query.Compile
import Retia.Query.Reorder

/-!
# Disjunctive normal form of rule bodies

`query/logical.rs`: a rule body is a formula of atoms with negation, conjunction and disjunction,
nested in any way. It is turned into a disjunction of flat conjunctions in two passes.
`negation_normal_form` pushes negations to the atoms; `do_disjunctive_normal_form` distributes
conjunctions over disjunctions, and lifts what is not a variable out of the arguments of the atoms:
`r[x + 1, x, x, _]` becomes `*1 = x + 1, *2 = x, r[*1, x, *2, ~3]` with generated symbols.

What a formula says depends on a database and on values for the variables, and an expression can
fail. So a formula can be true, or false, or neither, when the expressions that decide about it have
no value (`sat`, with both polarities). In the normal form the generated symbols are auxiliary
variables (`Disjunction.Sat`): there is a choice for them. The symbols `~n` stand for arguments that
are ignored, and in a negated atom the choice is under the negation.

Each conjunction has its own generated symbols, so that conjunctions can be distributed
(`project_and`); with the counter this is an invariant of the pass (`Describes`).

Predicates are evaluated partially on the way, and this does not keep their failures
(`partialEval_faithful_iff`). So what the normal form says is what the formula says with the double
negations in its predicates dropped.

* `sat_negationNormalForm` — pushing negations changes nothing;
* `dnf_equivalent_iff` — the normal form says the same as the formula exactly if dropping the double
  negations makes the formula hold nowhere else.
-/

namespace Retia

open List

variable {S X : Type}

/-! ### The passes -/

/-- `InputAtom`, without its positions in the text. `S` is the type of searches. -/
inductive InputAtom (S X : Type) where
  | rule (name : Symbol) (args : List (Expr X))
  | namedFieldRelation (name : Symbol) (args : List (Symbol × Expr X)) (validAt : Option Int64)
  | relation (name : Symbol) (args : List (Expr X)) (validAt : Option Int64)
  | predicate (p : Expr X)
  | negation (inner : InputAtom S X)
  | conjunction (inner : List (InputAtom S X))
  | disjunction (inner : List (InputAtom S X))
  | unification (u : Unification X)
  | search (s : S)

inductive LogicalError (X : Type) where
  /-- `UnsafeNegation`. -/
  | unsafeNegation
  /-- "empty conjunction". -/
  | emptyConjunction
  /-- The stored relation could not be found. -/
  | relationNotFound (name : Symbol)
  /-- `NamedFieldNotFound`. -/
  | namedFieldNotFound (relation field : Symbol)
  /-- A predicate could not be evaluated partially. -/
  | eval (err : EvalError X)
  /-- `unreachable!()`. -/
  | unreachable

/-- `Conjunction`. -/
abbrev Conjunction (X : Type) := List (NormalFormAtom X)

/-- `Disjunction`. -/
abbrev Disjunction (X : Type) := List (Conjunction X)

/-- `conjunctive_to_disjunctive_de_morgen`. -/
def conjunctiveToDisjunctiveDeMorgen (self other : Disjunction X) : Disjunction X :=
  self.flatMap fun left => other.map fun right => left ++ right

structure StoredColumns where
  keys : List Symbol
  nonKeys : List Symbol
  nodup : (keys ++ nonKeys).Nodup

/-- What the passes ask of the transaction: the columns of the stored relations, and how searches
are normalised. -/
structure LogicalTx (S X : Type) where
  getRelation : Symbol → Option StoredColumns
  normalizeSearch : S → Nat → Except (LogicalError X) (Disjunction X × Nat)

/-- `TempSymbGen::next`, with the number that has been counted up to. -/
def tempSymb (id : Nat) : Symbol := s!"*{id}"

/-- `TempSymbGen::next_ignored`. -/
def ignoredSymb (id : Nat) : Symbol := s!"~{id}"

/-- `is_ignored_symbol`. -/
def isIgnoredSymbol (s : Symbol) : Bool := s == "_"

namespace InputAtom

mutual

/-- `negation_normal_form`. -/
def negationNormalForm : InputAtom S X → Except (LogicalError X) (InputAtom S X)
  | rule name args => .ok (rule name args)
  | namedFieldRelation name args validAt => .ok (namedFieldRelation name args validAt)
  | relation name args validAt => .ok (relation name args validAt)
  | predicate p => .ok (predicate p)
  | conjunction inner => do return conjunction (← negationNormalForms inner)
  | disjunction inner => do return disjunction (← negationNormalForms inner)
  | unification u => .ok (unification u)
  | negation inner => negatedNormalForm inner
  | search s => .ok (search s)

def negationNormalForms : List (InputAtom S X) → Except (LogicalError X) (List (InputAtom S X))
  | [] => .ok []
  | a :: l => do return (← negationNormalForm a) :: (← negationNormalForms l)

/-- `negation_normal_form` of the negation of the atom. -/
def negatedNormalForm : InputAtom S X → Except (LogicalError X) (InputAtom S X)
  | rule name args => .ok (negation (rule name args))
  | namedFieldRelation name args validAt => .ok (negation (namedFieldRelation name args validAt))
  | relation name args validAt => .ok (negation (relation name args validAt))
  | predicate p => .ok (predicate p.negate)
  | negation inner => negationNormalForm inner
  | conjunction inner => do return disjunction (← negatedNormalForms inner)
  | disjunction inner => do return conjunction (← negatedNormalForms inner)
  | unification _ => .error .unsafeNegation
  | search _ => .error .unsafeNegation

def negatedNormalForms : List (InputAtom S X) → Except (LogicalError X) (List (InputAtom S X))
  | [] => .ok []
  | a :: l => do return (← negatedNormalForm a) :: (← negatedNormalForms l)

end

end InputAtom

/-- The loop of `normalize` over the arguments: the unifications, the arguments and the counter. The
two functions, for rules and for relations, have the same loop. -/
def normalizeArgs (gen : Nat) (seenVariables : List Symbol) :
    List (Expr X) → List (Unification X) × List Symbol × Nat
  | [] => ([], [], gen)
  | .binding var _ :: rest =>
    if isIgnoredSymbol var then
      let (unifs, args, gen') := normalizeArgs (gen + 1) seenVariables rest
      (unifs, ignoredSymb (gen + 1) :: args, gen')
    else if var ∉ seenVariables then
      let (unifs, args, gen') := normalizeArgs gen (var :: seenVariables) rest
      (unifs, var :: args, gen')
    else
      let (unifs, args, gen') := normalizeArgs (gen + 1) seenVariables rest
      (⟨tempSymb (gen + 1), .binding var none, false⟩ :: unifs, tempSymb (gen + 1) :: args, gen')
  | expr :: rest =>
    let (unifs, args, gen') := normalizeArgs (gen + 1) seenVariables rest
    (⟨tempSymb (gen + 1), expr, false⟩ :: unifs, tempSymb (gen + 1) :: args, gen')

/-- `InputRuleApplyAtom::normalize`. -/
def normalizeRule (isNegated : Bool) (gen : Nat) (name : Symbol) (args : List (Expr X)) :
    Disjunction X × Nat :=
  let (unifs, args, gen) := normalizeArgs gen [] args
  let atom := if isNegated then .negatedRule name args else .rule name args
  ([unifs.map .unification ++ [atom]], gen)

/-- `InputRelationApplyAtom::normalize`. -/
def normalizeRelation (isNegated : Bool) (gen : Nat) (name : Symbol)
    (args : List (Expr X)) (validAt : Option Int64) : Disjunction X × Nat :=
  let (unifs, args, gen) := normalizeArgs gen [] args
  let atom := if isNegated then .negatedRelation name args validAt else .relation name args validAt
  ([unifs.map .unification ++ [atom]], gen)

/-- The loop of `convert_named_field_relation` over the columns, which takes the arguments out of
their map. -/
def namedFieldArgs (gen : Nat) (args : List (Symbol × Expr X)) : List Symbol → List (Expr X) × Nat
  | [] => ([], gen)
  | col :: cols =>
    match args.lookup col with
    | some arg =>
      let (newArgs, gen') := namedFieldArgs gen (args.filter (·.1 ≠ col)) cols
      (arg :: newArgs, gen')
    | none =>
      let (newArgs, gen') := namedFieldArgs (gen + 1) args cols
      (.binding (ignoredSymb (gen + 1)) none :: newArgs, gen')

/-- `convert_named_field_relation`: the arguments in the order of the columns. -/
def convertNamedFieldRelation (tx : LogicalTx S X) (gen : Nat) (name : Symbol)
    (args : List (Symbol × Expr X)) :
    Except (LogicalError X) (List (Expr X) × Nat) :=
  match tx.getRelation name with
  | none => .error (.relationNotFound name)
  | some stored =>
    match args.find? fun arg => arg.1 ∉ stored.keys ++ stored.nonKeys with
    | some arg => .error (.namedFieldNotFound name arg.1)
    | none => .ok (namedFieldArgs gen args (stored.keys ++ stored.nonKeys))

namespace InputAtom

def normalizeNegated (tx : LogicalTx S X) (gen : Nat) :
    InputAtom S X → Except (LogicalError X) (Disjunction X × Nat)
  | rule name args => .ok (normalizeRule true gen name args)
  | relation name args validAt => .ok (normalizeRelation true gen name args validAt)
  | namedFieldRelation name args validAt => do
    let (args, gen) ← convertNamedFieldRelation tx gen name args
    return normalizeRelation true gen name args validAt
  | predicate _ | negation _ | conjunction _ | disjunction _ | unification _ | search _ =>
    .error .unreachable

mutual

/-- `do_disjunctive_normal_form`. -/
def doDisjunctiveNormalForm (tx : LogicalTx S X) (gen : Nat) :
    InputAtom S X → Except (LogicalError X) (Disjunction X × Nat)
  | disjunction inner => disjoinNormalForms tx gen inner
  | conjunction [] => .error .emptyConjunction
  | conjunction (a :: inner) => do
    let (result, gen) ← doDisjunctiveNormalForm tx gen a
    conjoinNormalForms tx gen result inner
  | rule name args => .ok (normalizeRule false gen name args)
  | namedFieldRelation name args validAt => do
    let (args, gen) ← convertNamedFieldRelation tx gen name args
    return normalizeRelation false gen name args validAt
  | relation name args validAt => .ok (normalizeRelation false gen name args validAt)
  | predicate p => do return ([[.predicate (← p.partialEval.mapError .eval)]], gen)
  | negation inner => normalizeNegated tx gen inner
  | unification u => .ok ([[.unification u]], gen)
  | search s => tx.normalizeSearch s gen

def disjoinNormalForms (tx : LogicalTx S X) (gen : Nat) : List (InputAtom S X) →
    Except (LogicalError X) (Disjunction X × Nat)
  | [] => .ok ([], gen)
  | a :: inner => do
    let (first, gen) ← doDisjunctiveNormalForm tx gen a
    let (rest, gen) ← disjoinNormalForms tx gen inner
    return (first ++ rest, gen)

def conjoinNormalForms (tx : LogicalTx S X) (gen : Nat) (result : Disjunction X) :
    List (InputAtom S X) → Except (LogicalError X) (Disjunction X × Nat)
  | [] => .ok (result, gen)
  | a :: inner => do
    let (next, gen) ← doDisjunctiveNormalForm tx gen a
    conjoinNormalForms tx gen (conjunctiveToDisjunctiveDeMorgen result next) inner

end

/-- `disjunctive_normal_form`. -/
def disjunctiveNormalForm (tx : LogicalTx S X) (a : InputAtom S X) :
    Except (LogicalError X) (Disjunction X) := do
  let negForm ← a.negationNormalForm
  let (result, _) ← negForm.doDisjunctiveNormalForm tx 0
  return result

end InputAtom

/-! ### What formulas say -/

abbrev Assignment (X : Type) := Symbol → DataValue X

structure Interpretation (X : Type) where
  rules : Symbol → Tuple X → Prop
  relations : Symbol → Option Int64 → Tuple X → Prop

def Expr.value (σ : Assignment X) (e : Expr X) : Except (EvalError X) (DataValue X) :=
  e.evalIn fun x _ => .ok (σ x)

open Retia.Expr

/-- What an argument asks of a column: nothing if it is ignored. -/
def argPattern : Expr X → Option (Expr X)
  | .binding var pos => if isIgnoredSymbol var || isGeneratedIgnoredSymbol var then none
    else some (.binding var pos)
  | e => some e

def Matches (σ : Assignment X) (patterns : List (Option (Expr X))) (t : Tuple X) : Prop :=
  List.Forall₂ (fun pattern v => ∀ e ∈ pattern, e.value σ = .ok v) patterns t

/-- An application is true if a row matches; it is false if its arguments have values and no row
matches. -/
def Applies (R : Tuple X → Prop) (patterns : List (Option (Expr X))) (σ : Assignment X) :
    Bool → Prop
  | true => ∃ t, Matches σ patterns t ∧ R t
  | false => (∀ e, some e ∈ patterns → ∃ v, e.value σ = .ok v) ∧ ¬ ∃ t, Matches σ patterns t ∧ R t

/-- `x = e`, or `x in e`. -/
def Unification.Holds (σ : Assignment X) (u : Unification X) : Prop :=
  ∃ v, u.expr.value σ = .ok v ∧
    if u.oneManyUnif then ∃ l, v.getSlice = some l ∧ σ u.binding ∈ l else σ u.binding = v

namespace InputAtom

section Sat

variable (tx : LogicalTx S X) (prepare : Expr X → Expr X) (I : Interpretation X) (σ : Assignment X)

mutual

/-- **The formula is true, or false**, when its predicates are prepared by a function. It is neither
if expressions that decide about it fail. Searches are not considered. -/
def satWith : InputAtom S X → Bool → Prop
  | rule name args, b => Applies (I.rules name) (args.map argPattern) σ b
  | relation name args validAt, b => Applies (I.relations name validAt) (args.map argPattern) σ b
  | namedFieldRelation name args validAt, b => ∃ stored, tx.getRelation name = some stored ∧
      Applies (I.relations name validAt)
        ((stored.keys ++ stored.nonKeys).map fun col => (args.lookup col).bind argPattern) σ b
  | predicate p, b => (prepare p).value σ = .ok (.bool b)
  | negation inner, b => satWith inner !b
  | conjunction inner, true => satAll inner true
  | conjunction inner, false => satSome inner false
  | disjunction inner, true => satSome inner true
  | disjunction inner, false => satAll inner false
  | unification u, true => u.Holds σ
  | unification u, false => (∃ v, u.expr.value σ = .ok v) ∧ ¬ u.Holds σ
  | search _, _ => False

def satAll : List (InputAtom S X) → Bool → Prop
  | [], _ => True
  | a :: inner, b => satWith a b ∧ satAll inner b

def satSome : List (InputAtom S X) → Bool → Prop
  | [], _ => False
  | a :: inner, b => satWith a b ∨ satSome inner b

end

def Sat (a : InputAtom S X) : Prop := a.satWith tx id I σ true

end Sat

end InputAtom

/-! ### What normal forms say -/

def isGeneratedSymbol (s : Symbol) : Bool :=
  s.toList.head? == some '*' || s.toList.head? == some '~'

def plainSymbols : Set Symbol := {x | isGeneratedSymbol x = false}

def boundSymbols : Set Symbol := {x | isGeneratedIgnoredSymbol x = false}

/-- The ignored symbols of a negated atom are chosen under the negation. -/
def NormalFormAtom.Holds (I : Interpretation X) (σ : Assignment X) : NormalFormAtom X → Prop
  | rule name args => I.rules name (args.map σ)
  | relation name args validAt => I.relations name validAt (args.map σ)
  | negatedRule name args => ¬ Project boundSymbols (fun τ : Assignment X => I.rules name (args.map τ)) σ
  | negatedRelation name args validAt =>
    ¬ Project boundSymbols (fun τ : Assignment X => I.relations name validAt (args.map τ)) σ
  | predicate p => p.value σ = .ok (.bool true)
  | unification u => u.Holds σ
  | search _ _ => False

def Conjunction.Holds (I : Interpretation X) (C : Conjunction X) (σ : Assignment X) : Prop :=
  ∀ a ∈ C, a.Holds I σ

/-- **The normal form is true** if the generated symbols of one of its conjunctions can be chosen
such that it holds. -/
def Disjunction.Sat (I : Interpretation X) (D : Disjunction X) (σ : Assignment X) : Prop :=
  ∃ C ∈ D, Project plainSymbols (Conjunction.Holds I C) σ

variable {σ : Assignment X} {e : Expr X} {x : Symbol}

theorem defined_of_matches {patterns : List (Option (Expr X))} {t : Tuple X}
    (h : Matches σ patterns t) (he : some e ∈ patterns) : ∃ v, e.value σ = .ok v := by
  obtain ⟨v, -, hv⟩ := exists_of_forall₂ h he
  exact ⟨v, hv e rfl⟩

/-! ### Symbols -/

/-- The symbols generated while the counter goes from `n` to `m`. -/
def generatedIn (n m : Nat) : Set Symbol :=
  {x | ∃ k, n < k ∧ k ≤ m ∧ (x = tempSymb k ∨ x = ignoredSymb k)}

theorem tempSymb_injective {m n : Nat} (h : tempSymb m = tempSymb n) : m = n := by
  simpa [tempSymb] using h

theorem ignoredSymb_injective {m n : Nat} (h : ignoredSymb m = ignoredSymb n) : m = n := by
  simpa [ignoredSymb] using h

theorem head_tempSymb (n : Nat) : (tempSymb n).toList.head? = some '*' := by
  simp [tempSymb, toString]

theorem head_ignoredSymb (n : Nat) : (ignoredSymb n).toList.head? = some '~' := by
  simp [ignoredSymb, toString]

theorem tempSymb_ne_ignoredSymb (m n : Nat) : tempSymb m ≠ ignoredSymb n := by
  intro h
  have hhead := head_tempSymb m
  rw [h, head_ignoredSymb] at hhead
  cases hhead

theorem tempSymb_mem_boundSymbols (n : Nat) : tempSymb n ∈ boundSymbols := by
  simp [boundSymbols, isGeneratedIgnoredSymbol, head_tempSymb]

theorem isGeneratedIgnoredSymbol_ignoredSymb (n : Nat) :
    isGeneratedIgnoredSymbol (ignoredSymb n) = true := by
  simp [isGeneratedIgnoredSymbol, head_ignoredSymb]

theorem plainSymbols_subset_boundSymbols : plainSymbols ⊆ boundSymbols := by
  intro x hx
  simp only [plainSymbols, isGeneratedSymbol, Set.mem_ofPred_eq, Bool.or_eq_false_iff] at hx
  exact hx.2

theorem tempSymb_not_plain (n : Nat) : tempSymb n ∉ plainSymbols := by
  simp [plainSymbols, isGeneratedSymbol, head_tempSymb]

theorem ignoredSymb_not_plain (n : Nat) : ignoredSymb n ∉ plainSymbols := by
  simp [plainSymbols, isGeneratedSymbol, head_ignoredSymb]

theorem not_plain_of_generatedIn {n m : Nat} (h : x ∈ generatedIn n m) : x ∉ plainSymbols := by
  obtain ⟨k, -, -, rfl | rfl⟩ := h
  · exact tempSymb_not_plain k
  · exact ignoredSymb_not_plain k

theorem generatedIn_mono {n n' m m' : Nat} (hn : n' ≤ n) (hm : m ≤ m') :
    generatedIn n m ⊆ generatedIn n' m' := by
  rintro x ⟨k, hk, hk', hx⟩
  exact ⟨k, by omega, by omega, hx⟩

theorem tempSymb_mem_generatedIn {n m k : Nat} : tempSymb k ∈ generatedIn n m ↔ n < k ∧ k ≤ m := by
  constructor
  · rintro ⟨k', h, h', heq | heq⟩
    · cases tempSymb_injective heq
      exact ⟨h, h'⟩
    · exact absurd heq (tempSymb_ne_ignoredSymb k k')
  · exact fun h => ⟨k, h.1, h.2, .inl rfl⟩

theorem ignoredSymb_mem_generatedIn {n m k : Nat} : ignoredSymb k ∈ generatedIn n m ↔
    n < k ∧ k ≤ m := by
  constructor
  · rintro ⟨k', h, h', heq | heq⟩
    · exact absurd heq.symm (tempSymb_ne_ignoredSymb k' k)
    · cases ignoredSymb_injective heq
      exact ⟨h, h'⟩
  · exact fun h => ⟨k, h.1, h.2, .inr rfl⟩

/-- **Symbols generated one after the other are different.** -/
theorem disjoint_generatedIn (n m l : Nat) : Disjoint (generatedIn n m) (generatedIn m l) := by
  refine Set.disjoint_left.2 ?_
  rintro x ⟨k, -, hk, rfl | rfl⟩ hx
  · have := (tempSymb_mem_generatedIn.1 hx).1
    omega
  · have := (ignoredSymb_mem_generatedIn.1 hx).1
    omega

/-! ### Expressions -/

namespace Expr

mutual

/-- The variables of the expression are not generated. -/
def Plain : Expr X → Prop
  | .binding var _ => var ∈ plainSymbols
  | .const _ => True
  | .apply _ args => PlainArgs args
  | .unboundApply _ args => PlainArgs args
  | .cond clauses => PlainClauses clauses

def PlainArgs : List (Expr X) → Prop
  | [] => True
  | arg :: args => arg.Plain ∧ PlainArgs args

def PlainClauses : List (Expr X × Expr X) → Prop
  | [] => True
  | (c, val) :: clauses => c.Plain ∧ val.Plain ∧ PlainClauses clauses

end

mutual

/-- The value depends on the variables of the expression only. -/
theorem value_congr {σ τ : Assignment X} (h : Set.EqOn σ τ plainSymbols) :
    ∀ {e : Expr X}, e.Plain → e.value σ = e.value τ
  | .binding var _, he => by simp only [value, evalIn, h he]
  | .const _, _ => rfl
  | .apply op args, he => by
    have hargs := evalArgsIn_congr h he
    simp only [value, evalIn, hargs]
  | .unboundApply _ _, _ => rfl
  | .cond clauses, he => evalClausesIn_congr h he

theorem evalArgsIn_congr {σ τ : Assignment X} (h : Set.EqOn σ τ plainSymbols) :
    ∀ {args : List (Expr X)}, PlainArgs args →
      evalArgsIn (fun x _ => .ok (σ x)) args = evalArgsIn (fun x _ => .ok (τ x)) args
  | [], _ => rfl
  | arg :: args, he => by
    have harg : arg.evalIn (fun x _ => .ok (σ x)) = arg.evalIn (fun x _ => .ok (τ x)) := value_congr h he.1
    simp only [evalArgsIn, harg, evalArgsIn_congr h he.2]

theorem evalClausesIn_congr {σ τ : Assignment X} (h : Set.EqOn σ τ plainSymbols) :
    ∀ {clauses : List (Expr X × Expr X)}, PlainClauses clauses →
      evalClausesIn (fun x _ => .ok (σ x)) clauses = evalClausesIn (fun x _ => .ok (τ x)) clauses
  | [], _ => rfl
  | (c, val) :: clauses, he => by
    have hc : c.evalIn (fun x _ => .ok (σ x)) = c.evalIn (fun x _ => .ok (τ x)) := value_congr h he.1
    have hval : val.evalIn (fun x _ => .ok (σ x)) = val.evalIn (fun x _ => .ok (τ x)) :=
      value_congr h he.2.1
    simp only [evalClausesIn, hc, hval, evalClausesIn_congr h he.2.2]

end

mutual

theorem plain_dropNegations : ∀ {e : Expr X}, e.Plain → e.dropNegations.Plain
  | .apply op args, he => by
    have hargs := plainArgs_dropNegationsArgs he
    rw [dropNegations]
    obtain ⟨op2, arg, heq, -, -, -, hcancel⟩ | ⟨hcancel, -⟩ := cancel_cases op (dropNegationsArgs args)
    · rw [heq] at hargs
      rw [hcancel]
      exact hargs.1.1
    · rw [hcancel]
      exact hargs
  | .binding _ _, he => he
  | .const _, he => he
  | .cond _, he => he
  | .unboundApply _ _, he => he

theorem plainArgs_dropNegationsArgs : ∀ {args : List (Expr X)}, PlainArgs args →
    PlainArgs (dropNegationsArgs args)
  | [], _ => trivial
  | _ :: _, he => ⟨plain_dropNegations he.1, plainArgs_dropNegationsArgs he.2⟩

end

theorem value_negation {op : Op X} (hop : op.inner = opNegate) {p : Expr X}
    {σ : Assignment X} {b : Bool} :
    (Expr.apply op [p]).value σ = .ok (.bool b) ↔ p.value σ = .ok (.bool !b) := by
  have hargs : evalArgsIn (fun x _ => .ok (σ x)) [p] = (p.value σ).map fun v => [v] := by
    cases hp : p.value σ <;>
      (rw [value] at hp; simp [evalArgsIn, hp, Except.map, bind, Except.bind, pure, Except.pure])
  rw [value, evalIn, hargs, hop]
  cases p.value σ with
  | error err => simp [Except.map, bind, Except.bind]
  | ok v => cases v <;> simp [Except.map, bind, Except.bind, opNegate,
    Except.mapError, Bool.not_eq_eq_eq_not]

theorem value_dropNegations_negate {p : Expr X} (hproper : p.Proper) {σ : Assignment X} :
    p.negate.dropNegations.value σ = .ok (.bool true) ↔
    p.dropNegations.value σ = .ok (.bool false) := by
  have hdrop : p.negate.dropNegations = cancel OP_NEGATE [p.dropNegations] := rfl
  rw [hdrop]
  obtain ⟨op2, arg, heq, -, hop2, -, hcancel⟩ | ⟨hcancel, -⟩ := cancel_cases OP_NEGATE [p.dropNegations]
  · -- the operand is a negation itself
    have hp : p.dropNegations = .apply op2 [arg] := head_eq_of_cons_eq heq
    have hproper2 := proper_dropNegations hproper
    rw [hp] at hproper2
    rw [hcancel, hp]
    exact (value_negation (b := false) (hproper2.1 hop2).1).symm
  · rw [hcancel]
    exact value_negation rfl

end Expr

/-! ### Lifted arguments -/

/-- **Arguments and the symbols in their places.** An ignored argument has an ignored symbol that
occurs nowhere else; a variable stands for itself; for any other argument there is a symbol with a
unification. -/
inductive Lifts (n m : Nat) : List (Option (Expr X)) → List (Unification X) → List Symbol → Prop
  | nil : Lifts n m [] [] []
  | ignored {x : Symbol} {patterns : List (Option (Expr X))} {unifs : List (Unification X)}
    {args : List Symbol} :
      isGeneratedIgnoredSymbol x = true → x ∈ generatedIn n m → x ∉ args →
        Lifts n m patterns unifs args →
      Lifts n m (none :: patterns) unifs (x :: args)
  | var {x : Symbol} {pos : Option Nat} {patterns : List (Option (Expr X))}
    {unifs : List (Unification X)} {args : List Symbol} :
      x ∈ plainSymbols → Lifts n m patterns unifs args →
      Lifts n m (some (.binding x pos) :: patterns) unifs (x :: args)
  | lifted {x : Symbol} {e e' : Expr X} {patterns : List (Option (Expr X))}
    {unifs : List (Unification X)} {args : List Symbol} :
      x ∈ generatedIn n m → x ∈ boundSymbols → e'.Plain → (∀ σ, e'.value σ = e.value σ) →
      (∀ u ∈ unifs, u.binding ≠ x) → Lifts n m patterns unifs args →
      Lifts n m (some e :: patterns) (⟨x, e', false⟩ :: unifs) (x :: args)

theorem unification_holds_iff : Unification.Holds σ ⟨x, e, false⟩ ↔ e.value σ = .ok (σ x) := by
  simp [Unification.Holds]

section Lifts

variable {n m : Nat} {patterns : List (Option (Expr X))} {unifs : List (Unification X)}
    {args : List Symbol}

theorem unification_of_lifts (h : Lifts n m patterns unifs args) {u : Unification X}
    (hu : u ∈ unifs) :
    ∃ x e, u = ⟨x, e, false⟩ ∧ x ∈ generatedIn n m ∧ x ∈ boundSymbols ∧ e.Plain := by
  induction h with
  | nil => cases hu
  | ignored _ _ _ _ ih => exact ih hu
  | var _ _ ih => exact ih hu
  | lifted hx hbound hplain _ _ _ ih =>
    rcases mem_cons.1 hu with rfl | hu
    · exact ⟨_, _, rfl, hx, hbound, hplain⟩
    · exact ih hu

variable {σ τ : Assignment X}

theorem holds_congr_of_lifts (h : Lifts n m patterns unifs args)
    (heq : ∀ x, x ∈ plainSymbols ∨ x ∈ generatedIn n m ∧ x ∈ boundSymbols → σ x = τ x)
    {u : Unification X} (hu : u ∈ unifs) : u.Holds σ ↔ u.Holds τ := by
  obtain ⟨x, e, rfl, hx, hbound, hplain⟩ := unification_of_lifts h hu
  rw [unification_holds_iff, unification_holds_iff,
    value_congr (fun y hy => heq y (.inl hy)) hplain, heq x (.inr ⟨hx, hbound⟩)]

theorem value_of_lifted {x : Symbol} {e e' : Expr X} (heq : Set.EqOn τ σ plainSymbols)
    (hplain : e'.Plain) (hvalue : ∀ σ, e'.value σ = e.value σ)
    (hu : Unification.Holds τ ⟨x, e', false⟩) : e.value σ = .ok (τ x) := by
  rw [← hvalue, ← value_congr heq hplain]
  exact unification_holds_iff.1 hu

/-- **The rows that the symbols can stand for** are those that match the arguments. -/
theorem project_args_iff (h : Lifts n m patterns unifs args) (heq : Set.EqOn τ σ plainSymbols)
    (hunifs : ∀ u ∈ unifs, u.Holds τ) (t : Tuple X) :
    Project boundSymbols (fun ρ : Assignment X => args.map ρ = t) τ ↔ Matches σ patterns t := by
  induction h generalizing t with
  | nil =>
    constructor
    · rintro ⟨ρ, -, rfl⟩
      exact .nil
    · intro hmatch
      cases hmatch
      exact ⟨τ, Set.eqOn_refl τ _, rfl⟩
  | @ignored x patterns unifs args hignored hx hfresh hlifts ih =>
    constructor
    · rintro ⟨ρ, hρ, rfl⟩
      exact .cons (fun e he => (by cases he)) ((ih hunifs _).1 ⟨ρ, hρ, rfl⟩)
    · intro hmatch
      obtain _ | @⟨_, v, _, t, -, hrest⟩ := hmatch
      obtain ⟨ρ, hρ, rfl⟩ := (ih hunifs t).2 hrest
      -- the ignored symbol takes the value of the column
      refine ⟨Function.update ρ x v, fun y hy => ?_, ?_⟩
      · have hne : y ≠ x := by
          rintro rfl
          simp [boundSymbols, hignored] at hy
        rw [Function.update_of_ne hne]
        exact hρ hy
      · have hargs : args.map (Function.update ρ x v) = args.map ρ :=
          map_congr_left fun y hy => Function.update_of_ne (ne_of_mem_of_not_mem hy hfresh) _ _
        simp only [map_cons, Function.update_self, hargs]
  | @var x pos patterns unifs args hx hlifts ih =>
    have hbound := plainSymbols_subset_boundSymbols hx
    constructor
    · rintro ⟨ρ, hρ, rfl⟩
      refine .cons (fun e he => ?_) ((ih hunifs _).1 ⟨ρ, hρ, rfl⟩)
      cases he
      rw [hρ hbound, heq hx]
      rfl
    · intro hmatch
      obtain _ | @⟨_, v, _, t, hhead, hrest⟩ := hmatch
      obtain ⟨ρ, hρ, rfl⟩ := (ih hunifs t).2 hrest
      have hv : Except.ok (σ x) = Except.ok v := hhead _ rfl
      cases hv
      exact ⟨ρ, hρ, by simp only [map_cons, hρ hbound, heq hx]⟩
  | @lifted x e e' patterns unifs args hx hbound hplain hvalue hfresh hlifts ih =>
    have hunif := value_of_lifted heq hplain hvalue (hunifs _ mem_cons_self)
    have ih := ih fun u hu => hunifs u (mem_cons_of_mem _ hu)
    constructor
    · rintro ⟨ρ, hρ, rfl⟩
      refine .cons (fun e₀ he => ?_) ((ih _).1 ⟨ρ, hρ, rfl⟩)
      cases he
      rw [hunif, hρ hbound]
    · intro hmatch
      obtain _ | @⟨_, v, _, t, hhead, hrest⟩ := hmatch
      obtain ⟨ρ, hρ, rfl⟩ := (ih t).2 hrest
      have hv := hhead e rfl
      rw [hunif] at hv
      cases hv
      exact ⟨ρ, hρ, by simp only [map_cons, hρ hbound]⟩

theorem exists_holds_of_lifts (h : Lifts n m patterns unifs args) {σ : Assignment X}
    (hdefined : ∀ e, some e ∈ patterns → ∃ v, e.value σ = .ok v) :
    ∃ τ : Assignment X, Set.EqOn τ σ plainSymbols ∧ ∀ u ∈ unifs, u.Holds τ := by
  induction h with
  | nil => exact ⟨σ, Set.eqOn_refl σ _, fun u hu => (by cases hu)⟩
  | ignored _ _ _ _ ih | var _ _ ih => exact ih fun e he => hdefined e (mem_cons_of_mem _ he)
  | @lifted x e e' patterns unifs args hx hbound hplain hvalue hfresh hlifts ih =>
    obtain ⟨τ, heq, hunifs⟩ := ih fun e he => hdefined e (mem_cons_of_mem _ he)
    obtain ⟨v, hv⟩ := hdefined e mem_cons_self
    -- the new symbol takes the value of the argument
    have heq' : Set.EqOn (Function.update τ x v) τ plainSymbols := fun y hy =>
      Function.update_of_ne (ne_of_mem_of_not_mem hy (not_plain_of_generatedIn hx)) _ _
    refine ⟨Function.update τ x v, heq'.trans heq, fun u hu => ?_⟩
    rcases mem_cons.1 hu with rfl | hu
    · rw [unification_holds_iff, Function.update_self, value_congr (heq'.trans heq) hplain, hvalue, hv]
    · obtain ⟨y, e₀, rfl, -, -, hplain₀⟩ := unification_of_lifts hlifts hu
      rw [unification_holds_iff, value_congr heq' hplain₀, Function.update_of_ne (hfresh _ hu)]
      exact unification_holds_iff.1 (hunifs _ hu)

theorem defined_of_lifts (h : Lifts n m patterns unifs args) (heq : Set.EqOn τ σ plainSymbols)
    (hunifs : ∀ u ∈ unifs, u.Holds τ) (e : Expr X) (he : some e ∈ patterns) :
    ∃ v, e.value σ = .ok v := by
  induction h with
  | nil => cases he
  | ignored _ _ _ _ ih =>
    rcases mem_cons.1 he with h | he
    · cases h
    · exact ih hunifs he
  | var _ _ ih =>
    rcases mem_cons.1 he with h | he
    · cases h
      exact ⟨_, rfl⟩
    · exact ih hunifs he
  | lifted _ _ hplain hvalue _ _ ih =>
    rcases mem_cons.1 he with h | he
    · cases h
      exact ⟨_, value_of_lifted heq hplain hvalue (hunifs _ mem_cons_self)⟩
    · exact ih (fun u hu => hunifs u (mem_cons_of_mem _ hu)) he

end Lifts

/-! ### Normalised arguments -/

/-- Arguments as they are normalised: plain expressions, and ignored symbols that have been
generated for columns without an argument. -/
structure ReadyArgs (n gen : Nat) (seen : List Symbol) (args : List (Expr X)) : Prop where
  le : n ≤ gen
  arg : ∀ e ∈ args, e.Plain ∨ ∃ k, n < k ∧ k ≤ gen ∧ e = .binding (ignoredSymb k) none
  distinct : args.Pairwise fun e e' => ∀ k, e = .binding (ignoredSymb k) none →
    e' ≠ .binding (ignoredSymb k) none
  unseen : ∀ k, .binding (ignoredSymb k) none ∈ args → ignoredSymb k ∉ seen

structure NormalizedArgs (n gen : Nat) (args : List (Expr X))
    (r : List (Unification X) × List Symbol × Nat) : Prop where
  le : gen ≤ r.2.2
  lifts : Lifts n r.2.2 (args.map argPattern) r.1 r.2.1
  symbols : ∀ x ∈ r.2.1, x ∈ plainSymbols ∨ x ∈ generatedIn gen r.2.2 ∨ .binding x none ∈ args
  bindings : ∀ u ∈ r.1, u.binding ∈ generatedIn gen r.2.2

section NormalizeArgs

variable {n gen : Nat} {seen : List Symbol} {e : Expr X} {args : List (Expr X)}

theorem ReadyArgs.tail (h : ReadyArgs n gen seen (e :: args)) {gen' : Nat}
    (hle : gen ≤ gen') : ReadyArgs n gen' seen args where
  le := h.le.trans hle
  arg := fun e' he' => (h.arg e' (mem_cons_of_mem _ he')).imp_right fun ⟨k, hn, hk, heq⟩ =>
    ⟨k, hn, hk.trans hle, heq⟩
  distinct := (pairwise_cons.1 h.distinct).2
  unseen := fun k hk => h.unseen k (mem_cons_of_mem _ hk)

theorem ReadyArgs.not_mem (h : ReadyArgs n gen seen args) {x : Symbol} {gen' : Nat}
    (hx : x ∈ generatedIn gen gen') : .binding x none ∉ args := by
  intro hmem
  rcases h.arg _ hmem with hplain | ⟨k, -, hk, heq⟩
  · exact not_plain_of_generatedIn hx hplain
  · cases heq
    have := (ignoredSymb_mem_generatedIn.1 hx).1
    omega

variable {r : List (Unification X) × List Symbol × Nat}

theorem NormalizedArgs.not_mem (hready : ReadyArgs n gen seen args)
    (h : NormalizedArgs n (gen + 1) args r) {x : Symbol} (hx : x ∈ generatedIn gen (gen + 1)) :
    x ∉ r.2.1 := by
  intro hmem
  rcases h.symbols x hmem with hplain | hgen | harg
  · exact not_plain_of_generatedIn hx hplain
  · exact Set.disjoint_left.1 (disjoint_generatedIn gen (gen + 1) r.2.2) hx hgen
  · exact hready.not_mem hx harg

theorem normalizedArgs_ignored (hready : ReadyArgs n gen seen (e :: args))
    (h : NormalizedArgs n (gen + 1) args r) (hpattern : argPattern e = none) :
    NormalizedArgs n gen (e :: args) (r.1, ignoredSymb (gen + 1) :: r.2.1, r.2.2) where
  le := (Nat.le_succ gen).trans h.le
  lifts := by
    rw [map_cons, hpattern]
    have hx : ignoredSymb (gen + 1) ∈ generatedIn gen (gen + 1) :=
      ignoredSymb_mem_generatedIn.2 ⟨by omega, le_rfl⟩
    exact .ignored (isGeneratedIgnoredSymbol_ignoredSymb _) (generatedIn_mono hready.le h.le hx)
      (h.not_mem (hready.tail le_rfl) hx) h.lifts
  symbols := by
    intro x hx
    rcases mem_cons.1 hx with rfl | hx
    · exact .inr (.inl (ignoredSymb_mem_generatedIn.2 ⟨by omega, h.le⟩))
    · exact (h.symbols x hx).imp_right
        (Or.imp (fun hgen => generatedIn_mono (Nat.le_succ gen) le_rfl hgen) (mem_cons_of_mem _))
  bindings := fun u hu => generatedIn_mono (Nat.le_succ gen) le_rfl (h.bindings u hu)

theorem normalizedArgs_lifted (hready : ReadyArgs n gen seen (e :: args))
    (h : NormalizedArgs n (gen + 1) args r) (hpattern : argPattern e = some e)
    {e' : Expr X} (hplain : e'.Plain) (hvalue : ∀ σ, e'.value σ = e.value σ) :
    NormalizedArgs n gen (e :: args) (⟨tempSymb (gen + 1), e', false⟩ :: r.1,
      tempSymb (gen + 1) :: r.2.1, r.2.2) where
  le := (Nat.le_succ gen).trans h.le
  lifts := by
    rw [map_cons, hpattern]
    have hx : tempSymb (gen + 1) ∈ generatedIn gen (gen + 1) :=
      tempSymb_mem_generatedIn.2 ⟨by omega, le_rfl⟩
    refine .lifted (generatedIn_mono hready.le h.le hx) (tempSymb_mem_boundSymbols _) hplain hvalue
      (fun u hu heq => ?_) h.lifts
    exact Set.disjoint_left.1 (disjoint_generatedIn gen (gen + 1) r.2.2) hx (heq ▸ h.bindings u hu)
  symbols := by
    intro x hx
    rcases mem_cons.1 hx with rfl | hx
    · exact .inr (.inl (tempSymb_mem_generatedIn.2 ⟨by omega, h.le⟩))
    · exact (h.symbols x hx).imp_right
        (Or.imp (fun hgen => generatedIn_mono (Nat.le_succ gen) le_rfl hgen) (mem_cons_of_mem _))
  bindings := by
    intro u hu
    rcases mem_cons.1 hu with rfl | hu
    · exact tempSymb_mem_generatedIn.2 ⟨by omega, h.le⟩
    · exact generatedIn_mono (Nat.le_succ gen) le_rfl (h.bindings u hu)

theorem normalizedArgs_first {var : Symbol} {pos : Option Nat}
    (hready : ReadyArgs n gen seen (.binding var pos :: args))
    (hvar : isIgnoredSymbol var = false) (h : NormalizedArgs n gen args r) :
    NormalizedArgs n gen (.binding var pos :: args) (r.1, var :: r.2.1, r.2.2) where
  le := h.le
  lifts := by
    rw [map_cons]
    rcases hready.arg _ mem_cons_self with hplain | ⟨k, hn, hk, heq⟩
    · have hignored : isGeneratedIgnoredSymbol var = false := plainSymbols_subset_boundSymbols hplain
      rw [show argPattern (.binding var pos : Expr X) =
        some (.binding var pos) by simp [argPattern, hvar, hignored]]
      exact .var hplain h.lifts
    · cases heq
      have hignored := isGeneratedIgnoredSymbol_ignoredSymb k
      rw [show argPattern (.binding (ignoredSymb k) none : Expr X) = none by simp [argPattern, hignored]]
      refine .ignored hignored (ignoredSymb_mem_generatedIn.2 ⟨hn, hk.trans h.le⟩) (fun hmem => ?_) h.lifts
      rcases h.symbols _ hmem with hplain | hgen | harg
      · exact ignoredSymb_not_plain k hplain
      · have := (ignoredSymb_mem_generatedIn.1 hgen).1
        omega
      · exact (pairwise_cons.1 hready.distinct).1 _ harg k rfl rfl
  symbols := by
    intro x hx
    rcases mem_cons.1 hx with rfl | hx
    · rcases hready.arg _ mem_cons_self with hplain | ⟨k, -, -, heq⟩
      · exact .inl hplain
      · cases heq
        exact .inr (.inr mem_cons_self)
    · exact (h.symbols x hx).imp_right (Or.imp_right (mem_cons_of_mem _))
  bindings := h.bindings

theorem ReadyArgs.see {var : Symbol} {pos : Option Nat}
    (h : ReadyArgs n gen seen (.binding var pos :: args)) : ReadyArgs n gen (var :: seen) args where
  le := h.le
  arg := (h.tail le_rfl).arg
  distinct := (h.tail le_rfl).distinct
  unseen := by
    intro k hk hmem
    rcases mem_cons.1 hmem with rfl | hmem
    · -- the variable is an ignored symbol, and occurs once
      rcases h.arg _ mem_cons_self with hplain | ⟨k', -, -, heq⟩
      · exact ignoredSymb_not_plain k hplain
      · obtain rfl : pos = none := (Expr.binding.inj heq).2
        exact (pairwise_cons.1 h.distinct).1 _ hk k rfl rfl
    · exact (h.tail le_rfl).unseen k hk hmem

/-- **The loop over the arguments.** -/
theorem normalizedArgs_normalizeArgs (hready : ReadyArgs n gen seen args) :
    NormalizedArgs n gen args (normalizeArgs gen seen args) := by
  induction args generalizing gen seen with
  | nil => exact ⟨le_rfl, .nil, fun x hx => (by cases hx), fun u hu => (by cases hu)⟩
  | cons e args ih =>
    have ihNext := ih (hready.tail (Nat.le_succ gen))
    -- an argument that is not a variable is plain, and is lifted
    have hlift (hvar : ∀ var pos, e ≠ .binding var pos) (hpattern : argPattern e = some e) := by
      have hplain : e.Plain := by
        rcases hready.arg e mem_cons_self with hplain | ⟨k, -, -, heq⟩
        · exact hplain
        · exact absurd heq (hvar _ _)
      exact normalizedArgs_lifted hready ihNext hpattern hplain fun _ => rfl
    cases e with
    | const val | apply op as | unboundApply op as | cond clauses =>
      exact hlift (fun _ _ h => (by cases h)) rfl
    | binding var pos =>
      simp only [normalizeArgs]
      by_cases hignored : isIgnoredSymbol var = true
      · rw [if_pos hignored]
        exact normalizedArgs_ignored hready ihNext (by simp [argPattern, hignored])
      · rw [if_neg hignored]
        have hvar : isIgnoredSymbol var = false := by simpa using hignored
        by_cases hseen : var ∉ seen
        · rw [if_pos hseen]
          exact normalizedArgs_first hready hvar (ih hready.see)
        · rw [if_neg hseen]
          rcases hready.arg _ mem_cons_self with hplain | ⟨k, -, -, heq⟩
          · have hbound : isGeneratedIgnoredSymbol var = false := plainSymbols_subset_boundSymbols hplain
            refine normalizedArgs_lifted hready ihNext (by simp [argPattern, hvar, hbound]) ?_ fun _ => rfl
            exact hplain
          · cases heq
            exact absurd (hready.unseen k mem_cons_self) hseen

end NormalizeArgs

/-! ### Named fields -/

theorem lookup_filter_ne {args : List (Symbol × Expr X)} {col col' : Symbol}
    (hne : col' ≠ col) : (args.filter (·.1 ≠ col)).lookup col' = args.lookup col' := by
  induction args with
  | nil => rfl
  | cons arg args ih =>
    obtain ⟨name, e⟩ := arg
    by_cases hname : name = col
    · subst hname
      have hne' : (col' == name) = false := by simpa using hne
      simp [lookup_cons, hne', ← ih]
    · by_cases hcol : col' = name
      · subst hcol
        simp [hname]
      · have hcol' : (col' == name) = false := by simpa using hcol
        simp [hname, lookup_cons, hcol', ← ih]

theorem ReadyArgs.cons_plain {n gen : Nat} {args : List (Expr X)}
    (h : ReadyArgs n gen [] args) (he : e.Plain) : ReadyArgs n gen [] (e :: args) where
  le := h.le
  arg := forall_mem_cons.2 ⟨.inl he, h.arg⟩
  distinct := by
    refine pairwise_cons.2 ⟨fun e' _ k heq => ?_, h.distinct⟩
    subst heq
    exact absurd he (ignoredSymb_not_plain k)
  unseen := fun _ _ hmem => (by cases hmem)

theorem ReadyArgs.cons_ignored {n gen : Nat} {args : List (Expr X)}
    (h : ReadyArgs (n + 1) gen [] args) :
    ReadyArgs n gen [] (.binding (ignoredSymb (n + 1)) none :: args) where
  le := Nat.le_of_succ_le h.le
  arg := by
    refine forall_mem_cons.2 ⟨.inr ⟨n + 1, Nat.lt_succ_self n, h.le, rfl⟩, fun e he => ?_⟩
    exact (h.arg e he).imp_right fun ⟨k, hn, hk, heq⟩ => ⟨k, Nat.lt_of_succ_lt hn, hk, heq⟩
  distinct := by
    refine pairwise_cons.2 ⟨fun e' he' k heq heq' => ?_, h.distinct⟩
    subst heq'
    rw [← heq] at he'
    rcases h.arg _ he' with hplain | ⟨k', hk', -, heq'⟩
    · exact ignoredSymb_not_plain _ hplain
    · have := ignoredSymb_injective (Expr.binding.inj heq').1
      omega
  unseen := fun _ _ hmem => (by cases hmem)

/-- **The arguments in the order of the columns.** -/
theorem readyArgs_namedFieldArgs {cols : List Symbol} (hnodup : cols.Nodup)
    {args : List (Symbol × Expr X)}
    (hplain : ∀ arg ∈ args, arg.2.Plain) (gen : Nat) :
    ReadyArgs gen (namedFieldArgs gen args cols).2 [] (namedFieldArgs gen args cols).1 ∧
      (namedFieldArgs gen args cols).1.map argPattern = cols.map fun col =>
      (args.lookup col).bind argPattern := by
  induction cols generalizing gen args with
  | nil => exact ⟨⟨le_rfl, fun e he => (by cases he), .nil, fun k hk => (by cases hk)⟩, rfl⟩
  | cons col cols ih =>
    obtain ⟨hcol, hnodup⟩ := nodup_cons.1 hnodup
    cases hlookup : args.lookup col with
    | some e =>
      obtain ⟨l₁, l₂, hargs, -⟩ := lookup_eq_some_iff.1 hlookup
      have he : e.Plain := hplain (col, e) (by simp [hargs])
      have hplain' : ∀ arg ∈ args.filter (·.1 ≠ col), arg.2.Plain := fun arg harg =>
        hplain arg (mem_of_mem_filter harg)
      obtain ⟨hready, hmap⟩ := ih hnodup hplain' gen
      simp only [namedFieldArgs, hlookup]
      refine ⟨hready.cons_plain he, ?_⟩
      rw [map_cons, map_cons, hmap, hlookup]
      -- the argument that has been taken out belongs to no later column
      refine congrArg _ (map_congr_left fun col' hcol' => ?_)
      rw [lookup_filter_ne (ne_of_mem_of_not_mem hcol' hcol)]
    | none =>
      obtain ⟨hready, hmap⟩ := ih hnodup hplain (gen + 1)
      simp only [namedFieldArgs, hlookup]
      refine ⟨hready.cons_ignored, ?_⟩
      rw [map_cons, map_cons, hmap, hlookup]
      simp [argPattern, isGeneratedIgnoredSymbol_ignoredSymb]

/-! ### Atoms -/

/-- **What the pass has made**, while the counter went from `n` to `m`: a normal form in which only
the symbols generated meanwhile are auxiliary, and that says what is described. -/
structure Describes (I : Interpretation X) (n m : Nat) (D : Disjunction X)
    (P : Assignment X → Prop) : Prop where
  le : n ≤ m
  depends : ∀ C ∈ D, DependsOn (Conjunction.Holds I C) (plainSymbols ∪ generatedIn n m)
  sat : ∀ σ, Disjunction.Sat I D σ ↔ P σ

theorem symbol_of_lifts {n m : Nat} {patterns : List (Option (Expr X))}
    {unifs : List (Unification X)}
    {args : List Symbol} (h : Lifts n m patterns unifs args) (hx : x ∈ args) :
    x ∈ plainSymbols ∪ generatedIn n m := by
  induction h with
  | nil => cases hx
  | ignored _ hgen _ _ ih | lifted hgen _ _ _ _ _ ih =>
    rcases mem_cons.1 hx with rfl | hx
    · exact .inr hgen
    · exact ih hx
  | var hplain _ ih =>
    rcases mem_cons.1 hx with rfl | hx
    · exact .inl hplain
    · exact ih hx

theorem holds_application_iff {I : Interpretation X} {unifs : List (Unification X)}
    {atom : NormalFormAtom X} :
    Conjunction.Holds I (unifs.map .unification ++ [atom]) σ ↔ (∀ u ∈ unifs, u.Holds σ) ∧
    atom.Holds I σ := by
  simp only [Conjunction.Holds, mem_append, mem_map, mem_singleton, or_imp,
    forall_and, forall_exists_index,
    and_imp, forall_apply_eq_imp_iff₂, forall_eq, NormalFormAtom.Holds]

theorem sat_singleton {I : Interpretation X} {C : Conjunction X} :
    Disjunction.Sat I [C] σ ↔ Project plainSymbols (Conjunction.Holds I C) σ := by
  simp [Disjunction.Sat]

def AtomSays (I : Interpretation X) (R : Tuple X → Prop) (args : List Symbol)
    (atom : NormalFormAtom X) : Bool → Prop
  | true => ∀ σ, atom.Holds I σ ↔ R (args.map σ)
  | false => ∀ σ, atom.Holds I σ ↔ ¬ Project boundSymbols (fun τ : Assignment X => R (args.map τ)) σ

section Application

variable {I : Interpretation X} {n m : Nat} {patterns : List (Option (Expr X))}
    {unifs : List (Unification X)}
  {args : List Symbol} {R : Tuple X → Prop} {atom : NormalFormAtom X}

theorem dependsOn_args (hlifts : Lifts n m patterns unifs args) :
    DependsOn (fun τ : Assignment X => R (args.map τ)) (plainSymbols ∪ generatedIn n m) := by
  intro σ τ heq
  have hmap : args.map σ = args.map τ := map_congr_left fun x hx => heq x (symbol_of_lifts hlifts hx)
  simp only [hmap]

theorem dependsOn_atom (hlifts : Lifts n m patterns unifs args) {b : Bool}
    (hatom : AtomSays I R args atom b) :
    DependsOn (fun σ => atom.Holds I σ) (plainSymbols ∪ generatedIn n m) := by
  intro σ τ heq
  cases b with
  | true =>
    refine propext ((hatom σ).trans (Iff.trans ?_ (hatom τ).symm))
    exact dependsOn_iff (dependsOn_args hlifts) heq
  | false =>
    refine propext ((hatom σ).trans (Iff.trans (not_congr ?_) (hatom τ).symm))
    exact dependsOn_iff (dependsOn_project boundSymbols (dependsOn_args hlifts)) heq

/-- **A normalised application** says what the application says. -/
theorem describes_application (hle : n ≤ m) (hlifts : Lifts n m patterns unifs args)
    {b : Bool} (hatom : AtomSays I R args atom b) :
    Describes I n m [unifs.map .unification ++ [atom]] fun σ => Applies R patterns σ b where
  le := hle
  depends := by
    intro C hC
    cases mem_singleton.1 hC
    intro σ τ heq
    refine propext (holds_application_iff.trans (Iff.trans (and_congr ?_ ?_) holds_application_iff.symm))
    · exact forall₂_congr fun u hu =>
        holds_congr_of_lifts hlifts (fun x hx => heq x (hx.imp_right And.left)) hu
    · exact dependsOn_iff (dependsOn_atom hlifts hatom) heq
  sat := by
    intro σ
    rw [sat_singleton]
    cases b with
    | true =>
      constructor
      · rintro ⟨τ, heq, hτ⟩
        obtain ⟨hunifs, hR⟩ := holds_application_iff.1 hτ
        exact ⟨args.map τ, (project_args_iff hlifts heq hunifs _).1 ⟨τ, Set.eqOn_refl τ _, rfl⟩,
          (hatom τ).1 hR⟩
      · rintro ⟨t, hmatch, hR⟩
        obtain ⟨τ, heq, hunifs⟩ := exists_holds_of_lifts hlifts fun e he => defined_of_matches hmatch he
        -- the ignored symbols take the values of the row
        obtain ⟨ρ, hρ, rfl⟩ := (project_args_iff hlifts heq hunifs t).2 hmatch
        refine ⟨ρ, fun x hx => (hρ (plainSymbols_subset_boundSymbols hx)).trans (heq hx), ?_⟩
        refine holds_application_iff.2 ⟨fun u hu => ?_, (hatom ρ).2 hR⟩
        refine (holds_congr_of_lifts hlifts (fun x hx => ?_) hu).2 (hunifs u hu)
        exact hρ (hx.elim (fun h => plainSymbols_subset_boundSymbols h) And.right)
    | false =>
      have hrows : ∀ τ : Assignment X, Set.EqOn τ σ plainSymbols → (∀ u ∈ unifs, u.Holds τ) →
          (Project boundSymbols (fun ρ : Assignment X => R (args.map ρ)) τ ↔
            ∃ t, Matches σ patterns t ∧ R t) := by
        intro τ heq hunifs
        constructor
        · rintro ⟨ρ, hρ, hR⟩
          exact ⟨args.map ρ, (project_args_iff hlifts heq hunifs _).1 ⟨ρ, hρ, rfl⟩, hR⟩
        · rintro ⟨t, hmatch, hR⟩
          obtain ⟨ρ, hρ, rfl⟩ := (project_args_iff hlifts heq hunifs t).2 hmatch
          exact ⟨ρ, hρ, hR⟩
      constructor
      · rintro ⟨τ, heq, hτ⟩
        obtain ⟨hunifs, hnot⟩ := holds_application_iff.1 hτ
        exact ⟨defined_of_lifts hlifts heq hunifs, fun hrow =>
          (hatom τ).1 hnot ((hrows τ heq hunifs).2 hrow)⟩
      · rintro ⟨hdefined, hnone⟩
        obtain ⟨τ, heq, hunifs⟩ := exists_holds_of_lifts hlifts hdefined
        refine ⟨τ, heq, holds_application_iff.2 ⟨hunifs, (hatom τ).2 fun hrow => hnone ?_⟩⟩
        exact (hrows τ heq hunifs).1 hrow

end Application

/-! ### Connectives -/

section Connectives

variable {I : Interpretation X} {n m l : Nat}

theorem describes_plain {a : NormalFormAtom X} (h : DependsOn (fun σ => a.Holds I σ) plainSymbols) :
    Describes I n n [[a]] fun σ => a.Holds I σ := by
  have hholds : Conjunction.Holds I [a] = fun σ => a.Holds I σ := by
    funext σ
    simp [Conjunction.Holds]
  refine ⟨le_rfl, fun C hC => ?_, fun σ => ?_⟩
  · cases mem_singleton.1 hC
    rw [hholds]
    exact fun σ τ heq => h fun x hx => heq x (.inl hx)
  · rw [sat_singleton, hholds]
    exact project_of_dependsOn h

theorem describes_nil : Describes I n n ([] : Disjunction X) fun _ => False :=
  ⟨le_rfl, fun C hC => (by cases hC), fun σ => by simp [Disjunction.Sat]⟩

theorem dependsOn_generatedIn_mono {P : Assignment X → Prop} {n n' m m' : Nat}
    (hn : n' ≤ n) (hm : m ≤ m')
    (h : DependsOn P (plainSymbols ∪ generatedIn n m)) :
    DependsOn P (plainSymbols ∪ generatedIn n' m') :=
  fun _ _ heq => h fun x hx => heq x (hx.imp_right fun hgen => generatedIn_mono hn hm hgen)

variable {D₁ D₂ : Disjunction X}

theorem describes_append {P₁ P₂ : Assignment X → Prop} (h₁ : Describes I n m D₁ P₁)
    (h₂ : Describes I m l D₂ P₂) : Describes I n l (D₁ ++ D₂) fun σ => P₁ σ ∨ P₂ σ where
  le := h₁.le.trans h₂.le
  depends := by
    intro C hC
    rcases mem_append.1 hC with hC | hC
    · exact dependsOn_generatedIn_mono le_rfl h₂.le (h₁.depends C hC)
    · exact dependsOn_generatedIn_mono h₁.le le_rfl (h₂.depends C hC)
  sat := by
    intro σ
    rw [← h₁.sat, ← h₂.sat]
    simp only [Disjunction.Sat, mem_append, or_and_right, exists_or]

theorem holds_append {C₁ C₂ : Conjunction X} : Conjunction.Holds I (C₁ ++ C₂) = fun σ =>
    Conjunction.Holds I C₁ σ ∧ Conjunction.Holds I C₂ σ := by
  funext σ
  simp only [Conjunction.Holds, mem_append, or_imp, forall_and]

theorem mem_conjunctiveToDisjunctiveDeMorgen {C : Conjunction X} :
    C ∈ conjunctiveToDisjunctiveDeMorgen D₁ D₂ ↔ ∃ C₁ ∈ D₁, ∃ C₂ ∈ D₂, C₁ ++ C₂ = C := by
  simp [conjunctiveToDisjunctiveDeMorgen]

/-- **Distributing a conjunction.** The two sides have generated symbols of their own. -/
theorem describes_conjunction {P₁ P₂ : Assignment X → Prop} (h₁ : Describes I n m D₁ P₁)
    (h₂ : Describes I m l D₂ P₂) :
    Describes I n l (conjunctiveToDisjunctiveDeMorgen D₁ D₂) fun σ => P₁ σ ∧ P₂ σ where
  le := h₁.le.trans h₂.le
  depends := by
    intro C hC
    obtain ⟨C₁, hC₁, C₂, hC₂, rfl⟩ := mem_conjunctiveToDisjunctiveDeMorgen.1 hC
    rw [holds_append]
    have hdep₁ := dependsOn_generatedIn_mono le_rfl h₂.le (h₁.depends C₁ hC₁)
    have hdep₂ := dependsOn_generatedIn_mono h₁.le le_rfl (h₂.depends C₂ hC₂)
    exact fun σ τ heq => propext (and_congr (dependsOn_iff hdep₁ heq) (dependsOn_iff hdep₂ heq))
  sat := by
    intro σ
    have hproject : ∀ C₁ ∈ D₁, ∀ C₂ ∈ D₂, (Project plainSymbols (Conjunction.Holds I (C₁ ++ C₂)) σ ↔
        Project plainSymbols (Conjunction.Holds I C₁) σ ∧
          Project plainSymbols (Conjunction.Holds I C₂) σ) := by
      intro C₁ hC₁ C₂ hC₂
      rw [holds_append]
      exact project_and (disjoint_generatedIn n m l) (h₁.depends C₁ hC₁) (h₂.depends C₂ hC₂)
    rw [← h₁.sat, ← h₂.sat]
    constructor
    · rintro ⟨C, hC, hσ⟩
      obtain ⟨C₁, hC₁, C₂, hC₂, rfl⟩ := mem_conjunctiveToDisjunctiveDeMorgen.1 hC
      obtain ⟨hσ₁, hσ₂⟩ := (hproject C₁ hC₁ C₂ hC₂).1 hσ
      exact ⟨⟨C₁, hC₁, hσ₁⟩, ⟨C₂, hC₂, hσ₂⟩⟩
    · rintro ⟨⟨C₁, hC₁, hσ₁⟩, ⟨C₂, hC₂, hσ₂⟩⟩
      exact ⟨C₁ ++ C₂, mem_conjunctiveToDisjunctiveDeMorgen.2 ⟨C₁, hC₁, C₂, hC₂, rfl⟩,
        (hproject C₁ hC₁ C₂ hC₂).2 ⟨hσ₁, hσ₂⟩⟩

end Connectives

/-! ### Formulas -/

namespace InputAtom

mutual

/-- **The formulas considered**: rules, relations, predicates and unifications, with the variables
and the negations of their expressions as the parser builds them. -/
def Regular : InputAtom S X → Prop
  | rule _ args => ∀ e ∈ args, e.Plain
  | relation _ args _ => ∀ e ∈ args, e.Plain
  | namedFieldRelation _ args _ => ∀ arg ∈ args, arg.2.Plain
  | predicate p => p.Plain ∧ p.Proper
  | negation inner => inner.Regular
  | conjunction inner => RegularAll inner
  | disjunction inner => RegularAll inner
  | unification u => u.binding ∈ plainSymbols ∧ u.expr.Plain
  | search _ => False

def RegularAll : List (InputAtom S X) → Prop
  | [] => True
  | a :: inner => a.Regular ∧ RegularAll inner

end

theorem readyArgs_of_plain {args : List (Expr X)} (h : ∀ e ∈ args, e.Plain) (gen : Nat) :
    ReadyArgs gen gen [] args where
  le := le_rfl
  arg := fun e he => .inl (h e he)
  distinct := pairwise_of_forall_mem_list fun e he e' _ k heq _ =>
    ignoredSymb_not_plain k (by simpa [heq, Plain] using h e he)
  unseen := fun _ _ hmem => (by cases hmem)

section Normalize

variable {I : Interpretation X} {n gen : Nat} {args : List (Expr X)}

theorem describes_normalizeRule (hready : ReadyArgs n gen [] args) (name : Symbol)
    (isNegated : Bool) :
    Describes I n (normalizeRule isNegated gen name args).2
    (normalizeRule isNegated gen name args).1
      fun σ => Applies (I.rules name) (args.map argPattern) σ !isNegated := by
  have hargs := normalizedArgs_normalizeArgs hready
  refine describes_application (hready.le.trans hargs.le) hargs.lifts ?_
  cases isNegated <;> exact fun σ => Iff.rfl

theorem describes_normalizeRelation (hready : ReadyArgs n gen [] args)
    (name : Symbol) (validAt : Option Int64) (isNegated : Bool) :
    Describes I n (normalizeRelation isNegated gen name args validAt).2
    (normalizeRelation isNegated gen name args validAt).1
      fun σ => Applies (I.relations name validAt) (args.map argPattern) σ !isNegated := by
  have hargs := normalizedArgs_normalizeArgs hready
  refine describes_application (hready.le.trans hargs.le) hargs.lifts ?_
  cases isNegated <;> exact fun σ => Iff.rfl

end Normalize

section Formulas

variable {tx : LogicalTx S X} {I : Interpretation X}

theorem describes_convertNamedFieldRelation {name : Symbol} {args : List (Symbol × Expr X)}
    {validAt : Option Int64}
    (hplain : ∀ arg ∈ args, arg.2.Plain) {gen gen₁ : Nat} {newArgs : List (Expr X)}
    (h : convertNamedFieldRelation tx gen name args = .ok (newArgs, gen₁)) (isNegated : Bool) :
    Describes I gen (normalizeRelation isNegated gen₁ name newArgs validAt).2
    (normalizeRelation isNegated gen₁ name newArgs validAt).1
      fun σ => (namedFieldRelation name args validAt : InputAtom S X).satWith
      tx Expr.dropNegations I σ !isNegated := by
  unfold convertNamedFieldRelation at h
  split at h
  · cases h
  · rename_i stored hstored
    split at h
    · cases h
    · obtain ⟨hready, hpatterns⟩ := readyArgs_namedFieldArgs stored.nodup hplain gen
      rw [Except.ok.inj h] at hready hpatterns
      have hdescribes := describes_normalizeRelation (I := I) hready name validAt isNegated
      rw [hpatterns] at hdescribes
      refine ⟨hdescribes.le, hdescribes.depends, fun σ => (hdescribes.sat σ).trans ?_⟩
      simp only [satWith, hstored, Option.some.injEq, exists_eq_left']

theorem describes_normalizeNegated {a : InputAtom S X} (hregular : a.Regular) {gen gen' : Nat}
    {D : Disjunction X} (h : a.normalizeNegated tx gen = .ok (D, gen')) :
    Describes I gen gen' D fun σ => a.satWith tx Expr.dropNegations I σ false := by
  cases a with
  | rule name args =>
    cases h
    exact describes_normalizeRule (readyArgs_of_plain hregular gen) name true
  | relation name args validAt =>
    cases h
    exact describes_normalizeRelation (readyArgs_of_plain hregular gen) name validAt true
  | namedFieldRelation name args validAt =>
    obtain ⟨⟨newArgs, gen₁⟩, hconvert, h⟩ := bind_ok.1 h
    cases h
    exact describes_convertNamedFieldRelation hregular hconvert true
  | predicate p | negation inner | conjunction inner | disjunction inner | unification u
  | search s => cases h

theorem describes_predicate {p p' : Expr X} (hplain : p.Plain) (hproper : p.Proper)
    (h : p.partialEval = .ok p')
    (gen : Nat) : Describes I gen gen [[.predicate p']] fun σ =>
    p.dropNegations.value σ = .ok (.bool true) := by
  have hvalue : ∀ σ : Assignment X, p'.value σ = p.dropNegations.value σ := fun σ =>
    Expr.evalIn_partialEval _ hproper h
  have hholds : ∀ σ, NormalFormAtom.Holds I σ (.predicate p') ↔
    p.dropNegations.value σ = .ok (.bool true) := fun σ => by
    rw [NormalFormAtom.Holds, hvalue]
  have hdescribes : Describes I gen gen [[.predicate p']] fun σ =>
    NormalFormAtom.Holds I σ (.predicate p') := by
    refine describes_plain fun σ τ heq => propext ((hholds σ).trans (Iff.trans ?_ (hholds τ).symm))
    rw [Expr.value_congr heq (Expr.plain_dropNegations hplain)]
  exact ⟨hdescribes.le, hdescribes.depends, fun σ => (hdescribes.sat σ).trans (hholds σ)⟩

theorem describes_unification {u : Unification X} (hbinding : u.binding ∈ plainSymbols)
    (hplain : u.expr.Plain)
    (gen : Nat) : Describes I gen gen [[.unification u]] fun σ => u.Holds σ := by
  refine describes_plain fun σ τ heq => propext ?_
  simp only [NormalFormAtom.Holds, Unification.Holds, Expr.value_congr heq hplain, heq u.binding hbinding]

mutual

/-- **What the normal form says**: what the formula says, with the double negations of its
predicates dropped. -/
theorem describes_doDisjunctiveNormalForm :
    ∀ {a : InputAtom S X} {gen gen' : Nat} {D : Disjunction X}, a.Regular →
    a.doDisjunctiveNormalForm tx gen = .ok (D, gen') →
    Describes I gen gen' D fun σ => a.satWith tx Expr.dropNegations I σ true
  | rule name args, gen, gen', D, hregular, h => by
    cases h
    exact describes_normalizeRule (readyArgs_of_plain hregular gen) name false
  | relation name args validAt, gen, gen', D, hregular, h => by
    cases h
    exact describes_normalizeRelation (readyArgs_of_plain hregular gen) name validAt false
  | namedFieldRelation name args validAt, gen, gen', D, hregular, h => by
    obtain ⟨⟨newArgs, gen₁⟩, hconvert, h⟩ := bind_ok.1 h
    cases h
    exact describes_convertNamedFieldRelation hregular hconvert false
  | predicate p, gen, gen', D, hregular, h => by
    obtain ⟨p', hp', h⟩ := bind_ok.1 h
    cases h
    exact describes_predicate hregular.1 hregular.2 (mapError_eq_ok.1 hp') gen
  | negation inner, gen, gen', D, hregular, h =>
    describes_normalizeNegated (a := inner) hregular h
  | conjunction [], gen, gen', D, hregular, h => by cases h
  | conjunction (a :: inner), gen, gen', D, hregular, h => by
    obtain ⟨⟨result, gen₁⟩, hfirst, h⟩ := bind_ok.1 h
    exact describes_conjoinNormalForms (describes_doDisjunctiveNormalForm hregular.1 hfirst) hregular.2 h
  | disjunction inner, gen, gen', D, hregular, h => describes_disjoinNormalForms hregular h
  | unification u, gen, gen', D, hregular, h => by
    cases h
    exact describes_unification hregular.1 hregular.2 gen
  | search s, gen, gen', D, hregular, h => hregular.elim

theorem describes_disjoinNormalForms :
    ∀ {inner : List (InputAtom S X)} {gen gen' : Nat} {D : Disjunction X},
    RegularAll inner → disjoinNormalForms tx gen inner = .ok (D, gen') →
    Describes I gen gen' D fun σ => satSome tx Expr.dropNegations I σ inner true
  | [], gen, gen', D, _, h => by
    cases h
    exact describes_nil
  | a :: inner, gen, gen', D, hregular, h => by
    obtain ⟨⟨first, gen₁⟩, hfirst, h⟩ := bind_ok.1 h
    obtain ⟨⟨rest, gen₂⟩, hrest, h⟩ := bind_ok.1 h
    cases h
    exact describes_append (describes_doDisjunctiveNormalForm hregular.1 hfirst)
      (describes_disjoinNormalForms hregular.2 hrest)

theorem describes_conjoinNormalForms :
    ∀ {inner : List (InputAtom S X)} {n gen gen' : Nat} {result D : Disjunction X}
    {P : Assignment X → Prop}, Describes I n gen result P → RegularAll inner →
    conjoinNormalForms tx gen result inner = .ok (D, gen') →
    Describes I n gen' D fun σ => P σ ∧ satAll tx Expr.dropNegations I σ inner true
  | [], n, gen, gen', result, D, P, hresult, _, h => by
    cases h
    exact ⟨hresult.le, hresult.depends, fun σ => (hresult.sat σ).trans ⟨fun hP => ⟨hP, trivial⟩, And.left⟩⟩
  | a :: inner, n, gen, gen', result, D, P, hresult, hregular, h => by
    obtain ⟨⟨next, gen₁⟩, hnext, h⟩ := bind_ok.1 h
    have hboth := describes_conjunction hresult (describes_doDisjunctiveNormalForm hregular.1 hnext)
    have hrest := describes_conjoinNormalForms hboth hregular.2 h
    exact ⟨hrest.le, hrest.depends, fun σ => (hrest.sat σ).trans and_assoc⟩

end

/-! ### Pushing negations -/

mutual

/-- **Pushing negations changes nothing**: the normal form is true where the formula is. -/
theorem sat_negationNormalForm : ∀ {a g : InputAtom S X}, a.Regular → a.negationNormalForm = .ok g →
    g.Regular ∧ ∀ σ, g.satWith tx dropNegations I σ true ↔ a.satWith tx dropNegations I σ true
  | rule _ _, g, hregular, h | relation _ _ _, g, hregular, h | namedFieldRelation _ _ _, g, hregular, h
  | predicate _, g, hregular, h | unification _, g, hregular, h => by
    cases h
    exact ⟨hregular, fun _ => Iff.rfl⟩
  | search _, g, hregular, h => hregular.elim
  | negation inner, g, hregular, h => sat_negatedNormalForm (a := inner) hregular h
  | conjunction inner, g, hregular, h => by
    obtain ⟨inner', hinner, h⟩ := bind_ok.1 h
    cases h
    obtain ⟨hregular', hall, -⟩ := sat_negationNormalForms hregular hinner
    exact ⟨hregular', hall⟩
  | disjunction inner, g, hregular, h => by
    obtain ⟨inner', hinner, h⟩ := bind_ok.1 h
    cases h
    obtain ⟨hregular', -, hsome⟩ := sat_negationNormalForms hregular hinner
    exact ⟨hregular', hsome⟩

theorem sat_negationNormalForms : ∀ {inner inner' : List (InputAtom S X)}, RegularAll inner →
    negationNormalForms inner = .ok inner' →
    RegularAll inner' ∧ (∀ σ, satAll tx dropNegations I σ inner' true ↔
      satAll tx dropNegations I σ inner true) ∧
      ∀ σ, satSome tx dropNegations I σ inner' true ↔ satSome tx dropNegations I σ inner true
  | [], inner', _, h => by
    cases h
    exact ⟨trivial, fun _ => Iff.rfl, fun _ => Iff.rfl⟩
  | a :: inner, inner', hregular, h => by
    obtain ⟨g, hg, h⟩ := bind_ok.1 h
    obtain ⟨inner₁, hinner, h⟩ := bind_ok.1 h
    cases h
    obtain ⟨hregular₁, hsat⟩ := sat_negationNormalForm hregular.1 hg
    obtain ⟨hregular₂, hall, hsome⟩ := sat_negationNormalForms hregular.2 hinner
    exact ⟨⟨hregular₁, hregular₂⟩, fun σ => and_congr (hsat σ) (hall σ), fun σ =>
      or_congr (hsat σ) (hsome σ)⟩

theorem sat_negatedNormalForm : ∀ {a g : InputAtom S X}, a.Regular → a.negatedNormalForm = .ok g →
    g.Regular ∧ ∀ σ, g.satWith tx dropNegations I σ true ↔ a.satWith tx dropNegations I σ false
  | rule _ _, g, hregular, h | relation _ _ _, g, hregular, h | namedFieldRelation _ _ _,
    g, hregular, h => by
    cases h
    exact ⟨hregular, fun _ => Iff.rfl⟩
  | predicate p, g, hregular, h => by
    cases h
    refine ⟨⟨⟨hregular.1, trivial⟩, ⟨fun _ => ⟨rfl, rfl⟩, hregular.2, trivial⟩⟩, fun σ => ?_⟩
    exact value_dropNegations_negate hregular.2
  | unification _, g, hregular, h => by cases h
  | search _, g, hregular, h => by cases h
  | negation inner, g, hregular, h => sat_negationNormalForm (a := inner) hregular h
  | conjunction inner, g, hregular, h => by
    obtain ⟨inner', hinner, h⟩ := bind_ok.1 h
    cases h
    obtain ⟨hregular', -, hsome⟩ := sat_negatedNormalForms hregular hinner
    exact ⟨hregular', hsome⟩
  | disjunction inner, g, hregular, h => by
    obtain ⟨inner', hinner, h⟩ := bind_ok.1 h
    cases h
    obtain ⟨hregular', hall, -⟩ := sat_negatedNormalForms hregular hinner
    exact ⟨hregular', hall⟩

theorem sat_negatedNormalForms : ∀ {inner inner' : List (InputAtom S X)}, RegularAll inner →
    negatedNormalForms inner = .ok inner' →
    RegularAll inner' ∧ (∀ σ, satAll tx dropNegations I σ inner' true ↔
      satAll tx dropNegations I σ inner false) ∧
      ∀ σ, satSome tx dropNegations I σ inner' true ↔ satSome tx dropNegations I σ inner false
  | [], inner', _, h => by
    cases h
    exact ⟨trivial, fun _ => Iff.rfl, fun _ => Iff.rfl⟩
  | a :: inner, inner', hregular, h => by
    obtain ⟨g, hg, h⟩ := bind_ok.1 h
    obtain ⟨inner₁, hinner, h⟩ := bind_ok.1 h
    cases h
    obtain ⟨hregular₁, hsat⟩ := sat_negatedNormalForm hregular.1 hg
    obtain ⟨hregular₂, hall, hsome⟩ := sat_negatedNormalForms hregular.2 hinner
    exact ⟨⟨hregular₁, hregular₂⟩, fun σ => and_congr (hsat σ) (hall σ), fun σ =>
      or_congr (hsat σ) (hsome σ)⟩

end

/-! ### Double negations -/

mutual

theorem satWith_dropNegations {σ : Assignment X} : ∀ {a : InputAtom S X} {b : Bool}, a.Regular →
    a.satWith tx id I σ b → a.satWith tx dropNegations I σ b
  | rule _ _, _, _, h => h
  | relation _ _ _, _, _, h => h
  | namedFieldRelation _ _ _, _, _, h => h
  | predicate _, _, hregular, h => evalIn_dropNegations _ hregular.2 h
  | negation inner, _, hregular, h => satWith_dropNegations (a := inner) hregular h
  | conjunction _, true, hregular, h => satAll_dropNegations hregular h
  | conjunction _, false, hregular, h | disjunction _, true, hregular, h =>
    satSome_dropNegations hregular h
  | disjunction _, false, hregular, h => satAll_dropNegations hregular h
  | unification _, true, _, h => h
  | unification _, false, _, h => h
  | search _, _, hregular, _ => hregular.elim

theorem satAll_dropNegations {σ : Assignment X} :
    ∀ {inner : List (InputAtom S X)} {b : Bool}, RegularAll inner →
    satAll tx id I σ inner b → satAll tx dropNegations I σ inner b
  | [], _, _, h => h
  | _ :: _, _, hregular, h => ⟨satWith_dropNegations hregular.1 h.1, satAll_dropNegations hregular.2 h.2⟩

theorem satSome_dropNegations {σ : Assignment X} :
    ∀ {inner : List (InputAtom S X)} {b : Bool}, RegularAll inner →
    satSome tx id I σ inner b → satSome tx dropNegations I σ inner b
  | [], _, _, h => h
  | _ :: _, _, hregular, h => h.imp (satWith_dropNegations hregular.1) (satSome_dropNegations hregular.2)

end

/-- **What `disjunctive_normal_form` returns.** -/
theorem sat_disjunctiveNormalForm_iff {a : InputAtom S X} (hregular : a.Regular) {D : Disjunction X}
    (h : a.disjunctiveNormalForm tx = .ok D) (σ : Assignment X) :
    Disjunction.Sat I D σ ↔ a.satWith tx Expr.dropNegations I σ true := by
  obtain ⟨g, hg, h⟩ := bind_ok.1 h
  obtain ⟨⟨D', gen⟩, hD, h⟩ := bind_ok.1 h
  cases h
  obtain ⟨hregular', hsat⟩ := @sat_negationNormalForm _ _ tx I _ _ hregular hg
  exact ((describes_doDisjunctiveNormalForm hregular' hD).sat σ).trans (hsat σ)

end Formulas

/-- **Disjunctive normal form.** Where the formula is true, its normal form is; and the normal form
says the same as the formula exactly if the formula is not true in more places when the double
negations in its predicates are dropped. -/
theorem dnf_equivalent_iff (tx : LogicalTx S X) (a : InputAtom S X)
    (hregular : a.Regular) (D : Disjunction X)
    (h : a.disjunctiveNormalForm tx = .ok D) :
    (∀ (I : Interpretation X) (σ : Assignment X), a.Sat tx I σ → Disjunction.Sat I D σ) ∧
      ((∀ (I : Interpretation X) (σ : Assignment X), Disjunction.Sat I D σ ↔ a.Sat tx I σ) ↔
        ∀ (I : Interpretation X) (σ : Assignment X), a.satWith tx Expr.dropNegations I σ true →
        a.Sat tx I σ) := by
  have hkeep : ∀ (I : Interpretation X) (σ : Assignment X), a.Sat tx I σ →
    Disjunction.Sat I D σ := fun I σ hσ =>
    (sat_disjunctiveNormalForm_iff hregular h σ).2 (satWith_dropNegations hregular hσ)
  refine ⟨hkeep, fun heq I σ hσ => ?_, fun hdrop I σ => ⟨fun hσ => ?_, hkeep I σ⟩⟩
  · exact (heq I σ).1 ((sat_disjunctiveNormalForm_iff hregular h σ).2 hσ)
  · exact hdrop I σ ((sat_disjunctiveNormalForm_iff hregular h σ).1 hσ)

end InputAtom

def emptyTx : LogicalTx Unit Unit := ⟨fun _ => none, fun _ _ => .error .unreachable⟩

/-- `not (r[x, x, _] and !x)`. -/
def negatedBody : InputAtom Unit Unit :=
  .negation (.conjunction [.rule "r" [.binding "x" none, .binding "x" none, .binding "_" none],
    .predicate (.negate (.binding "x" none))])

/-- `*1 = x, not r[x, *1, ~2]` or `x`. -/
def negatedBodyForm : Disjunction Unit :=
  [[.unification ⟨"*1", .binding "x" none, false⟩, .negatedRule "r" ["x", "*1", "~2"]],
    [.predicate (.binding "x" none)]]

theorem x_mem_plainSymbols : "x" ∈ plainSymbols := by
  simp [plainSymbols, isGeneratedSymbol]

theorem dnf_equivalent_negatedBody :
    negatedBody.disjunctiveNormalForm emptyTx = .ok negatedBodyForm ∧
    ∀ (I : Interpretation Unit) (σ : Assignment Unit), Disjunction.Sat I negatedBodyForm σ ↔
    negatedBody.Sat emptyTx I σ := by
  have hargs : ∀ e ∈ [(.binding "x" none : Expr Unit), .binding "x" none, .binding "_" none], e.Plain := by
    simp [Expr.Plain, plainSymbols, isGeneratedSymbol]
  have hregular : negatedBody.Regular :=
    ⟨hargs, ⟨⟨x_mem_plainSymbols, trivial⟩, ⟨fun _ => ⟨rfl, rfl⟩, trivial, trivial⟩⟩, trivial⟩
  -- nothing is dropped: the only negation of the formula is one of its predicate
  exact ⟨rfl, (InputAtom.dnf_equivalent_iff emptyTx negatedBody hregular
    negatedBodyForm rfl).2.2 fun I σ hσ => hσ⟩

/-- `!!x == 1`. -/
def checkedBody : InputAtom Unit Unit :=
  .predicate (.apply OP_EQ [.negate (.negate (.binding "x" none)), .const (.num (.int 1))])

/-- `x == 1`. -/
def checkedBodyForm : Disjunction Unit :=
  [[.predicate (.apply OP_EQ [.binding "x" none, .const (.num (.int 1))])]]

/-- The predicate `!!x == 1` fails when `x` is 1, and its normal form is true. -/
theorem dnf_drops_check : checkedBody.disjunctiveNormalForm emptyTx = .ok checkedBodyForm ∧
    ∀ I : Interpretation Unit, Disjunction.Sat I checkedBodyForm (fun _ => .num (.int 1)) ∧
      ¬ checkedBody.Sat emptyTx I fun _ => .num (.int 1) := by
  refine ⟨rfl, fun I => ⟨⟨_, mem_singleton.2 rfl, fun _ => .num (.int 1), Set.eqOn_refl _ _, ?_⟩, ?_⟩⟩
  · intro a ha
    cases mem_singleton.1 ha
    rfl
  · intro h
    cases h

end Retia
