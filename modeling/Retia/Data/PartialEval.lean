import Mathlib.Data.List.Basic
import Retia.Lib.Except
import Retia.Data.Bytecode

/-!
# Partial evaluation

`Expr::partial_eval` of `data/expr.rs` prepares the predicates of a query: it evaluates applications
to constants, from the leaves up, and removes double negations, which accumulate when a rule body is
brought into normal form. It does not descend into conditionals.

The pass is a composition. `dropNegations` takes out the double negations and evaluates nothing;
`foldConstants` then evaluates what is constant and takes out nothing (`partialEval_eq`). Folding
changes neither values nor failures, on any values of the variables (`evalIn_foldConstants`,
`fails_of_foldConstants`). Taking out a double negation keeps every value (`evalIn_dropNegations`),
but it also takes out a check: `!!x` fails when `x` is not a boolean, and `x` does not.

* `Proper` — negations are as the parser builds them;
* `fails_of_partialEval` — where the pass fails, the expression fails on every tuple;
* `partialEval_faithful_iff` — the pass keeps the outcome on every tuple exactly if no failure of
  the expression is due to the double negations alone.
-/

namespace Retia

open List

variable {X : Type}

namespace Expr

/-! ### The pass -/

def isConst : Expr X → Bool
  | .const _ => true
  | _ => false

/-- `!!x` becomes `x`. -/
def removeDoubleNegation (op : Op X) (args : List (Expr X)) : Except (EvalError X) (Expr X) :=
  if op.name = "OP_NEGATE" then
    match args.head? with
    | some (.apply op2 arg2) =>
      if op2.name = "OP_NEGATE" then
        match arg2[0]? with
        | some newSelf => .ok newSelf
        | none => .error (.panic .indexOutOfBounds)
      else .ok (.apply op args)
    | _ => .ok (.apply op args)
  else .ok (.apply op args)

mutual

/-- `partial_eval`. -/
def partialEval : Expr X → Except (EvalError X) (Expr X)
  | .apply op args => do
    let args ← partialEvalArgs args
    if args.all isConst then return .const (← (Expr.apply op args).eval [])
      else removeDoubleNegation op args
  | .binding var tuplePos => .ok (.binding var tuplePos)
  | .const val => .ok (.const val)
  | .cond clauses => .ok (.cond clauses)
  | .unboundApply op args => .ok (.unboundApply op args)

def partialEvalArgs : List (Expr X) → Except (EvalError X) (List (Expr X))
  | [] => .ok []
  | arg :: args => do return (← partialEval arg) :: (← partialEvalArgs args)

end

mutual

/-- **Negations as the parser builds them**: the operator of that name is `op_negate`, with one
argument. -/
def Proper : Expr X → Prop
  | .apply op args => (op.name = "OP_NEGATE" → op.inner = opNegate ∧ args.length = 1) ∧ ProperArgs args
  | .binding _ _ | .const _ | .cond _ | .unboundApply _ _ => True

def ProperArgs : List (Expr X) → Prop
  | [] => True
  | arg :: args => arg.Proper ∧ ProperArgs args

end

/-! ### Its two halves -/

mutual

def isGround : Expr X → Bool
  | .const _ => true
  | .apply _ args => isGroundArgs args
  | .binding _ _ | .cond _ | .unboundApply _ _ => false

def isGroundArgs : List (Expr X) → Bool
  | [] => true
  | arg :: args => arg.isGround && isGroundArgs args

end

/-- A negation before another one, of something that is not constant. -/
def cancel (op : Op X) (args : List (Expr X)) : Expr X :=
  match args with
  | [.apply op2 [arg]] =>
    if op.name = "OP_NEGATE" ∧ op2.name = "OP_NEGATE" ∧ arg.isGround = false then arg else .apply op args
  | _ => .apply op args

mutual

/-- The expression without its double negations. Those of constants stay. -/
def dropNegations : Expr X → Expr X
  | .apply op args => cancel op (dropNegationsArgs args)
  | .binding var tuplePos => .binding var tuplePos
  | .const val => .const val
  | .cond clauses => .cond clauses
  | .unboundApply op args => .unboundApply op args

def dropNegationsArgs : List (Expr X) → List (Expr X)
  | [] => []
  | arg :: args => dropNegations arg :: dropNegationsArgs args

end

mutual

/-- The expression with its applications to constants evaluated. -/
def foldConstants : Expr X → Except (EvalError X) (Expr X)
  | .apply op args => do
    let args ← foldConstantsArgs args
    if args.all isConst then return .const (← (Expr.apply op args).eval []) else return .apply op args
  | .binding var tuplePos => .ok (.binding var tuplePos)
  | .const val => .ok (.const val)
  | .cond clauses => .ok (.cond clauses)
  | .unboundApply op args => .ok (.unboundApply op args)

def foldConstantsArgs : List (Expr X) → Except (EvalError X) (List (Expr X))
  | [] => .ok []
  | arg :: args => do return (← foldConstants arg) :: (← foldConstantsArgs args)

end

/-! ### Folding -/

variable {e : Expr X}

theorem isConst_iff : e.isConst = true ↔ ∃ val, e = .const val := by
  cases e <;> simp [isConst]

variable {op : Op X}

theorem foldConstants_apply {args : List (Expr X)} (h : foldConstants (.apply op args) = .ok e) :
    ∃ args', foldConstantsArgs args = .ok args' ∧
      (args'.all isConst = true ∧ (∃ val, (Expr.apply op args').eval [] = .ok val ∧
      e = .const val) ∨ args'.all isConst = false ∧ e = .apply op args') := by
  rw [foldConstants] at h
  obtain ⟨args', hargs, h⟩ := bind_ok.1 h
  refine ⟨args', hargs, ?_⟩
  split at h
  · rename_i hall
    obtain ⟨val, hval, h⟩ := bind_ok.1 h
    exact .inl ⟨hall, val, hval, (except_pure_eq_ok.1 h).symm⟩
  · rename_i hall
    exact .inr ⟨by simpa using hall, (except_pure_eq_ok.1 h).symm⟩

mutual

theorem isConst_foldConstants : ∀ {e e' : Expr X}, foldConstants e = .ok e' →
    e'.isConst = e.isGround
  | .apply op args, e', h => by
    obtain ⟨args', hargs, ⟨hall, val, -, rfl⟩ | ⟨hall, rfl⟩⟩ := foldConstants_apply h
    · rw [isGround, ← all_isConst_foldConstantsArgs hargs, hall]
      rfl
    · rw [isGround, ← all_isConst_foldConstantsArgs hargs, hall]
      rfl
  | .binding _ _, e', h | .const _, e', h | .cond _, e', h | .unboundApply _ _, e', h => by cases h; rfl

theorem all_isConst_foldConstantsArgs : ∀ {args args' : List (Expr X)},
    foldConstantsArgs args = .ok args' → args'.all isConst = isGroundArgs args
  | [], args', h => by cases h; rfl
  | arg :: args, args', h => by
    rw [foldConstantsArgs] at h
    obtain ⟨a, ha, h⟩ := bind_ok.1 h
    obtain ⟨as, has, h⟩ := bind_ok.1 h
    cases h
    rw [all_cons, isConst_foldConstants ha, all_isConst_foldConstantsArgs has, isGroundArgs]

end

theorem evalArgsIn_of_all_isConst
    (env env' : Symbol → Option Nat → Except (EvalError X) (DataValue X)) :
    ∀ {args : List (Expr X)}, args.all isConst = true → evalArgsIn env args = evalArgsIn env' args
  | [], _ => rfl
  | arg :: args, h => by
    rw [all_cons, Bool.and_eq_true] at h
    obtain ⟨val, rfl⟩ := isConst_iff.1 h.1
    rw [evalArgsIn, evalArgsIn, evalArgsIn_of_all_isConst env env' h.2]
    rfl

section Env

variable (env : Symbol → Option Nat → Except (EvalError X) (DataValue X))

mutual

/-- **Folding keeps the outcome**, values and errors. -/
theorem evalIn_foldConstants : ∀ {e e' : Expr X}, foldConstants e = .ok e' →
    e'.evalIn env = e.evalIn env
  | .apply op args, e', h => by
    obtain ⟨args', hargs, ⟨hall, val, hval, rfl⟩ | ⟨hall, rfl⟩⟩ := foldConstants_apply h
    · rw [evalIn, evalIn, ← evalArgsIn_foldConstantsArgs hargs,
        evalArgsIn_of_all_isConst env (Tuple.lookup []) hall]
      rw [eval, evalIn] at hval
      exact hval.symm
    · rw [evalIn, evalIn, evalArgsIn_foldConstantsArgs hargs]
  | .binding _ _, e', h | .const _, e', h | .cond _, e', h | .unboundApply _ _, e', h => by cases h; rfl

theorem evalArgsIn_foldConstantsArgs : ∀ {args args' : List (Expr X)},
    foldConstantsArgs args = .ok args' → evalArgsIn env args' = evalArgsIn env args
  | [], args', h => by cases h; rfl
  | arg :: args, args', h => by
    rw [foldConstantsArgs] at h
    obtain ⟨a, ha, h⟩ := bind_ok.1 h
    obtain ⟨as, has, h⟩ := bind_ok.1 h
    cases h
    rw [evalArgsIn, evalArgsIn, evalIn_foldConstants ha, evalArgsIn_foldConstantsArgs has]

end

mutual

theorem fails_of_foldConstants : ∀ {e : Expr X} {err : EvalError X}, foldConstants e = .error err →
    ∃ err', e.evalIn env = .error err'
  | .apply op args, err, h => by
    rw [foldConstants] at h
    rw [evalIn]
    cases hargs : foldConstantsArgs args with
    | error err =>
      obtain ⟨err', herr'⟩ := fails_of_foldConstantsArgs hargs
      exact ⟨err', by rw [herr']; rfl⟩
    | ok args' =>
      rw [hargs] at h
      rw [← evalArgsIn_foldConstantsArgs env hargs]
      by_cases hall : args'.all isConst = true
      · cases hval : (Expr.apply op args').eval [] with
        | error err' =>
          rw [eval, evalIn, evalArgsIn_of_all_isConst _ env hall] at hval
          exact ⟨err', hval⟩
        | ok val =>
          simp [bind, Except.bind, hall, hval] at h
          cases h
      · simp [bind, Except.bind, hall] at h
        cases h
  | .binding _ _, err, h => by cases h
  | .const _, err, h => by cases h
  | .cond _, err, h => by cases h
  | .unboundApply _ _, err, h => by cases h

theorem fails_of_foldConstantsArgs : ∀ {args : List (Expr X)} {err : EvalError X},
    foldConstantsArgs args = .error err → ∃ err', evalArgsIn env args = .error err'
  | [], err, h => by cases h
  | arg :: args, err, h => by
    rw [foldConstantsArgs] at h
    rw [evalArgsIn]
    cases harg : foldConstants arg with
    | error err =>
      obtain ⟨err', herr'⟩ := fails_of_foldConstants harg
      exact ⟨err', by rw [herr']; rfl⟩
    | ok a =>
      cases hargs : foldConstantsArgs args with
      | error err =>
        obtain ⟨err', herr'⟩ := fails_of_foldConstantsArgs hargs
        rw [herr']
        cases arg.evalIn env with
        | error err => exact ⟨err, rfl⟩
        | ok val => exact ⟨err', rfl⟩
      | ok as =>
        rw [harg, hargs] at h
        cases h

end

end Env

/-! ### Double negations -/

theorem cancel_cases (op : Op X) (args : List (Expr X)) :
    (∃ op2 arg, args = [.apply op2 [arg]] ∧ op.name = "OP_NEGATE" ∧
      op2.name = "OP_NEGATE" ∧ arg.isGround = false ∧ cancel op args = arg) ∨
      (cancel op args = .apply op args ∧ ∀ op2 arg, args = [.apply op2 [arg]] →
      op.name = "OP_NEGATE" → op2.name = "OP_NEGATE" → arg.isGround = true) := by
  unfold cancel
  split
  · rename_i op2 arg
    split
    · rename_i h
      exact .inl ⟨op2, arg, rfl, h.1, h.2.1, h.2.2, rfl⟩
    · rename_i h
      refine .inr ⟨rfl, fun op2' arg' heq hop hop2 => ?_⟩
      cases heq
      simpa [hop, hop2] using h
  · rename_i hne
    exact .inr ⟨rfl, fun op2 arg heq => (hne op2 arg heq).elim⟩

theorem length_dropNegationsArgs (args : List (Expr X)) :
    (dropNegationsArgs args).length = args.length := by
  induction args with
  | nil => rfl
  | cons arg args ih => rw [dropNegationsArgs, length_cons, length_cons, ih]

mutual

theorem proper_dropNegations : ∀ {e : Expr X}, e.Proper → e.dropNegations.Proper
  | .apply op args, h => by
    obtain ⟨hop, hargs⟩ := h
    have hdrop := properArgs_dropNegationsArgs hargs
    rw [dropNegations]
    obtain ⟨op2, arg, heq, -, -, -, hcancel⟩ | ⟨hcancel, -⟩ := cancel_cases op (dropNegationsArgs args)
    · rw [heq] at hdrop
      rw [hcancel]
      exact hdrop.1.2.1
    · rw [hcancel]
      exact ⟨by rwa [length_dropNegationsArgs], hdrop⟩
  | .binding _ _, _ => trivial
  | .const _, _ => trivial
  | .cond _, _ => trivial
  | .unboundApply _ _, _ => trivial

theorem properArgs_dropNegationsArgs : ∀ {args : List (Expr X)}, ProperArgs args →
    ProperArgs (dropNegationsArgs args)
  | [], _ => trivial
  | _ :: _, h => ⟨proper_dropNegations h.1, properArgs_dropNegationsArgs h.2⟩

end

theorem opNegate_opNegate {v w u : DataValue X} (h : opNegate [v] = .ok w)
    (h' : opNegate [w] = .ok u) : u = v := by
  cases v <;> first | cases h
  rename_i b
  cases h'
  cases b <;> rfl

mutual

/-- **Dropping double negations keeps every value.** -/
theorem evalIn_dropNegations (env : Symbol → Option Nat → Except (EvalError X) (DataValue X)) :
    ∀ {e : Expr X} {v : DataValue X}, e.Proper → e.evalIn env = .ok v →
    e.dropNegations.evalIn env = .ok v
  | .apply op args, v, hproper, h => by
    have hproper' := proper_dropNegations hproper
    rw [evalIn] at h
    obtain ⟨vals, hvals, h⟩ := bind_ok.1 h
    have hdrop := evalArgsIn_dropNegationsArgs env hproper.2 hvals
    have hvalue : (Expr.apply op (dropNegationsArgs args)).evalIn env = .ok v := by
      rw [evalIn, hdrop]
      exact h
    rw [dropNegations]
    obtain ⟨op2, arg, heq, hop, hop2, -, hcancel⟩ | ⟨hcancel, -⟩ :=
      cancel_cases op (dropNegationsArgs args)
    · -- both negations succeed, so the operand is a boolean
      have hproperArgs := properArgs_dropNegationsArgs hproper.2
      rw [heq] at hdrop hproperArgs
      rw [mapError_eq_ok, (hproper.1 hop).1] at h
      rw [evalArgsIn] at hdrop
      obtain ⟨w, hw, hdrop⟩ := bind_ok.1 hdrop
      cases hdrop
      rw [evalIn] at hw
      obtain ⟨us, hus, hw⟩ := bind_ok.1 hw
      rw [mapError_eq_ok, (hproperArgs.1.1 hop2).1] at hw
      rw [evalArgsIn] at hus
      obtain ⟨u, hu, hus⟩ := bind_ok.1 hus
      cases hus
      rw [hcancel, hu, opNegate_opNegate hw h]
    · rw [hcancel]
      exact hvalue
  | .binding _ _, v, _, h => h
  | .const _, v, _, h => h
  | .cond _, v, _, h => h
  | .unboundApply _ _, v, _, h => h

theorem evalArgsIn_dropNegationsArgs
    (env : Symbol → Option Nat → Except (EvalError X) (DataValue X)) :
    ∀ {args : List (Expr X)} {vals : List (DataValue X)}, ProperArgs args →
    evalArgsIn env args = .ok vals → evalArgsIn env (dropNegationsArgs args) = .ok vals
  | [], vals, _, h => h
  | arg :: args, vals, hproper, h => by
    rw [evalArgsIn] at h
    obtain ⟨v, hv, h⟩ := bind_ok.1 h
    obtain ⟨vs, hvs, h⟩ := bind_ok.1 h
    rw [dropNegationsArgs, evalArgsIn, evalIn_dropNegations env hproper.1 hv,
      evalArgsIn_dropNegationsArgs env hproper.2 hvs]
    exact h

end

/-! ### The composition -/

theorem eq_apply_of_foldConstants {args' : List (Expr X)}
    (h : foldConstants e = .ok (.apply op args')) : ∃ args, e = .apply op args ∧
    isGroundArgs args = false := by
  cases e with
  | apply op' args =>
    obtain ⟨as, has, ⟨-, _, -, heq⟩ | ⟨hall, heq⟩⟩ := foldConstants_apply h
    · cases heq
    · cases heq
      exact ⟨args, rfl, by rw [← all_isConst_foldConstantsArgs has, hall]⟩
  | binding _ _ => cases h
  | const _ => cases h
  | cond _ => cases h
  | unboundApply _ _ => cases h

theorem removeDoubleNegation_foldConstants {args args' : List (Expr X)}
    (hproper : (Expr.apply op args).Proper) (hargs : foldConstantsArgs args = .ok args')
    (hno : ∀ op2 arg, args = [.apply op2 [arg]] → op.name = "OP_NEGATE" →
      op2.name = "OP_NEGATE" → arg.isGround = true) :
    removeDoubleNegation op args' = .ok (.apply op args') := by
  unfold removeDoubleNegation
  split
  · rename_i hop
    obtain ⟨arg, rfl⟩ := length_eq_one_iff.1 (hproper.1 hop).2
    rw [foldConstantsArgs] at hargs
    obtain ⟨a, ha, hargs⟩ := bind_ok.1 hargs
    cases hargs
    split
    · rename_i op2 arg2 hhead
      cases hhead
      split
      · -- the argument is a negation, of something that is not constant
        rename_i hop2
        obtain ⟨as, rfl, hground⟩ := eq_apply_of_foldConstants ha
        obtain ⟨b, rfl⟩ := length_eq_one_iff.1 (hproper.2.1.1 hop2).2
        have hb := hno op2 b rfl hop hop2
        rw [isGroundArgs, isGroundArgs, hb] at hground
        cases hground
      · rfl
    · rfl
  · rfl

theorem foldConstantsArgs_singleton (arg : Expr X) :
    foldConstantsArgs [arg] = (foldConstants arg).map ([·]) := by
  rw [foldConstantsArgs, foldConstantsArgs]
  cases foldConstants arg <;> rfl

theorem foldConstants_apply_singleton (op : Op X) {arg : Expr X} (hground : arg.isGround = false) :
    foldConstants (.apply op [arg]) = (foldConstants arg).map (.apply op [·]) := by
  rw [foldConstants, foldConstantsArgs_singleton]
  cases harg : foldConstants arg with
  | error err => rfl
  | ok arg' =>
    have hconst : arg'.isConst = false := by rw [isConst_foldConstants harg, hground]
    simp [Except.map, bind, Except.bind, hconst, pure, Except.pure]

theorem removeDoubleNegation_negate {op2 : Op X} {arg : Expr X} (hop : op.name = "OP_NEGATE")
    (hop2 : op2.name = "OP_NEGATE") : removeDoubleNegation op [.apply op2 [arg]] = .ok arg := by
  simp [removeDoubleNegation, hop, hop2]

mutual

/-- **Partial evaluation folds what dropping the double negations leaves.** -/
theorem partialEval_eq : ∀ {e : Expr X}, e.Proper → e.partialEval = e.dropNegations.foldConstants
  | .apply op args, hproper => by
    rw [partialEval, dropNegations, partialEvalArgs_eq hproper.2]
    obtain ⟨op2, arg, heq, hop, hop2, hground, hcancel⟩ | ⟨hcancel, hno⟩ :=
      cancel_cases op (dropNegationsArgs args)
    · rw [hcancel, heq, foldConstantsArgs_singleton, foldConstants_apply_singleton op2 hground]
      cases harg : foldConstants arg with
      | error err => rfl
      | ok arg' => exact removeDoubleNegation_negate hop hop2
    · have hdrop : (Expr.apply op (dropNegationsArgs args)).Proper :=
        ⟨by rw [length_dropNegationsArgs]; exact hproper.1, properArgs_dropNegationsArgs hproper.2⟩
      rw [hcancel, foldConstants]
      cases hargs : foldConstantsArgs (dropNegationsArgs args) with
      | error err => rfl
      | ok args' =>
        simp only [bind, Except.bind]
        rw [removeDoubleNegation_foldConstants hdrop hargs hno]
        rfl
  | .binding _ _, _ => rfl
  | .const _, _ => rfl
  | .cond _, _ => rfl
  | .unboundApply _ _, _ => rfl

theorem partialEvalArgs_eq : ∀ {args : List (Expr X)}, ProperArgs args →
    partialEvalArgs args = foldConstantsArgs (dropNegationsArgs args)
  | [], _ => rfl
  | arg :: args, h => by
    rw [partialEvalArgs, dropNegationsArgs, foldConstantsArgs, partialEval_eq h.1, partialEvalArgs_eq h.2]

end

variable (env : Symbol → Option Nat → Except (EvalError X) (DataValue X))

theorem evalIn_partialEval {e' : Expr X} (hproper : e.Proper) (h : e.partialEval = .ok e') :
    e'.evalIn env = e.dropNegations.evalIn env := by
  rw [partialEval_eq hproper] at h
  exact evalIn_foldConstants env h

/-- **Where the pass fails, the expression has no value**, and neither has it without its double
negations. -/
theorem fails_of_partialEval {err : EvalError X} (hproper : e.Proper)
    (h : e.partialEval = .error err) :
    (∃ err', e.dropNegations.evalIn env = .error err') ∧ ∃ err', e.evalIn env = .error err' := by
  rw [partialEval_eq hproper] at h
  obtain ⟨err', herr'⟩ := fails_of_foldConstants env h
  refine ⟨⟨err', herr'⟩, ?_⟩
  cases hv : e.evalIn env with
  | error err => exact ⟨err, rfl⟩
  | ok v =>
    rw [evalIn_dropNegations env hproper hv] at herr'
    cases herr'

/-- **What the pass is for**: it fails only where the expression fails on every tuple, and returns
an expression with the same outcome on every tuple. -/
def PartialEvalFaithful (e : Expr X) : Prop :=
  match e.partialEval with
  | .error _ => ∀ t : Tuple X, ∃ err, e.eval t = .error err
  | .ok e' => ∀ t : Tuple X, SameOutcome (e'.eval t) (e.eval t)

/-- **Partial evaluation is faithful** exactly if on every tuple the expression has a value, or also
fails without its double negations. -/
theorem partialEval_faithful_iff (e : Expr X) (hproper : e.Proper) : e.PartialEvalFaithful ↔
      ∀ t : Tuple X, (∃ v, e.eval t = .ok v) ∨ ∃ err, e.dropNegations.eval t = .error err := by
  unfold PartialEvalFaithful
  split
  · rename_i err h
    refine ⟨fun _ t => .inr (fails_of_partialEval t.lookup hproper h).1, fun _ t => ?_⟩
    exact (fails_of_partialEval t.lookup hproper h).2
  · rename_i e' h
    refine forall_congr' fun t => ?_
    have heq : e'.eval t = e.dropNegations.eval t := evalIn_partialEval t.lookup hproper h
    rw [heq]
    constructor
    · intro hsame
      cases hv : e.dropNegations.eval t with
      | error err => exact .inr ⟨err, rfl⟩
      | ok v => exact .inl ⟨v, (hsame v).1 hv⟩
    · rintro (⟨v, hv⟩ | ⟨err, herr⟩) w
      · have hdrop : e.dropNegations.eval t = .ok v := evalIn_dropNegations t.lookup hproper hv
        rw [hdrop, hv]
      · rw [herr]
        refine ⟨fun h => (by cases h), fun hw => ?_⟩
        have hdrop : e.dropNegations.eval t = .ok w := evalIn_dropNegations t.lookup hproper hw
        rw [herr] at hdrop
        cases hdrop

/-- `!x`, for the first column. -/
def notExpr : Expr Unit := .apply OP_NEGATE [.binding "x" (some 0)]

/-- `!!x`. -/
def notNotExpr : Expr Unit := .apply OP_NEGATE [notExpr]

theorem partialEval_faithful_notExpr : notExpr.PartialEvalFaithful := by
  have hproper : notExpr.Proper := ⟨fun _ => ⟨rfl, rfl⟩, trivial, trivial⟩
  refine (partialEval_faithful_iff notExpr hproper).2 fun t => ?_
  have hdrop : notExpr.dropNegations = notExpr := rfl
  rw [hdrop]
  cases notExpr.eval t with
  | error err => exact .inr ⟨err, rfl⟩
  | ok v => exact .inl ⟨v, rfl⟩

/-- `!!x` fails on the number 1; what the pass makes of it gives 1. -/
theorem partialEval_notNotExpr : notNotExpr.partialEval = .ok (.binding "x" (some 0)) ∧
    notNotExpr.eval [.num (.int 1)] = .error (.raised "'negate' requires booleans") ∧
    (Expr.binding "x" (some 0) : Expr Unit).eval [.num (.int 1)] = .ok (.num (.int 1)) :=
  ⟨rfl, rfl, rfl⟩

end Expr

end Retia
