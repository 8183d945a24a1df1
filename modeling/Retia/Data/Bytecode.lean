import Mathlib.Data.List.Basic
import Retia.Lib.Except
import Retia.Data.Expr

/-!
# Compiled expressions

`expr2bytecode` of `data/expr.rs` compiles an expression for `eval_bytecode`, the machine that the
relational plans run; `Expr::eval` walks the expression instead. Conditionals become forward jumps
whose targets are filled in when the end of a clause, or of the whole conditional, is known.

The argument goes through the *finished* code of an expression. `Expr.code` writes it down for every
position at which it can start, with all jumps in place, and `expr2bytecode_eq` shows that this is
what the compiler appends. The run is then an induction over the expression: wherever its code
stands in a larger program, and whatever is on the stack, the machine arrives at the end of the code
with one more value on the stack, or stops with the error of the evaluator on the way.

* `CodeAt`, `Arrives` — code within a program, and a stretch of a run with a bound on its length;
* `exists_compile_iff` — everything is compiled but the unknown functions;
* `compiled_iff_eval` — compiled expressions have the values of the evaluator and fail when it
  fails.

A conditional without a true clause would push nothing, although the evaluator returns null. The
parser closes every conditional with a clause that is always true, which `Expr.Total` asks for.
-/

namespace Retia

open List Retia.Tuple Bytecode

variable {X : Type}

namespace Expr

mutual

/-- **Every conditional ends with a constant-true clause.** -/
def Total : Expr X → Prop
  | .binding _ _ => True
  | .const _ => True
  | .apply _ args => TotalArgs args
  | .cond clauses => TotalClauses clauses
  | .unboundApply _ args => TotalArgs args

def TotalArgs : List (Expr X) → Prop
  | [] => True
  | arg :: args => arg.Total ∧ TotalArgs args

def TotalClauses : List (Expr X × Expr X) → Prop
  | [] => False
  | (c, val) :: clauses =>
    c.Total ∧ val.Total ∧ (clauses = [] ∧ c = .const (.bool true) ∨ TotalClauses clauses)

end

mutual

def Resolved : Expr X → Prop
  | .binding _ _ => True
  | .const _ => True
  | .apply _ args => ResolvedArgs args
  | .cond clauses => ResolvedClauses clauses
  | .unboundApply _ _ => False

def ResolvedArgs : List (Expr X) → Prop
  | [] => True
  | arg :: args => arg.Resolved ∧ ResolvedArgs args

def ResolvedClauses : List (Expr X × Expr X) → Prop
  | [] => True
  | (c, val) :: clauses => c.Resolved ∧ val.Resolved ∧ ResolvedClauses clauses

end

/-! ### Code -/

mutual

/-- The code of an expression, when it starts at the position `n`. -/
def code : Expr X → Nat → List (Bytecode X)
  | .binding var tuplePos, _ => [.binding var tuplePos]
  | .const val, _ => [.const val]
  | .apply op args, n => codeArgs args n ++ [.apply op args.length]
  -- the jumps to the end do not change the length
  | .cond clauses, n => codeClauses clauses (n + (codeClauses clauses 0 n).length) n
  | .unboundApply _ _, _ => []

def codeArgs : List (Expr X) → Nat → List (Bytecode X)
  | [], _ => []
  | arg :: args, n => code arg n ++ codeArgs args (n + (code arg n).length)

/-- The code of clauses, each of which jumps to `target` when it is done. -/
def codeClauses : List (Expr X × Expr X) → Nat → Nat → List (Bytecode X)
  | [], _, _ => []
  | (c, val) :: clauses, target, n =>
    code c n ++ .jumpIfFalse (n + (code c n).length + 1 + (code val
      (n + (code c n).length + 1)).length + 1) ::
      code val (n + (code c n).length + 1) ++ .goto target ::
        codeClauses clauses target
          (n + (code c n).length + 1 + (code val (n + (code c n).length + 1)).length + 1)

end

def jumps : List (Expr X × Expr X) → Nat → List Nat
  | [], _ => []
  | (c, val) :: clauses, n =>
    (n + (code c n).length + 1 + (code val (n + (code c n).length + 1)).length) ::
      jumps clauses (n + (code c n).length + 1 + (code val (n + (code c n).length + 1)).length + 1)

variable (clauses : List (Expr X × Expr X))

theorem length_codeClauses (target target' n : Nat) :
    (codeClauses clauses target n).length = (codeClauses clauses target' n).length := by
  induction clauses generalizing n with
  | nil => rfl
  | cons clause clauses ih =>
    obtain ⟨c, val⟩ := clause
    simp only [codeClauses, length_append, length_cons, ih]

theorem foldl_set_jumps (target : Nat) (collector : List (Bytecode X)) :
    (jumps clauses collector.length).foldl (fun collector pos => collector.set pos (.goto target))
        (collector ++ codeClauses clauses 0 collector.length) =
        collector ++ codeClauses clauses target collector.length := by
  induction clauses generalizing collector with
  | nil => rfl
  | cons clause clauses ih =>
    obtain ⟨c, val⟩ := clause
    rw [jumps, foldl_cons]
    -- the first jump, and then the clauses after it
    generalize hcc : code c collector.length = cc
    generalize hvc : code val (collector.length + cc.length + 1) = vc
    generalize hnext : collector.length + cc.length + 1 + vc.length + 1 = next
    have hblock : ∀ t, codeClauses ((c, val) :: clauses) t collector.length =
        (cc ++ .jumpIfFalse next :: vc) ++ goto t :: codeClauses clauses t next := by
      intro t
      rw [codeClauses, hcc, hvc, hnext]
    have hlength : (collector ++ (cc ++ jumpIfFalse next :: vc)).length =
      collector.length + cc.length + 1 + vc.length := by
      simp only [length_append, length_cons]
      omega
    have hset : (collector ++ codeClauses ((c, val) :: clauses) 0 collector.length).set
        (collector.length + cc.length + 1 + vc.length) (goto target) =
        (collector ++ (cc ++ jumpIfFalse next :: vc) ++ [goto target]) ++ codeClauses clauses 0 next := by
      rw [hblock, ← append_assoc, ← hlength, set_append_right _ _ le_rfl, Nat.sub_self, set_cons_zero]
      simp
    have hnext' : (collector ++ (cc ++ jumpIfFalse next :: vc) ++ [goto target]).length = next := by
      rw [length_append, hlength, length_singleton]
      omega
    rw [hset, hblock]
    have ih := ih (collector ++ (cc ++ .jumpIfFalse next :: vc) ++ [goto target])
    rw [hnext'] at ih
    rw [ih]
    simp

end Expr

open Retia.Expr

/-! ### The compiler -/

mutual

/-- **The compiler appends the code of the expression.** -/
theorem expr2bytecode_eq : ∀ (e : Expr X) (collector : List (Bytecode X)) {r : List (Bytecode X)},
    expr2bytecode e collector = .ok r → r = collector ++ e.code collector.length
  | .binding var tuplePos, collector, r, h | .const val, collector, r, h => by
    rw [expr2bytecode] at h
    cases h
    rfl
  | .apply op args, collector, r, h => by
    rw [expr2bytecode] at h
    obtain ⟨r', hargs, h⟩ := bind_ok.1 h
    cases h
    rw [exprs2bytecode_eq args collector hargs, code, append_assoc]
  | .cond clauses, collector, r, h => by
    rw [expr2bytecode] at h
    obtain ⟨⟨r', pos⟩, hclauses, h⟩ := bind_ok.1 h
    cases h
    obtain ⟨rfl, rfl⟩ := clauses2bytecode_eq clauses collector [] hclauses
    rw [nil_append, foldl_set_jumps, code, length_append]
  | .unboundApply op args, collector, r, h => by
    rw [expr2bytecode] at h
    cases h

theorem exprs2bytecode_eq : ∀ (args : List (Expr X))
    (collector : List (Bytecode X)) {r : List (Bytecode X)},
    exprs2bytecode args collector = .ok r → r = collector ++ codeArgs args collector.length
  | [], collector, r, h => by
    rw [exprs2bytecode] at h
    cases h
    simp [codeArgs]
  | arg :: args, collector, r, h => by
    rw [exprs2bytecode] at h
    obtain ⟨r', harg, h⟩ := bind_ok.1 h
    obtain rfl := expr2bytecode_eq arg collector harg
    rw [exprs2bytecode_eq args _ h, codeArgs, length_append, append_assoc]

theorem clauses2bytecode_eq : ∀ (clauses : List (Expr X × Expr X))
    (collector : List (Bytecode X)) (pos : List Nat)
    {r : List (Bytecode X)} {pos' : List Nat},
    clauses2bytecode clauses collector pos = .ok (r, pos') →
    r = collector ++ Expr.codeClauses clauses 0 collector.length ∧
    pos' = pos ++ Expr.jumps clauses collector.length
  | [], collector, pos, r, pos', h => by
    rw [clauses2bytecode] at h
    cases h
    simp [Expr.codeClauses, Expr.jumps]
  | (c, val) :: clauses, collector, pos, r, pos', h => by
    rw [clauses2bytecode] at h
    obtain ⟨r₁, hc, h⟩ := bind_ok.1 h
    obtain rfl := expr2bytecode_eq c collector hc
    obtain ⟨r₂, hval, h⟩ := bind_ok.1 h
    obtain rfl := expr2bytecode_eq val _ hval
    generalize hcc : c.code collector.length = cc at *
    have hlen₁ : (collector ++ cc ++ [jumpIfFalse 0]).length = collector.length + cc.length + 1 := by
      simp only [length_append, length_singleton]
    rw [hlen₁] at h
    generalize hvc : val.code (collector.length + cc.length + 1) = vc at *
    have hlen₂ : (collector ++ cc ++ [jumpIfFalse 0] ++ vc ++ [goto 0]).length =
        collector.length + cc.length + 1 + vc.length + 1 := by
      simp only [length_append, length_singleton]
    have hset : (collector ++ cc ++ [jumpIfFalse 0] ++ vc ++ [goto 0]).set
        (collector.length + cc.length + 1 - 1)
          (.jumpIfFalse (collector.length + cc.length + 1 + vc.length + 1)) =
        collector ++ (cc ++ .jumpIfFalse
          (collector.length + cc.length + 1 + vc.length + 1) :: vc ++ [goto 0]) := by
      have hpos : collector.length + cc.length + 1 - 1 = (collector ++ cc).length := by simp
      rw [hpos]
      simp only [append_assoc]
      rw [← append_assoc, set_append_right _ _ le_rfl, Nat.sub_self]
      simp
    dsimp only at h
    rw [hlen₂, hset] at h
    obtain ⟨rfl, rfl⟩ := clauses2bytecode_eq clauses _ _ h
    have hlen₃ : (collector ++ (cc ++ jumpIfFalse
      (collector.length + cc.length + 1 + vc.length + 1) :: vc ++
        [goto 0])).length = collector.length + cc.length + 1 + vc.length + 1 := by
      simp only [length_append, length_cons, length_nil]
      omega
    rw [hlen₃, Expr.codeClauses, Expr.jumps, hcc, hvc]
    constructor <;> simp

end

/-! ### Stretches of a run -/

/-- A block of code at position `n` of a program. -/
def CodeAt (program : List (Bytecode X)) (n : Nat) (block : List (Bytecode X)) : Prop :=
  ∃ before after, program = before ++ block ++ after ∧ before.length = n

namespace CodeAt

variable {program block block' : List (Bytecode X)} {n : Nat} {instruction : Bytecode X}

theorem self (program : List (Bytecode X)) : CodeAt program 0 program := ⟨[], [], by simp, rfl⟩

theorem left (h : CodeAt program n (block ++ block')) : CodeAt program n block := by
  obtain ⟨before, after, rfl, hlength⟩ := h
  exact ⟨before, block' ++ after, by simp, hlength⟩

theorem right (h : CodeAt program n (block ++ block')) :
    CodeAt program (n + block.length) block' := by
  obtain ⟨before, after, rfl, hlength⟩ := h
  exact ⟨before ++ block, after, by simp, by simp [hlength]⟩

theorem head (h : CodeAt program n (instruction :: block)) : program[n]? = some instruction := by
  obtain ⟨before, after, rfl, rfl⟩ := h
  simp

theorem tail (h : CodeAt program n (instruction :: block)) : CodeAt program (n + 1) block :=
  @right X program [instruction] block n h

end CodeAt

theorem evalBytecodeLoop_succ {program : List (Bytecode X)} {t : Tuple X}
    {n : Nat} {stack : List (DataValue X)}
    {instruction : Bytecode X} (hat : program[n]? = some instruction) (fuel : Nat) :
    evalBytecodeLoop program t (fuel + 1) n stack =
      instruction.step t n stack >>= fun next => evalBytecodeLoop program t fuel next.1 next.2 := by
  have hn : n ≠ program.length := by
    intro h
    rw [h, List.getElem?_eq_none le_rfl] at hat
    cases hat
  simp only [evalBytecodeLoop, if_neg hn, hat]

/-- **A stretch of a run**: from position `n` with the stack `stack` the machine comes to position
`n'` with the stack that `outcome` gives, or stops with its error. It takes at most as many
instructions as lie between the positions. -/
def Arrives (program : List (Bytecode X)) (t : Tuple X) (n : Nat)
    (stack : List (DataValue X)) (n' : Nat)
    (outcome : Except (EvalError X) (List (DataValue X))) : Prop :=
  ∃ k, n + k ≤ n' ∧ ∀ fuel, evalBytecodeLoop program t (fuel + k) n stack =
    outcome >>= fun stack' => evalBytecodeLoop program t fuel n' stack'

namespace Arrives

variable {program : List (Bytecode X)} {t : Tuple X} {n m n' : Nat} {stack : List (DataValue X)}
  {outcome : Except (EvalError X) (List (DataValue X))}

theorem refl (program : List (Bytecode X)) (t : Tuple X) (n : Nat) (stack : List (DataValue X)) :
    Arrives program t n stack n (.ok stack) := ⟨0, le_rfl, fun _ => rfl⟩

theorem trans {stack' : List (DataValue X)} (h : Arrives program t n stack m (.ok stack'))
    (h' : Arrives program t m stack' n' outcome) : Arrives program t n stack n' outcome := by
  obtain ⟨k, hk, hrun⟩ := h
  obtain ⟨k', hk', hrun'⟩ := h'
  refine ⟨k' + k, by omega, fun fuel => ?_⟩
  calc evalBytecodeLoop program t (fuel + (k' + k)) n stack
      = evalBytecodeLoop program t (fuel + k' + k) n stack := by rw [Nat.add_assoc]
    _ = evalBytecodeLoop program t (fuel + k') m stack' := hrun (fuel + k')
    _ = outcome >>= fun stack'' => evalBytecodeLoop program t fuel n' stack'' := hrun' fuel

theorem fails {err : EvalError X} (h : Arrives program t n stack m (.error err))
    (hle : m ≤ n') : Arrives program t n stack n' (.error err) := by
  obtain ⟨k, hk, hrun⟩ := h
  exact ⟨k, le_trans hk hle, hrun⟩

theorem step {instruction : Bytecode X} (hat : program[n]? = some instruction) (hle : n + 1 ≤ m)
    (hstep : instruction.step t n stack = outcome.map (m, ·)) :
    Arrives program t n stack m outcome := by
  refine ⟨1, hle, fun fuel => ?_⟩
  rw [evalBytecodeLoop_succ hat, hstep]
  cases outcome <;> rfl

section Jump

variable {next : Nat} {condVal : DataValue X} (hat : program[n]? = some (.jumpIfFalse next))

include hat

theorem jump_none (h : condVal.getBool = none) :
    Arrives program t n (condVal :: stack) (n + 1) (.error (.predicateType condVal)) :=
  step hat le_rfl (by rw [Bytecode.step, h]; rfl)

theorem jump_true (h : condVal.getBool = some true) :
    Arrives program t n (condVal :: stack) (n + 1) (.ok stack) :=
  step hat le_rfl (by rw [Bytecode.step, h]; rfl)

theorem jump_false (h : condVal.getBool = some false) (hle : n + 1 ≤ next) :
    Arrives program t n (condVal :: stack) next (.ok stack) :=
  step hat hle (by rw [Bytecode.step, h]; rfl)

end Jump

end Arrives

/-! ### The run -/

def pushAll (stack : List (DataValue X)) (args : List (DataValue X)) : List (DataValue X) :=
  args.reverse ++ stack

theorem step_binding (t : Tuple X) (n : Nat) (stack : List (DataValue X))
    (var : Symbol) (tuplePos : Option Nat) :
    (Bytecode.binding var tuplePos).step t n stack =
    ((Tuple.lookup t var tuplePos).map (· :: stack)).map (n + 1, ·) := by
  cases tuplePos with
  | none => rfl
  | some i =>
    rw [Bytecode.step, Tuple.lookup]
    cases t[i]? <;> rfl

theorem step_apply (t : Tuple X) (n : Nat) (stack : List (DataValue X)) (op : Op X)
    (args : List (DataValue X)) :
    (apply op args.length).step t n (pushAll stack args) =
    (((op.inner args).mapError EvalError.raised).map (· :: stack)).map (n + 1, ·) := by
  have hlength : ¬ (pushAll stack args).length < args.length := by simp [pushAll]
  have htake : ((pushAll stack args).take args.length).reverse = args := by
    rw [pushAll, take_left' (by simp), reverse_reverse]
  have hdrop : (pushAll stack args).drop args.length = stack := by
    rw [pushAll, drop_left' (by simp)]
  rw [step, if_neg hlength, htake, hdrop]
  cases op.inner args <;> rfl

theorem length_evalArgsIn {env : Symbol → Option Nat → Except (EvalError X) (DataValue X)}
    {args : List (Expr X)}
    {vals : List (DataValue X)} (h : evalArgsIn env args = .ok vals) :
    vals.length = args.length := by
  induction args generalizing vals with
  | nil =>
    cases h
    rfl
  | cons arg args ih =>
    rw [evalArgsIn] at h
    obtain ⟨v, -, h⟩ := bind_ok.1 h
    obtain ⟨vs, hvs, h⟩ := bind_ok.1 h
    cases h
    rw [length_cons, length_cons, ih hvs]

mutual

/-- **The run of an expression.** Wherever its code stands, and whatever is on the stack, it pushes
the value of the expression or fails as the evaluator does. -/
theorem arrives_code (program : List (Bytecode X)) (t : Tuple X) :
    ∀ (e : Expr X) (n : Nat) (stack : List (DataValue X)),
    e.Total → e.Resolved → CodeAt program n (e.code n) →
    Arrives program t n stack (n + (e.code n).length) ((e.evalIn (Tuple.lookup t)).map (· :: stack))
  | .binding var tuplePos, n, stack, _, _, hat => by
    rw [Expr.code] at hat ⊢
    rw [Expr.evalIn]
    exact Arrives.step hat.head le_rfl (step_binding t n stack var tuplePos)
  | .const val, n, stack, _, _, hat => by
    rw [Expr.code] at hat ⊢
    exact Arrives.step hat.head le_rfl rfl
  | .apply op args, n, stack, htotal, hresolved, hat => by
    rw [Expr.code] at hat ⊢
    rw [Expr.evalIn]
    have hargs := arrives_codeArgs program t args n stack htotal hresolved hat.left
    cases hvals : Expr.evalArgsIn (Tuple.lookup t) args with
    | error err =>
      rw [hvals] at hargs
      exact hargs.fails (by simp)
    | ok vals =>
      rw [hvals] at hargs
      have hlength := length_evalArgsIn hvals
      have hstep := step_apply t (n + (Expr.codeArgs args n).length) stack op vals
      rw [hlength] at hstep
      refine hargs.trans (Arrives.step hat.right.head ?_ ?_)
      · rw [length_append, length_singleton, Nat.add_assoc]
      · rw [length_append]
        exact hstep
  | .cond clauses, n, stack, htotal, hresolved, hat => by
    rw [Expr.code] at hat ⊢
    rw [Expr.evalIn]
    have hlength := Expr.length_codeClauses clauses (n + (Expr.codeClauses clauses 0 n).length) 0 n
    rw [hlength]
    exact arrives_codeClauses program t clauses n stack _ htotal hresolved hat (by rw [hlength])
  | .unboundApply op args, n, stack, _, hresolved, _ => hresolved.elim

theorem arrives_codeArgs (program : List (Bytecode X)) (t : Tuple X) :
    ∀ (args : List (Expr X)) (n : Nat) (stack : List (DataValue X)), TotalArgs args →
    ResolvedArgs args → CodeAt program n (codeArgs args n) →
    Arrives program t n stack (n + (codeArgs args n).length)
    ((evalArgsIn (lookup t) args).map (pushAll stack))
  | [], n, stack, _, _, _ => Arrives.refl program t n stack
  | arg :: args, n, stack, htotal, hresolved, hat => by
    rw [codeArgs] at hat ⊢
    rw [evalArgsIn, length_append, ← Nat.add_assoc]
    have harg := arrives_code program t arg n stack htotal.1 hresolved.1 hat.left
    cases hval : arg.evalIn (lookup t) with
    | error err =>
      rw [hval] at harg
      exact harg.fails (by omega)
    | ok val =>
      rw [hval] at harg
      have hargs := arrives_codeArgs program t args _ (val :: stack) htotal.2 hresolved.2 hat.right
      have houtcome : (do return val :: (← evalArgsIn (lookup t) args) : Except (EvalError X) _).map
          (pushAll stack) = (evalArgsIn (lookup t) args).map (pushAll (val :: stack)) := by
        cases evalArgsIn (lookup t) args with
        | error err => rfl
        | ok vals => simp [bind, Except.bind, pure, Except.pure, Except.map, pushAll]
      refine harg.trans ?_
      rw [← houtcome] at hargs
      exact hargs

/-- **The run of the clauses.** The machine leaves by the jump at the end of the first clause that
is true. -/
theorem arrives_codeClauses (program : List (Bytecode X)) (t : Tuple X) :
    ∀ (clauses : List (Expr X × Expr X)) (n : Nat) (stack : List (DataValue X)) (target : Nat),
    TotalClauses clauses → ResolvedClauses clauses →
    CodeAt program n (codeClauses clauses target n) →
    n + (codeClauses clauses target n).length ≤ target →
    Arrives program t n stack target ((evalClausesIn (lookup t) clauses).map (· :: stack))
  | [], _, _, _, htotal, _, _, _ => htotal.elim
  | (c, val) :: clauses, n, stack, target, htotal, hresolved, hat, hle => by
    obtain ⟨hctotal, hvaltotal, hrest⟩ := htotal
    obtain ⟨hcres, hvalres, hrestres⟩ := hresolved
    rw [codeClauses] at hat hle
    rw [evalClausesIn]
    generalize hm : n + (c.code n).length + 1 = m at hat hle
    generalize hnext : m + (val.code m).length + 1 = next at hat hle
    have hblock : n + (c.code n ++ .jumpIfFalse next :: val.code m).length + 1 = next := by
      simp only [length_append, length_cons]
      omega
    have hgoto := hat.right.head
    have hrestat := hat.right.tail
    rw [hblock] at hrestat
    have hval := hat.left.right.tail
    rw [hm] at hval
    have hnextle : next + (codeClauses clauses target next).length ≤ target := by
      simp only [length_append, length_cons] at hle
      omega
    have hc := arrives_code program t c n stack hctotal hcres hat.left.left
    cases hcval : c.evalIn (lookup t) with
    | error err =>
      rw [hcval] at hc
      exact hc.fails (by omega)
    | ok condVal =>
      rw [hcval] at hc
      -- the jump over the value takes the condition off the stack
      have hjump := hat.left.right.head
      refine hc.trans ?_
      cases hbool : condVal.getBool with
      | none =>
        simp only [bind, Except.bind, hbool]
        exact (Arrives.jump_none hjump hbool).fails (by omega)
      | some b =>
        simp only [bind, Except.bind, hbool]
        cases b with
        | true =>
          refine (Arrives.jump_true hjump hbool).trans ?_
          rw [hm]
          have hvalrun := arrives_code program t val m stack hvaltotal hvalres hval
          cases hvalval : val.evalIn (lookup t) with
          | error err =>
            rw [hvalval] at hvalrun
            exact hvalrun.fails (by omega)
          | ok v =>
            rw [hvalval] at hvalrun
            have hpos : n + (c.code n ++ .jumpIfFalse next :: val.code m).length =
                m + (val.code m).length := by omega
            rw [hpos] at hgoto
            exact hvalrun.trans (Arrives.step hgoto (by omega) rfl)
        | false =>
          refine (Arrives.jump_false hjump hbool (by omega)).trans ?_
          rcases hrest with ⟨rfl, rfl⟩ | hrest
          · -- the last condition is the constant true
            cases hcval
            cases hbool
          · exact arrives_codeClauses program t clauses next stack target hrest hrestres hrestat hnextle

end

/-! ### Compiled expressions -/

mutual

theorem exists_expr2bytecode_iff : ∀ (e : Expr X) (collector : List (Bytecode X)),
    (∃ r, expr2bytecode e collector = .ok r) ↔ e.Resolved
  | .binding var tuplePos, collector | .const val, collector => by simp [expr2bytecode, Resolved]
  | .apply op args, collector => by
    rw [expr2bytecode, Resolved, ← exists_exprs2bytecode_iff args collector]
    simp only [bind_ok, except_pure_eq_ok]
    exact ⟨fun ⟨_, r, hr, _⟩ => ⟨r, hr⟩, fun ⟨r, hr⟩ => ⟨_, r, hr, rfl⟩⟩
  | .cond clauses, collector => by
    rw [expr2bytecode, Resolved, ← exists_clauses2bytecode_iff clauses collector []]
    simp only [bind_ok, except_pure_eq_ok]
    exact ⟨fun ⟨_, r, hr, _⟩ => ⟨r, hr⟩, fun ⟨r, hr⟩ => ⟨_, r, hr, rfl⟩⟩
  | .unboundApply op args, collector => by simp [expr2bytecode, Resolved]

theorem exists_exprs2bytecode_iff : ∀ (args : List (Expr X)) (collector : List (Bytecode X)),
    (∃ r, exprs2bytecode args collector = .ok r) ↔ ResolvedArgs args
  | [], collector => by simp [exprs2bytecode, ResolvedArgs]
  | arg :: args, collector => by
    rw [exprs2bytecode, ResolvedArgs, ← exists_expr2bytecode_iff arg collector]
    simp only [bind_ok]
    constructor
    · rintro ⟨r, r', harg, hargs⟩
      exact ⟨⟨r', harg⟩, (exists_exprs2bytecode_iff args r').1 ⟨r, hargs⟩⟩
    · rintro ⟨⟨r', harg⟩, hargs⟩
      obtain ⟨r, hr⟩ := (exists_exprs2bytecode_iff args r').2 hargs
      exact ⟨r, r', harg, hr⟩

theorem exists_clauses2bytecode_iff :
    ∀ (clauses : List (Expr X × Expr X)) (collector : List (Bytecode X)) (returnJumpPos : List Nat),
    (∃ r, clauses2bytecode clauses collector returnJumpPos = .ok r) ↔ ResolvedClauses clauses
  | [], collector, returnJumpPos => by simp [clauses2bytecode, ResolvedClauses]
  | (c, val) :: clauses, collector, returnJumpPos => by
    rw [clauses2bytecode, ResolvedClauses, ← exists_expr2bytecode_iff c collector]
    simp only [bind_ok]
    constructor
    · rintro ⟨r, r₁, hc, r₂, hval, hrest⟩
      exact ⟨⟨r₁, hc⟩, (exists_expr2bytecode_iff val _).1 ⟨r₂, hval⟩,
        (exists_clauses2bytecode_iff clauses _ _).1 ⟨r, hrest⟩⟩
    · rintro ⟨⟨r₁, hc⟩, hval, hrest⟩
      obtain ⟨r₂, hr₂⟩ := (exists_expr2bytecode_iff val (r₁ ++ [.jumpIfFalse 0])).2 hval
      obtain ⟨r, hr⟩ := (exists_clauses2bytecode_iff clauses _ _).2 hrest
      exact ⟨r, r₁, hc, r₂, hr₂, hr⟩

end

theorem exists_compile_iff (e : Expr X) : (∃ code, e.compile = .ok code) ↔ e.Resolved :=
  exists_expr2bytecode_iff e []

/-- `eval_bytecode` on the stack that it shares with other calls, which it clears first. -/
def evalBytecodeShared (bytecodes : List (Bytecode X)) (bindings : Tuple X)
    (stack : List (DataValue X)) : Except (EvalError X) (DataValue X) :=
  let stack := stack.take 0
  evalBytecodeLoop bytecodes bindings (bytecodes.length + 1) 0 stack

/-- On every tuple and whatever the stack holds, compiled code gives what the evaluator gives: the
same value or the same error. -/
theorem evalBytecodeShared_eq_eval (e : Expr X) (htotal : e.Total) {code : List (Bytecode X)}
    (hcode : e.compile = .ok code) (t : Tuple X) (stack : List (DataValue X)) :
    evalBytecodeShared code t stack = e.eval t := by
  have hresolved := (exists_compile_iff e).1 ⟨code, hcode⟩
  obtain rfl : code = e.code 0 := by simpa using expr2bytecode_eq e [] hcode
  obtain ⟨k, hk, hrun⟩ := arrives_code (e.code 0) t e 0 [] htotal hresolved (.self _)
  rw [Nat.zero_add] at hk hrun
  -- the run leaves at least one step, which reads the value off the stack
  obtain ⟨fuel, hfuel⟩ : ∃ fuel, (e.code 0).length + 1 = fuel + 1 + k := ⟨(e.code 0).length - k, by omega⟩
  rw [evalBytecodeShared, take_zero, hfuel, hrun, eval]
  cases e.evalIn (lookup t) with
  | error err => rfl
  | ok v => simp [Except.map, bind, Except.bind, evalBytecodeLoop]

/-- **Compiled expressions.** For an expression whose conditionals all end with a constant-true
clause, the code that the compiler makes has the value of the evaluator on every tuple, and fails
exactly if the evaluator fails, whatever is on the shared stack. Only an unknown function keeps the
compiler from making code. -/
theorem compiled_iff_eval (e : Expr X) (htotal : e.Total) :
    ((∃ code, e.compile = .ok code) ↔ e.Resolved) ∧
      ∀ code, e.compile = .ok code → ∀ (t : Tuple X) (stack : List (DataValue X)),
        (∀ v, evalBytecodeShared code t stack = .ok v ↔ e.eval t = .ok v) ∧
        ((∃ err, evalBytecodeShared code t stack = .error err) ↔ ∃ err, e.eval t = .error err) := by
  refine ⟨exists_compile_iff e, fun code hcode t stack => ?_⟩
  rw [evalBytecodeShared_eq_eval e htotal hcode]
  exact ⟨fun _ => Iff.rfl, Iff.rfl⟩

/-- `if(x, 1)`, for the first column. -/
def ifExpr : Expr Unit :=
  .cond [(.binding "x" (some 0), .const (.num (.int 1))), (.const (.bool true), .const .null)]

def ifCode : List (Bytecode Unit) :=
  [.binding "x" (some 0), .jumpIfFalse 4, .const (.num (.int 1)), .goto 8,
    .const (.bool true), .jumpIfFalse 8, .const .null, .goto 8]

theorem total_ifExpr : ifExpr.Total := by simp [ifExpr, Expr.Total, Expr.TotalClauses]

theorem compiled_ifExpr : ifExpr.compile = .ok ifCode ∧
    (evalBytecodeShared ifCode [.bool true] [.bot, .bool false] = .ok (.num (.int 1)) ↔
        ifExpr.eval [.bool true] = .ok (.num (.int 1))) :=
  ⟨rfl, ((compiled_iff_eval ifExpr total_ifExpr).2 ifCode rfl [.bool true] [.bot, .bool false]).1 _⟩

end Retia
