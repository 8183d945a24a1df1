import Mathlib.Data.List.Basic
import Retia.Lib.Except
import Retia.Data.Bytecode
import Retia.Parse.Schema

/-!
# Conditionals

The function calls `cond(c₁, v₁, c₂, v₂, …)` and `if(c, v, w)` are built into conditionals by
`build_term` of `parse/expr.rs` and evaluated by `data/expr.rs`. The builder assembles the list of
clauses: an odd argument at the end is the default and gets a condition of its own, and a last
clause that is always true is added.

The condition that the default gets is the constant null, which is no boolean: a conditional that
comes to its default fails.

* `ExprOf.implement` — a built expression with the implementations of its operators, which is what
  is evaluated;
* `condSpec` — what `cond` is for: the value of the first condition that is true, else the default,
  else null;
* `cond_agrees_iff` — `cond` does this except when it comes to its default and the default has a
  value.
-/

namespace Retia.Schema

open List Retia.Expr

namespace ExprOf

mutual

/-- The expression with the implementations of its operators. -/
def implement (impl : OpInfo → Op Vector) : Expr → Retia.Expr Vector
  | .binding var tuplePos => .binding var tuplePos
  | .const val => .const val
  | .apply op args => .apply (impl op) (implementArgs impl args)
  | .unboundApply op args => .unboundApply op (implementArgs impl args)
  | .cond clauses => .cond (implementClauses impl clauses)

def implementArgs (impl : OpInfo → Op Vector) : List Expr → List (Retia.Expr Vector)
  | [] => []
  | e :: es => implement impl e :: implementArgs impl es

def implementClauses (impl : OpInfo → Op Vector) : List (Expr × Expr) →
    List (Retia.Expr Vector × Retia.Expr Vector)
  | [] => []
  | (c, v) :: clauses => (implement impl c, implement impl v) :: implementClauses impl clauses

end

end ExprOf

variable (impl : OpInfo → Op Vector) (t : Tuple Vector)

/-! ### What a conditional is for -/

/-- **The function `cond`**: the value of the first condition that is true, else the default, else
null. -/
def condSpec : List Expr → Except (EvalError Vector) Value
  | [] => .ok .null
  | [dflt] => (dflt.implement impl).eval t
  | c :: val :: rest => do
    let condVal ← (c.implement impl).eval t
    match condVal.getBool with
    | none => .error (.predicateType condVal)
    | some true => (val.implement impl).eval t
    | some false => condSpec rest

def DefaultValue (v : Value) : List Expr → Prop
  | [] => False
  | [dflt] => (dflt.implement impl).eval t = .ok v
  | c :: _ :: rest => (c.implement impl).eval t = .ok (.bool false) ∧ DefaultValue v rest

/-! ### What the builder makes of it -/

def withDefault (args : List Expr) : List Expr :=
  if args.length % 2 = 1 then args.dropLast ++ [.const .null] ++ args.getLast?.toList else args

def evalClauses (clauses : List (Expr × Expr)) : Except (EvalError Vector) Value :=
  evalClausesIn (Tuple.lookup t) (ExprOf.implementClauses impl clauses)

theorem withDefault_cons_cons (c val : Expr) (rest : List Expr) :
    withDefault (c :: val :: rest) = c :: val :: withDefault rest := by
  cases rest with
  | nil => simp [withDefault]
  | cons a rest =>
    have hparity : (c :: val :: a :: rest).length % 2 = (a :: rest).length % 2 := by
      simp only [length_cons]
      omega
    rw [withDefault, withDefault, hparity]
    split <;> simp

variable {args : List Expr} {e : Expr}

theorem buildCond_eq_ok (h : buildCond args = .ok e) :
    e = .cond (closeClauses (chunksOfTwo (withDefault args))) := by
  rw [buildCond] at h
  split at h
  · cases h
  · cases h
    rfl

theorem evalClauses_append (clauses : List (Expr × Expr)) :
    evalClauses impl t (clauses ++ [(.const (.bool true), .const .null)]) =
    evalClauses impl t clauses := by
  induction clauses with
  | nil => rfl
  | cons clause clauses ih =>
    obtain ⟨c, val⟩ := clause
    rw [cons_append, evalClauses, evalClauses, ExprOf.implementClauses,
      ExprOf.implementClauses, evalClausesIn, evalClausesIn, ← evalClauses, ← evalClauses, ih]

theorem evalClauses_closeClauses (clauses : List (Expr × Expr)) :
    evalClauses impl t (closeClauses clauses) = evalClauses impl t clauses := by
  rw [closeClauses]
  split
  · rfl
  · rfl
  · exact evalClauses_append impl t clauses

/-- The clauses give what the arguments ask for, unless the default is reached and has a value. The
induction takes the arguments two by two, as the builder does. -/
theorem evalClauses_withDefault_iff : ∀ args : List Expr,
    (∀ v, evalClauses impl t (chunksOfTwo (withDefault args)) = .ok v ↔
      condSpec impl t args = .ok v) ↔ ¬ ∃ v, DefaultValue impl t v args
  | [] => by simp [withDefault, chunksOfTwo, evalClauses, ExprOf.implementClauses, evalClausesIn, condSpec,
      DefaultValue]
  | [dflt] => by
    -- the condition of the default is null, which is no boolean
    have hfails : evalClauses impl t (chunksOfTwo (withDefault [dflt])) =
      .error (.predicateType .null) := rfl
    simp only [hfails, condSpec, DefaultValue, reduceCtorEq, false_iff, not_exists]
  | c :: val :: rest => by
    have ih := evalClauses_withDefault_iff rest
    rw [withDefault_cons_cons, chunksOfTwo, evalClauses, ExprOf.implementClauses,
      evalClausesIn, ← evalClauses, condSpec]
    cases hc : (c.implement impl).eval t with
    | error err =>
      rw [eval] at hc
      simp [hc, bind, Except.bind, DefaultValue, eval]
    | ok condVal =>
      cases hbool : condVal.getBool with
      | none =>
        have hne : condVal ≠ .bool false := by
          rintro rfl
          cases hbool
        rw [eval] at hc
        simp [hc, hbool, hne, bind, Except.bind, DefaultValue, eval]
      | some b =>
        obtain rfl : condVal = .bool b := by
          cases condVal <;> first | (cases hbool; rfl) | cases hbool
        rw [eval] at hc
        cases b with
        | true => simp [hc, bind, Except.bind, DefaultValue, eval, DataValue.getBool]
        | false => simpa [hc, bind, Except.bind, DefaultValue, eval, DataValue.getBool] using ih

/-- **The function `cond`.** What the builder makes of the arguments has the value they ask for, on
every tuple, except when the arguments have a default, no condition is true and the default has a
value; then it fails. -/
theorem cond_agrees_iff (impl : OpInfo → Op Vector) (t : Tuple Vector)
    (args : List Expr) (e : Expr) (h : buildCond args = .ok e) :
    (∀ v, (e.implement impl).eval t = .ok v ↔ condSpec impl t args = .ok v) ↔
    ¬ ∃ v, DefaultValue impl t v args := by
  rw [buildCond_eq_ok h, ExprOf.implement, eval, evalIn, ← evalClauses, evalClauses_closeClauses]
  exact evalClauses_withDefault_iff impl t args

def noImpl (op : OpInfo) : Op Vector :=
  ⟨op.name, op.minArity, op.vararg, fun _ => .error "no implementation"⟩

/-- `cond(x, 1)`. -/
def condWithoutDefault : List Expr := [.binding "x" (some 0), .const (.num (.int 1))]

/-- `cond(x, 1, 2)`. -/
def condWithDefault : List Expr := condWithoutDefault ++ [.const (.num (.int 2))]

theorem cond_agrees_without_default : ∃ e, buildCond condWithoutDefault = .ok e ∧
    ∀ v, (e.implement noImpl).eval [.bool false] = .ok v ↔
    condSpec noImpl [.bool false] condWithoutDefault = .ok v := by
  refine ⟨_, rfl, (cond_agrees_iff noImpl [.bool false] condWithoutDefault _ rfl).2 ?_⟩
  simp [condWithoutDefault, DefaultValue]

/-- `cond(x, 1, 2)` is 2 when `x` is false, but fails. -/
theorem cond_default_fails : ∃ e, buildCond condWithDefault = .ok e ∧
    condSpec noImpl [.bool false] condWithDefault = .ok (.num (.int 2)) ∧
    (e.implement noImpl).eval [.bool false] = .error (.predicateType .null) :=
  ⟨_, rfl, rfl, rfl⟩

end Retia.Schema
