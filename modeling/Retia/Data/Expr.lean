import Mathlib.Data.List.Basic
import Retia.Data.Aggr

/-!
# Expressions

`data/expr.rs`: the expressions of predicates and unifications, the bytecode they are compiled to,
and the bounds a filter puts on a column.

* `Expr`, `Bytecode`, `expr2bytecode` — expressions, the stack code, and the compiler; jumps are to
  absolute positions and are patched once the code they jump over is there;
* `evalBytecode`, `evalBytecodePred` — the stack machine that the relational plans run. It stops at
  the first error, and a jump past the end ends it;
* `computeBounds` — the column bounds that filters like `x >= 3` imply. Contradictory bounds
  collapse to an empty range at the top, so a lower bound never lies above its upper bound
  (`computeBounds_isLE`);
* `opEq`, `opIsIn`, … — the operators the query engine itself inserts or recognises. The other
  operators enter as values of `Op`.
-/

namespace Retia

variable {X : Type}

abbrev Symbol := String

inductive EvalError (X : Type) where
  /-- `UnboundVariableError`. -/
  | unboundVariable (name : String)
  /-- `TupleTooShortError`: the name of the variable, the index, the length of the tuple. -/
  | tupleTooShort (name : String) (idx len : Nat)
  /-- `EvalRaisedError`: the operator failed. -/
  | raised (msg : String)
  /-- `PredicateTypeError`. -/
  | predicateType (v : DataValue X)
  /-- `NoImplementationError`. -/
  | noImplementation (op : String)
  /-- `BadBindingError`. -/
  | badBinding (name : String)
  /-- `BadSpreadUnification`. -/
  | badSpreadUnification
  /-- `StrRangeScanError`. -/
  | strRangeScan (v : DataValue X)
  /-- An aggregation failed. -/
  | aggr (e : AggrError X)
  /-- A stored relation or an index could not be read. -/
  | storage (msg : String)
  /-- `NoEntryError`. -/
  | noEntry
  | panic (p : Panic)
  /-- The evaluation was cut off before it stopped. -/
  | unfinished

structure Op (X : Type) where
  name : String
  minArity : Nat
  vararg : Bool
  inner : List (DataValue X) → Except String (DataValue X)

inductive Expr (X : Type) where
  | binding (var : Symbol) (tuplePos : Option Nat)
  | const (val : DataValue X)
  | apply (op : Op X) (args : List (Expr X))
  | unboundApply (op : String) (args : List (Expr X))
  | cond (clauses : List (Expr X × Expr X))

inductive Bytecode (X : Type) where
  /-- push 1 -/
  | binding (var : Symbol) (tuplePos : Option Nat)
  /-- push 1 -/
  | const (val : DataValue X)
  /-- pop n, push 1 -/
  | apply (op : Op X) (arity : Nat)
  /-- pop 1 -/
  | jumpIfFalse (jumpTo : Nat)
  /-- unchanged -/
  | goto (jumpTo : Nat)

/-! ### Evaluating -/

def Tuple.lookup (bindings : Tuple X) (var : Symbol) :
    Option Nat → Except (EvalError X) (DataValue X)
  | none => .error (.unboundVariable var)
  | some i =>
    match bindings[i]? with
    | some val => .ok val
    | none => .error (.tupleTooShort var i bindings.length)

namespace Expr

mutual

/-- `Expr::eval`, with the values of the variables as a function. -/
def evalIn (env : Symbol → Option Nat → Except (EvalError X) (DataValue X)) :
    Expr X → Except (EvalError X) (DataValue X)
  | .binding var tuplePos => env var tuplePos
  | .const val => .ok val
  | .apply op args => do
    let args ← evalArgsIn env args
    (op.inner args).mapError .raised
  | .cond clauses => evalClausesIn env clauses
  | .unboundApply op _ => .error (.noImplementation op)

def evalArgsIn (env : Symbol → Option Nat → Except (EvalError X) (DataValue X)) :
    List (Expr X) → Except (EvalError X) (List (DataValue X))
  | [] => .ok []
  | arg :: args => do return (← evalIn env arg) :: (← evalArgsIn env args)

/-- The value of the first clause whose condition is true. -/
def evalClausesIn (env : Symbol → Option Nat → Except (EvalError X) (DataValue X)) :
    List (Expr X × Expr X) → Except (EvalError X) (DataValue X)
  | [] => .ok .null
  | (c, val) :: clauses => do
    let condVal ← evalIn env c
    match condVal.getBool with
    | none => .error (.predicateType condVal)
    | some true => evalIn env val
    | some false => evalClausesIn env clauses

end

/-- `Expr::eval`: the value on a tuple. -/
def eval (bindings : Tuple X) (e : Expr X) : Except (EvalError X) (DataValue X) :=
  e.evalIn bindings.lookup

end Expr

/-! ### Running the bytecode -/

/-- One instruction at `pointer` with the given stack (top first): the next pointer and stack. -/
def Bytecode.step (bindings : Tuple X) (pointer : Nat) (stack : List (DataValue X)) :
    Bytecode X → Except (EvalError X) (Nat × List (DataValue X))
  | .binding var none => .error (.unboundVariable var)
  | .binding var (some i) =>
    match bindings[i]? with
    | some val => .ok (pointer + 1, val :: stack)
    | none => .error (.tupleTooShort var i bindings.length)
  | .const val => .ok (pointer + 1, val :: stack)
  | .apply op arity =>
    if stack.length < arity then .error (.panic .indexOutOfBounds)
    else
      -- the arguments were pushed from left to right
      match op.inner (stack.take arity).reverse with
      | .ok result => .ok (pointer + 1, result :: stack.drop arity)
      | .error msg => .error (.raised msg)
  | .jumpIfFalse jumpTo =>
    match stack with
    | [] => .error (.panic .unreachable)
    | val :: stack =>
      match val.getBool with
      | some true => .ok (pointer + 1, stack)
      | some false => .ok (jumpTo, stack)
      | none => .error (.predicateType val)
  | .goto jumpTo => .ok (jumpTo, stack)

/-- The loop of `eval_bytecode`, for at most `fuel` instructions. -/
def evalBytecodeLoop (bytecodes : List (Bytecode X)) (bindings : Tuple X) :
    (fuel pointer : Nat) → List (DataValue X) → Except (EvalError X) (DataValue X)
  | 0, _, _ => .error .unfinished
  | fuel + 1, pointer, stack =>
    if pointer = bytecodes.length then
      match stack with
      | [] => .error (.panic .unreachable)
      | val :: _ => .ok val
    else
      match bytecodes[pointer]? with
      | none => .error (.panic .indexOutOfBounds)
      | some instruction => do
        let (pointer, stack) ← instruction.step bindings pointer stack
        evalBytecodeLoop bytecodes bindings fuel pointer stack

/-- `eval_bytecode`. Compiled code only jumps forward, so it runs each instruction at most once. -/
def evalBytecode (bytecodes : List (Bytecode X)) (bindings : Tuple X) :
    Except (EvalError X) (DataValue X) :=
  evalBytecodeLoop bytecodes bindings (bytecodes.length + 1) 0 []

def evalBytecodePred (bytecodes : List (Bytecode X)) (bindings : Tuple X) :
    Except (EvalError X) Bool := do
  match ← evalBytecode bytecodes bindings with
  | .bool b => return b
  | v => throw (.predicateType v)

/-- The loop over the compiled filters of a plan node: it stops at the first filter that is false or
fails. -/
def evalFilters (filters : List (List (Bytecode X))) (bindings : Tuple X) :
    Except (EvalError X) Bool :=
  match filters with
  | [] => .ok true
  | p :: ps => do if ← evalBytecodePred p bindings then evalFilters ps bindings else return false

/-! ### Compiling -/

mutual

def expr2bytecode : Expr X → List (Bytecode X) → Except (EvalError X) (List (Bytecode X))
  | .binding var tuplePos, collector => .ok (collector ++ [.binding var tuplePos])
  | .const val, collector => .ok (collector ++ [.const val])
  | .apply op args, collector => do
    let collector ← exprs2bytecode args collector
    return collector ++ [.apply op args.length]
  | .cond clauses, collector => do
    let (collector, returnJumpPos) ← clauses2bytecode clauses collector []
    let totalLen := collector.length
    return returnJumpPos.foldl (fun collector pos => collector.set pos (.goto totalLen)) collector
  | .unboundApply op _, _ => .error (.noImplementation op)

def exprs2bytecode : List (Expr X) → List (Bytecode X) → Except (EvalError X) (List (Bytecode X))
  | [], collector => .ok collector
  | arg :: args, collector => do exprs2bytecode args (← expr2bytecode arg collector)

/-- The clauses of a conditional, and the positions of the jumps to its end, still to be patched. -/
def clauses2bytecode : List (Expr X × Expr X) → List (Bytecode X) → List Nat →
    Except (EvalError X) (List (Bytecode X) × List Nat)
  | [], collector, returnJumpPos => .ok (collector, returnJumpPos)
  | (cond, val) :: clauses, collector, returnJumpPos => do
    let collector := (← expr2bytecode cond collector) ++ [.jumpIfFalse 0]
    let falseJumpAmendPos := collector.length - 1
    let collector := (← expr2bytecode val collector) ++ [.goto 0]
    let returnJumpPos := returnJumpPos ++ [collector.length - 1]
    let collector := collector.set falseJumpAmendPos (.jumpIfFalse collector.length)
    clauses2bytecode clauses collector returnJumpPos

end

namespace Expr

def compile (e : Expr X) : Except (EvalError X) (List (Bytecode X)) := expr2bytecode e []

/-! ### Variables -/

mutual

/-- `bindings`: the variables of an expression. -/
def bindings : Expr X → Except (EvalError X) (List Symbol)
  | .binding var _ => .ok [var]
  | .const _ => .ok []
  | .apply _ args => bindingsArgs args
  | .cond clauses => bindingsClauses clauses
  | .unboundApply op _ => .error (.noImplementation op)

def bindingsArgs : List (Expr X) → Except (EvalError X) (List Symbol)
  | [] => .ok []
  | arg :: args => do return (← bindings arg) ++ (← bindingsArgs args)

def bindingsClauses : List (Expr X × Expr X) → Except (EvalError X) (List Symbol)
  | [] => .ok []
  | (c, val) :: clauses => do
    return (← bindings c) ++ (← bindings val) ++ (← bindingsClauses clauses)

end

mutual

/-- `fill_binding_indices`, with the positions of the variables as a partial function. -/
def fillBindingIndices (bindingMap : Symbol → Option Nat) : Expr X → Except (EvalError X) (Expr X)
  | .binding var _ =>
    match bindingMap var with
    | some idx => .ok (.binding var (some idx))
    | none => .error (.badBinding var)
  | .const val => .ok (.const val)
  | .apply op args => do return .apply op (← fillBindingIndicesArgs bindingMap args)
  | .cond clauses => do return .cond (← fillBindingIndicesClauses bindingMap clauses)
  | .unboundApply op _ => .error (.noImplementation op)

def fillBindingIndicesArgs (bindingMap : Symbol → Option Nat) :
    List (Expr X) → Except (EvalError X) (List (Expr X))
  | [] => .ok []
  | arg :: args => do
    return (← fillBindingIndices bindingMap arg) :: (← fillBindingIndicesArgs bindingMap args)

def fillBindingIndicesClauses (bindingMap : Symbol → Option Nat) :
    List (Expr X × Expr X) → Except (EvalError X) (List (Expr X × Expr X))
  | [] => .ok []
  | (c, val) :: clauses => do
    return (← fillBindingIndices bindingMap c, ← fillBindingIndices bindingMap
      val) :: (← fillBindingIndicesClauses bindingMap clauses)

end

def getBinding : Expr X → Option Symbol
  | .binding var _ => some var
  | _ => none

def getConst : Expr X → Option (DataValue X)
  | .const val => some val
  | _ => none

end Expr

/-! ### Operators -/

section Ops

variable [Ord X]

/-- Whether `0.0` stands here, and the number ends with it. -/
def startsZero : Bytes → Bool
  | 48 :: 46 :: 48 :: rest => rest.head?.all fun c => c < 48 || 57 < c
  | _ => false

/-- A printed JSON value with the sign of every negative zero dropped. In a text (`quoted`) nothing
is a number. -/
def unsignZeros (quoted : Bool) : Bytes → Bytes
  | [] => []
  | 92 :: c :: rest => 92 :: c :: unsignZeros quoted rest
  | 34 :: rest => 34 :: unsignZeros (!quoted) rest
  | 45 :: rest => if !quoted && startsZero rest then unsignZeros quoted rest
    else 45 :: unsignZeros quoted rest
  | c :: rest => c :: unsignZeros quoted rest

/-- The derived `PartialEq for JsonData` on printed values. It goes by structure, and the floats
`-0.0` and `0.0` are equal; `Ord` goes by the text. -/
def jsonEq (a b : Bytes) : Bool := unsignZeros false a == unsignZeros false b

/-- `0.0` and `-0.0`, as they are printed. -/
def zeroText : Bytes := [48, 46, 48]

def negZeroText : Bytes := 45 :: zeroText

example : jsonEq negZeroText zeroText = true ∧
    jsonEq (34 :: negZeroText ++ [34]) (34 :: zeroText ++ [34]) = false := by decide

mutual

/-- `==` on values, the derived `PartialEq for DataValue`. Only JSON values are compared in another
way than by `cmp`. -/
def DataValue.beq : DataValue X → DataValue X → Bool
  | .json a, .json b => jsonEq a b
  | .list a, .list b => beqList a b
  | .set a, .set b => beqList a b
  | a, b => DataValue.cmp a b == .eq

def DataValue.beqList : List (DataValue X) → List (DataValue X) → Bool
  | [], [] => true
  | a :: as, b :: bs => beq a b && beqList as bs
  | _, _ => false

end

/-- `starts_with` on tuples: the slice is compared with `==`. -/
def Tuple.startsWith (t pre : Tuple X) : Bool := DataValue.beqList pre (t.take pre.length)

theorem DataValue.cmp_self_beq [Std.TransOrd X] [Std.LawfulEqOrd X] (a : DataValue X) :
    (DataValue.cmp a a == .eq) = true := by
  have hself : compare a a = .eq := Std.ReflCmp.compare_self
  exact beq_iff_eq.2 hself

mutual

theorem DataValue.beq_self [Std.TransOrd X] [Std.LawfulEqOrd X] (a : DataValue X) :
    a.beq a = true := by
  cases a with
  | json s => exact beq_self_eq_true _
  | list l => exact DataValue.beqList_self l
  | set s => exact DataValue.beqList_self s
  | _ => exact DataValue.cmp_self_beq _

theorem DataValue.beqList_self [Std.TransOrd X] [Std.LawfulEqOrd X] (as : List (DataValue X)) :
    DataValue.beqList as as = true := by
  cases as with
  | nil => rfl
  | cons a as => exact Bool.and_eq_true_iff.2 ⟨DataValue.beq_self a, DataValue.beqList_self as⟩

end

/-- `op_eq`: an integer and a float are compared as floats, everything else strictly. -/
def opEq : List (DataValue X) → Except String (DataValue X)
  | .num (.float f) :: .num (.int i) :: _ => .ok (.bool (F64.feq (F64.ofInt64 i) f))
  | .num (.int i) :: .num (.float f) :: _ => .ok (.bool (F64.feq (F64.ofInt64 i) f))
  | a :: b :: _ => .ok (.bool (a.beq b))
  | _ => .error "index out of bounds"

def opIsIn : List (DataValue X) → Except String (DataValue X)
  | left :: right :: _ =>
    match right.getSlice with
    | some l => .ok (.bool (l.any fun v => v.beq left))
    | none => .error "right hand side of 'is_in' must be a list"
  | _ => .error "index out of bounds"

def opAnd : List (DataValue X) → Except String (DataValue X)
  | [] => .ok (.bool true)
  | arg :: args =>
    match arg.getBool with
    | some true => opAnd args
    | some false => .ok (.bool false)
    | none => .error "'and' requires booleans"

def opNegate : List (DataValue X) → Except String (DataValue X)
  | .bool b :: _ => .ok (.bool !b)
  | _ => .error "'negate' requires booleans"

def OP_EQ : Op X := ⟨"OP_EQ", 2, false, opEq⟩
def OP_IS_IN : Op X := ⟨"OP_IS_IN", 2, false, opIsIn⟩
def OP_AND : Op X := ⟨"OP_AND", 0, true, opAnd⟩
def OP_NEGATE : Op X := ⟨"OP_NEGATE", 1, false, opNegate⟩

namespace Expr

def buildEquate (exprs : List (Expr X)) : Expr X := .apply OP_EQ exprs
def buildAnd (exprs : List (Expr X)) : Expr X := .apply OP_AND exprs
def buildIsIn (exprs : List (Expr X)) : Expr X := .apply OP_IS_IN exprs
def negate (e : Expr X) : Expr X := .apply OP_NEGATE [e]

def toConjunction : Expr X → List (Expr X)
  | .apply op args => if op.name = "OP_AND" then args else [.apply op args]
  | e => [e]

end Expr

end Ops

/-! ### Column bounds -/

/-- `ValueRange`: the values a column can take. The default is everything. -/
structure ValueRange (X : Type) where
  lower : DataValue X
  upper : DataValue X

namespace ValueRange

def default : ValueRange X := ⟨.null, .bot⟩
def null : ValueRange X := ⟨.bot, .bot⟩
def lowerBound (val : DataValue X) : ValueRange X := ⟨val, .bot⟩
def upperBound (val : DataValue X) : ValueRange X := ⟨.null, val⟩

variable [Ord X]

def merge (r s : ValueRange X) : ValueRange X :=
  let lower := if DataValue.cmp s.lower r.lower == .lt then r.lower else s.lower
  let upper := if DataValue.cmp s.upper r.upper == .lt then s.upper else r.upper
  if DataValue.cmp lower upper == .gt then null else ⟨lower, upper⟩

end ValueRange

/-- `match val.get_int() { Some(i) => DataValue::from(i), None => val.clone() }`. -/
def intOr (val : DataValue X) : DataValue X := (val.getInt.map fun i => .num (.int i)).getD val

/-- `match val.get_float() { Some(i) => DataValue::from(i), None => val.clone() }`. -/
def floatOr (val : DataValue X) : DataValue X :=
  (val.getFloat.map fun f => .num (.float f)).getD val

def largestUtfChar : Bytes := [0xF4, 0x8F, 0xBF, 0xBF]

namespace Expr

/-- The bound of a comparison of `target` with a constant, for the variable on either side. -/
def comparisonBound (target : Symbol) (onLeft onRight : DataValue X → ValueRange X) :
    List (Expr X) → Except (EvalError X) (ValueRange X)
  | a :: b :: _ =>
    match a.getBinding, b.getConst, b.getBinding, a.getConst with
    | some symb, some val, _, _ =>
      .ok (if target = symb then onLeft val else ValueRange.default)
    | _, _, some symb, some val =>
      .ok (if target = symb then onRight val else ValueRange.default)
    | _, _, _, _ => .ok ValueRange.default
  | _ => .error (.panic .indexOutOfBounds)

def extractBound (target : Symbol) : Expr X → Except (EvalError X) (ValueRange X)
  | .binding _ _ | .const _ | .cond _ => .ok ValueRange.default
  | .apply op args =>
    if op.name = "OP_GE" ∨ op.name = "OP_GT" then
      comparisonBound target (fun val => .lowerBound (intOr val))
        (fun val => .upperBound (floatOr val)) args
    else if op.name = "OP_LE" ∨ op.name = "OP_LT" then
      comparisonBound target (fun val => .upperBound (floatOr val))
        (fun val => .lowerBound (intOr val)) args
    else if op.name = "OP_STARTS_WITH" then
      match args with
      | .binding symb _ :: .const val :: _ =>
        if target = symb then
          match val with
          | .str s => .ok ⟨.str s, .str (s ++ largestUtfChar)⟩
          | val => .error (.strRangeScan val)
        else .ok ValueRange.default
      | _ :: _ => .ok ValueRange.default
      | [] => .error (.panic .indexOutOfBounds)
    else .ok ValueRange.default
  | .unboundApply op _ => .error (.noImplementation op)

end Expr

section Bounds

variable [Ord X]

def columnBound (filters : List (Expr X)) (current : Symbol) :
    Except (EvalError X) (ValueRange X) :=
  filters.foldlM (fun bound filter => do return bound.merge (← filter.extractBound current))
    ValueRange.default

def computeBounds (filters : List (Expr X)) (symbols : List Symbol) :
    Except (EvalError X) (Tuple X × Tuple X) := do
  let bounds ← symbols.mapM (columnBound filters)
  return (bounds.map ValueRange.lower, bounds.map ValueRange.upper)

/-- A merge of ranges does not end above where it starts, whatever is merged. -/
theorem ValueRange.isLE_merge (r s : ValueRange X) :
    (DataValue.cmp (r.merge s).lower (r.merge s).upper).isLE := by
  rw [merge]
  generalize (if DataValue.cmp s.lower r.lower == .lt then r.lower else s.lower) = lower
  generalize (if DataValue.cmp s.upper r.upper == .lt then s.upper else r.upper) = upper
  split
  · rfl
  · rename_i h
    cases hc : DataValue.cmp lower upper <;> simp_all

theorem isLE_columnBound {filters : List (Expr X)} {current : Symbol} {r : ValueRange X}
    (h : columnBound filters current = .ok r) : (DataValue.cmp r.lower r.upper).isLE := by
  refine foldlM_induction (P := fun r : ValueRange X => (DataValue.cmp r.lower r.upper).isLE) ?_ rfl h
  intro s filter s' _ hstep
  obtain ⟨b, _, hs'⟩ := bind_ok.1 hstep
  cases hs'
  exact s.isLE_merge b

theorem isLE_compare_of_forall₂ {l u : Tuple X}
    (h : List.Forall₂ (fun a b => (DataValue.cmp a b).isLE) l u) : (compare l u).isLE := by
  induction h with
  | nil => simp
  | cons hab _ ih =>
    rename_i a b l u _
    rw [List.compare_cons_cons]
    have hcmp : compare a b = DataValue.cmp a b := rfl
    rw [hcmp]
    cases hc : DataValue.cmp a b with
    | lt => rfl
    | eq => exact ih
    | gt => rw [hc] at hab; cases hab

theorem computeBounds_isLE {filters : List (Expr X)} {symbols : List Symbol}
    {l u : Tuple X} (h : computeBounds filters symbols = .ok (l, u)) : (compare l u).isLE := by
  obtain ⟨bounds, hbounds, hlu⟩ := bind_ok.1 h
  cases hlu
  refine isLE_compare_of_forall₂ ?_
  rw [List.forall₂_map_left_iff, List.forall₂_map_right_iff, List.forall₂_same]
  intro r hr
  obtain ⟨symb, _, hsymb⟩ := (mem_of_mapM_eq_ok hbounds).1 hr
  exact isLE_columnBound hsymb

end Bounds

end Retia
