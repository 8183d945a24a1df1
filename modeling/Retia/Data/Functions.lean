import Retia.Data.Value

/-!
# Arithmetic on integers

`data/functions.rs`: the operators `add`, `sub`, `mul`, `minus`, `abs` and `mod`. Integers are
machine integers, and the operators use the plain arithmetic of the language: where the result does
not fit, a build with overflow checks stops and one without them goes on with the result modulo `2 ^
64` (`checkedInt`). The remainder of the least integer by `-1` stops in both.

`add` and `mul` run over their arguments from left to right, with one accumulator for the integers
and one for the floats (`foldNumbers`). The intermediate values count: a sum that fits can have a
partial sum that does not.

* `IntCall.fits` — all intermediate values of a call fit into 64 bits;
* `intCall_exact_iff` — this is when the call returns the exact result, or an error, in every build.

The arithmetic of floats and of vectors is a parameter.
-/

namespace Retia

open List

variable {X : Type}

inductive OpError where
  /-- An error that is reported. -/
  | bail (msg : String)
  | panic (p : Panic)
  /-- "attempt to … with overflow". -/
  | overflow

structure FloatArith (X : Type) where
  add : F64 → F64 → F64
  sub : F64 → F64 → F64
  mul : F64 → F64 → F64
  rem : F64 → F64 → F64
  neg : F64 → F64
  abs : F64 → F64
  addVecs : List (DataValue X) → Except OpError (DataValue X)
  mulVecs : List (DataValue X) → Except OpError (DataValue X)
  /-- The difference of two values of which one is a vector. -/
  subVecs : DataValue X → DataValue X → Except OpError (DataValue X)
  negVec : X → X
  absVec : X → X

def inRange (n : Int) : Bool := -2 ^ 63 ≤ n ∧ n < 2 ^ 63

/-- The result of an operation on machine integers, in a build with or without overflow checks. -/
def checkedInt (checks : Bool) (n : Int) : Except OpError Int64 :=
  if inRange n || !checks then .ok (Int64.ofInt n) else .error .overflow

/-! ### Operators -/

section Operators

variable (checks : Bool) (A : FloatArith X)

structure NumberFold (X : Type) where
  intOp : Int → Int → Int
  intUnit : Int64
  floatOp : F64 → F64 → F64
  floatUnit : F64
  vecs : List (DataValue X) → Except OpError (DataValue X)
  refusal : String

/-- The loop over the arguments, and the result. The first vector hands all of them over. -/
def foldNumbers (k : NumberFold X) (args : List (DataValue X)) :
    List (DataValue X) → Int64 → F64 → Except OpError (DataValue X)
  | [], iAccum, fAccum =>
    if fAccum.feq k.floatUnit then .ok (.num (.int iAccum))
    else .ok (.num (.float (k.floatOp (F64.ofInt64 iAccum) fAccum)))
  | .num (.int i) :: rest, iAccum, fAccum =>
    match checkedInt checks (k.intOp iAccum.toInt i.toInt) with
    | .ok iAccum => foldNumbers k args rest iAccum fAccum
    | .error e => .error e
  | .num (.float f) :: rest, iAccum, fAccum => foldNumbers k args rest iAccum (k.floatOp fAccum f)
  | .vec _ :: _, _, _ => k.vecs args
  | _ :: _, _, _ => .error (.bail k.refusal)

def sumFold : NumberFold X :=
  ⟨(· + ·), 0, A.add, F64.ofMag false 0, A.addVecs, "addition requires numbers"⟩

def productFold : NumberFold X :=
  ⟨(· * ·), 1, A.mul, F64.ofInt64 1, A.mulVecs, "multiplication requires numbers"⟩

/-- `op_add`. -/
def opAdd (args : List (DataValue X)) : Except OpError (DataValue X) :=
  foldNumbers checks (sumFold A) args args (sumFold A).intUnit (sumFold A).floatUnit

/-- `op_mul`. -/
def opMul (args : List (DataValue X)) : Except OpError (DataValue X) :=
  foldNumbers checks (productFold A) args args (productFold A).intUnit (productFold A).floatUnit

def intValue (r : Except OpError Int64) : Except OpError (DataValue X) :=
  r.map fun i => .num (.int i)

/-- `op_sub`. -/
def opSub : List (DataValue X) → Except OpError (DataValue X)
  | .num (.int a) :: .num (.int b) :: _ => intValue (checkedInt checks (a.toInt - b.toInt))
  | .num (.float a) :: .num (.float b) :: _ => .ok (.num (.float (A.sub a b)))
  | .num (.int a) :: .num (.float b) :: _ => .ok (.num (.float (A.sub (F64.ofInt64 a) b)))
  | .num (.float a) :: .num (.int b) :: _ => .ok (.num (.float (A.sub a (F64.ofInt64 b))))
  | .vec a :: b :: _ => A.subVecs (.vec a) b
  | a :: .vec b :: _ => A.subVecs a (.vec b)
  | _ :: _ :: _ => .error (.bail "subtraction requires numbers")
  | _ => .error (.panic .indexOutOfBounds)

/-- `op_minus`. -/
def opMinus : List (DataValue X) → Except OpError (DataValue X)
  | .num (.int i) :: _ => intValue (checkedInt checks (-i.toInt))
  | .num (.float f) :: _ => .ok (.num (.float (A.neg f)))
  | .vec v :: _ => .ok (.vec (A.negVec v))
  | _ :: _ => .error (.bail "minus can only be applied to numbers")
  | [] => .error (.panic .indexOutOfBounds)

/-- `op_abs`. -/
def opAbs : List (DataValue X) → Except OpError (DataValue X)
  | .num (.int i) :: _ => intValue (checkedInt checks |i.toInt|)
  | .num (.float f) :: _ => .ok (.num (.float (A.abs f)))
  | .vec v :: _ => .ok (.vec (A.absVec v))
  | _ :: _ => .error (.bail "'abs' requires numbers")
  | [] => .error (.panic .indexOutOfBounds)

/-- `op_mod`. Its overflow is one in every build. -/
def opMod : List (DataValue X) → Except OpError (DataValue X)
  | .num (.int a) :: .num (.int b) :: _ =>
    if b = 0 then .error (.bail "'mod' requires non-zero divisor")
    else if inRange (a.toInt.tdiv b.toInt) then .ok (.num (.int (Int64.ofInt (a.toInt.tmod b.toInt))))
    else .error .overflow
  | .num (.float a) :: .num (.float b) :: _ => .ok (.num (.float (A.rem a b)))
  | .num (.int a) :: .num (.float b) :: _ => .ok (.num (.float (A.rem (F64.ofInt64 a) b)))
  | .num (.float a) :: .num (.int b) :: _ => .ok (.num (.float (A.rem a (F64.ofInt64 b))))
  | _ :: _ :: _ => .error (.bail "'mod' requires numbers")
  | _ => .error (.panic .indexOutOfBounds)

end Operators

/-! ### Calls on integers -/

theorem inRange_iff {n : Int} : inRange n = true ↔ -2 ^ 63 ≤ n ∧ n < 2 ^ 63 := by
  rw [inRange, decide_eq_true_eq]

theorem inRange_toInt (i : Int64) : inRange i.toInt = true := inRange_iff.2 ⟨i.le_toInt, i.toInt_lt⟩

theorem toInt_ofInt_of_inRange {n : Int} (h : inRange n = true) : (Int64.ofInt n).toInt = n := by
  rw [inRange_iff] at h
  exact Int64.toInt_ofInt_of_le h.1 h.2

theorem checkedInt_of_inRange {n : Int} (h : inRange n = true) (checks : Bool) :
    checkedInt checks n = .ok (Int64.ofInt n) := by
  rw [checkedInt, h, Bool.true_or, if_pos rfl]

theorem checkedInt_of_not_inRange {n : Int} (h : inRange n = false) :
    checkedInt true n = .error .overflow := by
  rw [checkedInt, h]
  rfl

inductive IntCall where
  | add (args : List Int64)
  | sub (a b : Int64)
  | mul (args : List Int64)
  | minus (a : Int64)
  | abs (a : Int64)
  | mod (a b : Int64)

def foldFits (op : Int → Int → Int) : Int → List Int64 → Bool
  | _, [] => true
  | accum, i :: rest => inRange (op accum i.toInt) && foldFits op (op accum i.toInt) rest

namespace IntCall

def run (checks : Bool) (A : FloatArith X) : IntCall → Except OpError (DataValue X)
  | add args => opAdd checks A (args.map fun i => .num (.int i))
  | sub a b => opSub checks A [.num (.int a), .num (.int b)]
  | mul args => opMul checks A (args.map fun i => .num (.int i))
  | minus a => opMinus checks A [.num (.int a)]
  | abs a => opAbs checks A [.num (.int a)]
  | mod a b => opMod A [.num (.int a), .num (.int b)]

def result : IntCall → Option Int
  | add args => some (args.map Int64.toInt).sum
  | sub a b => some (a.toInt - b.toInt)
  | mul args => some (args.map Int64.toInt).prod
  | minus a => some (-a.toInt)
  | abs a => some |a.toInt|
  | mod a b => if b = 0 then none else some (a.toInt.tmod b.toInt)

/-- No intermediate value leaves the 64-bit integers. -/
def fits : IntCall → Bool
  | add args => foldFits (· + ·) 0 args
  | sub a b => inRange (a.toInt - b.toInt)
  | mul args => foldFits (· * ·) 1 args
  | minus a => inRange (-a.toInt)
  | abs a => inRange |a.toInt|
  | mod a b => inRange (a.toInt.tdiv b.toInt)

def Exact (A : FloatArith X) (c : IntCall) : Prop :=
  ∀ checks, (∃ i, c.run checks A = .ok (.num (.int i)) ∧ c.result = some i.toInt) ∨
    ∃ msg, c.run checks A = .error (.bail msg)

end IntCall

/-! ### Sums and products -/

section Folds

variable (k : NumberFold X) (args : List (DataValue X)) {l : List Int64} (accum : Int64)

theorem foldNumbers_of_fits (hunit : k.floatUnit.feq k.floatUnit = true)
    (h : foldFits k.intOp accum.toInt l = true) (checks : Bool) :
    ∃ i : Int64, foldNumbers checks k args (l.map fun i => .num (.int i)) accum k.floatUnit =
    .ok (.num (.int i)) ∧ i.toInt = (l.map Int64.toInt).foldl k.intOp accum.toInt := by
  induction l generalizing accum with
  | nil =>
    refine ⟨accum, ?_, rfl⟩
    rw [map_nil, foldNumbers, hunit, if_pos rfl]
  | cons i l ih =>
    rw [foldFits, Bool.and_eq_true] at h
    obtain ⟨hfit, hrest⟩ := h
    have hstep : (Int64.ofInt (k.intOp accum.toInt i.toInt)).toInt = k.intOp accum.toInt i.toInt :=
      toInt_ofInt_of_inRange hfit
    rw [← hstep] at hrest
    obtain ⟨r, hr, hvalue⟩ := ih _ hrest
    refine ⟨r, ?_, ?_⟩
    · rw [map_cons, foldNumbers, checkedInt_of_inRange hfit]
      exact hr
    · rw [hvalue, hstep]
      rfl

theorem foldNumbers_of_not_fits (h : foldFits k.intOp accum.toInt l = false) :
    foldNumbers true k args (l.map fun i => .num (.int i)) accum k.floatUnit =
    .error .overflow := by
  induction l generalizing accum with
  | nil => cases h
  | cons i l ih =>
    rw [foldFits] at h
    cases hfit : inRange (k.intOp accum.toInt i.toInt) with
    | false => rw [map_cons, foldNumbers, checkedInt_of_not_inRange hfit]
    | true =>
      rw [hfit, Bool.true_and, ← toInt_ofInt_of_inRange hfit] at h
      rw [map_cons, foldNumbers, checkedInt_of_inRange hfit]
      exact ih _ h

end Folds

/-! ### When calls are exact -/

namespace IntCall

variable {A : FloatArith X} {c : IntCall}

theorem feq_zero : (F64.ofMag false 0).feq (F64.ofMag false 0) = true := by decide

theorem feq_one : (F64.ofInt64 1).feq (F64.ofInt64 1) = true := by decide

theorem inRange_tmod (a : Int64) {b : Int64} (hb : b ≠ 0) :
    inRange (a.toInt.tmod b.toInt) = true := by
  have hne : b.toInt ≠ 0 := fun h => hb (Int64.toInt_inj.1 h)
  have hlt : (a.toInt.tmod b.toInt).natAbs < b.toInt.natAbs := by
    rw [Int.natAbs_tmod]
    exact Nat.mod_lt _ (Int.natAbs_pos.2 hne)
  have hlo := b.le_toInt
  have hhi := b.toInt_lt
  rw [inRange_iff]
  omega

theorem exact_of_fits (h : c.fits = true) : c.Exact A := by
  intro checks
  cases c with
  | add args =>
    obtain ⟨i, hi, hvalue⟩ := foldNumbers_of_fits (sumFold A)
      (args.map fun i => .num (.int i)) 0 feq_zero h checks
    exact .inl ⟨i, hi, congrArg some (hvalue.trans sum_eq_foldl.symm).symm⟩
  | mul args =>
    obtain ⟨i, hi, hvalue⟩ := foldNumbers_of_fits (productFold A)
      (args.map fun i => .num (.int i)) 1 feq_one h checks
    exact .inl ⟨i, hi, congrArg some (hvalue.trans prod_eq_foldl.symm).symm⟩
  | sub a b =>
    refine .inl ⟨Int64.ofInt (a.toInt - b.toInt), ?_, congrArg some (toInt_ofInt_of_inRange h).symm⟩
    rw [run, opSub, checkedInt_of_inRange h]
    rfl
  | minus a =>
    refine .inl ⟨Int64.ofInt (-a.toInt), ?_, congrArg some (toInt_ofInt_of_inRange h).symm⟩
    rw [run, opMinus, checkedInt_of_inRange h]
    rfl
  | abs a =>
    refine .inl ⟨Int64.ofInt |a.toInt|, ?_, congrArg some (toInt_ofInt_of_inRange h).symm⟩
    rw [run, opAbs, checkedInt_of_inRange h]
    rfl
  | mod a b =>
    by_cases hb : b = 0
    · refine .inr ⟨"'mod' requires non-zero divisor", ?_⟩
      rw [run, opMod, if_pos hb]
    · refine .inl ⟨Int64.ofInt (a.toInt.tmod b.toInt), ?_, ?_⟩
      · rw [run, opMod, if_neg hb]
        exact if_pos h
      · rw [result, if_neg hb, toInt_ofInt_of_inRange (inRange_tmod a hb)]

theorem run_of_not_fits (h : c.fits = false) : c.run true A = .error .overflow := by
  cases c with
  | add args => exact foldNumbers_of_not_fits (sumFold A) _ 0 h
  | mul args => exact foldNumbers_of_not_fits (productFold A) _ 1 h
  | sub a b =>
    rw [run, opSub, checkedInt_of_not_inRange h]
    rfl
  | minus a =>
    rw [run, opMinus, checkedInt_of_not_inRange h]
    rfl
  | abs a =>
    rw [run, opAbs, checkedInt_of_not_inRange h]
    rfl
  | mod a b =>
    have hb : b ≠ 0 := by
      rintro rfl
      simp [fits, inRange] at h
    rw [fits] at h
    rw [run, opMod, if_neg hb, h]
    rfl

end IntCall

/-- **Arithmetic on integers is exact when every intermediate value fits**, and only then: otherwise
a build with overflow checks stops. -/
theorem intCall_exact_iff (A : FloatArith X) (c : IntCall) : c.Exact A ↔ c.fits = true := by
  constructor
  · intro hexact
    by_contra hfits
    rw [Bool.not_eq_true] at hfits
    rcases hexact true with ⟨i, hi, -⟩ | ⟨msg, hmsg⟩
    · rw [IntCall.run_of_not_fits hfits] at hi
      cases hi
    · rw [IntCall.run_of_not_fits hfits] at hmsg
      cases hmsg
  · exact IntCall.exact_of_fits

theorem run_add_maxValue (A : FloatArith Unit) :
    (IntCall.add [Int64.maxValue, 1]).run true A = .error .overflow ∧
      (IntCall.add [Int64.maxValue, 1]).run false A = .ok (.num (.int Int64.minValue)) := by
  refine ⟨IntCall.run_of_not_fits (by decide), ?_⟩
  have hwrap : checkedInt false (Int64.maxValue.toInt + (1 : Int64).toInt) = .ok Int64.minValue := rfl
  have hfirst : checkedInt false ((0 : Int64).toInt + Int64.maxValue.toInt) = .ok Int64.maxValue := rfl
  rw [IntCall.run, opAdd, map_cons, map_cons, map_nil, foldNumbers,
    show (sumFold A).intOp (sumFold A).intUnit.toInt Int64.maxValue.toInt =
      (0 : Int64).toInt + Int64.maxValue.toInt from rfl, hfirst]
  dsimp only
  rw [foldNumbers, show (sumFold A).intOp Int64.maxValue.toInt (1 : Int64).toInt =
    Int64.maxValue.toInt + (1 : Int64).toInt from rfl, hwrap]
  dsimp only
  rw [foldNumbers, show (sumFold A).floatUnit.feq (sumFold A).floatUnit =
    true from IntCall.feq_zero, if_pos rfl]

def zeroArith : FloatArith Unit where
  add _ _ := F64.ofMag false 0
  sub _ _ := F64.ofMag false 0
  mul _ _ := F64.ofMag false 0
  rem _ _ := F64.ofMag false 0
  neg _ := F64.ofMag false 0
  abs _ := F64.ofMag false 0
  addVecs _ := .ok .null
  mulVecs _ := .ok .null
  subVecs _ _ := .ok .null
  negVec := id
  absVec := id

/-- The greatest integer and one more: one build stops, the other wraps around. -/
theorem add_overflows : (IntCall.add [Int64.maxValue, 1]).run true zeroArith = .error .overflow ∧
      (IntCall.add [Int64.maxValue, 1]).run false zeroArith = .ok (.num (.int Int64.minValue)) :=
  run_add_maxValue zeroArith

end Retia
