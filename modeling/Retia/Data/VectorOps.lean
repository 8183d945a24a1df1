import Mathlib.Data.List.Basic
import Retia.Lib.Except
import Retia.Data.Functions
import Retia.Data.Coerce

/-!
# Arithmetic with vectors

`data/functions.rs`: `add` and `mul` when one of the arguments is a vector. They take any number of
arguments, vectors or numbers in any order, and are written as a recursion on all arguments but the
last (`add_vecs`, `mul_vecs`). The two functions differ only in the operation on elements, except at
one place: the recursive call of `mul_vecs` is to `add_vecs`. So `mul` multiplies the *sum* of all
arguments but the last with the last; and since `add_vecs` expects a vector among its arguments, a
product like `mul(2, 3, v)` fails.

The arithmetic of elements is a parameter.

* `mul_folds_iff` — products of `n` arguments are folds of products of two exactly for `n = 2`.
-/

namespace Retia

open List

/-! ### The operators -/

/-- An operation on the elements of vectors, of both types. -/
structure ElementOp where
  op32 : F32 → F32 → F32
  op64 : F64 → F64 → F64

/-- The arithmetic of elements that is not the one of numbers. -/
structure VecArith where
  add32 : F32 → F32 → F32
  mul32 : F32 → F32 → F32
  /-- `f as f32`. -/
  narrow : F64 → F32
  /-- `f as f64`. -/
  widen : F32 → F64

namespace Vector

def zip (E : VecArith) (o : ElementOp) : Vector → Vector → Vector
  | f32 a, f32 b => f32 (a.zipWith o.op32 b)
  | f64 a, f64 b => f64 (a.zipWith o.op64 b)
  | f32 a, f64 b => f64 ((a.map E.widen).zipWith o.op64 b)
  | f64 a, f32 b => f64 (a.zipWith o.op64 (b.map E.widen))

def withNumber (E : VecArith) (o : ElementOp) (f : F64) : Vector → Vector
  | f32 v => f32 (v.map fun x => o.op32 x (E.narrow f))
  | f64 v => f64 (v.map fun x => o.op64 x f)

end Vector

section Operators

variable (checks : Bool) (A : FloatArith Vector) (E : VecArith)

/-- The last step of `add_vecs` and of `mul_vecs`. -/
def combine (o : ElementOp) : Value → Value → Except OpError Value
  | .vec a, .vec b =>
    if a.len ≠ b.len then .error (.bail "can only add vectors of the same length")
      else .ok (.vec (a.zip E o b))
  | .vec a, b =>
    match b.getFloat with
    | some f => .ok (.vec (a.withNumber E o f))
    | none => .error (.bail "can only add numbers to vectors")
  | a, .vec b =>
    match a.getFloat with
    | some f => .ok (.vec (b.withNumber E o f))
    | none => .error (.bail "can only add numbers to vectors")
  | _, _ => .error (.bail "addition requires numbers")

def addElements : ElementOp := ⟨E.add32, A.add⟩

def mulElements : ElementOp := ⟨E.mul32, A.mul⟩

/-- `add_vecs`, on the reversed list of arguments. -/
def addVecsRev : List Value → Except OpError Value
  | [] => .error (.panic .unreachable)
  | [arg] => .ok arg
  | last :: first => do combine E (addElements A E) (← addVecsRev first) last

def addVecs (args : List Value) : Except OpError Value := addVecsRev A E args.reverse

/-- `mul_vecs`, on the reversed list of arguments. It calls `add_vecs`. -/
def mulVecsRev : List Value → Except OpError Value
  | [] => .error (.panic .unreachable)
  | [arg] => .ok arg
  | last :: first => do combine E (mulElements A E) (← addVecsRev A E first) last

def mulVecs (args : List Value) : Except OpError Value := mulVecsRev A E args.reverse

def withVecs : FloatArith Vector := { A with addVecs := addVecs A E, mulVecs := mulVecs A E }

/-- `op_mul`, with the arithmetic of vectors. -/
def opMulVec (args : List Value) : Except OpError Value := opMul checks (withVecs A E) args

end Operators

/-! ### What products are for -/

def Vector.SameShape : Vector → Vector → Prop
  | f32 a, f32 b => a.length = b.length
  | f64 a, f64 b => a.length = b.length
  | _, _ => False

structure Uniform (args : List Value) : Prop where
  number_or_vec : ∀ a ∈ args, (∃ n, a = .num n) ∨ ∃ v, a = .vec v
  same_shape : ∀ v w, .vec v ∈ args → .vec w ∈ args → v.SameShape w
  has_vec : ∃ v, .vec v ∈ args

/-- **Products are folds**: the last argument times the product of the others. -/
def MulFolds (checks : Bool) (A : FloatArith Vector) (E : VecArith) (args : List Value) : Prop :=
  ∀ first last, args = first ++ [last] →
    opMulVec checks A E args = (opMulVec checks A E first >>= fun product =>
      opMulVec checks A E [product, last])

section Products

variable {checks : Bool} {A : FloatArith Vector} {E : VecArith}

/-! ### Two arguments -/

theorem eq_one_of_feq {f : F64} (h : f.feq (F64.ofInt64 1) = true) : f = F64.ofInt64 1 := by
  have hsign : (F64.ofInt64 1).sign = false := rfl
  have hmag : (F64.ofInt64 1).mag ≠ 0 := by decide
  simp only [F64.feq, Bool.and_eq_true, decide_eq_true_eq, F64.numKey, hsign] at h
  obtain ⟨-, h⟩ := h
  cases hf : f.sign with
  | false =>
    refine F64.ext_sign_mag (hf.trans hsign.symm) ?_
    simp only [hf, Bool.false_eq_true, if_false] at h
    exact_mod_cast h
  | true =>
    simp only [hf, Bool.false_eq_true, if_true, if_false] at h
    omega

theorem opMulVec_singleton_vec (v : Vector) : opMulVec checks A E [.vec v] = .ok (.vec v) := rfl

theorem checkedInt_one_mul (i : Int64) :
    checkedInt checks ((1 : Int64).toInt * i.toInt) = .ok i := by
  have hone : (1 : Int64).toInt * i.toInt = i.toInt := by
    show 1 * i.toInt = i.toInt
    rw [one_mul]
  rw [hone, checkedInt_of_inRange (inRange_toInt i), Int64.ofInt_toInt]

theorem foldNumbers_int_one (i : Int64) (args rest : List Value) (f : F64) :
    foldNumbers checks (productFold (withVecs A E)) args (.num (.int i) :: rest) 1 f =
    foldNumbers checks (productFold (withVecs A E)) args rest i f := by
  have hop : (productFold (withVecs A E)).intOp (1 : Int64).toInt i.toInt =
    (1 : Int64).toInt * i.toInt := rfl
  rw [foldNumbers, hop, checkedInt_one_mul]

theorem opMulVec_singleton_int (i : Int64) :
    opMulVec checks A E [.num (.int i)] = .ok (.num (.int i)) := by
  have hunit : (F64.ofInt64 1).feq (F64.ofInt64 1) = true := by decide
  refine (foldNumbers_int_one i _ [] _).trans ?_
  show (if (F64.ofInt64 1).feq (F64.ofInt64 1) = true then _ else _) = _
  rw [if_pos hunit]

theorem opMulVec_singleton_float (hone : ∀ f, A.mul (F64.ofInt64 1) f = f) (f : F64) :
    opMulVec checks A E [.num (.float f)] =
      if f.feq (F64.ofInt64 1) then .ok (.num (.int 1)) else .ok (.num (.float f)) := by
  show (if (A.mul (F64.ofInt64 1) f).feq (F64.ofInt64 1) = true then _ else
    Except.ok (DataValue.num (.float (A.mul (F64.ofInt64 1) (A.mul (F64.ofInt64 1) f))))) = _
  rw [hone, hone]
  rfl

theorem opMulVec_int_vec (i : Int64) (v : Vector) : opMulVec checks A E [.num (.int i), .vec v] =
    .ok (.vec (v.withNumber E (mulElements A E) (F64.ofInt64 i))) := by
  exact foldNumbers_int_one i _ [.vec v] _

theorem opMulVec_float_vec (f : F64) (v : Vector) : opMulVec checks A E [.num (.float f), .vec v] =
    .ok (.vec (v.withNumber E (mulElements A E) f)) := rfl

theorem mulFolds_two (hone : ∀ f, A.mul (F64.ofInt64 1) f = f) {args : List Value}
    (hlength : args.length = 2) (huniform : Uniform args) : MulFolds checks A E args := by
  intro first last hargs
  have hfirst : first.length = 1 := by
    have := congrArg List.length hargs
    simp only [length_append, length_singleton] at this
    omega
  obtain ⟨arg, rfl⟩ := length_eq_one_iff.1 hfirst
  rw [hargs] at huniform ⊢
  rcases huniform.number_or_vec arg (by simp) with ⟨n, rfl⟩ | ⟨v, rfl⟩
  · -- then the last argument is a vector
    obtain ⟨v, hv⟩ := huniform.has_vec
    obtain rfl : last = .vec v := by simpa [eq_comm] using hv
    cases n with
    | int i =>
      rw [opMulVec_singleton_int]
      rfl
    | float f =>
      rw [opMulVec_singleton_float hone]
      by_cases hf : f.feq (F64.ofInt64 1) = true
      · have hok : ∀ g : Value → Except OpError Value,
            (Except.ok (DataValue.num (.int 1)) >>= g) = g (.num (.int 1)) := fun _ => rfl
        rw [if_pos hf, hok, singleton_append, opMulVec_float_vec, opMulVec_int_vec, eq_one_of_feq hf]
      · rw [if_neg hf]
        rfl
  · rw [opMulVec_singleton_vec]
    rfl

/-! ### More arguments -/

theorem addVecsRev_ones (n : Nat) : addVecsRev A E (List.replicate (n + 2) (.num (.int 1))) =
    .error (.bail "addition requires numbers") := by
  induction n with
  | zero => rfl
  | succ n ih =>
    rw [replicate_succ, replicate_succ, addVecsRev, ← replicate_succ, ih]
    · rfl
    · simp

theorem foldNumbers_ones (n : Nat) (args rest : List Value) :
    foldNumbers checks (productFold (withVecs A E)) args
    (List.replicate n (.num (.int 1)) ++ rest) 1 (F64.ofInt64 1) =
      foldNumbers checks (productFold (withVecs A E)) args rest 1 (F64.ofInt64 1) := by
  induction n with
  | zero => rfl
  | succ n ih =>
    rw [replicate_succ, cons_append, foldNumbers_int_one, ih]

/-- `mul(1, 1, …, v)` fails, although `mul(mul(1, 1, …), v)` does not. -/
theorem not_mulFolds_ones (n : Nat) (v : Vector) :
    ¬ MulFolds checks A E (List.replicate (n + 2) (.num (.int 1)) ++ [.vec v]) := by
  intro hfolds
  have h := hfolds _ _ rfl
  have hleft : opMulVec checks A E (List.replicate (n + 2) (.num (.int 1)) ++ [.vec v]) =
      .error (.bail "addition requires numbers") := by
    rw [opMulVec, opMul]
    show foldNumbers checks (productFold (withVecs A E)) _ _ 1 (F64.ofInt64 1) = _
    rw [foldNumbers_ones]
    show mulVecs A E (List.replicate (n + 2) (.num (.int 1)) ++ [.vec v]) = _
    rw [mulVecs, reverse_append, reverse_replicate, reverse_singleton,
      singleton_append, mulVecsRev, addVecsRev_ones]
    · rfl
    · simp
  have hright : opMulVec checks A E (List.replicate (n + 2) (.num (.int 1))) = .ok (.num (.int 1)) := by
    have hunit : (F64.ofInt64 1).feq (F64.ofInt64 1) = true := by decide
    rw [opMulVec, opMul, ← append_nil (List.replicate (n + 2) (DataValue.num (.int 1)))]
    show foldNumbers checks (productFold (withVecs A E)) _ _ 1 (F64.ofInt64 1) = _
    rw [foldNumbers_ones]
    show (if (F64.ofInt64 1).feq (F64.ofInt64 1) = true then _ else _) = _
    rw [if_pos hunit]
  have hok : ∀ g : Value → Except OpError Value,
      (Except.ok (DataValue.num (.int 1)) >>= g) = g (.num (.int 1)) := fun _ => rfl
  rw [hleft, hright, hok, opMulVec_int_vec] at h
  cases h

theorem uniform_ones (n : Nat) (v : Vector) :
    Uniform (List.replicate n (.num (.int 1)) ++ [.vec v]) where
  number_or_vec a ha := by
    rcases mem_append.1 ha with h | h
    · exact .inl ⟨_, eq_of_mem_replicate h⟩
    · exact .inr ⟨v, mem_singleton.1 h⟩
  same_shape u w hu hw := by
    have hmem : ∀ {x : Vector}, .vec x ∈ List.replicate n (DataValue.num (.int 1)) ++ [.vec v] →
      x = v := by
      intro x hx
      rcases mem_append.1 hx with h | h
      · cases eq_of_mem_replicate h
      · cases mem_singleton.1 h
        rfl
    rw [hmem hu, hmem hw]
    cases v <;> rfl
  has_vec := ⟨v, by simp⟩

/-- **Products with vectors.** Whatever the arithmetic of elements, products of `n` numbers and
vectors of one shape are folds of products of two exactly if `n` is two. Of the arithmetic of
numbers only `1.0 * f = f` is used. -/
theorem mul_folds_iff (checks : Bool) (A : FloatArith Vector) (E : VecArith)
    (hone : ∀ f, A.mul (F64.ofInt64 1) f = f) (n : Nat) (hn : 2 ≤ n) :
    (∀ args : List Value, args.length = n → Uniform args → MulFolds checks A E args) ↔ n = 2 := by
  constructor
  · intro h
    by_contra hne
    obtain ⟨m, rfl⟩ : ∃ m, n = m + 2 + 1 := ⟨n - 3, by omega⟩
    exact not_mulFolds_ones m (.f32 []) (h _ (by simp) (uniform_ones (m + 2) (.f32 [])))
  · rintro rfl args hlength huniform
    exact mulFolds_two hone hlength huniform

end Products

/-- Numbers whose product is the second factor; nothing else is used. -/
def secondArith : FloatArith Vector where
  add a _ := a
  sub a _ := a
  mul _ b := b
  rem a _ := a
  neg a := a
  abs a := a
  addVecs _ := .error (.bail "")
  mulVecs _ := .error (.bail "")
  subVecs a _ := .ok a
  negVec v := v
  absVec v := v

def patternArith : VecArith where
  add32 a b := ⟨a.bits + b.bits⟩
  mul32 a b := ⟨a.bits * b.bits⟩
  narrow _ := ⟨0⟩
  widen _ := ⟨0⟩

theorem mul_folds_pair :
    MulFolds true secondArith patternArith [.vec (.f32 [⟨2⟩]), .vec (.f32 [⟨3⟩])] := by
  refine (mul_folds_iff true secondArith patternArith (fun _ => rfl) 2 le_rfl).2 rfl _ rfl
    ⟨?_, ?_, ⟨.f32 [⟨2⟩], by simp⟩⟩
  · intro a ha
    rcases mem_pair.1 ha with rfl | rfl
    · exact .inr ⟨_, rfl⟩
    · exact .inr ⟨_, rfl⟩
  · intro v w hv hw
    simp only [mem_cons, DataValue.vec.injEq, not_mem_nil, or_false] at hv hw
    rcases hv with rfl | rfl <;> rcases hw with rfl | rfl <;> rfl

/-- Three vectors: `mul([2], [3], [5])` is `[25]`, but `mul(mul([2], [3]), [5])` is `[30]`. -/
theorem mul_three_vectors :
    opMulVec true secondArith patternArith
        [.vec (.f32 [⟨2⟩]), .vec (.f32 [⟨3⟩]), .vec (.f32 [⟨5⟩])] = .ok (.vec (.f32 [⟨25⟩])) ∧
      (opMulVec true secondArith patternArith [.vec (.f32 [⟨2⟩]), .vec (.f32 [⟨3⟩])] >>= fun product =>
        opMulVec true secondArith patternArith [product, .vec (.f32 [⟨5⟩])]) =
          .ok (.vec (.f32 [⟨30⟩])) :=
  ⟨rfl, rfl⟩

end Retia
