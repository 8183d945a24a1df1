import Mathlib
import Retia.Query.Compile
import Retia.Query.Produces

/-!
# The bounds of filters

`compute_bounds` of `data/expr.rs` reads off the filters of a scan in which range each column can
be, so that the scan can begin and end there. The comparisons themselves are those of
`data/functions.rs`: an integer and a float are compared as IEEE floats, everything else in the
order of the values.

The two do not fit together everywhere. A lower bound is turned into an integer where that is
possible, and an upper bound into a float; the order of the values knows two zeros and every
integer, the comparisons do not. What is left is the table `BoundSide.exact`: at a constant and a
value outside of it the comparison can hold although the bound excludes the value.

* `Expr.boundOf` — the constant a filter compares a column with, and from which side;
* `contains_iff_exact` — a value for which the comparison holds is within the bound if and only if
  the table allows it;
* `contains_columnBound_iff` — the same for the meet of the bounds of several filters. A meet of
  contradictory bounds is empty but for `Bot`, which no bound excludes;
* `computeBounds_within_iff` — for the columns of a row that passes the filters, and for the scan
  that uses the bounds.
-/

namespace Retia

open List DataValue

open Std (TransOrd LawfulEqOrd)

variable {X : Type} [Ord X]

/-! ### The comparisons -/

/-- `ensure_same_value_type`. The two values that the message ends with are left out. -/
def ensureSameValueType : DataValue X → DataValue X → Except String Unit
  | .null, .null | .bool _, .bool _ | .num _, .num _ | .str _, .str _ | .bytes _, .bytes _
  | .regex _, .regex _ | .list _, .list _ | .set _, .set _ | .bot, .bot => .ok ()
  | _, _ => .error "comparison can only be done between the same datatypes"

/-- A comparison: an integer and a float as floats, everything else in the order of the values. -/
def comparedBy (float : F64 → F64 → Bool) (order : Ordering → Bool) :
    DataValue X → DataValue X → Bool
  | .num (.float l), .num (.int r) => float l (F64.ofInt64 r)
  | .num (.int l), .num (.float r) => float (F64.ofInt64 l) r
  | a, b => order (cmp a b)

def opCompare (float : F64 → F64 → Bool) (order : Ordering → Bool) :
    List (DataValue X) → Except String (DataValue X)
  | a :: b :: _ => do
    ensureSameValueType a b
    return .bool (comparedBy float order a b)
  | _ => .error "index out of bounds"

def opGt : List (DataValue X) → Except String (DataValue X) :=
  opCompare (fun l r => F64.lt r l) Ordering.isGT
def opGe : List (DataValue X) → Except String (DataValue X) :=
  opCompare (fun l r => F64.le r l) Ordering.isGE
def opLt : List (DataValue X) → Except String (DataValue X) := opCompare F64.lt Ordering.isLT
def opLe : List (DataValue X) → Except String (DataValue X) := opCompare F64.le Ordering.isLE

def opStartsWith : List (DataValue X) → Except String (DataValue X)
  | .str l :: .str r :: _ => .ok (.bool (r.isPrefixOf l))
  | .bytes l :: .bytes r :: _ => .ok (.bool (r.isPrefixOf l))
  | _ :: _ :: _ => .error "'starts_with' requires strings or bytes"
  | _ => .error "index out of bounds"

def OP_GT : Op X := ⟨"OP_GT", 2, false, opGt⟩
def OP_GE : Op X := ⟨"OP_GE", 2, false, opGe⟩
def OP_LT : Op X := ⟨"OP_LT", 2, false, opLt⟩
def OP_LE : Op X := ⟨"OP_LE", 2, false, opLe⟩
def OP_STARTS_WITH : Op X := ⟨"OP_STARTS_WITH", 2, false, opStartsWith⟩

def boundingOps : List (Op X) := [OP_GE, OP_GT, OP_LE, OP_LT, OP_STARTS_WITH]

/-- **The operators are the ones of the table.** Operators are found by their names, and none of
these takes more than two arguments. -/
def Expr.Genuine : Expr X → Prop
  | .apply op args => ∀ o ∈ boundingOps, op.name = o.name → op = o ∧ args.length = 2
  | _ => True

/-- `a <= b` in the sense of the operators. -/
def looselyLE : DataValue X → DataValue X → Bool := comparedBy F64.le Ordering.isLE

/-! ### Where the bounds are exact -/

inductive BoundSide where
  | lower | upper | begins
deriving DecidableEq

namespace BoundSide

/-- The range that is read off a comparison with a constant. -/
def range : BoundSide → DataValue X → Except (EvalError X) (ValueRange X)
  | .lower, c => .ok (.lowerBound (intOr c))
  | .upper, c => .ok (.upperBound (floatOr c))
  | .begins, .str s => .ok ⟨.str s, .str (s ++ largestUtfChar)⟩
  | .begins, c => .error (.strRangeScan c)

/-- **Where a bound is exact**, by the constant and the value of the column. Elsewhere the
comparison can hold for a value that the bound excludes. -/
def exact : BoundSide → DataValue X → DataValue X → Bool
  -- the negative zero is not less than the integer zero, but comes before it
  | .lower, .num (.int i), .num (.float g) => !(i == 0 && g == F64.negZero)
  -- an integer can be less than the float it is rounded to
  | .lower, .num (.float f), .num (.int j) => !f.isIntegral || f.toInt64 ≤ j
  -- as an integer the constant has no sign at zero and is at least the smallest one
  | .lower, .num (.float f), .num (.float g) =>
    !f.isIntegral || !(f == F64.negZero && g == F64.negZero || F64.lt g (F64.ofInt64 Int64.minValue))
  | .upper, .num (.float f), .num (.int j) => !(j == 0 && f == F64.negZero)
  -- what follows the beginning can be more than one largest character
  | .begins, .str s, .str v => (compare (v.drop s.length) largestUtfChar).isLE
  | _, _, _ => true

def Holds : BoundSide → DataValue X → DataValue X → Prop
  | .lower, c, v => c.variant = v.variant ∧ looselyLE c v = true
  | .upper, c, v => c.variant = v.variant ∧ looselyLE v c = true
  | .begins, c, v => opStartsWith [v, c] = .ok (.bool true)

end BoundSide

open BoundSide

def ValueRange.Contains (r : ValueRange X) (v : DataValue X) : Prop :=
  (cmp r.lower v).isLE ∧ (cmp v r.upper).isLE

open ValueRange

/-! ### Numbers -/

namespace Num

theorem isLE_cmp_int_float {i : Int64} {g : F64} : (cmp (.int i) (.float g)).isLE ↔
    (F64.ofInt64 i).totalKey ≤ g.totalKey := by
  rw [cmp, F64.totalCmp]
  rcases lt_trichotomy (F64.ofInt64 i).totalKey g.totalKey with h | h | h
  · rw [Std.compare_eq_lt.2 h]
    exact ⟨fun _ => h.le, fun _ => rfl⟩
  · rw [compare_eq_iff_eq.2 h]
    exact ⟨fun _ => h.le, fun _ => rfl⟩
  · rw [Std.compare_eq_gt.2 h]
    exact ⟨fun h' => absurd h' (by decide), fun h' => absurd h' (not_le.2 h)⟩

theorem isLE_cmp_float_int {f : F64} {j : Int64} : (cmp (.float f) (.int j)).isLE ↔
    f.totalKey < (F64.ofInt64 j).totalKey := by
  rw [cmp, F64.totalCmp]
  rcases lt_trichotomy f.totalKey (F64.ofInt64 j).totalKey with h | h | h
  · rw [Std.compare_eq_lt.2 h]
    exact ⟨fun _ => h, fun _ => rfl⟩
  · rw [compare_eq_iff_eq.2 h]
    exact ⟨fun h' => absurd h' (by decide), fun h' => absurd h' h.not_lt⟩
  · rw [Std.compare_eq_gt.2 h]
    exact ⟨fun h' => absurd h' (by decide), fun h' => absurd h' h.le.not_gt⟩

theorem isLE_cmp_float_float {f g : F64} : (cmp (.float f) (.float g)).isLE ↔
    f.totalKey ≤ g.totalKey := by
  rw [cmp, F64.totalCmp, Std.isLE_compare]

theorem isLE_cmp_int_int {i j : Int64} : (cmp (.int i) (.int j)).isLE ↔ i ≤ j := by
  rw [cmp, Std.isLE_compare]

end Num

/-! ### Values within a bound -/

theorem isLE_null_cmp (v : DataValue X) : (cmp .null v).isLE := by
  cases v <;> rfl

theorem isLE_cmp_bot (v : DataValue X) : (cmp v .bot).isLE := by
  cases v <;> rfl

variable {v c : DataValue X}

theorem looselyLE_eq (hc : c.variant ≠ 2) : looselyLE c v = (cmp c v).isLE := by
  cases c with
  | num m => exact absurd rfl hc
  | _ => rfl

theorem cmp_num (m n : Num) : DataValue.cmp (.num m : DataValue X) (.num n) = Num.cmp m n := by
  rw [DataValue.cmp]
  rfl

variable {side : BoundSide}

omit [Ord X] in
theorem exact_of_ne_num (hside : side ≠ .begins) (h : ∀ n, c ≠ .num n) : side.exact c v = true := by
  cases side with
  | begins => exact absurd rfl hside
  | lower | upper => cases c <;> first | rfl | exact absurd rfl (h _)

theorem contains_lower_num {m n : Num} (h : looselyLE (.num m : DataValue X) (.num n) = true) :
    (DataValue.cmp (intOr (.num m : DataValue X)) (.num n)).isLE ↔
    lower.exact (.num m : DataValue X) (.num n) = true := by
  cases m with
  | int i =>
    have hint : intOr (.num (.int i) : DataValue X) = .num (.int i) := rfl
    rw [hint, cmp_num]
    cases n with
    | int j =>
      rw [looselyLE, comparedBy, cmp_num] at h
      · exact ⟨fun _ => rfl, fun _ => h⟩
      · exact fun _ _ h => by cases h
      · exact fun _ _ _ h => by cases h
    | float g =>
      rw [looselyLE, comparedBy] at h
      rw [Num.isLE_cmp_int_float, F64.totalKey_le_iff h, F64.ofInt64_eq_zero, exact]
      simp [imp_iff_not_or]
  | float f =>
    by_cases hf : f.isIntegral = true
    · have hint : intOr (.num (.float f) : DataValue X) = .num (.int f.toInt64) := by
        rw [intOr, DataValue.getInt, Num.getInt, if_pos hf]
        rfl
      rw [hint, cmp_num]
      cases n with
      | int j =>
        rw [Num.isLE_cmp_int_int, exact, hf]
        simp
      | float g =>
        rw [looselyLE, comparedBy, cmp_num, Num.isLE_cmp_float_float] at h
        · rw [Num.isLE_cmp_int_float, F64.totalKey_toInt64_le_iff hf h, exact, hf]
          simp [imp_iff_not_or]
        · exact fun _ _ _ h => by cases h
        · exact fun _ _ h => by cases h
    · have hint : intOr (.num (.float f) : DataValue X) = .num (.float f) := by
        rw [intOr, DataValue.getInt, Num.getInt, if_neg hf]
        rfl
      rw [hint, cmp_num]
      rw [Bool.not_eq_true] at hf
      cases n with
      | int j =>
        rw [looselyLE, comparedBy] at h
        rw [Num.isLE_cmp_float_int, exact, hf]
        refine ⟨fun _ => rfl, fun _ => ?_⟩
        -- an integer is never equal to a float with a fractional part
        refine lt_of_le_of_ne ((F64.totalKey_le_iff h).2 fun hz =>
          F64.ofInt64_ne_negZero j hz.2) fun heq => ?_
        rw [F64.totalKey_injective heq, F64.isIntegral_ofInt64] at hf
        cases hf
      | float g =>
        rw [looselyLE, comparedBy, cmp_num] at h
        · rw [exact, hf]
          exact ⟨fun _ => rfl, fun _ => h⟩
        · exact fun _ _ _ h => by cases h
        · exact fun _ _ h => by cases h

theorem contains_upper_num {m n : Num} (h : looselyLE (.num n : DataValue X) (.num m) = true) :
    (cmp (.num n) (floatOr (.num m : DataValue X))).isLE ↔
    upper.exact (.num m : DataValue X) (.num n) = true := by
  have hfloat : floatOr (.num m : DataValue X) = .num (.float m.getFloat) := rfl
  rw [hfloat, cmp_num]
  cases m with
  | int i =>
    refine ⟨fun _ => by cases n <;> rfl, fun _ => ?_⟩
    rw [Num.getFloat]
    cases n with
    | int j =>
      rw [looselyLE, comparedBy, cmp_num, Num.isLE_cmp_int_int] at h
      · rw [Num.isLE_cmp_int_float]
        exact F64.totalKey_ofInt64_mono (Int64.le_iff_toInt_le.1 h)
      · exact fun _ _ h => by cases h
      · exact fun _ _ _ h => by cases h
    | float g =>
      rw [looselyLE, comparedBy] at h
      rw [Num.isLE_cmp_float_float]
      exact (F64.totalKey_le_iff h).2 fun hz => F64.ofInt64_ne_negZero i hz.2
  | float f =>
    rw [Num.getFloat]
    cases n with
    | int j =>
      rw [looselyLE, comparedBy] at h
      rw [Num.isLE_cmp_int_float, F64.totalKey_le_iff h, F64.ofInt64_eq_zero, exact]
      simp [imp_iff_not_or]
    | float g =>
      rw [looselyLE, comparedBy, cmp_num] at h
      · exact ⟨fun _ => rfl, fun _ => h⟩
      · exact fun _ _ _ h => by cases h
      · exact fun _ _ h => by cases h

theorem contains_begins {s w : Bytes} (h : s.isPrefixOf w = true) :
    (⟨.str s, .str (s ++ largestUtfChar)⟩ : ValueRange X).Contains (.str w) ↔
    begins.exact (.str s : DataValue X) (.str w) = true := by
  obtain ⟨rest, rfl⟩ := isPrefixOf_iff_prefix.1 h
  rw [ValueRange.Contains, DataValue.cmp, DataValue.cmp, exact, drop_left,
    Std.isLE_compare, Std.isLE_compare, Std.isLE_compare]
  have hbegin : s ≤ s ++ rest := by
    have := (append_le_append_iff s).2 (nil_le rest)
    rwa [append_nil] at this
  exact ⟨fun h => (append_le_append_iff s).1 h.2, fun h => ⟨hbegin, (append_le_append_iff s).2 h⟩⟩

/-- **A value for which the comparison holds is within the bound if and only if the bound is exact
there.** -/
theorem contains_iff_exact {r : ValueRange X} (hr : side.range c = .ok r)
    (h : side.Holds c v) : r.Contains v ↔ side.exact c v = true := by
  cases side with
  | lower =>
    cases hr
    obtain ⟨hvariant, hle⟩ := h
    have hcontains : (ValueRange.lowerBound (intOr c)).Contains v ↔ (DataValue.cmp (intOr c) v).isLE :=
      ⟨fun h => h.1, fun h => ⟨h, isLE_cmp_bot v⟩⟩
    rw [hcontains]
    cases c with
    | num m =>
      cases v with
      | num n => exact contains_lower_num hle
      | _ => cases hvariant
    | _ =>
      rw [looselyLE_eq (by rintro ⟨⟩)] at hle
      exact ⟨fun _ => exact_of_ne_num (by decide) fun _ h => (by cases h), fun _ => hle⟩
  | upper =>
    cases hr
    obtain ⟨hvariant, hle⟩ := h
    have hcontains : (ValueRange.upperBound (floatOr c)).Contains v ↔ (DataValue.cmp v (floatOr c)).isLE :=
      ⟨fun h => h.2, fun h => ⟨isLE_null_cmp v, h⟩⟩
    rw [hcontains]
    cases c with
    | num m =>
      cases v with
      | num n => exact contains_upper_num hle
      | _ => cases hvariant
    | _ =>
      rw [looselyLE_eq (hvariant ▸ by rintro ⟨⟩)] at hle
      exact ⟨fun _ => exact_of_ne_num (by decide) fun _ h => (by cases h), fun _ => hle⟩
  | begins =>
    cases c with
    | str s =>
      cases hr
      cases v with
      | str w =>
        rw [Holds, opStartsWith, Except.ok.injEq, DataValue.bool.injEq] at h
        exact contains_begins h
      | _ => cases h
    | _ => cases hr

/-! ### What the operators say -/

omit [Ord X] in
theorem variant_eq_of_ensureSameValueType {a b : DataValue X}
    (h : ensureSameValueType a b = .ok ()) : a.variant = b.variant := by
  cases a <;> cases b <;> first | rfl | cases h

variable {float : F64 → F64 → Bool} {order : Ordering → Bool}

theorem opCompare_eq_true {a b : DataValue X}
    (h : opCompare float order [a, b] = .ok (.bool true)) :
    a.variant = b.variant ∧ comparedBy float order a b = true := by
  rw [opCompare] at h
  obtain ⟨_, hsame, hvalue⟩ := bind_ok.1 h
  refine ⟨variant_eq_of_ensureSameValueType hsame, ?_⟩
  simpa [pure, Except.pure] using hvalue

theorem looselyLE_of_opCompare (hfloat : ∀ l r, float l r = true → F64.le l r = true)
    (horder : ∀ o, order o = true → o.isLE)
    {a b : DataValue X} (h : opCompare float order [a, b] = .ok (.bool true)) :
    a.variant = b.variant ∧ looselyLE a b = true := by
  obtain ⟨hvariant, htrue⟩ := opCompare_eq_true h
  refine ⟨hvariant, ?_⟩
  unfold comparedBy at htrue
  unfold looselyLE comparedBy
  split at htrue
  · exact hfloat _ _ htrue
  · exact hfloat _ _ htrue
  · exact horder _ htrue

theorem looselyLE_of_opCompare_swap [TransOrd X]
    (hfloat : ∀ l r, float l r = true → F64.le r l = true) (horder : ∀ o, order o = true → o.isGE)
    {a b : DataValue X} (h : opCompare float order [a, b] = .ok (.bool true)) :
    a.variant = b.variant ∧ looselyLE b a = true := by
  obtain ⟨hvariant, htrue⟩ := opCompare_eq_true h
  refine ⟨hvariant, ?_⟩
  unfold comparedBy at htrue
  unfold looselyLE comparedBy
  split at htrue
  · exact hfloat _ _ htrue
  · exact hfloat _ _ htrue
  · rename_i h₁ h₂
    split
    · exact absurd rfl (h₂ _ _ rfl)
    · exact absurd rfl (h₁ _ _ rfl)
    · rw [DataValue.cmp_swap, Ordering.isLE_swap]
      exact horder _ htrue

/-! ### The bound of a filter -/

namespace Expr

/-- A variable and the constant that it stands beside. -/
def comparedWith (a b : Expr X) :
    Option (Symbol × DataValue X) := do return (← a.getBinding, ← b.getConst)

/-- The column that a filter bounds, from which side, and the constant. -/
def boundOf : Expr X → Option (Symbol × BoundSide × DataValue X)
  | .apply op [a, b] =>
    let bound (left right : BoundSide) : Option (Symbol × BoundSide × DataValue X) :=
      (comparedWith a b).map (fun p => (p.1, left, p.2)) <|> (comparedWith b a).map
        (fun p => (p.1, right, p.2))
    if op.name = "OP_GE" ∨ op.name = "OP_GT" then bound .lower .upper
    else if op.name = "OP_LE" ∨ op.name = "OP_LT" then bound .upper .lower
    else if op.name = "OP_STARTS_WITH" then (comparedWith a b).map fun p => (p.1, .begins, p.2)
    else none
  | _ => none

/-- **The filter's bound on a column is exact** at a value of the column. -/
def exactAt (x : Symbol) (v : DataValue X) (e : Expr X) : Bool :=
  match e.boundOf with
  | some (y, side, c) => y ≠ x || side.exact c v
  | none => true

end Expr

def columnValue (columns : List Symbol) (t : Tuple X) (x : Symbol) : Option (DataValue X) :=
  (positionOf x columns).bind (t[·]?)

variable {f : Symbol → Option Nat}

omit [Ord X] in
theorem Expr.shape_fillBindingIndices {e e' : Expr X} (h : e.fillBindingIndices f = .ok e') :
    e'.getBinding = e.getBinding ∧ e'.getConst = e.getConst := by
  cases e with
  | binding var pos =>
    rw [fillBindingIndices] at h
    split at h <;> cases h
    exact ⟨rfl, rfl⟩
  | const val => cases h; exact ⟨rfl, rfl⟩
  | apply op args =>
    obtain ⟨args', _, hargs⟩ := bind_ok.1 h
    cases hargs
    exact ⟨rfl, rfl⟩
  | cond clauses =>
    obtain ⟨clauses', _, hclauses⟩ := bind_ok.1 h
    cases hclauses
    exact ⟨rfl, rfl⟩
  | unboundApply op args => cases h

omit [Ord X] in
theorem Expr.fillBindingIndicesArgs_pair {a b : Expr X} {args : List (Expr X)}
    (h : fillBindingIndicesArgs f [a, b] = .ok args) :
    ∃ a' b', a.fillBindingIndices f = .ok a' ∧ b.fillBindingIndices f = .ok b' ∧
    args = [a', b'] := by
  rw [fillBindingIndicesArgs] at h
  obtain ⟨a', ha, h⟩ := bind_ok.1 h
  obtain ⟨rest, hrest, hargs⟩ := bind_ok.1 h
  rw [fillBindingIndicesArgs] at hrest
  obtain ⟨b', hb, hrest⟩ := bind_ok.1 hrest
  cases hrest
  cases hargs
  exact ⟨a', b', ha, hb, rfl⟩

omit [Ord X] in
theorem Expr.comparisonBound_pair (x : Symbol) (onLeft onRight : DataValue X → ValueRange X)
    (a b : Expr X) : comparisonBound x onLeft onRight [a, b] =
      match comparedWith a b, comparedWith b a with
      | some (y, c), _ => .ok (if x = y then onLeft c else default)
      | none, some (y, c) => .ok (if x = y then onRight c else default)
      | none, none => .ok default := by
  cases a <;> cases b <;> rfl

omit [Ord X] in
theorem Expr.extractBound_startsWith (x : Symbol) (a b : Expr X) :
    (Expr.apply OP_STARTS_WITH [a, b]).extractBound x =
      match comparedWith a b with
      | some (y, c) => if x = y then BoundSide.begins.range c else .ok ValueRange.default
      | none => .ok ValueRange.default := by
  cases a with
  | binding y pos =>
    cases b with
    | const c =>
      have hc : comparedWith (.binding y pos) (.const c) = some (y, c) := rfl
      by_cases hx : x = y
      · cases c <;> simp [extractBound, OP_STARTS_WITH, hc, hx, BoundSide.range]
      · simp [extractBound, OP_STARTS_WITH, hc, hx]
    | _ => rfl
  | _ => cases b <;> rfl

theorem Expr.extractBound_eq {e e' : Expr X} (hgenuine : e.Genuine)
    (hfill : e.fillBindingIndices f = .ok e') (x : Symbol) : e'.extractBound x =
      match e.boundOf with
      | some (y, side, c) => if x = y then side.range c else .ok ValueRange.default
      | none => .ok ValueRange.default := by
  cases e with
  | binding var pos =>
    rw [fillBindingIndices] at hfill
    split at hfill <;> cases hfill
    rfl
  | const val => cases hfill; rfl
  | cond clauses =>
    obtain ⟨clauses', _, hclauses⟩ := bind_ok.1 hfill
    cases hclauses
    rfl
  | unboundApply op args => cases hfill
  | apply op args =>
    obtain ⟨args', hargs', hargs⟩ := bind_ok.1 hfill
    cases hargs
    by_cases hname : op.name ∈ (boundingOps : List (Op X)).map Op.name
    · obtain ⟨o, ho, hon⟩ := mem_map.1 hname
      obtain ⟨rfl, hlen⟩ := hgenuine o ho hon.symm
      obtain ⟨a, b, rfl⟩ := length_eq_two.1 hlen
      obtain ⟨a', b', ha, hb, rfl⟩ := fillBindingIndicesArgs_pair hargs'
      obtain ⟨hab, hac⟩ := shape_fillBindingIndices ha
      obtain ⟨hbb, hbc⟩ := shape_fillBindingIndices hb
      have hcompared : comparedWith a' b' = comparedWith a b := by
        rw [comparedWith, comparedWith, hab, hbc]
      have hswapped : comparedWith b' a' = comparedWith b a := by rw [comparedWith, comparedWith, hbb, hac]
      simp only [boundingOps, mem_cons, not_mem_nil, or_false] at ho
      rcases ho with rfl | rfl | rfl | rfl | rfl
      case inr.inr.inr.inr =>
        rw [extractBound_startsWith, hcompared]
        simp only [boundOf, OP_STARTS_WITH]
        cases comparedWith a b <;> rfl
      -- the four comparisons
      all_goals
        simp only [extractBound, boundOf, OP_GE, OP_GT, OP_LE, OP_LT,
          comparisonBound_pair, hcompared, hswapped]
        cases comparedWith a b with
        | some p => by_cases hx : x = p.1 <;> simp [BoundSide.range, hx]
        | none =>
          cases comparedWith b a with
          | some p => by_cases hx : x = p.1 <;> simp [BoundSide.range, hx]
          | none => simp
    · simp only [boundingOps, OP_GE, OP_GT, OP_LE, OP_LT, OP_STARTS_WITH,
        map_cons, map_nil, mem_cons, not_mem_nil, or_false, not_or] at hname
      obtain ⟨hge, hgt, hle, hlt, hstarts⟩ := hname
      have hnone : (Expr.apply op args).boundOf = none := by
        unfold boundOf
        split
        · rename_i heq
          cases heq
          simp [hge, hgt, hle, hlt, hstarts]
        · rfl
      rw [hnone]
      unfold extractBound
      simp [hge, hgt, hle, hlt, hstarts]

/-! ### Filters that are true -/

/-- The value of an argument that is a variable or a constant. -/
def operandValue (columns : List Symbol) (t : Tuple X) : Expr X → Option (DataValue X)
  | .binding x _ => columnValue columns t x
  | .const c => some c
  | _ => none

omit [Ord X] in
theorem expr2bytecode_operand {columns : List Symbol} {a a' : Expr X}
    (ha : a.getBinding.isSome ∨ a.getConst.isSome)
    (hfill : a.fillBindingIndices (positionOf · columns) = .ok a') :
    ∃ instruction, (∀ collector, expr2bytecode a' collector = .ok (collector ++ [instruction])) ∧
      ∀ t pointer stack next, Bytecode.step t pointer stack instruction = .ok next →
      ∃ v, operandValue columns t a = some v ∧ next = (pointer + 1, v :: stack) := by
  cases a with
  | binding x pos =>
    rw [Expr.fillBindingIndices] at hfill
    split at hfill
    · rename_i i hpos
      cases hfill
      refine ⟨.binding x (some i), fun _ => rfl, fun t pointer stack next hnext => ?_⟩
      rw [operandValue, columnValue, hpos]
      rw [Bytecode.step] at hnext
      split at hnext
      · rename_i v hv
        cases hnext
        exact ⟨v, hv, rfl⟩
      · cases hnext
    · cases hfill
  | const c =>
    cases hfill
    refine ⟨.const c, fun _ => rfl, fun t pointer stack next hnext => ?_⟩
    cases hnext
    exact ⟨c, rfl, rfl⟩
  | _ => simp [Expr.getBinding, Expr.getConst] at ha

variable {columns : List Symbol} {op : Op X} {code : List (Bytecode X)}

omit [Ord X] in
theorem inner_of_evalBytecodePred {a b e' : Expr X} {t : Tuple X}
    (ha : a.getBinding.isSome ∨ a.getConst.isSome) (hb : b.getBinding.isSome ∨ b.getConst.isSome)
    (hfill : (Expr.apply op [a, b]).fillBindingIndices (positionOf · columns) = .ok e')
    (hcode : e'.compile = .ok code) (htrue : evalBytecodePred code t = .ok true) :
    ∃ v w, operandValue columns t a = some v ∧ operandValue columns t b = some w ∧
    op.inner [v, w] = .ok (.bool true) := by
  obtain ⟨args, hargs, he'⟩ := bind_ok.1 hfill
  cases he'
  obtain ⟨a', b', hfa, hfb, rfl⟩ := Expr.fillBindingIndicesArgs_pair hargs
  obtain ⟨push, hpush, hstep⟩ := expr2bytecode_operand ha hfa
  obtain ⟨push', hpush', hstep'⟩ := expr2bytecode_operand hb hfb
  have hcode' : code = [push, push', .apply op 2] := by
    rw [Expr.compile, expr2bytecode, exprs2bytecode, hpush] at hcode
    simp only [bind, Except.bind, exprs2bytecode, hpush'] at hcode
    cases hcode
    rfl
  subst hcode'
  obtain ⟨r, hr, hpred⟩ := bind_ok.1 htrue
  -- the three instructions, one after the other
  rw [evalBytecode, length_cons, evalBytecodeLoop, if_neg (by simp)] at hr
  simp only [List.getElem?_cons_zero] at hr
  obtain ⟨next, hnext, hr⟩ := bind_ok.1 hr
  obtain ⟨v, hv, rfl⟩ := hstep _ _ _ _ hnext
  rw [length_cons, evalBytecodeLoop, if_neg (by simp)] at hr
  simp only [List.getElem?_cons_succ, List.getElem?_cons_zero, Nat.zero_add] at hr
  obtain ⟨next, hnext, hr⟩ := bind_ok.1 hr
  obtain ⟨w, hw, rfl⟩ := hstep' _ _ _ _ hnext
  rw [length_cons, evalBytecodeLoop, if_neg (by simp)] at hr
  simp only [List.getElem?_cons_succ, List.getElem?_cons_zero] at hr
  obtain ⟨next, hnext, hr⟩ := bind_ok.1 hr
  refine ⟨v, w, hv, hw, ?_⟩
  rw [Bytecode.step, if_neg (by simp), show (take 2 [w, v]).reverse = [v, w] from rfl,
    show drop 2 [w, v] = [] from rfl] at hnext
  cases hop : op.inner [v, w] with
  | error msg => rw [hop] at hnext; cases hnext
  | ok result =>
    rw [hop] at hnext
    cases hnext
    rw [length_nil, evalBytecodeLoop, if_pos (by simp)] at hr
    cases hr
    cases r <;> cases hpred
    rfl

omit [Ord X] in
theorem Expr.comparedWith_eq_some {a b : Expr X} {x : Symbol} (h : comparedWith a b = some (x, c)) :
    (∃ pos, a = .binding x pos) ∧ b = .const c := by
  cases a with
  | binding y pos =>
    cases b with
    | const d => cases h; exact ⟨⟨pos, rfl⟩, rfl⟩
    | _ => cases h
  | _ => cases b <;> cases h

theorem looselyLE_of_ge_gt [TransOrd X] (hop : op = OP_GE ∨ op = OP_GT) {a b : DataValue X}
    (h : op.inner [a, b] = .ok (.bool true)) : a.variant = b.variant ∧ looselyLE b a = true := by
  rcases hop with rfl | rfl
  · exact looselyLE_of_opCompare_swap (fun _ _ h => h) (fun _ h => h) h
  · exact looselyLE_of_opCompare_swap (fun _ _ h => F64.le_of_lt h) (fun o h => by cases o <;> simp_all) h

theorem looselyLE_of_le_lt (hop : op = OP_LE ∨ op = OP_LT) {a b : DataValue X}
    (h : op.inner [a, b] = .ok (.bool true)) : a.variant = b.variant ∧ looselyLE a b = true := by
  rcases hop with rfl | rfl
  · exact looselyLE_of_opCompare (fun _ _ h => h) (fun _ h => h) h
  · exact looselyLE_of_opCompare (fun _ _ h => F64.le_of_lt h) (fun o h => by cases o <;> simp_all) h

omit [Ord X] in
theorem inner_column_const {a b e' : Expr X} {x : Symbol} {t : Tuple X}
    (hab : a.comparedWith b = some (x, c))
    (hfill : (Expr.apply op [a, b]).fillBindingIndices (positionOf · columns) = .ok e')
    (hcode : e'.compile = .ok code) (htrue : evalBytecodePred code t = .ok true) :
    ∃ v, columnValue columns t x = some v ∧ op.inner [v, c] = .ok (.bool true) := by
  obtain ⟨⟨pos, rfl⟩, rfl⟩ := Expr.comparedWith_eq_some hab
  obtain ⟨v, w, hv, hw, hop⟩ := inner_of_evalBytecodePred (.inl rfl) (.inr rfl) hfill hcode htrue
  cases hw
  exact ⟨v, hv, hop⟩

theorem holds_of_comparison {a b e' : Expr X} {t : Tuple X}
    (hfill : (Expr.apply op [a, b]).fillBindingIndices (positionOf · columns) = .ok e')
    (hcode : e'.compile = .ok code) (htrue : evalBytecodePred code t = .ok true)
    {left right : BoundSide} {x : Symbol}
    (hbound : ((a.comparedWith b).map (fun p => (p.1, left, p.2)) <|>
      (b.comparedWith a).map (fun p => (p.1, right, p.2))) = some (x, side, c))
    (hleft : ∀ {v c}, op.inner [v, c] = .ok (.bool true) → left.Holds c v)
    (hright : ∀ {v c}, op.inner [c, v] = .ok (.bool true) → right.Holds c v) :
    ∃ v, columnValue columns t x = some v ∧ side.Holds c v := by
  cases hab : a.comparedWith b with
  | some p =>
    rw [hab] at hbound
    cases hbound
    obtain ⟨v, hv, hinner⟩ := inner_column_const hab hfill hcode htrue
    exact ⟨v, hv, hleft hinner⟩
  | none =>
    cases hba : b.comparedWith a with
    | none => rw [hab, hba] at hbound; cases hbound
    | some p =>
      rw [hab, hba] at hbound
      cases hbound
      obtain ⟨⟨pos, rfl⟩, rfl⟩ := Expr.comparedWith_eq_some hba
      obtain ⟨v, w, hv, hw, hop⟩ := inner_of_evalBytecodePred (.inr rfl) (.inl rfl) hfill hcode htrue
      cases hv
      exact ⟨w, hw, hright hop⟩

/-- **The comparison of a filter that is true holds** for the value of its column. -/
theorem holds_of_evalBytecodePred [TransOrd X] {e e' : Expr X} {t : Tuple X}
    (hgenuine : e.Genuine) (hfill : e.fillBindingIndices (positionOf · columns) = .ok e')
    (hcode : e'.compile = .ok code) (htrue : evalBytecodePred code t = .ok true)
    {x : Symbol} (hbound : e.boundOf = some (x, side, c)) :
    ∃ v, columnValue columns t x = some v ∧ side.Holds c v := by
  unfold Expr.boundOf at hbound
  split at hbound
  case h_2 => cases hbound
  rename_i op a b
  have hgen : ∀ o ∈ boundingOps, op.name = o.name → op = o := fun o ho hname => (hgenuine o ho hname).1
  dsimp only at hbound
  split at hbound
  · rename_i hname
    have hop : op = OP_GE ∨ op = OP_GT :=
      hname.imp (hgen OP_GE (by simp [boundingOps])) (hgen OP_GT (by simp [boundingOps]))
    refine holds_of_comparison hfill hcode htrue hbound (fun h => ?_) fun h => looselyLE_of_ge_gt hop h
    exact (looselyLE_of_ge_gt hop h).imp_left Eq.symm
  split at hbound
  · rename_i hname
    have hop : op = OP_LE ∨ op = OP_LT :=
      hname.imp (hgen OP_LE (by simp [boundingOps])) (hgen OP_LT (by simp [boundingOps]))
    refine holds_of_comparison hfill hcode htrue hbound (fun h => ?_) fun h => looselyLE_of_le_lt hop h
    exact (looselyLE_of_le_lt hop h).imp_left Eq.symm
  split at hbound
  · rename_i hname
    have hop : op = OP_STARTS_WITH := hgen OP_STARTS_WITH (by simp [boundingOps]) hname
    subst hop
    cases hab : a.comparedWith b with
    | none => rw [hab] at hbound; cases hbound
    | some p =>
      rw [hab] at hbound
      cases hbound
      exact inner_column_const hab hfill hcode htrue
  · cases hbound

theorem contains_default (v : DataValue X) : (default : ValueRange X).Contains v :=
  ⟨isLE_null_cmp v, isLE_cmp_bot v⟩

theorem contains_extractBound_iff [TransOrd X] {e e' : Expr X} {t : Tuple X}
    (hgenuine : e.Genuine) (hfill : e.fillBindingIndices (positionOf · columns) = .ok e')
    (hcode : e'.compile = .ok code) (htrue : evalBytecodePred code t = .ok true) {x : Symbol}
    (hv : columnValue columns t x = some v) {r : ValueRange X} (hr : e'.extractBound x = .ok r) :
    r.Contains v ↔ e.exactAt x v = true := by
  rw [Expr.extractBound_eq hgenuine hfill] at hr
  rw [Expr.exactAt]
  cases hbound : e.boundOf with
  | none =>
    rw [hbound] at hr
    cases hr
    exact ⟨fun _ => rfl, fun _ => contains_default v⟩
  | some p =>
    obtain ⟨y, side, c⟩ := p
    rw [hbound] at hr
    dsimp only at hr ⊢
    by_cases hx : x = y
    · subst hx
      rw [if_pos rfl] at hr
      obtain ⟨w, hw, hholds⟩ := holds_of_evalBytecodePred hgenuine hfill hcode htrue hbound
      rw [hv, Option.some.injEq] at hw
      subst hw
      rw [contains_iff_exact hr hholds]
      simp
    · rw [if_neg hx] at hr
      cases hr
      exact ⟨fun _ => by simp [Ne.symm hx], fun _ => contains_default v⟩

/-! ### The meet of the bounds -/

variable {filters filled : List (Expr X)}

section Meet

variable [TransOrd X] [LawfulEqOrd X] {a b : DataValue X}

theorem isLE_trans_value (hab : (cmp a b).isLE) (hbc : (cmp b c).isLE) : (cmp a c).isLE :=
  have hab' : (compare a b).isLE := hab
  have hbc' : (compare b c).isLE := hbc
  show (compare a c).isLE from Std.TransCmp.isLE_trans hab' hbc'

omit [LawfulEqOrd X] in
theorem isLE_of_not_lt (h : (DataValue.cmp a b == .lt) ≠ true) : (DataValue.cmp b a).isLE := by
  rw [DataValue.cmp_swap, Ordering.isLE_swap]
  cases hc : DataValue.cmp a b <;> simp_all

omit [TransOrd X] [LawfulEqOrd X] in
theorem isLE_of_lt (h : (cmp a b == .lt) = true) : (cmp a b).isLE := by
  cases hc : cmp a b <;> simp_all

namespace ValueRange

def meetLower (r s : ValueRange X) : DataValue X :=
  if cmp s.lower r.lower == .lt then r.lower else s.lower

def meetUpper (r s : ValueRange X) : DataValue X :=
  if cmp s.upper r.upper == .lt then s.upper else r.upper

omit [TransOrd X] [LawfulEqOrd X] in
theorem merge_eq (r s : ValueRange X) : r.merge s =
    if cmp (r.meetLower s) (r.meetUpper s) == .gt then null else ⟨r.meetLower s, r.meetUpper s⟩ :=
  rfl

variable {r s : ValueRange X}

theorem isLE_meetLower_iff : (cmp (r.meetLower s) v).isLE ↔ (cmp r.lower v).isLE ∧
    (cmp s.lower v).isLE := by
  rw [meetLower]
  split
  · rename_i hlt
    exact ⟨fun h => ⟨h, isLE_trans_value (isLE_of_lt hlt) h⟩, And.left⟩
  · rename_i hlt
    exact ⟨fun h => ⟨isLE_trans_value (isLE_of_not_lt hlt) h, h⟩, And.right⟩

theorem isLE_meetUpper_iff : (cmp v (r.meetUpper s)).isLE ↔ (cmp v r.upper).isLE ∧
    (cmp v s.upper).isLE := by
  rw [meetUpper]
  split
  · rename_i hlt
    exact ⟨fun h => ⟨isLE_trans_value h (isLE_of_lt hlt), h⟩, And.right⟩
  · rename_i hlt
    exact ⟨fun h => ⟨h, isLE_trans_value h (isLE_of_not_lt hlt)⟩, And.left⟩

theorem contains_merge (hr : r.Contains v) (hs : s.Contains v) : (r.merge s).Contains v := by
  have hlower := isLE_meetLower_iff.2 ⟨hr.1, hs.1⟩
  have hupper := isLE_meetUpper_iff.2 ⟨hr.2, hs.2⟩
  rw [merge_eq]
  split
  · -- the value lies between the two ends, so they are not crossed
    rename_i hgt
    have hle := isLE_trans_value hlower hupper
    rw [beq_iff_eq] at hgt
    rw [hgt] at hle
    cases hle
  · exact ⟨hlower, hupper⟩

theorem contains_of_merge (hv : v ≠ .bot) (h : (r.merge s).Contains v) :
    r.Contains v ∧ s.Contains v := by
  rw [merge_eq] at h
  split at h
  · -- only `Bot` is in the empty range
    have hbot : DataValue.cmp v .bot = .eq := by
      have hle := h.1
      change (DataValue.cmp .bot v).isLE at hle
      rw [DataValue.cmp_swap, Ordering.isLE_swap] at hle
      have hle' := isLE_cmp_bot v
      cases hc : DataValue.cmp v .bot <;> simp_all
    exact absurd (DataValue.eq_of_cmp _ _ hbot) hv
  · obtain ⟨hlower, hupper⟩ := h
    have hlowers := isLE_meetLower_iff.1 hlower
    have huppers := isLE_meetUpper_iff.1 hupper
    exact ⟨⟨hlowers.1, huppers.1⟩, ⟨hlowers.2, huppers.2⟩⟩

end ValueRange

omit [Ord X] [TransOrd X] [LawfulEqOrd X] in
theorem Expr.exactAt_bot (x : Symbol) (e : Expr X) : e.exactAt x .bot = true := by
  rw [exactAt]
  split
  · rename_i y side c _
    have : side.exact c .bot = true := by
      cases side with
      | begins => cases c <;> rfl
      | _ =>
        cases c with
        | num n => cases n <;> rfl
        | _ => rfl
    rw [this, Bool.or_true]
  · rfl

/-- **The bound of a column**, as the meet of the bounds of the filters. The induction is over the
filters, with the range so far. -/
theorem contains_columnBound_iff {x : Symbol}
    (h : List.Forall₂ (fun e e' => ∀ s, Expr.extractBound x e' = .ok s →
      (s.Contains v ↔ Expr.exactAt x v e = true)) filters filled)
    {r : ValueRange X} (hr : columnBound filled x = .ok r) :
    r.Contains v ↔ ∀ e ∈ filters, e.exactAt x v = true := by
  have hloop : ∀ acc : ValueRange X, filled.foldlM (fun bound filter => do
      return bound.merge (← filter.extractBound x)) acc = .ok r →
      (acc.Contains v → (∀ e ∈ filters, e.exactAt x v = true) → r.Contains v) ∧
      (v ≠ .bot → r.Contains v → acc.Contains v ∧ ∀ e ∈ filters, e.exactAt x v = true) := by
    clear hr
    induction h with
    | nil =>
      intro acc hacc
      cases hacc
      exact ⟨fun h _ => h, fun _ h => ⟨h, fun _ h => by cases h⟩⟩
    | cons he hes ih =>
      intro acc hacc
      rw [foldlM_cons] at hacc
      obtain ⟨next, hnext, hacc⟩ := bind_ok.1 hacc
      obtain ⟨s, hs, hnext⟩ := bind_ok.1 hnext
      cases hnext
      obtain ⟨hto, hfrom⟩ := ih _ hacc
      constructor
      · intro hc hall
        rw [forall_mem_cons] at hall
        exact hto (contains_merge hc ((he s hs).2 hall.1)) hall.2
      · intro hv hc
        obtain ⟨hmerge, hall⟩ := hfrom hv hc
        obtain ⟨hacc, hcs⟩ := contains_of_merge hv hmerge
        exact ⟨hacc, forall_mem_cons.2 ⟨(he s hs).1 hcs, hall⟩⟩
  obtain ⟨hto, hfrom⟩ := hloop _ hr
  refine ⟨fun hc => ?_, hto (contains_default v)⟩
  by_cases hv : v = .bot
  · subst hv
    exact fun e _ => e.exactAt_bot x
  · exact (hfrom hv hc).2

end Meet

/-! ### Rows within the bounds -/

variable {codes : List (List (Bytecode X))}

section Scans

/-- **The columns of a row lie within the bounds.** -/
def WithinBounds (columns symbols : List Symbol) (lowers uppers t : Tuple X) : Prop :=
  ∀ (i : Nat) x v, symbols[i]? = some x → columnValue columns t x = some v →
    ∃ l u, lowers[i]? = some l ∧ uppers[i]? = some u ∧ (cmp l v).isLE ∧ (cmp v u).isLE

/-- **The bounds of all filters are exact** at the columns of a row. -/
def exactFor (columns symbols : List Symbol) (filters : List (Expr X)) (t : Tuple X) : Bool :=
  symbols.all fun x =>
    match columnValue columns t x with
    | some v => filters.all (·.exactAt x v)
    | none => true

/-- The scan of the keys between two bounds, after the columns `pre`. -/
def boundedScan (keyLen : Nat) (rows : List (Tuple X)) (pre lower upper : Tuple X) :
    List (Tuple X) :=
  rows.filter fun t => (compare (pre ++ lower) (t.take keyLen)).isLE &&
    compare (t.take keyLen) (pre ++ upper ++ [.bot]) == .lt

/-- The scan of the keys that begin with the columns `pre`. -/
def prefixScan (rows : List (Tuple X)) (pre : Tuple X) : List (Tuple X) :=
  rows.filter fun t => compare (t.take pre.length) pre == .eq

def rowsPassing (codes : List (List (Bytecode X))) (rows : List (Tuple X)) : List (Tuple X) :=
  (filterIter codes (rows.map .ok)).filterMap Except.toOption

omit [Ord X] in
theorem evalFilters_eq_true {t : Tuple X} : evalFilters codes t = .ok true ↔
    ∀ code ∈ codes, evalBytecodePred code t = .ok true := by
  induction codes with
  | nil => simp [evalFilters]
  | cons code codes ih =>
    rw [evalFilters, forall_mem_cons, bind_ok]
    constructor
    · rintro ⟨b, hb, h⟩
      cases b with
      | true => exact ⟨hb, ih.1 h⟩
      | false => cases h
    · rintro ⟨hb, h⟩
      exact ⟨true, hb, ih.2 h⟩

omit [Ord X] in
theorem forall₂_of_compileFilters
    (h : RelAlgebra.compileFilters columns filters [] = .ok (filled, codes)) :
    ∃ compiled : List (Expr X × List (Bytecode X)), filled = compiled.map Prod.fst ∧
    codes = compiled.map Prod.snd ∧
      List.Forall₂ (fun e p => e.fillBindingIndices (positionOf · columns) = .ok p.1 ∧
      p.1.compile = .ok p.2) filters compiled := by
  obtain ⟨compiled, hcompiled, hpair⟩ := bind_ok.1 h
  cases hpair
  refine ⟨compiled, rfl, rfl, (mapM_eq_ok_iff.1 hcompiled).imp fun e p hp => ?_⟩
  obtain ⟨e', hfill, hp⟩ := bind_ok.1 hp
  obtain ⟨code, hcode, hp⟩ := bind_ok.1 hp
  cases hp
  exact ⟨hfill, hcode⟩

variable [TransOrd X] [LawfulEqOrd X]

omit [LawfulEqOrd X] in
theorem forall₂_contains_iff (hcompile : RelAlgebra.compileFilters columns filters [] =
      .ok (filled, codes))
    (hgenuine : ∀ e ∈ filters, e.Genuine) {t : Tuple X} (htrue : evalFilters codes t = .ok true)
    {x : Symbol} (hv : columnValue columns t x = some v) :
    List.Forall₂ (fun e e' => ∀ s, Expr.extractBound x e' = .ok s →
      (s.Contains v ↔ Expr.exactAt x v e = true)) filters filled := by
  obtain ⟨compiled, rfl, rfl, hall⟩ := forall₂_of_compileFilters hcompile
  rw [evalFilters_eq_true] at htrue
  clear hcompile
  induction hall with
  | nil => exact .nil
  | cons hp _ ih =>
    rw [forall_mem_cons] at hgenuine
    rw [map_cons, forall_mem_cons] at htrue
    refine .cons (fun s hs => ?_) (ih hgenuine.2 htrue.2)
    exact contains_extractBound_iff hgenuine.1 hp.1 hp.2 htrue.1 hv hs

theorem getElem?_of_forall₂ {α β : Type} {R : α → β → Prop} {l : List α}
    {l' : List β} (h : List.Forall₂ R l l')
    {i : Nat} {a : α} (ha : l[i]? = some a) : ∃ b, l'[i]? = some b ∧ R a b := by
  induction h generalizing i with
  | nil => cases ha
  | cons hab _ ih =>
    cases i with
    | zero => cases ha; exact ⟨_, rfl, hab⟩
    | succ i => exact ih ha

theorem withinBounds_iff {symbols : List Symbol} {lowers uppers t : Tuple X}
    (hcompile : RelAlgebra.compileFilters columns filters [] = .ok (filled, codes))
    (hgenuine : ∀ e ∈ filters, e.Genuine)
    (hbounds : computeBounds filled symbols = .ok (lowers, uppers))
    (htrue : evalFilters codes t = .ok true) :
    WithinBounds columns symbols lowers uppers t ↔ exactFor columns symbols filters t = true := by
  obtain ⟨bounds, hmapM, hlu⟩ := bind_ok.1 hbounds
  cases hlu
  have hall := mapM_eq_ok_iff.1 hmapM
  have hcolumn : ∀ {x v}, columnValue columns t x = some v → ∀ {r}, columnBound filled x = .ok r →
      (r.Contains v ↔ ∀ e ∈ filters, e.exactAt x v = true) := fun hv _ hr =>
    contains_columnBound_iff (forall₂_contains_iff hcompile hgenuine htrue hv) hr
  rw [exactFor, all_eq_true]
  constructor
  · intro hwithin x hx
    split
    · rename_i v hv
      obtain ⟨i, hi⟩ := List.getElem?_of_mem hx
      obtain ⟨r, hr, hbound⟩ := getElem?_of_forall₂ hall hi
      obtain ⟨l, u, hl, hu, hle⟩ := hwithin i x v hi hv
      rw [List.getElem?_map, hr] at hl hu
      cases hl
      cases hu
      rw [all_eq_true]
      exact (hcolumn hv hbound).1 hle
    · rfl
  · intro hexact i x v hi hv
    obtain ⟨r, hr, hbound⟩ := getElem?_of_forall₂ hall hi
    have hx := hexact x (mem_of_getElem? hi)
    rw [hv] at hx
    have hcontains := (hcolumn hv hbound).2 (all_eq_true.1 hx)
    exact ⟨r.lower, r.upper, by rw [List.getElem?_map, hr]; rfl, by rw [List.getElem?_map, hr]; rfl,
      hcontains⟩

theorem positionOf_eq_none {x : Symbol} (hx : x ∉ columns) : positionOf x columns = none := by
  induction columns with
  | nil => rfl
  | cons b bs ih =>
    rw [mem_cons, not_or] at hx
    rw [positionOf, ih hx.2]
    exact if_neg (Ne.symm hx.1)

theorem positionOf_of_getElem? (hnodup : columns.Nodup) {i : Nat} {x : Symbol}
    (hx : columns[i]? = some x) : positionOf x columns = some i := by
  induction columns generalizing i with
  | nil => cases hx
  | cons b bs ih =>
    rw [nodup_cons] at hnodup
    rw [positionOf]
    cases i with
    | succ i => rw [ih hnodup.2 hx]
    | zero =>
      cases hx
      rw [positionOf_eq_none hnodup.1]
      exact if_pos rfl

omit [TransOrd X] [LawfulEqOrd X] in
theorem compare_append_lt {l u : Tuple X} (h : List.Forall₂ (fun a b => (cmp a b).isLE) l u)
    (v : DataValue X) : compare l (u ++ [v]) = .lt := by
  induction h with
  | nil => rfl
  | cons hab _ ih =>
    rename_i a b l u _
    rw [cons_append, List.compare_cons_cons]
    have hcmp : compare a b = cmp a b := rfl
    rw [hcmp]
    cases hc : cmp a b with
    | lt => rfl
    | eq => exact ih
    | gt => rw [hc] at hab; cases hab

theorem forall₂_of_getElem? {α β : Type} {R : α → β → Prop} {l : List α}
    {l' : List β} (hlen : l.length = l'.length)
    (h : ∀ (i : Nat) a b, l[i]? = some a → l'[i]? = some b → R a b) : List.Forall₂ R l l' := by
  refine forall₂_iff_get.2 ⟨hlen, fun i hi hi' => ?_⟩
  exact h i _ _ (List.getElem?_eq_getElem hi) (List.getElem?_eq_getElem hi')

theorem take_eq_of_between {pre lower upper key : Tuple X}
    (hlow : (compare (pre ++ lower) key).isLE)
    (hup : compare key (pre ++ upper ++ [.bot]) = .lt) : key.take pre.length = pre := by
  have h₁ := isLE_compare_take hlow pre.length
  have h₂ := isLE_compare_take (show (compare key (pre ++ upper ++ [.bot])).isLE by rw [hup]; rfl)
    pre.length
  rw [take_left] at h₁
  rw [append_assoc, take_left] at h₂
  have hswap : compare pre (key.take pre.length) = (compare (key.take pre.length) pre).swap :=
    Std.OrientedCmp.eq_swap
  rw [hswap] at h₁
  have heq : compare (key.take pre.length) pre = .eq := by
    cases hc : compare (key.take pre.length) pre with
    | lt => rw [hc] at h₁; cases h₁
    | eq => rfl
    | gt => rw [hc] at h₂; cases h₂
  exact Std.LawfulEqCmp.eq_of_compare heq

/-- **A scan within the bounds finds a row whose columns lie within them** if and only if the row
begins with the columns before. -/
theorem bounded_iff (hnodup : columns.Nodup) {keyLen : Nat} {pre lowers uppers t : Tuple X}
    (hpre : pre.length ≤ keyLen) (hkey : keyLen ≤ columns.length) (ht : t.length = columns.length)
    (hlowers : lowers.length = keyLen - pre.length) (huppers : uppers.length = keyLen - pre.length)
    (hwithin : WithinBounds columns ((columns.take keyLen).drop pre.length) lowers uppers t) :
    ((compare (pre ++ lowers) (t.take keyLen)).isLE ∧
      compare (t.take keyLen) (pre ++ uppers ++ [.bot]) = .lt) ↔ t.take pre.length = pre := by
  constructor
  · rintro ⟨hlow, hup⟩
    have hbegin := take_eq_of_between hlow hup
    rwa [take_take, Nat.min_eq_left hpre] at hbegin
  · intro hbegin
    have hkeyLen : (t.take keyLen).length = keyLen := by
      rw [length_take]
      omega
    have hsplit : t.take keyLen = pre ++ (t.take keyLen).drop pre.length := by
      conv_lhs => rw [← take_append_drop pre.length (t.take keyLen), take_take,
        Nat.min_eq_left hpre, hbegin]
    -- the bounds of the columns, by position
    have hcolumn : ∀ (i : Nat) v, ((t.take keyLen).drop pre.length)[i]? = some v →
        ∃ l u, lowers[i]? = some l ∧ uppers[i]? = some u ∧ (cmp l v).isLE ∧ (cmp v u).isLE := by
      intro i v hv
      rw [List.getElem?_drop] at hv
      have hlt : pre.length + i < keyLen := by
        have := (List.getElem?_eq_some_iff.1 hv).1
        omega
      rw [List.getElem?_take_of_lt hlt] at hv
      obtain ⟨x, hx⟩ : ∃ x, columns[pre.length + i]? = some x := ⟨_, List.getElem?_eq_getElem (by omega)⟩
      refine hwithin i x v ?_ ?_
      · rw [List.getElem?_drop, List.getElem?_take_of_lt hlt]
        exact hx
      · rw [columnValue, positionOf_of_getElem? hnodup hx]
        exact hv
    have hmid : ((t.take keyLen).drop pre.length).length = keyLen - pre.length := by
      rw [length_drop, hkeyLen]
    rw [hsplit, append_assoc, compare_append_left, compare_append_left]
    constructor
    · refine isLE_compare_of_forall₂ (forall₂_of_getElem? (by omega) fun i l v hl hv => ?_)
      obtain ⟨l', u, hl', -, hle, -⟩ := hcolumn i v hv
      obtain rfl : l = l' := Option.some.inj (hl.symm.trans hl')
      exact hle
    · refine compare_append_lt (forall₂_of_getElem? (by omega) fun i v u hv hu => ?_) .bot
      obtain ⟨l, u', -, hu', -, hle⟩ := hcolumn i v hv
      obtain rfl : u = u' := Option.some.inj (hu.symm.trans hu')
      exact hle

omit [Ord X] [TransOrd X] [LawfulEqOrd X] in
theorem rowsPassing_cons (codes : List (List (Bytecode X))) (t : Tuple X)
    (rows : List (Tuple X)) : rowsPassing codes (t :: rows) = (match evalFilters codes t with
        | .ok true => [t]
        | _ => []) ++ rowsPassing codes rows := by
  have hcons : filterIter codes ((t :: rows).map .ok) =
      (match evalFilters codes t with
        | .ok true => [.ok t]
        | .ok false => []
        | .error e => [.error e]) ++ filterIter codes (rows.map .ok) := by
    rw [map_cons, filterIter, filterIter, TupleIter.filterMapOk, TupleIter.filterMapOk,
      TupleIter.flatMapOk, TupleIter.flatMapOk, flatMap_cons]
    congr 1
    dsimp only
    cases hev : evalFilters codes t with
    | error e => rfl
    | ok b => cases b <;> rfl
  rw [rowsPassing, hcons, filterMap_append]
  congr 1
  cases evalFilters codes t with
  | error e => rfl
  | ok b => cases b <;> rfl

omit [Ord X] [TransOrd X] [LawfulEqOrd X] in
theorem rowsPassing_congr {rows : List (Tuple X)} {p q : Tuple X → Bool}
    (h : ∀ t ∈ rows, evalFilters codes t = .ok true → p t = q t) :
    rowsPassing codes (rows.filter p) = rowsPassing codes (rows.filter q) := by
  induction rows with
  | nil => rfl
  | cons t rows ih =>
    obtain ⟨ht, hrows⟩ := forall_mem_cons.1 h
    have htail := ih hrows
    have hdrop : ∀ r : Tuple X → Bool, rowsPassing codes ((t :: rows).filter r) =
        (match evalFilters codes t with
          | .ok true => if r t then [t] else []
          | _ => []) ++ rowsPassing codes (rows.filter r) := by
      intro r
      rw [filter_cons]
      cases hr : r t with
      | true =>
        rw [if_pos rfl, rowsPassing_cons]
        rfl
      | false =>
        rw [if_neg (by simp)]
        cases evalFilters codes t with
        | error e => rfl
        | ok b => cases b <;> rfl
    rw [hdrop p, hdrop q, htail]
    cases hev : evalFilters codes t with
    | error e => rfl
    | ok b =>
      cases b with
      | false => rfl
      | true => rw [ht hev]

/-- **The columns of a row that passes the filters lie within the bounds if and only if the bounds
are exact there.** Where they are, for the rows of a relation, the scan within the bounds and the
scan without them return the same rows after the filters. -/
theorem computeBounds_within_iff {columns symbols : List Symbol} {filters filled : List (Expr X)}
    {codes : List (List (Bytecode X))} {lowers uppers : Tuple X}
    (hcompile : RelAlgebra.compileFilters columns filters [] = .ok (filled, codes))
    (hgenuine : ∀ e ∈ filters, e.Genuine)
    (hbounds : computeBounds filled symbols = .ok (lowers, uppers)) :
    (∀ t, evalFilters codes t = .ok true →
      (WithinBounds columns symbols lowers uppers t ↔ exactFor columns symbols filters t = true)) ∧
    ∀ (keyLen : Nat) (rows : List (Tuple X)) (pre : Tuple X), columns.Nodup → pre.length ≤ keyLen →
      keyLen ≤ columns.length → symbols = (columns.take keyLen).drop pre.length →
      (∀ t ∈ rows, t.length = columns.length) →
      (∀ t ∈ rows, evalFilters codes t = .ok true → exactFor columns symbols filters t = true) →
      rowsPassing codes (boundedScan keyLen rows pre lowers uppers) =
      rowsPassing codes (prefixScan rows pre) := by
  have hwithin := fun t => withinBounds_iff (t := t) hcompile hgenuine hbounds
  refine ⟨hwithin, fun keyLen rows pre hnodup hpre hkey hsymbols hlen hexact => ?_⟩
  obtain ⟨bounds, hmapM, hlu⟩ := bind_ok.1 hbounds
  have hcount : bounds.length = keyLen - pre.length := by
    rw [← (mapM_eq_ok_iff.1 hmapM).length_eq, hsymbols, length_drop, length_take]
    omega
  cases hlu
  refine rowsPassing_congr fun t ht htrue => ?_
  have hbounded := bounded_iff hnodup hpre hkey (hlen t ht) (by rw [length_map, hcount])
    (by rw [length_map, hcount]) (hsymbols ▸ (hwithin t htrue).2 (hexact t ht htrue))
  rw [Bool.eq_iff_iff, Bool.and_eq_true, beq_iff_eq, beq_tuple_iff]
  exact hbounded

/-- `x >= c`. -/
def atLeast (c : DataValue X) : Expr X := .apply OP_GE [.binding "x" none, .const c]

omit [TransOrd X] [LawfulEqOrd X] in
theorem genuine_atLeast (c : DataValue X) : (atLeast c).Genuine := by
  intro o ho hname
  simp only [boundingOps, mem_cons, not_mem_nil, or_false] at ho
  rcases ho with rfl | rfl | rfl | rfl | rfl
  · exact ⟨rfl, rfl⟩
  all_goals simp [OP_GE, OP_GT, OP_LE, OP_LT, OP_STARTS_WITH] at hname

theorem five_within_bounds : exactFor ["x"] ["x"] [atLeast (.num (.int 3))]
    ([.num (.int 5)] : Tuple Nat) = true ∧
    WithinBounds ["x"] ["x"] [.num (.int 3)] [.bot] ([.num (.int 5)] : Tuple Nat) :=
  have hexact : exactFor ["x"] ["x"] [atLeast (.num (.int 3))] ([.num (.int 5)] : Tuple Nat) = true := rfl
  ⟨hexact, ((computeBounds_within_iff rfl
    (fun _ he => mem_singleton.1 he ▸ genuine_atLeast (.num (.int 3))) rfl).1 _ rfl).2 hexact⟩

/-- `x >= 18014398509481984.0` holds for the integer before, which is rounded up to that float. As
an integer the bound is above it. -/
theorem rounded_value_out_of_bounds : ∃ filled codes lowers uppers,
      RelAlgebra.compileFilters ["x"] [atLeast
      (.num (.float (.ofMag false (1077 * 2 ^ 52))) : DataValue Nat)] [] = .ok (filled, codes) ∧
      computeBounds filled ["x"] = .ok (lowers, uppers) ∧
      (evalFilters codes [.num (.int 18014398509481983)]).toOption = some true ∧
      ¬ WithinBounds ["x"] ["x"] lowers uppers [.num (.int 18014398509481983)] ∧
      (rowsPassing codes (boundedScan 1 [[.num (.int 18014398509481983)]] []
      lowers uppers)).length = 0 ∧
      (rowsPassing codes (prefixScan [[.num (.int 18014398509481983)]] [])).length = 1 := by
  refine ⟨_, _, _, _, rfl, rfl, by decide +kernel, fun h => ?_, by decide +kernel, by decide +kernel⟩
  obtain ⟨l, u, hl, -, hle, -⟩ := h 0 "x" (.num (.int 18014398509481983)) rfl rfl
  cases hl
  exact absurd hle (by decide +kernel)

end Scans

end Retia
