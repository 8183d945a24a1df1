import Retia.Lib.OrderedCode
import Retia.Data.Tuple

/-!
# The order of keys against the order of values

Rows are stored under the bytes of their keys and compared, in memory, by `Ord for DataValue`. The
two orders are meant to be one: `data/value.rs` asks of an `Ord` instance that it mirror the
encoding "so on-disk and in-memory orderings agree". This module finds out where they do.

The encoding has an order of its own. `byteCmp` states it on values: first by tag, then by payload,
an array by its length and the *bit patterns* of its elements. `compare_encodeDatavalue` proves that
this is what the bytes do, with anything behind them; texts, numbers and validities are compared as
values on the way (`compare_encodeBytes`, `compare_encodeNum`, `compare_encodeValidity`), and this
is where the padded groups, the bent floats and the split between exact and approximate integers are
accounted for. `encodeBytes_faithful` and `encodeNum_faithful` say of texts and of numbers what they
are promised to be: in order, none the beginning of another, and read back whatever follows.

So the orders agree exactly where `byteCmp` is `DataValue.cmp`, and the two differ in three ways:

* the tags of arrays and of JSON values are out of step with the variants (`Misplaced`);
* elements of arrays are written raw, so a set sign bit puts a number behind all the others
  (`Lane.Safe`);
* two zeros, or two NaNs, are equal elements with different bytes; the bytes then decide the order
  of keys that the values leave to a later column.

`OrderSafe` collects these conditions and `keyOrder_agrees_iff` is the equivalence, for values and
for the keys of rows.
-/

namespace Retia

open Memcmp List

/-! ### Texts -/

namespace Memcmp

/-- The group of a text with at most `n` bytes to go, its padding counted down from `n`. At `n = 8`
this is one pass of the encoder's loop. -/
def paddedGroup (n : Nat) (a : Bytes) : Bytes :=
  if n ≤ a.length then a.take n ++ [encMarker]
  else a ++ List.replicate (n - a.length) 0 ++ [encMarker - UInt8.ofNat (n - a.length)]

theorem paddedGroup_nil (n : Nat) :
    paddedGroup n [] = List.replicate n 0 ++ [encMarker - UInt8.ofNat n] := by
  cases n with
  | zero => rfl
  | succ n => simp [paddedGroup]

theorem paddedGroup_succ_cons (n : Nat) (c : UInt8) (a : Bytes) :
    paddedGroup (n + 1) (c :: a) = c :: paddedGroup n a := by
  rw [paddedGroup, paddedGroup, length_cons, Nat.add_sub_add_right]
  by_cases h : n ≤ a.length
  · rw [if_pos h, if_pos (by omega)]
    rfl
  · rw [if_neg h, if_neg (by omega)]
    rfl

theorem encMarker_sub_lt {m n : Nat} (hmn : m < n) (hn : n ≤ encGroupSize) :
    encMarker - UInt8.ofNat n < encMarker - UInt8.ofNat m := by
  rw [encGroupSize] at hn
  interval_cases n <;> interval_cases m <;> decide

theorem zero_lt_of_ne {d : UInt8} (h : 0 ≠ d) : 0 < d := by
  have hne : d.toNat ≠ 0 := fun h0 => h (UInt8.toNat.inj (by simpa using h0.symm))
  exact UInt8.lt_iff_toNat_lt.2 (Nat.pos_of_ne_zero hne)

theorem encodeBytes_eq_paddedGroup (a : Bytes) : encodeBytes a = paddedGroup encGroupSize a ++
      if encGroupSize ≤ a.length then encodeBytes (a.drop encGroupSize) else [] := by
  by_cases h : encGroupSize ≤ a.length
  · rw [encodeBytes_of_le h, paddedGroup, if_pos h, if_pos h]
    simp
  · rw [encodeBytes_of_lt (not_le.1 h), paddedGroup, if_neg h, if_neg h, append_nil]

theorem padding_lt (n k : Nat) (hk : n < k) (hk8 : k ≤ encGroupSize) (b s t : Bytes) :
    compare (List.replicate n 0 ++ (encMarker - UInt8.ofNat k) :: s) (paddedGroup n b ++ t) =
    .lt := by
  induction n generalizing b with
  | zero =>
    have hb : paddedGroup 0 b = [encMarker] := by simp [paddedGroup]
    have hlt : encMarker - UInt8.ofNat k < encMarker := encMarker_sub_lt hk hk8
    rw [hb, replicate_zero, nil_append, singleton_append, compare_cons_of_ne (UInt8.ne_of_lt hlt),
      Std.compare_eq_lt]
    exact hlt
  | succ n ih =>
    rw [replicate_succ, cons_append]
    cases b with
    | nil =>
      -- the same zeros, and a marker that says there are fewer of them
      rw [paddedGroup_nil, replicate_succ, cons_append, cons_append, compare_cons_self,
        append_assoc, compare_append_of_length_eq rfl]
      have hself : compare (List.replicate n (0 : UInt8)) (List.replicate n 0) = .eq :=
        Std.ReflCmp.compare_self
      have hlt := encMarker_sub_lt hk hk8
      rw [hself, Ordering.eq_then, singleton_append, compare_cons_of_ne (UInt8.ne_of_lt hlt),
        Std.compare_eq_lt]
      exact hlt
    | cons d b =>
      rw [paddedGroup_succ_cons, cons_append]
      by_cases hd : (0 : UInt8) = d
      · rw [← hd, compare_cons_self]
        exact ih (by omega) b
      · rw [compare_cons_of_ne hd, Std.compare_eq_lt]
        exact zero_lt_of_ne hd

theorem paddedGroup_nil_lt (n : Nat) (hn : n + 1 ≤ encGroupSize) (d : UInt8) (b s t : Bytes) :
    compare (paddedGroup (n + 1) [] ++ s) (paddedGroup (n + 1) (d :: b) ++ t) = .lt := by
  rw [paddedGroup_nil, paddedGroup_succ_cons, replicate_succ, cons_append,
    cons_append, append_assoc, singleton_append]
  by_cases hd : (0 : UInt8) = d
  · rw [← hd, cons_append, compare_cons_self]
    exact padding_lt n (n + 1) (by omega) hn b s t
  · rw [cons_append, compare_cons_of_ne hd, Std.compare_eq_lt]
    exact zero_lt_of_ne hd

theorem compare_paddedGroup (n : Nat) (hn : n ≤ encGroupSize) (a b s t : Bytes) :
    compare (paddedGroup n a ++ s) (paddedGroup n b ++ t) =
      if n ≤ a.length ∧ n ≤ b.length then (compare (a.take n) (b.take n)).then (compare s t)
      else (compare a b).then (compare s t) := by
  induction n generalizing a b with
  | zero => simp [paddedGroup]
  | succ n ih =>
    match a, b with
    | [], [] =>
      rw [if_neg (by simp), compare_append_of_length_eq rfl]
      simp
    | [], d :: b =>
      rw [if_neg (by simp), paddedGroup_nil_lt n hn]
      rfl
    | c :: a, [] =>
      have hlt := paddedGroup_nil_lt n hn c a t s
      rw [if_neg (by simp), List.compare_cons_nil, Std.OrientedCmp.gt_iff_lt.2 hlt]
      rfl
    | c :: a, d :: b =>
      rw [paddedGroup_succ_cons, paddedGroup_succ_cons, cons_append, cons_append,
        List.compare_cons_cons, ih (by omega), take_succ_cons, take_succ_cons,
        List.compare_cons_cons, List.compare_cons_cons, length_cons, length_cons,
        Ordering.then_assoc, Ordering.then_assoc]
      simp only [Nat.add_le_add_iff_right]
      split <;> rfl

/-- **Texts are compared as texts**, whatever follows them. -/
theorem compare_encodeBytes (a b s t : Bytes) :
    compare (encodeBytes a ++ s) (encodeBytes b ++ t) = (compare a b).then (compare s t) := by
  -- the texts get shorter by a group as long as both have one
  induction h : a.length using Nat.strong_induction_on generalizing a b with
  | _ n ih =>
    subst h
    rw [encodeBytes_eq_paddedGroup a, encodeBytes_eq_paddedGroup b, append_assoc,
      append_assoc, compare_paddedGroup encGroupSize le_rfl]
    by_cases hboth : encGroupSize ≤ a.length ∧ encGroupSize ≤ b.length
    · obtain ⟨ha, hb⟩ := hboth
      rw [if_pos ⟨ha, hb⟩, if_pos ha, if_pos hb,
        ih _ (by rw [length_drop, encGroupSize] at *; omega) _ _ rfl, ← Ordering.then_assoc,
        ← compare_append_of_length_eq (by simp [ha, hb]), take_append_drop,
        take_append_drop]
    · rw [if_neg hboth]
      by_cases hab : a = b
      · subst hab
        rw [if_neg (by simpa using hboth)]
        simp
      · -- the texts differ, so what follows them is not looked at
        have hne : compare a b ≠ .eq := fun h => hab (Std.LawfulEqCmp.eq_of_compare h)
        rw [then_of_ne hne, then_of_ne hne]

/-! ### Numbers and validities -/

theorem toNat_orderEncodeF64 (f : F64) :
    ((orderEncodeF64 f).toNat : Int) = f.totalKey + 2 ^ 63 := by
  have hmag := f.mag_lt
  have hbits := f.bits_toNat
  cases hs : f.sign with
  | false =>
    have hor : orderEncodeF64 f = f.bits + signMark := by
      rw [BitVec.add_eq_or_of_and_eq_zero _ _ (and_signMark_of_msb hs), orderEncodeF64, hs]
      rfl
    rw [hor, BitVec.toNat_add, show signMark.toNat = 2 ^ 63 by decide, F64.totalKey, hs, hbits, hs]
    simp only [Bool.false_eq_true, if_false]
    omega
  | true =>
    have hnot : orderEncodeF64 f = ~~~f.bits := by simp [orderEncodeF64, hs]
    rw [hnot, BitVec.toNat_not, F64.totalKey, hs, hbits, hs]
    simp only [if_true]
    omega

theorem compare_writeU64 (u v : BitVec 64) (s t : Bytes) :
    compare (writeU64 u ++ s) (writeU64 v ++ t) = (compare u.toNat v.toNat).then (compare s t) :=
  compare_beBytes_append u.isLt v.isLt s t

theorem compare_toNat_orderEncodeF64 (f g : F64) :
    compare (orderEncodeF64 f).toNat (orderEncodeF64 g).toNat = compare f.totalKey g.totalKey := by
  have hf := toNat_orderEncodeF64 f
  have hg := toNat_orderEncodeF64 g
  rcases lt_trichotomy f.totalKey g.totalKey with h | h | h
  · rw [Std.compare_eq_lt.2 h, Std.compare_eq_lt.2 (by omega)]
  · rw [h, show (orderEncodeF64 f).toNat = (orderEncodeF64 g).toNat by omega]
    simp
  · rw [Std.compare_eq_gt.2 h, Std.compare_eq_gt.2 (by omega)]

theorem compare_toNat_orderEncodeI64 (i j : Int64) :
    compare (orderEncodeI64 i).toNat (orderEncodeI64 j).toNat = compare i j := by
  have hi := toNat_orderEncodeI64 i
  have hj := toNat_orderEncodeI64 j
  rcases lt_trichotomy i.toInt j.toInt with h | h | h
  · rw [Std.compare_eq_lt.2 (Int64.lt_iff_toInt_lt.2 h), Std.compare_eq_lt.2 (by omega)]
  · rw [Int64.toInt_inj.1 h]
    simp
  · rw [Std.compare_eq_gt.2 (Int64.lt_iff_toInt_lt.2 h), Std.compare_eq_gt.2 (by omega)]

/-- What follows the float of a number in its encoding. -/
def numRest : Num → Bytes
  | .int i =>
    if -exactIntBound < i.toInt ∧ i.toInt < exactIntBound then [isExactInt]
    else isApproxInt :: writeU64 (orderEncodeI64 i)
  | .float _ => [isFloat]

theorem encodeNum_eq (n : Num) :
    encodeNum n = writeU64 (orderEncodeF64 n.getFloat) ++ numRest n := by
  cases n <;> rfl

theorem eq_of_ofInt64_eq_of_exact {i j : Int64} (hi : i.toInt.natAbs < 2 ^ 53)
    (h : F64.ofInt64 i = F64.ofInt64 j) : i = j := by
  by_cases hj : j.toInt.natAbs < 2 ^ 53
  · rw [← F64.toInt64_ofInt64 hi, h, F64.toInt64_ofInt64 hj]
  · -- a large integer is rounded to a float that no small one reaches
    have hmag := congrArg F64.mag h
    have hlt : ∀ k : Int64, natRound k.toInt.natAbs < 2 ^ 63 :=
      fun k => (F64.natRound_natAbs_lt k).trans (by decide)
    simp only [F64.ofInt64, F64.mag_ofMag, Nat.mod_eq_of_lt (hlt _)] at hmag
    have := natRound_lt_of_exact hi (not_lt.1 hj)
    omega

theorem compare_numRest {a b : Num} (h : a.getFloat = b.getFloat) (s t : Bytes) :
    compare (numRest a ++ s) (numRest b ++ t) = (compare a b).then (compare s t) := by
  have hcmp : compare a b = Num.cmp a b := rfl
  cases a with
  | float f =>
    cases b with
    | float g =>
      obtain rfl : f = g := h
      rw [compare_append_of_length_eq rfl]
      simp
    | int j =>
      obtain rfl : f = F64.ofInt64 j := h
      have hgt : Num.cmp (.float (F64.ofInt64 j)) (.int j) = .gt := by simp [Num.cmp, F64.totalCmp]
      rw [hcmp, hgt, numRest, numRest]
      split <;> rfl
  | int i =>
    cases b with
    | float g =>
      obtain rfl : F64.ofInt64 i = g := h
      have hlt : Num.cmp (.int i) (.float (F64.ofInt64 i)) = .lt := by simp [Num.cmp, F64.totalCmp]
      rw [hcmp, hlt, numRest, numRest]
      split <;> rfl
    | int j =>
      have hfloat : F64.ofInt64 i = F64.ofInt64 j := h
      by_cases hij : i = j
      · subst hij
        rw [compare_append_of_length_eq rfl]
        simp
      · -- distinct integers of one float are both approximate
        have happrox : ∀ k l : Int64, F64.ofInt64 k = F64.ofInt64 l → k ≠ l →
            numRest (.int k) = isApproxInt :: writeU64 (orderEncodeI64 k) := by
          intro k l hkl hne
          rw [numRest, if_neg]
          intro hexact
          refine hne (eq_of_ofInt64_eq_of_exact ?_ hkl)
          simp only [exactIntBound] at hexact
          omega
        rw [happrox i j hfloat hij, happrox j i hfloat.symm (Ne.symm hij), cons_append,
          cons_append, compare_cons_self, compare_writeU64, compare_toNat_orderEncodeI64]
        rfl

/-- **Numbers are compared as numbers.** -/
theorem compare_encodeNum (a b : Num) (s t : Bytes) :
    compare (encodeNum a ++ s) (encodeNum b ++ t) = (compare a b).then (compare s t) := by
  rw [encodeNum_eq, encodeNum_eq, append_assoc, append_assoc, compare_writeU64,
    compare_toNat_orderEncodeF64]
  have hcmp : compare a b = (compare a.floatKey b.floatKey).then (compare a.intKey b.intKey) :=
    Num.cmp_eq a b
  -- a number as a float comes first in both comparisons
  rcases lt_trichotomy a.getFloat.totalKey b.getFloat.totalKey with h | h | h
  · have hkey : a.floatKey < b.floatKey := by
      unfold Num.floatKey
      cases a <;> cases b <;> simp only <;> omega
    rw [hcmp, Std.compare_eq_lt.2 h, Std.compare_eq_lt.2 hkey]
    rfl
  · rw [compare_numRest (F64.totalKey_injective h), h, compare_eq_iff_eq.2 rfl]
    rfl
  · have hkey : b.floatKey < a.floatKey := by
      unfold Num.floatKey
      cases a <;> cases b <;> simp only <;> omega
    rw [hcmp, Std.compare_eq_gt.2 h, Std.compare_eq_gt.2 hkey]
    rfl

/-- **Validities are compared as validities.** -/
theorem compare_encodeValidity (v w : Validity) (s t : Bytes) :
    compare (encodeValidity v ++ s) (encodeValidity w ++ t) = (compare v w).then (compare s t) := by
  have hcmp : compare (encodeValidity v) (encodeValidity w) = compare v w := by
    cases hvw : compare v w with
    | lt => exact compare_bytes_eq_lt_iff.2 ((encodeValidity_lt_iff v w).2 hvw)
    | eq => rw [Std.LawfulEqCmp.eq_of_compare hvw]; exact Std.ReflCmp.compare_self
    | gt =>
      rw [Std.OrientedCmp.gt_iff_lt] at hvw ⊢
      exact compare_bytes_eq_lt_iff.2 ((encodeValidity_lt_iff w v).2 hvw)
  rw [compare_append_of_length_eq (by simp [length_encodeValidity]), hcmp]

end Memcmp

/-! ### Arrays -/

/-- An element of an array, by sign and magnitude, whatever its width. -/
structure Lane where
  sign : Bool
  mag : Nat

/-- What the width of an element fixes: the weight of the sign bit, and the magnitude of infinity.
-/
structure LaneWidth where
  top : Nat
  inf : Nat

namespace Lane

variable (w : LaneWidth)

def bits (e : Lane) : Nat := (if e.sign then w.top else 0) + e.mag

def isNan (e : Lane) : Bool := w.inf < e.mag

def numKey (e : Lane) : Int := if e.sign then -(e.mag : Int) else e.mag

/-- `OrderedFloat` on elements. -/
def cmp (e f : Lane) : Ordering := orderedCmp (e.isNan w) (f.isNan w) e.numKey f.numKey

/-- Elements that differ in value are written in their order: neither has its sign bit set, or the
one that is the greater as a NaN has. -/
def Safe (e f : Lane) : Prop :=
  (e.sign = false ∧ f.sign = false) ∨ (e.isNan w = true ∧ e.sign = true) ∨
    (f.isNan w = true ∧ f.sign = true)

instance (e f : Lane) : Decidable (e.Safe w f) := by unfold Safe; infer_instance

variable {e f : Lane}

theorem cmp_of_isNan_left (he : e.isNan w = true) (hf : f.isNan w = false) : e.cmp w f = .gt := by
  rw [cmp, he, hf]
  rfl

theorem cmp_of_isNan_right (he : e.isNan w = false) (hf : f.isNan w = true) : e.cmp w f = .lt := by
  rw [cmp, he, hf]
  rfl

theorem cmp_of_numbers (he : e.isNan w = false) (hf : f.isNan w = false) :
    e.cmp w f = compare e.numKey f.numKey := by
  rw [cmp, he, hf]
  rfl

/-- A NaN is written behind the numbers exactly when its sign bit is set or theirs is not. -/
theorem bits_lt_iff_of_isNan (he : e.mag < w.top) (hen : e.isNan w = true)
    (hfn : f.isNan w = false) : f.bits w < e.bits w ↔ e.sign = true ∨ f.sign = false := by
  simp only [isNan, decide_eq_true_eq, decide_eq_false_iff_not] at hen hfn
  rw [bits, bits]
  cases e.sign <;> cases f.sign <;> simp only [Bool.false_eq_true, if_true, if_false] <;> simp <;> omega

/-- For elements of different value the order of the bit patterns is the order of the elements
exactly when they are safe. -/
theorem compare_bits_eq_cmp_iff (he : e.mag < w.top) (hf : f.mag < w.top)
    (hne : e.cmp w f ≠ .eq) : compare (e.bits w) (f.bits w) = e.cmp w f ↔ e.Safe w f := by
  unfold Safe
  cases hen : e.isNan w with
  | true =>
    cases hfn : f.isNan w with
    | true => exact absurd (by rw [cmp, hen, hfn]; rfl) hne
    | false =>
      rw [cmp_of_isNan_left w hen hfn, Std.compare_eq_gt, bits_lt_iff_of_isNan w he hen hfn]
      cases e.sign <;> simp
  | false =>
    cases hfn : f.isNan w with
    | true =>
      rw [cmp_of_isNan_right w hen hfn, Std.compare_eq_lt, bits_lt_iff_of_isNan w hf hfn hen]
      cases f.sign <;> simp
    | false =>
      rw [cmp_of_numbers w hen hfn] at hne ⊢
      have hkey : e.numKey ≠ f.numKey := fun h => hne (compare_eq_iff_eq.2 h)
      simp only [Bool.false_eq_true, false_and, or_false]
      -- with both signs clear the pattern is the value, with one set the patterns are reversed
      cases hes : e.sign <;> cases hfs : f.sign <;> simp only [numKey, hes, hfs,
        Bool.false_eq_true, if_true, if_false, bits, and_true,
          and_self, iff_true, true_and] at hkey ⊢
      · rcases lt_trichotomy e.mag f.mag with h | h | h
        · rw [Std.compare_eq_lt.2 (by omega), Std.compare_eq_lt.2 (by omega)]
        · omega
        · rw [Std.compare_eq_gt.2 (by omega), Std.compare_eq_gt.2 (by omega)]
      · rw [Std.compare_eq_lt.2 (by omega), Std.compare_eq_gt.2 (by omega)]
        simp
      · rw [Std.compare_eq_gt.2 (by omega), Std.compare_eq_lt.2 (by omega)]
        simp
      · rcases lt_trichotomy e.mag f.mag with h | h | h
        · rw [Std.compare_eq_lt.2 (by omega), Std.compare_eq_gt.2 (by omega)]
          simp
        · omega
        · rw [Std.compare_eq_gt.2 (by omega), Std.compare_eq_lt.2 (by omega)]
          simp

theorem cmp_of_bits_eq (he : e.mag < w.top) (hf : f.mag < w.top) (h : e.bits w = f.bits w) :
    e.cmp w f = .eq := by
  have hef : e = f := by
    obtain ⟨es, em⟩ := e
    obtain ⟨fs, fm⟩ := f
    simp only [bits] at he hf h
    cases es <;> cases fs <;> simp only [Bool.false_eq_true, if_true, if_false] at h <;>
      first | omega | exact congrArg (Lane.mk _) (by omega)
  subst hef
  unfold cmp orderedCmp
  cases e.isNan w <;> simp

end Lane

/-- The elements of two arrays of one length, compared one after the other. -/
def lanesCmp (w : LaneWidth) : List Lane → List Lane → Ordering
  | e :: es, f :: fs => (e.cmp w f).then (lanesCmp w es fs)
  | _, _ => .eq

/-- **Arrays written in their order**: at the first place where the bit patterns differ, the
elements are safe; or they are equal (two zeros, or two NaNs), and the rest of the arrays happens to
compare as these bit patterns do. -/
def LanesSafe (w : LaneWidth) : List Lane → List Lane → Prop
  | e :: es, f :: fs =>
    if compare (e.bits w) (f.bits w) = .eq then LanesSafe w es fs
    else if e.cmp w f = .eq then lanesCmp w es fs = compare (e.bits w) (f.bits w)
    else e.Safe w f
  | _, _ => True

theorem compare_bits_eq_lanesCmp_iff {w : LaneWidth} {l m : List Lane}
    (hlen : l.length = m.length) (hl : ∀ e ∈ l, e.mag < w.top) (hm : ∀ e ∈ m, e.mag < w.top) :
    compare (l.map (Lane.bits w)) (m.map (Lane.bits w)) = lanesCmp w l m ↔ LanesSafe w l m := by
  induction l generalizing m with
  | nil =>
    obtain rfl := length_eq_zero_iff.1 hlen.symm
    simp [lanesCmp, LanesSafe]
  | cons e l ih =>
    cases m with
    | nil => simp at hlen
    | cons f m =>
      have he := hl e (by simp)
      have hf := hm f (by simp)
      have hrest := ih (by simpa using hlen) (fun x hx => hl x (by simp [hx]))
        (fun x hx => hm x (by simp [hx]))
      have hfine : compare (e.bits w) (f.bits w) = .eq → e.cmp w f = .eq :=
        fun h => Lane.cmp_of_bits_eq w he hf (Std.LawfulEqCmp.eq_of_compare h)
      rw [map_cons, map_cons, List.compare_cons_cons, lanesCmp, LanesSafe, then_eq_then_iff hfine, hrest]
      by_cases hbits : compare (e.bits w) (f.bits w) = .eq
      · rw [if_pos hbits, if_pos hbits]
      · rw [if_neg hbits, if_neg hbits]
        by_cases hcmp : e.cmp w f = .eq
        · rw [if_pos hcmp, if_pos hcmp]
        · rw [if_neg hcmp, if_neg hcmp, Lane.compare_bits_eq_cmp_iff w he hf hcmp]

def F32.lane (f : F32) : Lane := ⟨f.sign, f.mag⟩

def F64.lane (f : F64) : Lane := ⟨f.sign, f.mag⟩

def laneWidth32 : LaneWidth := ⟨2 ^ 31, 255 * 2 ^ 23⟩

def laneWidth64 : LaneWidth := ⟨2 ^ 63, F64.infMag⟩

theorem F32.bits_lane (f : F32) : f.lane.bits laneWidth32 = f.bits.toNat := by
  have := f.bits.isLt
  rw [Lane.bits, lane, laneWidth32, sign, mag, BitVec.msb_eq_decide]
  split <;> simp_all
  omega

theorem F64.bits_lane (f : F64) : f.lane.bits laneWidth64 = f.bits.toNat :=
  (bits_toNat f).symm

namespace Vector

def bitCmp : Vector → Vector → Ordering
  | f32 l, f32 r => (compare l.length r.length).then
      (compare (l.map fun e => e.bits.toNat) (r.map fun e => e.bits.toNat))
  | f32 _, f64 _ => .lt
  | f64 l, f64 r => (compare l.length r.length).then
      (compare (l.map fun e => e.bits.toNat) (r.map fun e => e.bits.toNat))
  | f64 _, f32 _ => .gt

/-- The encodings of two arrays are in the order of the arrays. -/
def Safe : Vector → Vector → Prop
  | f32 l, f32 r =>
    l.length = r.length → LanesSafe laneWidth32 (l.map F32.lane) (r.map F32.lane)
  | f64 l, f64 r =>
    l.length = r.length → LanesSafe laneWidth64 (l.map F64.lane) (r.map F64.lane)
  | _, _ => True

theorem foldr_then_eq_lanesCmp {α : Type} (w : LaneWidth) (lane : α → Lane) (l r : List α) :
    (l.zipWith (fun a b => (lane a).cmp w (lane b)) r).foldr .then .eq =
    lanesCmp w (l.map lane) (r.map lane) := by
  induction l generalizing r with
  | nil => cases r <;> rfl
  | cons a l ih =>
    cases r with
    | nil => rfl
    | cons b r => rw [zipWith_cons_cons, foldr_cons, ih]; rfl

theorem compare_elements_iff {α : Type} (w : LaneWidth) (lane : α → Lane) (bits : α → Nat)
    (hbits : ∀ a, (lane a).bits w = bits a) (hmag : ∀ a, (lane a).mag < w.top) (l r : List α) :
    (compare l.length r.length).then (compare (l.map bits) (r.map bits)) =
    (compare l.length r.length).then
          ((l.zipWith (fun a b => (lane a).cmp w (lane b)) r).foldr .then .eq) ↔
          (l.length = r.length → LanesSafe w (l.map lane) (r.map lane)) := by
  by_cases hlen : l.length = r.length
  · have hsafe := compare_bits_eq_lanesCmp_iff (w := w) (l := l.map lane) (m := r.map lane)
      (by simpa using hlen) (by simp [hmag]) (by simp [hmag])
    have hself : compare r.length r.length = .eq := Std.ReflCmp.compare_self
    simp only [map_map, Function.comp_def, hbits] at hsafe
    rw [foldr_then_eq_lanesCmp, hlen, hself, Ordering.eq_then, Ordering.eq_then, hsafe]
    simp
  · have hne : compare l.length r.length ≠ .eq := fun h => hlen (compare_eq_iff_eq.1 h)
    refine iff_of_true ?_ fun h => absurd h hlen
    cases hcmp : compare l.length r.length with
    | eq => exact absurd hcmp hne
    | lt => rfl
    | gt => rfl

theorem bitCmp_eq_cmp_iff (a b : Vector) : a.bitCmp b = Vector.cmp a b ↔ a.Safe b := by
  cases a with
  | f32 l =>
    cases b with
    | f32 r =>
      exact compare_elements_iff laneWidth32 F32.lane _ F32.bits_lane
        (fun f => Nat.mod_lt _ (by decide)) l r
    | f64 r => simp [bitCmp, Vector.cmp, Safe]
  | f64 l =>
    cases b with
    | f32 r => simp [bitCmp, Vector.cmp, Safe]
    | f64 r => exact compare_elements_iff laneWidth64 F64.lane _ F64.bits_lane F64.mag_lt l r

end Vector

/-! ### Values -/

variable (v : Value)

namespace Memcmp

def tagOf : Value → UInt8
  | .null => nullTag
  | .bool false => falseTag
  | .bool true => trueTag
  | .num _ => numTag
  | .str _ => strTag
  | .bytes _ => bytesTag
  | .uuid _ => uuidTag
  | .regex _ => regexTag
  | .list _ => listTag
  | .set _ => setTag
  | .vec _ => vecTag
  | .json _ => jsonTag
  | .validity _ => vldTag
  | .bot => botTag

mutual

/-- **The order of the encodings**, stated on values: by tag, and within a tag by payload. -/
def byteCmp : Value → Value → Ordering
  | .num a, .num b => compare a b
  | .str a, .str b => compare a b
  | .bytes a, .bytes b => compare a b
  | .uuid a, .uuid b => compare a b
  | .regex a, .regex b => compare a b
  | .list a, .list b => byteCmpList a b
  | .set a, .set b => byteCmpList a b
  | .vec a, .vec b => a.bitCmp b
  | .json a, .json b => compare a b
  | .validity a, .validity b => compare a b
  | a, b => compare (tagOf a) (tagOf b)

def byteCmpList : List Value → List Value → Ordering
  | [], [] => .eq
  | [], _ :: _ => .lt
  | _ :: _, [] => .gt
  | a :: as, b :: bs => (byteCmp a b).then (byteCmpList as bs)

end

def payload (v : Value) : Bytes := (encodeDatavalue v).tail

theorem encodeDatavalue_eq_cons : encodeDatavalue v = tagOf v :: payload v := by
  cases v with
  | bool b => cases b <;> rfl
  | _ => rfl

theorem initTag_lt_tagOf : initTag < tagOf v := by
  cases v with
  | bool b => cases b <;> decide
  | _ => exact of_decide_eq_true rfl

def variantOfTag (tag : UInt8) : Nat :=
  if tag = nullTag then 0 else if tag = falseTag then 1 else if tag = trueTag then 1
  else if tag = numTag then 2 else if tag = strTag then 3 else if tag = bytesTag then 4
  else if tag = uuidTag then 5 else if tag = regexTag then 6 else if tag = listTag then 7
  else if tag = setTag then 8 else if tag = vecTag then 9 else if tag = jsonTag then 10
  else if tag = vldTag then 11 else 12

theorem variantOfTag_tagOf : variantOfTag (tagOf v) = v.variant := by
  cases v with
  | bool b => cases b <;> rfl
  | _ => rfl

theorem variant_eq_of_tagOf_eq {a b : Value} (h : tagOf a = tagOf b) : a.variant = b.variant := by
  rw [← variantOfTag_tagOf, h, variantOfTag_tagOf]

theorem compare_encodeUuid (u v : BitVec 128) (s t : Bytes) :
    compare (beBytes 16 u.toNat ++ s) (beBytes 16 v.toNat ++ t) =
    (compare u v).then (compare s t) := by
  have hcmp : compare u.toNat v.toNat = compare u v := by
    simp only [compare, compareOfLessAndEq, BitVec.lt_def, BitVec.toNat_inj]
  rw [compare_beBytes_append u.isLt v.isLt, hcmp]

theorem byteCmp_of_tagOf_ne {a b : Value} (h : tagOf a ≠ tagOf b) :
    byteCmp a b = compare (tagOf a) (tagOf b) := by
  unfold byteCmp
  split <;> first | rfl | exact absurd rfl h

theorem compare_encodeVector {a b : Vector} (ha : DataValue.WF (.vec a))
    (hb : DataValue.WF (.vec b)) (s t : Bytes) :
    compare (encodeVector a ++ s) (encodeVector b ++ t) = (a.bitCmp b).then (compare s t) := by
  -- one element type: the lengths, and the elements where these are equal
  have key : ∀ (w : Nat) (l m : List Nat), l.length < 2 ^ 64 → m.length < 2 ^ 64 →
      (∀ n ∈ l, n < 256 ^ w) → (∀ n ∈ m, n < 256 ^ w) →
      compare (writeU64 (BitVec.ofNat 64 l.length) ++ (l.flatMap (beBytes w) ++ s))
        (writeU64 (BitVec.ofNat 64 m.length) ++ (m.flatMap (beBytes w) ++ t)) =
      ((compare l.length m.length).then (compare l m)).then (compare s t) := by
    intro w l m hl hm hlw hmw
    rw [compare_writeU64, BitVec.toNat_ofNat, BitVec.toNat_ofNat, Nat.mod_eq_of_lt hl, Nat.mod_eq_of_lt hm]
    by_cases hlen : l.length = m.length
    · rw [compare_flatMap_beBytes hlw hmw hlen, Ordering.then_assoc]
    · have hne : compare l.length m.length ≠ .eq := fun h => hlen (compare_eq_iff_eq.1 h)
      rw [then_of_ne hne, then_of_ne hne, then_of_ne hne]
  cases a with
  | f32 l =>
    rw [DataValue.WF] at ha
    cases b with
    | f32 r =>
      rw [DataValue.WF] at hb
      have hkey := key 4 (l.map fun e => e.bits.toNat) (r.map fun e => e.bits.toNat)
        (by simpa using ha) (by simpa using hb) (by simp; intro e _; exact e.bits.isLt)
        (by simp; intro e _; exact e.bits.isLt)
      simp only [length_map, flatMap_map] at hkey
      simpa only [encodeVector, cons_append, append_assoc, compare_cons_self, Vector.bitCmp] using hkey
    | f64 r =>
      rw [encodeVector, encodeVector, cons_append, cons_append, cons_append,
        cons_append, compare_cons_of_ne (by decide)]
      rfl
  | f64 l =>
    rw [DataValue.WF] at ha
    cases b with
    | f32 r =>
      rw [encodeVector, encodeVector, cons_append, cons_append, cons_append,
        cons_append, compare_cons_of_ne (by decide)]
      rfl
    | f64 r =>
      rw [DataValue.WF] at hb
      have hkey := key 8 (l.map fun e => e.bits.toNat) (r.map fun e => e.bits.toNat)
        (by simpa using ha) (by simpa using hb) (by simp; intro e _; exact e.bits.isLt)
        (by simp; intro e _; exact e.bits.isLt)
      simp only [length_map, flatMap_map] at hkey
      simpa only [encodeVector, cons_append, append_assoc, compare_cons_self,
        Vector.bitCmp, writeU64] using hkey

mutual

/-- **The bytes of two values are in the order `byteCmp`**, with anything behind them. -/
theorem compare_encodeDatavalue (a b : Value) (ha : DataValue.WF a)
    (hb : DataValue.WF b) (s t : Bytes) :
    compare (encodeDatavalue a ++ s) (encodeDatavalue b ++ t) =
    (byteCmp a b).then (compare s t) := by
  rw [encodeDatavalue_eq_cons, encodeDatavalue_eq_cons, cons_append, cons_append]
  by_cases htag : tagOf a = tagOf b
  · -- equal tags leave the comparison to the payloads
    have hv := variant_eq_of_tagOf_eq htag
    rw [htag, compare_cons_self]
    cases a with
    | null | bot => cases b <;> first | (cases hv; done) | rfl
    | bool x =>
      cases b with
      | bool y => cases x <;> cases y <;> first | rfl | cases htag
      | _ => cases hv
    | list l =>
      cases b with
      | list m =>
        rw [DataValue.WF] at ha hb
        show compare ((encodeTuple l ++ [initTag]) ++ s) ((encodeTuple m ++ [initTag]) ++ t) =
          (byteCmpList l m).then _
        rw [append_assoc, append_assoc, singleton_append, singleton_append,
          compare_encodeTuple_init l m ha hb]
      | _ => cases hv
    | set l =>
      cases b with
      | set m =>
        rw [DataValue.WF] at ha hb
        show compare ((encodeTuple l ++ [initTag]) ++ s) ((encodeTuple m ++ [initTag]) ++ t) =
          (byteCmpList l m).then _
        rw [append_assoc, append_assoc, singleton_append, singleton_append,
          compare_encodeTuple_init l m ha.1 hb.1]
      | _ => cases hv
    | num x => cases b <;> first | (cases hv; done) | exact compare_encodeNum x _ s t
    | str x | bytes x | regex x | json x =>
      cases b <;> first | (cases hv; done) | exact compare_encodeBytes x _ s t
    | uuid x => cases b <;> first | (cases hv; done) | exact compare_encodeUuid x _ s t
    | validity x => cases b <;> first | (cases hv; done) | exact compare_encodeValidity x _ s t
    | vec x => cases b <;> first | (cases hv; done) | exact compare_encodeVector ha hb s t
  · -- different tags decide
    have hne : compare (tagOf a) (tagOf b) ≠ .eq :=
      fun h => htag (Std.LawfulEqCmp.eq_of_compare h)
    rw [compare_cons_of_ne htag, byteCmp_of_tagOf_ne htag, then_of_ne hne]

theorem compare_encodeTuple_init (l m : List Value) (hl : DataValue.WFList l)
    (hm : DataValue.WFList m) (s t : Bytes) :
    compare (encodeTuple l ++ initTag :: s) (encodeTuple m ++ initTag :: t) =
    (byteCmpList l m).then (compare s t) := by
  match l, m with
  | [], [] => simp [encodeTuple, byteCmpList]
  | [], b :: m =>
    -- the shorter list is closed by a byte below every tag
    have hlt := initTag_lt_tagOf b
    rw [encodeTuple, encodeTuple, encodeDatavalue_eq_cons, nil_append, cons_append,
      cons_append, compare_cons_of_ne (UInt8.ne_of_lt hlt), byteCmpList,
      Std.compare_eq_lt.2 hlt]
    rfl
  | a :: l, [] =>
    have hlt := initTag_lt_tagOf a
    rw [encodeTuple, encodeTuple, encodeDatavalue_eq_cons, nil_append, cons_append,
      cons_append, compare_cons_of_ne (UInt8.ne_of_lt hlt).symm, byteCmpList,
      Std.compare_eq_gt.2 hlt]
    rfl
  | a :: l, b :: m =>
    rw [DataValue.WFList] at hl hm
    rw [encodeTuple, encodeTuple, append_assoc, append_assoc,
      compare_encodeDatavalue a b hl.1 hm.1, compare_encodeTuple_init l m hl.2 hm.2, byteCmpList,
      Ordering.then_assoc]

end

theorem compare_encodeTuple {l m : List Value} (hl : DataValue.WFList l)
    (hm : DataValue.WFList m) : compare (encodeTuple l) (encodeTuple m) = byteCmpList l m := by
  induction l generalizing m with
  | nil =>
    cases m with
    | nil => rfl
    | cons b m => rw [encodeTuple, encodeTuple, encodeDatavalue_eq_cons]; rfl
  | cons a l ih =>
    cases m with
    | nil => rw [encodeTuple, encodeTuple, encodeDatavalue_eq_cons]; rfl
    | cons b m =>
      rw [DataValue.WFList] at hl hm
      rw [encodeTuple, encodeTuple, compare_encodeDatavalue a b hl.1 hm.1, ih hl.2 hm.2, byteCmpList]

end Memcmp

/-! ### Agreement -/

namespace DataValue

/-- Values of two variants whose tags are in the other order: an array next to a number, a text, a
byte string, a uuid, a regex, a list or a set, and a JSON value next to a validity. -/
def Misplaced (a b : Value) : Prop :=
  (a.variant = 9 ∧ 2 ≤ b.variant ∧ b.variant ≤ 8) ∨
  (b.variant = 9 ∧ 2 ≤ a.variant ∧ a.variant ≤ 8) ∨
  (a.variant = 10 ∧ b.variant = 11) ∨ (a.variant = 11 ∧ b.variant = 10)

mutual

/-- **Keys in the order of the values**: the variants are not misplaced, arrays are written in their
order, and so are, column by column, the elements of lists and sets. -/
def OrderSafe : Value → Value → Prop
  | .list a, .list b => OrderSafeList a b
  | .set a, .set b => OrderSafeList a b
  | .vec a, .vec b => a.Safe b
  | a, b => ¬ Misplaced a b

/-- The first column whose bytes differ decides. If the values are equal all the same, which is
between arrays only, the columns behind it have to compare as these bytes. -/
def OrderSafeList : List Value → List Value → Prop
  | a :: as, b :: bs =>
    if byteCmp a b = .eq then OrderSafeList as bs
    else if cmp a b = .eq then cmpList as bs = byteCmp a b
    else OrderSafe a b
  | _, _ => True

end

end DataValue

namespace Memcmp

open DataValue

/-- The tags of two values of different variants, numbered by variant. Both tags of the booleans
come before the next one. -/
def tagRank (variant : Nat) : Nat := [1, 2, 5, 6, 7, 8, 9, 10, 11, 4, 13, 12, 255].getD variant 0

theorem tagOf_toNat : v.variant < 13 ∧ ∃ d < 2, (v.variant ≠ 1 → d = 0) ∧
    (tagOf v).toNat = tagRank v.variant + d := by
  cases v with
  | bool b =>
    cases b
    · exact ⟨by decide, 0, by decide, by decide, rfl⟩
    · exact ⟨by decide, 1, by decide, fun h => absurd rfl h, rfl⟩
  | _ => exact ⟨by simp [variant], 0, by decide, fun _ => rfl, rfl⟩

theorem compare_tagRank_iff : ∀ (i j : Fin 13) (d e : Fin 2), i ≠ j ∧
    (i.1 ≠ 1 → d.1 = 0) ∧ (j.1 ≠ 1 → e.1 = 0) →
      (compare (tagRank i + d) (tagRank j + e) = compare i.1 j.1 ↔
      ¬ ((i.1 = 9 ∧ 2 ≤ j.1 ∧ j.1 ≤ 8) ∨ (j.1 = 9 ∧ 2 ≤ i.1 ∧ i.1 ≤ 8) ∨
          (i.1 = 10 ∧ j.1 = 11) ∨ (i.1 = 11 ∧ j.1 = 10))) := by
  decide +kernel

variable {a b : Value}

theorem byteCmp_eq_cmp_iff_of_variant_ne (h : a.variant ≠ b.variant) :
    byteCmp a b = cmp a b ↔ ¬ Misplaced a b := by
  have htag : tagOf a ≠ tagOf b := fun heq => h (variant_eq_of_tagOf_eq heq)
  obtain ⟨ha, d, hd, hd1, hda⟩ := tagOf_toNat a
  obtain ⟨hb, e, he, he1, heb⟩ := tagOf_toNat b
  have hcmp : compare (tagOf a) (tagOf b) = compare (tagOf a).toNat (tagOf b).toNat := by
    simp only [compare, compareOfLessAndEq, UInt8.lt_iff_toNat_lt, UInt8.toNat_inj]
  rw [byteCmp_of_tagOf_ne htag, cmp_of_variant_ne h, hcmp, hda, heb]
  exact compare_tagRank_iff ⟨_, ha⟩ ⟨_, hb⟩ ⟨d, hd⟩ ⟨e, he⟩ ⟨fun h' => h (Fin.mk.inj h'), hd1, he1⟩

theorem orderSafe_of_variant_ne (h : a.variant ≠ b.variant) : OrderSafe a b ↔ ¬ Misplaced a b := by
  unfold OrderSafe
  split <;> first | rfl | exact absurd rfl h

theorem not_misplaced_of_variant_eq (h : a.variant = b.variant) : ¬ Misplaced a b := by
  unfold Misplaced
  omega

theorem lanesCmp_self (w : LaneWidth) (l : List Lane) : lanesCmp w l l = .eq := by
  induction l with
  | nil => rfl
  | cons e l ih =>
    have he : e.cmp w e = .eq := by
      unfold Lane.cmp orderedCmp
      cases e.isNan w <;> simp
    rw [lanesCmp, he, ih]
    rfl

theorem vectorCmp_self (v : Vector) : Vector.cmp v v = .eq := by
  cases v with
  | f32 l =>
    have h := Vector.foldr_then_eq_lanesCmp laneWidth32 F32.lane l l
    rw [lanesCmp_self] at h
    rw [Vector.cmp, Ordering.then_eq_eq]
    exact ⟨Std.ReflCmp.compare_self, h⟩
  | f64 l =>
    have h := Vector.foldr_then_eq_lanesCmp laneWidth64 F64.lane l l
    rw [lanesCmp_self] at h
    rw [Vector.cmp, Ordering.then_eq_eq]
    exact ⟨Std.ReflCmp.compare_self, h⟩

mutual

theorem valueCmp_self (v : Value) : cmp v v = .eq := by
  cases v with
  | null => rfl
  | bot => rfl
  | list l | set l => rw [DataValue.cmp]; exact valueCmpList_self l
  | vec x => rw [DataValue.cmp]; exact vectorCmp_self x
  | _ x => rw [DataValue.cmp]; exact Std.ReflCmp.compare_self

theorem valueCmpList_self (l : List Value) : cmpList l l = .eq := by
  match l with
  | [] => rfl
  | v :: l => rw [cmpList, valueCmp_self v, valueCmpList_self l]; rfl

end

theorem cmp_eq_of_byteCmp_eq (ha : WF a) (hb : WF b) (h : byteCmp a b = .eq) : cmp a b = .eq := by
  have hbytes := compare_encodeDatavalue a b ha hb [] []
  rw [h, append_nil, append_nil] at hbytes
  have heq : encodeDatavalue a = encodeDatavalue b := Std.LawfulEqCmp.eq_of_compare hbytes
  have hdec := decodeFromKey_encode ha []
  rw [heq, decodeFromKey_encode hb, Option.some.injEq, Prod.mk.injEq] at hdec
  rw [hdec.1]
  exact valueCmp_self a

mutual

theorem byteCmp_eq_cmp_iff (a b : Value) (ha : WF a) (hb : WF b) :
    byteCmp a b = cmp a b ↔ OrderSafe a b := by
  by_cases hv : a.variant = b.variant
  · have hplaced := not_misplaced_of_variant_eq hv
    cases a with
    | list l =>
      cases b with
      | list m =>
        rw [WF] at ha hb
        rw [byteCmp, DataValue.cmp, OrderSafe]
        exact byteCmpList_eq_cmpList_iff l m ha hb
      | _ => cases hv
    | set l =>
      cases b with
      | set m =>
        rw [WF] at ha hb
        rw [byteCmp, DataValue.cmp, OrderSafe]
        exact byteCmpList_eq_cmpList_iff l m ha.1 hb.1
      | _ => cases hv
    | vec x =>
      cases b with
      | vec y =>
        rw [byteCmp, DataValue.cmp, OrderSafe]
        exact x.bitCmp_eq_cmp_iff y
      | _ => cases hv
    | bool x =>
      cases b with
      | bool y =>
        exact iff_of_true (by cases x <;> cases y <;> rfl) (by unfold OrderSafe; exact hplaced)
      | _ => cases hv
    | null | bot =>
      cases b <;> first | exact iff_of_true rfl (by unfold OrderSafe; exact hplaced) | cases hv
    | _ =>
      cases b <;> first
        | (cases hv; done)
        | exact iff_of_true (by rw [byteCmp, DataValue.cmp]) (by unfold OrderSafe; exact hplaced)
  · rw [byteCmp_eq_cmp_iff_of_variant_ne hv, orderSafe_of_variant_ne hv]

theorem byteCmpList_eq_cmpList_iff (l m : List Value) (hl : WFList l) (hm : WFList m) :
    byteCmpList l m = cmpList l m ↔ OrderSafeList l m := by
  match l, m with
  | [], [] | [], _ :: _ | _ :: _, [] => simp [byteCmpList, cmpList, OrderSafeList]
  | a :: l, b :: m =>
    rw [WFList] at hl hm
    rw [byteCmpList, cmpList, OrderSafeList, then_eq_then_iff (cmp_eq_of_byteCmp_eq hl.1 hm.1),
      byteCmpList_eq_cmpList_iff l m hl.2 hm.2]
    by_cases hbytes : byteCmp a b = .eq
    · rw [if_pos hbytes, if_pos hbytes]
    · rw [if_neg hbytes, if_neg hbytes]
      by_cases hcmp : cmp a b = .eq
      · rw [if_pos hcmp, if_pos hcmp]
      · rw [if_neg hcmp, if_neg hcmp, byteCmp_eq_cmp_iff a b hl.1 hm.1]

end

/-- Two keys are ordered as `o` says, which stands for the comparison of what they encode. -/
def KeysAgree (x y : Bytes) (o : Ordering) : Prop := (x < y ↔ o = .lt) ∧ (x = y ↔ o = .eq)

instance (x y : Bytes) (o : Ordering) : Decidable (KeysAgree x y o) := by
  unfold KeysAgree
  infer_instance

/-- The keys of two values are ordered as the values. -/
def ValueKeysAgree (a b : Value) : Prop :=
  KeysAgree (encodeDatavalue a) (encodeDatavalue b) (DataValue.cmp a b)

instance (a b : Value) : Decidable (ValueKeysAgree a b) := by
  unfold ValueKeysAgree
  infer_instance

/-- The keys of two rows of relation `rel` are ordered as the rows. -/
def RowKeysAgree (rel : RelationId) (t u : List Value) : Prop :=
  KeysAgree (encodeAsKey t rel) (encodeAsKey u rel) (DataValue.cmpList t u)

theorem keysAgree_iff {x y : Bytes} {o : Ordering} : KeysAgree x y o ↔ compare x y = o := by
  have heq : x = y ↔ compare x y = .eq := Std.LawfulEqCmp.compare_eq_iff_eq.symm
  rw [KeysAgree, ← compare_bytes_eq_lt_iff, heq]
  cases compare x y <;> cases o <;> simp

/-- **Where the order of keys is the order of values.** -/
theorem keyOrder_agrees_iff {a b : Value} (ha : WF a) (hb : WF b) (rel : RelationId)
    {t u : List Value} (ht : WFList t) (hu : WFList u) :
    (ValueKeysAgree a b ↔ OrderSafe a b) ∧ (RowKeysAgree rel t u ↔ OrderSafeList t u) := by
  constructor
  · have hbytes := compare_encodeDatavalue a b ha hb [] []
    simp only [append_nil] at hbytes
    rw [ValueKeysAgree, keysAgree_iff, hbytes, ← byteCmp_eq_cmp_iff a b ha hb]
    simp
  · have hself : compare (beBytes 8 rel.id) (beBytes 8 rel.id) = .eq := Std.ReflCmp.compare_self
    rw [RowKeysAgree, keysAgree_iff, encodeAsKey, encodeAsKey, compare_append_of_length_eq rfl,
      hself, Ordering.eq_then, compare_encodeTuple ht hu, byteCmpList_eq_cmpList_iff t u ht hu]

/-- A number and a text are in the order of their keys, and so are two rows that begin with them. -/
theorem number_before_text : ValueKeysAgree (.num (.int 1)) (.str [0x61]) ∧
      RowKeysAgree ⟨1, by decide⟩ [.num (.int 1), .null] [.str [0x61]] := by
  have hone : WF (.num (.int 1) : Value) := by simp [WF]
  have htext : WF (.str [0x61] : Value) := by simp [WF]
  have hrow : WFList [(.num (.int 1) : Value), .null] := by simp [WF, WFList]
  have hrow' : WFList [(.str [0x61] : Value)] := by simp [WF, WFList]
  obtain ⟨hvalues, hrows⟩ := keyOrder_agrees_iff hone htext ⟨1, by decide⟩ hrow hrow'
  constructor
  · exact hvalues.2 (by simp [OrderSafe, Misplaced, variant])
  · refine hrows.2 ?_
    have hbytes : byteCmp (.num (.int 1)) (.str [0x61]) = .lt := rfl
    have hcmp : DataValue.cmp (.num (.int 1)) (.str [0x61] : Value) = .lt := rfl
    simp [OrderSafeList, hbytes, hcmp, OrderSafe, Misplaced, variant]

/-- An array sorts behind a number and its key before it; `-1.0` sorts before `1.0` in an array and
its key behind it; and the two zeros are equal and have different keys. -/
theorem array_keys_out_of_order : ¬ ValueKeysAgree (.num (.int 1)) (.vec (.f32 [⟨0x3F800000⟩])) ∧
      ¬ ValueKeysAgree (.vec (.f32 [⟨0xBF800000⟩])) (.vec (.f32 [⟨0x3F800000⟩])) ∧
      ¬ ValueKeysAgree (.vec (.f32 [⟨0x80000000⟩])) (.vec (.f32 [⟨0⟩])) := by
  decide +kernel

/-- **Texts as keys**: encodings are ordered as the texts, with anything behind them; none begins
another; and a text is read back with what follows it left over. -/
theorem encodeBytes_faithful (a b s t : Bytes) : (encodeBytes a < encodeBytes b ↔ a < b) ∧
    (encodeBytes a ++ s < encodeBytes b ++ t ↔ a < b ∨ a = b ∧ s < t) ∧
    (encodeBytes a <+: encodeBytes b ↔ a = b) ∧
    decodeBytes (encodeBytes a ++ s).length (encodeBytes a ++ s) = some (a, s) := by
  have hlt : ∀ s t, encodeBytes a ++ s < encodeBytes b ++ t ↔ a < b ∨ a = b ∧ s < t := by
    intro s t
    rw [← compare_bytes_eq_lt_iff, compare_encodeBytes, Ordering.then_eq_lt,
      compare_bytes_eq_lt_iff, compare_bytes_eq_lt_iff,
      Std.LawfulEqCmp.compare_eq_iff_eq]
  refine ⟨?_, hlt s t, ⟨?_, fun h => h ▸ prefix_rfl⟩, decodeText a s⟩
  · simpa using hlt [] []
  · rintro ⟨u, hu⟩
    have hb := decodeText b []
    rw [append_nil, ← hu, decodeText] at hb
    exact (Prod.mk.inj (Option.some.inj hb)).1

/-- **Numbers as keys**: the comparison is a total order in which only equal numbers, bit by bit,
are equal; encodings follow it, with anything behind them; and a number is read back with what
follows it left over. -/
theorem encodeNum_faithful : (∀ a b : Num, a.cmp b = (b.cmp a).swap ∧ (a.cmp b = .eq ↔ a = b)) ∧
    (∀ a b c : Num, (a.cmp b).isLE → (b.cmp c).isLE → (a.cmp c).isLE) ∧
    (∀ (a b : Num) (s t : Bytes), encodeNum a ++ s < encodeNum b ++ t ↔
      a.cmp b = .lt ∨ a = b ∧ s < t) ∧
    ∀ (a : Num) (t : Bytes), decodeNum (encodeNum a ++ t) = some (a, t) := by
  have heq : ∀ a b : Num, compare a b = .eq ↔ a = b := fun a b => Std.LawfulEqCmp.compare_eq_iff_eq
  refine ⟨fun a b => ⟨Std.OrientedOrd.eq_swap (a := a), heq a b⟩, fun a b c =>
    Std.TransOrd.isLE_trans (a := a), fun a b s t => ?_,
    decodeNum_encodeNum⟩
  rw [← compare_bytes_eq_lt_iff, compare_encodeNum, Ordering.then_eq_lt, compare_bytes_eq_lt_iff, heq]
  rfl

end Memcmp

end Retia
