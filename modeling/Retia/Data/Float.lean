import Mathlib.Data.Nat.Log
import Mathlib.Data.Nat.Size
import Mathlib.Tactic.Linarith
import Mathlib.Tactic.Ring
import Mathlib.Order.Defs.LinearOrder

/-!
# Machine floats by their bit patterns

`data/value.rs` keeps numbers as `i64` or `f64`, compares floats with `f64::total_cmp` and with the
IEEE operators, and converts between the two kinds with `as`. None of this needs float arithmetic,
so a float is modelled by its bit pattern and the operations are read off its sign and magnitude:

* `F64.totalCmp` — the IEEE total order, by sign and then by magnitude;
* `F64.lt`, `F64.le`, `F64.feq` — the operators `<`, `<=`, `==`, false as soon as one side is a NaN;
* `F64.ofInt64` — `i as f64`, rounding to nearest with ties to even (`natRound`);
* `F64.toInt64` — `f as i64`, truncating and saturating, a NaN going to `0`;
* `F64.isIntegral` — the test `f.round() == f` of `Num::get_int`.

The two facts everything downstream uses are `natRound_mono` (the conversion from integers is
monotone, so mixed comparisons are transitive) and `F64.toInt64_ofInt64` (it is exact below `2^53`,
so an exact integer survives the key encoding).
-/

namespace Retia

/-- An `f64`, by its bit pattern. -/
structure F64 where
  bits : BitVec 64
deriving DecidableEq

/-- An `f32`, by its bit pattern. -/
structure F32 where
  bits : BitVec 32
deriving DecidableEq

namespace F64

/-- `is_sign_negative`: the sign bit. -/
def sign (f : F64) : Bool := f.bits.msb

/-- The bit pattern without the sign: exponent and fraction. -/
def mag (f : F64) : Nat := f.bits.toNat % 2 ^ 63

def ofMag (s : Bool) (m : Nat) : F64 :=
  ⟨BitVec.ofNat 64 (if s then 2 ^ 63 + m % 2 ^ 63 else m % 2 ^ 63)⟩

/-- Magnitude of the infinities. Larger magnitudes are the NaNs. -/
def infMag : Nat := 2047 * 2 ^ 52

def isNan (f : F64) : Bool := infMag < f.mag

/-- `f64::INFINITY`. -/
def infinity : F64 := ofMag false infMag

/-- Position in the total order: `-NaN < -inf < … < -0 < +0 < … < +inf < NaN`. -/
def totalKey (f : F64) : Int := if f.sign then -1 - (f.mag : Int) else f.mag

/-- `f64::total_cmp`. -/
def totalCmp (l r : F64) : Ordering := compare l.totalKey r.totalKey

/-- Position among the numbers: as `totalKey`, with the two zeros identified. -/
def numKey (f : F64) : Int := if f.sign then -(f.mag : Int) else f.mag

/-- `l < r`. -/
def lt (l r : F64) : Bool := !l.isNan && !r.isNan && l.numKey < r.numKey

/-- `l <= r`. -/
def le (l r : F64) : Bool := !l.isNan && !r.isNan && l.numKey ≤ r.numKey

/-- `l == r`. -/
def feq (l r : F64) : Bool := !l.isNan && !r.isNan && l.numKey = r.numKey

end F64

/-! ### Conversion from integers -/

/-- The significand of the float nearest to `n`, ties to even: `n` shifted so that its leading bit
stands at position 52, with the bits that fall off rounded into it. -/
def roundSignificand (n : Nat) : Nat :=
  let e := Nat.log 2 n
  if e ≤ 52 then n * 2 ^ (52 - e)
  else
    let s := e - 52
    let q := n / 2 ^ s
    let r := n % 2 ^ s
    if 2 ^ (s - 1) < r ∨ (r = 2 ^ (s - 1) ∧ q % 2 = 1) then q + 1 else q

/-- Magnitude bits of the float nearest to `n`. The leading one of the significand, and a carry into
bit 53, add to the exponent field by themselves. -/
def natRound (n : Nat) : Nat :=
  if n = 0 then 0 else (Nat.log 2 n + 1022) * 2 ^ 52 + roundSignificand n

/-- `i as f64`. -/
def F64.ofInt64 (i : Int64) : F64 := F64.ofMag (i.toInt < 0) (natRound i.toInt.natAbs)

/-! ### Conversion to integers -/

/-- Integer part of the float with magnitude `m`. -/
def magTrunc (m : Nat) : Nat :=
  let e := m / 2 ^ 52
  let q := 2 ^ 52 + m % 2 ^ 52
  if e < 1023 then 0 else if e ≤ 1075 then q / 2 ^ (1075 - e) else q * 2 ^ (e - 1075)

/-- `f as i64`: truncation, saturating at the ends of the range, `0` for a NaN. -/
def F64.toInt64 (f : F64) : Int64 :=
  if f.isNan then 0
  else
    let t : Int := if f.sign then -(magTrunc f.mag : Int) else magTrunc f.mag
    if t < -2 ^ 63 then Int64.minValue
    else if 2 ^ 63 ≤ t then Int64.maxValue
    else Int64.ofInt t

/-- `f.round() == f`: the float has no fractional part. Infinities have none, a NaN fails. -/
def F64.isIntegral (f : F64) : Bool :=
  let e := f.mag / 2 ^ 52
  let q := 2 ^ 52 + f.mag % 2 ^ 52
  if f.isNan then false
  else if f.mag = 0 then true
  else if e < 1023 then false
  else if e ≤ 1075 then q % 2 ^ (1075 - e) = 0
  else true

/-! ### The conversion from integers is monotone -/

theorem roundSignificand_bounds {n : Nat} (hn : n ≠ 0) :
    2 ^ 52 ≤ roundSignificand n ∧ roundSignificand n ≤ 2 ^ 53 := by
  have hlo : 2 ^ Nat.log 2 n ≤ n := Nat.pow_log_le_self 2 hn
  have hhi : n < 2 ^ (Nat.log 2 n + 1) := Nat.lt_pow_succ_log_self (by decide) n
  unfold roundSignificand
  simp only
  split
  case isTrue he =>
    have h52 : 2 ^ Nat.log 2 n * 2 ^ (52 - Nat.log 2 n) = 2 ^ 52 := by
      rw [← pow_add]; congr 1; omega
    have h53 : 2 ^ (Nat.log 2 n + 1) * 2 ^ (52 - Nat.log 2 n) = 2 ^ 53 := by
      rw [← pow_add]; congr 1; omega
    exact ⟨h52 ▸ Nat.mul_le_mul_right _ hlo, h53 ▸ Nat.mul_le_mul_right _ hhi.le⟩
  case isFalse he =>
    have h52 : 2 ^ 52 * 2 ^ (Nat.log 2 n - 52) = 2 ^ Nat.log 2 n := by
      rw [← pow_add]; congr 1; omega
    have h53 : 2 ^ 53 * 2 ^ (Nat.log 2 n - 52) = 2 ^ (Nat.log 2 n + 1) := by
      rw [← pow_add]; congr 1; omega
    have hpos : 0 < 2 ^ (Nat.log 2 n - 52) := Nat.pow_pos (by decide)
    have hq₁ : 2 ^ 52 ≤ n / 2 ^ (Nat.log 2 n - 52) := by
      rwa [Nat.le_div_iff_mul_le hpos, h52]
    have hq₂ : n / 2 ^ (Nat.log 2 n - 52) < 2 ^ 53 := by
      rwa [Nat.div_lt_iff_lt_mul hpos, h53]
    split <;> omega

variable {m n : Nat}

theorem roundSignificand_mono_of_log_eq (hlog : Nat.log 2 m = Nat.log 2 n) (hmn : m ≤ n) :
    roundSignificand m ≤ roundSignificand n := by
  unfold roundSignificand
  simp only [hlog]
  split
  · exact Nat.mul_le_mul_right _ hmn
  · generalize Nat.log 2 n - 52 = s
    have hq : m / 2 ^ s ≤ n / 2 ^ s := Nat.div_le_div_right hmn
    rcases hq.lt_or_eq with hlt | heq
    · split <;> split <;> omega
    · have hm := Nat.div_add_mod m (2 ^ s)
      have hn := Nat.div_add_mod n (2 ^ s)
      rw [heq] at hm ⊢
      split <;> split <;> omega

theorem natRound_mono (hmn : m ≤ n) : natRound m ≤ natRound n := by
  unfold natRound
  by_cases hm : m = 0
  · simp [hm]
  have hn : n ≠ 0 := by omega
  rw [if_neg hm, if_neg hn]
  have hbm := roundSignificand_bounds hm
  have hbn := roundSignificand_bounds hn
  rcases (Nat.log_mono_right (b := 2) hmn).lt_or_eq with hlt | heq
  · omega
  · have := roundSignificand_mono_of_log_eq heq hmn
    rw [heq]
    omega

theorem natRound_lt_infMag {n : Nat} (hn : n ≤ 2 ^ 63) : natRound n < F64.infMag := by
  unfold natRound F64.infMag
  by_cases h0 : n = 0
  · simp [h0]
  have hlog : Nat.log 2 n ≤ 63 := by
    calc Nat.log 2 n ≤ Nat.log 2 (2 ^ 63) := Nat.log_mono_right hn
      _ = 63 := Nat.log_pow (by decide) 63
  have := roundSignificand_bounds h0
  rw [if_neg h0]
  omega

namespace F64

@[simp] theorem sign_ofMag (s : Bool) (m : Nat) : (ofMag s m).sign = s := by
  have : m % 2 ^ 63 < 2 ^ 63 := Nat.mod_lt _ (by decide)
  rw [sign, ofMag, BitVec.msb_eq_decide]
  cases s <;> simp <;> omega

@[simp] theorem mag_ofMag (s : Bool) (m : Nat) : (ofMag s m).mag = m % 2 ^ 63 := by
  have : m % 2 ^ 63 < 2 ^ 63 := Nat.mod_lt _ (by decide)
  rw [mag, ofMag]
  cases s <;> simp

variable {f g : F64}

theorem lt_iff : lt f g = true ↔ f.isNan = false ∧ g.isNan = false ∧ f.numKey < g.numKey := by
  simp [lt, and_assoc]

theorem le_iff : le f g = true ↔ f.isNan = false ∧ g.isNan = false ∧ f.numKey ≤ g.numKey := by
  simp [le, and_assoc]

theorem lt_trans {f g h : F64} (hfg : lt f g = true) (hgh : lt g h = true) : lt f h = true := by
  rw [lt_iff] at *
  exact ⟨hfg.1, hgh.2.1, hfg.2.2.trans hgh.2.2⟩

theorem lt_of_lt_of_le {f g h : F64} (hfg : lt f g = true) (hgh : le g h = true) :
    lt f h = true := by
  rw [lt_iff] at hfg ⊢
  rw [le_iff] at hgh
  exact ⟨hfg.1, hgh.2.1, hfg.2.2.trans_le hgh.2.2⟩

theorem lt_of_le_of_lt {f g h : F64} (hfg : le f g = true) (hgh : lt g h = true) :
    lt f h = true := by
  rw [le_iff] at hfg
  rw [lt_iff] at hgh ⊢
  exact ⟨hfg.1, hgh.2.1, hfg.2.2.trans_lt hgh.2.2⟩

theorem le_trans {f g h : F64} (hfg : le f g = true) (hgh : le g h = true) : le f h = true := by
  rw [le_iff] at *
  exact ⟨hfg.1, hgh.2.1, hfg.2.2.trans hgh.2.2⟩

theorem le_of_lt (h : lt f g = true) : le f g = true := by
  rw [lt_iff] at h
  exact le_iff.2 ⟨h.1, h.2.1, h.2.2.le⟩

theorem not_le_of_lt (h : lt f g = true) : le g f = false := by
  rw [lt_iff] at h
  rw [← Bool.not_eq_true, le_iff]
  exact fun hle => absurd hle.2.2 (by omega)

theorem not_lt_of_le (h : le f g = true) : lt g f = false := by
  rw [le_iff] at h
  rw [← Bool.not_eq_true, lt_iff]
  exact fun hlt => absurd hlt.2.2 (by omega)

theorem lt_of_not_le (hf : f.isNan = false) (hg : g.isNan = false) (h : le f g = false) :
    lt g f = true := by
  rw [← Bool.not_eq_true, le_iff] at h
  rw [lt_iff]
  exact ⟨hg, hf, lt_of_not_ge fun hle => h ⟨hf, hg, hle⟩⟩

theorem le_of_not_lt (hf : f.isNan = false) (hg : g.isNan = false) (h : lt f g = false) :
    le g f = true := by
  rw [← Bool.not_eq_true, lt_iff] at h
  rw [le_iff]
  exact ⟨hg, hf, le_of_not_gt fun hlt => h ⟨hf, hg, hlt⟩⟩

theorem not_le_of_isNan_left (hf : f.isNan = true) : le f g = false := by
  simp [le, hf]

theorem not_le_of_isNan_right (hg : g.isNan = true) : le f g = false := by
  simp [le, hg]

theorem isNan_infinity : infinity.isNan = false := by decide

theorem mag_lt (f : F64) : f.mag < 2 ^ 63 := Nat.mod_lt _ (by decide)

theorem bits_toNat (f : F64) : f.bits.toNat = (if f.sign then 2 ^ 63 else 0) + f.mag := by
  have := f.bits.isLt
  rw [sign, mag, BitVec.msb_eq_decide]
  split <;> simp_all <;> omega

theorem ext_sign_mag (hs : f.sign = g.sign) (hm : f.mag = g.mag) : f = g := by
  have : f.bits = g.bits := by
    apply BitVec.eq_of_toNat_eq
    rw [bits_toNat, bits_toNat, hs, hm]
  cases f; cases g; simp_all

theorem totalKey_injective (h : f.totalKey = g.totalKey) : f = g := by
  unfold totalKey at h
  by_cases hf : f.sign <;> by_cases hg : g.sign <;> simp only [hf, hg] at h
  · exact ext_sign_mag (by rw [hf, hg]) (by simp at h; omega)
  · simp at h; omega
  · simp at h; omega
  · exact ext_sign_mag (by simp_all) (by simp at h; omega)

theorem natRound_natAbs_lt (i : Int64) : natRound i.toInt.natAbs < infMag :=
  natRound_lt_infMag (by have := i.le_toInt; have := i.toInt_lt; omega)

theorem totalKey_ofInt64_mono {i j : Int64} (h : i.toInt ≤ j.toInt) :
    (ofInt64 i).totalKey ≤ (ofInt64 j).totalKey := by
  have hlt : ∀ k : Int64, natRound k.toInt.natAbs < 2 ^ 63 :=
    fun k => (natRound_natAbs_lt k).trans (by decide)
  unfold totalKey ofInt64
  simp only [sign_ofMag, mag_ofMag, decide_eq_true_eq, Nat.mod_eq_of_lt (hlt _)]
  by_cases hi : i.toInt < 0 <;> by_cases hj : j.toInt < 0 <;> simp only [hi, hj, if_true, if_false]
  · have := natRound_mono (m := j.toInt.natAbs) (n := i.toInt.natAbs) (by omega)
    omega
  · omega
  · omega
  · have := natRound_mono (m := i.toInt.natAbs) (n := j.toInt.natAbs) (by omega)
    omega

end F64

/-! ### Exact integers -/

theorem magTrunc_natRound {n : Nat} (hn : n < 2 ^ 53) : magTrunc (natRound n) = n := by
  by_cases h0 : n = 0
  · subst h0; decide
  have hlo : 2 ^ Nat.log 2 n ≤ n := Nat.pow_log_le_self 2 h0
  have hhi : n < 2 ^ (Nat.log 2 n + 1) := Nat.lt_pow_succ_log_self (by decide) n
  have he : Nat.log 2 n ≤ 52 := Nat.lt_succ_iff.1 (Nat.log_lt_of_lt_pow h0 hn)
  have hsig : roundSignificand n = n * 2 ^ (52 - Nat.log 2 n) := by
    simp [roundSignificand, he]
  have hlt : n * 2 ^ (52 - Nat.log 2 n) < 2 ^ 53 := by
    calc n * 2 ^ (52 - Nat.log 2 n)
        < 2 ^ (Nat.log 2 n + 1) * 2 ^ (52 - Nat.log 2 n) :=
          Nat.mul_lt_mul_of_pos_right hhi (Nat.pow_pos (by decide))
      _ = 2 ^ 53 := by rw [← pow_add]; congr 1; omega
  have hge := (roundSignificand_bounds h0).1
  rw [hsig] at hge
  have hround : natRound n = (Nat.log 2 n + 1022) * 2 ^ 52 + n * 2 ^ (52 - Nat.log 2 n) := by
    rw [natRound, if_neg h0, hsig]
  -- the exponent field, and the significand with its leading one
  have hexp : natRound n / 2 ^ 52 = Nat.log 2 n + 1023 := by omega
  have hq : 2 ^ 52 + natRound n % 2 ^ 52 = n * 2 ^ (52 - Nat.log 2 n) := by omega
  rw [magTrunc]
  simp only [hexp, hq]
  rw [if_neg (by omega), if_pos (by omega), show 1075 - (Nat.log 2 n + 1023) = 52 - Nat.log 2 n by
    omega, Nat.mul_div_cancel _ (Nat.pow_pos (by decide))]

theorem natRound_lt_of_exact (hm : m < 2 ^ 53) (hn : 2 ^ 53 ≤ n) : natRound m < natRound n := by
  have hbound : natRound (2 ^ 53) ≤ natRound n := natRound_mono hn
  have hle : natRound m ≤ natRound (2 ^ 53) := natRound_mono hm.le
  refine lt_of_le_of_ne (hle.trans hbound) fun heq => ?_
  -- equal magnitudes would be truncated to the same number
  have htrunc : magTrunc (natRound (2 ^ 53)) = 2 ^ 53 := by decide +kernel
  rw [show natRound (2 ^ 53) = natRound m by omega, magTrunc_natRound hm] at htrunc
  omega

namespace F64

theorem toInt64_ofInt64 {i : Int64} (h : i.toInt.natAbs < 2 ^ 53) : (ofInt64 i).toInt64 = i := by
  have hlt := natRound_natAbs_lt i
  have hmod : natRound i.toInt.natAbs % 2 ^ 63 = natRound i.toInt.natAbs :=
    Nat.mod_eq_of_lt (hlt.trans (by decide))
  have hnan : (ofInt64 i).isNan = false := by
    simp only [isNan, ofInt64, mag_ofMag, hmod, decide_eq_false_iff_not]
    omega
  have ht : (if (ofInt64 i).sign then -(magTrunc (ofInt64 i).mag : Int)
      else magTrunc (ofInt64 i).mag) = i.toInt := by
    simp only [ofInt64, sign_ofMag, mag_ofMag, hmod, magTrunc_natRound h, decide_eq_true_eq]
    split <;> omega
  rw [toInt64, hnan]
  simp only [Bool.false_eq_true, ↓reduceIte, ht]
  rw [if_neg (by have := i.le_toInt; omega), if_neg (by have := i.toInt_lt; omega),
    Int64.ofInt_toInt]

end F64

/-! ### Floats without a fractional part -/

theorem natRound_magTrunc {m : Nat} (hlo : 1023 ≤ m / 2 ^ 52)
    (h : m / 2 ^ 52 ≤ 1075 → (2 ^ 52 + m % 2 ^ 52) % 2 ^ (1075 - m / 2 ^ 52) = 0) :
    natRound (magTrunc m) = m := by
  generalize he : m / 2 ^ 52 = e at hlo h
  generalize hq : 2 ^ 52 + m % 2 ^ 52 = q at h
  have hq₁ : 2 ^ 52 ≤ q := by omega
  have hq₂ : q < 2 ^ 53 := by omega
  have hm : (e - 1023 + 1022) * 2 ^ 52 + q = m := by
    rw [show e - 1023 + 1022 = e - 1 by omega]
    omega
  rw [magTrunc]
  simp only [he, hq]
  rw [if_neg (by omega)]
  by_cases h75 : e ≤ 1075
  · -- the bits that fall off are zero
    obtain ⟨n, hn⟩ : 2 ^ (1075 - e) ∣ q := Nat.dvd_of_mod_eq_zero (h h75)
    have hpos : 0 < 2 ^ (1075 - e) := Nat.pow_pos (by decide)
    rw [if_pos h75, hn, Nat.mul_div_cancel_left _ hpos]
    have h52 : 2 ^ (e - 1023) * 2 ^ (1075 - e) = 2 ^ 52 :=
      (pow_add 2 _ _).symm.trans (congrArg (2 ^ ·) (by omega))
    have h53 : 2 ^ (e - 1023 + 1) * 2 ^ (1075 - e) = 2 ^ 53 :=
      (pow_add 2 _ _).symm.trans (congrArg (2 ^ ·) (by omega))
    have hlog : Nat.log 2 n = e - 1023 := by
      refine (Nat.log_eq_iff (Or.inr ⟨by decide, ?_⟩)).2 ⟨?_, ?_⟩
      · rintro rfl
        omega
      · exact Nat.le_of_mul_le_mul_right (by rw [h52, Nat.mul_comm]; omega) hpos
      · exact Nat.lt_of_mul_lt_mul_right (a := 2 ^ (1075 - e)) (by rw [h53, Nat.mul_comm]; omega)
    have hne : n ≠ 0 := by
      rintro rfl
      omega
    have hsig : roundSignificand n = q := by
      rw [roundSignificand]
      simp only [hlog]
      rw [if_pos (by omega), hn, Nat.mul_comm, show 52 - (e - 1023) = 1075 - e by omega]
    rw [natRound, if_neg hne, hlog, hsig, hm]
  · rw [if_neg h75]
    have hpos : 0 < 2 ^ (e - 1075) := Nat.pow_pos (by decide)
    have h52 : 2 ^ (e - 1023) = 2 ^ 52 * 2 ^ (e - 1075) :=
      Eq.trans (congrArg (2 ^ ·) (by omega)) (pow_add 2 _ _)
    have h53 : 2 ^ (e - 1023 + 1) = 2 ^ 53 * 2 ^ (e - 1075) :=
      Eq.trans (congrArg (2 ^ ·) (by omega)) (pow_add 2 _ _)
    have hne : q * 2 ^ (e - 1075) ≠ 0 := Nat.mul_ne_zero (by omega) hpos.ne'
    have hlog : Nat.log 2 (q * 2 ^ (e - 1075)) = e - 1023 := by
      refine (Nat.log_eq_iff (Or.inr ⟨by decide, hne⟩)).2 ⟨?_, ?_⟩
      · rw [h52]
        exact Nat.mul_le_mul_right _ hq₁
      · rw [h53]
        exact Nat.mul_lt_mul_of_pos_right hq₂ hpos
    have hsig : roundSignificand (q * 2 ^ (e - 1075)) = q := by
      rw [roundSignificand]
      simp only [hlog, show e - 1023 - 52 = e - 1075 by omega, Nat.mul_div_cancel _ hpos, Nat.mul_mod_left]
      have hhalf : 0 < 2 ^ (e - 1075 - 1) := Nat.pow_pos (by decide)
      rw [if_neg (by omega), if_neg (by omega)]
    rw [natRound, if_neg hne, hlog, hsig, hm]

theorem magTrunc_lt_iff {m : Nat} : magTrunc m < 2 ^ 63 ↔ m < 1086 * 2 ^ 52 := by
  have hq : m % 2 ^ 52 < 2 ^ 52 := Nat.mod_lt _ (by decide)
  have hm : m = 2 ^ 52 * (m / 2 ^ 52) + m % 2 ^ 52 := (Nat.div_add_mod m (2 ^ 52)).symm
  unfold magTrunc
  dsimp only
  split
  · constructor
    · intro _
      omega
    · intro _
      decide
  split
  · constructor
    · intro _
      omega
    · intro _
      exact (Nat.div_le_self _ _).trans_lt (by omega)
  · constructor
    · intro h
      by_contra hge
      have he : 11 ≤ m / 2 ^ 52 - 1075 := by omega
      have hpow : 2 ^ 11 ≤ 2 ^ (m / 2 ^ 52 - 1075) := Nat.pow_le_pow_right (by decide) he
      have : 2 ^ 52 * 2 ^ 11 ≤ (2 ^ 52 + m % 2 ^ 52) * 2 ^ (m / 2 ^ 52 - 1075) :=
        Nat.mul_le_mul (Nat.le_add_right _ _) hpow
      omega
    · intro h
      have he : m / 2 ^ 52 - 1075 ≤ 10 := by omega
      have hpow : 2 ^ (m / 2 ^ 52 - 1075) ≤ 2 ^ 10 := Nat.pow_le_pow_right (by decide) he
      calc (2 ^ 52 + m % 2 ^ 52) * 2 ^ (m / 2 ^ 52 - 1075)
          ≤ (2 ^ 52 + m % 2 ^ 52) * 2 ^ 10 := Nat.mul_le_mul_left _ hpow
        _ < 2 ^ 53 * 2 ^ 10 := by omega
        _ = 2 ^ 63 := by decide

namespace F64

/-- `-0.0`. -/
def negZero : F64 := ofMag true 0

/-- A float without a fractional part is what its integer is converted to, within the range of the
integers and apart from the negative zero. -/
theorem ofInt64_toInt64 {f : F64} (h : f.isIntegral = true) (hm : f.mag < 1086 * 2 ^ 52)
    (hz : f ≠ negZero) : ofInt64 f.toInt64 = f := by
  have hnan : f.isNan = false := by
    rw [isNan, infMag, decide_eq_false_iff_not]
    omega
  have hlt := magTrunc_lt_iff.2 hm
  have hround : natRound (magTrunc f.mag) = f.mag := by
    rw [isIntegral] at h
    simp only [hnan, Bool.false_eq_true, if_false] at h
    by_cases h0 : f.mag = 0
    · rw [h0]
      decide
    · rw [if_neg h0] at h
      split at h
      · cases h
      · rename_i h23
        refine natRound_magTrunc (by omega) fun h75 => ?_
        rw [if_pos h75] at h
        exact of_decide_eq_true h
  have htrunc : f.mag ≠ 0 → magTrunc f.mag ≠ 0 := by
    intro hne h0
    rw [h0] at hround
    exact hne hround.symm
  generalize ht : (if f.sign then -(magTrunc f.mag : Int) else magTrunc f.mag) = t
  have habs : t.natAbs = magTrunc f.mag := by
    rw [← ht]
    split <;> omega
  have hto : f.toInt64 = Int64.ofInt t := by
    rw [toInt64, hnan]
    simp only [Bool.false_eq_true, if_false, ht]
    rw [if_neg (by omega), if_neg (by omega)]
  have hint : f.toInt64.toInt = t := by
    rw [hto, Int64.toInt_ofInt_of_le (by omega) (by omega)]
  rw [ofInt64, hint, habs, hround]
  refine ext_sign_mag ?_ (by rw [mag_ofMag, Nat.mod_eq_of_lt f.mag_lt])
  rw [sign_ofMag]
  cases hs : f.sign with
  | false =>
    rw [hs] at ht
    simp only [Bool.false_eq_true, if_false] at ht
    simp only [decide_eq_false_iff_not]
    omega
  | true =>
    rw [hs] at ht
    simp only [if_true] at ht
    have hne : f.mag ≠ 0 := by
      intro h0
      exact hz (ext_sign_mag (by rw [hs, negZero, sign_ofMag])
        (by rw [h0, negZero, mag_ofMag, Nat.zero_mod]))
    have := htrunc hne
    simp only [decide_eq_true_eq]
    omega

/-! ### Two orders on floats -/

theorem mag_ofInt64 (i : Int64) : (ofInt64 i).mag = natRound i.toInt.natAbs := by
  rw [ofInt64, mag_ofMag, Nat.mod_eq_of_lt ((natRound_natAbs_lt i).trans (by decide))]

theorem ofInt64_ne_negZero (i : Int64) : ofInt64 i ≠ negZero := by
  intro h
  have hsign := congrArg sign h
  have hmag := congrArg mag h
  rw [ofInt64, negZero, sign_ofMag, sign_ofMag, decide_eq_true_eq] at hsign
  rw [mag_ofInt64, negZero, mag_ofMag, Nat.zero_mod, natRound, if_neg (by omega)] at hmag
  omega

theorem ofInt64_eq_zero {i : Int64} : ofInt64 i = ofInt64 0 ↔ i = 0 := by
  constructor
  · intro h
    have hmag := congrArg mag h
    rw [mag_ofInt64, mag_ofInt64, show natRound (Int64.toInt 0).natAbs = 0 from rfl, natRound] at hmag
    split at hmag
    · rename_i h0
      exact Int64.toInt_inj.1 (Int.natAbs_eq_zero.1 h0)
    · omega
  · rintro rfl
    rfl

theorem totalKey_le_iff {f g : F64} (h : le f g = true) :
    f.totalKey ≤ g.totalKey ↔ ¬ (f = ofInt64 0 ∧ g = negZero) := by
  obtain ⟨-, -, hkey⟩ := le_iff.1 h
  have hzero : (ofInt64 0).sign = false := rfl
  have hneg : negZero.sign = true := rfl
  unfold numKey at hkey
  unfold totalKey
  cases hf : f.sign <;> cases hg : g.sign <;>
    simp only [hf, hg, Bool.false_eq_true, if_true, if_false] at hkey ⊢
  · refine ⟨fun _ h => ?_, fun _ => by omega⟩
    rw [h.2, hneg] at hg
    cases hg
  · refine ⟨fun _ => by omega, fun hne => (hne ⟨ext_sign_mag ?_ ?_, ext_sign_mag ?_ ?_⟩).elim⟩
    · rw [hf, hzero]
    · rw [mag_ofInt64]
      exact (show f.mag = 0 by omega)
    · rw [hg, hneg]
    · rw [negZero, mag_ofMag]
      exact (show g.mag = 0 by omega)
  · refine ⟨fun _ h => ?_, fun _ => by omega⟩
    rw [h.1, hzero] at hf
    cases hf
  · refine ⟨fun _ h => ?_, fun _ => by omega⟩
    rw [h.1, hzero] at hf
    cases hf

/-- A float without a fractional part is at least its integer, apart from the negative zero and from
what is below every integer. -/
theorem totalKey_toInt64_le_iff {f g : F64} (hf : f.isIntegral = true)
    (h : f.totalKey ≤ g.totalKey) :
    (ofInt64 f.toInt64).totalKey ≤ g.totalKey ↔
    ¬ (f = negZero ∧ g = negZero ∨ lt g (ofInt64 Int64.minValue) = true) := by
  have hnan : f.isNan = false := by
    rw [isIntegral] at hf
    cases hn : f.isNan with
    | false => rfl
    | true => simp [hn] at hf
  have hmin : (ofInt64 Int64.minValue).totalKey = -1 - 1086 * 2 ^ 52 := by decide +kernel
  have hminNum : (ofInt64 Int64.minValue).numKey = - 1086 * 2 ^ 52 := by decide +kernel
  have hminNan : (ofInt64 Int64.minValue).isNan = false := by decide +kernel
  have hmax : (ofInt64 Int64.maxValue).totalKey = 1086 * 2 ^ 52 := by decide +kernel
  have hnanKey : f.mag ≤ infMag := by simpa [isNan] using hnan
  -- what lies below the smallest integer, in terms of the total order
  have hlt : lt g (ofInt64 Int64.minValue) = true ↔ g.totalKey < -1 - 1086 * 2 ^ 52 := by
    rw [lt_iff, hminNum]
    have hgnan : g.totalKey < 0 → g.isNan = false := by
      intro hneg
      rw [isNan, decide_eq_false_iff_not]
      unfold totalKey at h hneg
      unfold infMag at hnanKey ⊢
      split at hneg <;> split at h <;> omega
    constructor
    · rintro ⟨hg, -, hkey⟩
      unfold numKey at hkey
      unfold totalKey
      split at hkey <;> simp_all <;> omega
    · intro hkey
      refine ⟨hgnan (by omega), hminNan, ?_⟩
      unfold totalKey at hkey
      unfold numKey
      split at hkey <;> simp_all <;> omega
  rw [hlt]
  by_cases hm : f.mag < 1086 * 2 ^ 52
  · have hfkey : -1 - 1086 * 2 ^ 52 ≤ f.totalKey := by
      unfold totalKey
      split <;> omega
    by_cases hz : f = negZero
    · have hzero : (ofInt64 negZero.toInt64).totalKey = 0 := by decide +kernel
      have hneg : negZero.totalKey = -1 := by decide +kernel
      rw [hz, hzero]
      rw [hz, hneg] at h
      constructor
      · rintro h0 (⟨-, rfl⟩ | hlow)
        · rw [hneg] at h0
          omega
        · omega
      · intro hne
        by_contra hlow
        exact hne (Or.inl ⟨rfl, totalKey_injective (by rw [hneg]; omega)⟩)
    · rw [ofInt64_toInt64 hf hm hz]
      refine ⟨fun _ => ?_, fun _ => h⟩
      rintro (⟨hz', -⟩ | hlow)
      · exact hz hz'
      · omega
  · -- the conversion stops at the ends of the range
    have hge : 2 ^ 63 ≤ magTrunc f.mag := not_lt.1 fun hlt => hm (magTrunc_lt_iff.1 hlt)
    cases hs : f.sign with
    | true =>
      have hto : f.toInt64 = Int64.minValue := by
        rw [toInt64, hnan, hs]
        simp only [Bool.false_eq_true, if_false, if_true]
        by_cases hlow : -(magTrunc f.mag : Int) < -2 ^ 63
        · rw [if_pos hlow]
        · rw [if_neg hlow, if_neg (by omega), show -(magTrunc f.mag : Int) = -2 ^ 63 by omega]
          rfl
      have hz : f ≠ negZero := by
        rintro rfl
        exact hm (by decide)
      rw [hto, hmin]
      constructor
      · rintro hle (⟨hz', -⟩ | hlow)
        · exact hz hz'
        · omega
      · intro hne
        by_contra hlow
        exact hne (Or.inr (by omega))
    | false =>
      have hto : f.toInt64 = Int64.maxValue := by
        rw [toInt64, hnan, hs]
        simp only [Bool.false_eq_true, if_false]
        rw [if_neg (by omega), if_pos (by omega)]
      have hfkey : f.totalKey = f.mag := by rw [totalKey, hs]; rfl
      rw [hto, hmax]
      refine ⟨fun hle => ?_, fun _ => by omega⟩
      rintro (⟨rfl, -⟩ | hlow)
      · cases hs
      · omega

theorem isIntegral_ofInt64 (i : Int64) : (ofInt64 i).isIntegral = true := by
  have hlt := natRound_natAbs_lt i
  have hmag : (ofInt64 i).mag = natRound i.toInt.natAbs := by
    rw [ofInt64, mag_ofMag, Nat.mod_eq_of_lt (hlt.trans (by decide))]
  have hnan : (ofInt64 i).isNan = false := by
    rw [isNan, hmag, decide_eq_false_iff_not]
    omega
  rw [isIntegral, hnan, hmag]
  generalize i.toInt.natAbs = n
  simp only [Bool.false_eq_true, if_false]
  by_cases h0 : n = 0
  · subst h0
    rfl
  obtain ⟨hlo, hhi⟩ := roundSignificand_bounds h0
  have hround : natRound n = (Nat.log 2 n + 1022) * 2 ^ 52 + roundSignificand n := by
    rw [natRound, if_neg h0]
  rw [if_neg (by omega), if_neg (by omega)]
  split
  · rename_i h75
    -- nothing has been rounded off, and the significand is the integer, shifted
    have hlog : Nat.log 2 n ≤ 52 := by omega
    have hsig : roundSignificand n = n * 2 ^ (52 - Nat.log 2 n) := by
      rw [roundSignificand]
      exact if_pos hlog
    have hlt : n * 2 ^ (52 - Nat.log 2 n) < 2 ^ 53 := by
      calc n * 2 ^ (52 - Nat.log 2 n)
          < 2 ^ (Nat.log 2 n + 1) * 2 ^ (52 - Nat.log 2 n) :=
            Nat.mul_lt_mul_of_pos_right (Nat.lt_pow_succ_log_self (by decide) n) (Nat.pow_pos (by decide))
        _ = 2 ^ 53 := (pow_add 2 _ _).symm.trans (congrArg (2 ^ ·) (by omega))
    have he : natRound n / 2 ^ 52 = Nat.log 2 n + 1023 := by omega
    have hq : 2 ^ 52 + natRound n % 2 ^ 52 = n * 2 ^ (52 - Nat.log 2 n) := by omega
    rw [he, hq, show 1075 - (Nat.log 2 n + 1023) = 52 - Nat.log 2 n by omega, Nat.mul_mod_left]
    rfl
  · rfl

end F64

end Retia
