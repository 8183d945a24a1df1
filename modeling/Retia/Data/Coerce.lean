import Mathlib
import Retia.Data.Memcmp
import Retia.Data.Relation
import Retia.Lib.Except

/-!
# Coercion to column types

`NullableColType::coerce` in `data/relation.rs`: what happens to a value on its way into a column.

Base64, UUIDs, times, JSON texts and the conversion to `f32` are those of libraries (`Decoders`);
all the rest is here, with types of any depth. Three things are asked of a coercion (`Faithful`):

* it does not panic;
* it is idempotent: coercing its own output succeeds and changes nothing (`coerce_of_coerce`, for
  all types and values);
* where a float becomes an integer, the float denotes that integer (`PreservesInts`). What a float
  denotes is said by `F64.toRat`, with no reference to the conversions of the source.

The first fails for times before 1970, where the time since the epoch is unwrapped. The last fails
for floats from `2^63` on and for infinities, which have no fractional part and are cut off at the
ends of the range. `coerce_faithful_iff` states that there is nothing else: a coercion is faithful
if and only if it does not get to a time before 1970 and, if the value is accepted, all floats in
integer columns are within the range.
-/

namespace Retia

open List

/-! ### What a float denotes -/

namespace F64

/-- The number a float stands for. Infinities and NaNs stand for none. -/
def toRat (f : F64) : Option ℚ :=
  let e : Nat := f.mag / 2 ^ 52
  let frac : Nat := f.mag % 2 ^ 52
  if infMag ≤ f.mag then none
  else
    let m : ℚ := if e = 0 then frac * 2 ^ (-1074 : ℤ)
      else ((2 ^ 52 + frac : Nat) : ℚ) * 2 ^ ((e : ℤ) - 1075)
    some (if f.sign then -m else m)

def Denotes (f : F64) (i : Int64) : Prop := f.toRat = some (i.toInt : ℚ)

/-- The float lies between the ends of the range of `i64`. -/
def fitsInt64 (f : F64) : Bool :=
  f.mag < 1086 * 2 ^ 52 || (f.sign && f.mag == 1086 * 2 ^ 52)

def truncated (f : F64) : Int := if f.sign then -(magTrunc f.mag : Int) else magTrunc f.mag

variable {f : F64}

/-- **An integral float that is finite denotes its truncation.** -/
theorem toRat_of_isIntegral (h : f.isIntegral = true) (hfin : f.mag < infMag) :
    f.toRat = some (f.truncated : ℚ) := by
  have hmag : (if f.mag / 2 ^ 52 = 0 then ((f.mag % 2 ^ 52 : ℕ) : ℚ) * 2 ^ (-1074 : ℤ)
      else ((2 ^ 52 + f.mag % 2 ^ 52 : ℕ) : ℚ) * 2 ^ (((f.mag / 2 ^ 52 : ℕ) : ℤ) - 1075)) =
        (magTrunc f.mag : ℚ) := by
    unfold isIntegral at h
    unfold magTrunc
    dsimp only at h ⊢
    split at h
    · cases h
    split at h
    case isTrue hzero => simp [hzero]
    split at h
    · cases h
    case isFalse he =>
      rw [if_neg (by omega), if_neg he]
      split at h
      case isTrue hle =>
        rw [decide_eq_true_eq] at h
        rw [if_pos hle]
        -- the significand is a multiple of the power it is divided by
        obtain ⟨k, hk⟩ := Nat.dvd_of_mod_eq_zero h
        have hexp : ((f.mag / 2 ^ 52 : ℕ) : ℤ) - 1075 = -((1075 - f.mag / 2 ^ 52 : ℕ) : ℤ) := by omega
        rw [hk, Nat.mul_div_cancel_left _ (Nat.two_pow_pos _), hexp, zpow_neg, zpow_natCast]
        push_cast
        field_simp
      case isFalse hgt =>
        rw [if_neg hgt]
        have hexp : ((f.mag / 2 ^ 52 : ℕ) : ℤ) - 1075 = ((f.mag / 2 ^ 52 - 1075 : ℕ) : ℤ) := by omega
        rw [hexp, zpow_natCast]
        push_cast
        rfl
  unfold toRat truncated
  dsimp only
  rw [if_neg (by omega), hmag]
  cases f.sign <;> simp

theorem mag_lt_of_fitsInt64 (h : f.fitsInt64 = true) : f.mag < infMag := by
  simp only [fitsInt64, Bool.or_eq_true, decide_eq_true_eq, Bool.and_eq_true, beq_iff_eq] at h
  unfold infMag
  omega

/-- The truncation is in the range exactly where the float is. -/
theorem truncated_inRange_iff : (-2 ^ 63 ≤ f.truncated ∧ f.truncated < 2 ^ 63) ↔
    f.fitsInt64 = true ∨ (f.sign = true ∧ magTrunc f.mag = 2 ^ 63) := by
  have hlt : magTrunc f.mag < 2 ^ 63 ↔ f.mag < 1086 * 2 ^ 52 := magTrunc_lt_iff
  have hend : f.mag = 1086 * 2 ^ 52 → magTrunc f.mag = 2 ^ 63 := fun h => by rw [h]; decide
  simp only [truncated, fitsInt64, Bool.or_eq_true, decide_eq_true_eq, Bool.and_eq_true, beq_iff_eq]
  cases f.sign with
  | false => simp only [Bool.false_eq_true, if_false, false_and, or_false]; omega
  | true => simp only [if_true, true_and]; omega

/-- `2^63` is the truncation of one magnitude only. -/
theorem mag_of_magTrunc_eq {m : Nat} (h : magTrunc m = 2 ^ 63) : m = 1086 * 2 ^ 52 := by
  have hge : 1086 * 2 ^ 52 ≤ m := by
    by_contra hlt
    have := magTrunc_lt_iff.2 (not_le.1 hlt)
    omega
  have hm : m = 2 ^ 52 * (m / 2 ^ 52) + m % 2 ^ 52 := (Nat.div_add_mod m (2 ^ 52)).symm
  unfold magTrunc at h
  dsimp only at h
  rw [if_neg (by omega), if_neg (by omega)] at h
  have hpow : 2 ^ 11 ≤ 2 ^ (m / 2 ^ 52 - 1075) := Nat.pow_le_pow_right (by decide) (by omega)
  -- the exponent is 11 and the fraction 0, as the product would be too large otherwise
  have hfrac : m % 2 ^ 52 = 0 := by
    by_contra hne
    have : (2 ^ 52 + 1) * 2 ^ 11 ≤ (2 ^ 52 + m % 2 ^ 52) * 2 ^ (m / 2 ^ 52 - 1075) :=
      Nat.mul_le_mul (by omega) hpow
    omega
  have hexp : m / 2 ^ 52 - 1075 ≤ 11 := by
    by_contra hgt
    have hpow' : 2 ^ 12 ≤ 2 ^ (m / 2 ^ 52 - 1075) := Nat.pow_le_pow_right (by decide) (by omega)
    have : 2 ^ 52 * 2 ^ 12 ≤ (2 ^ 52 + m % 2 ^ 52) * 2 ^ (m / 2 ^ 52 - 1075) :=
      Nat.mul_le_mul (Nat.le_add_right _ _) hpow'
    omega
  omega

theorem truncated_inRange_iff_fits : (-2 ^ 63 ≤ f.truncated ∧ f.truncated < 2 ^ 63) ↔
    f.fitsInt64 = true := by
  rw [truncated_inRange_iff, or_iff_left_iff_imp]
  rintro ⟨hsign, htrunc⟩
  simp [fitsInt64, hsign, mag_of_magTrunc_eq htrunc]

theorem not_isNan_of_isIntegral (h : f.isIntegral = true) : f.isNan = false := by
  unfold isIntegral at h
  dsimp only at h
  split at h
  · cases h
  case isFalse hnan => exact Bool.eq_false_iff.2 hnan

/-- **The conversion of an integral float is exact if and only if the float is in the range.** -/
theorem denotes_toInt64_iff (h : f.isIntegral = true) : f.Denotes f.toInt64 ↔
    f.fitsInt64 = true := by
  have hto : f.toInt64 = if f.truncated < -2 ^ 63 then Int64.minValue
      else if 2 ^ 63 ≤ f.truncated then Int64.maxValue else Int64.ofInt f.truncated := by
    rw [toInt64, not_isNan_of_isIntegral h]
    rfl
  rw [← truncated_inRange_iff_fits]
  constructor
  · intro hden
    have hfin : f.mag < infMag := by
      by_contra hinf
      unfold Denotes toRat at hden
      dsimp only at hden
      rw [if_pos (not_lt.1 hinf)] at hden
      cases hden
    rw [Denotes, toRat_of_isIntegral h hfin, Option.some.injEq, Int.cast_inj] at hden
    rw [hden]
    exact ⟨Int64.le_toInt _, Int64.toInt_lt _⟩
  · rintro ⟨hlo, hhi⟩
    have hfin := mag_lt_of_fitsInt64 (truncated_inRange_iff_fits.1 ⟨hlo, hhi⟩)
    rw [Denotes, toRat_of_isIntegral h hfin, hto, if_neg (by omega), if_neg (by omega),
      Int64.toInt_ofInt_of_le (by omega) (by omega)]

end F64

/-! ### The coercion -/

/-- The libraries the coercion rests on. Arrays are read from bytes in the order of the machine. -/
structure Decoders where
  base64 : Bytes → Option Bytes
  parseUuid : Bytes → Option (BitVec 128)
  parseRfc3339 : Bytes → Option Int
  toF32 : F64 → F32
  f32s : Bytes → List F32
  length_f32s : ∀ b, (f32s b).length = b.length / 4
  f64s : Bytes → List F64
  length_f64s : ∀ b, (f64s b).length = b.length / 8
  /-- The JSON text of a value that is no list, set or JSON value. -/
  jsonText : Value → Bytes

inductive CoercionFailure where
  /-- "encountered null value for non-null type …". -/
  | invalidNullValue (t : NullableColType)
  /-- "data coercion failed: expected type …, got value …". -/
  | dataCoercionFailed (t : NullableColType) (v : Value)
  /-- "bad list length: expected datatype …, got length …". -/
  | badListLength (t : NullableColType) (len : Nat)
  /-- "data coercion failed: internal type Bot not allowed". -/
  | dataCoercionFromBot
  /-- "cannot decode string as base64-encoded bytes". -/
  | badBase64EncodedString
  | validity (e : CoerceError Vector)

def Vector.len : Vector → Nat
  | f32 a => a.length
  | f64 a => a.length

def Vector.elType : Vector → VecElementType
  | f32 _ => .f32
  | f64 _ => .f64

def orFail {α ε : Type} (failure : ε) : Option α → Except ε α
  | some a => .ok a
  | none => .error failure

section Coerce

variable (P : Decoders) (curVld : Int64)

/-- `get_uuid`. -/
def Decoders.getUuid : Value → Option (BitVec 128)
  | .uuid u => some u
  | .str s => P.parseUuid s
  | _ => none

def Decoders.ofFloats : VecElementType → List F64 → Vector
  | .f32, l => .f32 (l.map P.toF32)
  | .f64, l => .f64 l

def Decoders.ofBytes : VecElementType → Bytes → Vector
  | .f32, b => .f32 (P.f32s b)
  | .f64, b => .f64 (P.f64s b)

def coerceVec (t : NullableColType) (eltype : VecElementType) (len : Nat) (data : Value) :
    Except CoercionFailure Value :=
  match data with
  | .list l =>
    if l.length ≠ len then .error (.badListLength t l.length)
    else (orFail (.dataCoercionFailed t data) (l.mapM DataValue.getFloat)).map fun fs =>
      .vec (P.ofFloats eltype fs)
  | .vec arr =>
    if eltype ≠ arr.elType ∨ len ≠ arr.len then .error (.dataCoercionFailed t data) else .ok data
  | .str s =>
    match P.base64 s with
    | none => .error (.dataCoercionFailed t data)
    | some b =>
      if (P.ofBytes eltype b).len ≠ len then .error (.dataCoercionFailed t data)
      else .ok (.vec (P.ofBytes eltype b))
  | _ => .error (.dataCoercionFailed t data)

def jsonArray (items : List Bytes) : Bytes :=
  strBytes "[" ++ (items.intersperse (strBytes ",")).flatten ++ strBytes "]"

mutual

/-- Coercion to JSON. The elements of lists are coerced to the same type, so that `null` among them
is refused where the column is not nullable. -/
def coerceJson (t : NullableColType) (nullable : Bool) : Value → Except CoercionFailure Bytes
  | .list l => (coerceJsonAll t nullable l).map jsonArray
  | .set l => (coerceJsonAll t nullable l).map jsonArray
  | .json s => .ok s
  | v => .ok (P.jsonText v)

def coerceJsonAll (t : NullableColType) (nullable : Bool) :
    List Value → Except CoercionFailure (List Bytes)
  | [] => .ok []
  | .null :: rest =>
    if nullable then (coerceJsonAll t nullable rest).map (strBytes "null" :: ·)
      else .error (.invalidNullValue t)
  | v :: rest => do
    let text ← coerceJson t nullable v
    let texts ← coerceJsonAll t nullable rest
    pure (text :: texts)

end

/-- Coercion of a value that is not `null` to a type without elements. -/
def coerceLeaf (t : NullableColType) (nullable : Bool) (data : Value) :
    ColType → Except CoercionFailure Value
  | .any =>
    match data with
    | .set s => .ok (.list s)
    | .bot => .error .dataCoercionFromBot
    | d => .ok d
  | .bool => (orFail (.dataCoercionFailed t data) data.getBool).map .bool
  | .int => (orFail (.dataCoercionFailed t data) data.getInt).map fun i => .num (.int i)
  | .float => (orFail (.dataCoercionFailed t data) data.getFloat).map fun f => .num (.float f)
  | .string =>
    match data with
    | .str s => .ok (.str s)
    | _ => .error (.dataCoercionFailed t data)
  | .bytes =>
    match data with
    | .bytes b => .ok (.bytes b)
    | .str s => (orFail .badBase64EncodedString (P.base64 s)).map .bytes
    | _ => .error (.dataCoercionFailed t data)
  | .uuid => (orFail (.dataCoercionFailed t data) (P.getUuid data)).map .uuid
  | .vec eltype len => coerceVec P t eltype len data
  | .validity => (coerceValidity P.parseRfc3339 curVld data).mapError .validity
  | .json => (coerceJson P t nullable data).map .json
  | .list .. | .tuple _ => .error (.dataCoercionFailed t data)

/-- Elements one after the other, up to the first that fails. -/
def coerceEach (f : Value → Except CoercionFailure Value) :
    List Value → Except CoercionFailure (List Value)
  | [] => .ok []
  | v :: rest => do
    let w ← f v
    let ws ← coerceEach f rest
    pure (w :: ws)

mutual

/-- `NullableColType::coerce`. -/
def NullableColType.coerce : NullableColType → Value → Except CoercionFailure Value
  | .mk (.list eltype len) nullable, data =>
    match data with
    | .null => if nullable then .ok .null else .error (.invalidNullValue (.mk (.list eltype len) nullable))
    | .list l =>
      if len.any (· ≠ l.length) then .error (.badListLength (.mk (.list eltype len) nullable) l.length)
      else (coerceEach eltype.coerce l).map .list
    | _ => .error (.dataCoercionFailed (.mk (.list eltype len) nullable) data)
  | .mk (.tuple types) nullable, data =>
    match data with
    | .null => if nullable then .ok .null else .error (.invalidNullValue (.mk (.tuple types) nullable))
    | .list l =>
      if types.length ≠ l.length then .error (.badListLength (.mk (.tuple types) nullable) l.length)
      else (coerceTuple types l).map .list
    | _ => .error (.dataCoercionFailed (.mk (.tuple types) nullable) data)
  | .mk coltype nullable, data =>
    match data with
    | .null => if nullable then .ok .null else .error (.invalidNullValue (.mk coltype nullable))
    | _ => coerceLeaf P curVld (.mk coltype nullable) nullable data coltype

def NullableColType.coerceTuple : List NullableColType → List Value →
    Except CoercionFailure (List Value)
  | t :: ts, v :: rest => do
    let w ← t.coerce v
    let ws ← coerceTuple ts rest
    pure (w :: ws)
  | _, _ => .ok []

end

end Coerce

/-! ### What is asked of a coercion -/

mutual

def NullableColType.PreservesInts : NullableColType → Value → Value → Prop
  | .mk .int _, .num (.float f), .num (.int i) => f.Denotes i
  | .mk (.list eltype _) _, .list l, .list m => List.Forall₂ eltype.PreservesInts l m
  | .mk (.tuple types) _, .list l, .list m => PreservesTuple types l m
  | _, _, _ => True

def NullableColType.PreservesTuple : List NullableColType → List Value → List Value → Prop
  | t :: ts, v :: l, w :: m => t.PreservesInts v w ∧ PreservesTuple ts l m
  | _, _, _ => True

end

/-- **A faithful coercion**: no panic, idempotent, and integers are the integers floats denote. -/
structure Faithful (P : Decoders) (curVld : Int64) (t : NullableColType) (v : Value) : Prop where
  noPanic : ∀ p, t.coerce P curVld v ≠ .error (.validity (.panic p))
  idempotent : ∀ w, t.coerce P curVld v = .ok w → t.coerce P curVld w = .ok w
  exact : ∀ w, t.coerce P curVld v = .ok w → t.PreservesInts v w

section Conditions

variable (P : Decoders)

def timeText (s : Bytes) : Bytes := if s.head? = some 126 then s.tail else s

def Decoders.isPast (s : Bytes) : Bool :=
  s ≠ strBytes "ASSERT" && s ≠ strBytes "RETRACT" && (P.parseRfc3339 (timeText s)).any (· < 0)

def storableTime (ts : Int64) : Bool := ts ≠ Int64.maxValue && ts ≠ Int64.minValue

def Decoders.isValidity : Value → Bool
  | .validity _ => true
  | .str s => s = strBytes "ASSERT" || s = strBytes "RETRACT" ||
      (P.parseRfc3339 (timeText s)).any fun micros => 0 ≤ micros && storableTime (Int64.ofInt micros)
  | .list [ts, isAssert] => ts.getInt.any storableTime && isAssert.getBool.isSome
  | _ => false

mutual

/-- There is no `null` in the lists of the value. -/
def noNulls : Value → Bool
  | .list l => noNullsAll l
  | .set l => noNullsAll l
  | _ => true

def noNullsAll : List Value → Bool
  | [] => true
  | .null :: _ => false
  | v :: rest => noNulls v && noNullsAll rest

end

def Decoders.isVec (eltype : VecElementType) (len : Nat) : Value → Bool
  | .list l => l.length = len && l.all fun v => v.getFloat.isSome
  | .vec arr => eltype = arr.elType && len = arr.len
  | .str s => (P.base64 s).any fun b => (P.ofBytes eltype b).len = len
  | _ => false

/-- The values a type without elements accepts, `null` apart. -/
def Decoders.acceptsLeaf (nullable : Bool) (data : Value) : ColType → Bool
  | .any => match data with | .bot => false | _ => true
  | .bool => data.getBool.isSome
  | .int => data.getInt.isSome
  | .float => data.getFloat.isSome
  | .string => match data with | .str _ => true | _ => false
  | .bytes => match data with | .bytes _ => true | .str s => (P.base64 s).isSome | _ => false
  | .uuid => (P.getUuid data).isSome
  | .vec eltype len => P.isVec eltype len data
  | .validity => P.isValidity data
  | .json => nullable || noNulls data
  | .list .. | .tuple _ => false

mutual

def NullableColType.accepts : NullableColType → Value → Bool
  | .mk _ nullable, .null => nullable
  | .mk (.list eltype len) _, .list l => !len.any (· ≠ l.length) && l.all eltype.accepts
  | .mk (.tuple types) _, .list l => types.length = l.length && acceptsTuple types l
  | .mk (.list ..) _, _ | .mk (.tuple _) _, _ => false
  | .mk coltype nullable, v => P.acceptsLeaf nullable v coltype

def NullableColType.acceptsTuple : List NullableColType → List Value → Bool
  | t :: ts, v :: l => t.accepts v && acceptsTuple ts l
  | _, _ => true

end

/-- There is an element with the property, and all before it are accepted. -/
def reachedIn (found accepted : Value → Bool) : List Value → Bool
  | [] => false
  | v :: rest => found v || (accepted v && reachedIn found accepted rest)

mutual

/-- A validity column is given a time before the epoch, after values that are all accepted. -/
def NullableColType.reachesPast : NullableColType → Value → Bool
  | .mk .validity _, .str s => P.isPast s
  | .mk (.list eltype len) _, .list l =>
    !len.any (· ≠ l.length) && reachedIn eltype.reachesPast (eltype.accepts P) l
  | .mk (.tuple types) _, .list l => types.length = l.length && reachesPastTuple types l
  | _, _ => false

def NullableColType.reachesPastTuple : List NullableColType → List Value → Bool
  | t :: ts, v :: l => t.reachesPast v || (t.accepts P v && reachesPastTuple ts l)
  | _, _ => false

end

mutual

/-- The floats in integer columns are in the range of integers. -/
def NullableColType.intsFit : NullableColType → Value → Bool
  | .mk .int _, .num (.float f) => f.fitsInt64
  | .mk (.list eltype _) _, .list l => l.all eltype.intsFit
  | .mk (.tuple types) _, .list l => intsFitTuple types l
  | _, _ => true

def NullableColType.intsFitTuple : List NullableColType → List Value → Bool
  | t :: ts, v :: l => t.intsFit v && intsFitTuple ts l
  | _, _ => true

end

/-- The coercion gets to no time before the epoch, and if the value is of a form that is accepted,
all floats in integer columns are in the range. -/
def NullableColType.safe (t : NullableColType) (v : Value) : Bool :=
  !t.reachesPast P v && (!t.accepts P v || t.intsFit v)

end Conditions

/-! ### What is accepted, and where it panics -/

/-- The result is one value exactly if `accepted`, and a panic exactly if `past`. -/
structure Outcome {α : Type} (r : Except CoercionFailure α) (accepted past : Bool) : Prop where
  ok_iff : (∃ w, r = .ok w) ↔ accepted = true
  panic_iff : (∃ p, r = .error (.validity (.panic p))) ↔ past = true

namespace Outcome

variable {α β : Type} {r : Except CoercionFailure α} {accepted past : Bool}

theorem ok (a : α) : Outcome (.ok a) true false := ⟨by simp, by simp⟩

theorem failed {e : CoercionFailure} (he : ∀ p, e ≠ .validity (.panic p)) :
    Outcome (.error e : Except CoercionFailure α) false false :=
  ⟨by simp, by simpa using he⟩

theorem map (h : Outcome r accepted past) (g : α → β) : Outcome (r.map g) accepted past := by
  constructor
  · rw [← h.ok_iff]
    cases r <;> simp [Except.map]
  · rw [← h.panic_iff]
    cases r <;> simp [Except.map]

theorem orFail {e : CoercionFailure} (he : ∀ p, e ≠ .validity (.panic p)) (o : Option α) :
    Outcome (orFail e o) o.isSome false := by
  cases o with
  | none => exact failed he
  | some a => exact ok a

theorem cons {rs : Except CoercionFailure (List α)} {accepted' past' : Bool}
    (h : Outcome r accepted past)
    (hs : Outcome rs accepted' past') :
    Outcome (do let w ← r; let ws ← rs; pure (w :: ws)) (accepted && accepted')
    (past || (accepted && past')) := by
  obtain ⟨hok, hpanic⟩ := h
  obtain ⟨hok', hpanic'⟩ := hs
  cases r with
  | error e =>
    have hacc : accepted = false := Bool.eq_false_iff.2 fun h => by
      obtain ⟨w, hw⟩ := hok.2 h
      cases hw
    subst hacc
    exact ⟨by simp [bind, Except.bind], by simpa [bind, Except.bind] using hpanic⟩
  | ok w =>
    have hacc : accepted = true := hok.1 ⟨w, rfl⟩
    have hpast : past = false := Bool.eq_false_iff.2 fun h => by
      obtain ⟨p, hp⟩ := hpanic.2 h
      cases hp
    subst hacc hpast
    cases rs with
    | error e =>
      exact ⟨by simpa [bind, Except.bind] using hok', by simpa [bind, Except.bind] using hpanic'⟩
    | ok ws =>
      exact ⟨by simpa [bind, Except.bind, pure, Except.pure] using hok',
        by simpa [bind, Except.bind, pure, Except.pure] using hpanic'⟩

theorem congr {accepted' past' : Bool} (h : Outcome r accepted past)
    (ha : accepted = accepted') (hp : past = past') : Outcome r accepted' past' := by
  subst ha hp
  exact h

end Outcome

variable {α : Type}

section Outcomes

variable (P : Decoders) (curVld : Int64)

theorem isSome_mapM {β : Type} (f : α → Option β) (l : List α) :
    (l.mapM f).isSome = l.all fun a => (f a).isSome := by
  induction l with
  | nil => rfl
  | cons a l ih =>
    rw [mapM_cons, all_cons, ← ih]
    cases f a with
    | none => rfl
    | some b => cases l.mapM f <;> rfl

variable (t : NullableColType)

theorem outcome_coerceVec (eltype : VecElementType) (len : Nat) (data : Value) :
    Outcome (coerceVec P t eltype len data) (P.isVec eltype len data) false := by
  have hfail : ∀ p, CoercionFailure.dataCoercionFailed t data ≠ .validity (.panic p) := by nofun
  unfold coerceVec Decoders.isVec
  split
  case h_1 l =>
    split
    case isTrue hlen =>
      have hbad : ∀ p, CoercionFailure.badListLength t l.length ≠ .validity (.panic p) := by nofun
      exact (Outcome.failed hbad).congr (by simp [hlen]) rfl
    case isFalse hlen =>
      refine ((Outcome.orFail hfail _).map _).congr ?_ rfl
      rw [isSome_mapM]
      simp [not_not.1 hlen]
  case h_2 arr =>
    split
    case isTrue h =>
      refine (Outcome.failed hfail).congr ?_ rfl
      rcases h with h | h <;> simp [h]
    case isFalse h =>
      rw [not_or, not_not, not_not] at h
      exact (Outcome.ok _).congr (by simp [h.1, h.2]) rfl
  case h_3 s =>
    cases P.base64 s with
    | none => exact Outcome.failed hfail
    | some b =>
      dsimp only
      split
      case isTrue h => exact (Outcome.failed hfail).congr (by simp [h]) rfl
      case isFalse h => exact (Outcome.ok _).congr (by simp [not_not.1 h]) rfl
  case h_4 => exact Outcome.failed hfail

/-- The text of a validity that is a time before the epoch. -/
def Decoders.isPastText : Value → Bool
  | .str s => P.isPast s
  | _ => false

theorem outcome_coerceValidity (data : Value) :
    Outcome ((coerceValidity P.parseRfc3339 curVld data).mapError .validity)
    (P.isValidity data) (P.isPastText data) := by
  have hfail : ∀ (v : Value) p, CoercionFailure.validity (.invalidValidity v) ≠
    .validity (.panic p) := by nofun
  unfold coerceValidity Decoders.isValidity Decoders.isPastText
  split
  case h_1 v => exact Outcome.ok _
  case h_2 s =>
    unfold Decoders.isPast
    by_cases ha : s = strBytes "ASSERT"
    · simp only [ha, if_true]
      exact (Outcome.ok _).congr (by simp) (by simp)
    by_cases hr : s = strBytes "RETRACT"
    · rw [if_neg ha, if_pos hr]
      exact (Outcome.ok _).congr (by simp [hr]) (by simp [hr])
    rw [if_neg ha, if_neg hr]
    have htext : (if s.head? = some 126 then (false, s.tail) else (true, s)).2 = timeText s := by
      unfold timeText
      split <;> rfl
    dsimp only
    rw [htext]
    cases P.parseRfc3339 (timeText s) with
    | none => exact (Outcome.failed (hfail _)).congr (by simp [ha, hr]) (by simp)
    | some micros =>
      dsimp only
      split
      case isTrue hneg =>
        exact ⟨by simp [Except.mapError, ha, hr, not_le.2 hneg], by simp [Except.mapError, ha, hr, hneg]⟩
      case isFalse hpos =>
        split
        case isTrue hend =>
          refine (Outcome.failed (hfail _)).congr ?_ (by simp [hpos])
          rcases hend with hend | hend <;> simp [ha, hr, storableTime, hend]
        case isFalse hend =>
          rw [not_or] at hend
          exact (Outcome.ok _).congr (by simp [storableTime, hend.1, hend.2, not_lt.1 hpos])
            (by simp [hpos])
  case h_3 ts isAssert =>
    split
    case h_1 ts' isAssert' hts hassert =>
      split
      case isTrue hend =>
        refine (Outcome.failed (hfail _)).congr ?_ rfl
        rcases hend with hend | hend <;> simp [hts, storableTime, hend]
      case isFalse hend =>
        rw [not_or] at hend
        exact (Outcome.ok _).congr (by simp [hts, hassert, storableTime, hend.1, hend.2]) rfl
    case h_2 h =>
      refine (Outcome.failed (hfail _)).congr ?_ rfl
      cases hts : ts.getInt with
      | none => simp [hts]
      | some ts' =>
        cases hassert : isAssert.getBool with
        | none => simp [hassert]
        | some b => exact absurd hassert (h ts' b hts)
  case h_4 h1 h2 h3 =>
    refine (Outcome.failed (hfail _)).congr ?_ ?_
    · split
      · exact absurd rfl (h1 _)
      · exact absurd rfl (h2 _)
      · exact absurd rfl (h3 _ _)
      · rfl
    · split
      · exact absurd rfl (h2 _)
      · rfl

theorem coerceJsonAll_cons (nullable : Bool) {v : Value} (hv : v ≠ .null)
    (rest : List Value) : coerceJsonAll P t nullable (v :: rest) = (do
      let text ← coerceJson P t nullable v
      let texts ← coerceJsonAll P t nullable rest
      pure (text :: texts)) ∧ noNullsAll (v :: rest) = (noNulls v && noNullsAll rest) := by
  cases v <;> first | exact absurd rfl hv | exact ⟨by rw [coerceJsonAll]; nofun, by rw [noNullsAll]; nofun⟩

mutual

theorem outcome_coerceJson (t : NullableColType) (nullable : Bool) (v : Value) :
    Outcome (coerceJson P t nullable v) (nullable || noNulls v) false := by
  match v with
  | .list l | .set l =>
    rw [coerceJson, noNulls]
    exact (outcome_coerceJsonAll t nullable l).map _
  | .null | .bool _ | .num _ | .str _ | .bytes _ | .uuid _ | .regex _ | .vec _ | .json _
  | .validity _ | .bot =>
    simp only [coerceJson, noNulls, Bool.or_true]
    exact Outcome.ok _

theorem outcome_coerceJsonAll (t : NullableColType) (nullable : Bool) (l : List Value) :
    Outcome (coerceJsonAll P t nullable l) (nullable || noNullsAll l) false := by
  match l with
  | [] =>
    rw [coerceJsonAll, noNullsAll, Bool.or_true]
    exact Outcome.ok _
  | v :: rest =>
    by_cases hv : v = .null
    · subst hv
      rw [coerceJsonAll, noNullsAll]
      have hrest := outcome_coerceJsonAll t nullable rest
      cases nullable with
      | true => exact hrest.map _
      | false => exact Outcome.failed nofun
    · obtain ⟨hco, hno⟩ := coerceJsonAll_cons P t nullable hv rest
      rw [hco, hno]
      refine ((outcome_coerceJson t nullable v).cons (outcome_coerceJsonAll t nullable rest)).congr
        ?_ (by simp)
      cases nullable <;> simp

end

def ColType.isLeaf : ColType → Bool
  | .list .. | .tuple _ => false
  | _ => true

def ColType.isPast (c : ColType) (data : Value) : Bool :=
  match c with
  | .validity => P.isPastText data
  | _ => false

theorem outcome_coerceLeaf (nullable : Bool) (data : Value) {c : ColType}
    (hleaf : c.isLeaf = true) :
    Outcome (coerceLeaf P curVld t nullable data c) (P.acceptsLeaf nullable data c)
    (c.isPast P data) := by
  have hfail : ∀ p, CoercionFailure.dataCoercionFailed t data ≠ .validity (.panic p) := by nofun
  have hopt : ∀ {α : Type} (o : Option α) (g : α → Value),
      Outcome ((orFail (.dataCoercionFailed t data) o).map g) o.isSome false :=
    fun o g => (Outcome.orFail hfail o).map g
  cases c with
  | any =>
    have hbot : ∀ p, CoercionFailure.dataCoercionFromBot ≠ .validity (.panic p) := by nofun
    cases data <;> first | exact Outcome.failed hbot | exact Outcome.ok _
  | bool | int | float => exact hopt _ _
  | string => cases data <;> first | exact Outcome.ok _ | exact Outcome.failed hfail
  | bytes =>
    cases data with
    | bytes b => exact Outcome.ok _
    | str s =>
      have hbad : ∀ p, CoercionFailure.badBase64EncodedString ≠ .validity (.panic p) := by nofun
      exact (Outcome.orFail hbad _).map _
    | _ => exact Outcome.failed hfail
  | uuid => exact hopt _ _
  | vec eltype len => exact outcome_coerceVec P t eltype len data
  | validity => exact outcome_coerceValidity P curVld data
  | json => exact (outcome_coerceJson P t nullable data).map _
  | list eltype len => cases hleaf
  | tuple types => cases hleaf

end Outcomes

/-! ### Types with elements -/

variable {f : Value → Except CoercionFailure Value}

open NullableColType

section Elements

variable (P : Decoders) (curVld : Int64)

theorem coerce_null (c : ColType) (nullable : Bool) :
    (NullableColType.mk c nullable).coerce P curVld .null =
      if nullable then .ok .null else .error (.invalidNullValue (.mk c nullable)) := by
  cases c <;> rfl

variable {c : ColType} {v : Value}

theorem coerce_leaf (hleaf : c.isLeaf = true) (nullable : Bool) (hv : v ≠ .null) :
    (NullableColType.mk c nullable).coerce P curVld v =
    coerceLeaf P curVld (.mk c nullable) nullable v c := by
  cases c <;> first
    | exact (Bool.false_ne_true hleaf).elim
    | (cases v <;> first | exact absurd rfl hv | rfl)

theorem accepts_leaf (hleaf : c.isLeaf = true) (nullable : Bool) (hv : v ≠ .null) :
    (NullableColType.mk c nullable).accepts P v = P.acceptsLeaf nullable v c := by
  cases c <;> first
    | exact (Bool.false_ne_true hleaf).elim
    | (cases v <;> first | exact absurd rfl hv | rfl)

theorem reachesPast_leaf (hleaf : c.isLeaf = true) (nullable : Bool) (v : Value) :
    (NullableColType.mk c nullable).reachesPast P v = c.isPast P v := by
  cases c <;> first | exact (Bool.false_ne_true hleaf).elim | (cases v <;> rfl)

theorem coerce_of_not_list (hleaf : c.isLeaf = false) (nullable : Bool)
    (hv : v ≠ .null) (hlist : ∀ l, v ≠ .list l) :
    (NullableColType.mk c nullable).coerce P curVld v =
    .error (.dataCoercionFailed (.mk c nullable) v) ∧
      (NullableColType.mk c nullable).accepts P v = false ∧
      (NullableColType.mk c nullable).reachesPast P v = false := by
  cases c <;> first
    | exact (Bool.false_ne_true hleaf.symm).elim
    | (cases v <;> first | exact absurd rfl hv | exact absurd rfl (hlist _) | exact ⟨rfl, rfl, rfl⟩)

theorem outcome_coerceEach {accepted past : Value → Bool}
    (h : ∀ v, Outcome (f v) (accepted v) (past v)) (l : List Value) :
    Outcome (coerceEach f l) (l.all accepted) (reachedIn past accepted l) := by
  induction l with
  | nil => exact Outcome.ok _
  | cons v rest ih => exact (h v).cons ih

theorem outcome_null (c : ColType) (nullable : Bool) :
    Outcome ((NullableColType.mk c nullable).coerce P curVld .null)
    ((NullableColType.mk c nullable).accepts P .null)
      ((NullableColType.mk c nullable).reachesPast P .null) := by
  have hpast : (NullableColType.mk c nullable).reachesPast P .null = false := by cases c <;> rfl
  have haccept : (NullableColType.mk c nullable).accepts P .null = nullable := by cases c <;> rfl
  rw [coerce_null, hpast, haccept]
  cases nullable with
  | true => exact Outcome.ok _
  | false => exact Outcome.failed nofun

mutual

/-- **What a type accepts, and where the coercion panics.** -/
theorem outcome_coerce (t : NullableColType) (v : Value) :
    Outcome (t.coerce P curVld v) (t.accepts P v) (t.reachesPast P v) := by
  match t with
  | .mk c nullable =>
    by_cases hv : v = .null
    · subst hv
      exact outcome_null P curVld c nullable
    match c with
    | .list eltype len =>
      cases v with
      | list l =>
        simp only [coerce, accepts, reachesPast]
        cases len.any (· ≠ l.length) with
        | true => exact Outcome.failed nofun
        | false => exact (outcome_coerceEach (fun v => outcome_coerce eltype v) l).map _
      | _ =>
        obtain ⟨hco, hacc, hpast⟩ :=
          coerce_of_not_list P curVld (c := .list eltype len) rfl nullable hv (by nofun)
        rw [hco, hacc, hpast]
        exact Outcome.failed nofun
    | .tuple types =>
      cases v with
      | list l =>
        simp only [coerce, accepts, reachesPast]
        by_cases hlen : types.length = l.length
        · simp only [hlen, ne_eq, not_true_eq_false, if_false, decide_true, Bool.true_and]
          exact (outcome_coerceTuple types l hlen).map _
        · simp only [hlen, ne_eq, not_false_eq_true, if_true, decide_false, Bool.false_and]
          exact Outcome.failed nofun
      | _ =>
        obtain ⟨hco, hacc, hpast⟩ :=
          coerce_of_not_list P curVld (c := .tuple types) rfl nullable hv (by nofun)
        rw [hco, hacc, hpast]
        exact Outcome.failed nofun
    | .any | .bool | .int | .float | .string | .bytes | .uuid | .vec _ _ | .validity | .json =>
      rw [coerce_leaf P curVld rfl nullable hv, accepts_leaf P rfl nullable hv,
        reachesPast_leaf P rfl nullable v]
      exact outcome_coerceLeaf P curVld _ nullable v rfl

theorem outcome_coerceTuple (ts : List NullableColType) (l : List Value)
    (hlen : ts.length = l.length) :
    Outcome (coerceTuple P curVld ts l) (acceptsTuple P ts l) (reachesPastTuple P ts l) := by
  match ts, l with
  | [], [] =>
    simp only [coerceTuple, acceptsTuple, reachesPastTuple]
    exact Outcome.ok _
  | t :: ts, v :: l =>
    simp only [coerceTuple, acceptsTuple, reachesPastTuple]
    exact (outcome_coerce t v).cons (outcome_coerceTuple ts l (Nat.succ.inj hlen))

end

end Elements

/-! ### Coercing again -/

theorem orFail_eq_ok {ε : Type} {e : ε} {o : Option α} {a : α} :
    orFail e o = .ok a ↔ o = some a := by
  cases o <;> simp [orFail]

theorem length_of_mapM {β : Type} {f : α → Option β} {l : List α} {m : List β}
    (h : l.mapM f = some m) : m.length = l.length := by
  induction l generalizing m with
  | nil =>
    cases h
    rfl
  | cons a l ih =>
    rw [mapM_cons] at h
    obtain ⟨b, -, hrest⟩ := Option.bind_eq_some_iff.1 h
    obtain ⟨bs, hbs, hm⟩ := Option.bind_eq_some_iff.1 hrest
    cases hm
    rw [length_cons, ih hbs, length_cons]

variable {l : List Value}

section Again

variable {P : Decoders} {curVld : Int64}

variable {nullable : Bool} {v w : Value}

theorem validity_of_coerceValidity {parse : Bytes → Option Int}
    (h : coerceValidity parse curVld v = .ok w) : ∃ x, w = .validity x := by
  unfold coerceValidity at h
  split at h
  · exact ⟨_, (Except.ok.inj h).symm⟩
  · split at h
    · exact ⟨_, (Except.ok.inj h).symm⟩
    split at h
    · exact ⟨_, (Except.ok.inj h).symm⟩
    dsimp only at h
    split at h
    · cases h
    split at h
    · cases h
    split at h
    · cases h
    · exact ⟨_, (Except.ok.inj h).symm⟩
  · split at h
    · split at h
      · cases h
      · exact ⟨_, (Except.ok.inj h).symm⟩
    · cases h
  · cases h

theorem vec_of_coerceVec {t : NullableColType} {eltype : VecElementType} {len : Nat}
    (h : coerceVec P t eltype len v = .ok w) : ∃ arr, w = .vec arr ∧
    eltype = arr.elType ∧ len = arr.len := by
  unfold coerceVec at h
  split at h
  case h_1 l =>
    split at h
    · cases h
    case isFalse hlen =>
      obtain ⟨fs, hfs, rfl⟩ := except_map_eq_ok.1 h
      have hlength := length_of_mapM (orFail_eq_ok.1 hfs)
      refine ⟨_, rfl, ?_, ?_⟩
      · cases eltype <;> rfl
      · cases eltype <;> simp [Decoders.ofFloats, Vector.len, hlength, not_not.1 hlen]
  case h_2 arr =>
    split at h
    · cases h
    case isFalse hsame =>
      rw [not_or, not_not, not_not] at hsame
      exact ⟨arr, (Except.ok.inj h).symm, hsame⟩
  case h_3 s =>
    split at h
    · cases h
    case h_2 b hb =>
      split at h
      · cases h
      case isFalse hlen =>
        refine ⟨_, (Except.ok.inj h).symm, ?_, (not_not.1 hlen).symm⟩
        cases eltype <;> rfl
  case h_4 => cases h

theorem coerceLeaf_again {t : NullableColType} {c : ColType} (hv : v ≠ .null)
    (h : coerceLeaf P curVld t nullable v c = .ok w) (later : Int64) :
    w ≠ .null ∧ coerceLeaf P later t nullable w c = .ok w := by
  cases c with
  | any =>
    cases v with
    | null => exact absurd rfl hv
    | bot => cases h
    | _ =>
      cases h
      exact ⟨nofun, rfl⟩
  | bool =>
    obtain ⟨b, -, rfl⟩ := except_map_eq_ok.1 h
    exact ⟨nofun, rfl⟩
  | int =>
    obtain ⟨i, -, rfl⟩ := except_map_eq_ok.1 h
    exact ⟨nofun, rfl⟩
  | float =>
    obtain ⟨f, -, rfl⟩ := except_map_eq_ok.1 h
    exact ⟨nofun, rfl⟩
  | string =>
    cases v with
    | str s =>
      cases h
      exact ⟨nofun, rfl⟩
    | _ => cases h
  | bytes =>
    cases v with
    | bytes b =>
      cases h
      exact ⟨nofun, rfl⟩
    | str s =>
      obtain ⟨b, -, rfl⟩ := except_map_eq_ok.1 h
      exact ⟨nofun, rfl⟩
    | _ => cases h
  | uuid =>
    obtain ⟨u, -, rfl⟩ := except_map_eq_ok.1 h
    exact ⟨nofun, rfl⟩
  | vec eltype len =>
    obtain ⟨arr, rfl, htype, hlen⟩ := vec_of_coerceVec h
    exact ⟨nofun, by simp [coerceLeaf, coerceVec, ← htype, ← hlen]⟩
  | validity =>
    obtain ⟨x, rfl⟩ := validity_of_coerceValidity (mapError_eq_ok.1 h)
    exact ⟨nofun, rfl⟩
  | json =>
    obtain ⟨s, -, rfl⟩ := except_map_eq_ok.1 h
    exact ⟨nofun, by simp [coerceLeaf, coerceJson, Except.map]⟩
  | list eltype len => cases h
  | tuple types => cases h

theorem cons_eq_ok {r : Except CoercionFailure α} {rs : Except CoercionFailure (List α)}
    {m : List α} :
    (do let w ← r; let ws ← rs; pure (w :: ws)) = .ok m ↔ ∃ w ws, r = .ok w ∧
    rs = .ok ws ∧ m = w :: ws := by
  simp only [bind_ok, except_pure_eq_ok]
  constructor
  · rintro ⟨w, hw, ws, hws, rfl⟩
    exact ⟨w, ws, hw, hws, rfl⟩
  · rintro ⟨w, ws, hw, hws, rfl⟩
    exact ⟨w, hw, ws, hws, rfl⟩

theorem coerceEach_again {g : Value → Except CoercionFailure Value}
    (hf : ∀ v w, f v = .ok w → g w = .ok w)
    {m : List Value} (h : coerceEach f l = .ok m) : m.length = l.length ∧
    coerceEach g m = .ok m := by
  induction l generalizing m with
  | nil =>
    cases h
    exact ⟨rfl, rfl⟩
  | cons v l ih =>
    obtain ⟨w, ws, hw, hws, rfl⟩ := cons_eq_ok.1 h
    obtain ⟨hlen, hagain⟩ := ih hws
    exact ⟨by rw [length_cons, hlen, length_cons], cons_eq_ok.2 ⟨w, ws, hf v w hw, hagain, rfl⟩⟩

theorem coerce_null_eq_ok {c : ColType} {w : Value}
    (h : (NullableColType.mk c nullable).coerce P curVld .null = .ok w) : w = .null := by
  rw [coerce_null] at h
  split at h
  · exact (Except.ok.inj h).symm
  · cases h

theorem coerce_list_eq_ok {eltype : NullableColType} {len : Option Nat} {w : Value} :
    (NullableColType.mk (.list eltype len) nullable).coerce P curVld (.list l) = .ok w ↔
      len.any (· ≠ l.length) = false ∧ ∃ m, coerceEach (eltype.coerce P curVld) l = .ok m ∧
      w = .list m := by
  simp only [coerce]
  cases len.any (· ≠ l.length) with
  | true => simp
  | false =>
    simp only [Bool.false_eq_true, if_false, true_and]
    exact except_map_eq_ok.trans ⟨fun ⟨m, hm, hw⟩ => ⟨m, hm, hw.symm⟩, fun ⟨m, hm, hw⟩ => ⟨m, hm, hw.symm⟩⟩

theorem coerce_tuple_eq_ok {types : List NullableColType} {w : Value} :
    (NullableColType.mk (.tuple types) nullable).coerce P curVld (.list l) = .ok w ↔
      types.length = l.length ∧ ∃ m, coerceTuple P curVld types l = .ok m ∧ w = .list m := by
  simp only [coerce]
  by_cases hlen : types.length = l.length
  · simp only [hlen, ne_eq, not_true_eq_false, if_false, true_and]
    exact except_map_eq_ok.trans ⟨fun ⟨m, hm, hw⟩ => ⟨m, hm, hw.symm⟩, fun ⟨m, hm, hw⟩ => ⟨m, hm, hw.symm⟩⟩
  · simp [hlen]

mutual

/-- **Coercing again changes nothing**, for all types and values, now or later. -/
theorem coerce_of_coerce (later : Int64) (t : NullableColType) (v w : Value)
    (h : t.coerce P curVld v = .ok w) : t.coerce P later w = .ok w := by
  match t with
  | .mk c nullable =>
    by_cases hv : v = .null
    · subst hv
      obtain rfl := coerce_null_eq_ok h
      rw [coerce_null] at h ⊢
      exact h
    match c with
    | .list eltype len =>
      cases v with
      | list l =>
        obtain ⟨hlen, m, hm, rfl⟩ := coerce_list_eq_ok.1 h
        obtain ⟨hlength, hagain⟩ := coerceEach_again (fun v w => coerce_of_coerce later eltype v w) hm
        exact coerce_list_eq_ok.2 ⟨by rwa [hlength], m, hagain, rfl⟩
      | _ =>
        rw [(coerce_of_not_list P curVld (c := .list eltype len) rfl nullable hv (by nofun)).1] at h
        cases h
    | .tuple types =>
      cases v with
      | list l =>
        obtain ⟨hlen, m, hm, rfl⟩ := coerce_tuple_eq_ok.1 h
        obtain ⟨hlength, hagain⟩ := coerceTuple_of_coerceTuple later types l m hlen hm
        exact coerce_tuple_eq_ok.2 ⟨hlen.trans hlength.symm, m, hagain, rfl⟩
      | _ =>
        rw [(coerce_of_not_list P curVld (c := .tuple types) rfl nullable hv (by nofun)).1] at h
        cases h
    | .any | .bool | .int | .float | .string | .bytes | .uuid | .vec _ _ | .validity | .json =>
      rw [coerce_leaf P curVld rfl nullable hv] at h
      obtain ⟨hw, hagain⟩ := coerceLeaf_again hv h later
      rw [coerce_leaf P later rfl nullable hw, hagain]

theorem coerceTuple_of_coerceTuple (later : Int64) (ts : List NullableColType) (l m : List Value)
    (hlen : ts.length = l.length) (h : coerceTuple P curVld ts l = .ok m) :
    m.length = l.length ∧ coerceTuple P later ts m = .ok m := by
  match ts, l with
  | [], [] =>
    simp only [coerceTuple] at h
    cases h
    exact ⟨rfl, by simp only [coerceTuple]⟩
  | t :: ts, v :: l =>
    simp only [coerceTuple] at h
    obtain ⟨w, ws, hw, hws, rfl⟩ := cons_eq_ok.1 h
    obtain ⟨hlength, hagain⟩ := coerceTuple_of_coerceTuple later ts l ws (Nat.succ.inj hlen) hws
    refine ⟨by rw [length_cons, hlength, length_cons], ?_⟩
    simp only [coerceTuple]
    exact cons_eq_ok.2 ⟨w, ws, coerce_of_coerce later t v w hw, hagain, rfl⟩

end

/-! ### Floats that become integers -/

theorem preservesInts_int {v w : Value}
    (h : coerceLeaf P curVld (.mk .int nullable) nullable v .int = .ok w) :
    (NullableColType.mk .int nullable).PreservesInts v w ↔
    (NullableColType.mk .int nullable).intsFit v = true := by
  obtain ⟨i, hi, rfl⟩ := except_map_eq_ok.1 h
  have hget := orFail_eq_ok.1 hi
  cases v with
  | num n =>
    cases n with
    | int j => simp [PreservesInts, intsFit]
    | float f =>
      simp only [PreservesInts, intsFit]
      simp only [DataValue.getInt, Num.getInt] at hget
      split at hget
      case isTrue hint =>
        cases hget
        exact F64.denotes_toInt64_iff hint
      case isFalse => cases hget
  | _ => cases hget

theorem preserves_coerceEach {R : Value → Value → Prop} {fits : Value → Bool}
    (hf : ∀ v w, f v = .ok w → (R v w ↔ fits v = true)) {m : List Value}
    (h : coerceEach f l = .ok m) : List.Forall₂ R l m ↔ l.all fits = true := by
  induction l generalizing m with
  | nil =>
    cases h
    simp
  | cons v l ih =>
    obtain ⟨w, ws, hw, hws, rfl⟩ := cons_eq_ok.1 h
    rw [forall₂_cons, all_cons, Bool.and_eq_true, hf v w hw, ih hws]

mutual

/-- **Where a value is accepted**, floats become the integers they denote exactly if they are in the
range. -/
theorem preservesInts_iff (t : NullableColType) (v w : Value) (h : t.coerce P curVld v = .ok w) :
    t.PreservesInts v w ↔ t.intsFit v = true := by
  match t with
  | .mk c nullable =>
    by_cases hv : v = .null
    · subst hv
      cases c <;> simp [PreservesInts, intsFit]
    match c with
    | .list eltype len =>
      cases v with
      | list l =>
        obtain ⟨-, m, hm, rfl⟩ := coerce_list_eq_ok.1 h
        simp only [PreservesInts, intsFit]
        exact preserves_coerceEach (fun v w => preservesInts_iff eltype v w) hm
      | _ => simp [PreservesInts, intsFit]
    | .tuple types =>
      cases v with
      | list l =>
        obtain ⟨hlen, m, hm, rfl⟩ := coerce_tuple_eq_ok.1 h
        simp only [PreservesInts, intsFit]
        exact preservesTuple_iff types l m hlen hm
      | _ => simp [PreservesInts, intsFit]
    | .int =>
      rw [coerce_leaf P curVld rfl nullable hv] at h
      exact preservesInts_int h
    | .any | .bool | .float | .string | .bytes | .uuid | .vec _ _ | .validity | .json =>
      simp [PreservesInts, intsFit]

theorem preservesTuple_iff (ts : List NullableColType) (l m : List Value)
    (hlen : ts.length = l.length)
    (h : coerceTuple P curVld ts l = .ok m) : NullableColType.PreservesTuple ts l m ↔
    intsFitTuple ts l = true := by
  match ts, l with
  | [], [] => simp [NullableColType.PreservesTuple, intsFitTuple]
  | t :: ts, v :: l =>
    simp only [coerceTuple] at h
    obtain ⟨w, ws, hw, hws, rfl⟩ := cons_eq_ok.1 h
    simp only [NullableColType.PreservesTuple, intsFitTuple]
    rw [Bool.and_eq_true, preservesInts_iff t v w hw, preservesTuple_iff ts l ws (Nat.succ.inj hlen) hws]

end

end Again

/-- **Which coercions are faithful**: those that get to no time before the epoch and accept only
floats in the range of integers for integer columns, at every depth. -/
theorem coerce_faithful_iff (P : Decoders) (curVld : Int64) (t : NullableColType)
    (v : Value) : Faithful P curVld t v ↔ t.safe P v = true := by
  have hout := outcome_coerce P curVld t v
  rw [NullableColType.safe, Bool.and_eq_true, Bool.not_eq_true', Bool.or_eq_true, Bool.not_eq_true']
  constructor
  · intro hf
    constructor
    · rw [← Bool.not_eq_true, ← hout.panic_iff]
      rintro ⟨p, hp⟩
      exact hf.noPanic p hp
    · rw [or_iff_not_imp_left, Bool.not_eq_false, ← hout.ok_iff]
      rintro ⟨w, hw⟩
      exact (preservesInts_iff t v w hw).1 (hf.exact w hw)
  · rintro ⟨hpast, hfits⟩
    refine ⟨fun p hp => ?_, fun w => coerce_of_coerce curVld t v w, fun w hw => ?_⟩
    · rw [hout.panic_iff.1 ⟨p, hp⟩] at hpast
      cases hpast
    · rw [hout.ok_iff.1 ⟨w, hw⟩] at hfits
      exact (preservesInts_iff t v w hw).2 (hfits.resolve_left (by simp))

/-- Libraries that decode nothing but one time, which is a second before the epoch. -/
def plainDecoders : Decoders where
  base64 _ := none
  parseUuid _ := none
  parseRfc3339 s := if s = strBytes "1969-12-31T23:59:59Z" then some (-1000000) else none
  toF32 _ := ⟨0⟩
  f32s b := List.replicate (b.length / 4) ⟨0⟩
  length_f32s _ := length_replicate
  f64s b := List.replicate (b.length / 8) ⟨0⟩
  length_f64s _ := length_replicate
  jsonText _ := []

/-- The float `2^63`. -/
def twoPow63 : F64 := F64.ofMag false (1086 * 2 ^ 52)

/-- `2^63` is accepted by an integer column, as the largest integer, and a time before the epoch
panics. -/
theorem coerce_out_of_range : coerce plainDecoders 0 (.mk .int false) (.num (.float twoPow63)) =
    .ok (.num (.int Int64.maxValue)) ∧
      ¬ (NullableColType.mk .int false).PreservesInts (.num (.float twoPow63))
      (.num (.int Int64.maxValue)) ∧
      coerce plainDecoders 0 (.mk .validity false) (.str (strBytes "1969-12-31T23:59:59Z")) =
      .error (.validity (.panic .unreachable)) := by
  have hint : twoPow63.isIntegral = true := by decide
  have hmax : twoPow63.toInt64 = Int64.maxValue := by decide
  refine ⟨?_, ?_, ?_⟩
  · rw [coerce_leaf plainDecoders 0 rfl false (by nofun), coerceLeaf,
      DataValue.getInt, Num.getInt, if_pos hint, hmax]
    rfl
  · rw [PreservesInts, ← hmax, F64.denotes_toInt64_iff hint]
    decide
  · rw [coerce_leaf plainDecoders 0 rfl false (by nofun)]
    rfl

end Retia
