import Mathlib.Data.List.Basic
import Mathlib.Tactic.IntervalCases
import Retia.Data.Float
import Retia.Data.Functions

/-!
# Bits and bytes

`data/functions.rs`: the operators `unpack_bits`, from bytes to the list of their bits, and
`pack_bits`, from a list of booleans to bytes. The first bit of a byte is the most significant one,
and `pack_bits` fills the last byte with zeros.

The loop of `pack_bits` sets bits in bytes that are all zero at first. Seen through `unpackBits` it
writes the list from left to right over a list of `false` (`unpackBits_packLoop`), and this
describes the bytes completely, since different bytes have different bits (`unpackBits_injective`).

The number of bytes is computed with floats. It is exact below `2 ^ 53` bits, more than a machine
can hold.

`unpack_pack_bits`: packing and unpacking pads with `false` to whole bytes, unpacking and packing
changes nothing.
-/

namespace Retia

open List

variable {X : Type}

/-! ### The operators -/

def bitMasks : List UInt8 :=
  [0b10000000, 0b01000000, 0b00100000, 0b00010000, 0b00001000, 0b00000100, 0b00000010, 0b00000001]

def byteBits (byte : UInt8) : List Bool := bitMasks.map fun mask => (byte &&& mask) != 0

def unpackBits (bs : Bytes) : List Bool := bs.flatMap byteBits

/-- `op_unpack_bits`. -/
def opUnpackBits : List (DataValue X) → Except OpError (DataValue X)
  | .bytes bs :: _ => .ok (.list ((unpackBits bs).map .bool))
  | [] => .error (.panic .indexOutOfBounds)
  | _ => .error (.bail "'unpack_bits' requires bytes")

/-- `(len as f64 / 8.).ceil() as usize`. Only the conversion rounds: dividing a float by eight and
taking the ceiling of one are exact. -/
def packedLen (len : Nat) : Nat := (magTrunc (natRound len) + 7) / 8

/-- The loop of `op_pack_bits`, from the bit at position `i`. -/
def packLoop (res : Bytes) (i : Nat) : List (DataValue X) → Except OpError Bytes
  | [] => .ok res
  | .bool b :: v =>
    if b then
      match res[i / 8]? with
      | some target => packLoop (res.set (i / 8) (target ||| bitMasks.getD (i % 8) 0)) (i + 1) v
      | none => .error (.panic .indexOutOfBounds)
    else packLoop res (i + 1) v
  | _ :: _ => .error (.bail "'pack_bits' requires list of booleans")

def packBits (v : List (DataValue X)) : Except OpError (DataValue X) := do
  return .bytes (← packLoop (List.replicate (packedLen v.length) 0) 0 v)

/-- `op_pack_bits`. -/
def opPackBits : List (DataValue X) → Except OpError (DataValue X)
  | .list v :: _ => packBits v
  | .set v :: _ => packBits v
  | [] => .error (.panic .indexOutOfBounds)
  | _ => .error (.bail "'pack_bits' requires list of booleans")

/-! ### Bytes and their bits -/

theorem length_byteBits (byte : UInt8) : (byteBits byte).length = 8 := rfl

def ofBits (bits : List Bool) : UInt8 := bits.foldl (fun byte b => byte * 2 + if b then 1 else 0) 0

theorem ofBits_byteBits (byte : UInt8) : ofBits (byteBits byte) = byte := by
  have h : ∀ n : Fin 256, ofBits (byteBits (UInt8.ofFin n)) = UInt8.ofFin n := by decide +kernel
  exact h byte.toFin

theorem test_or (a b mask : UInt8) :
    ((a ||| b) &&& mask != 0) = ((a &&& mask != 0) || (b &&& mask != 0)) := by
  have hdistrib : (a ||| b) &&& mask = a &&& mask ||| b &&& mask :=
    UInt8.toBitVec_inj.1 (BitVec.and_or_distrib_right)
  rw [hdistrib, Bool.eq_iff_iff]
  simp only [bne_iff_ne, ne_eq, Bool.or_eq_true, UInt8.or_eq_zero_iff, not_and_or]

theorem byteBits_or (a b : UInt8) :
    byteBits (a ||| b) = List.zipWith (· || ·) (byteBits a) (byteBits b) := by
  simp only [byteBits, test_or, zipWith_map, zipWith_self]

theorem byteBits_or_mask (byte : UInt8) {j : Nat} (hj : j < 8) :
    byteBits (byte ||| bitMasks.getD j 0) = (byteBits byte).set j true := by
  have hmask : ∀ j : Fin 8, byteBits (bitMasks.getD j 0) = (List.replicate 8 false).set j true := by decide
  rw [byteBits_or, hmask ⟨j, hj⟩]
  refine ext_getElem (by simp [length_byteBits]) fun k hk hk' => ?_
  simp only [getElem_zipWith, getElem_set, getElem_replicate]
  by_cases h : j = k <;> simp [h]

theorem length_unpackBits (bs : Bytes) : (unpackBits bs).length = 8 * bs.length := by
  induction bs with
  | nil => rfl
  | cons b bs ih =>
    rw [unpackBits, flatMap_cons, length_append, length_byteBits, ← unpackBits, ih, length_cons]
    omega

theorem unpackBits_injective : ∀ {bs cs : Bytes}, unpackBits bs = unpackBits cs → bs = cs
  | [], [], _ => rfl
  | [], c :: cs, h | b :: bs, [], h => by simpa [length_unpackBits] using congrArg List.length h
  | b :: bs, c :: cs, h => by
    obtain ⟨hbyte, hrest⟩ := append_inj h (by simp only [length_byteBits])
    rw [← ofBits_byteBits b, hbyte, ofBits_byteBits, unpackBits_injective hrest]

theorem unpackBits_set : ∀ {bs : Bytes} {c j : Nat} {target : UInt8}, bs[c]? = some target → j < 8 →
    unpackBits (bs.set c (target ||| bitMasks.getD j 0)) = (unpackBits bs).set (8 * c + j) true
  | [], c, j, target, h, _ => by simp at h
  | b :: bs, 0, j, target, h, hj => by
    cases h
    rw [set_cons_zero, unpackBits, unpackBits, flatMap_cons, flatMap_cons,
      byteBits_or_mask _ hj, Nat.mul_zero,
      Nat.zero_add, set_append_left _ _ (by rw [length_byteBits]; exact hj)]
  | b :: bs, c + 1, j, target, h, hj => by
    have ih := @unpackBits_set bs c j target h hj
    rw [set_cons_succ, unpackBits, unpackBits, flatMap_cons, flatMap_cons, ← unpackBits, ← unpackBits, ih,
      set_append_right _ _ (by rw [length_byteBits]; omega), length_byteBits]
    congr 2
    omega

theorem unpackBits_zero (n : Nat) :
    unpackBits (List.replicate n 0) = List.replicate (8 * n) false := by
  induction n with
  | zero => rfl
  | succ n ih =>
    rw [replicate_succ, unpackBits, flatMap_cons, ← unpackBits, ih, Nat.mul_succ,
      Nat.add_comm, replicate_add]
    rfl

/-! ### The loop -/

/-- **The loop**, seen from its result: over zeros it writes the list, from left to right. -/
theorem unpackBits_packLoop : ∀ (l : List Bool) {res : Bytes} {i k : Nat} {done : List Bool},
    done.length = i → unpackBits res = done ++ List.replicate k false → l.length ≤ k →
    ∃ r, packLoop (X := X) res i (l.map .bool) = .ok r ∧
    unpackBits r = done ++ l ++ List.replicate (k - l.length) false
  | [], res, i, k, done, _, hres, _ => ⟨res, rfl, by simpa using hres⟩
  | b :: l, res, i, k, done, hdone, hres, hk => by
    obtain ⟨k, rfl⟩ : ∃ k', k = k' + 1 := ⟨k - 1, by simp only [length_cons] at hk; omega⟩
    have hk' : l.length ≤ k := by simpa using hk
    -- after the step the first of the zeros is the bit
    have hstep : ∀ {res' : Bytes}, unpackBits res' = done ++ b :: List.replicate k false →
        ∃ r, packLoop (X := X) res' (i + 1) (l.map .bool) = .ok r ∧
          unpackBits r = done ++ b :: l ++ List.replicate (k + 1 - (b :: l).length) false := by
      intro res' hres'
      have hdone' : (done ++ [b]).length = i + 1 := by rw [length_append, hdone]; rfl
      obtain ⟨r, hr, hbits⟩ := unpackBits_packLoop l hdone' (by simpa using hres') hk'
      exact ⟨r, hr, by simpa using hbits⟩
    cases b with
    | false => exact hstep hres
    | true =>
      have hlength := congrArg List.length hres
      simp only [length_unpackBits, length_append, length_replicate, hdone] at hlength
      have hc : i / 8 < res.length := by omega
      have hget : res[i / 8]? = some res[i / 8] := List.getElem?_eq_getElem hc
      have hset := unpackBits_set hget (Nat.mod_lt i (by decide : 0 < 8))
      rw [Nat.div_add_mod, hres, set_append_right _ _ hdone.le, hdone, Nat.sub_self,
        replicate_succ, set_cons_zero] at hset
      obtain ⟨r, hr, hbits⟩ := hstep hset
      refine ⟨r, ?_, hbits⟩
      rw [map_cons, packLoop, if_pos rfl, hget]
      exact hr

theorem packBits_eq {l : List Bool} (h : l.length ≤ 8 * packedLen l.length) :
    ∃ r, opPackBits (X := X) [.list (l.map .bool)] = .ok (.bytes r) ∧
      unpackBits r = l ++ List.replicate (8 * packedLen l.length - l.length) false := by
  have hzero : unpackBits (List.replicate (packedLen l.length) 0) =
      [] ++ List.replicate (8 * packedLen l.length) false := unpackBits_zero _
  obtain ⟨r, hr, hbits⟩ := unpackBits_packLoop (X := X) l length_nil hzero h
  refine ⟨r, ?_, by simpa using hbits⟩
  rw [opPackBits, packBits, length_map, hr]
  rfl

theorem packedLen_eq {len : Nat} (h : len < 2 ^ 53) : packedLen len = (len + 7) / 8 := by
  rw [packedLen, magTrunc_natRound h]

/-- The list, filled up with `false` to whole bytes. -/
def padToByte (l : List Bool) : List Bool := l ++ List.replicate ((8 - l.length % 8) % 8) false

/-- **Packing and unpacking**, for fewer than `2 ^ 53` bits: a list comes back filled up with
`false` to whole bytes, and bytes come back as they are. -/
theorem unpack_pack_bits : (∀ l : List Bool, l.length < 2 ^ 53 →
      (opPackBits [.list (l.map .bool)] >>= fun packed => opUnpackBits [packed]) =
      .ok (.list ((padToByte l).map .bool) : DataValue X)) ∧
    (∀ bs : Bytes, 8 * bs.length < 2 ^ 53 →
      (opUnpackBits [.bytes bs] >>= fun bits => opPackBits [bits]) =
      .ok (.bytes bs : DataValue X)) := by
  constructor
  · intro l hl
    have hlen := packedLen_eq hl
    obtain ⟨r, hr, hbits⟩ := packBits_eq (X := X) (l := l) (by omega)
    have hpad : 8 * packedLen l.length - l.length = (8 - l.length % 8) % 8 := by omega
    rw [hpad] at hbits
    rw [hr]
    show Except.ok (DataValue.list ((unpackBits r).map .bool)) = _
    rw [hbits, padToByte]
  · intro bs hbs
    have hlength := length_unpackBits bs
    have hlen := packedLen_eq (hlength ▸ hbs)
    obtain ⟨r, hr, hbits⟩ := packBits_eq (X := X) (l := unpackBits bs) (by omega)
    have hnopad : 8 * packedLen (unpackBits bs).length - (unpackBits bs).length = 0 := by omega
    rw [hnopad, replicate_zero, append_nil] at hbits
    rw [unpackBits_injective hbits] at hr
    exact hr

theorem unpack_pack_three_bits :
    (opPackBits [.list ([true, false, true].map .bool)] >>= fun packed => opUnpackBits [packed]) =
      .ok (.list ([true, false, true, false, false, false, false, false].map .bool) : DataValue
      Unit) :=
  unpack_pack_bits.1 [true, false, true] (by decide)

end Retia
