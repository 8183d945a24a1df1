import Mathlib.Tactic.IntervalCases
import Retia.Data.Value

/-!
# The key encoding

`data/memcmp.rs`: values as byte strings, self-delimiting, so that a key is the concatenation of the
encodings of its columns.

* Fixed-width fields are big-endian. Integers have their sign bit flipped and floats are bent so
  that the byte order is the value order (`orderEncodeI64`, `orderEncodeF64`); a validity stores the
  complement of its time, so that newer comes first.
* Texts are written in groups of eight bytes, each followed by a marker that says how many of them
  are padding (`encodeBytes`).
* Lists and sets are their elements, closed by a byte that no value begins with.

Where the source panics on malformed bytes, the decoder returns `none`. It takes fuel, one unit per
nested call; every call consumes a tag, so the length of the input is enough.

The result is the round trip `decodeFromKey_encode`: whatever follows, the decoder gives back a
well-formed value and leaves the rest. That the encodings are self-delimiting
(`encodeTuple_append_inj`) is a corollary.
-/

namespace Retia

open List
open BitVec (isLt ofNat twoPow)

inductive Vector where
  | f32 (a : List F32)
  | f64 (a : List F64)
deriving DecidableEq

/-! ### Comparison of arrays -/

namespace F32

def sign (f : F32) : Bool := f.bits.msb

def mag (f : F32) : Nat := f.bits.toNat % 2 ^ 31

def isNan (f : F32) : Bool := 255 * 2 ^ 23 < f.mag

def numKey (f : F32) : Int := if f.sign then -(f.mag : Int) else f.mag

end F32

/-- `OrderedFloat`: a NaN is equal to every NaN and greater than every number. -/
def orderedCmp (nanL nanR : Bool) (l r : Int) : Ordering :=
  match nanL, nanR with
  | true, true => .eq
  | true, false => .gt
  | false, true => .lt
  | false, false => compare l r

/-- `Ord for Vector`: by element type, then by length, then by elements. -/
def Vector.cmp : Vector → Vector → Ordering
  | f32 l, f32 r => (compare l.length r.length).then
      (l.zipWith (fun a b => orderedCmp a.isNan b.isNan a.numKey b.numKey) r |>.foldr .then .eq)
  | f32 _, f64 _ => .lt
  | f64 l, f64 r => (compare l.length r.length).then
      (l.zipWith (fun a b => orderedCmp a.isNan b.isNan a.numKey b.numKey) r |>.foldr .then .eq)
  | f64 _, f32 _ => .gt

instance : Ord Vector := ⟨Vector.cmp⟩

abbrev Value := DataValue Vector

namespace Memcmp

/-! ### Tags -/

def initTag : UInt8 := 0x00
def nullTag : UInt8 := 0x01
def falseTag : UInt8 := 0x02
def trueTag : UInt8 := 0x03
def vecTag : UInt8 := 0x04
def numTag : UInt8 := 0x05
def strTag : UInt8 := 0x06
def bytesTag : UInt8 := 0x07
def uuidTag : UInt8 := 0x08
def regexTag : UInt8 := 0x09
def listTag : UInt8 := 0x0A
def setTag : UInt8 := 0x0B
def vldTag : UInt8 := 0x0C
def jsonTag : UInt8 := 0x0D
def botTag : UInt8 := 0xFF

def vecF32 : UInt8 := 0x01
def vecF64 : UInt8 := 0x02

def isFloat : UInt8 := 0b00010000
def isApproxInt : UInt8 := 0b00000100
def isExactInt : UInt8 := 0b00000000
def exactIntBound : Int := 0x20000000000000

def encGroupSize : Nat := 8
def encMarker : UInt8 := 0xFF

def signMark : BitVec 64 := 0x8000000000000000#64

/-! ### Fixed-width fields -/

def orderEncodeI64 (v : Int64) : BitVec 64 := v.toBitVec ^^^ signMark

def orderDecodeI64 (u : BitVec 64) : Int64 := Int64.ofBitVec (u ^^^ signMark)

def orderEncodeF64 (v : F64) : BitVec 64 := if !v.sign then v.bits ||| signMark else ~~~v.bits

def orderDecodeF64 (u : BitVec 64) : F64 :=
  ⟨if 0#64 < u &&& signMark then u &&& ~~~signMark else ~~~u⟩

/-- `write_u64::<BigEndian>`. -/
def writeU64 (u : BitVec 64) : Bytes := beBytes 8 u.toNat

/-- `split_at(n)`. -/
def splitAt (n : Nat) (bs : Bytes) : Option (Bytes × Bytes) :=
  if n ≤ bs.length then some (bs.take n, bs.drop n) else none

/-- `split_at(8)` and `read_u64`. -/
def readU64 (bs : Bytes) : Option (BitVec 64 × Bytes) :=
  (splitAt 8 bs).map fun (h, t) => (ofNat 64 (beNat h), t)

/-- `split_at(4)` and `read_u32`. -/
def readU32 (bs : Bytes) : Option (BitVec 32 × Bytes) :=
  (splitAt 4 bs).map fun (h, t) => (ofNat 32 (beNat h), t)

/-- Reads `n` fields one after the other. -/
def readMany {α : Type} (read : Bytes → Option (α × Bytes)) : Nat → Bytes → Option (List α × Bytes)
  | 0, bs => some ([], bs)
  | n + 1, bs => do
    let (a, bs) ← read bs
    let (as, bs) ← readMany read n bs
    some (a :: as, bs)

/-! ### Texts -/

/-- One pass of the loop of `encode_bytes`, with `remain` still to be written. -/
def encodeGroup (remain : Bytes) : Bytes :=
  if encGroupSize < remain.length then remain.take encGroupSize ++ [encMarker]
  else
    let pad := encGroupSize - remain.length
    remain ++ List.replicate pad 0 ++ [encMarker - UInt8.ofNat pad]

/-- `encode_bytes`: the loop runs at the indices `0, 8, …` up to the length, inclusive. -/
def encodeBytes (key : Bytes) : Bytes :=
  (List.range (key.length / encGroupSize + 1)).flatMap fun g => encodeGroup (key.drop (encGroupSize * g))

/-- `decode_bytes`. -/
def decodeBytes : Nat → Bytes → Option (Bytes × Bytes)
  | 0, _ => none
  | fuel + 1, data => do
    let (bytes, data) ← splitAt encGroupSize data
    let (marker, data) ← data.head?.map (·, data.tail)
    let padSize := (encMarker - marker).toNat
    if padSize = 0 then
      let (key, data) ← decodeBytes fuel data
      some (bytes ++ key, data)
    else if padSize ≤ encGroupSize then some (bytes.take (encGroupSize - padSize), data)
    else none

/-! ### Numbers -/

def encodeNum (v : Num) : Bytes :=
  writeU64 (orderEncodeF64 v.getFloat) ++
    match v with
    | .int i =>
      if -exactIntBound < i.toInt ∧ i.toInt < exactIntBound then [isExactInt]
      else isApproxInt :: writeU64 (orderEncodeI64 i)
    | .float _ => [isFloat]

def decodeNum (bs : Bytes) : Option (Num × Bytes) := do
  let (fu, bs) ← readU64 bs
  let f := orderDecodeF64 fu
  let (tag, bs) ← bs.head?.map (·, bs.tail)
  if tag = isFloat then some (.float f, bs)
  else if tag = isExactInt then some (.int f.toInt64, bs)
  else if tag = isApproxInt then (readU64 bs).map fun (iu, bs) => (.int (orderDecodeI64 iu), bs)
  else none

/-! ### Values -/

def encodeVector : Vector → Bytes
  | .f32 a => vecF32 :: writeU64 (ofNat 64 a.length) ++ a.flatMap fun el => beBytes 4 el.bits.toNat
  | .f64 a => vecF64 :: writeU64 (ofNat 64 a.length) ++ a.flatMap fun el => writeU64 el.bits

def decodeVector (bs : Bytes) : Option (Vector × Bytes) := do
  let (tTag, bs) ← bs.head?.map (·, bs.tail)
  let (len, bs) ← readU64 bs
  if tTag = vecF32 then
    (readMany readU32 len.toNat bs).map fun (a, bs) => (.f32 (a.map F32.mk), bs)
  else if tTag = vecF64 then
    (readMany readU64 len.toNat bs).map fun (a, bs) => (.f64 (a.map F64.mk), bs)
  else none

def encodeValidity (vld : Validity) : Bytes :=
  writeU64 (~~~orderEncodeI64 vld.timestamp) ++ [if !vld.isAssert then 1 else 0]

def decodeValidity (bs : Bytes) : Option (Validity × Bytes) := do
  let (tsFlipped, bs) ← readU64 bs
  let (isAssertByte, bs) ← bs.head?.map (·, bs.tail)
  some (⟨orderDecodeI64 (~~~tsFlipped), isAssertByte = 0⟩, bs)

mutual

def encodeDatavalue : Value → Bytes
  | .null => [nullTag]
  | .bool false => [falseTag]
  | .bool true => [trueTag]
  | .vec arr => vecTag :: encodeVector arr
  | .num n => numTag :: encodeNum n
  | .str s => strTag :: encodeBytes s
  | .json j => jsonTag :: encodeBytes j
  | .bytes b => bytesTag :: encodeBytes b
  | .uuid u => uuidTag :: beBytes 16 u.toNat
  | .regex rx => regexTag :: encodeBytes rx
  | .list l => listTag :: (encodeTuple l ++ [initTag])
  | .set s => setTag :: (encodeTuple s ++ [initTag])
  | .validity vld => vldTag :: encodeValidity vld
  | .bot => [botTag]

def encodeTuple : List Value → Bytes
  | [] => []
  | v :: vs => encodeDatavalue v ++ encodeTuple vs

end

mutual

def decodeAux : Nat → Bytes → Option (Value × Bytes)
  | 0, _ => none
  | fuel + 1, bs => do
    let (tag, remaining) ← bs.head?.map (·, bs.tail)
    if tag = nullTag then some (.null, remaining)
    else if tag = falseTag then some (.bool false, remaining)
    else if tag = trueTag then some (.bool true, remaining)
    else if tag = numTag then (decodeNum remaining).map fun (n, bs) => (.num n, bs)
    else if tag = strTag then
      (decodeBytes remaining.length remaining).map fun (s, bs) => (.str s, bs)
    else if tag = jsonTag then
      (decodeBytes remaining.length remaining).map fun (s, bs) => (.json s, bs)
    else if tag = bytesTag then
      (decodeBytes remaining.length remaining).map fun (s, bs) => (.bytes s, bs)
    else if tag = uuidTag then
      (splitAt 16 remaining).map fun (u, bs) => (.uuid (ofNat 128 (beNat u)), bs)
    else if tag = regexTag then
      (decodeBytes remaining.length remaining).map fun (s, bs) => (.regex s, bs)
    else if tag = listTag then (decodeSeq fuel remaining).map fun (l, bs) => (.list l, bs)
    else if tag = setTag then
      (decodeSeq fuel remaining).map fun (l, bs) =>
        (.set (DataValue.collectSet l), bs)
    else if tag = vldTag then (decodeValidity remaining).map fun (v, bs) => (.validity v, bs)
    else if tag = botTag then some (.bot, remaining)
    else if tag = vecTag then (decodeVector remaining).map fun (v, bs) => (.vec v, bs)
    else none

/-- The loop that collects the elements of a list or set, up to the closing byte. -/
def decodeSeq : Nat → Bytes → Option (List Value × Bytes)
  | 0, _ => none
  | fuel + 1, bs => do
    let (b, remaining) ← bs.head?.map (·, bs.tail)
    if b = initTag then some ([], remaining)
    else
      let (val, nextChunk) ← decodeAux fuel bs
      let (vals, rest) ← decodeSeq fuel nextChunk
      some (val :: vals, rest)

end

/-- `DataValue::decode_from_key`. -/
def decodeFromKey (bs : Bytes) : Option (Value × Bytes) := decodeAux (bs.length + 1) bs

end Memcmp

namespace DataValue

mutual

/-- Well-formed values: sets are in order, and an array is no longer than its length field holds. -/
def WF : Value → Prop
  | .list l => WFList l
  | .set s => WFList s ∧ DataValue.SetSorted s
  | .vec (.f32 a) => a.length < 2 ^ 64
  | .vec (.f64 a) => a.length < 2 ^ 64
  | _ => True

def WFList : List Value → Prop
  | [] => True
  | v :: vs => WF v ∧ WFList vs

end

end DataValue

namespace Memcmp

/-! ### Round trip of the fields -/

theorem splitAt_append {n : Nat} {h : Bytes} (hn : h.length = n) (t : Bytes) :
    splitAt n (h ++ t) = some (h, t) := by
  subst hn
  simp [splitAt]

theorem readU64_writeU64 (u : BitVec 64) (t : Bytes) : readU64 (writeU64 u ++ t) = some (u, t) := by
  have hu : u.toNat < 256 ^ 8 := u.isLt
  rw [readU64, splitAt_append (by simp [writeU64])]
  simp [writeU64, beNat_beBytes hu]

theorem readU32_beBytes (u : BitVec 32) (t : Bytes) :
    readU32 (beBytes 4 u.toNat ++ t) = some (u, t) := by
  have hu : u.toNat < 256 ^ 4 := u.isLt
  rw [readU32, splitAt_append (by simp)]
  simp [beNat_beBytes hu]

theorem readMany_flatMap {α : Type} {read : Bytes → Option (α × Bytes)} {write : α → Bytes}
    (h : ∀ a t, read (write a ++ t) = some (a, t)) (l : List α) (t : Bytes) :
    readMany read l.length (l.flatMap write ++ t) = some (l, t) := by
  induction l with
  | nil => rfl
  | cons a l ih => simp [readMany, append_assoc, h, ih]

theorem orderDecodeI64_orderEncodeI64 (v : Int64) : orderDecodeI64 (orderEncodeI64 v) = v := by
  rw [orderDecodeI64, orderEncodeI64, BitVec.xor_assoc, BitVec.xor_self,
    BitVec.xor_zero, Int64.ofBitVec_toBitVec]

theorem zero_lt_and_signMark (u : BitVec 64) : 0#64 < u &&& signMark ↔ u.msb = true := by
  have hmark : signMark = twoPow 64 63 := by decide
  rw [hmark, BitVec.and_twoPow, ← BitVec.msb_eq_getLsbD_last (x := u)]
  cases u.msb
  · simp
  · simp

theorem orderDecodeF64_orderEncodeF64 (v : F64) : orderDecodeF64 (orderEncodeF64 v) = v := by
  obtain ⟨bits⟩ := v
  have hmark : signMark = twoPow 64 63 := by decide
  cases hs : bits.msb with
  | false =>
    have henc : orderEncodeF64 ⟨bits⟩ = bits ||| signMark := by simp [orderEncodeF64, F64.sign, hs]
    have hmsb : (bits ||| signMark).msb = true := by
      rw [BitVec.msb_or, show signMark.msb = true by decide, Bool.or_true]
    rw [henc, orderDecodeF64, if_pos ((zero_lt_and_signMark _).2 hmsb), F64.mk.injEq]
    apply BitVec.eq_of_getLsbD_eq
    intro i hi
    rw [BitVec.msb_eq_getLsbD_last] at hs
    by_cases h : i = 63
    · subst h; simpa [hmark] using hs.symm
    · simp [hmark, h, hi]
  | true =>
    have henc : orderEncodeF64 ⟨bits⟩ = ~~~bits := by simp [orderEncodeF64, F64.sign, hs]
    have hmsb : ¬ (0#64 < ~~~bits &&& signMark) := by
      rw [zero_lt_and_signMark, BitVec.msb_not]
      simp [hs]
    rw [henc, orderDecodeF64, if_neg hmsb, BitVec.not_not]

theorem decodeValidity_encodeValidity (vld : Validity) (t : Bytes) :
    decodeValidity (encodeValidity vld ++ t) = some (vld, t) := by
  rw [decodeValidity, encodeValidity, append_assoc, readU64_writeU64]
  cases vld with
  | mk ts b => cases b <;> simp [orderDecodeI64_orderEncodeI64]

theorem decodeNum_encodeNum (n : Num) (t : Bytes) : decodeNum (encodeNum n ++ t) = some (n, t) := by
  cases n with
  | float f =>
    simp [decodeNum, encodeNum, readU64_writeU64, Num.getFloat, orderDecodeF64_orderEncodeF64]
  | int i =>
    simp only [decodeNum, encodeNum, append_assoc, readU64_writeU64]
    by_cases hi : -exactIntBound < i.toInt ∧ i.toInt < exactIntBound
    · have hexact : (F64.ofInt64 i).toInt64 = i := by
        apply F64.toInt64_ofInt64
        simp only [exactIntBound] at hi
        omega
      simp [hi, Num.getFloat, orderDecodeF64_orderEncodeF64, hexact, isExactInt, isFloat]
    · simp [hi, isApproxInt, isFloat, isExactInt, readU64_writeU64, orderDecodeI64_orderEncodeI64]

theorem decodeVector_encodeVector (v : Vector) (hv : DataValue.WF (.vec v)) (t : Bytes) :
    decodeVector (encodeVector v ++ t) = some (v, t) := by
  cases v with
  | f32 a =>
    have hlen : (ofNat 64 a.length).toNat = a.length :=
      Nat.mod_eq_of_lt (by simpa only [DataValue.WF] using hv)
    have hread := readMany_flatMap (fun u t => readU32_beBytes u t) (a.map F32.bits) t
    rw [length_map, flatMap_map] at hread
    have hmk : F32.mk ∘ F32.bits = id := rfl
    simp [decodeVector, encodeVector, append_assoc, readU64_writeU64, hlen, hread, hmk]
  | f64 a =>
    have hlen : (ofNat 64 a.length).toNat = a.length :=
      Nat.mod_eq_of_lt (by simpa only [DataValue.WF] using hv)
    have hread := readMany_flatMap (fun u t => readU64_writeU64 u t) (a.map F64.bits) t
    rw [length_map, flatMap_map] at hread
    have hmk : F64.mk ∘ F64.bits = id := rfl
    simp [decodeVector, encodeVector, append_assoc, readU64_writeU64, hlen, hread, hmk, vecF32, vecF64]

/-! ### Round trip of texts -/

theorem encodeBytes_of_le {key : Bytes} (h : encGroupSize ≤ key.length) :
    encodeBytes key = key.take encGroupSize ++ encMarker :: encodeBytes
    (key.drop encGroupSize) := by
  have hgroups : key.length / encGroupSize = (key.length - encGroupSize) / encGroupSize + 1 := by
    rw [encGroupSize] at *
    omega
  have hfirst : encodeGroup key = key.take encGroupSize ++ [encMarker] := by
    rw [encodeGroup]
    split
    · rfl
    · have hlen : key.length = encGroupSize := by omega
      simp [hlen, take_of_length_le hlen.le]
  rw [encodeBytes, hgroups, range_succ_eq_map, flatMap_cons, flatMap_map,
    Nat.mul_zero, drop_zero, hfirst, encodeBytes, length_drop]
  simp [drop_drop, Nat.mul_succ, Nat.add_comm]

theorem encodeBytes_of_lt {key : Bytes} (h : key.length < encGroupSize) :
    encodeBytes key = key ++ List.replicate
    (encGroupSize - key.length) 0 ++ [encMarker - UInt8.ofNat (encGroupSize - key.length)] := by
  rw [encodeBytes, Nat.div_eq_of_lt h]
  simp [encodeGroup, h.not_gt]

theorem padSize_eq {n : Nat} (h : n ≤ 8) : (encMarker - (encMarker - UInt8.ofNat n)).toNat = n := by
  interval_cases n <;> rfl

theorem decodeBytes_encodeBytes (key t : Bytes) {fuel : Nat}
    (hfuel : (encodeBytes key).length ≤ fuel) :
    decodeBytes fuel (encodeBytes key ++ t) = some (key, t) := by
  induction fuel generalizing key with
  | zero =>
    exfalso
    by_cases h : encGroupSize ≤ key.length
    · simp [encodeBytes_of_le h] at hfuel
    · simp [encodeBytes_of_lt (not_le.1 h)] at hfuel
  | succ fuel ih =>
    by_cases h : encGroupSize ≤ key.length
    · rw [encodeBytes_of_le h] at hfuel ⊢
      have hrest := ih (key.drop encGroupSize) (by simp at hfuel ⊢; omega)
      rw [decodeBytes, append_assoc, splitAt_append (by simp [h])]
      simp [hrest, take_append_drop]
    · have hlt := not_le.1 h
      rw [encodeBytes_of_lt hlt, decodeBytes, append_assoc, splitAt_append (by simp; omega)]
      have hpad := padSize_eq (n := encGroupSize - key.length) (by rw [encGroupSize]; omega)
      have hne : encGroupSize - key.length ≠ 0 := by omega
      have hlen : encGroupSize - (encGroupSize - key.length) = key.length := by omega
      have hle : encGroupSize - key.length ≤ encGroupSize := Nat.sub_le _ _
      simp only [cons_append, nil_append, Option.bind_eq_bind, Option.bind_some, head?_cons, tail_cons,
        Option.map_some, hpad, hne, hle, hlen, if_true, if_false, take_left]

/-! ### Round trip of values -/

theorem encodeDatavalue_head (v : Value) : ∃ b bs, encodeDatavalue v = b :: bs ∧ b ≠ initTag := by
  cases v with
  | bool b => cases b <;> exact ⟨_, _, rfl, by decide⟩
  | _ => exact ⟨_, _, rfl, by decide⟩

theorem decodeAux_cons (fuel : Nat) (tag : UInt8) (bs : Bytes) : decodeAux (fuel + 1) (tag :: bs) =
      if tag = nullTag then some (.null, bs)
      else if tag = falseTag then some (.bool false, bs)
      else if tag = trueTag then some (.bool true, bs)
      else if tag = numTag then (decodeNum bs).map fun (n, bs) => (.num n, bs)
      else if tag = strTag then (decodeBytes bs.length bs).map fun (s, bs) => (.str s, bs)
      else if tag = jsonTag then (decodeBytes bs.length bs).map fun (s, bs) => (.json s, bs)
      else if tag = bytesTag then (decodeBytes bs.length bs).map fun (s, bs) => (.bytes s, bs)
      else if tag = uuidTag then
        (splitAt 16 bs).map fun (u, bs) => (.uuid (ofNat 128 (beNat u)), bs)
      else if tag = regexTag then (decodeBytes bs.length bs).map fun (s, bs) => (.regex s, bs)
      else if tag = listTag then (decodeSeq fuel bs).map fun (l, bs) => (.list l, bs)
      else if tag = setTag then (decodeSeq fuel bs).map fun (l, bs) =>
          (.set (DataValue.collectSet l), bs)
      else if tag = vldTag then (decodeValidity bs).map fun (v, bs) => (.validity v, bs)
      else if tag = botTag then some (.bot, bs)
      else if tag = vecTag then (decodeVector bs).map fun (v, bs) => (.vec v, bs)
      else none := rfl

theorem decodeText (s t : Bytes) :
    decodeBytes (encodeBytes s ++ t).length (encodeBytes s ++ t) = some (s, t) :=
  decodeBytes_encodeBytes s t (by simp)

mutual

theorem decodeAux_encodeDatavalue (v : Value) (hv : DataValue.WF v) (t : Bytes)
    (fuel : Nat) (hfuel : (encodeDatavalue v).length ≤ fuel) :
    decodeAux fuel (encodeDatavalue v ++ t) = some (v, t) := by
  cases fuel with
  | zero =>
    obtain ⟨b, bs, h, -⟩ := encodeDatavalue_head v
    simp [h] at hfuel
  | succ fuel =>
    cases v with
    | null => rfl
    | bot => rfl
    | bool b => cases b <;> rfl
    | num n =>
      rw [encodeDatavalue, cons_append, decodeAux_cons, decodeNum_encodeNum]
      rfl
    | str s | json s | bytes s | regex s =>
      rw [encodeDatavalue, cons_append, decodeAux_cons, decodeText]
      rfl
    | uuid u =>
      have hu : u.toNat < 256 ^ 16 := u.isLt
      rw [encodeDatavalue, cons_append, decodeAux_cons, splitAt_append (by simp)]
      simp [uuidTag, nullTag, falseTag, trueTag, numTag, strTag, jsonTag, bytesTag, beNat_beBytes hu]
    | validity vld =>
      rw [encodeDatavalue, cons_append, decodeAux_cons, decodeValidity_encodeValidity]
      rfl
    | vec arr =>
      rw [encodeDatavalue, cons_append, decodeAux_cons, decodeVector_encodeVector arr hv]
      rfl
    | list l =>
      have hl : DataValue.WFList l := by simpa only [DataValue.WF] using hv
      have hseq := decodeSeq_encodeTuple l hl t fuel
        (by simp [encodeDatavalue] at hfuel; omega)
      rw [encodeDatavalue, cons_append, decodeAux_cons, append_assoc, singleton_append, hseq]
      rfl
    | set l =>
      have hl : DataValue.WFList l ∧ DataValue.SetSorted l := by
        simpa only [DataValue.WF] using hv
      have hseq := decodeSeq_encodeTuple l hl.1 t fuel
        (by simp [encodeDatavalue] at hfuel; omega)
      rw [encodeDatavalue, cons_append, decodeAux_cons, append_assoc, singleton_append, hseq]
      simp [setTag, nullTag, falseTag, trueTag, numTag, strTag, jsonTag, bytesTag,
        uuidTag, regexTag, listTag, DataValue.collectSet_of_sorted hl.2]

theorem decodeSeq_encodeTuple (l : List Value) (hl : DataValue.WFList l) (t : Bytes) (fuel : Nat)
    (hfuel : (encodeTuple l).length + 1 ≤ fuel) :
    decodeSeq fuel (encodeTuple l ++ initTag :: t) = some (l, t) := by
  cases fuel with
  | zero => omega
  | succ fuel =>
    match l with
    | [] => simp [encodeTuple, decodeSeq]
    | v :: vs =>
      rw [DataValue.WFList] at hl
      obtain ⟨b, bs, hb, hne⟩ := encodeDatavalue_head v
      have hlen : (encodeDatavalue v).length = bs.length + 1 := by rw [hb]; rfl
      rw [encodeTuple, length_append] at hfuel
      have hhead := decodeAux_encodeDatavalue v hl.1 (encodeTuple vs ++ initTag :: t) fuel (by omega)
      have htail := decodeSeq_encodeTuple vs hl.2 t fuel (by omega)
      rw [encodeTuple, append_assoc, decodeSeq]
      rw [hb] at hhead ⊢
      simp only [cons_append] at hhead ⊢
      simp [hne, hhead, htail]

end

/-- **Round trip.** -/
theorem decodeFromKey_encode {v : Value} (hv : DataValue.WF v) (t : Bytes) :
    decodeFromKey (encodeDatavalue v ++ t) = some (v, t) :=
  decodeAux_encodeDatavalue v hv t _ (by simp; omega)

/-- The encodings are self-delimiting: two rows of one width that begin two equal byte strings are
equal, and so is what follows them. -/
theorem encodeTuple_append_inj {l m : List Value} (hl : DataValue.WFList l)
    (hm : DataValue.WFList m) (hlen : l.length = m.length) {t u : Bytes}
    (h : encodeTuple l ++ t = encodeTuple m ++ u) : l = m ∧ t = u := by
  induction l generalizing m with
  | nil =>
    obtain rfl := length_eq_zero_iff.1 hlen.symm
    exact ⟨rfl, h⟩
  | cons v l ih =>
    cases m with
    | nil => simp at hlen
    | cons w m =>
      rw [DataValue.WFList] at hl hm
      rw [encodeTuple, encodeTuple, append_assoc, append_assoc] at h
      have hv := decodeFromKey_encode hl.1 (encodeTuple l ++ t)
      rw [h, decodeFromKey_encode hm.1, Option.some.injEq, Prod.mk.injEq] at hv
      obtain ⟨rfl, hrest⟩ := hv
      obtain ⟨rfl, rfl⟩ := ih hl.2 hm.2 (by simpa using hlen) hrest.symm
      exact ⟨rfl, rfl⟩

/-! ### Order of validities -/

theorem and_signMark_of_msb {x : BitVec 64} (h : x.msb = false) : x &&& signMark = 0#64 := by
  have hmark : signMark = twoPow 64 63 := by decide
  rw [hmark, BitVec.and_twoPow, ← BitVec.msb_eq_getLsbD_last (x := x), h]
  rfl

theorem toNat_xor_signMark_of_msb {x : BitVec 64} (h : x.msb = false) :
    (x ^^^ signMark).toNat = x.toNat + 2 ^ 63 := by
  have hand := and_signMark_of_msb h
  have hxor : x ^^^ signMark = x + signMark := by
    rw [BitVec.add_eq_or_of_and_eq_zero _ _ hand]
    apply BitVec.eq_of_getLsbD_eq
    intro i hi
    have := congrArg (fun z => z.getLsbD i) hand
    simp only [BitVec.getLsbD_and, BitVec.getLsbD_zero] at this
    rw [BitVec.getLsbD_xor, BitVec.getLsbD_or]
    cases hx : x.getLsbD i <;> cases hs : signMark.getLsbD i <;> simp_all
  have hlt : x.toNat < 2 ^ 63 := by
    rw [BitVec.msb_eq_decide] at h
    simpa using h
  rw [hxor, BitVec.toNat_add, show signMark.toNat = 2 ^ 63 by decide]
  omega

theorem toNat_orderEncodeI64 (v : Int64) : ((orderEncodeI64 v).toNat : Int) = v.toInt + 2 ^ 63 := by
  have hint : v.toInt = v.toBitVec.toInt := rfl
  rw [orderEncodeI64, hint, BitVec.toInt_eq_msb_cond]
  cases h : v.toBitVec.msb with
  | false =>
    rw [toNat_xor_signMark_of_msb h]
    simp
  | true =>
    have hmsb : (v.toBitVec ^^^ signMark).msb = false := by
      rw [BitVec.msb_xor, h]; decide
    have := toNat_xor_signMark_of_msb hmsb
    rw [BitVec.xor_assoc, BitVec.xor_self, BitVec.xor_zero] at this
    simp only [if_true]
    omega

theorem length_encodeValidity (v : Validity) : (encodeValidity v).length = 9 := by
  simp [encodeValidity, writeU64]

theorem encodeValidity_lt_iff (a b : Validity) : encodeValidity a < encodeValidity b ↔
    compare a b = .lt := by
  have key : ∀ v w : Validity, w.timestamp < v.timestamp → encodeValidity v < encodeValidity w := by
    intro v w h
    have hv := toNat_orderEncodeI64 v.timestamp
    have hw := toNat_orderEncodeI64 w.timestamp
    rw [Int64.lt_iff_toInt_lt] at h
    refine append_lt_append_of_lt ?_ (by simp [writeU64]) _ _
    rw [writeU64, writeU64, beBytes_lt_beBytes_iff (isLt _) (isLt _), BitVec.toNat_not, BitVec.toNat_not]
    have := (orderEncodeI64 v.timestamp).isLt
    omega
  rw [Validity.compare_def]
  rcases lt_trichotomy a.timestamp.toInt b.timestamp.toInt with h | h | h
  · rw [Std.compare_eq_gt.2 (Int64.lt_iff_toInt_lt.2 h)]
    simpa using (key b a (Int64.lt_iff_toInt_lt.2 h)).le
  · have hts : a.timestamp = b.timestamp := Int64.toInt_inj.1 h
    have hself : compare b.timestamp b.timestamp = .eq := Std.ReflCmp.compare_self
    rw [hts, hself, encodeValidity, encodeValidity, hts, append_lt_append_iff]
    cases a.isAssert <;> cases b.isAssert <;> decide
  · rw [Std.compare_eq_lt.2 (Int64.lt_iff_toInt_lt.2 h)]
    simpa using key a b (Int64.lt_iff_toInt_lt.2 h)

end Memcmp

end Retia
