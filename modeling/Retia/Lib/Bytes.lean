import Mathlib.Order.Std
import Mathlib.Order.Basic
import Mathlib.Data.List.Basic
import Mathlib.Tactic.Ring

/-!
# Byte strings in lexicographic order

Keys of an ordered byte store. The comparison of `List UInt8` used by tree maps is made the
`compare` of a linear order (`instLinearOrderBytes`), whose `<` is the lexicographic one of `List`.

Two facts about it carry the rest of the development:

* `exists_append_of_le_of_le` — the strings with a given beginning form an interval;
* `beBytes_lt_beBytes_iff` — fixed-width big-endian numbers are ordered as numbers.
-/

namespace Retia

/-- Ways in which a computation stops without a result. -/
inductive Panic where
  /-- A range query on a map that is not empty was given a start beyond its end. -/
  | rangeStartAfterEnd
  /-- A value of another shape than the code relies on. -/
  | unreachable
  /-- An index beyond the end of a sequence. -/
  | indexOutOfBounds
deriving DecidableEq

abbrev Bytes := List UInt8

theorem compare_bytes_eq_lt_iff {a b : Bytes} : compare a b = .lt ↔ a < b := by
  induction a generalizing b with
  | nil => cases b <;> simp
  | cons x xs ih =>
    cases b with
    | nil => simp
    | cons y ys =>
      rw [List.cons_lt_cons_iff, List.compare_cons_cons, Ordering.then_eq_lt,
        ih, Std.compare_eq_lt, Std.LawfulEqCmp.compare_eq_iff_eq]

instance instLawfulOrderOrdBytes : Std.LawfulOrderOrd Bytes where
  isLE_compare a b := by
    have hswap : compare b a = (compare a b).swap := Std.OrientedCmp.eq_swap
    rw [← List.not_lt, ← compare_bytes_eq_lt_iff, hswap]
    cases compare a b <;> simp
  isGE_compare a b := by
    rw [← List.not_lt, ← compare_bytes_eq_lt_iff]
    cases compare a b <;> simp

instance instLinearOrderBytes : LinearOrder Bytes := LinearOrder.ofStd Bytes

/-! ### Common beginnings -/

theorem append_lt_append_iff (p : Bytes) {x y : Bytes} : p ++ x < p ++ y ↔ x < y := by
  induction p with
  | nil => rfl
  | cons c p ih => simp [ih]

theorem append_le_append_iff (p : Bytes) {x y : Bytes} : p ++ x ≤ p ++ y ↔ x ≤ y := by
  rw [← not_lt, ← not_lt, append_lt_append_iff]

/-- The strings that begin with `p` form an interval. -/
theorem exists_append_of_le_of_le (p : Bytes) {x y k : Bytes} (hl : p ++ x ≤ k)
    (hr : k ≤ p ++ y) : ∃ z, k = p ++ z := by
  induction p generalizing k with
  | nil => exact ⟨k, rfl⟩
  | cons c p ih =>
    cases k with
    | nil => simp at hl
    | cons d k =>
      rw [List.cons_append, List.cons_le_cons_iff] at hl hr
      -- the first byte is squeezed between `c` and `c`
      have hcd : c = d := by
        rcases hl with h | ⟨h, -⟩
        · rcases hr with h' | ⟨h', -⟩
          · exact absurd (UInt8.lt_trans h h') (UInt8.lt_irrefl c)
          · exact h'.symm
        · exact h
      subst hcd
      obtain ⟨z, rfl⟩ := ih (by simpa using hl) (by simpa using hr)
      exact ⟨z, rfl⟩

/-- Strings of equal length that differ decide the order of all their extensions. -/
theorem append_lt_append_of_lt {a b : Bytes} (h : a < b) (hlen : a.length = b.length)
    (x y : Bytes) : a ++ x < b ++ y := by
  induction a generalizing b with
  | nil =>
    obtain rfl := List.length_eq_zero_iff.1 hlen.symm
    exact absurd h (lt_irrefl _)
  | cons c a ih =>
    cases b with
    | nil => simp at hlen
    | cons d b =>
      rw [List.cons_lt_cons_iff] at h
      rw [List.cons_append, List.cons_append, List.cons_lt_cons_iff]
      rcases h with h | ⟨rfl, h⟩
      · exact Or.inl h
      · exact Or.inr ⟨rfl, ih h (by simpa using hlen)⟩

/-! ### Big-endian numbers -/

/-- The low `w` bytes of `n`, most significant first. -/
def beBytes : Nat → Nat → Bytes
  | 0, _ => []
  | w + 1, n => UInt8.ofNat (n / 256 ^ w) :: beBytes w n

/-- Reads a big-endian number. -/
def beNat (bs : Bytes) : Nat := bs.foldl (fun acc b => acc * 256 + b.toNat) 0

@[simp] theorem length_beBytes (w n : Nat) : (beBytes w n).length = w := by
  induction w with
  | zero => rfl
  | succ w ih => simp [beBytes, ih]

private theorem foldl_beBytes (w n acc : Nat) :
    (beBytes w n).foldl (fun acc b => acc * 256 + b.toNat) acc = acc * 256 ^ w + n % 256 ^ w := by
  induction w generalizing acc with
  | zero => simp [beBytes, Nat.mod_one]
  | succ w ih =>
    have hmod : n % 256 ^ (w + 1) = n / 256 ^ w % 256 * 256 ^ w + n % 256 ^ w := by
      rw [pow_succ, Nat.mod_mul, Nat.add_comm, Nat.mul_comm]
    rw [beBytes, List.foldl_cons, ih, hmod, UInt8.toNat_ofNat']
    ring

theorem beNat_beBytes {w n : Nat} (h : n < 256 ^ w) : beNat (beBytes w n) = n := by
  rw [beNat, foldl_beBytes, Nat.zero_mul, Nat.zero_add, Nat.mod_eq_of_lt h]

theorem beBytes_mod (w n : Nat) : beBytes w (n % 256 ^ w) = beBytes w n := by
  induction w generalizing n with
  | zero => rfl
  | succ w ih =>
    have hhead : UInt8.ofNat (n % 256 ^ (w + 1) / 256 ^ w) = UInt8.ofNat (n / 256 ^ w) := by
      apply UInt8.toNat.inj
      rw [UInt8.toNat_ofNat', UInt8.toNat_ofNat', pow_succ, Nat.mod_mul_right_div_self, Nat.mod_mod]
    rw [beBytes, beBytes, hhead, ← ih (n % 256 ^ (w + 1)), pow_succ, Nat.mod_mul_right_mod, ih]

private theorem foldl_beNat (bs : Bytes) (acc : Nat) :
    bs.foldl (fun acc b => acc * 256 + b.toNat) acc = acc * 256 ^ bs.length + beNat bs := by
  induction bs generalizing acc with
  | nil => simp [beNat]
  | cons b bs ih =>
    rw [beNat, List.foldl_cons, List.foldl_cons, ih, ih (0 * 256 + b.toNat), List.length_cons, pow_succ]
    ring

theorem beNat_cons (b : UInt8) (bs : Bytes) :
    beNat (b :: bs) = b.toNat * 256 ^ bs.length + beNat bs := by
  rw [beNat, List.foldl_cons, foldl_beNat, Nat.zero_mul, Nat.zero_add]

theorem beNat_lt (bs : Bytes) : beNat bs < 256 ^ bs.length := by
  induction bs with
  | nil => simp [beNat]
  | cons b bs ih =>
    have hb := b.toNat_lt
    rw [beNat_cons, List.length_cons, pow_succ]
    calc b.toNat * 256 ^ bs.length + beNat bs
        < b.toNat * 256 ^ bs.length + 256 ^ bs.length := Nat.add_lt_add_left ih _
      _ = (b.toNat + 1) * 256 ^ bs.length := by ring
      _ ≤ 256 * 256 ^ bs.length := Nat.mul_le_mul_right _ (by omega)
      _ = 256 ^ bs.length * 256 := Nat.mul_comm _ _

theorem beBytes_beNat {w : Nat} {bs : Bytes} (h : bs.length = w) : beBytes w (beNat bs) = bs := by
  induction bs generalizing w with
  | nil => subst h; rfl
  | cons b bs ih =>
    subst h
    have hlt := beNat_lt bs
    have hpos : 0 < 256 ^ bs.length := Nat.pow_pos (by decide)
    have hdiv : beNat (b :: bs) / 256 ^ bs.length = b.toNat := by
      rw [beNat_cons, Nat.mul_comm, Nat.mul_add_div hpos, Nat.div_eq_of_lt hlt, Nat.add_zero]
    have hmod : beNat (b :: bs) % 256 ^ bs.length = beNat bs := by
      rw [beNat_cons, Nat.mul_comm, Nat.mul_add_mod, Nat.mod_eq_of_lt hlt]
    rw [List.length_cons, beBytes, hdiv, ← beBytes_mod, hmod, ih rfl, UInt8.ofNat_toNat]

/-- Fixed-width big-endian numbers are ordered as numbers. -/
theorem beBytes_lt_beBytes_iff {w m n : Nat} (hm : m < 256 ^ w) (hn : n < 256 ^ w) :
    beBytes w m < beBytes w n ↔ m < n := by
  induction w generalizing m n with
  | zero => simp [beBytes]; omega
  | succ w ih =>
    have hpos : 0 < 256 ^ w := Nat.pow_pos (by decide)
    have hdm : m / 256 ^ w < 256 := Nat.div_lt_of_lt_mul (by rwa [← pow_succ])
    have hdn : n / 256 ^ w < 256 := Nat.div_lt_of_lt_mul (by rwa [← pow_succ])
    rw [beBytes, beBytes, List.cons_lt_cons_iff, ← beBytes_mod w m, ← beBytes_mod w n,
      ih (Nat.mod_lt _ hpos) (Nat.mod_lt _ hpos), UInt8.lt_iff_toNat_lt, UInt8.toNat_inj.symm,
      UInt8.toNat_ofNat', UInt8.toNat_ofNat', Nat.mod_eq_of_lt hdm, Nat.mod_eq_of_lt hdn]
    constructor
    · rintro (h | ⟨h, h'⟩)
      · exact lt_of_not_ge fun hge => absurd h (not_lt.2 (Nat.div_le_div_right hge))
      · rw [← Nat.div_add_mod m (256 ^ w), ← Nat.div_add_mod n (256 ^ w), h]
        exact Nat.add_lt_add_left h' _
    · intro h
      rcases (Nat.div_le_div_right (c := 256 ^ w) h.le).lt_or_eq with hlt | heq
      · exact Or.inl hlt
      · refine Or.inr ⟨heq, ?_⟩
        rw [← Nat.div_add_mod m (256 ^ w), ← Nat.div_add_mod n (256 ^ w), heq] at h
        exact Nat.lt_of_add_lt_add_left h

end Retia
