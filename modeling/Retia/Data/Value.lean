import Retia.Data.Float
import Retia.Lib.Bytes
import Mathlib.Order.Std

/-!
# Data values and their order

`data/value.rs`: the values of the database, with the order all its trees are sorted by.

* `Num` — integers and floats in one order. An integer is compared with a float as the float nearest
  to it, and an integer comes before the float it is equal to in this way (`Num.cmp`).
* `Validity` — a moment of assertion or retraction: newest first, and at one moment the assertion
  before the retraction.
* `DataValue` — the derived order: first by variant, then by payload.

Texts (strings, regexes, printed JSON) are byte strings, as in the key encoding. A set is the list
of its elements in order; `DataValue.WF` states that. Arrays of floats are a parameter `X`: their
own equality identifies the two zeros and all NaNs, so results about stores take `X` to be any type
with a lawful order, while the key encoding takes the bit patterns (`Retia.Data.Memcmp`).

The order is linear: `Num.instTransOrd`, `DataValue.instTransOrd` and the matching `LawfulEqOrd`.
-/

namespace Retia

open List

/-! ### Numbers -/

inductive Num where
  | int (i : Int64)
  | float (f : F64)
deriving DecidableEq

namespace Num

def getFloat : Num → F64
  | int i => F64.ofInt64 i
  | float f => f

def getInt : Num → Option Int64
  | int i => some i
  | float f => if f.isIntegral then some f.toInt64 else none

/-- `Ord for Num`. -/
def cmp : Num → Num → Ordering
  | int i, float r =>
    match F64.totalCmp (F64.ofInt64 i) r with
    | .lt => .lt
    | .eq => .lt
    | .gt => .gt
  | float l, int i =>
    match F64.totalCmp l (F64.ofInt64 i) with
    | .lt => .lt
    | .eq => .gt
    | .gt => .gt
  | int l, int r => compare l r
  | float l, float r => F64.totalCmp l r

instance : Ord Num := ⟨cmp⟩

/-- Position of a number as a float, integers before the float of the same value. -/
def floatKey (n : Num) : Int := 2 * n.getFloat.totalKey + (match n with | int _ => 0 | float _ => 1)

def intKey : Num → Int
  | int i => i.toInt
  | float _ => 0

theorem cmp_eq (a b : Num) : cmp a b =
    (compare a.floatKey b.floatKey).then (compare a.intKey b.intKey) := by
  cases a with
  | int i =>
    cases b with
    | int j =>
      simp only [cmp, floatKey, intKey, getFloat, add_zero]
      rcases lt_trichotomy i.toInt j.toInt with h | h | h
      · have hmono := F64.totalKey_ofInt64_mono h.le
        rw [Std.compare_eq_lt.2 (Int64.lt_iff_toInt_lt.2 h), Std.compare_eq_lt.2 h]
        rcases hmono.lt_or_eq with h' | h'
        · rw [Std.compare_eq_lt.2 (by omega)]; rfl
        · simp [h']
      · have : i = j := Int64.toInt_inj.1 h
        simp [this]
      · have hmono := F64.totalKey_ofInt64_mono h.le
        rw [Std.compare_eq_gt.2 (Int64.lt_iff_toInt_lt.2 h), Std.compare_eq_gt.2 h]
        rcases hmono.lt_or_eq with h' | h'
        · rw [Std.compare_eq_gt.2 (by omega)]; rfl
        · simp [h']
    | float g =>
      simp only [cmp, F64.totalCmp, floatKey, getFloat, add_zero]
      rcases lt_trichotomy (F64.ofInt64 i).totalKey g.totalKey with h | h | h
      · rw [Std.compare_eq_lt.2 h, Std.compare_eq_lt.2 (by omega)]; rfl
      · rw [compare_eq_iff_eq.2 h, Std.compare_eq_lt.2 (by omega)]; rfl
      · rw [Std.compare_eq_gt.2 h, Std.compare_eq_gt.2 (by omega)]; rfl
  | float f =>
    cases b with
    | int j =>
      simp only [cmp, F64.totalCmp, floatKey, getFloat, add_zero]
      rcases lt_trichotomy f.totalKey (F64.ofInt64 j).totalKey with h | h | h
      · rw [Std.compare_eq_lt.2 h, Std.compare_eq_lt.2 (by omega)]; rfl
      · rw [compare_eq_iff_eq.2 h, Std.compare_eq_gt.2 (by omega)]; rfl
      · rw [Std.compare_eq_gt.2 h, Std.compare_eq_gt.2 (by omega)]; rfl
    | float g =>
      simp only [cmp, F64.totalCmp, floatKey, intKey, getFloat]
      rcases lt_trichotomy f.totalKey g.totalKey with h | h | h
      · rw [Std.compare_eq_lt.2 h, Std.compare_eq_lt.2 (by omega)]; rfl
      · simp [h]
      · rw [Std.compare_eq_gt.2 h, Std.compare_eq_gt.2 (by omega)]; rfl

theorem compare_eq_compareLex :
    (compare : Num → Num → Ordering) = compareLex (compareOn floatKey) (compareOn intKey) := by
  funext a b
  exact cmp_eq a b

instance instTransOrd : Std.TransOrd Num := by
  unfold Std.TransOrd
  rw [compare_eq_compareLex]
  infer_instance

instance instLawfulEqOrd : Std.LawfulEqOrd Num where
  compare_self := by
    intro a
    rw [compare_eq_compareLex]
    exact Std.ReflCmp.compare_self
  eq_of_compare := by
    intro a b h
    change cmp a b = .eq at h
    cases a <;> cases b <;> simp only [cmp] at h
    · rw [Std.LawfulEqCmp.eq_of_compare h]
    · split at h <;> cases h
    · split at h <;> cases h
    · rw [F64.totalKey_injective (Std.LawfulEqCmp.eq_of_compare h)]

end Num

/-! ### Validity -/

/-- A version stamp: from `timestamp` on the row is asserted, or retracted. The source wraps both
fields in `Reverse`; here they are bare and `Validity.instOrd` is reversed. -/
structure Validity where
  timestamp : Int64
  isAssert : Bool
deriving DecidableEq

namespace Validity

/-- Newest first; at one moment the assertion before the retraction. -/
instance instOrd : Ord Validity where
  compare := compareLex (fun a b => compare b.timestamp a.timestamp)
    (fun a b => compare b.isAssert a.isAssert)

theorem compare_def (a b : Validity) :
    compare a b = (compare b.timestamp a.timestamp).then (compare b.isAssert a.isAssert) := rfl

instance instTransOrd : Std.TransOrd Validity :=
  have : Std.TransCmp fun a b : Validity => compare b.timestamp a.timestamp :=
    @Std.TransCmp.opposite _ (compareOn timestamp) _
  have : Std.TransCmp fun a b : Validity => compare b.isAssert a.isAssert :=
    @Std.TransCmp.opposite _ (compareOn isAssert) _
  inferInstanceAs (Std.TransCmp (compareLex (fun a b : Validity => compare b.timestamp a.timestamp)
    (fun a b => compare b.isAssert a.isAssert)))

instance instLawfulEqOrd : Std.LawfulEqOrd Validity where
  compare_self := by intro a; rw [compare_def]; simp
  eq_of_compare := by
    intro a b h
    rw [compare_def, Ordering.then_eq_eq] at h
    cases a; cases b
    rw [Validity.mk.injEq]
    exact ⟨(Std.LawfulEqCmp.eq_of_compare h.1).symm, (Std.LawfulEqCmp.eq_of_compare h.2).symm⟩

end Validity

/-! ### Values -/

/-- A value. Variants in the order of the source, which is the order values are compared in. -/
inductive DataValue (X : Type) where
  | null
  | bool (b : Bool)
  | num (n : Num)
  | str (s : Bytes)
  | bytes (b : Bytes)
  | uuid (u : BitVec 128)
  | regex (s : Bytes)
  | list (l : List (DataValue X))
  | set (s : List (DataValue X))
  | vec (v : X)
  | json (s : Bytes)
  | validity (v : Validity)
  | bot
deriving Inhabited

abbrev Tuple (X : Type) := List (DataValue X)

namespace DataValue

variable {X : Type}

def getSlice : DataValue X → Option (List (DataValue X))
  | list l => some l
  | _ => none

def getInt : DataValue X → Option Int64
  | num n => n.getInt
  | _ => none

def getFloat : DataValue X → Option F64
  | num n => some n.getFloat
  | _ => none

def getBool : DataValue X → Option Bool
  | bool b => some b
  | _ => none

def variant : DataValue X → Nat
  | null => 0 | bool _ => 1 | num _ => 2 | str _ => 3 | bytes _ => 4 | uuid _ => 5 | regex _ => 6
  | list _ => 7 | set _ => 8 | vec _ => 9 | json _ => 10 | validity _ => 11 | bot => 12

variable {a b : DataValue X}

section Order

variable [Ord X]

mutual

/-- The derived `Ord for DataValue`. -/
def cmp : DataValue X → DataValue X → Ordering
  | bool a, bool b => compare a b
  | num a, num b => compare a b
  | str a, str b => compare a b
  | bytes a, bytes b => compare a b
  | uuid a, uuid b => compare a b
  | regex a, regex b => compare a b
  | list a, list b => cmpList a b
  | set a, set b => cmpList a b
  | vec a, vec b => compare a b
  | json a, json b => compare a b
  | validity a, validity b => compare a b
  | a, b => compare a.variant b.variant

def cmpList : List (DataValue X) → List (DataValue X) → Ordering
  | [], [] => .eq
  | [], _ :: _ => .lt
  | _ :: _, [] => .gt
  | a :: as, b :: bs => (cmp a b).then (cmpList as bs)

end

instance instOrd : Ord (DataValue X) := ⟨cmp⟩

theorem cmp_of_variant_ne (h : a.variant ≠ b.variant) : cmp a b = compare a.variant b.variant := by
  unfold cmp
  split <;> first | rfl | exact absurd rfl h

theorem variant_le_of_cmp_lt (h : cmp a b = .lt) : a.variant ≤ b.variant := by
  by_cases hne : a.variant = b.variant
  · exact hne.le
  · rw [cmp_of_variant_ne hne, Std.compare_eq_lt] at h
    exact h.le

theorem cmp_lt_of_variant_lt (h : a.variant < b.variant) : cmp a b = .lt := by
  rw [cmp_of_variant_ne h.ne, Std.compare_eq_lt]
  exact h

theorem variant_eq_of_cmp_eq (h : cmp a b = .eq) : a.variant = b.variant := by
  by_contra hne
  rw [cmp_of_variant_ne hne] at h
  exact hne (compare_eq_iff_eq.1 h)

mutual

theorem eq_of_cmp [Std.LawfulEqOrd X] (a b : DataValue X) (h : cmp a b = .eq) : a = b := by
  have hv := variant_eq_of_cmp_eq h
  cases a with
  | null | bot => cases b <;> first | rfl | cases hv
  | list l =>
    cases b with
    | list m => rw [eq_of_cmpList l m (by simpa only [cmp] using h)]
    | _ => cases hv
  | set l =>
    cases b with
    | set m => rw [eq_of_cmpList l m (by simpa only [cmp] using h)]
    | _ => cases hv
  | _ x =>
    cases b <;> first
      | exact congrArg _ (Std.LawfulEqCmp.eq_of_compare (by simpa only [cmp] using h))
      | cases hv

theorem eq_of_cmpList [Std.LawfulEqOrd X] (as bs : List (DataValue X))
    (h : cmpList as bs = .eq) : as = bs := by
  match as, bs with
  | [], [] => rfl
  | [], _ :: _ | _ :: _, [] => simp [cmpList] at h
  | a :: as, b :: bs =>
    rw [cmpList, Ordering.then_eq_eq] at h
    rw [eq_of_cmp a b h.1, eq_of_cmpList as bs h.2]

end

mutual

theorem cmp_swap [Std.OrientedOrd X] (a b : DataValue X) : cmp a b = (cmp b a).swap := by
  by_cases hv : a.variant = b.variant
  · cases a with
    | list l =>
      cases b with
      | list m => simpa only [cmp] using cmpList_swap l m
      | _ => cases hv
    | set l =>
      cases b with
      | set m => simpa only [cmp] using cmpList_swap l m
      | _ => cases hv
    | null | bot => cases b <;> rfl
    | _ x => cases b <;> (simp only [cmp]; exact Std.OrientedCmp.eq_swap)
  · rw [cmp_of_variant_ne hv, cmp_of_variant_ne (Ne.symm hv)]
    exact Std.OrientedCmp.eq_swap

theorem cmpList_swap [Std.OrientedOrd X] (as bs : List (DataValue X)) :
    cmpList as bs = (cmpList bs as).swap := by
  match as, bs with
  | [], [] => rfl
  | [], _ :: _ | _ :: _, [] => simp [cmpList]
  | a :: as, b :: bs =>
    rw [cmpList, cmpList, cmp_swap a b, cmpList_swap as bs, Ordering.swap_then]

end

mutual

theorem cmp_lt_trans [Std.TransOrd X] [Std.LawfulEqOrd X] (a b c : DataValue X)
    (hab : cmp a b = .lt) (hbc : cmp b c = .lt) : cmp a c = .lt := by
  have hvab := variant_le_of_cmp_lt hab
  have hvbc := variant_le_of_cmp_lt hbc
  rcases (hvab.trans hvbc).lt_or_eq with hlt | heq
  · exact cmp_lt_of_variant_lt hlt
  -- all three are of one variant
  have h₁ : a.variant = b.variant := by omega
  have h₂ : b.variant = c.variant := by omega
  cases a with
  | null | bot => cases b <;> first | (simp [cmp] at hab; done) | cases h₁
  | list l =>
    cases b with
    | list m =>
      cases c with
      | list n =>
        rw [cmp] at hab hbc ⊢
        exact cmpList_lt_trans l m n hab hbc
      | _ => cases h₂
    | _ => cases h₁
  | set l =>
    cases b with
    | set m =>
      cases c with
      | set n =>
        rw [cmp] at hab hbc ⊢
        exact cmpList_lt_trans l m n hab hbc
      | _ => cases h₂
    | _ => cases h₁
  | _ x =>
    cases b <;> try (cases h₁; done)
    all_goals cases c <;> try (cases h₂; done)
    all_goals
      rw [cmp] at hab hbc ⊢
      exact Std.TransCmp.lt_trans hab hbc

theorem cmpList_lt_trans [Std.TransOrd X] [Std.LawfulEqOrd X] (as bs cs : List (DataValue X))
    (hab : cmpList as bs = .lt) (hbc : cmpList bs cs = .lt) : cmpList as cs = .lt := by
  match as, bs, cs with
  | [], [], _ | _ :: _, [], _ => simp [cmpList] at hab
  | _, _ :: _, [] => simp [cmpList] at hbc
  | [], _ :: _, _ :: _ => simp [cmpList]
  | a :: as, b :: bs, c :: cs =>
    rw [cmpList, Ordering.then_eq_lt] at hab hbc ⊢
    rcases hab with hab | ⟨hab, hab'⟩
    · rcases hbc with hbc | ⟨hbc, -⟩
      · exact Or.inl (cmp_lt_trans a b c hab hbc)
      · exact Or.inl (eq_of_cmp b c hbc ▸ hab)
    · obtain rfl := eq_of_cmp a b hab
      rcases hbc with hbc | ⟨hbc, hbc'⟩
      · exact Or.inl hbc
      · exact Or.inr ⟨hbc, cmpList_lt_trans as bs cs hab' hbc'⟩

end

instance instLawfulEqOrd [Std.TransOrd X] [Std.LawfulEqOrd X] : Std.LawfulEqOrd (DataValue X) where
  compare_self := by
    intro a
    have h := cmp_swap a a
    change cmp a a = .eq
    cases hc : cmp a a <;> simp_all
  eq_of_compare := eq_of_cmp _ _

instance instTransOrd [Std.TransOrd X] [Std.LawfulEqOrd X] : Std.TransOrd (DataValue X) where
  eq_swap := cmp_swap _ _
  isLE_trans := by
    intro a b c hab hbc
    change (cmp a b).isLE at hab
    change (cmp b c).isLE at hbc
    change (cmp a c).isLE
    cases h₁ : cmp a b with
    | gt => simp [h₁] at hab
    | eq => exact eq_of_cmp a b h₁ ▸ hbc
    | lt =>
      cases h₂ : cmp b c with
      | gt => simp [h₂] at hbc
      | eq => rw [← eq_of_cmp b c h₂, h₁]; rfl
      | lt => rw [cmp_lt_trans a b c h₁ h₂]; rfl

instance instDecidableEq [Std.TransOrd X] [Std.LawfulEqOrd X] : DecidableEq (DataValue X) :=
  fun a b => decidable_of_iff (compare a b = .eq) Std.LawfulEqCmp.compare_eq_iff_eq

end Order

/-! ### Sets of values -/

variable {l : List (DataValue X)} {v : DataValue X}

section Sets

variable [Ord X]

/-- `BTreeSet::insert`, on the list of elements in order: an equal element already there is kept. -/
def setInsert (v : DataValue X) : List (DataValue X) → List (DataValue X)
  | [] => [v]
  | x :: xs =>
    match cmp v x with
    | .lt => v :: x :: xs
    | .eq => x :: xs
    | .gt => x :: setInsert v xs

/-- `collect` into a `BTreeSet`, and `extend`. -/
def setExtend (acc l : List (DataValue X)) : List (DataValue X) :=
  l.foldl (fun acc v => setInsert v acc) acc

def collectSet (l : List (DataValue X)) : List (DataValue X) := setExtend [] l

/-- The elements of a set stand in strictly ascending order. -/
def SetSorted (l : List (DataValue X)) : Prop := l.Pairwise fun a b => cmp b a = .gt

theorem setInsert_of_forall_gt (h : ∀ x ∈ l, cmp v x = .gt) : setInsert v l = l ++ [v] := by
  induction l with
  | nil => rfl
  | cons x xs ih =>
    rw [setInsert, h x (by simp), ih fun y hy => h y (by simp [hy])]
    rfl

theorem setExtend_of_sorted {acc : List (DataValue X)} (h : SetSorted (acc ++ l)) :
    setExtend acc l = acc ++ l := by
  induction l generalizing acc with
  | nil => simp [setExtend]
  | cons v l ih =>
    have hv : ∀ x ∈ acc, cmp v x = .gt :=
      fun x hx => (pairwise_append.1 h).2.2 x hx v (by simp)
    have hrest : SetSorted ((acc ++ [v]) ++ l) := by
      rw [append_assoc]
      exact h
    have hstep : setExtend acc (v :: l) = setExtend (setInsert v acc) l := rfl
    rw [hstep, setInsert_of_forall_gt hv, ih hrest, append_assoc]
    rfl

theorem collectSet_of_sorted (h : SetSorted l) : collectSet l = l :=
  setExtend_of_sorted (by simpa using h)

theorem mem_setInsert {x : DataValue X} (h : x ∈ setInsert v l) : x = v ∨ x ∈ l := by
  induction l with
  | nil => exact .inl (by simpa [setInsert] using h)
  | cons y ys ih =>
    rw [setInsert] at h
    split at h
    · simpa using h
    · exact .inr h
    · rcases mem_cons.1 h with rfl | h
      · simp
      · exact (ih h).imp_right (mem_cons_of_mem _)

theorem SetSorted.setInsert [Std.TransOrd X] [Std.LawfulEqOrd X] (h : SetSorted l) :
    SetSorted (setInsert v l) := by
  induction l with
  | nil => exact pairwise_singleton _ _
  | cons y ys ih =>
    obtain ⟨hy, hys⟩ := pairwise_cons.1 h
    rw [DataValue.setInsert]
    split
    · rename_i hlt
      refine pairwise_cons.2 ⟨fun z hz => ?_, h⟩
      -- below the head, and so below everything behind it
      have hyv : cmp y v = .gt := by rw [cmp_swap, hlt]; rfl
      rcases mem_cons.1 hz with rfl | hz
      · exact hyv
      · have hvz : cmp v z = .lt := cmp_lt_trans v y z hlt (by rw [cmp_swap, hy z hz]; rfl)
        rw [cmp_swap, hvz]
        rfl
    · exact h
    · rename_i hgt
      refine pairwise_cons.2 ⟨fun z hz => ?_, ih hys⟩
      rcases mem_setInsert hz with rfl | hz
      · exact hgt
      · exact hy z hz

theorem setSorted_setExtend [Std.TransOrd X] [Std.LawfulEqOrd X] {acc : List (DataValue X)}
    (h : SetSorted acc) (l : List (DataValue X)) : SetSorted (setExtend acc l) := by
  induction l generalizing acc with
  | nil => exact h
  | cons v l ih => exact ih h.setInsert

theorem collectSet_eq_iff [Std.TransOrd X] [Std.LawfulEqOrd X] : collectSet l = l ↔ SetSorted l :=
  ⟨fun h => h ▸ setSorted_setExtend List.Pairwise.nil l, collectSet_of_sorted⟩

end Sets

end DataValue

/-- The order of tuples, as one instance for all stores of tuples. -/
instance Tuple.instTransOrd {X : Type} [Ord X] [Std.TransOrd X] [Std.LawfulEqOrd X] :
    Std.TransOrd (Tuple X) :=
  inferInstanceAs (Std.TransOrd (List (DataValue X)))

end Retia
