import Retia.Lib.Bytes

/-!
# Codes that carry an order

Keys of an ordered byte store are concatenations of codes, and two keys are compared byte by byte. A
code *carries* a comparison when the byte order of two strings that begin with codes is decided by
that comparison first, and by what follows the codes only if the comparison finds no difference. The
property is closed under concatenation, which is how the codes of composite values get it: every
rule below rewrites `compare` of two strings into `Ordering.then` of two smaller comparisons.

* `compare_append_of_length_eq` — strings of one length;
* `compare_beBytes_append` — fixed-width big-endian numbers;
* `compare_flatMap_beBytes` — sequences of such numbers, of one length.

`then_eq_then_iff` says when two comparisons built up in this way agree.
-/

namespace Retia

open List

/-- **Strings of one length** are compared before whatever follows them. -/
theorem compare_append_of_length_eq {x y : Bytes} (h : x.length = y.length)
    (s t : Bytes) : compare (x ++ s) (y ++ t) = (compare x y).then (compare s t) := by
  induction x generalizing y with
  | nil =>
    obtain rfl := length_eq_zero_iff.1 h.symm
    simp
  | cons c x ih =>
    cases y with
    | nil => simp at h
    | cons d y =>
      rw [cons_append, cons_append, List.compare_cons_cons, List.compare_cons_cons,
        ih (by simpa using h), Ordering.then_assoc]

/-- **Big-endian numbers** of one width are compared as numbers. -/
theorem compare_beBytes_append {w m n : Nat} (hm : m < 256 ^ w) (hn : n < 256 ^ w) (s t : Bytes) :
    compare (beBytes w m ++ s) (beBytes w n ++ t) = (compare m n).then (compare s t) := by
  have hcmp : compare (beBytes w m) (beBytes w n) = compare m n := by
    rcases lt_trichotomy m n with h | h | h
    · rw [compare_bytes_eq_lt_iff.2 ((beBytes_lt_beBytes_iff hm hn).2 h), Std.compare_eq_lt.2 h]
    · simp [h]
    · rw [Std.compare_eq_gt.2 h, Std.OrientedCmp.gt_iff_lt, compare_bytes_eq_lt_iff]
      exact (beBytes_lt_beBytes_iff hn hm).2 h
  rw [compare_append_of_length_eq (by simp), hcmp]

/-- **Sequences of big-endian numbers**, of one length and one width. -/
theorem compare_flatMap_beBytes {w : Nat} {l m : List Nat} (hl : ∀ n ∈ l, n < 256 ^ w)
    (hm : ∀ n ∈ m, n < 256 ^ w) (hlen : l.length = m.length) (s t : Bytes) :
    compare (l.flatMap (beBytes w) ++ s) (m.flatMap (beBytes w) ++ t) =
    (compare l m).then (compare s t) := by
  induction l generalizing m with
  | nil =>
    obtain rfl := length_eq_zero_iff.1 hlen.symm
    simp
  | cons a l ih =>
    cases m with
    | nil => simp at hlen
    | cons b m =>
      rw [flatMap_cons, flatMap_cons, append_assoc, append_assoc,
        compare_beBytes_append (hl a (by simp)) (hm b (by simp)), List.compare_cons_cons,
        ih (fun n hn => hl n (by simp [hn])) (fun n hn => hm n (by simp [hn]))
          (by simpa using hlen), Ordering.then_assoc]

/-- When two lexicographic comparisons agree, of which the first tells apart at least what the
second does: at the first difference of the first. If that is no difference for the second, the rest
of the second has to make up for it. -/
theorem then_eq_then_iff {o p o' p' : Ordering} (h : o = .eq → p = .eq) : o.then o' = p.then p' ↔
      if o = .eq then o' = p' else if p = .eq then p' = o else o = p := by
  cases o <;> cases p <;> simp_all [eq_comm]

/-- A comparison that is decided is not looked at further. -/
theorem then_of_ne {o : Ordering} (h : o ≠ .eq) (p : Ordering) : o.then p = o := by
  cases o with
  | eq => exact absurd rfl h
  | lt | gt => rfl

/-- A comparison of strings that is decided at their first byte. -/
theorem compare_cons_of_ne {c d : UInt8} (h : c ≠ d) (s t : Bytes) :
    compare (c :: s) (d :: t) = compare c d := by
  have hne : compare c d ≠ .eq := fun heq => h (Std.LawfulEqCmp.eq_of_compare heq)
  rw [List.compare_cons_cons]
  cases hcd : compare c d with
  | eq => exact absurd hcd hne
  | lt => rfl
  | gt => rfl

/-- A comparison of strings with equal first bytes. -/
theorem compare_cons_self (c : UInt8) (s t : Bytes) : compare (c :: s) (c :: t) = compare s t := by
  have hself : compare c c = .eq := Std.ReflCmp.compare_self
  rw [List.compare_cons_cons, hself]
  rfl

end Retia
