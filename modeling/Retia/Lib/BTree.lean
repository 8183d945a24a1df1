import Mathlib
import Retia.Lib.Bytes

/-!
# Ranges of ordered maps

An ordered map is a `Std.ExtTreeMap`. What it lacks is the range query of the usual ordered-map
libraries, which fails when the map is not empty and the range starts after it ends.

* `BTree.rangeEntries` — the entries of `lo .. hi`, in order, without the check;
* `BTree.range` — the query with the check.

Over byte strings membership is stated with `≤` and `<` (`BTree.mem_rangeEntries`), and the entries
are strictly sorted (`BTree.pairwise_rangeEntries`).
-/

namespace Retia

open List

namespace BTree

open Std

variable {K V : Type} [Ord K] [TransOrd K]

/-- The entries with key in `lo .. hi`, the end included or not, in order. -/
def rangeEntries (m : ExtTreeMap K V) (lo hi : K) (incl : Bool) : List (K × V) :=
  m.toList.filter fun e =>
    (compare lo e.1).isLE && (compare e.1 hi == .lt || incl && compare e.1 hi == .eq)

/-- The range query. A map that was emptied counts as one never filled, though it keeps its root and
would fail on a range the wrong way round. -/
def range (m : ExtTreeMap K V) (lo hi : K) (incl : Bool) : Except Panic (List (K × V)) :=
  if !m.isEmpty && compare lo hi == .gt then .error .rangeStartAfterEnd
  else .ok (rangeEntries m lo hi incl)

section Ordered

variable {m : ExtTreeMap K V} {lo hi : K} {incl : Bool}

/-- A range that does not start after its end does not fail. -/
theorem range_eq_ok (h : (compare lo hi).isLE) :
    range m lo hi incl = .ok (rangeEntries m lo hi incl) := by
  have hne : (compare lo hi == .gt) = false := by
    cases hc : compare lo hi <;> simp_all
  rw [range, hne, Bool.and_false]
  rfl

/-- The entries of a range are in the order of their keys. -/
theorem pairwise_of_range {es : List (K × V)} (h : range m lo hi incl = .ok es) :
    es.Pairwise fun a b => compare a.1 b.1 = .lt := by
  rw [range] at h
  split at h
  · cases h
  · cases h
    exact ExtTreeMap.ordered_keys_toList.filter _

variable [LawfulEqOrd K]

/-- Membership in a range, by the comparison of the keys. -/
theorem mem_rangeEntries_iff {k : K} {v : V} : (k, v) ∈ rangeEntries m lo hi incl ↔
    m[k]? = some v ∧ (compare lo k).isLE ∧
      (compare k hi = .lt ∨ incl = true ∧ compare k hi = .eq) := by
  rw [rangeEntries, mem_filter, ExtTreeMap.mem_toList_iff_getElem?_eq_some]
  simp

theorem mem_of_mem_range {es : List (K × V)} {e : K × V} (h : range m lo hi incl = .ok es)
    (he : e ∈ es) : e.1 ∈ m := by
  rw [range] at h
  split at h
  · cases h
  · cases h
    have hget := (mem_rangeEntries_iff.1 he).1
    exact ExtTreeMap.mem_iff_isSome_getElem?.2 (by rw [hget]; rfl)

end Ordered

section Bytes

variable {V : Type} (m : ExtTreeMap Bytes V) {lo hi : Bytes}

theorem pairwise_toList : m.toList.Pairwise fun a b => a.1 < b.1 := by
  have h := ExtTreeMap.ordered_keys_toList (t := m)
  exact h.imp fun h => compare_bytes_eq_lt_iff.1 h

theorem pairwise_rangeEntries : (rangeEntries m lo hi false).Pairwise fun a b => a.1 < b.1 :=
  (pairwise_toList m).filter _

/-- Two ascending lists with the same entries are equal. -/
theorem eq_of_pairwise_of_mem_iff {es fs : List (Bytes × V)}
    (hes : es.Pairwise fun a b => a.1 < b.1)
    (hfs : fs.Pairwise fun a b => a.1 < b.1) (h : ∀ k v, (k, v) ∈ es ↔ (k, v) ∈ fs) : es = fs := by
  have hnodup : ∀ {l : List (Bytes × V)}, l.Pairwise (fun a b => a.1 < b.1) → l.Nodup :=
    fun hl => hl.imp fun hlt heq => absurd (heq ▸ hlt) (lt_irrefl _)
  have hperm : es.Perm fs := (perm_ext_iff_of_nodup (hnodup hes) (hnodup hfs)).2 fun e => h e.1 e.2
  exact hperm.eq_of_pairwise (fun a b _ _ hab hba => absurd hab (LT.lt.asymm hba)) hes hfs

variable {k : Bytes} {e : Bytes × V}

theorem mem_rangeEntries {v : V} : (k, v) ∈ rangeEntries m lo hi false ↔
    m[k]? = some v ∧ lo ≤ k ∧ k < hi := by
  rw [rangeEntries, mem_filter, ExtTreeMap.mem_toList_iff_getElem?_eq_some]
  simp [Std.isLE_compare, compare_bytes_eq_lt_iff]

theorem range_eq : range m lo hi false =
    if !m.isEmpty && decide (hi < lo) then .error .rangeStartAfterEnd
    else .ok (rangeEntries m lo hi false) := by
  have h : (compare lo hi == .gt) = decide (hi < lo) := by
    rw [Bool.eq_iff_iff, beq_iff_eq, decide_eq_true_iff, Std.OrientedCmp.gt_iff_lt,
      compare_bytes_eq_lt_iff]
  rw [range, h]

/-- Shrinking a range from below keeps the entries beyond the new start. -/
theorem rangeEntries_of_le {b : Bytes} (h : lo ≤ b) :
    rangeEntries m b hi false = (rangeEntries m lo hi false).filter fun e => b ≤ e.1 := by
  rw [rangeEntries, rangeEntries, filter_filter]
  refine filter_congr fun e _ => ?_
  rw [Bool.eq_iff_iff]
  simp only [Std.isLE_compare, compare_bytes_eq_lt_iff, Bool.and_eq_true,
    decide_eq_true_iff, Bool.false_and, Bool.or_false, beq_iff_eq]
  constructor
  · rintro ⟨hb, hlt⟩
    exact ⟨hb, h.trans hb, hlt⟩
  · rintro ⟨hb, -, hlt⟩
    exact ⟨hb, hlt⟩

theorem rangeEntries_of_isEmpty (h : m.isEmpty = true) : rangeEntries m lo hi false = [] := by
  have hnil : m.toList = [] := by
    rw [← List.isEmpty_iff, ExtTreeMap.isEmpty_toList, h]
  rw [rangeEntries, hnil]
  rfl

theorem mem_of_mem_rangeEntries (h : e ∈ rangeEntries m lo hi false) :
    e.1 ∈ m ∧ lo ≤ e.1 ∧ e.1 < hi := by
  have he := (mem_rangeEntries m).1 h
  exact ⟨ExtTreeMap.mem_iff_isSome_getElem?.2 (by rw [he.1]; rfl), he.2⟩

theorem exists_mem_rangeEntries (hk : k ∈ m) (hlo : lo ≤ k) (hhi : k < hi) :
    ∃ v, (k, v) ∈ rangeEntries m lo hi false := by
  obtain ⟨v, hv⟩ := Option.isSome_iff_exists.1 (ExtTreeMap.mem_iff_isSome_getElem?.1 hk)
  exact ⟨v, (mem_rangeEntries m).2 ⟨hv, hlo, hhi⟩⟩

/-- The first entry of a range is the one with the least key. -/
theorem head?_rangeEntries_eq_some {v : V} (hv : m[k]? = some v) (hlo : lo ≤ k)
    (hhi : k < hi) (hmin : ∀ k' ∈ m, lo ≤ k' → k' < hi → k ≤ k') :
    (rangeEntries m lo hi false).head? = some (k, v) := by
  have hmem : (k, v) ∈ rangeEntries m lo hi false := (mem_rangeEntries m).2 ⟨hv, hlo, hhi⟩
  have hsorted := @pairwise_rangeEntries V m lo hi
  cases hl : rangeEntries m lo hi false with
  | nil => rw [hl] at hmem; cases hmem
  | cons e rest =>
    rw [hl] at hmem hsorted
    rcases mem_cons.1 hmem with rfl | hrest
    · rfl
    · have he := mem_of_mem_rangeEntries m (e := e) (by rw [hl]; simp)
      exact absurd (hmin e.1 he.1 he.2.1 he.2.2) ((pairwise_cons.1 hsorted).1 _ hrest).not_ge

theorem le_of_head?_rangeEntries (h : (rangeEntries m lo hi false).head? = some e)
    (hk : k ∈ m) (hlo : lo ≤ k) (hhi : k < hi) : e.1 ≤ k := by
  obtain ⟨v, hv⟩ := exists_mem_rangeEntries m hk hlo hhi
  have hsorted := @pairwise_rangeEntries V m lo hi
  cases hl : rangeEntries m lo hi false with
  | nil => rw [hl] at h; cases h
  | cons d rest =>
    rw [hl] at h hv hsorted
    cases h
    rcases mem_cons.1 hv with hd | hrest
    · exact (congrArg Prod.fst hd).ge
    · exact ((pairwise_cons.1 hsorted).1 _ hrest).le

theorem of_head?_rangeEntries (h : (rangeEntries m lo hi false).head? = some e) :
    m[e.1]? = some e.2 ∧ lo ≤ e.1 ∧ e.1 < hi :=
  (mem_rangeEntries m).1 (mem_of_head? h)

theorem not_lt_of_head?_rangeEntries (h : (rangeEntries m lo hi false).head? = none)
    (hk : k ∈ m) (hlo : lo ≤ k) : ¬ k < hi := by
  intro hhi
  obtain ⟨v, hv⟩ := exists_mem_rangeEntries m hk hlo hhi
  rw [List.head?_eq_none_iff.1 h] at hv
  cases hv

/-- Playing entries in order of their keys onto a map: the entry with key `k`, if there is one,
decides. -/
theorem getElem?_foldl_of_pairwise {W : Type}
    {step : ExtTreeMap Bytes W → Bytes × V → ExtTreeMap Bytes W} {r : V → Option W}
    (hstep : ∀ w e k, (step w e)[k]? = if e.1 = k then r e.2 else w[k]?) (k : Bytes)
    (l : List (Bytes × V)) (w : ExtTreeMap Bytes W) (hl : l.Pairwise fun a b => a.1 < b.1) :
    (∀ v, (k, v) ∈ l → (l.foldl step w)[k]? = r v) ∧
    ((∀ v, (k, v) ∉ l) → (l.foldl step w)[k]? = w[k]?) := by
  induction l generalizing w with
  | nil => simp
  | cons e l ih =>
    obtain ⟨hlt, hl⟩ := pairwise_cons.1 hl
    obtain ⟨ih₁, ih₂⟩ := ih (step w e) hl
    constructor
    · intro v hv
      rcases mem_cons.1 hv with rfl | hv
      · have hnot : ∀ v', (k, v') ∉ l := fun v' h => absurd (hlt _ h) (lt_irrefl k)
        rw [foldl_cons, ih₂ hnot, hstep, if_pos rfl]
      · exact ih₁ v hv
    · intro hnot
      have hne : e.1 ≠ k := by
        rintro rfl
        exact hnot e.2 mem_cons_self
      rw [foldl_cons, ih₂ fun v h => hnot v (mem_cons_of_mem _ h), hstep, if_neg hne]

/-- Playing the entries of a map back onto another one, each entry deciding its own key. -/
theorem getElem?_foldl_toList {W : Type}
    {step : ExtTreeMap Bytes W → Bytes × V → ExtTreeMap Bytes W} {r : V → Option W}
    (hstep : ∀ w e k, (step w e)[k]? = if e.1 = k then r e.2 else w[k]?)
    (w : ExtTreeMap Bytes W) (k : Bytes) : (m.toList.foldl step w)[k]? = m[k]?.elim w[k]? r := by
  obtain ⟨h₁, h₂⟩ := getElem?_foldl_of_pairwise hstep k m.toList w (pairwise_toList m)
  cases hk : m[k]? with
  | some v => exact h₁ v (ExtTreeMap.mem_toList_iff_getElem?_eq_some.2 hk)
  | none =>
    refine h₂ fun v hv => ?_
    rw [ExtTreeMap.mem_toList_iff_getElem?_eq_some.1 hv] at hk
    cases hk

end Bytes

end BTree

end Retia
