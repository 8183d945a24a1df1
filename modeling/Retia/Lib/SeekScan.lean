import Mathlib.Order.Basic
import Mathlib.Data.List.Sort
import Retia.Lib.Bytes

/-!
# Scans that seek over versions

An ordered store keeps several versions of each item next to each other. A read at a moment in time
wants, for every item, the first version it can see, and gets there by seeking: from an invisible
version to where the visible ones begin, from a visible one past the end of the item.

* `VersionOrder` — the shape of such a key order: items are intervals of keys (`convex`), inside an
  item the visible versions are those from `seek` on, and no version lies beyond `last`.
* `VersionOrder.nxt` — where the scan goes after a key.
* `VersionOrder.heads` — what it is meant to find: the first visible version of every item.
* `VersionOrder.seekLoop` — the loop itself, over the entries of a range. It fails when it is sent
  beyond the end of the range, and it need not terminate.

The result is `VersionOrder.seekLoop_eq_iff`: the loop ends, and then with the heads, exactly when
every key of the range is sent strictly forward and not beyond the end. Two facts about one jump
carry it: the keys jumped over behave as the key jumped from (`VersionOrder.between_nxt`), and a
jump never lands between two visible versions of one item (`VersionOrder.nxt_le_of_visible`).
-/

namespace Retia

open List

universe u v w

/-- **Keys grouped into items, versions in order.** `IsKey` singles out the strings that are keys:
seek bounds are keys as well, the ends of a range need not be. -/
structure VersionOrder (K : Type u) (G : Type v) [LinearOrder K] where
  IsKey : K → Prop
  group : K → G
  visible : K → Bool
  /-- Where the visible versions of the item begin. -/
  seek : K → K
  /-- The greatest version the item can have. -/
  last : K → K
  convex : ∀ {a b c}, IsKey a → IsKey b → IsKey c → a ≤ b → b ≤ c → group a = group c → group b = group a
  isKey_seek : ∀ {k}, IsKey k → IsKey (seek k)
  group_seek : ∀ {k}, IsKey k → group (seek k) = group k
  seek_congr : ∀ {a b}, IsKey a → IsKey b → group a = group b → seek a = seek b
  visible_iff : ∀ {k}, IsKey k → (visible k = true ↔ seek k ≤ k)
  isKey_last : ∀ {k}, IsKey k → IsKey (last k)
  group_last : ∀ {k}, IsKey k → group (last k) = group k
  last_congr : ∀ {a b}, IsKey a → IsKey b → group a = group b → last a = last b
  le_last : ∀ {k}, IsKey k → k ≤ last k

namespace VersionOrder

variable {K : Type u} {G : Type v} [LinearOrder K] (O : VersionOrder K G)

/-- Where a scan continues after having looked at `k`. -/
def nxt (k : K) : K := if O.visible k then O.last k else O.seek k

variable {O}

variable {k : K}

theorem isKey_nxt (hk : O.IsKey k) : O.IsKey (O.nxt k) := by
  unfold nxt
  split
  · exact O.isKey_last hk
  · exact O.isKey_seek hk

theorem group_nxt (hk : O.IsKey k) : O.group (O.nxt k) = O.group k := by
  unfold nxt
  split
  · exact O.group_last hk
  · exact O.group_seek hk

theorem le_nxt (hk : O.IsKey k) : k ≤ O.nxt k := by
  unfold nxt
  split
  · exact O.le_last hk
  case isFalse h => exact le_of_lt (not_le.1 fun hle => h ((O.visible_iff hk).2 hle))

/-- The keys a jump passes over belong to the item jumped from and are visible exactly when it is,
so a scan that started at one of them would have jumped to the same place. -/
theorem between_nxt {k a : K} (hk : O.IsKey k) (ha : O.IsKey a) (hka : k ≤ a) (hlt : a < O.nxt k) :
    O.group a = O.group k ∧ O.visible a = O.visible k ∧ O.nxt a = O.nxt k := by
  have hg : O.group a = O.group k :=
    O.convex hk ha (isKey_nxt hk) hka hlt.le (group_nxt hk).symm
  have hv : O.visible a = O.visible k := by
    rw [Bool.eq_iff_iff, O.visible_iff ha, O.seek_congr ha hk hg]
    constructor
    · intro hle
      by_contra hnv
      rw [nxt, if_neg hnv] at hlt
      exact absurd hle (not_le.2 hlt)
    · intro hvk
      exact ((O.visible_iff hk).1 hvk).trans hka
  refine ⟨hg, hv, ?_⟩
  rw [nxt, nxt, hv, O.last_congr ha hk hg, O.seek_congr ha hk hg]

/-- A jump never lands between two visible versions of one item. -/
theorem nxt_le_of_visible {k a c : K} (hk : O.IsKey k) (ha : O.IsKey a) (hc : O.IsKey c)
    (hka : O.nxt k ≤ a) (hal : a < O.last a) (hg : O.group c = O.group a)
    (hv : O.visible c = true) : O.nxt k ≤ c := by
  by_contra hlt
  have hlt : c < O.nxt k := not_le.1 hlt
  by_cases hgk : O.group a = O.group k
  · by_cases hvk : O.visible k = true
    · -- `a` would lie at the end of its item
      rw [nxt, if_pos hvk, ← O.last_congr ha hk hgk] at hka
      exact absurd hka (not_le.2 hal)
    · rw [nxt, if_neg hvk, ← O.seek_congr hc hk (hg.trans hgk)] at hlt
      exact absurd ((O.visible_iff hc).1 hv) (not_le.2 hlt)
  · -- the landing point is an interior point of the item of `a` and `c`
    have := O.convex hc (isKey_nxt hk) ha hlt.le hka hg
    rw [group_nxt hk, hg] at this
    exact hgk this.symm

/-! ### The scan -/

section Scan

variable {α : Type*} {β : Type*} (O)

/-- Among the entries `L`, `k` is the first visible version of its item. -/
def isHead [DecidableEq G] (L : List (K × α)) (k : K) : Bool :=
  O.visible k && !L.any fun d => O.visible d.1 && O.group d.1 = O.group k && d.1 < k

/-- The entries that are the first visible version of their item. -/
def heads [DecidableEq G] (L : List (K × α)) : List (K × α) := L.filter fun e => O.isHead L e.1

/-- The scan loop over the entries `L` of a range that ends at `upper`, from bound `b` on: `none`
when the fuel is used up, an error when the bound has passed the end of the range. -/
def seekLoop (L : List (K × α)) (upper : K) (out : K × α → Option β) :
    Nat → K → Option (Except Panic (List β))
  | 0, _ => none
  | n + 1, b =>
    if upper < b then some (.error .rangeStartAfterEnd)
    else
      match L.find? fun e => b ≤ e.1 with
      | none => some (.ok [])
      | some e => (seekLoop L upper out n (O.nxt e.1)).map (·.map ((out e).toList ++ ·))

variable {O} {L : List (K × α)} {upper : K} {out : K × α → Option β}

theorem isHead_iff [DecidableEq G] {k : K} : O.isHead L k = true ↔ O.visible k = true ∧
    ∀ d ∈ L, O.visible d.1 = true → O.group d.1 = O.group k → k ≤ d.1 := by
  simp [isHead]

variable {b : K} {e : K × α} {n : Nat} {r : List β}

theorem seekLoop_succ_eq_ok {r : List β} (h : O.seekLoop L upper out (n + 1) b = some (.ok r)) :
    b ≤ upper ∧ ((L.find? (fun e => b ≤ e.1) = none ∧ r = []) ∨
      ∃ e r', L.find? (fun e => b ≤ e.1) = some e ∧
        O.seekLoop L upper out n (O.nxt e.1) = some (.ok r') ∧ r = (out e).toList ++ r') := by
  rw [seekLoop] at h
  split at h
  · simp at h
  case isFalse hb =>
    refine ⟨not_lt.1 hb, ?_⟩
    split at h
    case h_1 hf => exact Or.inl ⟨hf, by simpa using h.symm⟩
    case h_2 e hf =>
      obtain ⟨res, hres, hmap⟩ := Option.map_eq_some_iff.1 h
      cases res with
      | error => simp [Except.map] at hmap
      | ok r' => exact Or.inr ⟨e, r', hf, hres, by simpa [Except.map] using hmap.symm⟩

/-- More fuel does not change a result. -/
theorem seekLoop_mono {n m : Nat} {r : Except Panic (List β)}
    (h : O.seekLoop L upper out n b = some r) (hnm : n ≤ m) :
    O.seekLoop L upper out m b = some r := by
  induction n generalizing m b r with
  | zero => simp [seekLoop] at h
  | succ n ih =>
    cases m with
    | zero => omega
    | succ m =>
      rw [seekLoop] at h ⊢
      split at h
      case isTrue hb => rwa [if_pos hb]
      case isFalse hb =>
        rw [if_neg hb]
        split at h
        · exact h
        · obtain ⟨r', hr', rfl⟩ := Option.map_eq_some_iff.1 h
          rw [ih hr' (Nat.le_of_succ_le_succ hnm), Option.map_some]

theorem le_of_seekLoop_eq_ok {r : List β} (h : O.seekLoop L upper out n b = some (.ok r)) :
    b ≤ upper := by
  cases n with
  | zero => simp [seekLoop] at h
  | succ n => exact (seekLoop_succ_eq_ok h).1

/-- In a sorted list the entry found is the least of those from the bound on. -/
theorem filter_eq_cons_of_find (hs : L.Pairwise fun a b => a.1 < b.1) {e : K × α}
    (hf : L.find? (fun e => b ≤ e.1) = some e) :
    ∃ bs, L.filter (fun e => b ≤ e.1) = e :: bs ∧ ∀ d ∈ bs, e.1 < d.1 := by
  obtain ⟨hb, as, bs, rfl, has⟩ := List.find?_eq_some_iff_append.1 hf
  have hbs : ∀ d ∈ bs, e.1 < d.1 := (pairwise_cons.1 (pairwise_append.1 hs).2.1).1
  refine ⟨bs, ?_, hbs⟩
  have has' : as.filter (fun e => decide (b ≤ e.1)) = [] := by
    rw [filter_eq_nil_iff]
    intro a ha
    simpa using has a ha
  have hbs' : bs.filter (fun e => decide (b ≤ e.1)) = bs := by
    rw [filter_eq_self]
    intro d hd
    exact decide_eq_true ((of_decide_eq_true hb).trans (hbs d hd).le)
  rw [filter_append, filter_cons, if_pos hb, has', hbs', nil_append]

/-- The entry found lies in the list and below every other entry from the bound on. -/
theorem le_of_find (hs : L.Pairwise fun a b => a.1 < b.1) {e : K × α}
    (hf : L.find? (fun e => b ≤ e.1) = some e) {d : K × α} (hd : d ∈ L) (hbd : b ≤ d.1) :
    e.1 ≤ d.1 := by
  obtain ⟨bs, hbs, hlt⟩ := filter_eq_cons_of_find hs hf
  have hmem : d ∈ e :: bs := hbs ▸ mem_filter.2 ⟨hd, decide_eq_true hbd⟩
  rcases mem_cons.1 hmem with rfl | hmem
  · exact le_rfl
  · exact (hlt d hmem).le

/-- Every key is sent strictly forward, and not beyond the end of the range. -/
def Forward (O : VersionOrder K G) (L : List (K × α)) (upper : K) : Prop :=
  ∀ e ∈ L, e.1 < O.nxt e.1 ∧ O.nxt e.1 ≤ upper

/-- A loop that ends has sent every key it still had to look at forward. -/
theorem forward_of_seekLoop (hs : L.Pairwise fun a b => a.1 < b.1)
    (hk : ∀ e ∈ L, O.IsKey e.1) {r : List β}
    (h : O.seekLoop L upper out n b = some (.ok r)) (he : e ∈ L) (hbe : b ≤ e.1) :
    e.1 < O.nxt e.1 ∧ O.nxt e.1 ≤ upper := by
  induction n generalizing b r e with
  | zero => simp [seekLoop] at h
  | succ n ih =>
    obtain ⟨-, ⟨hf, -⟩ | ⟨e₀, r', hf, hrun, -⟩⟩ := seekLoop_succ_eq_ok h
    · exact absurd hbe (by simpa using List.find?_eq_none.1 hf e he)
    · have he₀ : e₀ ∈ L := mem_of_find?_eq_some hf
      have hle : e₀.1 ≤ e.1 := le_of_find hs hf he hbe
      by_cases hnxt : O.nxt e₀.1 ≤ e.1
      · exact ih hrun he hnxt
      · -- `e` is jumped over, so it behaves as `e₀`
        obtain ⟨-, -, heq⟩ := between_nxt (hk e₀ he₀) (hk e he) hle (not_le.1 hnxt)
        exact ⟨heq ▸ not_le.1 hnxt, heq ▸ le_of_seekLoop_eq_ok hrun⟩

/-- The bound `b` does not separate the visible versions of an item. -/
def SplitFree (O : VersionOrder K G) (L : List (K × α)) (b : K) : Prop :=
  ∀ a ∈ L, ∀ c ∈ L, b ≤ a.1 → O.group c.1 = O.group a.1 → O.visible c.1 = true → b ≤ c.1

theorem SplitFree.nxt (hk : ∀ e ∈ L, O.IsKey e.1) (hlast : ∀ e ∈ L, e.1 < O.last e.1)
    (he : e ∈ L) : SplitFree O L (O.nxt e.1) :=
  fun a ha c hc hle hg hv =>
    nxt_le_of_visible (hk e he) (hk a ha) (hk c hc) hle (hlast a ha) hg hv

theorem Forward.lt_last (hk : ∀ e ∈ L, O.IsKey e.1) (hfwd : Forward O L upper)
    (he : e ∈ L) : e.1 < O.last e.1 := by
  by_cases hv : O.visible e.1 = true
  · simpa [VersionOrder.nxt, hv] using (hfwd e he).1
  · refine lt_of_le_of_ne (O.le_last (hk e he)) fun heq => hv ?_
    -- an item's greatest version is past its seek point
    have hseek := O.le_last (O.isKey_seek (hk e he))
    rw [O.last_congr (O.isKey_seek (hk e he)) (hk e he) (O.group_seek (hk e he)), ← heq] at hseek
    exact (O.visible_iff (hk e he)).2 hseek

variable [DecidableEq G]

/-- What lies beyond a jump is among what lay beyond the key jumped from. -/
theorem filter_nxt_eq (hs : L.Pairwise fun a b => a.1 < b.1) {b c : K} {e₀ : K × α}
    (hf : L.find? (fun e => b ≤ e.1) = some e₀) (hlt : e₀.1 < c) :
    ∃ bs, L.filter (fun e => b ≤ e.1) = e₀ :: bs ∧ (∀ d ∈ bs, e₀.1 < d.1) ∧
    L.filter (fun e => c ≤ e.1) = bs.filter (fun e => c ≤ e.1) := by
  obtain ⟨bs, hbs, hgt⟩ := filter_eq_cons_of_find hs hf
  refine ⟨bs, hbs, hgt, ?_⟩
  have hb : b ≤ e₀.1 := by simpa using List.find?_some hf
  have hsub : L.filter (fun e => c ≤ e.1) =
      (L.filter fun e => b ≤ e.1).filter (fun e => c ≤ e.1) := by
    rw [filter_filter]
    refine filter_congr fun e _ => ?_
    by_cases hc : c ≤ e.1
    · simp [hc, (hb.trans hlt.le).trans hc]
    · simp [hc]
  rw [hsub, hbs, filter_cons, if_neg (by simpa using hlt)]

theorem heads_filter (q : K × α → Bool) :
    (O.heads L).filter q = (L.filter q).filter fun e => O.isHead L e.1 := by
  rw [heads, filter_filter, filter_filter]
  exact filter_congr fun e _ => Bool.and_comm ..

variable (hs : L.Pairwise fun a b => a.1 < b.1) (hk : ∀ e ∈ L, O.IsKey e.1)

include hs hk

/-- Where the scan stands at `e₀`, the heads still to come are `e₀` if it is visible, and those from
the next bound on. -/
theorem heads_filter_step (hfwd : Forward O L upper) (hsf : SplitFree O L b)
    {e₀ : K × α} (hf : L.find? (fun e => b ≤ e.1) = some e₀) :
    (O.heads L).filter (fun e => b ≤ e.1) =
    [e₀].filter (fun e => O.visible e.1) ++ (O.heads L).filter (fun e => O.nxt e₀.1 ≤ e.1) := by
  have he₀ : e₀ ∈ L := mem_of_find?_eq_some hf
  have hb : b ≤ e₀.1 := by simpa using List.find?_some hf
  obtain ⟨bs, hbs, hgt, hnxt⟩ := filter_nxt_eq hs hf (hfwd e₀ he₀).1
  have hhead : O.isHead L e₀.1 = O.visible e₀.1 := by
    rw [Bool.eq_iff_iff, isHead_iff, and_iff_left_iff_imp]
    intro _ d hd hv hg
    exact le_of_find hs hf hd (hsf e₀ he₀ d hd hb hg hv)
  -- a head behind `e₀` is not jumped over
  have hrest : bs.filter (fun e => O.isHead L e.1) =
      (bs.filter fun e => O.nxt e₀.1 ≤ e.1).filter (fun e => O.isHead L e.1) := by
    rw [filter_filter]
    refine filter_congr fun d hd => ?_
    have hdL : d ∈ L := mem_of_mem_filter (hbs ▸ mem_cons_of_mem e₀ hd)
    by_cases hle : O.nxt e₀.1 ≤ d.1
    · simp [hle]
    · obtain ⟨hg, hv, -⟩ := between_nxt (hk e₀ he₀) (hk d hdL) (hgt d hd).le (not_le.1 hle)
      have hnot : O.isHead L d.1 = false := by
        rw [Bool.eq_false_iff, ne_eq, isHead_iff]
        rintro ⟨hvd, hmin⟩
        exact absurd (hmin e₀ he₀ (hv ▸ hvd) hg.symm) (not_le.2 (hgt d hd))
      simp [hnot]
  rw [heads_filter, heads_filter, hbs, hnxt, ← hrest, filter_cons, hhead]
  by_cases hv : O.visible e₀.1 <;> simp [hv]

/-- Sent forward everywhere, the loop ends with the heads, given fuel for one pass per entry. -/
theorem seekLoop_eq_heads (hfwd : Forward O L upper)
    (hout : ∀ e ∈ L, O.visible e.1 = false → out e = none)
    (hb : b ≤ upper) (hsf : SplitFree O L b) (hn : (L.filter fun e => b ≤ e.1).length < n) :
    O.seekLoop L upper out n b =
    some (.ok (((O.heads L).filter fun e => b ≤ e.1).filterMap out)) := by
  induction n generalizing b with
  | zero => omega
  | succ n ih =>
    rw [seekLoop, if_neg (not_lt.2 hb)]
    split
    case h_1 hf =>
      have hnil : ((O.heads L).filter fun e => b ≤ e.1) = [] := by
        rw [filter_eq_nil_iff]
        intro e he
        exact List.find?_eq_none.1 hf e (mem_of_mem_filter he)
      rw [hnil, filterMap_nil]
    case h_2 e₀ hf =>
      have he₀ : e₀ ∈ L := mem_of_find?_eq_some hf
      have hlast : ∀ e ∈ L, e.1 < O.last e.1 := fun e he => hfwd.lt_last hk he
      have hfuel : (L.filter fun e => O.nxt e₀.1 ≤ e.1).length < n := by
        obtain ⟨bs, hbs, -, hnxt⟩ := filter_nxt_eq hs hf (hfwd e₀ he₀).1
        rw [hbs, length_cons] at hn
        rw [hnxt]
        exact lt_of_le_of_lt (length_filter_le ..) (Nat.lt_of_succ_lt_succ hn)
      rw [ih (hfwd e₀ he₀).2 (SplitFree.nxt hk hlast he₀) hfuel,
        heads_filter_step hs hk hfwd hsf hf, filterMap_append]
      by_cases hv : O.visible e₀.1
      · cases hoe : out e₀ <;> simp [hv, hoe, Except.map]
      · simp [hv, hout e₀ he₀ (by simpa using hv), Except.map]

/-- **When a seek scan is exact.** The loop ends with `r` exactly when the range is not empty by
its ends, every key is sent strictly forward and not past the end, and `r` is what the heads give.
-/
theorem seekLoop_eq_iff (hout : ∀ e ∈ L, O.visible e.1 = false → out e = none)
    {b : K} (hb : ∀ e ∈ L, b ≤ e.1) {r : List β} :
    (∃ n, O.seekLoop L upper out n b = some (.ok r)) ↔ b ≤ upper ∧ Forward O L upper ∧
    r = (O.heads L).filterMap out := by
  have hheads : b ≤ upper → Forward O L upper → ∀ {n}, L.length + 1 ≤ n →
      O.seekLoop L upper out n b = some (.ok ((O.heads L).filterMap out)) := by
    intro hle hfwd n hn
    have hsf : SplitFree O L b := fun _ _ c hc _ _ _ => hb c hc
    rw [seekLoop_eq_heads hs hk hfwd hout hle hsf (lt_of_le_of_lt (length_filter_le ..) hn),
      filter_eq_self.2]
    intro e he
    simpa using hb e (mem_of_mem_filter he)
  constructor
  · rintro ⟨n, h⟩
    have hle := le_of_seekLoop_eq_ok h
    have hfwd : Forward O L upper := fun e he => forward_of_seekLoop hs hk h he (hb e he)
    refine ⟨hle, hfwd, ?_⟩
    have hmono := seekLoop_mono h (Nat.le_max_left n (L.length + 1))
    rw [hheads hle hfwd (Nat.le_max_right n (L.length + 1))] at hmono
    simpa using hmono.symm
  · rintro ⟨hle, hfwd, rfl⟩
    exact ⟨L.length + 1, hheads hle hfwd le_rfl⟩

end Scan

end VersionOrder

end Retia
