import Mathlib
import Retia.Query.Bounds

/-!
# The joins with a stored relation

`InnerJoin::iter` of `query/ra.rs` joins with a stored relation in one of three ways. When the join
columns are the first ones of the relation it looks its rows up for every row of the left side: by
key, when the join columns cover the key, and by a scan of the keys that begin with them otherwise,
within the bounds that the filters put on the rest of the key. When they are not, the rows of the
relation are sorted by the join columns first.

All three are compared with the nested loop over the rows of both sides. What a pair of rows
contributes to it is said once, by `StoredRA.contribution`, and each strategy turns out to be the
nested loop with some contributions left out or added:

* the point lookup leaves out errors. They are in the inner `Result` of its iterator, which
  `flatten_ok` flattens together with the outer one;
* the prefix scan leaves out the rows whose key is not within the bounds, be the filters true for
  them or not;
* the materialised join reads the relation before it looks at any left row, so that it fails on rows
  which no left row joins with.

`StoredRA.join_conforms_iff` says that nothing else is different.
-/

namespace Retia

open List TupleIter

open Std (TransOrd LawfulEqOrd)

variable {X : Type}

/-! ### Columns by position -/

variable {ri : List Nat} {α : Type} {width : Nat}

section Columns

/-- The columns `is` of a tuple that has them all. -/
def columnsAt (t : Tuple X) (is : List Nat) : Tuple X := is.map fun i => t.getD i .null

variable {is : List Nat} {t : Tuple X}

theorem pick_eq (h : ∀ i ∈ is, i < t.length) : pick t is = .ok (columnsAt t is) := by
  refine mapM_eq_ok_iff.2 (forall₂_map_right_iff.2 (forall₂_same.2 fun i hi => ?_))
  rw [List.getElem?_eq_getElem (h i hi), getD_eq_getElem _ _ (h i hi)]

theorem columnsAt_range {n : Nat} (h : n ≤ t.length) : columnsAt t (List.range n) = t.take n := by
  refine ext_getElem (by simp [columnsAt, h]) fun i h₁ h₂ => ?_
  have hi : i < t.length := by simp [columnsAt] at h₁; omega
  simp [columnsAt, hi]

theorem columnsAt_eq_iff {l r : Tuple X} {li : List Nat} (h : li.length = ri.length) :
    columnsAt l li = columnsAt r ri ↔ ∀ p ∈ li.zip ri, l.getD p.1 .null = r.getD p.2 .null := by
  induction li generalizing ri with
  | nil =>
    obtain rfl : ri = [] := length_eq_zero_iff.1 h.symm
    simp [columnsAt]
  | cons i li ih =>
    match ri with
    | [] => cases h
    | j :: ri =>
      rw [columnsAt, columnsAt, map_cons, map_cons, List.cons.injEq, zip_cons_cons, forall_mem_cons]
      exact and_congr_right fun _ => ih (Nat.succ.inj h)

theorem map_insertionSort_eq_range {f : α → Nat} {l : List α} {n : Nat}
    (h : (l.map f).insertionSort (· ≤ ·) = List.range n) :
    (l.insertionSort fun a b => f a ≤ f b).map f = List.range n := by
  exact (map_insertionSort _ (· ≤ ·) f l fun _ _ _ _ => Iff.rfl).trans h

/-- **The columns of the left side in the order of the prefix** are the first `m` columns of a tuple
if and only if the join columns among these are equal. -/
theorem take_eq_iff_equal {l t : Tuple X} {li : List Nat} (hlen : li.length = ri.length)
    (hlead : joinIsPrefix ri = true) {m : Nat} (hm : m ≤ ri.length) (ht : m ≤ t.length) :
    t.take m = (columnsAt l (leftToPrefixIndices li ri)).take m ↔
    ∀ p ∈ li.zip ri, p.2 < m → l.getD p.1 .null = t.getD p.2 .null := by
  have hsnd : (li.zip ri).map Prod.snd = ri := map_snd_zip (by omega)
  generalize hz : (li.zip ri).insertionSort (fun a b => a.2 ≤ b.2) = z
  have hrange : z.map Prod.snd = List.range ri.length := by
    rw [← hz]
    refine map_insertionSort_eq_range ?_
    rw [hsnd]
    exact of_decide_eq_true hlead
  -- the pairs among the first columns are the first ones of the sorted list
  have hfirst : (z.take m).map Prod.snd = List.range m := by
    rw [map_take, hrange, take_range, Nat.min_eq_left hm]
  have hmem : ∀ p, p ∈ z.take m ↔ p ∈ li.zip ri ∧ p.2 < m := by
    intro p
    have hsorted : p ∈ li.zip ri ↔ p ∈ z := hz ▸ (mem_insertionSort _).symm
    rw [hsorted]
    refine ⟨fun hp => ⟨mem_of_mem_take hp, ?_⟩, fun ⟨hp, hlt⟩ => ?_⟩
    · exact mem_range.1 (hfirst ▸ mem_map_of_mem hp)
    · obtain ⟨k, hk, rfl⟩ := getElem_of_mem hp
      have hzk : z[k].2 = k := by
        have : (z.map Prod.snd)[k]? = some z[k].2 := by simp [hk]
        rw [hrange] at this
        exact (getElem_range _ ▸ (List.getElem?_eq_some_iff.1 this).2).symm
      rw [hzk] at hlt
      exact mem_take_iff_getElem.2 ⟨k, by omega, rfl⟩
  rw [← columnsAt_range ht, ← hfirst, leftToPrefixIndices, hz, columnsAt,
    columnsAt, ← map_take, ← map_take, map_map, map_map, map_inj_left]
  refine forall_congr' fun p => ?_
  rw [hmem, and_imp]
  exact imp_congr_right fun _ => imp_congr_right fun _ => eq_comm

theorem lt_of_joinIsPrefix (hlead : joinIsPrefix ri = true) {i : Nat} (hi : i ∈ ri) :
    i < ri.length := by
  have hsorted : ri.insertionSort (· ≤ ·) = List.range ri.length := of_decide_eq_true hlead
  rw [← mem_range, ← hsorted]
  exact (mem_insertionSort _).2 hi

theorem rightStoreIndices_perm (hnodup : ri.Nodup) (h : ∀ i ∈ ri, i < width) :
    (rightStoreIndices ri width).Perm (List.range width) := by
  refine (perm_ext_iff_of_nodup ?_ nodup_range).2 fun i => ?_
  · refine hnodup.append (nodup_range.filter _) fun i hi hi' => ?_
    have := (mem_filter.1 hi').2
    simp [hi] at this
  · rw [rightStoreIndices, mem_append, mem_filter, mem_range]
    by_cases hi : i ∈ ri
    · simp [hi, h i hi]
    · simp [hi]

theorem map_fst_sorted_zipIdx (h : is.Perm (List.range width)) :
    ((is.zipIdx.insertionSort fun a b => a.1 ≤ b.1).map Prod.fst) = List.range width := by
  refine map_insertionSort_eq_range ?_
  rw [zipIdx_map_fst]
  refine ((perm_insertionSort _ is).trans h).eq_of_pairwise' (pairwise_insertionSort _ is) ?_
  exact pairwise_le_range

/-- **The columns of a cached row, put back in order**, are the row. -/
theorem columnsAt_rightInvertIndices (h : is.Perm (List.range t.length)) :
    columnsAt (columnsAt t is) (rightInvertIndices is) = t := by
  have hfst := map_fst_sorted_zipIdx h
  have hcolumn : ∀ q ∈ is.zipIdx.insertionSort (fun a b => a.1 ≤ b.1),
      (columnsAt t is).getD q.2 .null = t.getD q.1 .null := by
    intro q hq
    have hget := mk_mem_zipIdx_iff_getElem?.1 ((mem_insertionSort _).1 hq)
    rw [columnsAt, getD_eq_getElem?_getD, List.getElem?_map, hget]
    rfl
  calc columnsAt (columnsAt t is) (rightInvertIndices is)
      = (is.zipIdx.insertionSort fun a b => a.1 ≤ b.1).map fun q => (columnsAt t is).getD q.2 .null := by
        rw [rightInvertIndices, columnsAt, map_map]
        rfl
    _ = (is.zipIdx.insertionSort fun a b => a.1 ≤ b.1).map fun q => t.getD q.1 .null :=
      map_congr_left hcolumn
    _ = columnsAt t (List.range t.length) := by
        rw [← hfst, columnsAt, map_map]
        rfl
    _ = t := by rw [columnsAt_range le_rfl, take_length]

theorem pick_rightInvertIndices (h : is.Perm (List.range t.length)) :
    pick (columnsAt t is) (rightInvertIndices is) = .ok t := by
  rw [pick_eq, columnsAt_rightInvertIndices h]
  intro i hi
  obtain ⟨q, hq, rfl⟩ := mem_map.1 hi
  have hget := mk_mem_zipIdx_iff_getElem?.1 ((mem_insertionSort _).1 hq)
  rw [columnsAt, length_map]
  exact (List.getElem?_eq_some_iff.1 hget).1

end Columns

/-! ### Lists with contributions left out -/

section Contributions

/-- Contributions that are each a part of another's make up the same multiset only where they are
all of it. -/
theorem flatMap_perm_iff {β : Type} {F G : α → List β} {l : List α}
    (h : ∀ a ∈ l, (F a).Sublist (G a)) : (l.flatMap F).Perm (l.flatMap G) ↔ ∀ a ∈ l, F a = G a := by
  constructor
  · intro hperm
    induction l with
    | nil => simp
    | cons a l ih =>
      obtain ⟨ha, hl⟩ := forall_mem_cons.1 h
      have hrest : (l.flatMap F).Sublist (l.flatMap G) := by
        clear ih hperm h
        induction l with
        | nil => exact .slnil
        | cons b l ih =>
          obtain ⟨hb, hl⟩ := forall_mem_cons.1 hl
          exact hb.append (ih hl)
      -- no part is longer than the whole, so equal lengths leave no room
      have hlen := hperm.length_eq
      rw [flatMap_cons, flatMap_cons, length_append, length_append] at hlen
      have h₁ := ha.length_le
      have h₂ := hrest.length_le
      have hrest := hrest.eq_of_length (by omega)
      exact forall_mem_cons.2 ⟨ha.eq_of_length (by omega), ih hl (by rw [hrest])⟩
  · intro heq
    rw [flatMap_congr heq]

theorem flatMap_eq_find {κ β : Type} {F : κ × α → List β} {l : List (κ × α)} {q : κ → Bool}
    (hdistinct : l.Pairwise fun a b => a.1 ≠ b.1) (hq : ∀ a b, q a = true → q b = true → a = b)
    (hF : ∀ a ∈ l, q a.1 = false → F a = []) :
    l.flatMap F = match l.find? fun a => q a.1 with
      | some a => F a
      | none => [] := by
  induction l with
  | nil => rfl
  | cons a l ih =>
    obtain ⟨ha, hl⟩ := pairwise_cons.1 hdistinct
    obtain ⟨hFa, hFl⟩ := forall_mem_cons.1 hF
    rw [flatMap_cons, List.find?_cons]
    cases hqa : q a.1 with
    | true =>
      have hrest : l.flatMap F = [] := by
        refine flatMap_eq_nil_iff.2 fun b hb => hFl b hb ?_
        by_contra hqb
        exact ha b hb (hq _ _ hqa (by simpa using hqb))
      rw [hrest, append_nil]
    | false => rw [hFa hqa, nil_append, ih hl hFl]

theorem flatMap_filter_eq {β : Type} (F : α → List β) (q : α → Bool) (l : List α) :
    (l.filter q).flatMap F = l.flatMap fun a => if q a then F a else [] := by
  induction l with
  | nil => rfl
  | cons a l ih => by_cases h : q a <;> simp [h, ih]

end Contributions

/-! ### What a transaction reads -/

abbrev StoredItem (X : Type) := Tuple X × Except (EvalError X) (Tuple X)

section Reads

variable [Ord X]

/-- The keys which a scan within bounds visits, after the columns `pre`. -/
def keyWithin (pre lower upper key : Tuple X) : Bool :=
  (compare (pre ++ lower) key).isLE && compare key (pre ++ upper ++ [.bot]) == .lt

/-- **The transaction reads the rows `items` of a relation**, by scans and by lookups. Some of them
may be impossible to read; those that can be read have all columns, and begin with their key. -/
structure Reads (tx : SessionTx X) (h : StorageHandle) (width : Nat)
    (items : List (StoredItem X)) : Prop where
  scanAll : tx.scanAll h = items.map Prod.snd
  scanPrefix : ∀ pre, tx.scanPrefix h pre =
    (items.filter fun p => compare (p.1.take pre.length) (pre.take h.keys.length) == .eq).map Prod.snd
  scanBoundedPrefix : ∀ pre lower upper, tx.scanBoundedPrefix h pre lower upper =
    (items.filter fun p => keyWithin pre lower upper p.1).map Prod.snd
  get : ∀ key, tx.get h key =
    match items.find? fun p => compare p.1 key == .eq with
    | some p => p.2.map some
    | none => .ok none
  distinct : items.Pairwise fun p q => p.1 ≠ q.1
  key_length : ∀ p ∈ items, p.1.length = h.keys.length
  row : ∀ p ∈ items, ∀ t, p.2 = .ok t → t.length = width ∧ t.take h.keys.length = p.1

/-- The pairs of columns agree, for an equality of values. -/
def columnsAgree (eq : DataValue X → DataValue X → Bool) (l r : Tuple X)
    (pairs : List (Nat × Nat)) : Bool :=
  pairs.all fun p => eq (l.getD p.1 .null) (r.getD p.2 .null)

/-- The values are the same, in the order of values. -/
def sameValue (a b : DataValue X) : Bool := compare a b == .eq

/-- The same values in all pairs of columns. -/
def equalAt (l r : Tuple X) (pairs : List (Nat × Nat)) : Bool := columnsAgree sameValue l r pairs

/-- The loop over the join columns compares them by `==`. -/
theorem equalColumns_eq {l r : Tuple X} {pairs : List (Nat × Nat)}
    (hl : ∀ p ∈ pairs, p.1 < l.length)
    (hr : ∀ p ∈ pairs, p.2 < r.length) :
    equalColumns l r pairs = .ok (columnsAgree DataValue.beq l r pairs) := by
  induction pairs with
  | nil => rfl
  | cons p pairs ih =>
    obtain ⟨hpl, hl⟩ := forall_mem_cons.1 hl
    obtain ⟨hpr, hr⟩ := forall_mem_cons.1 hr
    rw [equalColumns, List.getElem?_eq_getElem hpl, List.getElem?_eq_getElem hpr]
    simp only [ih hl hr]
    rw [columnsAgree, columnsAgree, all_cons, getD_eq_getElem _ _ hpl, getD_eq_getElem _ _ hpr]
    cases DataValue.beq l[p.1] r[p.2] <;> rfl

theorem beqList_columnsAt {l r : Tuple X} {li ri : List Nat} (hlen : li.length = ri.length) :
    DataValue.beqList (columnsAt l li) (columnsAt r ri) =
    columnsAgree DataValue.beq l r (li.zip ri) := by
  induction li generalizing ri with
  | nil =>
    obtain rfl := length_eq_zero_iff.1 hlen.symm
    rfl
  | cons i li ih =>
    obtain _ | ⟨j, ri⟩ := ri
    · cases hlen
    · rw [zip_cons_cons, columnsAgree, all_cons]
      exact congrArg _ (ih (Nat.succ.inj hlen))

theorem equalAt_iff [TransOrd X] [LawfulEqOrd X] {l r : Tuple X} {pairs : List (Nat × Nat)} :
    equalAt l r pairs = true ↔ ∀ p ∈ pairs, l.getD p.1 .null = r.getD p.2 .null := by
  rw [equalAt, columnsAgree, all_eq_true]
  refine forall₂_congr fun p _ => ?_
  rw [sameValue, beq_iff_eq]
  exact Std.LawfulEqCmp.compare_eq_iff_eq

theorem columnsAgree_of_equalAt [TransOrd X] [LawfulEqOrd X] {l r : Tuple X}
    {pairs : List (Nat × Nat)}
    (h : equalAt l r pairs = true) : columnsAgree DataValue.beq l r pairs = true := by
  refine all_eq_true.2 fun p hp => ?_
  rw [equalAt_iff.1 h p hp]
  exact DataValue.beq_self _

theorem columnsAgree_eq_equalAt [TransOrd X] [LawfulEqOrd X] {l r : Tuple X}
    {li ri : List Nat} (hlen : li.length = ri.length)
    (hsame : SameIfEqual (columnsAt l li) (columnsAt r ri)) :
    columnsAgree DataValue.beq l r (li.zip ri) = equalAt l r (li.zip ri) := by
  refine Bool.eq_iff_iff.2 ⟨fun h => ?_, columnsAgree_of_equalAt⟩
  rw [← beqList_columnsAt hlen] at h
  exact equalAt_iff.2 ((columnsAt_eq_iff hlen).1 (hsame h))

end Reads

/-! ### The nested loop -/

namespace StoredRA

variable [Ord X] [TransOrd X] [LawfulEqOrd X]

/-- What a left row and a stored row contribute to the join: the joined row, if the join columns are
equal and the filters pass it, and the error of a filter. A row that cannot be read contributes its
error if the join columns of its key are equal. -/
def contribution (r : StoredRA X) (indices : List Nat × List Nat)
    (eliminateIndices : List Nat) (l : Tuple X) (p : StoredItem X) : TupleIter X :=
  match p.2 with
  | .ok row =>
    -- the filters are evaluated on joined rows only
    if equalAt l row (indices.1.zip indices.2) then
      match evalFilters r.filtersBytecodes row with
      | .ok true => [.ok (eliminateFromTuple (l ++ row) eliminateIndices)]
      | .ok false => []
      | .error e => [.error e]
    else []
  | .error e =>
    -- of a row that cannot be read only the key is known
    if equalAt l p.1 ((indices.1.zip indices.2).filter fun q => q.2 <
      r.storage.keys.length) then [.error e]
    else []

/-- **The nested-loop join**: every stored row for every left row. -/
def nestedLoop (r : StoredRA X) (indices : List Nat × List Nat) (eliminateIndices : List Nat)
    (items : List (StoredItem X)) (lefts : TupleIter X) : TupleIter X :=
  lefts.flatMapOk fun l => items.flatMap (r.contribution indices eliminateIndices l)

/-- **The result of a join agrees with the nested loop**: the same rows, each as often, and the same
errors; or an error, when the nested loop meets one. -/
def Conforms (result : Except (EvalError X) (TupleIter X)) (reference : TupleIter X) : Prop :=
  match result with
  | .ok it => it.Perm reference
  | .error _ => ∃ e, .error e ∈ reference

/-- What a point lookup does not drop: rows, and panics. -/
def reported : Except (EvalError X) (Tuple X) → Bool
  | .ok _ => true
  | .error (.panic _) => true
  | .error _ => false

def reading (r : StoredRA X) (p : StoredItem X) : Except (EvalError X) Bool := do
  evalFilters r.filtersBytecodes (← p.2)

/-- **When the strategy agrees with the nested loop.** A point lookup does so when no pair of rows
contributes an error. A scan within bounds does so when they hold every key of a row that
contributes. A materialised join does so when all rows can be read and filtered, unless there is no
left row, or the nested loop fails too. -/
def Faithful (r : StoredRA X) (indices : List Nat × List Nat) (eliminateIndices : List Nat)
    (items : List (StoredItem X)) (lefts : TupleIter X) : Prop :=
  if joinIsPrefix indices.2 then
    if r.storage.keys.length ≤ indices.2.length then
      ∀ l, .ok l ∈ lefts → ∀ p ∈ items, ∀ c ∈ r.contribution indices eliminateIndices l p, reported c
    else
      match rangeBounds r.filters ((r.bindings.take r.storage.keys.length).drop indices.2.length) with
      | some (lower, upper) => ∀ l, .ok l ∈ lefts → ∀ p ∈ items,
          r.contribution indices eliminateIndices l p ≠ [] →
            keyWithin (columnsAt l (leftToPrefixIndices indices.1 indices.2)) lower upper p.1
      | none => True
  else
    lefts = [] ∨ (∀ p ∈ items, ∀ e, r.reading p ≠ .error e) ∨
      ∃ e, .error e ∈ r.nestedLoop indices eliminateIndices items lefts

/-- **Where the strategy compares rightly.** A point lookup and a materialised join compare values
by `==`: a left row and a stored row that the filters do not refuse are the same on the join columns
if they are equal there in this way. -/
def ComparesRightly (r : StoredRA X) (indices : List Nat × List Nat)
    (items : List (StoredItem X)) (lefts : TupleIter X) : Prop :=
  (joinIsPrefix indices.2 = true → r.storage.keys.length ≤ indices.2.length) →
    ∀ l, .ok l ∈ lefts → ∀ p ∈ items, ∀ row,
    p.2 = .ok row → evalFilters r.filtersBytecodes row ≠ .ok false →
      SameIfEqual (columnsAt l indices.1) (columnsAt row indices.2)

/-- The positions of the join columns are positions of the two sides. -/
structure Fits (r : StoredRA X) (indices : List Nat × List Nat) (leftWidth : Nat) : Prop where
  length_eq : indices.1.length = indices.2.length
  left : ∀ i ∈ indices.1, i < leftWidth
  right : ∀ i ∈ indices.2, i < r.bindings.length
  nodup : indices.2.Nodup
  keys : r.storage.keys.length ≤ r.bindings.length

section Rows

variable {r : StoredRA X} {tx : SessionTx X} {items : List (StoredItem X)}
    {indices : List Nat × List Nat}
  {eliminateIndices : List Nat} {l : Tuple X}

omit [Ord X] [TransOrd X] [LawfulEqOrd X] in
theorem Fits.length_le {leftWidth : Nat} (h : r.Fits indices leftWidth) :
    indices.2.length ≤ r.bindings.length := by
  have hsub : indices.2 ⊆ List.range r.bindings.length := fun i hi => mem_range.2 (h.right i hi)
  simpa using (h.nodup.subperm hsub).length_le

omit [Ord X] [TransOrd X] [LawfulEqOrd X] in
theorem Fits.pick_left (h : r.Fits indices l.length) :
    pick l (leftToPrefixIndices indices.1 indices.2) =
      .ok (columnsAt l (leftToPrefixIndices indices.1 indices.2)) := by
  refine pick_eq fun i hi => ?_
  obtain ⟨p, hp, rfl⟩ := mem_map.1 hi
  exact h.left _ (of_mem_zip ((mem_insertionSort _).1 hp)).1

omit [Ord X] [TransOrd X] [LawfulEqOrd X] in
theorem length_columnsAt_left (h : r.Fits indices l.length) :
    (columnsAt l (leftToPrefixIndices indices.1 indices.2)).length = indices.2.length := by
  simp [columnsAt, leftToPrefixIndices, h.length_eq]

section Leading

variable (h : r.Fits indices l.length) (hlead : joinIsPrefix indices.2 = true)

include h hlead

theorem equalAt_row_iff {row : Tuple X} (hrow : row.length = r.bindings.length) :
    equalAt l row (indices.1.zip indices.2) = true ↔
    row.take indices.2.length = columnsAt l (leftToPrefixIndices indices.1 indices.2) := by
  have htake := take_eq_iff_equal (l := l) h.length_eq hlead le_rfl (hrow ▸ h.length_le : _ ≤ row.length)
  rw [take_of_length_le (length_columnsAt_left h).le] at htake
  rw [equalAt_iff, htake]
  exact forall₂_congr fun p hp =>
    ⟨fun heq _ => heq, fun heq => heq (lt_of_joinIsPrefix hlead (of_mem_zip hp).2)⟩

theorem equalAt_key_iff {key : Tuple X} (hkey : key.length = r.storage.keys.length) :
    equalAt l key ((indices.1.zip indices.2).filter fun q => q.2 < r.storage.keys.length) = true ↔
    key.take indices.2.length =
        (columnsAt l (leftToPrefixIndices indices.1 indices.2)).take r.storage.keys.length := by
  have htake := take_eq_iff_equal (l := l) (t := key) h.length_eq hlead
    (Nat.min_le_left indices.2.length r.storage.keys.length) (hkey ▸ Nat.min_le_right _ _)
  have hleft : key.take indices.2.length = key.take (min indices.2.length r.storage.keys.length) := by
    rw [← hkey, take_eq_take_min]
  have hright := length_columnsAt_left h
  rw [hleft, take_eq_take_min (i := r.storage.keys.length), hright,
    Nat.min_comm r.storage.keys.length, htake, equalAt_iff]
  constructor
  · intro heq p hp hlt
    exact heq p (mem_filter.2 ⟨hp, by simp; omega⟩)
  · intro heq p hp
    obtain ⟨hp, hlt⟩ := mem_filter.1 hp
    have := lt_of_joinIsPrefix hlead (of_mem_zip hp).2
    exact heq p hp (by simp at hlt; omega)

variable (hreads : Reads tx r.storage r.bindings.length items)

include hreads

/-- **Only rows whose key begins with the left columns contribute**, as far as the key goes. -/
theorem key_of_contribution {p : StoredItem X} (hp : p ∈ items)
    (hc : r.contribution indices eliminateIndices l p ≠ []) :
    p.1.take indices.2.length =
    (columnsAt l (leftToPrefixIndices indices.1 indices.2)).take r.storage.keys.length := by
  rw [contribution] at hc
  cases hrow : p.2 with
  | ok row =>
    -- the row begins with the left columns and with its key
    obtain ⟨hlen, hkey⟩ := hreads.row p hp row hrow
    have heq : equalAt l row (indices.1.zip indices.2) = true := by
      by_contra hne
      simp [hrow, hne] at hc
    rw [← (equalAt_row_iff h hlead hlen).1 heq, ← hkey, take_take, take_take, Nat.min_comm]
  | error e =>
    refine (equalAt_key_iff h hlead (hreads.key_length p hp)).1 ?_
    by_contra hne
    simp [hrow, hne] at hc

/-- **A point lookup is the nested loop without the errors.** -/
theorem pointLookupJoinRow_eq (hkeys : r.storage.keys.length ≤ indices.2.length)
    (hsame : ∀ p ∈ items, ∀ row, p.2 = .ok row → evalFilters r.filtersBytecodes row ≠ .ok false →
      SameIfEqual (columnsAt l indices.1) (columnsAt row indices.2)) :
      r.pointLookupJoinRow tx indices eliminateIndices l =
      items.flatMap fun p => (r.contribution indices eliminateIndices l p).filter reported := by
  generalize hpre : columnsAt l (leftToPrefixIndices indices.1 indices.2) = pre
  have hkey : ∀ p ∈ items, p.1.take indices.2.length = p.1 := fun p hp =>
    take_of_length_le (by rw [hreads.key_length p hp]; exact hkeys)
  -- the rows with another key contribute nothing
  rw [flatMap_eq_find (q := fun key => compare key (pre.take r.storage.keys.length) == .eq) hreads.distinct
    (fun a b ha hb => (beq_tuple_iff.1 ha).trans (beq_tuple_iff.1 hb).symm) ?_]
  · rw [pointLookupJoinRow, h.pick_left, hpre]
    simp only [bind, Except.bind, hreads.get]
    cases hfind : items.find? fun p => compare p.1 (pre.take r.storage.keys.length) == .eq with
    | none => rfl
    | some p =>
      have hp := mem_of_find?_eq_some hfind
      have hpkey : p.1 = pre.take r.storage.keys.length := by simpa using List.find?_some hfind
      simp only [contribution]
      cases hrow : p.2 with
      | error e =>
        -- the error of the lookup is dropped, unless it is a panic
        have heq := (equalAt_key_iff h hlead (hreads.key_length p hp)).2 (by rw [hkey p hp, hpre, hpkey])
        simp only [heq]
        cases e <;> rfl
      | ok row =>
        have hlen := (hreads.row p hp row hrow).1
        have hcolumns : equalColumns l row (indices.1.zip indices.2) = _ :=
          equalColumns_eq (fun q hq => h.left _ (of_mem_zip hq).1)
            (fun q hq => hlen ▸ h.right _ (of_mem_zip hq).2)
        simp only [Except.map, hcolumns]
        have hrows := fun hne => columnsAgree_eq_equalAt h.length_eq (hsame p hp row hrow hne)
        cases hfilter : evalFilters r.filtersBytecodes row with
        | error e =>
          -- and so is that of a filter
          rw [hrows (by simp [hfilter])]
          cases equalAt l row (indices.1.zip indices.2)
          · rfl
          · cases e <;> rfl
        | ok b =>
          cases b with
          | true =>
            rw [hrows (by simp [hfilter])]
            cases equalAt l row (indices.1.zip indices.2) <;> rfl
          | false =>
            cases columnsAgree DataValue.beq l row (indices.1.zip indices.2) <;>
              cases equalAt l row (indices.1.zip indices.2) <;> rfl
  · intro p hp hne
    by_contra hc
    have hc : r.contribution indices eliminateIndices l p ≠ [] := fun hnil => hc (by rw [hnil]; rfl)
    have hpkey := key_of_contribution h hlead hreads hp hc
    rw [hkey p hp, hpre] at hpkey
    exact absurd (beq_tuple_iff.2 hpkey) (by simp [hne])

theorem filterMapOk_scan (hkeys : indices.2.length ≤ r.storage.keys.length)
    {q : StoredItem X → Bool} (hq : ∀ p ∈ items, q p = true →
      p.1.take indices.2.length = columnsAt l (leftToPrefixIndices indices.1 indices.2)) :
    filterMapOk (joinFound (evalFilters r.filtersBytecodes) eliminateIndices l)
    ((items.filter q).map Prod.snd) =
      items.flatMap fun p => if q p then r.contribution indices eliminateIndices l p else [] := by
  rw [filterMapOk, flatMapOk, flatMap_map, flatMap_filter_eq]
  refine flatMap_congr fun p hp => ?_
  split
  · rename_i hqp
    have hbegin := hq p hp hqp
    rw [contribution]
    cases hrow : p.2 with
    | error e =>
      have heq := (equalAt_key_iff h hlead (hreads.key_length p hp)).2 <| by
        rw [hbegin, take_of_length_le (by rw [length_columnsAt_left h]; exact hkeys)]
      simp only [heq, if_true]
    | ok row =>
      obtain ⟨hlen, hkey⟩ := hreads.row p hp row hrow
      have heq := (equalAt_row_iff h hlead hlen).2 <| by
        rw [← hbegin, ← hkey, take_take, Nat.min_eq_left hkeys]
      simp only [heq, if_true, joinFound, bind, Except.bind]
      cases evalFilters r.filtersBytecodes row with
      | error e => rfl
      | ok b => cases b <;> rfl
  · rfl

end Leading

def visits (r : StoredRA X) (joinLen : Nat) (pre key : Tuple X) : Bool :=
  match rangeBounds r.filters ((r.bindings.take r.storage.keys.length).drop joinLen) with
  | some (lower, upper) => keyWithin pre lower upper key
  | none => true

/-- **A prefix scan is the nested loop over the rows that it visits.** -/
theorem prefixJoinRow_eq (h : r.Fits indices l.length) (hlead : joinIsPrefix indices.2 = true)
    (hreads : Reads tx r.storage r.bindings.length items)
    (hkeys : ¬ r.storage.keys.length ≤ indices.2.length) :
    r.prefixJoinRow tx indices eliminateIndices l = items.flatMap fun p =>
      if r.visits indices.2.length (columnsAt l (leftToPrefixIndices indices.1 indices.2)) p.1 then
        r.contribution indices eliminateIndices l p
      else [] := by
  have hlength := length_columnsAt_left h
  rw [prefixJoinRow, if_neg hkeys, h.pick_left]
  show filterMapOk _ _ = _
  match hbounds : rangeBounds r.filters
    ((r.bindings.take r.storage.keys.length).drop indices.2.length) with
  | some (lower, upper) =>
    -- the ends of the scan both begin with the left columns
    simp only [visits, hbounds, hreads.scanBoundedPrefix]
    refine filterMapOk_scan h hlead hreads (by omega) fun p _ hq => ?_
    rw [keyWithin, Bool.and_eq_true, beq_iff_eq] at hq
    rw [← hlength]
    exact take_eq_of_between hq.1 hq.2
  | none =>
    have hshort : (columnsAt l (leftToPrefixIndices indices.1 indices.2)).take r.storage.keys.length =
        columnsAt l (leftToPrefixIndices indices.1 indices.2) := take_of_length_le (by omega)
    simp only [visits, hbounds, hreads.scanPrefix, hshort, if_true]
    rw [filterMapOk_scan h hlead hreads (by omega) fun p _ hq => ?_]
    · refine flatMap_congr fun p hp => ?_
      split
      · rfl
      · rename_i hne
        by_contra hc
        have hkey := key_of_contribution h hlead hreads hp (Ne.symm hc)
        rw [hshort, ← hlength] at hkey
        exact hne (beq_tuple_iff.2 hkey)
    · rw [← hlength]
      exact beq_tuple_iff.1 hq

/-! ### The materialised join -/

def passing (r : StoredRA X) (p : StoredItem X) : List (Tuple X) :=
  match p.2 with
  | .ok row =>
    match evalFilters r.filtersBytecodes row with
    | .ok true => [row]
    | _ => []
  | .error _ => []

omit [Ord X] [TransOrd X] [LawfulEqOrd X] in
theorem mem_passing {p : StoredItem X} {row : Tuple X} (h : row ∈ r.passing p) :
    p.2 = .ok row ∧ evalFilters r.filtersBytecodes row = .ok true := by
  rw [passing] at h
  split at h
  · rename_i row' hrow
    split at h
    · rename_i hpass
      rw [mem_singleton.1 h]
      exact ⟨hrow, hpass⟩
    · simp at h
  · simp at h

omit [TransOrd X] [LawfulEqOrd X] in
theorem iter_eq (hcodes : r.filters = [] → r.filtersBytecodes = [])
    (hreads : Reads tx r.storage r.bindings.length items) : r.iter tx = items.flatMap fun p =>
      match r.reading p with
      | .ok _ => (r.passing p).map .ok
      | .error e => [.error e] := by
  have hfilter : r.iter tx = filterIter r.filtersBytecodes (tx.scanAll r.storage) := by
    rw [iter]
    split
    · -- without filters every row passes
      rename_i hnone
      rw [hcodes (isEmpty_iff.1 hnone), filterIter, filterMapOk, flatMapOk]
      conv_lhs => rw [← flatMap_singleton' (tx.scanAll r.storage)]
      refine flatMap_congr fun item _ => ?_
      cases item <;> rfl
    · rfl
  rw [hfilter, hreads.scanAll, filterIter, filterMapOk, flatMapOk, flatMap_map]
  refine flatMap_congr fun p _ => ?_
  rw [reading, passing]
  cases p.2 with
  | error e => rfl
  | ok row =>
    simp only [bind, Except.bind]
    cases evalFilters r.filtersBytecodes row with
    | error e => rfl
    | ok b => cases b <;> rfl

omit [TransOrd X] [LawfulEqOrd X] in
theorem flatMap_contribution (hok : ∀ p ∈ items, ∀ e, r.reading p ≠ .error e) :
    items.flatMap (r.contribution indices eliminateIndices l) =
      ((items.flatMap r.passing).filter fun row =>
      equalAt l row (indices.1.zip indices.2)).map fun row =>
        .ok (eliminateFromTuple (l ++ row) eliminateIndices) := by
  rw [filter_flatMap, map_flatMap]
  refine flatMap_congr fun p hp => ?_
  have hp := hok p hp
  rw [reading] at hp
  rw [contribution, passing]
  cases hrow : p.2 with
  | error e => exact absurd (by rw [hrow]; rfl) (hp e)
  | ok row =>
    rw [hrow] at hp
    simp only [bind, Except.bind] at hp
    cases hf : evalFilters r.filtersBytecodes row with
    | error e => exact absurd hf (hp e)
    | ok b => cases b <;> cases heq : equalAt l row (indices.1.zip indices.2) <;> simp [hf, heq]

omit [TransOrd X] [LawfulEqOrd X] in
theorem nodup_passing (hreads : Reads tx r.storage r.bindings.length items) :
    (items.flatMap r.passing).Nodup := by
  refine nodup_flatMap.2 ⟨fun p _ => ?_, ?_⟩
  · rw [passing]
    split
    · split <;> simp
    · simp
  · refine hreads.distinct.imp_of_mem fun {p q} hp hq hne row hrow hrow' => hne ?_
    rw [← (hreads.row p hp row (mem_passing hrow).1).2, ← (hreads.row q hq row (mem_passing hrow').1).2]

theorem matRange_perm {cache distinct : List (Tuple X)} (hnodup : distinct.Nodup)
    (hmem : ∀ t, t ∈ distinct ↔ t ∈ cache)
    {pre : Tuple X} (hsame : ∀ t ∈ distinct, SameIfEqual pre (t.take pre.length)) :
    (matRange (Std.ExtTreeSet.ofList cache compare).toList pre).Perm
    (distinct.filter fun t => compare (t.take pre.length) pre == .eq) := by
  have hsorted : (Std.ExtTreeSet.ofList cache compare).toList.Pairwise fun a b => compare a b = .lt :=
    Std.ExtTreeSet.ordered_toList
  have htree : ∀ t, t ∈ (Std.ExtTreeSet.ofList cache compare).toList ↔ t ∈ distinct := fun t => by
    rw [Std.ExtTreeSet.mem_toList, Std.ExtTreeSet.mem_ofList, contains_iff_mem, hmem]
  have hset : (Std.ExtTreeSet.ofList cache compare).toList.Nodup := hsorted.imp fun {a b} hlt heq => by
    have hself : compare b b = .eq := Std.ReflCmp.compare_self
    rw [heq, hself] at hlt
    cases hlt
  -- neither side has a row twice, so it is enough that they have the same rows
  refine (perm_ext_iff_of_nodup ?_ (hnodup.filter _)).2 fun t => ?_
  · exact hset.sublist ((takeWhile_sublist _).trans (dropWhile_sublist _))
  · rw [mem_matRange hsorted fun t ht => hsame t ((htree t).1 ht), mem_filter, htree, beq_tuple_iff]

/-- **The cache and the nested loop.** The cached rows that begin with the left columns, with their
columns put back, are the rows of the relation whose join columns are equal to the left ones. -/
theorem matRange_columns_perm {rows relation : List (Tuple X)}
    (hlength : indices.1.length = indices.2.length)
    (hnodup : indices.2.Nodup) (hright : ∀ i ∈ indices.2, i < width)
    (hwidth : ∀ row ∈ rows, row.length = width)
    (hrelation : relation.Nodup) (hmem : ∀ row, row ∈ relation ↔ row ∈ rows) {l : Tuple X}
    (hsame : ∀ row ∈ relation, SameIfEqual (columnsAt l indices.1) (columnsAt row indices.2)) :
    ((matRange (Std.ExtTreeSet.ofList
      (rows.map fun row => columnsAt row (rightStoreIndices indices.2 width)) compare).toList
        (columnsAt l indices.1)).map fun data =>
        columnsAt data (rightInvertIndices (rightStoreIndices indices.2 width))).Perm
      (relation.filter fun row => equalAt l row (indices.1.zip indices.2)) := by
  generalize hstore : rightStoreIndices indices.2 width = store
  have hback : ∀ row ∈ relation, columnsAt (columnsAt row store) (rightInvertIndices store) = row := by
    intro row hrow
    refine columnsAt_rightInvertIndices ?_
    rw [hwidth row ((hmem row).1 hrow), ← hstore]
    exact rightStoreIndices_perm hnodup hright
  -- the set of cached rows has each of them once, because the columns can be put back
  have hdistinct : (relation.map fun row => columnsAt row store).Nodup :=
    hrelation.map_on fun row hrow row' hrow' heq => by rw [← hback row hrow, heq, hback row' hrow']
  have htake : ∀ row : Tuple X, (columnsAt row store).take (columnsAt l indices.1).length =
    columnsAt row indices.2 := fun row => by
    rw [← hstore, rightStoreIndices, columnsAt, columnsAt, columnsAt, length_map,
      hlength, map_append, take_left' (length_map _)]
  have hcached : ∀ t ∈ relation.map fun row => columnsAt row store,
      SameIfEqual (columnsAt l indices.1) (t.take (columnsAt l indices.1).length) := by
    intro t ht
    obtain ⟨row, hrow, rfl⟩ := mem_map.1 ht
    rw [htake]
    exact hsame row hrow
  refine ((matRange_perm hdistinct (fun t => by simp [mem_map, hmem]) hcached).map _).trans
    (List.Perm.of_eq ?_)
  rw [filter_map, map_map]
  -- the cached row begins with the left columns when the join columns are equal
  have hfilter : (relation.filter
      ((fun t => compare (t.take (columnsAt l indices.1).length)
        (columnsAt l indices.1) == .eq) ∘ fun row =>
        columnsAt row store)) =
      relation.filter fun row => equalAt l row (indices.1.zip indices.2) := by
    refine filter_congr fun row _ => Bool.eq_iff_iff.2 ?_
    rw [Function.comp, htake, beq_tuple_iff, equalAt_iff, ← columnsAt_eq_iff hlength, eq_comm]
  rw [hfilter]
  conv_rhs => rw [← map_id (relation.filter _)]
  exact map_congr_left fun row hrow => hback row (mem_filter.1 hrow).1

theorem pick_cached {rows : List (Tuple X)} (hnodup : indices.2.Nodup)
    (hright : ∀ i ∈ indices.2, i < width)
    (hwidth : ∀ row ∈ rows, row.length = width) :
    ∀ data ∈ (Std.ExtTreeSet.ofList (rows.map fun row =>
      columnsAt row (rightStoreIndices indices.2 width)) compare).toList,
    pick data (rightInvertIndices (rightStoreIndices indices.2 width)) =
      .ok (columnsAt data (rightInvertIndices (rightStoreIndices indices.2 width))) := by
  intro data hdata
  rw [Std.ExtTreeSet.mem_toList, Std.ExtTreeSet.mem_ofList, contains_iff_mem] at hdata
  obtain ⟨row, hrow, rfl⟩ := mem_map.1 hdata
  have hperm : (rightStoreIndices indices.2 width).Perm (List.range row.length) := by
    rw [hwidth row hrow]
    exact rightStoreIndices_perm hnodup hright
  rw [pick_rightInvertIndices hperm, columnsAt_rightInvertIndices hperm]

omit [TransOrd X] [LawfulEqOrd X] in
theorem materializedJoinRow_eq {materialized : List (Tuple X)}
    {leftJoinIndices invertIndices : List Nat}
    (hleft : ∀ i ∈ leftJoinIndices, i < l.length)
    (hpick : ∀ data ∈ materialized, pick data invertIndices = .ok (columnsAt data invertIndices)) :
    materializedJoinRow materialized leftJoinIndices invertIndices eliminateIndices l =
    (matRange materialized (columnsAt l leftJoinIndices)).map fun data =>
        .ok (eliminateFromTuple (l ++ columnsAt data invertIndices) eliminateIndices) := by
  rw [materializedJoinRow, pick_eq hleft]
  refine map_congr_left fun data hdata => ?_
  rw [hpick data (((takeWhile_sublist _).trans (dropWhile_sublist _)).subset hdata)]
  rfl

/-- **A materialised join is the nested loop**, when all rows can be read and filtered. -/
theorem materializedJoinRow_perm (h : r.Fits indices l.length)
    (hreads : Reads tx r.storage r.bindings.length items)
    (hok : ∀ p ∈ items, ∀ e, r.reading p ≠ .error e)
    (hsame : ∀ p ∈ items, ∀ row ∈ r.passing p,
      SameIfEqual (columnsAt l indices.1) (columnsAt row indices.2)) :
    (materializedJoinRow (Std.ExtTreeSet.ofList ((items.flatMap r.passing).map fun row =>
          columnsAt row (rightStoreIndices indices.2 r.bindings.length)) compare).toList
        indices.1 (rightInvertIndices (rightStoreIndices indices.2 r.bindings.length))
        eliminateIndices l).Perm (items.flatMap (r.contribution indices eliminateIndices l)) := by
  have hwidth : ∀ row ∈ items.flatMap r.passing, row.length = r.bindings.length := by
    intro row hrow
    obtain ⟨p, hp, hrow⟩ := mem_flatMap.1 hrow
    exact (hreads.row p hp row (mem_passing hrow).1).1
  have hperm := matRange_columns_perm h.length_eq h.nodup h.right hwidth
    (nodup_passing hreads) (fun _ => Iff.rfl)
    fun row hrow => by
      obtain ⟨p, hp, hrow⟩ := mem_flatMap.1 hrow
      exact hsame p hp row hrow
  rw [materializedJoinRow_eq h.left (pick_cached h.nodup h.right hwidth), flatMap_contribution hok]
  have hrows := hperm.map fun row =>
    (Except.ok (eliminateFromTuple (l ++ row) eliminateIndices) : Except (EvalError X) (Tuple X))
  rwa [map_map] at hrows

end Rows

/-! ### The three strategies -/

section Strategies

variable {r : StoredRA X} {tx : SessionTx X} {items : List (StoredItem X)}
    {indices : List Nat × List Nat}
  {eliminateIndices : List Nat} {lefts : TupleIter X} {leftWidth : Nat}

omit [Ord X] [TransOrd X] [LawfulEqOrd X] in
/-- Rows with contributions left out are the same multiset only when none of them is missed. -/
theorem flatMapOk_perm_iff {F G : Tuple X → StoredItem X → TupleIter X}
    (h : ∀ l, .ok l ∈ lefts → ∀ p ∈ items, (F l p).Sublist (G l p)) :
    (lefts.flatMapOk fun l => items.flatMap (F l)).Perm (lefts.flatMapOk fun l =>
      items.flatMap (G l)) ↔ ∀ l, .ok l ∈ lefts → ∀ p ∈ items, F l p = G l p := by
  have hrow : ∀ l, .ok l ∈ lefts → (items.flatMap (F l)).Sublist (items.flatMap (G l)) := by
    intro l hl
    have hl := h l hl
    clear h
    induction items with
    | nil => exact .slnil
    | cons p items ih =>
      obtain ⟨hp, hl⟩ := forall_mem_cons.1 hl
      exact hp.append (ih hl)
  rw [flatMapOk, flatMapOk, flatMap_perm_iff]
  · constructor
    · intro heq l hl
      exact (flatMap_perm_iff (h l hl)).1 (List.Perm.of_eq (heq _ hl))
    · rintro heq (e | l) hl
      · rfl
      · exact flatMap_congr (heq l hl)
  · rintro (e | l) hl
    · exact List.Sublist.refl _
    · exact hrow l hl

omit [Ord X] [TransOrd X] [LawfulEqOrd X] in
theorem flatMapOk_congr {f g : Tuple X → TupleIter X} (h : ∀ l, .ok l ∈ lefts → f l = g l) :
    lefts.flatMapOk f = lefts.flatMapOk g := by
  refine flatMap_congr fun item hitem => ?_
  cases item with
  | error e => rfl
  | ok l => exact h l hitem

theorem prefixJoin_conforms_iff (hlead : joinIsPrefix indices.2 = true)
    (h : r.Fits indices leftWidth)
    (hlefts : ∀ l, .ok l ∈ lefts → l.length = leftWidth)
    (hreads : Reads tx r.storage r.bindings.length items)
    (hequal : r.ComparesRightly indices items lefts) :
    (lefts.flatMapOk (r.prefixJoinRow tx indices eliminateIndices)).Perm
    (r.nestedLoop indices eliminateIndices items lefts) ↔
      r.Faithful indices eliminateIndices items lefts := by
  have hfits : ∀ l, .ok l ∈ lefts → r.Fits indices l.length := fun l hl => by rw [hlefts l hl]; exact h
  rw [Faithful, if_pos hlead, nestedLoop]
  by_cases hkeys : r.storage.keys.length ≤ indices.2.length
  · -- point lookups
    have hrow : ∀ l, .ok l ∈ lefts → r.prefixJoinRow tx indices eliminateIndices l =
        items.flatMap fun p => (r.contribution indices eliminateIndices l p).filter reported := by
      intro l hl
      rw [prefixJoinRow, if_pos hkeys,
        pointLookupJoinRow_eq (hfits l hl) hlead hreads hkeys (hequal (fun _ => hkeys) l hl)]
    rw [if_pos hkeys, flatMapOk_congr hrow, flatMapOk_perm_iff fun l _ p _ => filter_sublist]
    simp only [filter_eq_self]
  · -- scans
    rw [if_neg hkeys, flatMapOk_congr fun l hl => prefixJoinRow_eq (hfits l hl) hlead hreads hkeys]
    rw [flatMapOk_perm_iff fun l _ p _ => by split <;> simp]
    match hbounds : rangeBounds r.filters
      ((r.bindings.take r.storage.keys.length).drop indices.2.length) with
    | none => simp [visits, hbounds]
    | some (lower, upper) =>
      simp only [visits, hbounds]
      refine forall₂_congr fun l _ => forall₂_congr fun p _ => ?_
      constructor
      · intro heq hc
        by_contra hout
        rw [if_neg hout] at heq
        exact hc heq.symm
      · intro hc
        by_cases hnil : r.contribution indices eliminateIndices l p = []
        · simp [hnil]
        · rw [if_pos (hc hnil)]

theorem materializedJoin_conforms_iff (hlead : joinIsPrefix indices.2 = false)
    (h : r.Fits indices leftWidth)
    (hcodes : r.filters = [] → r.filtersBytecodes = [])
    (hlefts : ∀ l, .ok l ∈ lefts → l.length = leftWidth)
    (hreads : Reads tx r.storage r.bindings.length items)
    (hequal : r.ComparesRightly indices items lefts) :
    Conforms (materializedJoin (.ok lefts)
      (.ok (r.iter tx)) r.bindings.length indices eliminateIndices)
        (r.nestedLoop indices eliminateIndices items lefts) ↔
        r.Faithful indices eliminateIndices items lefts := by
  rw [Faithful, if_neg (by simp [hlead])]
  match lefts with
  | [] => exact iff_of_true (List.Perm.refl _) (.inl rfl)
  | .error e :: rest =>
    -- the first left row is asked for before the relation is read
    have herror : .error e ∈ r.nestedLoop indices eliminateIndices items (.error e :: rest) := by
      rw [nestedLoop, flatMapOk, flatMap_cons]
      exact mem_append_left _ (by simp)
    exact iff_of_true ⟨e, herror⟩ (.inr (.inr ⟨e, herror⟩))
  | .ok first :: rest =>
    rw [materializedJoin]
    simp only [bind, Except.bind]
    by_cases hok : ∀ p ∈ items, ∀ e, r.reading p ≠ .error e
    · -- the cache holds the rows that pass the filters
      have hiter : r.iter tx = (items.flatMap r.passing).map .ok := by
        rw [iter_eq hcodes hreads, map_flatMap]
        refine flatMap_congr fun p hp => ?_
        cases hp' : r.reading p with
        | ok b => rfl
        | error e => exact absurd hp' (hok p hp e)
      have hcache : (r.iter tx).mapM
        (fun item => do pick (← item) (rightStoreIndices indices.2 r.bindings.length)) =
          .ok ((items.flatMap r.passing).map fun row =>
            columnsAt row (rightStoreIndices indices.2 r.bindings.length)) := by
        rw [hiter, mapM_eq_ok_iff, forall₂_map_left_iff, forall₂_map_right_iff, forall₂_same]
        intro row hrow
        obtain ⟨p, hp, hrow⟩ := mem_flatMap.1 hrow
        refine pick_eq fun i hi => ?_
        rw [(hreads.row p hp row (mem_passing hrow).1).1]
        exact mem_range.1 ((rightStoreIndices_perm h.nodup h.right).mem_iff.1 hi)
      simp only [bind, Except.bind] at hcache
      rw [hcache]
      refine iff_of_true ?_ (.inr (.inl hok))
      show List.Perm (flatMapOk _ _) (flatMapOk _ _)
      refine List.Perm.flatMap_left _ fun item hitem => ?_
      cases item with
      | error e => exact List.Perm.refl _
      | ok l =>
        refine materializedJoinRow_perm ?_ hreads hok fun p hp row hrow => ?_
        · rw [hlefts l hitem]
          exact h
        · exact hequal (by simp [hlead]) l hitem p hp row (mem_passing hrow).1
            (by simp [(mem_passing hrow).2])
    · -- a row that cannot be read or filtered stops the join
      push Not at hok
      obtain ⟨p, hp, e, he⟩ := hok
      have hmem : .error e ∈ r.iter tx := by
        rw [iter_eq hcodes hreads]
        exact mem_flatMap.2 ⟨p, hp, by rw [he]; simp⟩
      cases hcache : (r.iter tx).mapM
          (fun item => do pick (← item) (rightStoreIndices indices.2 r.bindings.length)) with
      | ok cache =>
        obtain ⟨b, -, hb⟩ := exists_of_mapM_eq_ok hcache hmem
        cases hb
      | error e' =>
        simp only [bind, Except.bind] at hcache
        rw [hcache]
        simp only [Conforms, reduceCtorEq, false_or]
        refine ⟨.inr, fun h => h.resolve_left fun hok => hok p hp e he⟩

theorem getElem?_of_positionOf {columns : List Symbol} {x : Symbol} {i : Nat}
    (h : positionOf x columns = some i) : columns[i]? = some x := by
  induction columns generalizing i with
  | nil => cases h
  | cons b columns ih =>
    rw [positionOf] at h
    split at h
    · rename_i j hj
      cases h
      exact ih hj
    · split at h
      · rename_i hb
        cases h
        rw [List.getElem?_cons_zero, hb]
      · cases h

omit [Ord X] [TransOrd X] [LawfulEqOrd X] in
theorem fits_of_joinIndices {joiner : Joiner} {leftBindings : List Symbol}
    (hindices : joiner.joinIndices (X := X) leftBindings r.bindings = .ok indices)
    (hnodup : joiner.rightKeys.Nodup) (hkeys : r.storage.keys.length ≤ r.bindings.length) :
    r.Fits indices leftBindings.length := by
  obtain ⟨pairs, hpairs, hret⟩ := bind_ok.1 hindices
  obtain rfl := except_pure_eq_ok.1 hret
  have hforall : List.Forall₂ (fun (k : Symbol × Symbol) (p : Nat × Nat) =>
      leftBindings[p.1]? = some k.1 ∧
        r.bindings[p.2]? = some k.2) (joiner.leftKeys.zip joiner.rightKeys) pairs := by
    refine (mapM_eq_ok_iff.1 hpairs).imp fun k p hk => ?_
    split at hk
    · rename_i i j hi hj
      cases hk
      exact ⟨getElem?_of_positionOf hi, getElem?_of_positionOf hj⟩
    · cases hk
  have hmem : ∀ p ∈ pairs, p.1 < leftBindings.length ∧ p.2 < r.bindings.length := by
    intro p hp
    obtain ⟨k, -, hk⟩ := exists_of_forall₂ hforall.flip hp
    exact ⟨(List.getElem?_eq_some_iff.1 hk.1).1, (List.getElem?_eq_some_iff.1 hk.2).1⟩
  rw [unzip_eq_map]
  refine ⟨by simp, ?_, ?_, ?_, hkeys⟩
  · intro i hi
    obtain ⟨p, hp, rfl⟩ := mem_map.1 hi
    exact (hmem p hp).1
  · intro i hi
    obtain ⟨p, hp, rfl⟩ := mem_map.1 hi
    exact (hmem p hp).2
  · -- different names are at different positions
    have hnames : joiner.rightKeys = (pairs.map Prod.snd).map fun i => r.bindings.getD i "" := by
      have hzip : (joiner.leftKeys.zip joiner.rightKeys).map Prod.snd = joiner.rightKeys :=
        map_snd_zip joiner.length_eq.ge
      rw [← hzip, map_map, ← forall₂_eq_eq_eq, forall₂_map_left_iff, forall₂_map_right_iff]
      refine hforall.imp fun k p hk => ?_
      rw [Function.comp, getD_eq_getElem?_getD, hk.2]
      rfl
    rw [hnames] at hnodup
    exact hnodup.of_map

end Strategies

/-! ### A lookup by key -/

section Lookup

/-- The transaction that reads the given rows, of any relation. -/
def readerOf (items : List (StoredItem X)) : SessionTx X where
  scanAll _ := items.map Prod.snd
  scanPrefix h pre :=
    (items.filter fun p => compare (p.1.take pre.length) (pre.take h.keys.length) == .eq).map Prod.snd
  scanBoundedPrefix _ pre lower upper := (items.filter fun p => keyWithin pre lower upper p.1).map Prod.snd
  get _ key :=
    match items.find? fun p => compare p.1 key == .eq with
    | some p => p.2.map some
    | none => .ok none
  skipScanAll _ _ := []
  skipScanPrefix _ _ _ := []
  skipScanBoundedPrefix _ _ _ _ _ := []
  tokenizer _ := .ok ()
  hnswKnn _ _ := .ok []
  ftsSearch _ _ := .ok []
  lshSearch _ _ := .ok []

/-- The relation `\x7bb => v\x7d` read under the filter `v > c`. -/
def greater (c : DataValue Nat) : StoredRA Nat where
  bindings := ["b", "v"]
  storage := ⟨"r", ["b"], ["v"]⟩
  filters := [.apply OP_GT [.binding "v" (some 1), .const c]]
  filtersBytecodes := [[.binding "v" (some 1), .const c, .apply OP_GT 2]]

def oneRow : List (StoredItem Nat) := [([.num (.int 1)], .ok [.num (.int 1), .num (.int 2)])]

/-- The join of the row `a = 1` with it, on `a = b`. -/
def lookup (c : DataValue Nat) : RelAlgebra Nat :=
  .join (.fixed ⟨["a"], [[.num (.int 1)]], []⟩) (.stored (greater c)) ⟨["a"], ["b"], rfl⟩ []

theorem reads_oneRow (c : DataValue Nat) :
    Reads (readerOf oneRow) (greater c).storage (greater c).bindings.length oneRow where
  scanAll := rfl
  scanPrefix _ := rfl
  scanBoundedPrefix _ _ _ := rfl
  get _ := rfl
  distinct := pairwise_singleton _ _
  key_length := by simp [oneRow, greater]
  row := by simp [oneRow, greater]

end Lookup

end StoredRA

end Retia
