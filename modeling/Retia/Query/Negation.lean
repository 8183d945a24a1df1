import Mathlib
import Retia.Query.StoredJoin

/-!
# Negated atoms

A negated atom is executed as an anti-join: `NegJoin::iter` of `query/ra.rs` drops a row of the left
side when some row of the negated rule or relation agrees with it. What it has to agree on is
settled by the compiler, `compile_magic_rule_body`: an argument that has been seen is joined on, any
other is not.

Two things go wrong. The negation of a stored relation at another time is compiled, but the
anti-join has no case for it. And an argument of a negated stored relation counts as seen
afterwards, although the negation binds nothing: when another negated atom has the same variable,
the join asks the left side for a column that it does not have. Both are panics.

* `negMatch_eq` — the search for a row that agrees, by both strategies;
* `boundArgs` — what the loop over the arguments of an atom does, argument by argument;
* `Tracked` — every column of the plan is a variable that has been seen, or a generated name; an
  invariant of the compiler (`tracked_of_compile`);
* `negated_antiJoin_iff` — a negated atom of a body is executed as the anti-join on the variables
  which the left side binds, if and only if it is of the present and all arguments that count as
  seen are columns of the left side.
-/

namespace Retia

open List RelAlgebra

open Std (TransOrd LawfulEqOrd)

variable {X : Type}

/-! ### The search for a row that agrees -/

variable {scans : (Tuple X → TupleIter X) × TupleIter X}

section Search

variable [Ord X] [TransOrd X] [LawfulEqOrd X]

/-- **The two scans of an anti-join read the given rows**: at least those that begin with some
columns, and all. The scan of a stored relation by more columns than its key has looks at the key
only. -/
structure ReadsRows (scans : (Tuple X → TupleIter X) × TupleIter X) (rows : List (Tuple X)) :
    Prop where
  all_ok : scans.2.NoError
  all : ∀ t, .ok t ∈ scans.2 ↔ t ∈ rows
  begins_ok : ∀ pre, (scans.1 pre).NoError
  mem_of_begins : ∀ pre t, .ok t ∈ scans.1 pre → t ∈ rows
  begins : ∀ pre, ∀ t ∈ rows, t.take pre.length = pre → .ok t ∈ scans.1 pre

theorem anyM_eq {α ε : Type} {f : α → Except ε Bool} {g : α → Bool} {l : List α}
    (h : ∀ a ∈ l, f a = .ok (g a)) : l.anyM f = .ok (l.any g) := by
  induction l with
  | nil => rfl
  | cons a l ih =>
    obtain ⟨ha, hl⟩ := forall_mem_cons.1 h
    rw [List.anyM, ha, any_cons]
    simp only [bind, Except.bind]
    cases g a with
    | true => rfl
    | false => exact ih hl

/-- **A row that agrees on the join columns is found if there is one.** -/
theorem negMatch_eq {rows : List (Tuple X)} {indices : List Nat × List Nat}
    {width : Nat} (hreads : ReadsRows scans rows)
    (hrows : ∀ t ∈ rows, t.length = width) (hlen : indices.1.length = indices.2.length)
    (hright : ∀ i ∈ indices.2, i < width) :
    ∃ isMatch, negMatch scans indices = .ok isMatch ∧
    ∀ l : Tuple X, (∀ i ∈ indices.1, i < l.length) →
      ((∃ row ∈ rows, columnsAgree DataValue.beq l row (indices.1.zip indices.2)) →
        ∃ row ∈ rows, equalAt l row (indices.1.zip indices.2)) →
      isMatch l = .ok (rows.any fun row => equalAt l row (indices.1.zip indices.2)) := by
  rw [negMatch]
  by_cases hlead : joinIsPrefix indices.2 = true
  · -- the rows that begin with the left columns
    rw [if_pos hlead]
    refine ⟨_, rfl, fun l hl hsame => ?_⟩
    have hpick : pick l (leftToPrefixIndices indices.1 indices.2) =
        .ok (columnsAt l (leftToPrefixIndices indices.1 indices.2)) := by
      refine pick_eq fun i hi => ?_
      obtain ⟨p, hp, rfl⟩ := mem_map.1 hi
      exact hl _ (of_mem_zip ((mem_insertionSort _).1 hp)).1
    have hlength : (columnsAt l (leftToPrefixIndices indices.1 indices.2)).length = indices.2.length := by
      simp [columnsAt, leftToPrefixIndices, hlen]
    have hcolumns : ∀ t ∈ rows,
        equalColumns l t (indices.1.zip indices.2) =
          .ok (columnsAgree DataValue.beq l t (indices.1.zip indices.2)) := fun t ht =>
      equalColumns_eq (fun q hq => hl _ (of_mem_zip hq).1)
        (fun q hq => by rw [hrows t ht]; exact hright _ (of_mem_zip hq).2)
    rw [hpick]
    simp only [bind, Except.bind]
    rw [anyM_eq (g := fun found => found.toOption.any fun t =>
      columnsAgree DataValue.beq l t (indices.1.zip indices.2)) ?_]
    · refine congrArg _ (Bool.eq_iff_iff.2 ?_)
      rw [any_eq_true, any_eq_true]
      constructor
      · rintro ⟨found, hfound, hany⟩
        cases found with
        | error e => cases hany
        | ok t => exact hsame ⟨t, hreads.mem_of_begins _ _ hfound, hany⟩
      · rintro ⟨t, ht, hequal⟩
        refine ⟨.ok t, hreads.begins _ t ht ?_, columnsAgree_of_equalAt hequal⟩
        have hle : indices.2.length ≤ t.length := by
          rw [hrows t ht]
          by_contra hlt
          have hmem : width ∈ indices.2.insertionSort (· ≤ ·) := by
            rw [show indices.2.insertionSort (· ≤ ·) = _ from of_decide_eq_true hlead, mem_range]
            omega
          exact absurd (hright _ ((mem_insertionSort _).1 hmem)) (lt_irrefl _)
        rw [hlength, (take_eq_iff_equal hlen hlead le_rfl hle).2 fun p hp _ =>
          equalAt_iff.1 hequal p hp, take_of_length_le hlength.le]
    · intro found hfound
      cases found with
      | error e => exact absurd hfound (hreads.begins_ok _ e)
      | ok t => exact hcolumns t (hreads.mem_of_begins _ _ hfound)
  · -- the values of the join columns, collected beforehand
    rw [if_neg hlead]
    have hcollect : ∃ vals, (scans.2.mapM fun found => do pick (← found) indices.2) = .ok vals ∧
        ∀ v, v ∈ vals ↔ ∃ t ∈ rows, v = columnsAt t indices.2 := by
      have hpick : ∀ t ∈ rows, pick t indices.2 = .ok (columnsAt t indices.2) := fun t ht =>
        pick_eq fun i hi => by rw [hrows t ht]; exact hright i hi
      have hok : (scans.2.mapM fun found => do pick (← found) indices.2) =
          .ok (scans.2.map fun found => columnsAt (found.toOption.getD []) indices.2) := by
        refine mapM_eq_ok_iff.2 (forall₂_map_right_iff.2 (forall₂_same.2 fun found hfound => ?_))
        cases found with
        | error e => exact absurd hfound (hreads.all_ok e)
        | ok t => exact hpick t ((hreads.all t).1 hfound)
      refine ⟨_, hok, fun v => ?_⟩
      rw [mem_of_mapM_eq_ok hok]
      constructor
      · rintro ⟨found, hfound, hv⟩
        cases found with
        | error e => exact absurd hfound (hreads.all_ok e)
        | ok t =>
          have ht := (hreads.all t).1 hfound
          exact ⟨t, ht, Except.ok.inj (hv.symm.trans (hpick t ht))⟩
      · rintro ⟨t, ht, rfl⟩
        exact ⟨.ok t, (hreads.all t).2 ht, hpick t ht⟩
    obtain ⟨vals, hvals, hmem⟩ := hcollect
    rw [hvals]
    refine ⟨_, rfl, fun l hl _ => ?_⟩
    rw [pick_eq hl]
    refine congrArg Except.ok (Bool.eq_iff_iff.2 ?_)
    rw [any_eq_true, any_eq_true]
    constructor
    · rintro ⟨v, hv, heq⟩
      obtain ⟨t, ht, rfl⟩ := (hmem v).1 hv
      exact ⟨t, ht, equalAt_iff.2 ((columnsAt_eq_iff hlen).1 (beq_tuple_iff.1 heq).symm)⟩
    · rintro ⟨t, ht, hequal⟩
      exact ⟨_, (hmem _).2 ⟨t, ht, rfl⟩,
        beq_tuple_iff.2 ((columnsAt_eq_iff hlen).2 (equalAt_iff.1 hequal)).symm⟩

end Search

/-! ### The arguments of an atom -/

section Args

/-- What becomes of an argument: the name of its column on the right side, and whether it is joined
on. -/
structure BoundArg where
  var : Symbol
  right : Symbol
  joined : Bool

def BoundArg.use (e : BoundArg) : IndexPositionUse :=
  if e.joined then .join else if isGeneratedIgnoredSymbol e.var then .ignored else .bindForLater

def boundArgs (remember : Bool) : List Symbol → List Symbol → Nat → List BoundArg
  | [], _, _ => []
  | x :: args, seen, serialId =>
    if x ∈ seen then ⟨x, genSymb serialId, true⟩ :: boundArgs remember args seen (serialId + 1)
    else ⟨x, x, false⟩ :: boundArgs remember args (if remember then seen ++ [x] else seen) serialId

def seenAfter (remember : Bool) (args seen : List Symbol) : List Symbol :=
  args.foldl (fun seen x => if x ∈ seen then seen else if remember then seen ++ [x] else seen) seen

theorem foldl_bindArg (remember : Bool) (args : List Symbol) (a : AtomArgs)
    (seen : List Symbol) (serialId : Nat) :
    let entries := boundArgs remember args seen serialId
    let result := args.foldl (bindArg remember) (a, seen, serialId)
    result.1.joined = a.joined ++ (entries.filter BoundArg.joined).map (fun e => (e.var, e.right)) ∧
      result.1.rightVars = a.rightVars ++ entries.map BoundArg.right ∧
      result.1.joinIndices = a.joinIndices ++ entries.map BoundArg.use ∧
      result.2.1 = seenAfter remember args seen := by
  induction args generalizing a seen serialId with
  | nil => simp [boundArgs, seenAfter]
  | cons x args ih =>
    by_cases hx : x ∈ seen
    · obtain ⟨h₁, h₂, h₃, h₄⟩ :=
        ih ⟨a.joined ++ [(x, genSymb serialId)], a.posRev ++ [some a.joined.length],
        a.rightVars ++ [genSymb serialId], a.joinIndices ++ [.join]⟩ seen (serialId + 1)
      simp only [foldl_cons, bindArg, boundArgs, seenAfter, hx, if_true] at *
      simp [h₁, h₂, h₃, h₄, BoundArg.use]
    · obtain ⟨h₁, h₂, h₃, h₄⟩ := ih ⟨a.joined, a.posRev ++ [none], a.rightVars ++ [x],
        a.joinIndices ++ [if isGeneratedIgnoredSymbol x then .ignored else .bindForLater]⟩
        (if remember then seen ++ [x] else seen) serialId
      simp only [foldl_cons, bindArg, boundArgs, seenAfter, hx, if_false] at *
      simp [h₁, h₂, h₃, h₄, BoundArg.use]

theorem map_var_boundArgs (remember : Bool) (args seen : List Symbol) (serialId : Nat) :
    (boundArgs remember args seen serialId).map BoundArg.var = args := by
  induction args generalizing seen serialId with
  | nil => rfl
  | cons x args ih =>
    rw [boundArgs]
    split <;> simp [ih]

theorem genSymb_injective {m n : Nat} (h : genSymb m = genSymb n) : m = n := by
  simpa [genSymb] using h

variable {args seen : List Symbol} {remember : Bool}

theorem right_of_mem_boundArgs {serialId : Nat} {e : BoundArg}
    (he : e ∈ boundArgs remember args seen serialId) :
    if e.joined then ∃ n ≥ serialId, e.right = genSymb n else e.right = e.var := by
  induction args generalizing seen serialId with
  | nil => simp [boundArgs] at he
  | cons x args ih =>
    rw [boundArgs] at he
    split at he
    · rcases mem_cons.1 he with rfl | he
      · exact ⟨serialId, le_rfl, rfl⟩
      · have := ih he
        split
        · rename_i hj
          rw [if_pos hj] at this
          obtain ⟨n, hn, h⟩ := this
          exact ⟨n, by omega, h⟩
        · rename_i hj
          rwa [if_neg hj] at this
    · rcases mem_cons.1 he with rfl | he
      · rfl
      · exact ih he

/-- **An argument is joined on when it has been seen**, before the atom or, where the loop remembers
them, among the arguments before it. -/
theorem joined_boundArgs_iff {serialId i : Nat} {e : BoundArg}
    (he : (boundArgs remember args seen serialId)[i]? = some e) :
    e.joined = true ↔ e.var ∈ seen ∨ remember = true ∧ e.var ∈ args.take i := by
  induction args generalizing seen serialId i with
  | nil => simp [boundArgs] at he
  | cons x args ih =>
    rw [boundArgs] at he
    split at he
    · -- an argument that has been seen adds nothing
      rename_i hx
      cases i with
      | zero =>
        cases he
        simp [hx]
      | succ i =>
        rw [ih he, take_succ_cons, mem_cons]
        constructor
        · rintro (h | ⟨hr, h⟩)
          · exact .inl h
          · exact .inr ⟨hr, .inr h⟩
        · rintro (h | ⟨hr, rfl | h⟩)
          · exact .inl h
          · exact .inl hx
          · exact .inr ⟨hr, h⟩
    · rename_i hx
      cases i with
      | zero =>
        cases he
        simp [hx]
      | succ i =>
        rw [ih he, take_succ_cons, mem_cons]
        cases remember <;> simp [or_assoc]

/-- **The name of an argument that is joined on occurs once**, when no variable has the form of a
generated name. -/
theorem pairwise_boundArgs {remember : Bool} {args : List Symbol}
    (hargs : ∀ x ∈ args, ∀ n, x ≠ genSymb n)
    (seen : List Symbol) (serialId : Nat) :
    (boundArgs remember args seen serialId).Pairwise fun e e' =>
      e.right = e'.right → e.joined = false ∧ e'.joined = false := by
  induction args generalizing seen serialId with
  | nil => exact .nil
  | cons x args ih =>
    obtain ⟨hx, hargs⟩ := forall_mem_cons.1 hargs
    have hvar : ∀ seen serialId, ∀ e ∈ boundArgs remember args seen serialId, e.var ∈ args := by
      intro seen serialId e he
      rw [← map_var_boundArgs remember args seen serialId]
      exact mem_map_of_mem he
    rw [boundArgs]
    split
    · -- later generated names have greater numbers, and no variable is one
      refine pairwise_cons.2 ⟨fun e he heq => ?_, ih hargs seen _⟩
      have hright := right_of_mem_boundArgs he
      split at hright
      · obtain ⟨n, hn, h⟩ := hright
        have := genSymb_injective (heq.trans h)
        omega
      · exact absurd (hright.symm.trans heq.symm) (hargs _ (hvar _ _ e he) _)
    · refine pairwise_cons.2 ⟨fun e he heq => ⟨rfl, ?_⟩, ih hargs _ _⟩
      have hright := right_of_mem_boundArgs he
      split at hright
      · obtain ⟨n, -, h⟩ := hright
        exact absurd (heq.trans h) (hx n)
      · rename_i hj
        simpa using hj

theorem mem_seenAfter {x : Symbol} : x ∈ seenAfter remember args seen ↔ x ∈ seen ∨
    remember = true ∧ x ∈ args := by
  rw [seenAfter]
  induction args generalizing seen with
  | nil => simp
  | cons y args ih =>
    rw [foldl_cons, ih, mem_cons]
    by_cases hy : y ∈ seen
    · simp only [hy, if_true]
      constructor
      · rintro (h | ⟨hr, h⟩)
        · exact .inl h
        · exact .inr ⟨hr, .inr h⟩
      · rintro (h | ⟨hr, rfl | h⟩)
        · exact .inl h
        · exact .inl hy
        · exact .inr ⟨hr, h⟩
    · cases remember <;> simp [hy, or_assoc]

end Args

/-! ### The columns of a plan under construction -/

variable {storage : Session.IndexRelation} {right : RelAlgebra X} {b' : Building X}

section Tracked

theorem bindingsAfterEliminate_join (left right : RelAlgebra X) (joiner : Joiner) :
    (join left right joiner []).bindingsAfterEliminate =
    left.bindingsAfterEliminate ++ right.bindingsAfterEliminate := by
  rw [bindingsAfterEliminate, bindingsBeforeEliminate, eliminateSet]
  simp [bindingsAfterEliminate]

theorem bindingsAfterEliminate_filter (parent : RelAlgebra X) (filters : List (Expr X))
    (codes : List (List (Bytecode X))) :
    (filter parent filters codes []).bindingsAfterEliminate = parent.bindingsAfterEliminate := by
  rw [bindingsAfterEliminate, bindingsBeforeEliminate, eliminateSet]
  simp [bindingsAfterEliminate]

variable {args : List Symbol} {r r' : RelAlgebra X} {b : Building X}

/-- **A filter does not change the columns of a plan**, wherever it is put. -/
theorem bindingsAfterEliminate_filterWithin {depth : Nat} {e : Expr X}
    (h : r.filterWithin depth e = .ok r') :
    r'.bindingsAfterEliminate = r.bindingsAfterEliminate := by
  induction depth generalizing r r' e with
  | zero =>
    cases r <;> cases h
    all_goals first | rfl | exact bindingsAfterEliminate_filter _ _ _
  | succ depth ih =>
    cases r with
    | join left right joiner toEliminate =>
      rw [filterWithin] at h
      obtain ⟨⟨left', right', remaining⟩, hfold, h⟩ := bind_ok.1 h
      -- each part of the condition leaves the columns of both sides
      have hsides : left'.bindingsAfterEliminate = left.bindingsAfterEliminate ∧
          right'.bindingsAfterEliminate = right.bindingsAfterEliminate := by
        refine foldlM_induction (P := fun acc : RelAlgebra X × RelAlgebra X × List (Expr X) =>
            acc.1.bindingsAfterEliminate = left.bindingsAfterEliminate ∧
              acc.2.1.bindingsAfterEliminate = right.bindingsAfterEliminate)
          (fun {acc e acc'} hacc hstep => ?_) ⟨rfl, rfl⟩ hfold
        obtain ⟨l, r, rest⟩ := acc
        obtain ⟨hl, hr⟩ := hacc
        obtain ⟨fBindings, -, hstep⟩ := bind_ok.1 hstep
        split at hstep
        · obtain ⟨l', hl', hstep⟩ := bind_ok.1 hstep
          cases hstep
          exact ⟨(ih hl').trans hl, hr⟩
        · split at hstep
          · obtain ⟨r', hr', hstep⟩ := bind_ok.1 hstep
            cases hstep
            exact ⟨hl, (ih hr').trans hr⟩
          · cases hstep
            exact ⟨hl, hr⟩
      have hjoin : (join left' right' joiner toEliminate).bindingsAfterEliminate =
          (join left right joiner toEliminate).bindingsAfterEliminate := by
        show List.filter _ (left'.bindingsAfterEliminate ++ right'.bindingsAfterEliminate) =
          List.filter _ (left.bindingsAfterEliminate ++ right.bindingsAfterEliminate)
        rw [hsides.1, hsides.2]
        rfl
      cases h
      split
      · exact hjoin
      · rw [bindingsAfterEliminate_filter, hjoin]
    | _ =>
      cases h
      first | rfl | exact bindingsAfterEliminate_filter _ _ _

theorem bindingsAfterEliminate_addFilter {e : Expr X} {ε : Type} {f : EvalError X → ε}
    (h : (r.addFilter e).mapError f = .ok r') :
    r'.bindingsAfterEliminate = r.bindingsAfterEliminate :=
  bindingsAfterEliminate_filterWithin (mapError_eq_ok.1 h)

theorem mem_filter_unused {columns columns' bindings toEliminate used more : List Symbol}
    (hsub : columns' ⊆ columns) (hkeep : ∀ x ∈ columns, x ∈ used ++ more → x ∈ columns') :
    (columns'.filter fun kw => kw ∉ toEliminate ++ unused bindings used) ⊆ (columns.filter fun kw =>
      kw ∉ toEliminate) ∧
      ∀ x ∈ columns.filter fun kw => kw ∉ toEliminate, x ∈ used →
      x ∈ columns'.filter fun kw => kw ∉ toEliminate ++ unused bindings used := by
  constructor
  · intro x hx
    obtain ⟨hx, hnot⟩ := mem_filter.1 hx
    simp only [decide_eq_true_eq, mem_append, not_or] at hnot
    exact mem_filter.2 ⟨hsub hx, by simpa using hnot.1⟩
  · intro x hx hused
    obtain ⟨hx, hnot⟩ := mem_filter.1 hx
    simp only [decide_eq_true_eq] at hnot
    refine mem_filter.2 ⟨hkeep x hx (mem_append_left _ hused), ?_⟩
    simp [hnot, unused, hused]

/-- **An elimination keeps the columns that are used**, and adds none. -/
theorem bindingsAfterEliminate_eliminateTempVars {used : List Symbol}
    (h : r.eliminateTempVars used = .ok r') : r'.bindingsAfterEliminate ⊆ r.bindingsAfterEliminate ∧
      ∀ x ∈ r.bindingsAfterEliminate, x ∈ used → x ∈ r'.bindingsAfterEliminate := by
  induction r generalizing r' used with
  | fixed r =>
    cases h
    exact @mem_filter_unused _ _ _ _ _ [] (fun x hx => hx) fun x hx _ => hx
  | tempStore r | stored r | storedWithValidity r | search parent s own =>
    cases h
    exact ⟨fun x hx => hx, fun x hx _ => hx⟩
  | reorder relation newOrder ih =>
    obtain ⟨relation', -, h⟩ := bind_ok.1 h
    cases h
    exact ⟨fun x hx => hx, fun x hx _ => hx⟩
  | join left right joiner toEliminate ihl ihr =>
    obtain ⟨filters, -, h⟩ := bind_ok.1 h
    obtain ⟨left', hleft, h⟩ := bind_ok.1 h
    obtain ⟨right', hright, h⟩ := bind_ok.1 h
    cases h
    obtain ⟨hlsub, hlkeep⟩ := ihl hleft
    obtain ⟨hrsub, hrkeep⟩ := ihr hright
    refine @mem_filter_unused (left.bindingsAfterEliminate ++ right.bindingsAfterEliminate)
      (left'.bindingsAfterEliminate ++ right'.bindingsAfterEliminate) _ _ _ []
        (fun x hx => ?_) fun x hx hused => ?_
    · rcases mem_append.1 hx with hx | hx
      · exact mem_append_left _ (hlsub hx)
      · exact mem_append_right _ (hrsub hx)
    · rw [append_nil] at hused
      rcases mem_append.1 hx with hx | hx
      · exact mem_append_left _ (hlkeep x hx (by simp [hused]))
      · exact mem_append_right _ (hrkeep x hx (by simp [hused]))
  | negJoin left right joiner toEliminate ihl _ =>
    obtain ⟨left', hleft, h⟩ := bind_ok.1 h
    cases h
    exact mem_filter_unused (ihl hleft).1 (ihl hleft).2
  | filter parent filters codes toEliminate ih =>
    obtain ⟨more, -, h⟩ := bind_ok.1 h
    obtain ⟨parent', hparent, h⟩ := bind_ok.1 h
    cases h
    exact mem_filter_unused (ih hparent).1 (ih hparent).2
  | unification parent binding expr code isMulti toEliminate ih =>
    obtain ⟨more, -, h⟩ := bind_ok.1 h
    obtain ⟨parent', hparent, h⟩ := bind_ok.1 h
    cases h
    refine @mem_filter_unused (parent.bindingsAfterEliminate ++ [binding])
      (parent'.bindingsAfterEliminate ++ [binding]) _ _ _ more (fun x hx => ?_) fun x hx hused => ?_
    · exact (mem_append.1 hx).elim (fun hx => mem_append_left _ ((ih hparent).1 hx)) (mem_append_right _)
    · exact (mem_append.1 hx).elim (fun hx => mem_append_left _ ((ih hparent).2 x hx hused))
        (mem_append_right _)

theorem bindingsAfterEliminate_fill (h : r.fillBindingIndicesAndCompile = .ok r') :
    r'.bindingsAfterEliminate = r.bindingsAfterEliminate := by
  induction r generalizing r' with
  | fixed r =>
    cases h
    rfl
  | tempStore r | stored r | storedWithValidity r =>
    obtain ⟨⟨filters, codes⟩, -, h⟩ := bind_ok.1 h
    cases h
    rfl
  | reorder relation newOrder ih =>
    obtain ⟨relation', -, h⟩ := bind_ok.1 h
    cases h
    rfl
  | join left right joiner toEliminate ihl ihr =>
    obtain ⟨left', hleft, h⟩ := bind_ok.1 h
    obtain ⟨right', hright, h⟩ := bind_ok.1 h
    cases h
    show List.filter _ (left'.bindingsAfterEliminate ++ right'.bindingsAfterEliminate) = _
    rw [ihl hleft, ihr hright]
    rfl
  | negJoin left right joiner toEliminate ihl _ =>
    obtain ⟨left', hleft, h⟩ := bind_ok.1 h
    cases h
    show List.filter _ left'.bindingsAfterEliminate = _
    rw [ihl hleft]
    rfl
  | filter parent filters codes toEliminate ih =>
    obtain ⟨parent', hparent, h⟩ := bind_ok.1 h
    obtain ⟨⟨filters', codes'⟩, -, h⟩ := bind_ok.1 h
    cases h
    show List.filter _ parent'.bindingsAfterEliminate = _
    rw [ih hparent]
    rfl
  | unification parent binding expr code isMulti toEliminate ih =>
    obtain ⟨parent', hparent, h⟩ := bind_ok.1 h
    obtain ⟨expr', -, h⟩ := bind_ok.1 h
    obtain ⟨code', -, h⟩ := bind_ok.1 h
    cases h
    show List.filter _ (parent'.bindingsAfterEliminate ++ [binding]) = _
    rw [ih hparent]
    rfl
  | search parent s own ih =>
    obtain ⟨parent', hparent, h⟩ := bind_ok.1 h
    have hown : ∀ s', (search parent' s' own).bindingsAfterEliminate =
        (search parent s own).bindingsAfterEliminate := fun s' => by
      show List.filter _ (parent'.bindingsAfterEliminate ++ own) = _
      rw [ih hparent]
      rfl
    split at h
    · cases h
      exact hown _
    · obtain ⟨e, -, h⟩ := bind_ok.1 h
      obtain ⟨code, -, h⟩ := bind_ok.1 h
      cases h
      exact hown _

/-- **Every column of the plan is a variable that has been seen**, or has a generated name. -/
def Tracked (b : Building X) : Prop :=
  ∀ x ∈ b.ret.bindingsAfterEliminate, x ∈ b.seenVariables ∨ ∃ n, x = genSymb n

theorem tracked_rightVars {x : Symbol} (hx : x ∈ (bindArgs true args b).1.rightVars) :
    x ∈ (bindArgs true args b).2.seenVariables ∨ ∃ n, x = genSymb n := by
  obtain ⟨-, hright, -, hseen⟩ := foldl_bindArg true args ⟨[], [], [], []⟩ b.seenVariables b.serialId
  rw [bindArgs] at hx ⊢
  simp only at hx ⊢
  rw [hright, nil_append] at hx
  obtain ⟨e, he, rfl⟩ := mem_map.1 hx
  have hcase := right_of_mem_boundArgs he
  split at hcase
  · obtain ⟨n, -, h⟩ := hcase
    exact .inr ⟨n, h⟩
  · refine .inl ?_
    rw [hseen, mem_seenAfter, hcase]
    refine .inr ⟨rfl, ?_⟩
    rw [← map_var_boundArgs true args b.seenVariables b.serialId]
    exact mem_map_of_mem he

theorem seenVariables_bindArgs {remember : Bool} {x : Symbol} :
    x ∈ (bindArgs remember args b).2.seenVariables ↔ x ∈ b.seenVariables ∨
    remember = true ∧ x ∈ args := by
  obtain ⟨-, -, -, hseen⟩ := foldl_bindArg remember args ⟨[], [], [], []⟩ b.seenVariables b.serialId
  rw [bindArgs]
  simp only
  rw [hseen, mem_seenAfter]

theorem ret_bindArgs (remember : Bool) (args : List Symbol) (b : Building X) :
    (bindArgs remember args b).2.ret = b.ret := rfl

theorem bindingsAfterEliminate_derived (bindings : List Symbol) (name : MagicSymbol) :
    (derived bindings name : RelAlgebra X).bindingsAfterEliminate = bindings := by
  simp [derived, bindingsAfterEliminate, bindingsBeforeEliminate, eliminateSet]

theorem bindingsAfterEliminate_relation {bindings : List Symbol}
    {validity : Option Int64} {r : RelAlgebra X} (h : relation bindings storage validity = .ok r) :
    r.bindingsAfterEliminate = bindings := by
  unfold relation at h
  split at h
  · cases h
    simp [bindingsAfterEliminate, bindingsBeforeEliminate, eliminateSet]
  · split at h
    · cases h
    · split at h
      · cases h
      · cases h
        simp [bindingsAfterEliminate, bindingsBeforeEliminate, eliminateSet]

theorem mem_of_mapVars {vars vars' : List Symbol} {mapper : List Nat}
    (h : mapVars (X := X) vars mapper = .ok vars') {x : Symbol} (hx : x ∈ vars') : x ∈ vars := by
  obtain ⟨i, -, hi⟩ := (mem_of_mapM_eq_ok h).1 hx
  split at hi
  · rename_i v hv
    cases hi
    exact mem_of_getElem? hv
  · cases hi

theorem Tracked.join (h : Tracked b) {joiner : Joiner}
    (hright : ∀ x ∈ right.bindingsAfterEliminate, x ∈ (bindArgs true args b).1.rightVars) :
    Tracked { (bindArgs true args b).2 with
      ret := .join (bindArgs true args b).2.ret right joiner [] } := by
  intro x hx
  rw [bindingsAfterEliminate_join, ret_bindArgs, mem_append] at hx
  rcases hx with hx | hx
  · exact (h x hx).imp_left fun hseen => seenVariables_bindArgs.2 (.inl hseen)
  · exact tracked_rightVars (hright x hx)

variable [Ord X]

theorem tracked_search {vars ownBindings seen : List Symbol} {filters : List (Expr X)}
    {serialId : Nat} (h : ∀ x ∈ ownBindings, x ∈ seen ∨ ∃ n, x = genSymb n) :
    let result := vars.foldl bindSearchVar (ownBindings, filters, seen, serialId)
    (∀ x ∈ result.1, x ∈ result.2.2.1 ∨ ∃ n, x = genSymb n) ∧ ∀ x ∈ seen, x ∈ result.2.2.1 := by
  induction vars generalizing ownBindings seen filters serialId with
  | nil => exact ⟨h, fun x hx => hx⟩
  | cons v vars ih =>
    rw [foldl_cons]
    by_cases hv : v ∈ seen
    · simp only [bindSearchVar, hv, if_true]
      refine ih fun x hx => ?_
      rcases mem_append.1 hx with hx | hx
      · exact h x hx
      · exact .inr ⟨serialId, mem_singleton.1 hx⟩
    · simp only [bindSearchVar, hv, if_false]
      have hown : ∀ x ∈ ownBindings ++ [v], x ∈ seen ++ [v] ∨ ∃ n, x = genSymb n := by
        intro x hx
        rcases mem_append.1 hx with hx | hx
        · exact (h x hx).imp_left (mem_append_left _)
        · exact .inl (mem_append_right _ hx)
      exact ⟨(ih hown).1, fun x hx => (ih hown).2 x (mem_append_left _ hx)⟩

variable {relations : String → Except (CompileError X) Session.RelationHandle}
    {storeArities : MagicSymbol → Option Nat}

theorem Tracked.indexWithJoin {b : Building X} (h : Tracked b) {store : Session.RelationHandle}
    {validAt : Option Int64} {chosenIndex : Session.IndexRelation} {mapper : List Nat}
    (hb' : Retia.indexWithJoin store validAt chosenIndex mapper (bindArgs true args b).1
      (bindArgs true args b).2 = .ok b') : Tracked b' := by
  obtain ⟨joinedAt, -, hb'⟩ := bind_ok.1 hb'
  obtain ⟨index, hindex, hb'⟩ := bind_ok.1 hb'
  obtain ⟨keyVars, -, hb'⟩ := bind_ok.1 hb'
  obtain ⟨relation, hrelation, hb'⟩ := bind_ok.1 hb'
  obtain ⟨ret, hret, hb'⟩ := bind_ok.1 hb'
  cases hb'
  intro x hx
  have hcolumns : ret.bindingsAfterEliminate =
      (b.ret.bindingsAfterEliminate ++ index.bindingsAfterEliminate) ++
        relation.bindingsAfterEliminate := by
    -- the comparisons that follow the joins are filters
    refine foldlM_induction (P := fun r : RelAlgebra X => r.bindingsAfterEliminate =
        (b.ret.bindingsAfterEliminate ++ index.bindingsAfterEliminate) ++ relation.bindingsAfterEliminate)
      (fun {r p r'} hr hstep => (bindingsAfterEliminate_filterWithin hstep).trans hr) ?_
        (mapError_eq_ok.1 hret)
    rw [bindingsAfterEliminate_join, bindingsAfterEliminate_join, ret_bindArgs]
  simp only at hx ⊢
  rw [hcolumns, bindingsAfterEliminate_relation hindex, bindingsAfterEliminate_relation hrelation,
    mem_append, mem_append] at hx
  rcases hx with (hx | hx) | hx
  · exact (h x hx).imp_left fun hseen => seenVariables_bindArgs.2 (.inl hseen)
  · obtain ⟨i, -, rfl⟩ := mem_map.1 hx
    exact .inr ⟨_, rfl⟩
  · exact tracked_rightVars hx

/-- **The plan of a negated stored relation.** The right side is the relation, or an index that has
all columns which are needed. -/
theorem compileAtom_negatedRelation {b : Building X} {name : String} {validAt : Option Int64}
    (hatom : compileAtom relations storeArities b (.negatedRelation name args validAt) = .ok b') :
    ∃ store chosen vars storage right, relations name = .ok store ∧
    checkArity (X := X) store name args = .ok () ∧
      chooseIndex (X := X) store (bindArgs true args b).1.joinIndices validAt.isSome = .ok chosen ∧
      (vars = (bindArgs true args b).1.rightVars ∧ storage = store.toIndexRelation ∨
        ∃ mapper, chosen = some (storage, mapper, false) ∧
          mapVars (X := X) (bindArgs true args b).1.rightVars mapper = .ok vars) ∧
      relation vars storage validAt = .ok right ∧
      b' = { (bindArgs true args b).2 with
        ret := .negJoin b.ret right (.ofPairs (bindArgs true args b).1.joined) [] } := by
  obtain ⟨store, hstore, hatom⟩ := bind_ok.1 hatom
  obtain ⟨_, harity, hatom⟩ := bind_ok.1 hatom
  obtain ⟨chosen, hchosen, hatom⟩ := bind_ok.1 hatom
  match chosen with
  | none | some (_, _, true) =>
    obtain ⟨right, hright, hatom⟩ := bind_ok.1 hatom
    exact ⟨store, _, _, _, right, hstore, harity, hchosen, .inl ⟨rfl, rfl⟩,
      hright, (except_pure_eq_ok.1 hatom).symm⟩
  | some (chosenIndex, mapper, false) =>
    obtain ⟨vars, hvars, hatom⟩ := bind_ok.1 hatom
    obtain ⟨right, hright, hatom⟩ := bind_ok.1 hatom
    exact ⟨store, _, vars, chosenIndex, right, hstore, harity, hchosen,
      .inr ⟨mapper, rfl, hvars⟩, hright, (except_pure_eq_ok.1 hatom).symm⟩

/-- **Every atom keeps track of the columns.** -/
theorem Tracked.compileAtom {b : Building X} {atom : MagicAtom X} (h : Tracked b)
    (hatom : compileAtom relations storeArities b atom = .ok b') : Tracked b' := by
  cases atom with
  | rule name args =>
    obtain ⟨_, -, hatom⟩ := bind_ok.1 hatom
    cases hatom
    refine h.join fun x hx => ?_
    rw [bindingsAfterEliminate_derived] at hx
    exact hx
  | relation name args validAt =>
    obtain ⟨store, -, hatom⟩ := bind_ok.1 hatom
    obtain ⟨_, -, hatom⟩ := bind_ok.1 hatom
    obtain ⟨_, -, hatom⟩ := bind_ok.1 hatom
    obtain ⟨chosen, -, hatom⟩ := bind_ok.1 hatom
    match chosen with
    | none =>
      obtain ⟨right, hright, hatom⟩ := bind_ok.1 hatom
      cases hatom
      exact h.join fun x hx => bindingsAfterEliminate_relation hright ▸ hx
    | some (chosenIndex, mapper, false) =>
      obtain ⟨vars, hvars, hatom⟩ := bind_ok.1 hatom
      obtain ⟨right, hright, hatom⟩ := bind_ok.1 hatom
      cases hatom
      exact h.join fun x hx => mem_of_mapVars hvars (bindingsAfterEliminate_relation hright ▸ hx)
    | some (chosenIndex, mapper, true) => exact h.indexWithJoin hatom
  | predicate p =>
    obtain ⟨ret, hret, hatom⟩ := bind_ok.1 hatom
    cases hatom
    intro x hx
    exact h x (bindingsAfterEliminate_addFilter hret ▸ hx)
  | negatedRule name args =>
    obtain ⟨_, -, hatom⟩ := bind_ok.1 hatom
    cases hatom
    intro x hx
    rw [bindingsAfterEliminate, mem_filter] at hx
    exact (h x hx.1).imp_left fun hseen => seenVariables_bindArgs.2 (.inl hseen)
  | negatedRelation name args validAt =>
    -- its variables are seen from now on, but they are no columns
    obtain ⟨store, chosen, vars, storage, right, -, -, -, -, -, rfl⟩ := compileAtom_negatedRelation hatom
    intro x hx
    rw [bindingsAfterEliminate, mem_filter] at hx
    exact (h x hx.1).imp_left fun hseen => seenVariables_bindArgs.2 (.inl hseen)
  | unification binding expr oneManyUnif =>
    rw [Retia.compileAtom] at hatom
    split at hatom
    · obtain ⟨ret, hret, hatom⟩ := bind_ok.1 hatom
      cases hatom
      intro x hx
      exact h x (bindingsAfterEliminate_addFilter hret ▸ hx)
    · cases hatom
      intro x hx
      rw [bindingsAfterEliminate, mem_filter] at hx
      rcases mem_append.1 hx.1 with hx | hx
      · exact (h x hx).imp_left (mem_append_left _)
      · exact .inl (mem_append_right _ hx)
  | search s allBindings =>
    obtain ⟨hown, hseen⟩ := @tracked_search X _ allBindings [] b.seenVariables [] b.serialId (by simp)
    have hsearch : ∀ own, (search b.ret s own).bindingsAfterEliminate =
        b.ret.bindingsAfterEliminate ++ own := fun own => by
      rw [bindingsAfterEliminate, bindingsBeforeEliminate, eliminateSet]
      simp [bindingsAfterEliminate]
    have hcolumns : b'.ret.bindingsAfterEliminate = b.ret.bindingsAfterEliminate ++
        (allBindings.foldl bindSearchVar ([], ([] : List (Expr X)), b.seenVariables, b.serialId)).1 ∧
        b'.seenVariables = (allBindings.foldl bindSearchVar
          ([], ([] : List (Expr X)), b.seenVariables, b.serialId)).2.2.1 := by
      simp only [Retia.compileAtom] at hatom
      split at hatom
      · cases hatom
        exact ⟨hsearch _, rfl⟩
      · obtain ⟨ret, hret, hatom⟩ := bind_ok.1 hatom
        cases hatom
        exact ⟨(bindingsAfterEliminate_addFilter hret).trans (hsearch _), rfl⟩
    intro x hx
    rw [hcolumns.1, mem_append] at hx
    rw [hcolumns.2]
    rcases hx with hx | hx
    · exact (h x hx).imp_left (hseen x)
    · exact hown x hx

/-- **The invariant along a body.** -/
theorem tracked_of_compile {body : List (MagicAtom X)}
    (hbody : body.foldlM (compileAtom relations storeArities) ⟨.unit, [], 0⟩ = .ok b) : Tracked b :=
  foldlM_induction (fun h hstep => Tracked.compileAtom h hstep) (by
    intro x hx
    simp [unit, bindingsAfterEliminate, bindingsBeforeEliminate] at hx) hbody

end Tracked

/-! ### The rows of a negated atom -/

section Rows

variable [Ord X] [TransOrd X] [LawfulEqOrd X]

theorem inRange_prefix_iff {pre t : Tuple X} (hbot : .bot ∉ t) :
    InRange pre (pre ++ [.bot]) true t ↔ t.take pre.length = pre := by
  constructor
  · rintro ⟨hlow, hup | ⟨-, hup⟩⟩
    · have hlow : (compare (pre ++ []) t).isLE := by rwa [append_nil]
      have hup : compare t (pre ++ [] ++ [.bot]) = .lt := by rwa [append_nil]
      exact take_eq_of_between hlow hup
    · rw [Std.LawfulEqCmp.eq_of_compare hup, take_left]
  · intro hbegin
    refine ⟨isLE_of_take_eq hbegin, .inl ?_⟩
    have hsplit : t = pre ++ t.drop pre.length := by
      conv_lhs => rw [← take_append_drop pre.length t, hbegin]
    -- what follows the columns is compared with `Bot`, which is above every other value
    rw [hsplit, compare_append_left]
    cases hrest : t.drop pre.length with
    | nil => rfl
    | cons v rest =>
      have hv : v ≠ .bot := by
        rintro rfl
        exact hbot (mem_of_mem_drop (hrest ▸ mem_cons_self))
      have hcmp : compare v (.bot : DataValue X) = .lt := by
        have hle : (compare v (.bot : DataValue X)).isLE := isLE_cmp_bot v
        cases hc : compare v (.bot : DataValue X) with
        | lt => rfl
        | eq => exact absurd (Std.LawfulEqCmp.eq_of_compare hc) hv
        | gt => rw [hc] at hle; cases hle
      rw [List.compare_cons_cons, hcmp]
      rfl

theorem readsRows_of_store {tx : SessionTx X} {stores : Stores X} {bindings : List Symbol}
    {name : MagicSymbol}
    {storage : EpochStore X} {rows : List (Tuple X)} (hstorage : stores name = some storage)
    (hwf : storage.WF) (hrows : ∀ t, storage.TotalRow t ↔ t ∈ rows) (hbot : ∀ t ∈ rows, .bot ∉ t) :
    ∃ scans, negScans tx stores (.derived bindings name) = .ok scans ∧ ReadsRows scans rows := by
  refine ⟨_, bind_ok.2 ⟨storage, Stores.unwrap_eq_ok.2 hstorage, rfl⟩, ?_⟩
  have hscan : ∀ pre, ∃ found, storeRows (storage.prefixIter pre) = .ok found ∧
      ∀ t, t ∈ found ↔ t ∈ rows ∧ t.take pre.length = pre := by
    intro pre
    obtain ⟨items, hitems, hmem⟩ := storage.mem_rangeIter hwf true (isLE_compare_append_bot pre)
    refine ⟨_, by rw [storeRows, EpochStore.prefixIter, hitems]; rfl, fun t => ?_⟩
    rw [hmem, hrows]
    exact and_congr_right fun ht => inRange_prefix_iff (hbot t ht)
  have hbegins : ∀ pre, ∃ found : List (Tuple X),
      (TupleIter.ofExcept do return (← storeRows (storage.prefixIter pre)).map .ok) = found.map .ok ∧
        ∀ t, t ∈ found ↔ t ∈ rows ∧ t.take pre.length = pre := by
    intro pre
    obtain ⟨found, hfound, hmem⟩ := hscan pre
    exact ⟨found, by rw [hfound]; rfl, hmem⟩
  obtain ⟨found, hfound, hmem⟩ := hbegins []
  have hall : (TupleIter.ofExcept do return (← storeRows storage.allIter).map .ok) =
    found.map .ok := hfound
  constructor
  · intro e he
    rw [hall] at he
    simp at he
  · intro t
    rw [hall, TupleIter.mem_map_ok, hmem]
    simp
  · intro pre e he
    obtain ⟨found, hfound, -⟩ := hbegins pre
    simp only at he
    rw [hfound] at he
    simp at he
  · intro pre t ht
    obtain ⟨found, hfound, hmem⟩ := hbegins pre
    simp only at ht
    rw [hfound, TupleIter.mem_map_ok, hmem] at ht
    exact ht.1
  · intro pre t ht hbegin
    obtain ⟨found, hfound, hmem⟩ := hbegins pre
    simp only
    rw [hfound, TupleIter.mem_map_ok, hmem]
    exact ⟨ht, hbegin⟩

end Rows

/-! ### The columns that are joined on -/

variable {joined : List (Symbol × Symbol)}

section Columns

/-- **A row agrees with a left row on the variables that the left side binds**, for an equality of
values. -/
def agreesOn (eq : DataValue X → DataValue X → Bool) (bindings args : List Symbol)
    (l row : Tuple X) : Bool :=
  args.zipIdx.all fun a =>
    match positionOf a.1 bindings with
    | some i => eq (l.getD i .null) (row.getD a.2 .null)
    | none => true

theorem agreesOn_iff {eq : DataValue X → DataValue X → Bool} {bindings args : List Symbol}
    {l row : Tuple X} :
    agreesOn eq bindings args l row = true ↔
      ∀ (n : Nat) x i, args[n]? = some x → positionOf x bindings = some i →
      eq (l.getD i .null) (row.getD n .null) = true := by
  rw [agreesOn, all_eq_true]
  constructor
  · intro h n x i hx hi
    have := h (x, n) (mk_mem_zipIdx_iff_getElem?.2 hx)
    simpa only [hi] using this
  · rintro h ⟨x, n⟩ hx
    cases hi : positionOf x bindings with
    | none => rfl
    | some i => exact h n x i (mk_mem_zipIdx_iff_getElem?.1 hx) hi

theorem exists_positionOf {columns : List Symbol} {x : Symbol} (h : x ∈ columns) :
    ∃ i, positionOf x columns = some i := by
  induction columns with
  | nil => cases h
  | cons b columns ih =>
    rw [positionOf]
    split
    · exact ⟨_, rfl⟩
    · rename_i hnone
      rcases mem_cons.1 h with rfl | h
      · exact ⟨0, if_pos rfl⟩
      · obtain ⟨i, hi⟩ := ih h
        rw [hi] at hnone
        cases hnone

theorem getD_mapped {entries : List BoundArg} {mapper : List Nat} {vars : List Symbol}
    {n j : Nat} {e : BoundArg}
    (hunique : entries.Pairwise fun e e' => e.right = e'.right → e.joined = false ∧
      e'.joined = false)
    (he : entries[n]? = some e) (hjoined : e.joined = true)
    (hvars : mapVars (X := X) (entries.map BoundArg.right) mapper = .ok vars)
    (hpos : positionOf e.right vars = some j) (row : Tuple X) :
    (columnsAt row mapper).getD j .null = row.getD n .null := by
  obtain ⟨m, hm, hget⟩ := getElem?_of_forall₂ (mapM_eq_ok_iff.1 hvars).flip
    (StoredRA.getElem?_of_positionOf hpos)
  have hright : (entries.map BoundArg.right)[m]? = some e.right := by
    split at hget
    · rename_i v hv
      cases hget
      exact hv
    · cases hget
  rw [List.getElem?_map, Option.map_eq_some_iff] at hright
  obtain ⟨e', he', hname⟩ := hright
  -- two arguments with this name would not be joined on
  have hmn : m = n := by
    obtain ⟨hm', rfl⟩ := List.getElem?_eq_some_iff.1 he'
    obtain ⟨hn', rfl⟩ := List.getElem?_eq_some_iff.1 he
    rcases Nat.lt_trichotomy m n with hlt | heq | hlt
    · have := (pairwise_iff_getElem.1 hunique m n hm' hn' hlt hname).2
      rw [this] at hjoined
      cases hjoined
    · exact heq
    · have := (pairwise_iff_getElem.1 hunique n m hn' hm' hlt hname.symm).1
      rw [this] at hjoined
      cases hjoined
  rw [columnsAt, getD_eq_getElem?_getD, List.getElem?_map, hm, hmn]
  rfl

theorem joinIndices_ofPairs {bindings vars : List Symbol} {indices : List Nat × List Nat} :
    (Joiner.ofPairs joined).joinIndices (X := X) bindings vars = .ok indices ↔
    ∃ pairs : List (Nat × Nat),
      indices = pairs.unzip ∧ List.Forall₂ (fun (k : Symbol × Symbol) (p : Nat × Nat) =>
        positionOf k.1 bindings = some p.1 ∧ positionOf k.2 vars = some p.2) joined pairs := by
  have hzip : (joined.map Prod.fst).zip (joined.map Prod.snd) = joined := by
    rw [← unzip_fst, ← unzip_snd, zip_unzip]
  rw [Joiner.joinIndices, Joiner.ofPairs, hzip, bind_ok]
  refine exists_congr fun pairs => ?_
  rw [mapM_eq_ok_iff, except_pure_eq_ok, and_comm, eq_comm]
  refine and_congr_right fun _ => ⟨fun h => h.imp fun k p hk => ?_, fun h => h.imp fun k p hk => ?_⟩
  · revert hk
    cases positionOf k.1 bindings <;> cases positionOf k.2 vars <;> simp [Prod.ext_iff]
  · rw [hk.1, hk.2]

end Columns

/-! ### Negated atoms are anti-joins -/

section AntiJoin

variable [Ord X] [TransOrd X] [LawfulEqOrd X]

/-- **The anti-join**: the left rows with which no row agrees on the variables that the left side
binds. -/
def antiJoin (eq : DataValue X → DataValue X → Bool) (bindings args : List Symbol)
    (rows : List (Tuple X)) (eliminateIndices : List Nat) (lefts : TupleIter X) : TupleIter X :=
  lefts.filterMapOk fun l =>
    .ok (if rows.any (agreesOn eq bindings args l) then none
      else some (eliminateFromTuple l eliminateIndices))

/-- A left row with which some row agrees by `==` has a row that is the same on these variables. -/
def SameIfAgreed (bindings args : List Symbol) (rows : List (Tuple X)) (l : Tuple X) : Prop :=
  rows.any (agreesOn DataValue.beq bindings args l) = true →
    rows.any (agreesOn sameValue bindings args l) = true

theorem agreesOn_of_sameValue {bindings args : List Symbol} {l row : Tuple X}
    (h : agreesOn sameValue bindings args l row = true) :
    agreesOn DataValue.beq bindings args l row = true := by
  refine agreesOn_iff.2 fun n x i hx hi => ?_
  rw [Std.LawfulEqCmp.eq_of_compare (beq_iff_eq.1 (agreesOn_iff.1 h n x i hx hi))]
  exact DataValue.beq_self _

omit [Ord X] [TransOrd X] [LawfulEqOrd X] in
/-- A filter that keeps fewer rows gives the same result only when it keeps the same ones. -/
theorem filterMapOk_eq_iff {f g : Tuple X → Bool} {eliminate : Tuple X → Tuple X}
    {lefts : TupleIter X} (h : ∀ l, f l = true → g l = true) :
    (lefts.filterMapOk fun l => .ok (if f l then none else some (eliminate l))) =
        (lefts.filterMapOk fun l => .ok (if g l then none else some (eliminate l))) ↔
      ∀ l, .ok l ∈ lefts → g l = true → f l = true := by
  rw [TupleIter.filterMapOk, TupleIter.filterMapOk, TupleIter.flatMapOk, TupleIter.flatMapOk]
  constructor
  · intro heq l hl hg
    by_contra hf
    have hrow := (flatMap_perm_iff ?_).1 (List.Perm.of_eq heq.symm) _ hl
    · simp [hg, hf] at hrow
    · rintro (e | l) -
      · exact List.Sublist.refl _
      · have hkeep := h l
        cases hf : f l <;> cases hg : g l <;> simp_all
  · intro hall
    refine flatMap_congr fun item hitem => ?_
    cases item with
    | error e => rfl
    | ok l =>
      have hiff : f l = g l := Bool.eq_iff_iff.2 ⟨h l, hall l hitem⟩
      simp only [hiff]

/-- **The anti-joins of the two equalities** are one just where no left row shows the difference. -/
theorem antiJoin_eq_iff {bindings args : List Symbol} {rows : List (Tuple X)}
    {eliminateIndices : List Nat} {lefts : TupleIter X} :
    antiJoin sameValue bindings args rows eliminateIndices lefts =
    antiJoin DataValue.beq bindings args rows eliminateIndices lefts ↔
      ∀ l, .ok l ∈ lefts → SameIfAgreed bindings args rows l := by
  refine filterMapOk_eq_iff fun l h => ?_
  obtain ⟨row, hrow, hagree⟩ := any_eq_true.1 h
  exact any_eq_true.2 ⟨row, hrow, agreesOn_of_sameValue hagree⟩

variable {uses : List IndexPositionUse} {validityQuery : Bool} {remember : Bool}

theorem getElem?_boundArgs_iff {args seen : List Symbol} {serialId n : Nat} {x : Symbol} :
    args[n]? = some x ↔ ∃ e, (boundArgs remember args seen serialId)[n]? = some e ∧ e.var = x := by
  conv_lhs => rw [← map_var_boundArgs remember args seen serialId]
  rw [List.getElem?_map, Option.map_eq_some_iff]

theorem mem_joined_iff {entries : List BoundArg} {k : Symbol × Symbol} :
    k ∈ (entries.filter BoundArg.joined).map (fun e => (e.var, e.right)) ↔
      ∃ (n : Nat) (e : BoundArg), entries[n]? = some e ∧ e.joined = true ∧
      k = (e.var, e.right) := by
  rw [mem_map]
  constructor
  · rintro ⟨e, he, rfl⟩
    obtain ⟨he, hj⟩ := mem_filter.1 he
    obtain ⟨n, hn⟩ := List.getElem?_of_mem he
    exact ⟨n, e, hn, hj, rfl⟩
  · rintro ⟨n, e, he, hj, rfl⟩
    exact ⟨e, mem_filter.2 ⟨mem_of_getElem? he, hj⟩, rfl⟩

section Node

variable {args seen bindings vars : List Symbol} {remember : Bool} {serialId : Nat}
    {mapper : List Nat}
  {pairs : List (Nat × Nat)}

/-- The pairs of positions that `join_indices` gives. -/
def PositionsOf (joined : List (Symbol × Symbol)) (bindings vars : List Symbol)
    (pairs : List (Nat × Nat)) : Prop :=
  List.Forall₂ (fun (k : Symbol × Symbol) (p : Nat × Nat) =>
    positionOf k.1 bindings = some p.1 ∧ positionOf k.2 vars = some p.2) joined pairs

omit [Ord X] [TransOrd X] [LawfulEqOrd X] in
theorem exists_positionsOf
    (hvars : mapVars (X := X) ((boundArgs remember args seen serialId).map BoundArg.right) mapper =
      .ok vars)
    (hmapper : ∀ (n : Nat) e, (boundArgs remember args seen serialId)[n]? = some e →
      e.joined = true → n ∈ mapper)
    (hbound : ∀ (n : Nat) x, args[n]? = some x → (x ∈ seen ∨ remember = true ∧ x ∈ args.take n) →
      x ∈ bindings) :
    ∃ pairs, PositionsOf (((boundArgs remember args seen serialId).filter
      BoundArg.joined).map fun e => (e.var, e.right)) bindings vars
      pairs := by
  refine ⟨List.map (fun k => ((positionOf k.1 bindings).getD 0, (positionOf k.2 vars).getD 0)) _,
    forall₂_map_right_iff.2 (forall₂_same.2 fun k hk => ?_)⟩
  obtain ⟨n, e, he, hj, rfl⟩ := mem_joined_iff.1 hk
  obtain ⟨i, hi⟩ := exists_positionOf
    (hbound n _ (getElem?_boundArgs_iff.2 ⟨e, he, rfl⟩) ((joined_boundArgs_iff he).1 hj))
  obtain ⟨j, hj⟩ : ∃ j, positionOf e.right vars = some j := by
    obtain ⟨v, hv, hget⟩ := exists_of_mapM_eq_ok hvars (hmapper n e he hj)
    rw [List.getElem?_map, he] at hget
    cases hget
    exact exists_positionOf hv
  rw [hi, hj]
  exact ⟨rfl, rfl⟩

omit [Ord X] [TransOrd X] [LawfulEqOrd X] in
/-- **To be equal on the columns of the join is to agree** on the variables that the left side
binds. -/
theorem columnsAgree_mapped (eq : DataValue X → DataValue X → Bool)
    (hargs : ∀ x ∈ args, ∀ n, x ≠ genSymb n)
    (hvars : mapVars (X := X) ((boundArgs remember args seen serialId).map BoundArg.right) mapper =
      .ok vars)
    (hseen : ∀ x ∈ args, x ∈ bindings → x ∈ seen)
    (hpairs : PositionsOf (((boundArgs remember args seen serialId).filter
      BoundArg.joined).map fun e => (e.var, e.right)) bindings vars
      pairs) (l row : Tuple X) :
    columnsAgree eq l (columnsAt row mapper) pairs = agreesOn eq bindings args l row := by
  have hunique := @pairwise_boundArgs remember args hargs seen serialId
  rw [Bool.eq_iff_iff, columnsAgree, all_eq_true, agreesOn_iff]
  constructor
  · intro hequal n x i hx hi
    obtain ⟨e, he, rfl⟩ := getElem?_boundArgs_iff.1 hx
    have hleft : e.var ∈ bindings := mem_of_getElem? (StoredRA.getElem?_of_positionOf hi)
    have hj := (joined_boundArgs_iff he).2 (.inl (hseen _ (mem_of_getElem? hx) hleft))
    obtain ⟨p, hp, hpl, hpr⟩ := exists_of_forall₂ hpairs (mem_joined_iff.2 ⟨n, e, he, hj, rfl⟩)
    obtain rfl : i = p.1 := Option.some.inj (hi.symm.trans hpl)
    rw [← getD_mapped hunique he hj hvars hpr]
    exact hequal p hp
  · intro hequal p hp
    obtain ⟨k, hk, hpl, hpr⟩ := exists_of_forall₂ (List.Forall₂.flip hpairs) hp
    obtain ⟨n, e, he, hj, rfl⟩ := mem_joined_iff.1 hk
    rw [getD_mapped hunique he hj hvars hpr]
    exact hequal n _ _ (getElem?_boundArgs_iff.2 ⟨e, he, rfl⟩) hpl

theorem PositionsOf.lt (h : PositionsOf joined bindings vars pairs) :
    (∀ i ∈ pairs.unzip.1, i < bindings.length) ∧ ∀ j ∈ pairs.unzip.2, j < vars.length := by
  have hlt : ∀ {columns : List Symbol} {x i}, positionOf x columns = some i →
    i < columns.length := fun h =>
    (List.getElem?_eq_some_iff.1 (StoredRA.getElem?_of_positionOf h)).1
  rw [unzip_fst, unzip_snd]
  constructor
  · intro i hi
    obtain ⟨p, hp, rfl⟩ := mem_map.1 hi
    obtain ⟨k, -, hk, -⟩ := exists_of_forall₂ (List.Forall₂.flip h) hp
    exact hlt hk
  · intro j hj
    obtain ⟨p, hp, rfl⟩ := mem_map.1 hj
    obtain ⟨k, -, -, hk⟩ := exists_of_forall₂ (List.Forall₂.flip h) hp
    exact hlt hk

end Node

theorem negJoin_iter_iff {tx : SessionTx X} {deltaRule : Option MagicSymbol}
    {stores : Stores X} {left : RelAlgebra X} {toEliminate args seen vars : List Symbol}
    {lefts : TupleIter X} {rows : List (Tuple X)} {serialId : Nat} {mapper : List Nat}
    (hleft : left.iter tx deltaRule stores = .ok lefts)
    (hlefts : ∀ l, .ok l ∈ lefts → l.length = left.bindingsAfterEliminate.length)
    (hargs : ∀ x ∈ args, ∀ n, x ≠ genSymb n)
    (hjoined : joined = ((boundArgs remember args seen serialId).filter
      BoundArg.joined).map fun e => (e.var, e.right))
    (hvars : mapVars (X := X) ((boundArgs remember args seen serialId).map BoundArg.right) mapper =
      .ok vars)
    (hright : right.bindingsAfterEliminate = vars)
    (hmapper : ∀ (n : Nat) e, (boundArgs remember args seen serialId)[n]? = some e →
      e.joined = true → n ∈ mapper)
    (hscans : negScans tx stores right = .ok scans)
      (hreads : ReadsRows scans (rows.map (columnsAt · mapper)))
    (htracked : ∀ x ∈ args, x ∈ left.bindingsAfterEliminate → x ∈ seen) :
    (∀ eq ∈ [sameValue, DataValue.beq],
      (RelAlgebra.negJoin left right (.ofPairs joined) toEliminate).iter tx deltaRule stores =
        .ok (antiJoin eq left.bindingsAfterEliminate args rows
          (getEliminateIndices left.bindingsAfterEliminate toEliminate) lefts)) ↔
      (∀ (n : Nat) x, args[n]? = some x → (x ∈ seen ∨ remember = true ∧ x ∈ args.take n) →
        x ∈ left.bindingsAfterEliminate) ∧
        ∀ l, .ok l ∈ lefts → SameIfAgreed left.bindingsAfterEliminate args rows l := by
  subst hjoined
  rw [RelAlgebra.iter, hright, hleft, hscans]
  constructor
  · -- the left side has the columns that the join has looked up
    intro h
    obtain ⟨hiter, heq⟩ := forall_mem_cons.1 h
    refine ⟨fun n x hx hseen => ?_,
      antiJoin_eq_iff.1 (Except.ok.inj (hiter.symm.trans (heq _ (mem_singleton_self _))))⟩
    obtain ⟨indices, hindices, -⟩ := bind_ok.1 hiter
    obtain ⟨pairs, -, hpairs⟩ := joinIndices_ofPairs.1 hindices
    obtain ⟨e, he, rfl⟩ := getElem?_boundArgs_iff.1 hx
    obtain ⟨p, -, hp, -⟩ := exists_of_forall₂ hpairs
      (mem_joined_iff.2 ⟨n, e, he, (joined_boundArgs_iff he).2 hseen, rfl⟩)
    exact mem_of_getElem? (StoredRA.getElem?_of_positionOf hp)
  · rintro ⟨hbound, hsame⟩ eq heq
    -- it is enough to look at the order of values
    have hanti : antiJoin eq left.bindingsAfterEliminate args rows
        (getEliminateIndices left.bindingsAfterEliminate toEliminate) lefts =
          antiJoin sameValue left.bindingsAfterEliminate args rows
        (getEliminateIndices left.bindingsAfterEliminate toEliminate) lefts := by
      rcases mem_pair.1 heq with rfl | rfl
      · rfl
      · exact (antiJoin_eq_iff.2 hsame).symm
    rw [hanti]
    -- all columns are found, and then so is a row that agrees
    obtain ⟨pairs, hpairs⟩ := exists_positionsOf hvars hmapper hbound
    rw [joinIndices_ofPairs.2 ⟨pairs, rfl, hpairs⟩]
    obtain ⟨hltLeft, hltRight⟩ := hpairs.lt
    have hlength : vars.length = mapper.length := (mapM_eq_ok_iff.1 hvars).length_eq.symm
    rw [hlength] at hltRight
    obtain ⟨isMatch, hmatch, hfound⟩ := negMatch_eq hreads (by simp [columnsAt]) (by simp) hltRight
    simp only [bind, Except.bind, hmatch]
    refine congrArg Except.ok (StoredRA.flatMapOk_congr fun l hl => ?_)
    have hmapped := fun eq row => columnsAgree_mapped eq hargs hvars htracked hpairs l row
    have hagreed := hsame l hl
    rw [negJoinRow, hfound l (by rw [hlefts l hl]; exact hltLeft) ?_, any_map, zip_unzip]
    · simp only [Function.comp_def, equalAt, hmapped]
      cases rows.any fun row => agreesOn sameValue left.bindingsAfterEliminate args l row <;> rfl
    · rintro ⟨_, hmapper, hagree⟩
      obtain ⟨row, hrow, rfl⟩ := mem_map.1 hmapper
      rw [zip_unzip, hmapped] at hagree
      obtain ⟨row', hrow', hagree'⟩ := any_eq_true.1 (hagreed (any_eq_true.2 ⟨row, hrow, hagree⟩))
      refine ⟨_, mem_map_of_mem hrow', ?_⟩
      rw [zip_unzip, equalAt, hmapped]
      exact hagree'

def Picked (uses : List IndexPositionUse) (index : Session.IndexRelation × List Nat)
    (chosen : ChosenIndex) : Prop :=
  ∃ needJoin, chosen = some (index.1, index.2, needJoin) ∧
    (needJoin = false → ∀ (n : Nat) u, uses[n]? = some u → u ≠ .ignored → n ∈ index.2)

omit [Ord X] [TransOrd X] [LawfulEqOrd X] in
theorem picked_of_considerIndex {keyLen : Nat} {validityQuery : Bool}
    {acc acc' : Nat × ChosenIndex} {index : Session.IndexRelation × List Nat}
    (h : considerIndex (X := X) keyLen uses validityQuery acc index = .ok acc') :
    acc'.2 = acc.2 ∨ Picked uses index acc'.2 := by
  have hconsider : ∀ {skip : Except (CompileError X) Bool}, (do
      let skipped ← skip
      if skipped then return (acc.1, acc.2)
      else
        let curPrefixLen ← joinPrefixLen uses index.2
        if curPrefixLen > acc.1 then
          return (curPrefixLen, some (index.1, index.2,
            ((uses.zipIdx.filter fun u : IndexPositionUse × Nat => u.1 ≠
              IndexPositionUse.ignored).map Prod.snd).any (· ∉ index.2)))
        else return (acc.1, acc.2)) = .ok acc' → acc'.2 = acc.2 ∨ Picked uses index acc'.2 := by
    intro skip h
    obtain ⟨skipped, -, h⟩ := bind_ok.1 h
    split at h
    · cases h
      exact .inl rfl
    obtain ⟨len, -, h⟩ := bind_ok.1 h
    split at h
    · cases h
      refine .inr ⟨_, rfl, fun hneed n u hu hused => ?_⟩
      by_contra hn
      have hany := any_eq_false.1 hneed n (mem_map.2 ⟨(u, n), mem_filter.2
        ⟨mk_mem_zipIdx_iff_getElem?.2 hu, by simpa using hused⟩, rfl⟩)
      exact hany (by simpa using hn)
    · cases h
      exact .inl rfl
  unfold considerIndex at h
  simp only at h
  split at h
  · split at h
    · cases h
    · exact hconsider h
  · exact hconsider h

omit [Ord X] [TransOrd X] [LawfulEqOrd X] in
theorem picked_of_foldlM {keyLen : Nat} {validityQuery : Bool} {acc acc' : Nat × ChosenIndex}
    {indices : List (Session.IndexRelation × List Nat)}
    (h : indices.foldlM (considerIndex (X := X) keyLen uses validityQuery) acc = .ok acc') :
    acc'.2 = acc.2 ∨ ∃ index ∈ indices, Picked uses index acc'.2 := by
  induction indices generalizing acc with
  | nil =>
    cases h
    exact .inl rfl
  | cons index indices ih =>
    rw [foldlM_cons, bind_ok] at h
    obtain ⟨acc₁, hstep, h⟩ := h
    rcases ih h with heq | ⟨index', hmem, hpicked⟩
    · rw [heq]
      exact (picked_of_considerIndex hstep).imp_right fun hpicked => ⟨index, mem_cons_self, hpicked⟩
    · exact .inr ⟨index', mem_cons_of_mem _ hmem, hpicked⟩

omit [Ord X] [TransOrd X] [LawfulEqOrd X] in
theorem mem_of_chooseIndex {store : Session.RelationHandle} {validityQuery : Bool}
    {mapper : List Nat}
    (h : chooseIndex (X := X) store uses validityQuery = .ok (some (storage, mapper, false))) :
    (storage, mapper) ∈ store.indices.map Prod.snd ∧ ∀ (n : Nat) u, uses[n]? = some u →
      u ≠ .ignored → n ∈ mapper := by
  rw [chooseIndex] at h
  split at h
  · cases h
  split at h
  · cases h
  · cases h
  · obtain ⟨⟨len, chosen⟩, hfold, h⟩ := bind_ok.1 h
    obtain rfl := except_pure_eq_ok.1 h
    rcases picked_of_foldlM hfold with heq | ⟨index, hmem, needJoin, heq, hneeded⟩
    · cases heq
    · cases heq
      exact ⟨hmem, hneeded rfl⟩

variable {relations : String → Except (CompileError X) Session.RelationHandle}
    {storeArities : MagicSymbol → Option Nat}

def MagicAtom.negated : MagicAtom X → Option (List Symbol × Bool × Option Int64)
  | .negatedRule _ args => some (args, false, none)
  | .negatedRelation _ args validAt => some (args, true, validAt)
  | _ => none

/-- **The rows of a negated atom**: those of the store of the rule, or of the stored relation, of
which an index has the columns that it says. -/
def NegatedRows (relations : String → Except (CompileError X) Session.RelationHandle)
    (tx : SessionTx X) (stores : Stores X) (rows : List (Tuple X)) : MagicAtom X → Prop
  | .negatedRule name _ => ∃ storage, stores name = some storage ∧ storage.WF ∧
    ∀ t, storage.TotalRow t ↔ t ∈ rows
  | .negatedRelation name _ _ => ∀ store, relations name = .ok store →
      ReadsRows (tx.scanPrefix store.toIndexRelation.storage,
        tx.scanAll store.toIndexRelation.storage) rows ∧
      ∀ index ∈ store.indices.map Prod.snd,
        ReadsRows (tx.scanPrefix index.1.storage, tx.scanAll index.1.storage)
          (rows.map (columnsAt · index.2))
  | _ => False

omit [Ord X] [TransOrd X] [LawfulEqOrd X] in
theorem mapVars_range {vars : List Symbol} :
    mapVars (X := X) vars (List.range vars.length) = .ok vars := by
  refine mapM_eq_ok_iff.2 (forall₂_iff_get.2 ⟨by simp, fun i hi hi' => ?_⟩)
  simp at hi
  simp [hi]

omit [Ord X] [TransOrd X] [LawfulEqOrd X] in
theorem map_columnsAt_range {rows : List (Tuple X)} {width : Nat}
    (h : ∀ t ∈ rows, t.length = width) : rows.map (columnsAt · (List.range width)) = rows := by
  conv_rhs => rw [← List.map_id rows]
  refine List.map_congr_left fun t ht => ?_
  rw [← h t ht, columnsAt_range le_rfl, take_length]
  rfl

omit [Ord X] [TransOrd X] [LawfulEqOrd X] in
theorem bindArgs_eq (remember : Bool) (args : List Symbol) (b : Building X) :
    let entries := boundArgs remember args b.seenVariables b.serialId
    (bindArgs remember args b).1.joined =
      (entries.filter BoundArg.joined).map (fun e => (e.var, e.right)) ∧
      (bindArgs remember args b).1.rightVars = entries.map BoundArg.right ∧
      (bindArgs remember args b).1.joinIndices = entries.map BoundArg.use := by
  obtain ⟨hjoined, hright, huses, -⟩ :=
    foldl_bindArg remember args ⟨[], [], [], []⟩ b.seenVariables b.serialId
  exact ⟨hjoined, hright, huses⟩

omit [Ord X] [TransOrd X] [LawfulEqOrd X] in
theorem Tracked.seen {b : Building X} (h : Tracked b) {args : List Symbol}
    (hargs : ∀ x ∈ args, ∀ n, x ≠ genSymb n)
    {left : RelAlgebra X} (hsub : left.bindingsAfterEliminate ⊆ b.ret.bindingsAfterEliminate) :
    ∀ x ∈ args, x ∈ left.bindingsAfterEliminate → x ∈ b.seenVariables := by
  intro x hx hleft
  refine (h x (hsub hleft)).resolve_right ?_
  rintro ⟨n, rfl⟩
  exact hargs _ hx n rfl

omit [Ord X] [TransOrd X] [LawfulEqOrd X] in
/-- **What the elimination of columns leaves of the left side** has the arguments that it had. -/
theorem Tracked.kept {b : Building X} (h : Tracked b) {args : List Symbol}
    (hargs : ∀ x ∈ args, ∀ n, x ≠ genSymb n) (used : List Symbol) (kept left : RelAlgebra X)
    (hkept : b.ret.eliminateTempVars
      (used ++ (Joiner.ofPairs (bindArgs remember args b).1.joined).leftKeys) = .ok kept)
    (hfill : kept.fillBindingIndicesAndCompile = .ok left) :
    left.bindingsAfterEliminate ⊆ b.ret.bindingsAfterEliminate ∧
      ∀ x ∈ args, x ∈ b.ret.bindingsAfterEliminate → x ∈ left.bindingsAfterEliminate := by
  rw [bindingsAfterEliminate_fill hfill]
  obtain ⟨hsub, hkeep⟩ := bindingsAfterEliminate_eliminateTempVars hkept
  refine ⟨hsub, fun x hx hret => hkeep x hret (mem_append_right _ ?_)⟩
  obtain ⟨n, hn⟩ := List.getElem?_of_mem hx
  obtain ⟨e, he, rfl⟩ := getElem?_boundArgs_iff.1 hn
  -- it has been seen, so it is a column of the join
  have hj := (joined_boundArgs_iff he).2 (.inl (h.seen hargs (fun x hx => hx) _ hx hret))
  show e.var ∈ (bindArgs remember args b).1.joined.map Prod.fst
  rw [(bindArgs_eq remember args b).1]
  exact mem_map.2 ⟨_, mem_joined_iff.2 ⟨n, e, he, hj, rfl⟩, rfl⟩

theorem negScans_validity {tx : SessionTx X} {stores : Stores X} {vars : List Symbol}
    {vld : Int64} (h : relation vars storage (some vld) = .ok right) :
    negScans tx stores right = .error (.panic .unreachable) := by
  unfold relation at h
  simp only at h
  split at h
  · cases h
  · split at h
    · cases h
    · cases h
      rfl

/-- **A negated atom is executed as the anti-join on the variables that the left side binds**, for
both equalities of values, if and only if it asks for the present, every argument that counts as
seen is a column of the left side, and no left row has rows that agree with it by `==` only. The
left side may have lost other columns: when the plan is finished, it keeps those of the arguments.
-/
theorem negated_antiJoin_iff {body : List (MagicAtom X)} {b b' : Building X}
    {atom : MagicAtom X} {args : List Symbol}
    {stored : Bool} {validAt : Option Int64}
    (hbody : body.foldlM (compileAtom relations storeArities) ⟨.unit, [], 0⟩ = .ok b)
    (hatom : compileAtom relations storeArities b atom = .ok b')
    (hnegated : atom.negated = some (args, stored, validAt))
    (hargs : ∀ x ∈ args, ∀ n, x ≠ genSymb n) :
    ∃ right joiner, b'.ret = .negJoin b.ret right joiner [] ∧
      (∀ used kept left, b.ret.eliminateTempVars (used ++ joiner.leftKeys) = .ok kept →
      kept.fillBindingIndicesAndCompile = .ok left →
        left.bindingsAfterEliminate ⊆ b.ret.bindingsAfterEliminate ∧
          ∀ x ∈ args, x ∈ b.ret.bindingsAfterEliminate → x ∈ left.bindingsAfterEliminate) ∧
      ∀ (tx : SessionTx X) (deltaRule : Option MagicSymbol) (stores : Stores X)
      (left : RelAlgebra X)
        (toEliminate : List Symbol) (lefts : TupleIter X) (rows : List (Tuple X)),
        left.bindingsAfterEliminate ⊆ b.ret.bindingsAfterEliminate →
        (∀ x ∈ args, x ∈ b.ret.bindingsAfterEliminate → x ∈ left.bindingsAfterEliminate) →
        left.iter tx deltaRule stores = .ok lefts →
        (∀ l, .ok l ∈ lefts → l.length = left.bindingsAfterEliminate.length) →
        NegatedRows relations tx stores rows atom →
        (∀ t ∈ rows, t.length = args.length ∧ .bot ∉ t) →
        ((∀ eq ∈ [sameValue, DataValue.beq],
        (RelAlgebra.negJoin left right joiner toEliminate).iter tx deltaRule stores =
            .ok (antiJoin eq left.bindingsAfterEliminate args rows
              (getEliminateIndices left.bindingsAfterEliminate toEliminate) lefts)) ↔
          validAt = none ∧
            (∀ (n : Nat) x, args[n]? = some x →
            (x ∈ b.seenVariables ∨ stored = true ∧ x ∈ args.take n) →
              x ∈ b.ret.bindingsAfterEliminate) ∧
            ∀ l, .ok l ∈ lefts → SameIfAgreed left.bindingsAfterEliminate args rows l) := by
  have htracked := tracked_of_compile hbody
  obtain ⟨hjoined, hright, huses⟩ := bindArgs_eq stored args b
  have hlength : (bindArgs stored args b).1.rightVars.length = args.length := by
    rw [hright, length_map, ← length_map BoundArg.var, map_var_boundArgs]
  have hposition : ∀ (n : Nat) e, (boundArgs stored args b.seenVariables b.serialId)[n]? = some e →
      n ∈ List.range (bindArgs stored args b).1.rightVars.length := by
    intro n e he
    rw [hright, length_map, mem_range]
    exact (List.getElem?_eq_some_iff.1 he).1
  -- the left side has the same arguments as the plan before the atom
  have hbound : ∀ {left : RelAlgebra X}, left.bindingsAfterEliminate ⊆ b.ret.bindingsAfterEliminate →
      (∀ x ∈ args, x ∈ b.ret.bindingsAfterEliminate → x ∈ left.bindingsAfterEliminate) →
      ((∀ (n : Nat) x, args[n]? = some x → (x ∈ b.seenVariables ∨ stored = true ∧ x ∈ args.take n) →
        x ∈ left.bindingsAfterEliminate) ↔
        ∀ (n : Nat) x, args[n]? = some x → (x ∈ b.seenVariables ∨ stored = true ∧ x ∈ args.take n) →
          x ∈ b.ret.bindingsAfterEliminate) := by
    intro left hsub hkeep
    refine forall₂_congr fun n x => forall₂_congr fun hx _ => ?_
    exact ⟨fun h => hsub h, hkeep x (mem_of_getElem? hx)⟩
  cases atom with
  | negatedRule name args' =>
    cases hnegated
    obtain ⟨_, -, hatom⟩ := bind_ok.1 hatom
    cases hatom
    refine ⟨_, _, rfl, htracked.kept hargs, fun tx deltaRule stores left
      toEliminate lefts rows hsub hkeep hleft hlefts hrows hwidth => ?_⟩
    obtain ⟨storage, hstorage, hwf, hrows⟩ := hrows
    obtain ⟨scans, hscans, hreads⟩ :=
      @readsRows_of_store X _ _ _ tx stores (bindArgs false args b).1.rightVars name storage
      rows hstorage hwf hrows fun t ht => (hwidth t ht).2
    rw [← map_columnsAt_range fun t ht => (hwidth t ht).1, ← hlength] at hreads
    rw [← hbound hsub hkeep, eq_self_iff_true, true_and]
    exact negJoin_iter_iff hleft hlefts hargs hjoined (hright ▸ mapVars_range)
      (bindingsAfterEliminate_derived _ name)
      (fun n e he _ => hposition n e he) hscans hreads (htracked.seen hargs hsub)
  | negatedRelation name args' validAt' =>
    cases hnegated
    obtain ⟨store, chosen, vars, storage, right, hstore, -, hchosen, hvars, hrelation, rfl⟩ :=
      compileAtom_negatedRelation hatom
    refine ⟨right, _, rfl, htracked.kept hargs, fun tx deltaRule stores left
      toEliminate lefts rows hsub hkeep hleft hlefts hrows hwidth => ?_⟩
    obtain ⟨hbase, hindices⟩ := hrows store hstore
    cases validAt with
    | some vld =>
      refine iff_of_false (fun hiter => ?_) (fun h => nomatch h.1)
      have hiter := hiter sameValue mem_cons_self
      rw [RelAlgebra.iter, negScans_validity hrelation] at hiter
      obtain ⟨_, -, hiter⟩ := bind_ok.1 hiter
      obtain ⟨_, -, hiter⟩ := bind_ok.1 hiter
      cases hiter
    | none =>
      have hcolumns := bindingsAfterEliminate_relation hrelation
      cases hrelation
      rw [← hbound hsub hkeep, eq_self_iff_true, true_and]
      rcases hvars with ⟨rfl, rfl⟩ | ⟨mapper, rfl, hvars⟩
      · rw [← map_columnsAt_range fun t ht => (hwidth t ht).1, ← hlength] at hbase
        exact negJoin_iter_iff hleft hlefts hargs hjoined (hright ▸ mapVars_range) hcolumns
          (fun n e he _ => hposition n e he) rfl hbase (htracked.seen hargs hsub)
      · -- the index has every column that is joined on
        obtain ⟨hindex, hneeded⟩ := mem_of_chooseIndex hchosen
        refine negJoin_iter_iff hleft hlefts hargs hjoined (hright ▸ hvars) hcolumns
          (fun n e he hj => ?_) rfl
          (hindices _ hindex) (htracked.seen hargs hsub)
        refine hneeded n .join ?_ (by simp)
        rw [huses, List.getElem?_map, he]
        simp [BoundArg.use, hj]
  | _ => cases hnegated

end AntiJoin

/-! ### Two stored relations -/

section Instances

def pairsRelation (name : String) (second : NullableColType) : Session.RelationHandle where
  name := name
  id := ⟨1, RelationId.one_le⟩
  metadata := ⟨[⟨"a", .mk .int false, none⟩, ⟨"b", second, none⟩], []⟩
  isTemp := false
  putTriggers := []
  rmTriggers := []
  replaceTriggers := []
  accessLevel := .normal
  indices := []
  hnswIndices := []
  ftsIndices := []
  lshIndices := []
  description := ""

/-- The relation `v` has validities, every other has integers. -/
def pairsRelations (name : String) : Except (CompileError Nat) Session.RelationHandle :=
  .ok (pairsRelation name (if name = "v" then .mk .validity false else .mk .int false))

def ruleArities : MagicSymbol → Option Nat := fun _ => some 1

def onePair : List (StoredItem Nat) :=
  [([.num (.int 1), .num (.int 2)], .ok [.num (.int 1), .num (.int 2)])]

def panics (body : List (MagicAtom Nat)) (retVars : List Symbol) : Bool :=
  match (do
    let plan ← compileMagicRuleBody pairsRelations ruleArities body retVars
    (plan.fillBindingIndicesAndCompile).mapError .eval : Except (CompileError Nat) (RelAlgebra Nat)) with
  | .ok plan =>
    match plan.iter (StoredRA.readerOf onePair) none fun _ => none with
    | .error (.panic _) => true
    | _ => false
  | .error _ => false

theorem readsRows_onePair (h : StorageHandle) (hkeys : h.keys.length = 2) :
    ReadsRows ((StoredRA.readerOf onePair).scanPrefix h,
      (StoredRA.readerOf onePair).scanAll h) [[.num (.int 1), .num (.int 2)]] := by
  refine ⟨?_, ?_, ?_, ?_, ?_⟩
  · intro e he
    simp [StoredRA.readerOf, onePair] at he
  · intro t
    simp [StoredRA.readerOf, onePair]
  · intro pre e he
    obtain ⟨p, hp, heq⟩ := mem_map.1 he
    obtain rfl := mem_singleton.1 (mem_filter.1 hp).1
    cases heq
  · intro pre t ht
    obtain ⟨p, hp, heq⟩ := mem_map.1 ht
    obtain rfl := mem_singleton.1 (mem_filter.1 hp).1
    cases heq
    exact mem_singleton_self _
  · intro pre t ht hbegin
    obtain rfl := mem_singleton.1 ht
    refine mem_map.2 ⟨_, mem_filter.2 ⟨mem_singleton_self _, ?_⟩, rfl⟩
    have hlength : pre.length ≤ 2 := by
      rw [← hbegin]
      exact length_take_le' _ _
    rw [hkeys, take_of_length_le hlength, hbegin, beq_iff_eq]
    exact Std.ReflCmp.compare_self

/-- After a rule with `x`, the negation of `r` with `x` and another variable drops the row which `r`
has. -/
theorem negated_pair_antiJoin : ∃ right joiner,
    (negJoin (.fixed ⟨["x"], [[.num (.int 1)], [.num (.int 3)]], []⟩) right joiner []).iter
        (StoredRA.readerOf onePair) none (fun _ => none) =
      .ok (antiJoin sameValue ["x"] ["x", "z"] [[.num (.int 1), .num (.int 2)]] []
        [.ok [.num (.int 1)], .ok [.num (.int 3)]]) := by
  have hargs : ∀ x ∈ ["x", "z"], ∀ n, x ≠ genSymb n := by
    intro x hx n h
    have hhead := congrArg (fun s : String => s.toList.head?) h
    simp only [mem_cons, not_mem_nil, or_false] at hx
    have hstar : (toString "**").toList.head? = some '*' := rfl
    rcases hx with rfl | rfl <;> simp [genSymb, hstar] at hhead
  obtain ⟨right, joiner, -, -, hiff⟩ := @negated_antiJoin_iff Nat _ _ _ pairsRelations ruleArities
    [.rule (.muggle "p") ["x"]] _ _ (.negatedRelation "r" ["x", "z"] none) ["x", "z"]
    true none rfl rfl rfl hargs
  refine ⟨right, joiner, (hiff (StoredRA.readerOf onePair) none (fun _ => none)
    (.fixed ⟨["x"], [[.num (.int 1)], [.num (.int 3)]], []⟩) [] [.ok [.num (.int 1)], .ok [.num (.int 3)]]
    [[.num (.int 1), .num (.int 2)]] (fun x hx => hx) (fun x _ hx => hx) rfl ?_ ?_ ?_).2
      ⟨rfl, ?_, ?_⟩ _ mem_cons_self⟩
  · simp [bindingsAfterEliminate, bindingsBeforeEliminate, eliminateSet]
  · intro store hstore
    cases hstore
    exact ⟨readsRows_onePair _ rfl, fun index hindex => by cases hindex⟩
  · simp
  · intro n x hx hseen
    rcases n with _ | _ | n
    · cases hx
      exact mem_singleton_self _
    · cases hx
      exact absurd hseen (by decide)
    · cases hx
  · intro l hl
    rcases mem_pair.1 hl with heq | heq <;> cases heq
    · exact fun _ => rfl
    · exact fun h => by cases h

/-- **Negated atoms that panic**: two negations with a variable that nothing else binds, and one of
another time. -/
theorem negated_atoms_panic : panics [.unification "x" (.const (.num (.int 1))) false,
      .negatedRelation "r" ["x", "z"] none, .negatedRelation "s" ["x", "z"] none] ["x"] = true ∧
    panics [.unification "x" (.const (.num (.int 1))) false,
      .negatedRelation "v" ["x", "z"] (some 0)] ["x"] = true ∧
    panics [.unification "x" (.const (.num (.int 1))) false,
      .negatedRelation "r" ["x", "z"] none] ["x"] = false := by
  decide +kernel

end Instances

end Retia
