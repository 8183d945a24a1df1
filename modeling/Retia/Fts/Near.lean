import Mathlib
import Retia.Lib.BTree
import Retia.Lib.Except
import Retia.Parse.Fts

/-!
# Proximity search

`fts/indexing.rs`. An index has a row for each token of each document, with the positions of the
token. `NEAR/d(l₁, …, lₙ)` is to find the documents in which one position can be chosen for each
literal, all of them within distance `d` of each other.

The code folds over the literals. For each document it keeps a set of positions, the least position
of each partial choice, and a further literal is compared with this one only. A literal that lies
below the least position so far may be far from the others, so the code accepts choices whose
positions descend step by step: each within `d` of the least one before it (`nearFold_of_descent`).
And of a literal that matches several tokens it reads one row for each document: the first one, and
for the first literal the last one too.

What comes out right for all contents of the index can be told from the query (`NearExact`): the
first literal is not a prefix literal; the other prefix literals stand beside an exact literal with
the same text; and there are no more than two different texts, or the distance is zero.

* `getElem?_ftsSearchNear` — the search for one document, as a fold over the literals (`nearFold`);
* `near_exact_iff` — the result.
-/

open Std (ExtTreeMap TransOrd LawfulEqOrd LawfulEqCmp Symm)

namespace Retia.Fts

open List

variable {K : Type}

/-! ### The index -/

structure TokenRow (K : Type) where
  token : List Char
  key : K
  positions : List Nat

/-- An index: the rows in the order of the tokens, one for each token and document. Positions are
read as `u32`. -/
structure FtsIndex (K : Type) where
  rows : List (TokenRow K)
  sorted : rows.Pairwise fun a b => a.token < b.token ∨ a.token = b.token ∧ a.key ≠ b.key
  bounded : ∀ row ∈ rows, ∀ p ∈ row.positions, p < 2 ^ 32

open FtsIndex

def largestUtfChar : Char := Char.ofNat 0x10ffff

/-- The range of the scan: from the text of the literal to this text followed by the largest
character. -/
def FtsLiteral.inScan (l : FtsLiteral) (token : List Char) : Bool :=
  decide (¬ token < l.value) && decide (token < l.value ++ [largestUtfChar])

open FtsLiteral

def FtsLiteral.accepts (l : FtsLiteral) (token : List Char) : Bool :=
  if l.isPrefix then l.value.isPrefixOf token else token == l.value

/-- `fts_search_literal`. -/
def ftsSearchLiteral (idx : FtsIndex K) (l : FtsLiteral) : List (TokenRow K) :=
  (idx.rows.filter fun row => l.inScan row.token).takeWhile fun row => l.accepts row.token

variable {α : Type}

/-- A scan that stops at the first row that fails finds all rows that do not, where no row that
fails comes before one that does not. -/
theorem takeWhile_eq_filter_of_pairwise {q : α → Bool} {l : List α}
    (h : l.Pairwise fun a b => q b = true → q a = true) : l.takeWhile q = l.filter q := by
  induction l with
  | nil => rfl
  | cons a l ih =>
    obtain ⟨hfirst, hrest⟩ := pairwise_cons.1 h
    cases hq : q a with
    | true => rw [takeWhile_cons_of_pos hq, filter_cons_of_pos hq, ih hrest]
    | false =>
      rw [takeWhile_cons_of_neg (by simp [hq]), filter_cons_of_neg (by simp [hq]),
        eq_comm, filter_eq_nil_iff]
      exact fun b hb hqb => absurd (hq.symm.trans (hfirst b hb hqb)) (by simp)

theorem lt_append_singleton [LinearOrder α] (w : List α) (c : α) : w < w ++ [c] := by
  induction w with
  | nil => exact nil_lt_cons c []
  | cons a w ih => exact cons_lt_cons_iff.2 (.inr ⟨rfl, ih⟩)

theorem isPrefix_of_lt [LinearOrder α] {w t : List α} {c : α} (hle : ¬ t < w)
    (hlt : t < w ++ [c]) : w <+: t := by
  induction w generalizing t with
  | nil => exact nil_prefix
  | cons a w ih =>
    cases t with
    | nil => exact absurd (nil_lt_cons a w) hle
    | cons b t =>
      rw [cons_lt_cons_iff, not_or] at hle
      rcases cons_lt_cons_iff.1 hlt with hba | ⟨rfl, htail⟩
      · exact absurd hba hle.1
      · exact cons_prefix_cons.2 ⟨rfl, ih (fun h => hle.2 ⟨rfl, h⟩) htail⟩

theorem not_lt_of_isPrefix [LinearOrder α] {w t : List α} (h : w <+: t) : ¬ t < w := by
  obtain ⟨u, rfl⟩ := h
  induction w with
  | nil => exact not_lt_nil _
  | cons a w ih =>
    rw [cons_append, cons_lt_cons_iff]
    rintro (hlt | ⟨-, hlt⟩)
    · exact lt_irrefl a hlt
    · exact ih hlt

/-- **An exact literal** finds the rows of its token. -/
theorem ftsSearchLiteral_exact (idx : FtsIndex K) {l : FtsLiteral} (hl : l.isPrefix = false) :
    ftsSearchLiteral idx l = idx.rows.filter fun row => row.token = l.value := by
  have haccepts : ∀ token, l.accepts token = decide (token = l.value) := fun token => by
    simp [accepts, hl, Bool.beq_eq_decide_eq]
  rw [ftsSearchLiteral, takeWhile_eq_filter_of_pairwise, filter_filter]
  · refine filter_congr fun row _ => ?_
    rw [haccepts, Bool.and_eq_decide, decide_eq_decide]
    refine ⟨fun h => of_decide_eq_true h.1, fun h => ⟨decide_eq_true h, ?_⟩⟩
    simp [inScan, h, lt_append_singleton]
  · refine (idx.sorted.filter _).imp_of_mem fun {a b} ha hb hab hb' => ?_
    rw [haccepts, decide_eq_true_iff] at hb' ⊢
    have hnot : ¬ a.token < l.value := by
      have := (mem_filter.1 ha).2
      simp only [inScan, Bool.and_eq_true, decide_eq_true_eq] at this
      exact this.1
    rcases hab with hlt | ⟨heq, -⟩
    · exact absurd (hb' ▸ hlt) hnot
    · exact heq.trans hb'

/-- **A prefix literal** finds the rows in the range of its scan, which all start with its text. -/
theorem ftsSearchLiteral_of_isPrefix (idx : FtsIndex K) {l : FtsLiteral} (hl : l.isPrefix = true) :
    ftsSearchLiteral idx l = idx.rows.filter fun row => l.inScan row.token := by
  rw [ftsSearchLiteral, takeWhile_eq_filter_of_pairwise, filter_filter]
  · refine filter_congr fun row _ => ?_
    cases hscan : l.inScan row.token with
    | false => rw [Bool.and_false]
    | true =>
      simp only [inScan, Bool.and_eq_true, decide_eq_true_eq] at hscan
      simpa [accepts, hl] using isPrefix_of_lt hscan.1 hscan.2
  · refine (idx.sorted.filter _).imp_of_mem fun {a b} ha _ _ _ => ?_
    have hscan := (mem_filter.1 ha).2
    simp only [inScan, Bool.and_eq_true, decide_eq_true_eq] at hscan
    simpa [accepts, hl] using isPrefix_of_lt hscan.1 hscan.2

/-! ### The search -/

section Search

variable [Ord K] [TransOrd K]

/-- One pair of positions: the smaller one is kept. -/
def nearPair (distance p : Nat) (inner : List Nat) (cur : Nat) : List Nat :=
  if cur > p then if cur - p ≤ distance then inner.insert p else inner
  else if p - cur ≤ distance then inner.insert cur else inner

/-- The positions of the partial choices extended by a position of one more literal. -/
def nearPairs (distance : Nat) (prev positions : List Nat) : List Nat :=
  prev.foldl (fun inner p => positions.foldl (nearPair distance p) inner) []

/-- One row of a further literal. The document is taken out of the old map, so that a second row of
it finds nothing. -/
def nearRow (distance : Nat) (colls : ExtTreeMap K (List Nat) × ExtTreeMap K (List Nat))
    (x : TokenRow K) :
    ExtTreeMap K (List Nat) × ExtTreeMap K (List Nat) :=
  match colls.1[x.key]? with
  | none => colls
  | some prevPos =>
    let inner := nearPairs distance prevPos x.positions
    (colls.1.erase x.key, if inner.isEmpty then colls.2 else colls.2.insert x.key inner)

def nearStep (distance : Nat) (coll : ExtTreeMap K (List Nat)) (found : List (TokenRow K)) :
    ExtTreeMap K (List Nat) :=
  (found.foldl (nearRow distance) (coll, ∅)).2

/-- `fts_search_impl` on `Near`, up to the scores: the documents and the positions that were kept.
The loop runs over all literals, the first one included. -/
def ftsSearchNear (idx : FtsIndex K) (near : FtsNear) : Except Failure (ExtTreeMap K (List Nat)) :=
  match near.literals with
  | [] => .error .panic
  | first :: _ =>
    let start := (ftsSearchLiteral idx first).foldl (fun coll el => coll.insert el.key el.positions) ∅
    .ok (near.literals.foldl (fun coll l => nearStep near.distance coll (ftsSearchLiteral idx l)) start)

end Search

/-! ### What a document is found by -/

def docRows [DecidableEq K] (idx : FtsIndex K) (key : K) (l : FtsLiteral) : List (List Nat) :=
  ((ftsSearchLiteral idx l).filter fun row => row.key = key).map TokenRow.positions

theorem mem_foldl_nearPair {distance p x : Nat} {positions inner : List Nat} :
    x ∈ positions.foldl (nearPair distance p) inner ↔
      x ∈ inner ∨ ∃ cur ∈ positions, max p cur - min p cur ≤ distance ∧ x = min p cur := by
  induction positions generalizing inner with
  | nil => simp
  | cons cur positions ih =>
    rw [foldl_cons, ih, exists_mem_cons_iff, ← or_assoc]
    refine or_congr_left ?_
    rw [nearPair]
    split_ifs with hgt hle hle
    · rw [mem_insert_iff, max_eq_right hgt.le, min_eq_left hgt.le]
      tauto
    · rw [max_eq_right hgt.le, min_eq_left hgt.le]
      tauto
    · rw [mem_insert_iff, max_eq_left (by omega), min_eq_right (by omega)]
      tauto
    · rw [max_eq_left (by omega), min_eq_right (by omega)]
      tauto

theorem mem_nearPairs {distance x : Nat} {prev positions : List Nat} :
    x ∈ nearPairs distance prev positions ↔
      ∃ p ∈ prev, ∃ cur ∈ positions, max p cur - min p cur ≤ distance ∧ x = min p cur := by
  have hfold : ∀ inner, x ∈ prev.foldl (fun inner p => positions.foldl (nearPair distance p) inner) inner ↔
      x ∈ inner ∨ ∃ p ∈ prev, ∃ cur ∈ positions, max p cur - min p cur ≤ distance ∧ x = min p cur := by
    induction prev with
    | nil => simp
    | cons p prev ih =>
      intro inner
      rw [foldl_cons, ih, mem_foldl_nearPair, exists_mem_cons_iff, or_assoc]
  simpa [nearPairs] using hfold []

section Document

variable [Ord K] [TransOrd K] [LawfulEqOrd K] [DecidableEq K]

/-- The positions kept for a document, after a literal whose rows for it are `rows`. -/
def nearDoc (distance : Nat) (kept : Option (List Nat)) (rows : List (List Nat)) :
    Option (List Nat) :=
  match kept, rows with
  | some prev, positions :: _ => if (nearPairs distance prev positions).isEmpty then none
    else some (nearPairs distance prev positions)
  | _, _ => none

/-- The rows of a literal, for one document: only the first row of it counts. -/
theorem getElem?_foldl_nearRow {distance : Nat} (found : List (TokenRow K)) (key : K)
    (colls : ExtTreeMap K (List Nat) × ExtTreeMap K (List Nat)) :
    (found.foldl (nearRow distance) colls).2[key]? =
      (nearDoc distance colls.1[key]?
      ((found.filter fun row => row.key = key).map TokenRow.positions)).or colls.2[key]? := by
  have hcompare : ∀ {a b : K}, compare a b = .eq ↔ a = b := LawfulEqCmp.compare_eq_iff_eq
  induction found generalizing colls with
  | nil => cases h : colls.1[key]? <;> simp [nearDoc]
  | cons x found ih =>
    rw [foldl_cons, ih, nearRow]
    cases hx : colls.1[x.key]? with
    | none =>
      by_cases hkey : x.key = key
      · subst hkey
        simp [hx, nearDoc]
      · simp [hkey]
    | some prev =>
      by_cases hkey : x.key = key
      · subst hkey
        have herase : (colls.1.erase x.key)[x.key]? = none := by simp
        simp only [herase, hx, decide_true, filter_cons_of_pos, map_cons, nearDoc]
        split_ifs <;> simp
      · have hne : compare x.key key ≠ .eq := mt hcompare.1 hkey
        simp only [ExtTreeMap.getElem?_erase, if_neg hne, decide_eq_true_eq,
          hkey, not_false_eq_true, filter_cons_of_neg]
        split_ifs
        · rfl
        · simp [ExtTreeMap.getElem?_insert, hne]

theorem getElem?_nearStep {distance : Nat} (coll : ExtTreeMap K (List Nat))
    (idx : FtsIndex K) (l : FtsLiteral) (key : K) :
    (nearStep distance coll (ftsSearchLiteral idx l))[key]? =
    nearDoc distance coll[key]? (docRows idx key l) := by
  rw [nearStep, getElem?_foldl_nearRow]
  simp [docRows]

theorem getElem?_start (idx : FtsIndex K) (l : FtsLiteral) (key : K) :
    ((ftsSearchLiteral idx l).foldl (fun coll el => coll.insert el.key el.positions)
      (∅ : ExtTreeMap K (List Nat)))[key]? = (docRows idx key l).getLast? := by
  have hcompare : ∀ {a b : K}, compare a b = .eq ↔ a = b := LawfulEqCmp.compare_eq_iff_eq
  have hfold : ∀ (found : List (TokenRow K)) (coll : ExtTreeMap K (List Nat)),
      (found.foldl (fun coll el => coll.insert el.key el.positions) coll)[key]? =
        (((found.filter fun row => row.key = key).map TokenRow.positions).getLast?).or coll[key]? := by
    intro found
    induction found with
    | nil => simp
    | cons x found ih =>
      intro coll
      rw [foldl_cons, ih]
      by_cases hkey : x.key = key
      · subst hkey
        rw [filter_cons_of_pos (by simp), map_cons, List.getLast?_cons]
        cases ((found.filter fun row => row.key = x.key).map TokenRow.positions).getLast? <;> simp
      · simp [ExtTreeMap.getElem?_insert, hcompare, hkey]
  simpa [docRows] using hfold (ftsSearchLiteral idx l) ∅

/-- **The search for one document**, from the last row that the first literal finds. -/
theorem getElem?_ftsSearchNear (idx : FtsIndex K) (first : FtsLiteral)
    (rest : List FtsLiteral) (distance : Nat) (key : K) :
    ∃ coll, ftsSearchNear idx ⟨first :: rest, distance⟩ = .ok coll ∧
      coll[key]? = (first :: rest).foldl (fun kept l => nearDoc distance kept (docRows idx key l))
      (docRows idx key first).getLast? := by
  refine ⟨_, rfl, ?_⟩
  have hfold : ∀ (ls : List FtsLiteral) (coll : ExtTreeMap K (List Nat)),
      (ls.foldl (fun coll l => nearStep distance coll (ftsSearchLiteral idx l)) coll)[key]? =
        ls.foldl (fun kept l => nearDoc distance kept (docRows idx key l)) coll[key]? := by
    intro ls
    induction ls with
    | nil => exact fun coll => rfl
    | cons l ls ih =>
      intro coll
      rw [foldl_cons, foldl_cons, ih, getElem?_nearStep]
  rw [hfold, getElem?_start]

end Document

/-! ### What is to be found -/

def FtsLiteral.Asks (l : FtsLiteral) (token : List Char) : Prop :=
  if l.isPrefix then l.value <+: token else token = l.value

theorem FtsLiteral.asks_self (l : FtsLiteral) : l.Asks l.value := by
  rw [Asks]
  split
  · exact prefix_rfl
  · rfl

def PositionOf (idx : FtsIndex K) (key : K) (l : FtsLiteral) (p : Nat) : Prop :=
  ∃ row ∈ idx.rows, row.key = key ∧ l.Asks row.token ∧ p ∈ row.positions

/-- **One position for each literal, pairwise within the distance.** -/
def NearMatches (idx : FtsIndex K) (key : K) (literals : List FtsLiteral) (distance : Nat) : Prop :=
  ∃ ps, List.Forall₂ (PositionOf idx key) literals ps ∧ ps.Pairwise fun p q => max p q - min p q ≤ distance

theorem nearMatches_iff {idx : FtsIndex K} {key : K} {literals : List FtsLiteral}
    {distance : Nat} : NearMatches idx key literals distance ↔
      ∃ low, ∀ l ∈ literals, ∃ p, PositionOf idx key l p ∧ low ≤ p ∧ p ≤ low + distance := by
  constructor
  · rintro ⟨ps, hps, hpairwise⟩
    rcases ps with _ | ⟨p₀, ps⟩
    · obtain rfl := forall₂_nil_right_iff.1 hps
      exact ⟨0, by simp⟩
    -- the window starts at the least position
    obtain ⟨low, hlow, hmin⟩ : ∃ low ∈ p₀ :: ps, ∀ p ∈ p₀ :: ps, low ≤ p :=
      ⟨_, min_mem (cons_ne_nil p₀ ps), fun p hp => min_le_of_mem hp⟩
    refine ⟨low, fun l hl => ?_⟩
    obtain ⟨p, hp, hposition⟩ := exists_of_forall₂ hps hl
    refine ⟨p, hposition, hmin p hp, ?_⟩
    have : Symm fun p q : Nat => max p q - min p q ≤ distance := ⟨fun a b h => by rwa [max_comm, min_comm]⟩
    have hclose : max low p - min low p ≤ distance := by
      by_cases heq : low = p
      · simp [heq]
      · exact hpairwise.forall hlow hp heq
    have := hmin p hp
    omega
  · rintro ⟨low, hall⟩
    have hps : ∃ ps, List.Forall₂ (fun l p => PositionOf idx key l p ∧ low ≤ p ∧
      p ≤ low + distance) literals ps := by
      induction literals with
      | nil => exact ⟨[], .nil⟩
      | cons l literals ih =>
        obtain ⟨⟨p, hp⟩, hrest⟩ := forall_mem_cons.1 hall
        obtain ⟨ps, hps⟩ := ih hrest
        exact ⟨p :: ps, .cons hp hps⟩
    obtain ⟨ps, hps⟩ := hps
    refine ⟨ps, hps.imp fun _ _ h => h.1, ?_⟩
    have hbound : ∀ p ∈ ps, low ≤ p ∧ p ≤ low + distance := by
      intro p hp
      obtain ⟨l, -, h⟩ := exists_of_forall₂ hps.flip hp
      exact h.2
    refine pairwise_of_forall_mem_list fun p hp q hq => ?_
    have := hbound p hp
    have := hbound q hq
    omega

theorem NearMatches.perm {idx : FtsIndex K} {key : K} {literals literals' : List FtsLiteral}
    {distance : Nat}
    (hperm : literals.Perm literals') (h : NearMatches idx key literals distance) :
    NearMatches idx key literals' distance := by
  rw [nearMatches_iff] at h ⊢
  obtain ⟨low, hall⟩ := h
  exact ⟨low, fun l hl => hall l (hperm.mem_iff.2 hl)⟩

/-! ### Queries that come out right -/

/-- **The queries that are answered right** whatever the index: the first literal is exact, a prefix
literal stands beside an exact literal with the same text, and there are two texts at most or the
distance is zero. -/
structure NearExact (first : FtsLiteral) (rest : List FtsLiteral) (distance : Nat) : Prop where
  first_exact : first.isPrefix = false
  twin : ∀ l ∈ rest, l.isPrefix = true → ∃ e ∈ first :: rest, e.isPrefix = false ∧ e.value = l.value
  texts : distance = 0 ∨ ∃ b, ∀ l ∈ rest, l.value = first.value ∨ l.value = b

variable {token : List Char}

section Document

variable [DecidableEq K]

def tokenPositions (idx : FtsIndex K) (key : K) (token : List Char) : Option (List Nat) :=
  ((idx.rows.filter fun row => row.token = token).find? fun row => row.key = key).map TokenRow.positions

theorem eq_or_rel_of_pairwise {α : Type} {R : α → α → Prop} {l : List α}
    (h : l.Pairwise R) {a b : α} (ha : a ∈ l) (hb : b ∈ l) : a = b ∨ R a b ∨ R b a := by
  induction l with
  | nil => cases ha
  | cons c l ih =>
    obtain ⟨hfirst, hrest⟩ := pairwise_cons.1 h
    rcases mem_cons.1 ha with rfl | ha'
    · rcases mem_cons.1 hb with rfl | hb'
      · exact .inl rfl
      · exact .inr (.inl (hfirst b hb'))
    · rcases mem_cons.1 hb with rfl | hb'
      · exact .inr (.inr (hfirst a ha'))
      · exact ih hrest ha' hb'

omit [DecidableEq K] in
theorem FtsIndex.row_unique (idx : FtsIndex K) {a b : TokenRow K} (ha : a ∈ idx.rows)
    (hb : b ∈ idx.rows) (htoken : a.token = b.token) (hkey : a.key = b.key) : a = b := by
  rcases eq_or_rel_of_pairwise idx.sorted ha hb with heq | (hlt | ⟨-, hne⟩) | hlt | ⟨-, hne⟩
  · exact heq
  · exact absurd hlt (htoken ▸ lt_irrefl _)
  · exact absurd hkey hne
  · exact absurd hlt (htoken ▸ lt_irrefl _)
  · exact absurd hkey.symm hne

variable {rest : List FtsLiteral} {first : FtsLiteral} {l : FtsLiteral}
    {kept final : List Nat} {idx : FtsIndex K}
  {positions : List Nat} {key : K} {p : Nat}

theorem tokenPositions_eq_some : tokenPositions idx key token = some positions ↔
    ∃ row ∈ idx.rows, row.token = token ∧ row.key = key ∧ row.positions = positions := by
  rw [tokenPositions, Option.map_eq_some_iff]
  constructor
  · rintro ⟨row, hfind, rfl⟩
    obtain ⟨hrow, htoken⟩ := mem_filter.1 (mem_of_find?_eq_some hfind)
    have hkey : row.key = key := by simpa using List.find?_some hfind
    exact ⟨row, hrow, of_decide_eq_true htoken, hkey, rfl⟩
  · rintro ⟨row, hrow, rfl, rfl, rfl⟩
    have hmem : row ∈ idx.rows.filter fun r => r.token = row.token := mem_filter.2 ⟨hrow, by simp⟩
    obtain ⟨found, hfound⟩ := Option.isSome_iff_exists.1
      (List.find?_isSome.2 ⟨row,
        hmem, by simp⟩ : (List.find? (fun r => decide (r.key = row.key)) _).isSome = true)
    obtain ⟨hin, htoken⟩ := mem_filter.1 (mem_of_find?_eq_some hfound)
    have hkey : found.key = row.key := by simpa using List.find?_some hfound
    exact ⟨found, hfound, by rw [idx.row_unique hin hrow (of_decide_eq_true htoken) hkey]⟩

theorem FtsIndex.pairwise_doc (idx : FtsIndex K) (key : K) :
    (idx.rows.filter fun row => row.key = key).Pairwise fun a b => a.token < b.token := by
  refine (idx.sorted.filter _).imp_of_mem fun {a b} ha hb hab => ?_
  have ha := of_decide_eq_true (mem_filter.1 ha).2
  have hb := of_decide_eq_true (mem_filter.1 hb).2
  exact hab.resolve_right fun h => h.2 (ha.trans hb.symm)

theorem docRows_exact (idx : FtsIndex K) (key : K) (hl : l.isPrefix = false) :
    docRows idx key l = (tokenPositions idx key l.value).toList := by
  rw [docRows, ftsSearchLiteral_exact idx hl, tokenPositions]
  have hpairwise : (idx.rows.filter fun row => row.token = l.value).Pairwise fun a b => a.key ≠ b.key := by
    refine (idx.sorted.filter _).imp_of_mem fun {a b} ha hb hab => ?_
    have ha := of_decide_eq_true (mem_filter.1 ha).2
    have hb := of_decide_eq_true (mem_filter.1 hb).2
    rcases hab with hlt | ⟨-, hne⟩
    · exact absurd (ha ▸ hb ▸ hlt) (lt_irrefl _)
    · exact hne
  generalize idx.rows.filter (fun row => row.token = l.value) = rows at hpairwise
  induction rows with
  | nil => rfl
  | cons row rows ih =>
    obtain ⟨hfirst, hrest⟩ := pairwise_cons.1 hpairwise
    by_cases hkey : row.key = key
    · have hnone : rows.filter (fun row => row.key = key) = [] :=
        filter_eq_nil_iff.2 fun b hb hbkey => hfirst b hb (hkey.trans (of_decide_eq_true hbkey).symm)
      simp [hkey, hnone]
    · simpa [hkey] using ih hrest

theorem docRows_of_isPrefix (hl : l.isPrefix = true)
    (h : tokenPositions idx key l.value = some positions) :
    ∃ more, docRows idx key l = positions :: more := by
  obtain ⟨row, hrow, htoken, hkey, rfl⟩ := tokenPositions_eq_some.1 h
  have hfilter : ((ftsSearchLiteral idx l).filter fun row => row.key = key) =
      (idx.rows.filter fun row => row.key = key).filter fun row => l.inScan row.token := by
    rw [ftsSearchLiteral_of_isPrefix idx hl, filter_filter, filter_filter]
    exact filter_congr fun row _ => Bool.and_comm _ _
  have hpairwise := (idx.pairwise_doc key).filter fun row => l.inScan row.token
  have hmem : row ∈ (idx.rows.filter fun row => row.key = key).filter fun row => l.inScan row.token := by
    refine mem_filter.2 ⟨mem_filter.2 ⟨hrow, by simp [hkey]⟩, ?_⟩
    simp [inScan, htoken, lt_append_singleton]
  rw [docRows, hfilter]
  cases hrows : (idx.rows.filter fun row => row.key = key).filter fun row => l.inScan row.token with
  | nil => rw [hrows] at hmem; cases hmem
  | cons first more =>
    -- a row before that of the text would have a smaller token, outside the range of the scan
    rw [hrows] at hmem hpairwise
    rcases mem_cons.1 hmem with rfl | hlater
    · exact ⟨_, rfl⟩
    · have hlt : first.token < l.value := htoken ▸ (pairwise_cons.1 hpairwise).1 row hlater
      have hscan : first ∈ (idx.rows.filter fun row => row.key = key).filter fun row =>
        l.inScan row.token := by
        rw [hrows]
        exact mem_cons_self
      have := (mem_filter.1 hscan).2
      simp only [inScan, Bool.and_eq_true, decide_eq_true_eq] at this
      exact absurd hlt this.1

theorem positionOf_iff (hl : l.isPrefix = false) : PositionOf idx key l p ↔
    ∃ positions, tokenPositions idx key l.value = some positions ∧ p ∈ positions := by
  simp only [PositionOf, Asks, hl, Bool.false_eq_true, if_false, tokenPositions_eq_some]
  constructor
  · rintro ⟨row, hrow, hkey, htoken, hp⟩
    exact ⟨row.positions, ⟨row, hrow, htoken, hkey, rfl⟩, hp⟩
  · rintro ⟨_, ⟨row, hrow, htoken, hkey, rfl⟩, hp⟩
    exact ⟨row, hrow, hkey, htoken, hp⟩

theorem positionOf_of_mem {positions : List Nat}
    (h : tokenPositions idx key l.value = some positions) (hp : p ∈ positions) :
    PositionOf idx key l p := by
  obtain ⟨row, hrow, htoken, hkey, rfl⟩ := tokenPositions_eq_some.1 h
  exact ⟨row, hrow, hkey, htoken ▸ l.asks_self, hp⟩

/-! ### The fold over the literals -/

variable {distance : Nat} {idx : FtsIndex K} {key : K} {literals : List FtsLiteral}

/-- The search for a document, from the positions `kept`. -/
def nearFold (distance : Nat) (idx : FtsIndex K) (key : K) (literals : List FtsLiteral)
    (kept : Option (List Nat)) : Option (List Nat) :=
  literals.foldl (fun kept l => nearDoc distance kept (docRows idx key l)) kept

theorem nearFold_none (distance : Nat) (idx : FtsIndex K) (key : K) (literals : List FtsLiteral) :
    nearFold distance idx key literals none = none := by
  induction literals with
  | nil => rfl
  | cons l literals ih => exact ih

theorem nearFold_of_docRows_nil {e : FtsLiteral}
    (he : e ∈ literals) (h : docRows idx key e = []) (kept : Option (List Nat)) :
    nearFold distance idx key literals kept = none := by
  induction literals generalizing kept with
  | nil => cases he
  | cons l literals ih =>
    rcases mem_cons.1 he with rfl | he
    · have hnone : nearDoc distance kept (docRows idx key e) = none := by rw [h, nearDoc]; simp
      exact (congrArg (nearFold distance idx key literals) hnone).trans
        (nearFold_none distance idx key literals)
    · exact ih he _

theorem nearFold_cons_eq_some : nearFold distance idx key (l :: rest) (some kept) = some final ↔
    ∃ positions more, docRows idx key l = positions :: more ∧
    nearPairs distance kept positions ≠ [] ∧
      nearFold distance idx key rest (some (nearPairs distance kept positions)) = some final := by
  have hstep : nearFold distance idx key (l :: rest) (some kept) =
      nearFold distance idx key rest (nearDoc distance (some kept) (docRows idx key l)) := rfl
  rw [hstep]
  cases hrows : docRows idx key l with
  | nil => simp [nearDoc, nearFold_none]
  | cons positions more =>
    by_cases hnil : nearPairs distance kept positions = []
    · simp [nearDoc, hnil, nearFold_none]
    · simp [nearDoc, hnil]

def ReadsTexts (idx : FtsIndex K) (key : K) (literals : List FtsLiteral) : Prop :=
  ∀ l ∈ literals, ∃ positions more, tokenPositions idx key l.value = some positions ∧
    docRows idx key l = positions :: more

theorem nearFold_of_window {low : Nat}
    (hwindow : ∀ l ∈ literals, ∃ positions more, docRows idx key l = positions :: more ∧
      ∃ p ∈ positions, low ≤ p ∧ p ≤ low + distance) {kept : List Nat}
      (hkept : ∃ p ∈ kept, low ≤ p ∧ p ≤ low + distance) :
    ∃ final, nearFold distance idx key literals (some kept) = some final := by
  induction literals generalizing kept with
  | nil => exact ⟨kept, rfl⟩
  | cons l literals ih =>
    obtain ⟨⟨positions, more, hrows, cur, hcur, hlow, hhigh⟩, hrest⟩ := forall_mem_cons.1 hwindow
    obtain ⟨p, hp, hlow', hhigh'⟩ := hkept
    have hmem : min p cur ∈ nearPairs distance kept positions :=
      mem_nearPairs.2 ⟨p, hp, cur, hcur, by omega, rfl⟩
    obtain ⟨final, hfinal⟩ := ih hrest ⟨min p cur, hmem, by omega, by omega⟩
    exact ⟨final, nearFold_cons_eq_some.2 ⟨positions, more, hrows, ne_nil_of_mem hmem, hfinal⟩⟩

theorem nearFold_ne_nil (h : nearFold distance idx key literals (some kept) = some final)
    (hne : literals ≠ []) : final ≠ [] := by
  induction literals generalizing kept with
  | nil => exact absurd rfl hne
  | cons l literals ih =>
    obtain ⟨positions, more, -, hpairs, hrest⟩ := nearFold_cons_eq_some.1 h
    cases literals with
    | nil =>
      cases hrest
      exact hpairs
    | cons l' literals => exact ih hrest (cons_ne_nil _ _)

theorem nearFold_zero (hread : ReadsTexts idx key literals)
    (h : nearFold 0 idx key literals (some kept) = some final) :
    ∀ x ∈ final, x ∈ kept ∧ ∀ l ∈ literals, PositionOf idx key l x := by
  induction literals generalizing kept with
  | nil =>
    obtain rfl : kept = final := Option.some.inj h
    exact fun x hx => ⟨hx, by simp⟩
  | cons l literals ih =>
    obtain ⟨positions, more, hrows, -, hrest⟩ := nearFold_cons_eq_some.1 h
    obtain ⟨⟨positions', more', htoken, hrows'⟩, hread⟩ := forall_mem_cons.1 hread
    obtain ⟨rfl, -⟩ := List.cons.inj (hrows.symm.trans hrows')
    intro x hx
    obtain ⟨hpairs, hall⟩ := ih hread hrest x hx
    obtain ⟨p, hp, cur, hcur, hclose, rfl⟩ := mem_nearPairs.1 hpairs
    obtain rfl : p = cur := by omega
    rw [Nat.min_self] at hall ⊢
    exact ⟨hp, forall_mem_cons.2 ⟨positionOf_of_mem htoken hcur, hall⟩⟩

/-- With two texts, a success has found a pair of close positions of them, unless only one of them
has occurred. -/
theorem nearFold_two {a b : List Char} {literals : List FtsLiteral}
    (hread : ReadsTexts idx key literals) (htexts : ∀ l ∈ literals, l.value = a ∨ l.value = b)
    {as : List Nat}
    (ha : tokenPositions idx key a = some as) (hkept : kept ≠ []) (hsub : ∀ p ∈ kept, p ∈ as)
    (h : nearFold distance idx key literals (some kept) = some final) :
    (∃ p ∈ as, ∀ l ∈ literals, l.value = a) ∨
      ∃ bs, tokenPositions idx key b = some bs ∧
      ∃ p ∈ as, ∃ q ∈ bs, max p q - min p q ≤ distance := by
  induction literals generalizing kept with
  | nil =>
    obtain ⟨p, hp⟩ := exists_mem_of_ne_nil kept hkept
    exact .inl ⟨p, hsub p hp, by simp⟩
  | cons l literals ih =>
    obtain ⟨positions, more, hrows, hne, hrest⟩ := nearFold_cons_eq_some.1 h
    obtain ⟨⟨positions', more', htoken, hrows'⟩, hread⟩ := forall_mem_cons.1 hread
    obtain ⟨rfl, -⟩ := List.cons.inj (hrows.symm.trans hrows')
    obtain ⟨htext, htexts⟩ := forall_mem_cons.1 htexts
    rcases htext with htext | htext
    · -- the first text again: positions of it are kept
      rw [htext] at htoken
      obtain rfl := Option.some.inj (ha.symm.trans htoken)
      refine (ih hread htexts hne (fun x hx => ?_) hrest).imp_left fun ⟨p, hp, hall⟩ =>
        ⟨p, hp, forall_mem_cons.2 ⟨htext, hall⟩⟩
      obtain ⟨p, hp, cur, hcur, -, rfl⟩ := mem_nearPairs.1 hx
      rcases min_choice p cur with hmin | hmin
      · rw [hmin]
        exact hsub p hp
      · rw [hmin]
        exact hcur
    · obtain ⟨x, hx⟩ := exists_mem_of_ne_nil _ hne
      obtain ⟨p, hp, cur, hcur, hclose, -⟩ := mem_nearPairs.1 hx
      exact .inr ⟨positions, htext ▸ htoken, p, hsub p hp, cur, hcur, hclose⟩

/-- **Sufficiency.** -/
theorem NearExact.nearFold_iff (h : NearExact first rest distance) (idx : FtsIndex K) (key : K) :
    (nearFold distance idx key (first :: rest) (docRows idx key first).getLast?).isSome = true ↔
    NearMatches idx key (first :: rest) distance := by
  rw [nearMatches_iff]
  by_cases hmissing : ∃ e ∈ first :: rest, e.isPrefix = false ∧ tokenPositions idx key e.value = none
  · -- a text that the document does not have
    obtain ⟨e, he, hexact, hnone⟩ := hmissing
    rw [nearFold_of_docRows_nil he (by rw [docRows_exact idx key hexact, hnone]; rfl)]
    refine iff_of_false (by simp) ?_
    rintro ⟨low, hall⟩
    obtain ⟨p, hp, -⟩ := hall e he
    obtain ⟨positions, hpositions, -⟩ := (positionOf_iff hexact).1 hp
    exact absurd (hnone.symm.trans hpositions) (by simp)
  push Not at hmissing
  -- every text is that of an exact literal, and the document has it
  have hexact : ∀ l ∈ first :: rest, ∃ e ∈ first :: rest, e.isPrefix = false ∧ e.value = l.value := by
    intro l hl
    cases hpre : l.isPrefix with
    | false => exact ⟨l, hl, hpre, rfl⟩
    | true =>
      rcases mem_cons.1 hl with rfl | hl
      · exact absurd (h.first_exact.symm.trans hpre) (by simp)
      · exact h.twin l hl hpre
  have hread : ReadsTexts idx key (first :: rest) := by
    intro l hl
    obtain ⟨e, he, hexact, hvalue⟩ := hexact l hl
    obtain ⟨positions, hpositions⟩ := Option.ne_none_iff_exists'.1 (hmissing e he hexact)
    rw [hvalue] at hpositions
    cases hpre : l.isPrefix with
    | false => exact ⟨positions, [], hpositions, by rw [docRows_exact idx key hpre, hpositions]; rfl⟩
    | true =>
      obtain ⟨more, hmore⟩ := docRows_of_isPrefix hpre hpositions
      exact ⟨positions, more, hpositions, hmore⟩
  obtain ⟨as, -, has, -⟩ := hread first mem_cons_self
  have hfirst : docRows idx key first = [as] := by
    rw [docRows_exact idx key h.first_exact, has]
    rfl
  have hstart : (docRows idx key first).getLast? = some as := by
    rw [hfirst]
    rfl
  rw [hstart]
  constructor
  · intro hsome
    obtain ⟨final, hfinal⟩ := Option.isSome_iff_exists.1 hsome
    rcases h.texts with rfl | ⟨b, htexts⟩
    · obtain ⟨x, hx⟩ := exists_mem_of_ne_nil final (nearFold_ne_nil hfinal (cons_ne_nil _ _))
      exact ⟨x, fun l hl => ⟨x, (nearFold_zero hread hfinal x hx).2 l hl, le_rfl, Nat.le_add_right _ _⟩⟩
    · obtain ⟨positions, more, hrows, hne, hrest⟩ := nearFold_cons_eq_some.1 hfinal
      obtain ⟨rfl, -⟩ := List.cons.inj (hfirst.symm.trans hrows)
      have hsub : ∀ x ∈ nearPairs distance as as, x ∈ as := by
        intro x hx
        obtain ⟨p, hp, cur, hcur, -, rfl⟩ := mem_nearPairs.1 hx
        rcases min_choice p cur with hmin | hmin <;> rw [hmin] <;> assumption
      have hplace : ∀ {l : FtsLiteral} {p : Nat}, l.value = first.value → p ∈ as →
        PositionOf idx key l p :=
        fun hvalue hp => positionOf_of_mem (hvalue ▸ has) hp
      rcases nearFold_two (fun l hl => hread l (mem_cons_of_mem _ hl)) htexts has hne hsub hrest with
        ⟨p, hp, hall⟩ | ⟨bs, hbs, p, hp, q, hq, hclose⟩
      · refine ⟨p, forall_mem_cons.2 ⟨⟨p, hplace rfl hp, le_rfl, Nat.le_add_right _ _⟩, fun l hl => ?_⟩⟩
        exact ⟨p, hplace (hall l hl) hp, le_rfl, Nat.le_add_right _ _⟩
      · refine ⟨min p q, forall_mem_cons.2 ⟨⟨p, hplace rfl hp, by omega, by omega⟩, fun l hl => ?_⟩⟩
        rcases htexts l hl with hvalue | hvalue
        · exact ⟨p, hplace hvalue hp, by omega, by omega⟩
        · exact ⟨q, positionOf_of_mem (hvalue ▸ hbs) hq, by omega, by omega⟩
  · rintro ⟨low, hall⟩
    have hwindow : ∀ l ∈ first :: rest, ∀ positions, tokenPositions idx key l.value = some positions →
        ∃ p ∈ positions, low ≤ p ∧ p ≤ low + distance := by
      intro l hl positions hpositions
      obtain ⟨e, he, hexact, hvalue⟩ := hexact l hl
      obtain ⟨p, hp, hlow, hhigh⟩ := hall e he
      obtain ⟨positions', hpositions', hmem⟩ := (positionOf_iff hexact).1 hp
      rw [hvalue] at hpositions'
      obtain rfl := Option.some.inj (hpositions.symm.trans hpositions')
      exact ⟨p, hmem, hlow, hhigh⟩
    have hall : ∀ l ∈ first :: rest, ∃ positions more, docRows idx key l = positions :: more ∧
        ∃ p ∈ positions, low ≤ p ∧ p ≤ low + distance := by
      intro l hl
      obtain ⟨positions, more, hpositions, hrows⟩ := hread l hl
      exact ⟨positions, more, hrows, hwindow l hl positions hpositions⟩
    obtain ⟨final, hfinal⟩ := nearFold_of_window hall (hwindow first mem_cons_self as has)
    exact Option.isSome_iff_exists.2 ⟨final, hfinal⟩

/-! ### Queries that do not -/

def FtsIndex.ofTokens (key : K) (tokens : Finset (List Char)) (place : List Char → List Nat)
    (hbounded : ∀ token ∈ tokens, ∀ p ∈ place token, p < 2 ^ 32) : FtsIndex K where
  rows := (tokens.sort (· ≤ ·)).map fun token => ⟨token, key, place token⟩
  sorted := pairwise_map.2 ((Finset.sortedLT_sort tokens).pairwise.imp fun h => .inl h)
  bounded := by
    intro row hrow
    obtain ⟨token, htoken, rfl⟩ := mem_map.1 hrow
    exact hbounded token ((Finset.mem_sort _).1 htoken)

section OfTokens

variable {key : K} {tokens : Finset (List Char)} {place : List Char → List Nat}
  {hbounded : ∀ token ∈ tokens, ∀ p ∈ place token, p < 2 ^ 32}

omit [DecidableEq K] in
theorem FtsIndex.mem_ofTokens {row : TokenRow K} :
    row ∈ (ofTokens key tokens place hbounded).rows ↔ row.token ∈ tokens ∧
    row.key = key ∧ row.positions = place row.token := by
  simp only [ofTokens, mem_map, Finset.mem_sort]
  constructor
  · rintro ⟨token, htoken, rfl⟩
    exact ⟨htoken, rfl, rfl⟩
  · rintro ⟨htoken, rfl, hplace⟩
    exact ⟨row.token, htoken, by rw [← hplace]⟩

theorem tokenPositions_ofTokens (h : token ∈ tokens) :
    tokenPositions (ofTokens key tokens place hbounded) key token = some (place token) :=
  tokenPositions_eq_some.2 ⟨⟨token, key, place token⟩, mem_ofTokens.2 ⟨h, rfl, rfl⟩, rfl, rfl, rfl⟩

omit [DecidableEq K] in
theorem positionOf_ofTokens {l : FtsLiteral} {p : Nat} :
    PositionOf (ofTokens key tokens place hbounded) key l p ↔ ∃ token ∈ tokens, l.Asks token ∧
    p ∈ place token := by
  constructor
  · rintro ⟨row, hrow, -, hasks, hp⟩
    obtain ⟨htoken, -, hplace⟩ := mem_ofTokens.1 hrow
    exact ⟨row.token, htoken, hasks, hplace ▸ hp⟩
  · rintro ⟨token, htoken, hasks, hp⟩
    exact ⟨⟨token, key, place token⟩, mem_ofTokens.2 ⟨htoken, rfl, rfl⟩, rfl, hasks, hp⟩

theorem readsTexts_ofTokens {literals : List FtsLiteral} (h : ∀ l ∈ literals, l.value ∈ tokens) :
    ∀ l ∈ literals, ∃ more, docRows (ofTokens key tokens place hbounded) key l =
    place l.value :: more := by
  intro l hl
  have hpositions : tokenPositions (ofTokens key tokens place hbounded) key l.value =
    some (place l.value) :=
    tokenPositions_ofTokens (h l hl)
  cases hpre : l.isPrefix with
  | true => exact docRows_of_isPrefix hpre hpositions
  | false => exact ⟨[], by rw [docRows_exact _ _ hpre, hpositions]; rfl⟩

end OfTokens

/-- What the search is to return for a document: whether it matches. -/
def NearRight (idx : FtsIndex K) (key : K) (first : FtsLiteral) (rest : List FtsLiteral)
    (distance : Nat) : Prop :=
  (nearFold distance idx key (first :: rest) (docRows idx key first).getLast?).isSome = true ↔
    NearMatches idx key (first :: rest) distance

theorem nearPairs_far {kept positions : List Nat}
    (h : ∀ p ∈ kept, ∀ cur ∈ positions, distance < max p cur - min p cur) :
    nearPairs distance kept positions = [] := by
  refine eq_nil_iff_forall_not_mem.2 fun x hx => ?_
  obtain ⟨p, hp, cur, hcur, hclose, -⟩ := mem_nearPairs.1 hx
  exact absurd (h p hp cur hcur) (not_lt.2 hclose)

theorem FtsLiteral.inScan_append (h : l.inScan token = true) :
    l.inScan (token ++ ['a']) = true := by
  simp only [inScan, Bool.and_eq_true, decide_eq_true_eq] at h ⊢
  obtain ⟨hle, hlt⟩ := h
  obtain ⟨u, rfl⟩ := isPrefix_of_lt hle hlt
  refine ⟨not_lt_of_isPrefix ⟨u ++ ['a'], by rw [append_assoc]⟩, ?_⟩
  have hiff : ∀ (v u : List Char), v ++ u < v ++ [largestUtfChar] ↔ u < [largestUtfChar] := by
    intro v u
    induction v with
    | nil => rfl
    | cons c v ih => rw [cons_append, cons_append, cons_lt_cons_iff, ih]; simp
  rw [append_assoc, hiff]
  rw [hiff] at hlt
  cases u with
  | nil => decide
  | cons c u =>
    rcases cons_lt_cons_iff.1 hlt with hc | ⟨-, hnil⟩
    · exact cons_lt_cons_iff.2 (.inl hc)
    · exact absurd hnil (not_lt_nil _)

theorem getLast?_docRows (hl : l.isPrefix = true) {row : TokenRow K}
    (hrow : row ∈ idx.rows) (hkey : row.key = key) (hscan : l.inScan row.token = true)
    (hmax : ∀ other ∈ idx.rows, other.key = key → l.inScan other.token = true →
      other.token = row.token ∨ other.token < row.token) :
    (docRows idx key l).getLast? = some row.positions := by
  rw [docRows, ftsSearchLiteral_of_isPrefix idx hl, filter_comm, List.getLast?_map]
  set rows := (idx.rows.filter fun row => row.key = key).filter fun row => l.inScan row.token with hrows
  have hpairwise : rows.Pairwise fun a b => a.token < b.token := (idx.pairwise_doc key).filter _
  have hmem : row ∈ rows := mem_filter.2 ⟨mem_filter.2 ⟨hrow, decide_eq_true hkey⟩, hscan⟩
  have hne : rows ≠ [] := ne_nil_of_mem hmem
  rw [← dropLast_append_getLast hne] at hpairwise hmem
  rw [List.getLast?_eq_some_getLast hne]
  -- the last row is not after `row`, and all others are before the last one
  rcases mem_append.1 hmem with hbefore | hlast
  · have hlt : row.token < (rows.getLast hne).token :=
      (pairwise_append.1 hpairwise).2.2 row hbefore _ mem_cons_self
    obtain ⟨hin, hlastScan⟩ := mem_filter.1 (getLast_mem hne)
    obtain ⟨hin, hlastKey⟩ := mem_filter.1 hin
    rcases hmax _ hin (of_decide_eq_true hlastKey) hlastScan with heq | hgt
    · exact absurd hlt (heq ▸ lt_irrefl _)
    · exact absurd hlt (lt_asymm hgt)
  · rw [← mem_singleton.1 hlast]
    rfl

/-- **A first literal that is a prefix literal**: the search starts from the last of its tokens, and
goes on with the first one. In a document with one far behind the other it finds nothing. -/
theorem not_nearRight_of_isPrefix {rest : List FtsLiteral}
    (hbound : distance + 1 < 2 ^ 32) (hpre : first.isPrefix = true) :
    ∃ idx, ¬ NearRight idx key first rest distance := by
  set values : Finset (List Char) := ((first :: rest).map value).toFinset with hvalues
  -- the greatest token in the range of the scan, followed by one more character
  have hscan : first.inScan first.value = true := by simp [inScan, lt_append_singleton]
  have hmem : ∀ l ∈ first :: rest, l.value ∈ values := fun l hl => mem_toFinset.2 (mem_map_of_mem hl)
  obtain ⟨top, htop, hmax⟩ := (values.filter fun token => first.inScan token = true).exists_max_image id
    ⟨first.value, Finset.mem_filter.2 ⟨hmem first mem_cons_self, hscan⟩⟩
  obtain ⟨-, htopScan⟩ := Finset.mem_filter.1 htop
  set last := top ++ ['a'] with hlast
  have hnew : ∀ token ∈ values, first.inScan token = true → token < last := fun token htoken htokenScan =>
    lt_of_le_of_lt (hmax token (Finset.mem_filter.2 ⟨htoken, htokenScan⟩)) (lt_append_singleton top 'a')
  have hlastScan : first.inScan last = true := inScan_append htopScan
  have hvalueNe : ∀ l ∈ first :: rest, l.value ≠ last := by
    intro l hl heq
    exact lt_irrefl last (hnew last (heq ▸ hmem l hl) hlastScan)
  let place : List Char → List Nat := fun token => if token = last then [distance + 1] else [0]
  have hbounded : ∀ token ∈ insert last values, ∀ p ∈ place token, p < 2 ^ 32 := by
    intro token _ p hp
    simp only [place] at hp
    split at hp <;> simp only [mem_singleton] at hp <;> omega
  let idx := ofTokens key (insert last values) place hbounded
  refine ⟨idx, fun hright => ?_⟩
  have hplace : ∀ l ∈ first :: rest, place l.value = [0] := fun l hl => if_neg (hvalueNe l hl)
  -- every literal has a position at zero
  have hmatches : NearMatches idx key (first :: rest) distance := by
    refine nearMatches_iff.2 ⟨0, fun l hl => ⟨0, ?_, le_rfl, Nat.zero_le _⟩⟩
    exact positionOf_ofTokens.2 ⟨l.value, Finset.mem_insert_of_mem (hmem l hl),
      l.asks_self, by rw [hplace l hl]; simp⟩
  have hsome := hright.2 hmatches
  obtain ⟨final, hfinal⟩ := Option.isSome_iff_exists.1 hsome
  have hrow : (⟨last, key, place last⟩ : TokenRow K) ∈ idx.rows :=
    mem_ofTokens.2 ⟨Finset.mem_insert_self last values, rfl, rfl⟩
  rw [getLast?_docRows hpre hrow rfl hlastScan] at hfinal
  · obtain ⟨positions, more, hrows, hne, -⟩ := nearFold_cons_eq_some.1 hfinal
    have hreads : ∀ l ∈ first :: rest, ∃ more,
        docRows idx key l = place l.value :: more :=
      readsTexts_ofTokens fun l hl => Finset.mem_insert_of_mem (hmem l hl)
    obtain ⟨more', hrows'⟩ := hreads first mem_cons_self
    obtain ⟨rfl, -⟩ := List.cons.inj (hrows.symm.trans hrows')
    refine hne (nearPairs_far ?_)
    simp [hplace first mem_cons_self, place]
  · intro row hrow _ hrowScan
    rcases Finset.mem_insert.1 (mem_ofTokens.1 hrow).1 with heq | hvalue
    · exact .inl heq
    · exact .inr (hnew row.token hvalue hrowScan)

theorem nearFold_of_far {far : List Char}
    (hrows : ∀ l ∈ literals, ∃ more,
      docRows idx key l = (if l.value = far then [distance + 1] else [0]) :: more)
    (hfar : ∃ l ∈ literals, l.value = far) {kept : List Nat} (hkept : ∀ p ∈ kept, p = 0) :
    nearFold distance idx key literals (some kept) = none := by
  induction literals generalizing kept with
  | nil => simp at hfar
  | cons l literals ih =>
    obtain ⟨⟨more, hmore⟩, hrest⟩ := forall_mem_cons.1 hrows
    refine Option.eq_none_iff_forall_ne_some.2 fun final hfinal => ?_
    obtain ⟨positions, more', hrows', hne, hfold⟩ := nearFold_cons_eq_some.1 hfinal
    obtain ⟨rfl, -⟩ := List.cons.inj (hrows'.symm.trans hmore)
    by_cases hvalue : l.value = far
    · refine hne (nearPairs_far fun p hp cur hcur => ?_)
      rw [if_pos hvalue, mem_singleton] at hcur
      rw [hkept p hp, hcur]
      simp
    · rw [if_neg hvalue] at hfold
      obtain ⟨l', hl', hvalue'⟩ := hfar
      have hlater : ∃ l ∈ literals, l.value = far :=
        ⟨l', (mem_cons.1 hl').resolve_left fun heq => hvalue (heq ▸ hvalue'), hvalue'⟩
      have hkept' : ∀ x ∈ nearPairs distance kept [0], x = 0 := by
        intro x hx
        obtain ⟨p, hp, cur, hcur, -, rfl⟩ := mem_nearPairs.1 hx
        rw [hkept p hp, mem_singleton.1 hcur, Nat.min_self]
      exact absurd ((ih hrest hlater hkept').symm.trans hfold) (by simp)

/-- **A prefix literal with no exact one beside it**: only the first of its tokens is read. In a
document in which this one is far away and the second one is near, the search finds nothing. -/
theorem not_nearRight_of_no_twin {first w : FtsLiteral} (hbound : distance + 1 < 2 ^ 32)
    (hfirst : first.isPrefix = false) (hw : w ∈ rest)
    (htwin : ∀ e ∈ first :: rest, e.isPrefix = false → e.value ≠ w.value) :
    ∃ idx, ¬ NearRight idx key first rest distance := by
  set values : Finset (List Char) := ((first :: rest).map value).toFinset with hvalues
  have hmem : ∀ l ∈ first :: rest, l.value ∈ values := fun l hl => mem_toFinset.2 (mem_map_of_mem hl)
  set second := w.value ++ ['a'] with hsecond
  let place : List Char → List Nat := fun token => if token = w.value then [distance + 1] else [0]
  have hbounded : ∀ token ∈ insert second values, ∀ p ∈ place token, p < 2 ^ 32 := by
    intro token _ p hp
    simp only [place] at hp
    split at hp <;> simp only [mem_singleton] at hp <;> omega
  let idx := ofTokens key (insert second values) place hbounded
  refine ⟨idx, fun hright => ?_⟩
  have hmatches : NearMatches idx key (first :: rest) distance := by
    refine nearMatches_iff.2 ⟨0, fun l hl => ⟨0, positionOf_ofTokens.2 ?_, le_rfl, Nat.zero_le _⟩⟩
    by_cases hvalue : l.value = w.value
    · have hpre : l.isPrefix = true := by
        by_contra hexact
        exact htwin l hl (by simpa using hexact) hvalue
      refine ⟨second, Finset.mem_insert_self _ _, ?_, ?_⟩
      · rw [Asks, if_pos hpre, hvalue]
        exact prefix_append _ _
      · have hne : second ≠ w.value := (lt_append_singleton w.value 'a').ne'
        simp [place, hne]
    · exact ⟨l.value, Finset.mem_insert_of_mem (hmem l hl), l.asks_self, by simp [place, hvalue]⟩
  have hrows : ∀ l ∈ first :: rest, ∃ more,
      docRows idx key l = place l.value :: more :=
    readsTexts_ofTokens fun l hl => Finset.mem_insert_of_mem (hmem l hl)
  have hstart : (docRows idx key first).getLast? = some [0] := by
    rw [docRows_exact _ _ hfirst,
      tokenPositions_ofTokens (Finset.mem_insert_of_mem (hmem first mem_cons_self))]
    simp [place, htwin first mem_cons_self hfirst]
  have hsome := hright.2 hmatches
  rw [hstart, nearFold_of_far hrows ⟨w, mem_cons_of_mem _ hw, rfl⟩ (by simp)] at hsome
  cases hsome

theorem nearFold_of_descent {top : Nat}
    (hrows : ∀ i l, literals[i]? = some l →
      ∃ positions more, docRows idx key l = positions :: more ∧ (top - i) * distance ∈ positions)
    {kept : List Nat} (hp : p ∈ kept) (hle : top * distance ≤ p)
    (hclose : p ≤ top * distance + distance) :
    ∃ final, nearFold distance idx key literals (some kept) = some final := by
  induction literals generalizing kept p top with
  | nil => exact ⟨kept, rfl⟩
  | cons l literals ih =>
    obtain ⟨positions, more, hmore, hcur⟩ := hrows 0 l rfl
    rw [Nat.sub_zero] at hcur
    have hmem : top * distance ∈ nearPairs distance kept positions :=
      mem_nearPairs.2 ⟨p, hp, _, hcur, by omega, by omega⟩
    have hnext : (top - 1) * distance ≤ top * distance := Nat.mul_le_mul_right _ (Nat.sub_le _ _)
    have hlast : top * distance ≤ (top - 1) * distance + distance := by
      rw [← Nat.succ_mul]
      exact Nat.mul_le_mul_right _ (by omega)
    obtain ⟨final, hfinal⟩ := ih (fun i l' hl' => by
      obtain ⟨positions', more', hmore', hmem'⟩ := hrows (i + 1) l' hl'
      exact ⟨positions', more', hmore', by rwa [Nat.sub_sub, Nat.add_comm 1 i]⟩) hmem hnext hlast
    exact ⟨final, nearFold_cons_eq_some.2 ⟨positions, more, hmore, ne_nil_of_mem hmem, hfinal⟩⟩

theorem le_succ_of_window {d low x y : Nat} (hd : d ≠ 0) (hx : x * d ≤ low + d)
    (hy : low ≤ y * d) : x ≤ y + 1 := by
  by_contra hlt
  have : (y + 2) * d ≤ x * d := Nat.mul_le_mul_right _ (by omega)
  rw [Nat.add_mul] at this
  omega

/-- **Three texts**: in a document with the literals at descending positions, each `distance` below
the one before it, all of them are found, though no window holds three of them. -/
theorem not_nearRight_of_three {rest : List FtsLiteral}
    (hbound : (first :: rest).length * distance < 2 ^ 32) (hdistance : distance ≠ 0)
    (hfirst : first.isPrefix = false)
    (hexact : ∀ l ∈ rest, ∃ e ∈ first :: rest, e.isPrefix = false ∧ e.value = l.value)
    (hthree : ∀ b, ∃ l ∈ rest, l.value ≠ first.value ∧ l.value ≠ b) :
    ∃ idx, ¬ NearRight idx key first rest distance := by
  set literals := first :: rest with hliterals
  set values : Finset (List Char) := (literals.map value).toFinset with hvalues
  have hmem : ∀ l ∈ literals, l.value ∈ values := fun l hl => mem_toFinset.2 (mem_map_of_mem hl)
  let place : List Char → List Nat := fun token =>
    ((List.range literals.length).filter fun i => literals[i]?.map value = some token).map
      fun i => (literals.length - i) * distance
  have hplace : ∀ {token p}, p ∈ place token ↔
      ∃ i l, literals[i]? = some l ∧ l.value = token ∧ p = (literals.length - i) * distance := by
    intro token p
    simp only [place, mem_map, mem_filter, mem_range, decide_eq_true_eq, Option.map_eq_some_iff]
    constructor
    · rintro ⟨i, ⟨-, l, hl, hvalue⟩, rfl⟩
      exact ⟨i, l, hl, hvalue, rfl⟩
    · rintro ⟨i, l, hl, hvalue, rfl⟩
      exact ⟨i, ⟨(List.getElem?_eq_some_iff.1 hl).1, l, hl, hvalue⟩, rfl⟩
  have hbounded : ∀ token ∈ values, ∀ p ∈ place token, p < 2 ^ 32 := by
    intro token _ p hp
    obtain ⟨i, l, -, -, rfl⟩ := hplace.1 hp
    exact lt_of_le_of_lt (Nat.mul_le_mul_right _ (Nat.sub_le _ _)) hbound
  refine ⟨ofTokens key values place hbounded, fun hright => ?_⟩
  have hrows : ∀ l ∈ literals, ∃ more,
    docRows (ofTokens key values place hbounded) key l = place l.value :: more :=
    readsTexts_ofTokens hmem
  -- the search succeeds
  have hstart : (docRows (ofTokens key values place hbounded) key first).getLast? =
    some (place first.value) := by
    rw [docRows_exact _ _ hfirst, tokenPositions_ofTokens (hmem first mem_cons_self)]
    rfl
  have hdescent : ∀ i l, literals[i]? = some l → ∃ positions more,
      docRows (ofTokens key values place hbounded) key l = positions :: more ∧
        (literals.length - i) * distance ∈ positions := by
    intro i l hl
    obtain ⟨more, hmore⟩ := hrows l (mem_of_getElem? hl)
    exact ⟨_, more, hmore, hplace.2 ⟨i, l, hl, rfl, rfl⟩⟩
  obtain ⟨final, hfinal⟩ := nearFold_of_descent hdescent
    (hplace.2 ⟨0, first, rfl, rfl, rfl⟩ : _ ∈ place first.value) le_rfl
    (Nat.le_add_right _ _)
  obtain ⟨low, hwindow⟩ := nearMatches_iff.1 (hright.1 (by rw [hstart, hfinal]; rfl))
  -- each text has an index whose position is in the window
  have hindex : ∀ l ∈ literals, ∃ i l', literals[i]? = some l' ∧ l'.value = l.value ∧
      low ≤ (literals.length - i) * distance ∧ (literals.length - i) * distance ≤ low + distance := by
    intro l hl
    obtain ⟨e, he, hexact, hvalue⟩ : ∃ e ∈ literals, e.isPrefix = false ∧ e.value = l.value := by
      rcases mem_cons.1 hl with rfl | hl
      · exact ⟨l, mem_cons_self, hfirst, rfl⟩
      · exact hexact l hl
    obtain ⟨p, hp, hlow, hhigh⟩ := hwindow e he
    obtain ⟨token, -, hasks, hin⟩ := positionOf_ofTokens.1 hp
    obtain rfl : token = e.value := by simpa [Asks, hexact] using hasks
    obtain ⟨i, l', hl', hvalue', rfl⟩ := hplace.1 hin
    exact ⟨i, l', hl', hvalue'.trans hvalue, hlow, hhigh⟩
  obtain ⟨b, hb, hba, -⟩ := hthree first.value
  obtain ⟨c, hc, hca, hcb⟩ := hthree b.value
  obtain ⟨i, la, hi, hla, hilow, hihigh⟩ := hindex first mem_cons_self
  obtain ⟨j, lb, hj, hlb, hjlow, hjhigh⟩ := hindex b (mem_cons_of_mem _ hb)
  obtain ⟨k, lc, hk, hlc, hklow, hkhigh⟩ := hindex c (mem_cons_of_mem _ hc)
  have hij : i ≠ j := by
    rintro rfl
    obtain rfl := Option.some.inj (hi.symm.trans hj)
    exact hba (hlb.symm.trans hla)
  have hik : i ≠ k := by
    rintro rfl
    obtain rfl := Option.some.inj (hi.symm.trans hk)
    exact hca (hlc.symm.trans hla)
  have hjk : j ≠ k := by
    rintro rfl
    obtain rfl := Option.some.inj (hj.symm.trans hk)
    exact hcb (hlc.symm.trans hlb)
  have hilt := (List.getElem?_eq_some_iff.1 hi).1
  have hjlt := (List.getElem?_eq_some_iff.1 hj).1
  have hklt := (List.getElem?_eq_some_iff.1 hk).1
  have h₁ := le_succ_of_window hdistance hihigh hjlow
  have h₂ := le_succ_of_window hdistance hihigh hklow
  have h₃ := le_succ_of_window hdistance hjhigh hilow
  have h₄ := le_succ_of_window hdistance hjhigh hklow
  have h₅ := le_succ_of_window hdistance hkhigh hilow
  have h₆ := le_succ_of_window hdistance hkhigh hjlow
  omega

theorem NearExact.nearRight {distance : Nat} (h : NearExact first rest distance)
    (idx : FtsIndex K) (key : K) : NearRight idx key first rest distance := h.nearFold_iff idx key

/-- **Necessity.** -/
theorem NearExact.of_nearRight {rest : List FtsLiteral}
    (hfits : (first :: rest).length * (distance + 1) < 2 ^ 32)
    (h : ∀ idx, NearRight idx key first rest distance) : NearExact first rest distance := by
  have hlength : 1 ≤ (first :: rest).length := by simp
  have hnext : distance + 1 < 2 ^ 32 := lt_of_le_of_lt (Nat.le_mul_of_pos_left _ hlength) hfits
  have hfirst : first.isPrefix = false := by
    by_contra hpre
    obtain ⟨idx, hwrong⟩ : ∃ idx, ¬ NearRight idx key first rest distance :=
      not_nearRight_of_isPrefix hnext (by simpa using hpre)
    exact hwrong (h idx)
  have htwin : ∀ l ∈ rest, l.isPrefix = true → ∃ e ∈ first :: rest, e.isPrefix = false ∧
    e.value = l.value := by
    intro w hw _
    by_contra hnone
    obtain ⟨idx, hwrong⟩ : ∃ idx, ¬ NearRight idx key first rest distance :=
      not_nearRight_of_no_twin hnext hfirst hw
      fun e he hexact hvalue => hnone ⟨e, he, hexact, hvalue⟩
    exact hwrong (h idx)
  refine ⟨hfirst, htwin, ?_⟩
  by_contra hmany
  push Not at hmany
  have hexact : ∀ l ∈ rest, ∃ e ∈ first :: rest, e.isPrefix = false ∧ e.value = l.value := by
    intro l hl
    cases hpre : l.isPrefix with
    | true => exact htwin l hl hpre
    | false => exact ⟨l, mem_cons_of_mem _ hl, hpre, rfl⟩
  have hbound : (first :: rest).length * distance < 2 ^ 32 :=
    lt_of_le_of_lt (Nat.mul_le_mul_left _ (Nat.le_succ _)) hfits
  obtain ⟨idx, hwrong⟩ : ∃ idx, ¬ NearRight idx key first rest distance :=
    not_nearRight_of_three hbound hmany.1 hfirst hexact hmany.2
  exact hwrong (h idx)

end Document

/-! ### The result -/

def NearFinds [Ord K] [TransOrd K] (idx : FtsIndex K) (near : FtsNear) (key : K) : Prop :=
  ∃ coll, ftsSearchNear idx near = .ok coll ∧ key ∈ coll

section Result

variable [Ord K] [TransOrd K] [LawfulEqOrd K]

theorem nearFinds_iff [DecidableEq K] (idx : FtsIndex K) (first : FtsLiteral)
    (rest : List FtsLiteral) (distance : Nat) (key : K) :
    NearFinds idx ⟨first :: rest, distance⟩ key ↔
    (nearFold distance idx key (first :: rest) (docRows idx key first).getLast?).isSome = true := by
  obtain ⟨coll, hcoll, hkey⟩ := getElem?_ftsSearchNear idx first rest distance key
  constructor
  · rintro ⟨coll', hcoll', hmem⟩
    obtain rfl := Except.ok.inj (hcoll.symm.trans hcoll')
    rw [nearFold, ← hkey]
    exact ExtTreeMap.mem_iff_isSome_getElem?.1 hmem
  · intro hsome
    rw [nearFold, ← hkey] at hsome
    exact ⟨coll, hcoll, ExtTreeMap.mem_iff_isSome_getElem?.2 hsome⟩

/-- **The queries for which the search is right**: for a query of this form a document is found iff
it matches, whatever the index has, and for two orders of the literals that are both of this form
the same documents are found; and no other query, of a size that fits into positions of 32 bits, is
answered right for every index. -/
theorem near_exact_iff (first : FtsLiteral) (rest : List FtsLiteral) (distance : Nat)
    (key : K) : (NearExact first rest distance →
      (∀ idx, NearFinds idx ⟨first :: rest, distance⟩ key ↔
      NearMatches idx key (first :: rest) distance) ∧
      ∀ first' rest', (first :: rest).Perm (first' :: rest') → NearExact first' rest' distance →
        ∀ idx, NearFinds idx ⟨first :: rest, distance⟩ key ↔
        NearFinds idx ⟨first' :: rest', distance⟩ key) ∧
    ((first :: rest).length * (distance + 1) < 2 ^ 32 →
      (∀ idx, NearFinds idx ⟨first :: rest, distance⟩ key ↔
      NearMatches idx key (first :: rest) distance) → NearExact first rest distance) := by
  classical
  have hright : ∀ {first rest}, NearExact first rest distance → ∀ idx : FtsIndex K,
      NearFinds idx ⟨first :: rest, distance⟩ key ↔ NearMatches idx key (first :: rest) distance :=
    fun h idx => (nearFinds_iff idx _ _ distance key).trans (h.nearRight idx key)
  refine ⟨fun h => ⟨hright h, fun first' rest' hperm h' idx => ?_⟩, fun hfits h => ?_⟩
  · rw [hright h, hright h']
    exact ⟨.perm hperm, .perm hperm.symm⟩
  · exact .of_nearRight hfits fun idx => (nearFinds_iff idx _ _ distance key).symm.trans (h idx)

end Result

/-! ### Three literals -/

/-- One document: `a` at 2, `b` at 4, `c` at 0. -/
def spreadIndex : FtsIndex Nat where
  rows := [⟨['a'], 0, [2]⟩, ⟨['b'], 0, [4]⟩, ⟨['c'], 0, [0]⟩]
  sorted := by decide
  bounded := by simp

def exactLiteral (c : Char) : FtsLiteral := ⟨[c], false, F64.ofInt64 1⟩

theorem near_exact_two_literals : NearExact (exactLiteral 'a') [exactLiteral 'b'] 2 ∧
    (NearFinds spreadIndex ⟨[exactLiteral 'a', exactLiteral 'b'], 2⟩ 0 ↔
      NearMatches spreadIndex 0 [exactLiteral 'a', exactLiteral 'b'] 2) := by
  have h : NearExact (exactLiteral 'a') [exactLiteral 'b'] 2 :=
    ⟨rfl, by simp [exactLiteral], .inr ⟨['b'], by simp [exactLiteral]⟩⟩
  exact ⟨h, ((near_exact_iff (exactLiteral 'a') [exactLiteral 'b'] 2 0).1 h).1 spreadIndex⟩

/-- `NEAR/2(a, b, c)` finds the document, in which `b` and `c` are 4 apart; `NEAR/2(b, c, a)` does
not. -/
theorem near_three_literals : NearFinds spreadIndex
    ⟨[exactLiteral 'a', exactLiteral 'b', exactLiteral 'c'], 2⟩ 0 ∧
    ¬ NearMatches spreadIndex 0 [exactLiteral 'a', exactLiteral 'b', exactLiteral 'c'] 2 ∧
    ¬ NearFinds spreadIndex ⟨[exactLiteral 'b', exactLiteral 'c', exactLiteral 'a'], 2⟩ 0 := by
  refine ⟨?_, ?_, ?_⟩
  · rw [nearFinds_iff]
    decide
  · rw [nearMatches_iff]
    rintro ⟨low, hall⟩
    obtain ⟨p, ⟨row, hrow, -, hasks, hp⟩, -, hhigh⟩ := hall (exactLiteral 'b') (by simp)
    obtain ⟨q, ⟨row', hrow', -, hasks', hq⟩, hlow, -⟩ := hall (exactLiteral 'c') (by simp)
    simp only [spreadIndex, mem_cons, not_mem_nil, or_false] at hrow hrow'
    rcases hrow with rfl | rfl | rfl <;> rcases hrow' with rfl | rfl | rfl <;>
      simp_all [Asks, exactLiteral]
  · rw [nearFinds_iff]
    decide

end Retia.Fts
