import Mathlib.Data.List.Basic
import Retia.Lib.Except
import Retia.Data.Json

/-!
# Indexing

`data/functions.rs`: the operators that take indices, `slice`, `slice_string`, `get` and `maybe_get`
on lists and on JSON values, and the operators on paths of JSON values. Every function treats its
indices in its own way. Lists count negative indices from the end (`getIndex`); a string refuses
them; for JSON an index is cast to an unsigned integer, so that a negative one is beyond every
array.

Two things are asked of a call (`IndexCall.Sound`): it returns a value or reports an error, it does
not panic; and an index that is negative and within the length means the same as counted from the
end.

* `IndexCall.fromEnd` — the call with its negative indices counted from the end;
* `indexCall_sound_iff` — a call is sound exactly under this condition: always for `get` and
  `maybe_get` on lists, for `slice` unless the first index comes after the second, for strings and
  JSON only without negative indices that count, and for setting and removing only if the indices on
  the way are neither negative nor too large.
-/

namespace Retia

open List

/-! ### The operators -/

def outOfBound (i : Int) : OpError := .bail s!"index {i} out of bound"

/-- `get_index`. -/
def getIndex (i : Int64) (total : Nat) (isUpper : Bool) : Except OpError Nat :=
  let i := if i.toInt < 0 then i.toInt + total else i.toInt
  if 0 ≤ i then
    if (total : Int) < i || (!isUpper && i == total) then .error (outOfBound i) else .ok i.toNat
  else .error (outOfBound i)

/-- `op_slice` on a list. The range `m..n` of a slice panics if it is decreasing. -/
def opSlice (l : List Value) (m n : Int64) : Except OpError Value := do
  let m ← getIndex m l.length false
  let n ← getIndex n l.length true
  if m ≤ n then return .list ((l.drop m).take (n - m)) else throw (.panic .indexOutOfBounds)

/-- The characters of a string in UTF-8: a byte that is not `10xxxxxx` begins one. -/
def chars (s : Bytes) : List Bytes :=
  (s.foldr (fun b (acc : Bytes × List Bytes) =>
    if b &&& 0xC0 = 0x80 then (b :: acc.1, acc.2) else ([], (b :: acc.1) :: acc.2)) ([], [])).2

/-- `op_slice_string`. -/
def opSliceString (s : Bytes) (m n : Int64) : Except OpError Value :=
  if m.toInt < 0 then .error (.bail "second argument to 'slice_string' mut be a positive integer")
  else if n.toInt < m.toInt then
    .error (.bail "third argument to 'slice_string' mut be a positive integer greater than the second argument")
  else .ok (.str (((chars s).drop m.toInt.toNat).take (n.toInt - m.toInt).toNat).flatten)

/-- `json2val`. -/
def json2val (J : JsonText) : JsonValue → Value
  | .null => .null
  | .bool b => .bool b
  | .number (.posInt n) =>
    if n.toNat < 2 ^ 63 then .num (.int (Int64.ofNat n.toNat))
      else .num (.float (F64.ofMag false (natRound n.toNat)))
  | .number (.negInt i) => .num (.int i)
  | .number (.float f) => .num (.float f)
  | .string s => .str s
  | .array arr => .json (J.print (.array arr))
  | .object obj => .json (J.print (.object obj))

/-- `Value::get` with an index. -/
def jsonIndex : JsonValue → Nat → Option JsonValue
  | .array arr, i => arr[i]?
  | _, _ => none

/-- `get_impl` on a list. -/
def getList (l : List Value) (i : Int64) : Except OpError Value := do
  let idx ← getIndex i l.length false
  match l[idx]? with
  | some v => return v
  | none => throw (.panic .indexOutOfBounds)

/-- `get_impl` on a JSON value with an index. -/
def getJson (J : JsonText) (j : JsonValue) (i : Int64) : Except OpError Value :=
  match jsonIndex j (asUsize i) with
  | some v => .ok (json2val J v)
  | none => .error (.bail s!"index '{i.toInt}' not found in json")

/-- `get_impl` on a JSON value with a path. -/
def getJsonPath (J : JsonText) (j : JsonValue) (path : List Value) : Except OpError Value :=
  (getJsonPathImmutable J j path).map (json2val J)

/-- `op_maybe_get`: errors become null. A panic is not an error. -/
def maybeNull : Except OpError Value → Except OpError Value
  | .error (.bail _) => .ok .null
  | r => r

inductive IndexCall where
  | slice (l : List Value) (m n : Int64)
  | sliceString (s : Bytes) (m n : Int64)
  | get (l : List Value) (i : Int64)
  | maybeGet (l : List Value) (i : Int64)
  | jsonGet (j : JsonValue) (i : Int64)
  | jsonMaybeGet (j : JsonValue) (i : Int64)
  | pathGet (j : JsonValue) (path : List Value)
  | pathMaybeGet (j : JsonValue) (path : List Value)
  | pathSet (j : JsonValue) (path : List Value) (v : JsonValue)
  | pathRemove (j : JsonValue) (path : List Value)

open IndexCall

def IndexCall.run (J : JsonText) (M : Machine) : IndexCall → Except OpError Value
  | slice l m n => opSlice l m n
  | sliceString s m n => opSliceString s m n
  | get l i => getList l i
  | maybeGet l i => maybeNull (getList l i)
  | jsonGet j i => getJson J j i
  | jsonMaybeGet j i => maybeNull (getJson J j i)
  | pathGet j path => getJsonPath J j path
  | pathMaybeGet j path => maybeNull (getJsonPath J j path)
  | pathSet j path v => (opSetJsonPath J M j (.list path) v).map fun r => .json (J.print r)
  | pathRemove j path => (opRemoveJsonPath J M j (.list path)).map fun r => .json (J.print r)

/-! ### Counting from the end -/

/-- An index that is negative and within the length. -/
def CountsBack (len : Nat) (i : Int64) : Prop := i.toInt < 0 ∧ 0 ≤ i.toInt + len

instance (len : Nat) (i : Int64) : Decidable (CountsBack len i) :=
  inferInstanceAs (Decidable (_ ∧ _))

def fromEnd (len : Nat) (i : Int64) : Int64 :=
  if CountsBack len i then Int64.ofInt (i.toInt + len) else i

def keyFromEnd (len : Nat) (key : Value) : Value :=
  match key.getInt with
  | some i => if CountsBack len i then .num (.int (fromEnd len i)) else key
  | none => key

def jsonLen : JsonValue → Nat
  | .array arr => arr.length
  | _ => 0

def pathFromEnd (J : JsonText) : JsonValue → List Value → List Value
  | _, [] => []
  | .object obj, key :: path =>
    key :: match obj.lookup (val2str J key) with
      | some entry => pathFromEnd J entry path
      | none => path
  | .array arr, key :: path =>
    keyFromEnd arr.length key :: match (keyFromEnd arr.length key).getInt.bind fun i =>
      arr[asUsize i]? with
      | some val => pathFromEnd J val path
      | none => path
  | _, key :: path => key :: path

namespace IndexCall

def fromEnd (J : JsonText) : IndexCall → IndexCall
  | slice l m n => slice l (Retia.fromEnd l.length m) (Retia.fromEnd l.length n)
  | sliceString s m n => sliceString s (Retia.fromEnd (chars s).length m)
    (Retia.fromEnd (chars s).length n)
  | get l i => get l (Retia.fromEnd l.length i)
  | maybeGet l i => maybeGet l (Retia.fromEnd l.length i)
  | jsonGet j i => jsonGet j (Retia.fromEnd (jsonLen j) i)
  | jsonMaybeGet j i => jsonMaybeGet j (Retia.fromEnd (jsonLen j) i)
  | pathGet j path => pathGet j (pathFromEnd J j path)
  | pathMaybeGet j path => pathMaybeGet j (pathFromEnd J j path)
  | pathSet j path v => pathSet j (pathFromEnd J j path) v
  | pathRemove j path => pathRemove j (pathFromEnd J j path)

end IndexCall

def Reports {α : Type} (r : Except OpError α) : Prop :=
  (∃ v, r = .ok v) ∨ ∃ msg, r = .error (.bail msg)

/-- **What is asked of a call**: no panic, and negative indices count from the end. -/
structure IndexCall.Sound (J : JsonText) (M : Machine) (c : IndexCall) : Prop where
  reports : Reports (c.run J M)
  from_end : SameOutcome (c.run J M) ((c.fromEnd J).run J M)

/-! ### The conditions -/

/-- Every array of the value is one that can be allocated. -/
inductive JsonValue.Fits (limit : Nat) : JsonValue → Prop where
  | null : Fits limit .null
  | bool (b : Bool) : Fits limit (.bool b)
  | number (n : JsonNumber) : Fits limit (.number n)
  | string (s : Bytes) : Fits limit (.string s)
  | array {arr : List JsonValue} (hlength : arr.length ≤ limit) (h : ∀ v ∈ arr, Fits limit v) :
    Fits limit (.array arr)
  | object {obj : List (Bytes × JsonValue)} (h : ∀ field ∈ obj, Fits limit field.2) :
    Fits limit (.object obj)

/-- An index to write at: not negative, and the array can be made long enough for it. -/
def WritableIndex (limit len : Nat) (i : Int64) : Prop :=
  0 ≤ i.toInt ∧ (i.toInt + 1 < len ∨ i.toInt + 1 ≤ limit)

/-- The indices on the way of a path that is written, and what is asked of the place it leads to. -/
def SafePath (J : JsonText) (limit : Nat) (atEnd : JsonValue → Prop) : JsonValue → List Value → Prop
  | j, [] => atEnd j
  | .object obj, key :: path =>
    SafePath J limit atEnd ((obj.lookup (val2str J key)).getD (.object [])) path
  | .array arr, key :: path =>
    ∀ i, key.getInt = some i → WritableIndex limit arr.length i ∧
      SafePath J limit atEnd (arr.getD (asUsize i) .null) path
  | _, _ :: _ => True

/-- The key can be removed: in an array it is the index of an element. -/
def Removable (last : Value) : JsonValue → Prop
  | .array arr => ∀ i, last.getInt = some i → 0 ≤ i.toInt ∧ i.toInt < arr.length
  | _ => True

namespace IndexCall

def Fits (limit : Nat) : IndexCall → Prop
  | slice l _ _ | get l _ | maybeGet l _ => l.length ≤ limit
  | sliceString s _ _ => (chars s).length ≤ limit
  | jsonGet j _ | jsonMaybeGet j _ | pathGet j _ | pathMaybeGet j _ | pathSet
    j _ _ | pathRemove j _ => j.Fits limit

def Allowed (J : JsonText) (M : Machine) : IndexCall → Prop
  | slice l m n => ∀ m' n', getIndex m l.length false = .ok m' →
    getIndex n l.length true = .ok n' → m' ≤ n'
  | sliceString s m n =>
    ¬ CountsBack (chars s).length m ∧ ¬ CountsBack (chars s).length n ∨
      (Retia.fromEnd (chars s).length m).toInt < 0 ∨
      (Retia.fromEnd (chars s).length n).toInt < (Retia.fromEnd (chars s).length m).toInt
  | get _ _ | maybeGet _ _ => True
  | jsonGet j i => ¬ CountsBack (jsonLen j) i
  | jsonMaybeGet j i =>
    CountsBack (jsonLen j) i → ∀ v, jsonIndex j (asUsize (Retia.fromEnd (jsonLen j) i)) = some v →
      json2val J v = .null
  | pathGet j path =>
    pathFromEnd J j path = path ∨ ∀ w, getJsonPathImmutable J j (pathFromEnd J j path) ≠ .ok w
  | pathMaybeGet j path =>
    pathFromEnd J j path = path ∨ ∀ w, getJsonPathImmutable J j (pathFromEnd J j path) = .ok w →
      json2val J w = .null
  | pathSet j path _ => SafePath J M.limit (fun _ => True) j path
  | pathRemove j path => ∀ last, path.getLast? = some last →
    SafePath J M.limit (Removable last) j path.dropLast

end IndexCall

/-! ### Indices -/

variable {len : Nat}

theorem toInt_fromEnd (hlen : len < 2 ^ 63) {i : Int64} (h : CountsBack len i) :
    (fromEnd len i).toInt = i.toInt + len := by
  obtain ⟨hneg, hpos⟩ := h
  rw [fromEnd, if_pos ⟨hneg, hpos⟩]
  exact Int64.toInt_ofInt_of_le (by omega) (by omega)

theorem fromEnd_of_not {i : Int64} (h : ¬ CountsBack len i) : fromEnd len i = i := by
  rw [fromEnd, if_neg h]

theorem getIndex_fromEnd (hlen : len < 2 ^ 63) (i : Int64) (isUpper : Bool) :
    getIndex (fromEnd len i) len isUpper = getIndex i len isUpper := by
  by_cases h : CountsBack len i
  · have hvalue := toInt_fromEnd hlen h
    rw [getIndex, getIndex, hvalue, if_neg (not_lt.2 h.2), if_pos h.1]
  · rw [fromEnd_of_not h]

theorem getIndex_cases (i : Int64) (total : Nat) (isUpper : Bool) :
    (∃ idx, getIndex i total isUpper = .ok idx ∧ idx ≤ total ∧ (isUpper = false → idx ≠ total)) ∨
      ∃ msg, getIndex i total isUpper = .error (.bail msg) := by
  simp only [getIndex]
  generalize (if i.toInt < 0 then i.toInt + (total : Int) else i.toInt) = k
  by_cases hk : 0 ≤ k
  · rw [if_pos hk]
    split
    · exact .inr ⟨_, rfl⟩
    · rename_i hin
      simp only [Bool.or_eq_true, Bool.and_eq_true, decide_eq_true_eq, beq_iff_eq,
        not_or, Bool.not_eq_true', not_and] at hin
      refine .inl ⟨k.toNat, rfl, by omega, fun hupper => ?_⟩
      have := hin.2 hupper
      omega
  · rw [if_neg hk]
    exact .inr ⟨_, rfl⟩

theorem getIndex_lt {i : Int64} {total idx : Nat} (h : getIndex i total false = .ok idx) :
    idx < total := by
  obtain ⟨idx', h', hle, hne⟩ | ⟨msg, h'⟩ := getIndex_cases i total false
  · cases h'.symm.trans h
    exact lt_of_le_of_ne hle (hne rfl)
  · cases h'.symm.trans h

variable {α : Type}

theorem getElem?_asUsize_of_neg {l : List α} {i : Int64} (hlen : l.length < 2 ^ 63)
    (hneg : i.toInt < 0) : l[asUsize i]? = none := by
  have hlow := i.le_toInt
  have hvalue : i.toInt % 2 ^ 64 = i.toInt + 2 ^ 64 := by omega
  rw [List.getElem?_eq_none_iff, asUsize, hvalue]
  omega

theorem asUsize_of_nonneg {i : Int64} (h : 0 ≤ i.toInt) : asUsize i = i.toInt.toNat := by
  have hhigh := i.toInt_lt
  rw [asUsize]
  congr 1
  omega

/-! ### Lists and strings -/

theorem SameOutcome.of_eq {x y : Except OpError α} (h : x = y) :
    SameOutcome x y := fun _ => by rw [h]

theorem Reports.map {β : Type} {r : Except OpError α} (f : α → β) (h : Reports r) :
    Reports (r.map f) := by
  rcases h with ⟨v, rfl⟩ | ⟨msg, rfl⟩
  · exact .inl ⟨f v, rfl⟩
  · exact .inr ⟨msg, rfl⟩

theorem reports_map_iff {β : Type} {r : Except OpError α} (f : α → β) :
    Reports (r.map f) ↔ Reports r := by
  cases r with
  | ok v => exact ⟨fun _ => .inl ⟨v, rfl⟩, fun _ => .inl ⟨f v, rfl⟩⟩
  | error e => simp [Reports, Except.map]

theorem Reports.maybeNull {r : Except OpError Value} (h : Reports r) : Reports (maybeNull r) := by
  rcases h with ⟨v, rfl⟩ | ⟨msg, rfl⟩
  · exact .inl ⟨v, rfl⟩
  · exact .inl ⟨.null, rfl⟩

theorem reports_getList (l : List Value) (i : Int64) : Reports (getList l i) := by
  unfold getList
  obtain ⟨idx, hidx, -⟩ | ⟨msg, hmsg⟩ := getIndex_cases i l.length false
  · have hlt := getIndex_lt hidx
    rw [hidx]
    simp only [bind, Except.bind, List.getElem?_eq_getElem hlt]
    exact .inl ⟨_, rfl⟩
  · rw [hmsg]
    exact .inr ⟨msg, rfl⟩

theorem getList_fromEnd {l : List Value} (hlen : l.length < 2 ^ 63) (i : Int64) :
    getList l (fromEnd l.length i) = getList l i := by
  rw [getList, getList, getIndex_fromEnd hlen]

theorem opSlice_fromEnd {l : List Value} (hlen : l.length < 2 ^ 63) (m n : Int64) :
    opSlice l (fromEnd l.length m) (fromEnd l.length n) = opSlice l m n := by
  rw [opSlice, opSlice, getIndex_fromEnd hlen, getIndex_fromEnd hlen]

/-- A slice panics exactly if both indices are good and the first comes after the second. -/
theorem reports_opSlice_iff (l : List Value) (m n : Int64) : Reports (opSlice l m n) ↔
      ∀ m' n', getIndex m l.length false = .ok m' → getIndex n l.length true = .ok n' →
      m' ≤ n' := by
  unfold opSlice
  obtain ⟨m', hm, -⟩ | ⟨msg, hm⟩ := getIndex_cases m l.length false
  · obtain ⟨n', hn, -⟩ | ⟨msg, hn⟩ := getIndex_cases n l.length true
    · simp only [hm, hn, bind, Except.bind]
      by_cases hle : m' ≤ n'
      · rw [if_pos hle]
        refine ⟨fun _ a b ha hb => ?_, fun _ => .inl ⟨_, rfl⟩⟩
        cases ha
        cases hb
        exact hle
      · rw [if_neg hle]
        refine ⟨fun h => ?_, fun h => absurd (h m' n' rfl rfl) hle⟩
        rcases h with ⟨_, h⟩ | ⟨_, h⟩ <;> cases h
    · simp only [hm, hn, bind, Except.bind]
      exact ⟨fun _ _ _ _ h => (by cases h), fun _ => .inr ⟨msg, rfl⟩⟩
  · simp only [hm, bind, Except.bind]
    exact ⟨fun _ _ _ h => (by cases h), fun _ => .inr ⟨msg, rfl⟩⟩

theorem reports_opSliceString (s : Bytes) (m n : Int64) : Reports (opSliceString s m n) := by
  unfold opSliceString
  split
  · exact .inr ⟨_, rfl⟩
  · split
    · exact .inr ⟨_, rfl⟩
    · exact .inl ⟨_, rfl⟩

theorem opSliceString_fails_iff (s : Bytes) (m n : Int64) :
    (∀ v, opSliceString s m n ≠ .ok v) ↔ m.toInt < 0 ∨ n.toInt < m.toInt := by
  unfold opSliceString
  by_cases hm : m.toInt < 0
  · simp [hm]
  · by_cases hn : n.toInt < m.toInt
    · simp [hm, hn]
    · simp [hm, hn]

theorem sameOutcome_of_fails {x y : Except OpError α} (hx : ∀ v, x ≠ .ok v) :
    SameOutcome x y ↔ ∀ v, y ≠ .ok v :=
  ⟨fun h v hv => hx v ((h v).2 hv), fun hy v => ⟨fun h => absurd h (hx v), fun h => absurd h (hy v)⟩⟩

theorem sameOutcome_opSliceString_iff (s : Bytes) (m n : Int64) : SameOutcome (opSliceString s m n)
        (opSliceString s (fromEnd (chars s).length m) (fromEnd (chars s).length n)) ↔
      ¬ CountsBack (chars s).length m ∧ ¬ CountsBack (chars s).length n ∨
      (fromEnd (chars s).length m).toInt < 0 ∨
        (fromEnd (chars s).length n).toInt < (fromEnd (chars s).length m).toInt := by
  by_cases hnot : ¬ CountsBack (chars s).length m ∧ ¬ CountsBack (chars s).length n
  · rw [fromEnd_of_not hnot.1, fromEnd_of_not hnot.2]
    exact ⟨fun _ => .inl hnot, fun _ => .of_eq rfl⟩
  · rw [← opSliceString_fails_iff s, or_iff_right hnot]
    by_cases hm : CountsBack (chars s).length m
    · exact sameOutcome_of_fails ((opSliceString_fails_iff s m n).2 (.inl hm.1))
    · -- the second index is negative, so it is refused or comes before the first
      have hn : CountsBack (chars s).length n := by
        by_contra hn
        exact hnot ⟨hm, hn⟩
      refine sameOutcome_of_fails ((opSliceString_fails_iff s m n).2 ?_)
      have := hn.1
      omega

/-! ### Indices and paths of JSON values -/

theorem reports_getJson (J : JsonText) (j : JsonValue) (i : Int64) : Reports (getJson J j i) := by
  unfold getJson
  split
  · exact .inl ⟨_, rfl⟩
  · exact .inr ⟨_, rfl⟩

variable {j : JsonValue}

theorem getJson_of_countsBack {J : JsonText} {limit : Nat} (hlimit : limit < 2 ^ 63)
    (hfits : j.Fits limit) {i : Int64} (h : CountsBack (jsonLen j) i) :
    (∃ msg, getJson J j i = .error (.bail msg)) ∧
      ∃ v, jsonIndex j (asUsize (fromEnd (jsonLen j) i)) = some v ∧
      getJson J j (fromEnd (jsonLen j) i) = .ok (json2val J v) := by
  cases hfits with
  | @array arr hlength _ =>
    have hlen : arr.length < 2 ^ 63 := lt_of_le_of_lt hlength hlimit
    have hnone : jsonIndex (.array arr) (asUsize i) = none := getElem?_asUsize_of_neg hlen h.1
    have hvalue : (fromEnd (jsonLen (.array arr)) i).toInt = i.toInt + arr.length := toInt_fromEnd hlen h
    have hidx : asUsize (fromEnd (jsonLen (.array arr)) i) < arr.length := by
      have hback : i.toInt < 0 ∧ 0 ≤ i.toInt + arr.length := h
      rw [asUsize_of_nonneg (by omega), hvalue]
      omega
    obtain ⟨v, hv⟩ : ∃ v, jsonIndex (.array arr) (asUsize (fromEnd (jsonLen (.array arr)) i)) = some v :=
      ⟨_, List.getElem?_eq_getElem hidx⟩
    exact ⟨⟨_, by rw [getJson, hnone]⟩, v, hv, by rw [getJson, hv]⟩
  | null | bool _ | number _ | string _ | object _ =>
    exact absurd h (by simp only [CountsBack, jsonLen]; omega)

theorem reports_getJsonPathImmutable (J : JsonText) :
    ∀ (j : JsonValue) (path : List Value), Reports (getJsonPathImmutable J j path)
  | j, [] => .inl ⟨j, by rw [getJsonPathImmutable]⟩
  | .object obj, key :: path => by
    rw [getJsonPathImmutable]
    split
    · exact reports_getJsonPathImmutable J _ path
    · exact .inr ⟨_, rfl⟩
  | .array arr, key :: path => by
    rw [getJsonPathImmutable]
    split
    · exact .inr ⟨_, rfl⟩
    · split
      · exact reports_getJsonPathImmutable J _ path
      · exact .inr ⟨_, rfl⟩
  | .null, _ :: _ | .bool _, _ :: _ | .number _, _ :: _ | .string _, _ :: _ => .inr ⟨_, rfl⟩

theorem keyFromEnd_of_nonneg {key : Value} (h : ∀ i, key.getInt = some i → 0 ≤ i.toInt) :
    keyFromEnd len key = key := by
  unfold keyFromEnd
  split
  · rename_i i hi
    have := h i hi
    rw [if_neg (by simp only [CountsBack]; omega)]
  · rfl

theorem JsonValue.Fits.entry {limit : Nat} {obj : List (Bytes × JsonValue)}
    (h : (JsonValue.object obj).Fits limit)
    {key : Bytes} {entry : JsonValue} (hentry : obj.lookup key = some entry) :
    entry.Fits limit := by
  cases h with
  | object h =>
    obtain ⟨l₁, l₂, rfl, -⟩ := lookup_eq_some_iff.1 hentry
    exact h (key, entry) (by simp)

variable {arr : List JsonValue}

theorem JsonValue.Fits.element {limit : Nat} (h : (JsonValue.array arr).Fits limit)
    {i : Nat} {val : JsonValue} (hval : arr[i]? = some val) : val.Fits limit := by
  cases h with
  | array _ h => exact h val (mem_of_getElem? hval)

theorem JsonValue.Fits.length_le {limit : Nat} (h : (JsonValue.array arr).Fits limit) :
    arr.length ≤ limit := by
  cases h with
  | array h _ => exact h

theorem pathFromEnd_of_get {J : JsonText} {limit : Nat} (hlimit : limit < 2 ^ 63) :
    ∀ {path : List Value}
    {j w : JsonValue}, j.Fits limit → getJsonPathImmutable J j path = .ok w →
    pathFromEnd J j path = path
  | [], j, _, _, _ => by cases j <;> rfl
  | key :: path, .object obj, w, hfits, h => by
    rw [getJsonPathImmutable] at h
    rw [pathFromEnd]
    cases hentry : obj.lookup (val2str J key) with
    | some entry =>
      rw [hentry] at h
      exact congrArg (key :: ·) (pathFromEnd_of_get hlimit (hfits.entry hentry) h)
    | none => simp [hentry] at h
  | key :: path, .array arr, w, hfits, h => by
    rw [getJsonPathImmutable] at h
    split at h
    · cases h
    · rename_i i hi
      split at h
      · rename_i val hval
        have hnonneg : 0 ≤ i.toInt := by
          by_contra hneg
          rw [getElem?_asUsize_of_neg (lt_of_le_of_lt hfits.length_le hlimit) (not_le.1 hneg)] at hval
          cases hval
        have hkey : keyFromEnd arr.length key = key := by
          refine keyFromEnd_of_nonneg fun i' hi' => ?_
          cases hi.symm.trans hi'
          exact hnonneg
        rw [pathFromEnd, hkey, hi, Option.bind_some, hval]
        exact congrArg (key :: ·) (pathFromEnd_of_get hlimit (hfits.element hval) h)
      · cases h
  | _ :: _, .null, _, _, h => by cases h
  | _ :: _, .bool _, _, _, h => by cases h
  | _ :: _, .number _, _, _, h => by cases h
  | _ :: _, .string _, _, _, h => by cases h

/-! ### Writing -/

theorem padArray_of_addUsize {M : Machine} {key : Nat} (hadd : addUsize M key 1 = .ok len)
    (arr : List JsonValue) : padArray M arr key = if arr.length ≤ len then
      if len ≤ M.limit then .ok (arr ++ List.replicate (len - arr.length) .null)
      else .error .overflow else .ok arr := by
  rw [padArray, hadd]
  rfl

theorem padArray_of_writable {M : Machine} {i : Int64} (h : WritableIndex M.limit arr.length i) :
    ∃ padded, padArray M arr (asUsize i) = .ok padded ∧
      padded[asUsize i]? = some (arr.getD (asUsize i) .null) := by
  have hhigh := i.toInt_lt
  obtain ⟨hnonneg, hin⟩ := h
  have hidx := asUsize_of_nonneg hnonneg
  have hadd : addUsize M (asUsize i) 1 = .ok (asUsize i + 1) := by rw [addUsize, if_pos (by omega)]
  rw [padArray_of_addUsize hadd, getD_eq_getElem?_getD]
  by_cases hpad : arr.length ≤ asUsize i + 1
  · have hfit : asUsize i + 1 ≤ M.limit := by omega
    rw [if_pos hpad, if_pos hfit]
    refine ⟨_, rfl, ?_⟩
    by_cases hin : asUsize i < arr.length
    · rw [List.getElem?_append_left hin, List.getElem?_eq_getElem hin, Option.getD_some]
    · rw [List.getElem?_append_right (not_lt.1 hin), List.getElem?_eq_none (not_lt.1 hin),
        Option.getD_none, List.getElem?_replicate, if_pos (by omega)]
  · have hin : asUsize i < arr.length := by omega
    rw [if_neg hpad]
    exact ⟨arr, rfl, by rw [List.getElem?_eq_getElem hin, Option.getD_some]⟩

theorem padArray_of_not_writable {M : Machine} (hlength : arr.length ≤ M.limit) {i : Int64}
    (h : ¬ WritableIndex M.limit arr.length i) : padArray M arr (asUsize i) = .error .overflow ∨
      ∃ padded, padArray M arr (asUsize i) = .ok padded ∧ padded[asUsize i]? = none := by
  have hlimit := M.limit_lt
  have hhigh := i.toInt_lt
  by_cases hnonneg : 0 ≤ i.toInt
  · -- too large
    have hidx := asUsize_of_nonneg hnonneg
    have hadd : addUsize M (asUsize i) 1 = .ok (asUsize i + 1) := by rw [addUsize, if_pos (by omega)]
    have hbig : ¬ (i.toInt + 1 < arr.length ∨ i.toInt + 1 ≤ M.limit) := fun hor => h ⟨hnonneg, hor⟩
    rw [padArray_of_addUsize hadd, if_pos (by omega), if_neg (by omega)]
    exact .inl rfl
  · -- a negative index is huge: adding one overflows, or it is beyond what can be allocated
    have hneg := not_le.1 hnonneg
    have hlow := i.le_toInt
    have hidx : asUsize i = (i.toInt + 2 ^ 64).toNat := by
      rw [asUsize]
      congr 1
      omega
    by_cases hlast : i.toInt = -1
    · by_cases hchecks : M.checks = true
      · rw [padArray, addUsize, if_neg (by omega), if_pos hchecks]
        exact .inl rfl
      · have hadd : addUsize M (asUsize i) 1 = .ok 0 := by
          rw [addUsize, if_neg (by omega), if_neg hchecks]
          congr 1
          omega
        rw [padArray_of_addUsize hadd]
        split
        · rw [if_pos (Nat.zero_le _)]
          refine .inr ⟨_, rfl, getElem?_asUsize_of_neg ?_ hneg⟩
          rw [length_append, length_replicate]
          omega
        · exact .inr ⟨arr, rfl, getElem?_asUsize_of_neg (by omega) hneg⟩
    · have hadd : addUsize M (asUsize i) 1 = .ok (asUsize i + 1) := by rw [addUsize, if_pos (by omega)]
      rw [padArray_of_addUsize hadd, if_pos (by omega), if_neg (by omega)]
      exact .inl rfl

/-- **When writing panics.** A write along a path reports exactly if the indices on the way can be
written and the write at the end reports. -/
theorem reports_updateJsonPath_iff {J : JsonText} {M : Machine}
    {write : JsonValue → Except OpError JsonValue}
    {atEnd : JsonValue → Prop} (hend : ∀ j, j.Fits M.limit → (Reports (write j) ↔ atEnd j)) :
    ∀ (path : List Value) {j : JsonValue}, j.Fits M.limit →
    (Reports (updateJsonPath J M write j path) ↔ SafePath J M.limit atEnd j path)
  | [], j, hfits => by
    rw [updateJsonPath, SafePath, hend j hfits]
  | key :: path, .object obj, hfits => by
    have hentry : ((obj.lookup (val2str J key)).getD (.object [])).Fits M.limit := by
      cases h : obj.lookup (val2str J key) with
      | none => exact .object (by simp)
      | some entry => exact hfits.entry h
    rw [SafePath, ← reports_updateJsonPath_iff hend path hentry, updateJsonPath]
    exact reports_map_iff _
  | key :: path, .array arr, hfits => by
    rw [SafePath, updateJsonPath]
    cases hi : key.getInt with
    | none => exact ⟨fun _ _ h => (by cases h), fun _ => .inr ⟨_, rfl⟩⟩
    | some i =>
      by_cases hwritable : WritableIndex M.limit arr.length i
      · obtain ⟨padded, hpadded, hval⟩ := padArray_of_writable hwritable
        have helement : (arr.getD (asUsize i) .null).Fits M.limit := by
          rw [getD_eq_getElem?_getD]
          cases h : arr[asUsize i]? with
          | none => exact .null
          | some val => exact hfits.element h
        have ih := reports_updateJsonPath_iff (J := J) hend path helement
        simp only [hpadded, hval, bind, Except.bind]
        refine Iff.trans (reports_map_iff fun val => JsonValue.array (padded.set (asUsize i) val))
          (ih.trans ?_)
        refine ⟨fun h i' hi' => ?_, fun h => (h i rfl).2⟩
        cases hi'
        exact ⟨hwritable, h⟩
      · -- the index cannot be written
        refine ⟨fun h => ?_, fun h => absurd (h i rfl).1 hwritable⟩
        obtain hover | ⟨padded, hpadded, hnone⟩ := padArray_of_not_writable hfits.length_le hwritable
        · simp only [hover, bind, Except.bind] at h
          rcases h with ⟨_, h⟩ | ⟨_, h⟩ <;> cases h
        · simp only [hpadded, hnone, bind, Except.bind] at h
          rcases h with ⟨_, h⟩ | ⟨_, h⟩ <;> cases h
  | _ :: _, .null, _ | _ :: _, .bool _, _ | _ :: _, .number _, _
  | _ :: _, .string _, _ => ⟨fun _ => trivial, fun _ => .inr ⟨_, rfl⟩⟩

theorem reports_removeKey_iff {J : JsonText} {M : Machine} (last : Value)
    (j : JsonValue) (hfits : j.Fits M.limit) :
    Reports (removeKey J last j) ↔ Removable last j := by
  cases j with
  | array arr =>
    rw [removeKey, Removable]
    cases hi : last.getInt with
    | none => exact ⟨fun _ _ h => (by cases h), fun _ => .inr ⟨_, rfl⟩⟩
    | some i =>
      have hlen : arr.length < 2 ^ 63 := lt_of_le_of_lt hfits.length_le M.limit_lt
      have hiff : asUsize i < arr.length ↔ 0 ≤ i.toInt ∧ i.toInt < arr.length := by
        by_cases hnonneg : 0 ≤ i.toInt
        · rw [asUsize_of_nonneg hnonneg]
          omega
        · have hnone := List.getElem?_eq_none_iff.1 (getElem?_asUsize_of_neg hlen (not_le.1 hnonneg))
          exact ⟨fun h => absurd h (not_lt.2 hnone), fun h => absurd h.1 hnonneg⟩
      by_cases hidx : asUsize i < arr.length
      · simp only [if_pos hidx]
        refine ⟨fun _ i' hi' => ?_, fun _ => .inl ⟨_, rfl⟩⟩
        cases hi'
        exact hiff.1 hidx
      · simp only [if_neg hidx]
        refine ⟨fun h => ?_, fun h => absurd (hiff.2 (h i rfl)) hidx⟩
        rcases h with ⟨_, h⟩ | ⟨_, h⟩ <;> cases h
  | object obj => exact ⟨fun _ => trivial, fun _ => .inl ⟨_, rfl⟩⟩
  | null | bool _ | number _ | string _ => exact ⟨fun _ => trivial, fun _ => .inr ⟨_, rfl⟩⟩

theorem pathFromEnd_of_safePath {J : JsonText} {limit : Nat} {atEnd : JsonValue → Prop}
    {tail : List Value}
    (hend : ∀ j, atEnd j → pathFromEnd J j tail = tail) : ∀ (path : List Value) {j : JsonValue},
    SafePath J limit atEnd j path → pathFromEnd J j (path ++ tail) = path ++ tail
  | [], j, h => by
    rw [SafePath] at h
    exact hend j h
  | key :: path, .object obj, h => by
    rw [SafePath] at h
    rw [cons_append, pathFromEnd]
    cases hentry : obj.lookup (val2str J key) with
    | none => rfl
    | some entry =>
      rw [hentry] at h
      exact congrArg (key :: ·) (pathFromEnd_of_safePath hend path h)
  | key :: path, .array arr, h => by
    rw [SafePath] at h
    have hkey : keyFromEnd arr.length key = key := keyFromEnd_of_nonneg fun i hi => (h i hi).1.1
    rw [cons_append, pathFromEnd, hkey]
    cases hi : key.getInt with
    | none => rfl
    | some i =>
      have hsafe := (h i hi).2
      rw [Option.bind_some]
      cases hval : arr[asUsize i]? with
      | none => rfl
      | some val =>
        rw [getD_eq_getElem?_getD, hval] at hsafe
        exact congrArg (key :: ·) (pathFromEnd_of_safePath hend path hsafe)
  | _ :: _, .null, _ => rfl
  | _ :: _, .bool _, _ => rfl
  | _ :: _, .number _, _ => rfl
  | _ :: _, .string _, _ => rfl

theorem pathFromEnd_of_removable {J : JsonText} {last : Value} (h : Removable last j) :
    pathFromEnd J j [last] = [last] := by
  cases j with
  | array arr =>
    have hkey : keyFromEnd arr.length last = last := keyFromEnd_of_nonneg fun i hi => (h i hi).1
    rw [pathFromEnd, hkey]
    cases last.getInt.bind fun i => arr[asUsize i]? with
    | none => rfl
    | some val => cases val <;> rfl
  | object obj =>
    rw [pathFromEnd]
    cases obj.lookup (val2str J last) with
    | none => rfl
    | some val => cases val <;> rfl
  | null => rfl
  | bool _ => rfl
  | number _ => rfl
  | string _ => rfl

/-! ### Sound calls -/

theorem getJsonPath_eq_ok_iff {J : JsonText} {path : List Value} {v : Value} :
    getJsonPath J j path = .ok v ↔ ∃ w, getJsonPathImmutable J j path = .ok w ∧
    json2val J w = v := by
  rw [getJsonPath]
  cases getJsonPathImmutable J j path with
  | error e | ok w => simp [Except.map]

section Sound

variable {J : JsonText} {M : Machine}

theorem sound_jsonGet_iff (hfits : j.Fits M.limit) (i : Int64) :
    (IndexCall.jsonGet j i).Sound J M ↔ ¬ CountsBack (jsonLen j) i := by
  constructor
  · rintro ⟨-, hsame⟩ hback
    obtain ⟨⟨msg, hmsg⟩, v, -, hv⟩ := getJson_of_countsBack (J := J) M.limit_lt hfits hback
    have := (hsame _).2 hv
    rw [IndexCall.run, hmsg] at this
    cases this
  · intro hback
    refine ⟨reports_getJson J j i, .of_eq ?_⟩
    rw [IndexCall.fromEnd, fromEnd_of_not hback]

theorem sound_jsonMaybeGet_iff (hfits : j.Fits M.limit) (i : Int64) :
    (IndexCall.jsonMaybeGet j i).Sound J M ↔ (CountsBack (jsonLen j) i →
      ∀ v, jsonIndex j (asUsize (fromEnd (jsonLen j) i)) = some v → json2val J v = .null) := by
  by_cases hback : CountsBack (jsonLen j) i
  · obtain ⟨⟨msg, hmsg⟩, v, hidx, hv⟩ := getJson_of_countsBack (J := J) M.limit_lt hfits hback
    have hrun : (IndexCall.jsonMaybeGet j i).run J M = .ok .null := by rw [IndexCall.run, hmsg, maybeNull]
    have hrun' : ((IndexCall.jsonMaybeGet j i).fromEnd J).run J M = .ok (json2val J v) := by
      rw [IndexCall.fromEnd, IndexCall.run, hv]
      rfl
    constructor
    · rintro ⟨-, hsame⟩ - w hw
      cases hidx.symm.trans hw
      rw [hrun, hrun'] at hsame
      exact (Except.ok.inj ((hsame .null).1 rfl))
    · intro h
      refine ⟨.inl ⟨_, hrun⟩, .of_eq ?_⟩
      rw [hrun, hrun', h hback v hidx]
  · refine ⟨fun _ h => absurd h hback, fun _ => ⟨(reports_getJson J j i).maybeNull, .of_eq ?_⟩⟩
    rw [IndexCall.fromEnd, fromEnd_of_not hback]

theorem sound_pathGet_iff (hfits : j.Fits M.limit) (path : List Value) :
    (IndexCall.pathGet j path).Sound J M ↔
      (pathFromEnd J j path = path ∨
      ∀ w, getJsonPathImmutable J j (pathFromEnd J j path) ≠ .ok w) := by
  have hreports : Reports (getJsonPath J j path) := (reports_getJsonPathImmutable J j path).map _
  constructor
  · rintro ⟨-, hsame⟩
    by_contra hnot
    push Not at hnot
    obtain ⟨hne, w, hw⟩ := hnot
    -- then the path itself can be read, so nothing counts back
    obtain ⟨w', hw', -⟩ := getJsonPath_eq_ok_iff.1
      ((hsame (json2val J w)).2 (getJsonPath_eq_ok_iff.2 ⟨w, hw, rfl⟩))
    exact hne (pathFromEnd_of_get M.limit_lt hfits hw')
  · rintro (heq | hfails)
    · exact ⟨hreports, .of_eq (by rw [IndexCall.fromEnd, heq])⟩
    · refine ⟨hreports, (sameOutcome_of_fails fun v hv => ?_).2 fun v hv => ?_⟩
      · obtain ⟨w, hw, -⟩ := getJsonPath_eq_ok_iff.1 hv
        rw [pathFromEnd_of_get M.limit_lt hfits hw] at hfails
        exact hfails w hw
      · obtain ⟨w, hw, -⟩ := getJsonPath_eq_ok_iff.1 hv
        exact hfails w hw

theorem sound_pathMaybeGet_iff (hfits : j.Fits M.limit) (path : List Value) :
    (IndexCall.pathMaybeGet j path).Sound J M ↔ (pathFromEnd J j path = path ∨
      ∀ w, getJsonPathImmutable J j (pathFromEnd J j path) = .ok w → json2val J w = .null) := by
  have hreports : ∀ p, Reports (getJsonPath J j p) := fun p => (reports_getJsonPathImmutable J j p).map _
  by_cases heq : pathFromEnd J j path = path
  · refine ⟨fun _ => .inl heq, fun _ => ⟨(hreports path).maybeNull, .of_eq ?_⟩⟩
    rw [IndexCall.fromEnd, heq]
  · -- the path cannot be read as it is
    have hnull : maybeNull (getJsonPath J j path) = .ok .null := by
      rcases hreports path with ⟨v, hv⟩ | ⟨msg, hmsg⟩
      · obtain ⟨w, hw, -⟩ := getJsonPath_eq_ok_iff.1 hv
        exact absurd (pathFromEnd_of_get M.limit_lt hfits hw) heq
      · rw [hmsg, maybeNull]
    rw [or_iff_right heq]
    constructor
    · rintro ⟨-, hsame⟩ w hw
      have hread : ((IndexCall.pathMaybeGet j path).fromEnd J).run J M = .ok (json2val J w) := by
        rw [IndexCall.fromEnd, IndexCall.run, getJsonPath_eq_ok_iff.2 ⟨w, hw, rfl⟩]
        rfl
      have := (hsame (json2val J w)).2 hread
      rw [IndexCall.run, hnull] at this
      exact (Except.ok.inj this).symm
    · intro h
      refine ⟨.inl ⟨_, hnull⟩, .of_eq ?_⟩
      rw [IndexCall.fromEnd, IndexCall.run, IndexCall.run, hnull]
      rcases hreports (pathFromEnd J j path) with ⟨v, hv⟩ | ⟨msg, hmsg⟩
      · obtain ⟨w, hw, rfl⟩ := getJsonPath_eq_ok_iff.1 hv
        rw [hv, h w hw]
        rfl
      · rw [hmsg, maybeNull]

theorem sound_pathSet_iff (hfits : j.Fits M.limit) (path : List Value) (v : JsonValue) :
    (IndexCall.pathSet j path v).Sound J M ↔ SafePath J M.limit (fun _ => True) j path := by
  have hreports : Reports ((IndexCall.pathSet j path v).run J M) ↔
    SafePath J M.limit (fun _ => True) j path :=
    (reports_map_iff _).trans (reports_updateJsonPath_iff
      (fun _ _ => ⟨fun _ => trivial, fun _ => .inl ⟨v, rfl⟩⟩) path hfits)
  refine ⟨fun h => hreports.1 h.reports, fun h => ⟨hreports.2 h, .of_eq ?_⟩⟩
  have hsame : pathFromEnd J j (path ++ []) = path ++ [] :=
    pathFromEnd_of_safePath (fun j _ => by cases j <;> rfl) path h
  rw [append_nil] at hsame
  rw [IndexCall.fromEnd, hsame]

theorem sound_pathRemove_iff (hfits : j.Fits M.limit) (path : List Value) :
    (IndexCall.pathRemove j path).Sound J M ↔
      ∀ last, path.getLast? = some last → SafePath J M.limit (Removable last) j path.dropLast := by
  cases hlast : path.getLast? with
  | none =>
    obtain rfl := List.getLast?_eq_none_iff.1 hlast
    have hnil : pathFromEnd J j [] = [] := by cases j <;> rfl
    refine ⟨fun _ _ h => (by cases h), fun _ => ⟨.inr ⟨_, rfl⟩, .of_eq ?_⟩⟩
    rw [IndexCall.fromEnd, hnil]
  | some last =>
    have hrun : opRemoveJsonPath J M j (.list path) =
      updateJsonPath J M (removeKey J last) j path.dropLast := by
      simp only [opRemoveJsonPath, DataValue.getSlice, hlast]
    have hreports : Reports ((IndexCall.pathRemove j path).run J M) ↔
        SafePath J M.limit (Removable last) j path.dropLast := by
      rw [IndexCall.run, hrun]
      exact (reports_map_iff _).trans (reports_updateJsonPath_iff (reports_removeKey_iff last) _ hfits)
    constructor
    · rintro h _ hl
      cases hl
      exact hreports.1 h.reports
    · intro h
      have hsafe := h last rfl
      have hpath : path.dropLast ++ [last] = path := dropLast_append_getLast? last hlast
      have hsame := pathFromEnd_of_safePath
        (fun j hj => pathFromEnd_of_removable (J := J) hj) path.dropLast hsafe
      rw [hpath] at hsame
      exact ⟨hreports.2 hsafe, .of_eq (by rw [IndexCall.fromEnd, hsame])⟩

end Sound

/-- **Indexing.** A call on sequences that fit the machine does not panic and counts negative
indices from the end exactly if it is `Allowed`. -/
theorem indexCall_sound_iff (J : JsonText) (M : Machine) (c : IndexCall)
    (hfits : c.Fits M.limit) : c.Sound J M ↔ c.Allowed J M := by
  have hlimit := M.limit_lt
  cases c with
  | slice l m n =>
    have hlen : l.length < 2 ^ 63 := lt_of_le_of_lt hfits hlimit
    rw [Allowed, ← reports_opSlice_iff]
    exact ⟨fun h => h.reports, fun h => ⟨h, .of_eq (opSlice_fromEnd hlen m n).symm⟩⟩
  | sliceString s m n =>
    rw [Allowed, ← sameOutcome_opSliceString_iff]
    exact ⟨fun h => h.from_end, fun h => ⟨reports_opSliceString s m n, h⟩⟩
  | get l i =>
    have hlen : l.length < 2 ^ 63 := lt_of_le_of_lt hfits hlimit
    exact ⟨fun _ => trivial, fun _ => ⟨reports_getList l i, .of_eq (getList_fromEnd hlen i).symm⟩⟩
  | maybeGet l i =>
    have hlen : l.length < 2 ^ 63 := lt_of_le_of_lt hfits hlimit
    exact ⟨fun _ => trivial, fun _ =>
      ⟨(reports_getList l i).maybeNull, .of_eq (congrArg maybeNull (getList_fromEnd hlen i).symm)⟩⟩
  | jsonGet j i => exact sound_jsonGet_iff hfits i
  | jsonMaybeGet j i => exact sound_jsonMaybeGet_iff hfits i
  | pathGet j path => exact sound_pathGet_iff hfits path
  | pathMaybeGet j path => exact sound_pathMaybeGet_iff hfits path
  | pathSet j path v => exact sound_pathSet_iff hfits path v
  | pathRemove j path => exact sound_pathRemove_iff hfits path

/-- The list `[1, 2, 3]`. -/
def threeNumbers : List Value := [.num (.int 1), .num (.int 2), .num (.int 3)]

theorem sound_slice_threeNumbers : (slice threeNumbers 1 (-1)).Sound oneText smallMachine := by
  have hfits : threeNumbers.length ≤ smallMachine.limit := by decide
  refine (indexCall_sound_iff oneText smallMachine (.slice threeNumbers 1 (-1)) hfits).2
    fun m' n' hm hn => ?_
  have hm' : getIndex 1 threeNumbers.length false = .ok 1 := rfl
  have hn' : getIndex (-1) threeNumbers.length true = .ok 2 := rfl
  cases hm'.symm.trans hm
  cases hn'.symm.trans hn
  decide

/-- `slice([1, 2, 3], 2, 1)` panics; so does removing the first element of an empty array, and
`get(json([1]), -1)` is an error although `get([1], -1)` is not. -/
theorem index_panics : (slice threeNumbers 2 1).run oneText smallMachine =
    .error (.panic .indexOutOfBounds) ∧
    (pathRemove (.array []) [.num (.int 0)]).run oneText smallMachine =
    .error (.panic .indexOutOfBounds) ∧
    (jsonGet (.array [.null]) (-1)).run oneText smallMachine =
    .error (.bail "index '-1' not found in json") ∧
    (get [.null] (-1)).run oneText smallMachine = .ok .null :=
  ⟨rfl, rfl, rfl, rfl⟩

end Retia
