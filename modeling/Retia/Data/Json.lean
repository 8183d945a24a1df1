import Mathlib
import Retia.Lib.Except
import Retia.Data.Functions
import Retia.Data.Memcmp

/-!
# Paths in JSON values

`data/functions.rs`: reading, setting and removing the value at a path of a JSON value. A path is a
list of values; in an object a key stands for its text (`val2str`), in an array for an index.
Setting creates what is missing on the way: empty objects for fields, and nulls up to an index.

The functions are modelled on trees. Where the source converts its arguments with `to_json` and
wraps its result into a value again, the arguments and the result here are the trees; the text of a
value that is used as a key is a parameter. A pointer into a tree that is written through becomes a
function that is applied at the place (`updateJsonPath`).

* `get_updateJsonPath` — what is read at the place that was written;
* `get_updateJsonPath_of_diverges` — everything that does not lie on the way is as before;
* `set_get_json_path` — the two laws for `set_json_path`.

Whether two paths lead to the same place depends on the tree: `1` and `"1"` are the same field of an
object. So the second law is for paths that part at some object or array of the tree (`Diverges`).
-/

namespace Retia

/-! ### JSON values -/

inductive JsonNumber where
  | posInt (n : UInt64)
  | negInt (i : Int64)
  | float (f : F64)
deriving DecidableEq

inductive JsonValue where
  | null
  | bool (b : Bool)
  | number (n : JsonNumber)
  | string (s : Bytes)
  | array (arr : List JsonValue)
  | object (obj : List (Bytes × JsonValue))

structure JsonText where
  print : JsonValue → Bytes
  keyText : Value → Bytes

/-- Where an operator runs: with or without overflow checks, and how long a vector can get. -/
structure Machine where
  checks : Bool
  limit : Nat
  limit_lt : limit < 2 ^ 63

section Operators

variable (J : JsonText) (M : Machine)

/-- `val2str`: the field that a key stands for. -/
def val2str : Value → Bytes
  | .str s => s
  | v => J.keyText v

/-- `i as usize`. -/
def asUsize (i : Int64) : Nat := (i.toInt % 2 ^ 64).toNat

/-- The sum of two `usize`. -/
def addUsize (a b : Nat) : Except OpError Nat :=
  if a + b < 2 ^ 64 then .ok (a + b) else if M.checks then .error .overflow else .ok ((a + b) % 2 ^ 64)

/-- `obj.insert(key, value)`. -/
def insertField (key : Bytes) (value : JsonValue) : List (Bytes × JsonValue) →
    List (Bytes × JsonValue)
  | [] => [(key, value)]
  | (k, v) :: obj => if k = key then (k, value) :: obj else (k, v) :: insertField key value obj

/-- `get_json_path_immutable`. -/
def getJsonPathImmutable : JsonValue → List Value → Except OpError JsonValue
  | pointer, [] => .ok pointer
  | .object obj, key :: path =>
    match obj.lookup (val2str J key) with
    | some entry => getJsonPathImmutable entry path
    | none => .error (.bail "json path does not exist")
  | .array arr, key :: path =>
    match key.getInt with
    | none => .error (.bail "json path must be a string or a number")
    | some i =>
      match arr[asUsize i]? with
      | some val => getJsonPathImmutable val path
      | none => .error (.bail "json path does not exist")
  | _, _ :: _ => .error (.bail "json path does not exist")

/-- The array, made long enough for the index: `if arr.len() <= key + 1 { arr.resize_with(key + 1,
..) }`. Asking for more elements than there can be is a capacity overflow. -/
def padArray (arr : List JsonValue) (key : Nat) : Except OpError (List JsonValue) := do
  let len ← addUsize M key 1
  if arr.length ≤ len then
    if len ≤ M.limit then return arr ++ List.replicate (len - arr.length) .null else throw .overflow
  else return arr

/-- `get_json_path`, and writing through the pointer it returns. -/
def updateJsonPath (write : JsonValue → Except OpError JsonValue) :
    JsonValue → List Value → Except OpError JsonValue
  | pointer, [] => write pointer
  | .object obj, key :: path => do
    let key := val2str J key
    let entry ← updateJsonPath write ((obj.lookup key).getD (.object [])) path
    return .object (insertField key entry obj)
  | .array arr, key :: path =>
    match key.getInt with
    | none => .error (.bail "json path must be a string or a number")
    | some i => do
      let key := asUsize i
      let arr ← padArray M arr key
      match arr[key]? with
      | none => .error (.panic .indexOutOfBounds)
      | some val => do
        let val ← updateJsonPath write val path
        return .array (arr.set key val)
  | _, _ :: _ => .error (.bail "json path does not exist")

/-- `op_set_json_path`. -/
def opSetJsonPath (j : JsonValue) (path : Value) (newVal : JsonValue) : Except OpError JsonValue :=
  match path.getSlice with
  | none => .error (.bail "json path must be a string")
  | some path => updateJsonPath J M (fun _ => .ok newVal) j path

/-- The last step of `op_remove_json_path`. -/
def removeKey (last : Value) : JsonValue → Except OpError JsonValue
  | .object obj => .ok (.object (obj.filter fun field => field.1 ≠ val2str J last))
  | .array arr =>
    match last.getInt with
    | none => .error (.bail "json path must be a string or a number")
    | some i => if asUsize i < arr.length then .ok (.array (arr.eraseIdx (asUsize i)))
      else .error (.panic .indexOutOfBounds)
  | _ => .error (.bail "json path does not exist")

/-- `op_remove_json_path`. -/
def opRemoveJsonPath (j : JsonValue) (path : Value) : Except OpError JsonValue :=
  match path.getSlice with
  | none => .error (.bail "json path must be a string")
  | some path =>
    match path.getLast? with
    | none => .error (.bail "json path must not be empty")
    | some last => updateJsonPath J M (removeKey J last) j path.dropLast

end Operators

/-! ### Fields -/

theorem lookup_insertField_self (key : Bytes) (value : JsonValue) (obj : List (Bytes × JsonValue)) :
    (insertField key value obj).lookup key = some value := by
  induction obj with
  | nil => simp [insertField]
  | cons field obj ih =>
    obtain ⟨k, v⟩ := field
    by_cases h : k = key
    · simp [insertField, h]
    · have hne : (key == k) = false := by simpa using Ne.symm h
      simp [insertField, h, List.lookup, hne, ih]

theorem lookup_insertField_of_ne {key key' : Bytes} (hne : key ≠ key') (value : JsonValue)
    (obj : List (Bytes × JsonValue)) :
    (insertField key value obj).lookup key' = obj.lookup key' := by
  induction obj with
  | nil =>
    have hbeq : (key' == key) = false := by simpa using Ne.symm hne
    simp [insertField, List.lookup, hbeq]
  | cons field obj ih =>
    obtain ⟨k, v⟩ := field
    by_cases h : k = key
    · have hbeq : (key' == k) = false := by simpa [h] using Ne.symm hne
      simp [insertField, h, List.lookup, h ▸ hbeq]
    · simp [insertField, h, List.lookup, ih]

/-! ### Writing a step of a path -/

section Laws

variable {J : JsonText} {M : Machine} {write : JsonValue → Except OpError JsonValue}

theorem updateJsonPath_object {obj : List (Bytes × JsonValue)} {key : Value}
    {path : List Value} {r : JsonValue}
    (h : updateJsonPath J M write (.object obj) (key :: path) = .ok r) :
    ∃ entry, updateJsonPath J M write ((obj.lookup (val2str J key)).getD (.object [])) path =
    .ok entry ∧ r = .object (insertField (val2str J key) entry obj) := by
  rw [updateJsonPath] at h
  obtain ⟨entry, hentry, h⟩ := bind_ok.1 h
  exact ⟨entry, hentry, (except_pure_eq_ok.1 h).symm⟩

theorem padArray_getElem? {arr padded : List JsonValue} {key : Nat}
    (h : padArray M arr key = .ok padded) {i : Nat}
    {val : JsonValue} (hval : arr[i]? = some val) : padded[i]? = some val := by
  rw [padArray] at h
  obtain ⟨len, -, h⟩ := bind_ok.1 h
  have hlt := (List.getElem?_eq_some_iff.1 hval).1
  split at h
  · split at h
    · cases h
      rw [List.getElem?_append_left hlt, hval]
    · cases h
  · cases h
    exact hval

theorem updateJsonPath_array {arr : List JsonValue} {key : Value} {path : List Value}
    {r : JsonValue}
    (h : updateJsonPath J M write (.array arr) (key :: path) = .ok r) :
    ∃ i padded val val', key.getInt = some i ∧ padArray M arr (asUsize i) = .ok padded ∧
      padded[asUsize i]? = some val ∧ updateJsonPath J M write val path = .ok val' ∧
      r = .array (padded.set (asUsize i) val') := by
  rw [updateJsonPath] at h
  split at h
  · cases h
  · rename_i i hi
    obtain ⟨padded, hpadded, h⟩ := bind_ok.1 h
    split at h
    · cases h
    · rename_i val hval
      obtain ⟨val', hval', h⟩ := bind_ok.1 h
      exact ⟨i, padded, val, val', hi, hpadded, hval, hval', (except_pure_eq_ok.1 h).symm⟩

/-! ### Reading what was written -/

/-- **At the place that was written** stands what was written there. -/
theorem get_updateJsonPath : ∀ {path : List Value} {j r : JsonValue},
    updateJsonPath J M write j path = .ok r →
    ∃ old new, write old = .ok new ∧ getJsonPathImmutable J r path = .ok new
  | [], j, r, h => by
    rw [updateJsonPath] at h
    exact ⟨j, r, h, by rw [getJsonPathImmutable]⟩
  | key :: path, .object obj, r, h => by
    obtain ⟨entry, hentry, rfl⟩ := updateJsonPath_object h
    obtain ⟨old, new, hwrite, hget⟩ := get_updateJsonPath hentry
    exact ⟨old, new, hwrite, by rw [getJsonPathImmutable, lookup_insertField_self]; exact hget⟩
  | key :: path, .array arr, r, h => by
    obtain ⟨i, padded, val, val', hi, -, hval, hval', rfl⟩ := updateJsonPath_array h
    obtain ⟨old, new, hwrite, hget⟩ := get_updateJsonPath hval'
    have hlt := (List.getElem?_eq_some_iff.1 hval).1
    refine ⟨old, new, hwrite, ?_⟩
    rw [getJsonPathImmutable, hi]
    simp only [List.getElem?_set_self hlt]
    exact hget
  | _ :: _, .null, r, h => by cases h
  | _ :: _, .bool _, r, h => by cases h
  | _ :: _, .number _, r, h => by cases h
  | _ :: _, .string _, r, h => by cases h

/-- **The paths part**: at some object they go to different fields, or at some array to different
indices. -/
def Diverges (J : JsonText) : JsonValue → List Value → List Value → Prop
  | .object obj, k :: p, k' :: q =>
    val2str J k ≠ val2str J k' ∨ ∃ entry, obj.lookup (val2str J k') = some entry ∧ Diverges J entry p q
  | .array arr, k :: p, k' :: q =>
    k.getInt.map asUsize ≠ k'.getInt.map asUsize ∨ ∃ i val, k'.getInt = some i ∧
      arr[asUsize i]? = some val ∧ Diverges J val p q
  | _, _, _ => False

/-- **Away from the path that was written** nothing has changed. -/
theorem get_updateJsonPath_of_diverges : ∀ {p q : List Value} {j r w : JsonValue},
    updateJsonPath J M write j p = .ok r → Diverges J j p q →
    getJsonPathImmutable J j q = .ok w → getJsonPathImmutable J r q = .ok w
  | [], _, j, _, _, _, hdiv, _ | _ :: _, [], j, _, _, _, hdiv, _ => by cases j <;> simp [Diverges] at hdiv
  | _ :: _, _ :: _, .null, _, _, _, hdiv, _ | _ :: _, _ :: _, .bool _, _, _, _, hdiv, _
  | _ :: _, _ :: _, .number _, _, _, _, hdiv, _
  | _ :: _, _ :: _, .string _, _, _, _, hdiv, _ => by simp [Diverges] at hdiv
  | k :: p, k' :: q, .object obj, r, w, h, hdiv, hw => by
    obtain ⟨entry, hentry, rfl⟩ := updateJsonPath_object h
    rw [getJsonPathImmutable] at hw ⊢
    by_cases hkey : val2str J k = val2str J k'
    · -- the same field: the paths part below it
      obtain ⟨old, hold, hdiv⟩ := hdiv.resolve_left (not_not_intro hkey)
      rw [hold] at hw
      rw [hkey, hold] at hentry
      rw [hkey, lookup_insertField_self]
      exact get_updateJsonPath_of_diverges hentry hdiv hw
    · rw [lookup_insertField_of_ne hkey]
      exact hw
  | k :: p, k' :: q, .array arr, r, w, h, hdiv, hw => by
    obtain ⟨i, padded, val, val', hi, hpadded, hval, hval', rfl⟩ := updateJsonPath_array h
    rw [getJsonPathImmutable] at hw ⊢
    cases hi' : k'.getInt with
    | none =>
      rw [hi'] at hw
      cases hw
    | some i' =>
      simp only [hi'] at hw ⊢
      cases hold : arr[asUsize i']? with
      | none =>
        rw [hold] at hw
        cases hw
      | some old =>
        have holdPadded := padArray_getElem? hpadded hold
        simp only [hold] at hw
        by_cases hkey : asUsize i = asUsize i'
        · -- the same element
          have hdiv' := hdiv.resolve_left
            (by rw [hi, hi', Option.map_some, Option.map_some, hkey]; exact not_not_intro rfl)
          obtain ⟨i'', val'', hi'', hval'', hdiv'⟩ := hdiv'
          cases hi'.symm.trans hi''
          cases hold.symm.trans hval''
          rw [hkey, holdPadded] at hval
          cases hval
          have hlt := (List.getElem?_eq_some_iff.1 holdPadded).1
          simp only [hkey, List.getElem?_set_self hlt]
          exact get_updateJsonPath_of_diverges hval' hdiv' hw
        · simp only [List.getElem?_set_ne hkey, holdPadded]
          exact hw

end Laws

/-- **Setting a path.** Reading the path gives the new value, and every path that can be read and
parts from it at an object or an array reads as before. -/
theorem set_get_json_path (J : JsonText) (M : Machine) (j : JsonValue)
    (p : List Value) (v r : JsonValue)
    (h : opSetJsonPath J M j (.list p) v = .ok r) : getJsonPathImmutable J r p = .ok v ∧
      ∀ q w, getJsonPathImmutable J j q = .ok w → Diverges J j p q →
      getJsonPathImmutable J r q = .ok w := by
  have hupdate : updateJsonPath J M (fun _ => .ok v) j p = .ok r := h
  obtain ⟨old, new, hwrite, hget⟩ := get_updateJsonPath hupdate
  cases hwrite
  exact ⟨hget, fun q w hw hdiv => get_updateJsonPath_of_diverges hupdate hdiv hw⟩

/-- Keys that are not strings have the text `1`, as the number 1 has. -/
def oneText : JsonText := ⟨fun _ => [], fun _ => [49]⟩

def smallMachine : Machine := ⟨true, 1000, by decide⟩

/-- `{"1": null, "a": true}`. -/
def twoFields : JsonValue := .object [([49], .null), ([97], .bool true)]

theorem set_get_twoFields : getJsonPathImmutable oneText
    (.object [([49], .bool false), ([97], .bool true)]) [.str [49]] = .ok (.bool false) ∧
      getJsonPathImmutable oneText (.object [([49], .bool false), ([97], .bool true)]) [.str [97]] =
      .ok (.bool true) := by
  have h := set_get_json_path oneText smallMachine twoFields [.str [49]] (.bool false)
    (.object [([49], .bool false), ([97], .bool true)]) rfl
  exact ⟨h.1, h.2 [.str [97]] (.bool true) rfl (.inl (by simp [val2str]))⟩

/-- The paths `[1]` and `["1"]` are different, but lead to the same field. -/
theorem set_changes_other_path : ¬ [DataValue.num (.int 1)] <+: [(.str [49] : Value)] ∧
    ¬ [(.str [49] : Value)] <+: [.num (.int 1)] ∧
      getJsonPathImmutable oneText twoFields [.str [49]] = .ok .null ∧
      opSetJsonPath oneText smallMachine twoFields (.list [.num (.int 1)]) (.bool false) =
        .ok (.object [([49], .bool false), ([97], .bool true)]) ∧
      getJsonPathImmutable oneText (.object [([49], .bool false), ([97], .bool true)]) [.str [49]] =
      .ok (.bool false) := by
  refine ⟨?_, ?_, rfl, rfl, rfl⟩ <;> simp [List.cons_prefix_cons]

end Retia
