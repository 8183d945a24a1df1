import Retia.Data.Tuple

/-!
# Rows of well-formed values

The values a program holds are well formed: a set has its elements in order, an array fits its
length field. `Datum` carries that, and a `Row` is a list of such values, so that what is said about
stored rows needs no side condition.

* `Row.key` — the key of a row under a relation identifier (`encode_as_key`); no two rows and no two
  identifiers share one (`Row.key_inj`);
* `keyId` — the identifier a key begins with. The keys of one relation are an interval
  (`keyId_eq_some_iff`), so a range deletion or a scan of it concerns them and no others;
* `key_in_range_iff` — the keys from a row up to the row with `Bot` behind it are those of the rows
  that begin with it.
-/

namespace Retia

open Memcmp List

namespace DataValue

mutual

/-- Decides `WF`. -/
def decWF : (v : Value) → Decidable (WF v)
  | .list l =>
    have := decWFList l
    decidable_of_iff (WFList l) (by rw [WF])
  | .set s =>
    have := decWFList s
    have : Decidable (SetSorted s) := inferInstanceAs (Decidable (s.Pairwise _))
    decidable_of_iff (WFList s ∧ SetSorted s) (by rw [WF])
  | .vec (.f32 a) => decidable_of_iff (a.length < 2 ^ 64) (by rw [WF])
  | .vec (.f64 a) => decidable_of_iff (a.length < 2 ^ 64) (by rw [WF])
  | .null => isTrue (by simp [WF])
  | .bool _ => isTrue (by simp [WF])
  | .num _ => isTrue (by simp [WF])
  | .str _ => isTrue (by simp [WF])
  | .bytes _ => isTrue (by simp [WF])
  | .uuid _ => isTrue (by simp [WF])
  | .regex _ => isTrue (by simp [WF])
  | .json _ => isTrue (by simp [WF])
  | .validity _ => isTrue (by simp [WF])
  | .bot => isTrue (by simp [WF])

/-- Decides `WFList`. -/
def decWFList : (l : List Value) → Decidable (WFList l)
  | [] => isTrue (by simp [WFList])
  | v :: vs =>
    have := decWF v
    have := decWFList vs
    decidable_of_iff (WF v ∧ WFList vs) (by rw [WFList])

end

instance (v : Value) : Decidable (WF v) := decWF v

theorem wfList_iff {l : List Value} : WFList l ↔ ∀ v ∈ l, WF v := by
  induction l with
  | nil => simp [WFList]
  | cons v l ih => simp [WFList, ih]

end DataValue

open DataValue

abbrev Datum := { v : Value // WF v }

namespace Datum

def null : Datum := ⟨.null, by simp [WF]⟩

def bool (b : Bool) : Datum := ⟨.bool b, by simp [WF]⟩

def int (i : Int64) : Datum := ⟨.num (.int i), by simp [WF]⟩

def str (s : Bytes) : Datum := ⟨.str s, by simp [WF]⟩

/-- The greatest value; no stored row has it. -/
def bot : Datum := ⟨.bot, by simp [WF]⟩

def bytes (b : Bytes) : Datum := ⟨.bytes b, by simp [WF]⟩

def list (l : List Datum) : Datum :=
  ⟨.list (l.map Subtype.val), by
    rw [WF, wfList_iff]
    intro v hv
    obtain ⟨d, -, rfl⟩ := mem_map.1 hv
    exact d.2⟩

end Datum

abbrev Row := List Datum

namespace Row

def values (t : Row) : List Value := t.map Subtype.val

theorem wfList_values (t : Row) : WFList t.values := by
  rw [wfList_iff]
  intro v hv
  obtain ⟨d, -, rfl⟩ := mem_map.1 hv
  exact d.2

/-- `encode_as_key`. -/
def key (t : Row) (rel : RelationId) : Bytes := encodeAsKey t.values rel

theorem key_inj {t u : Row} {rel rel' : RelationId} (h : t.key rel = u.key rel') :
    t = u ∧ rel = rel' := by
  constructor
  · have ht := decodeTupleFromKey_encodeAsKey t.wfList_values rel
    rw [← key, h, key, decodeTupleFromKey_encodeAsKey u.wfList_values] at ht
    exact (map_injective_iff.2 Subtype.val_injective (Option.some.inj ht)).symm
  · have hrel := rawDecode_encodeAsKey t.values rel
    rw [← key, h, key, rawDecode_encodeAsKey] at hrel
    exact (Option.some.inj hrel).symm

def ofValues? : List Value → Option Row
  | [] => some []
  | v :: vs => if hv : WF v then (ofValues? vs).map (⟨v, hv⟩ :: ·) else none

theorem ofValues?_values (t : Row) : ofValues? t.values = some t := by
  induction t with
  | nil => rfl
  | cons d t ih =>
    simp only [values, map_cons] at ih ⊢
    rw [ofValues?, dif_pos d.2, ih]
    rfl

def ofKey (key : Bytes) : Option Row := (decodeTupleFromKey key).bind ofValues?

@[simp] theorem ofKey_key (t : Row) (rel : RelationId) : ofKey (t.key rel) = some t := by
  rw [ofKey, key, decodeTupleFromKey_encodeAsKey t.wfList_values, Option.bind_some, ofValues?_values]

end Row

/-! ### The keys of one relation -/

def keyId (k : Bytes) : Option RelationId := RelationId.rawDecode k

@[simp] theorem keyId_key (t : Row) (rel : RelationId) : keyId (t.key rel) = some rel :=
  rawDecode_encodeAsKey _ _

theorem keyId_eq_some_iff {k : Bytes} {rel : RelationId} : keyId k = some rel ↔
    ∃ rest, k = beBytes 8 rel.id ++ rest := by
  have hid : rel.id < 256 ^ 8 := rel.le.trans_lt (by decide)
  constructor
  · intro h
    rw [keyId, RelationId.rawDecode] at h
    split at h
    case isTrue hlen =>
      split at h
      · have htake : beBytes 8 (beNat (k.take 8)) = k.take 8 := beBytes_beNat (by simp [hlen])
        have hrel : rel.id = beNat (k.take 8) := by rw [← Option.some.inj h]
        exact ⟨k.drop 8, by rw [hrel, htake, take_append_drop]⟩
      · cases h
    · cases h
  · rintro ⟨rest, rfl⟩
    have hnat : beNat (beBytes 8 rel.id) = rel.id := beNat_beBytes hid
    rw [keyId, RelationId.rawDecode, if_pos (by simp), take_left' (by simp), dif_pos]
    · simp only [hnat]
    · rw [hnat]
      exact rel.le

theorem length_of_keyId {k : Bytes} {rel : RelationId} (h : keyId k = some rel) : 8 ≤ k.length := by
  obtain ⟨rest, rfl⟩ := keyId_eq_some_iff.1 h
  simp

theorem keyId_eq_some_iff_range {k : Bytes} {rel next : RelationId} (hk : 8 ≤ k.length)
    (hnext : next.id = rel.id + 1) :
    keyId k = some rel ↔ encodeAsKey [] rel ≤ k ∧ k < encodeAsKey [] next := by
  have hid : rel.id < 256 ^ 8 := rel.le.trans_lt (by decide)
  have hid' : next.id < 256 ^ 8 := next.le.trans_lt (by decide)
  have hlo : encodeAsKey [] rel = beBytes 8 rel.id ++ [] := by simp [encodeAsKey, encodeTuple]
  have hhi : encodeAsKey [] next = beBytes 8 next.id ++ [] := by simp [encodeAsKey, encodeTuple]
  rw [keyId_eq_some_iff, hlo, hhi]
  constructor
  · rintro ⟨rest, rfl⟩
    refine ⟨(append_le_append_iff _).2 (nil_le _), ?_⟩
    exact append_lt_append_of_lt ((beBytes_lt_beBytes_iff hid hid').2 (by omega)) (by simp) _ _
  · rintro ⟨hl, hr⟩
    -- the first eight bytes are a number that is neither below `rel` nor above it
    have htake : beBytes 8 (beNat (k.take 8)) = k.take 8 := beBytes_beNat (by simp [hk])
    have hlt : beNat (k.take 8) < 256 ^ 8 := by
      have := beNat_lt (k.take 8)
      simpa [hk] using this
    have hk' : k = beBytes 8 (beNat (k.take 8)) ++ k.drop 8 := by
      rw [htake, take_append_drop]
    have heq : beNat (k.take 8) = rel.id := by
      rcases lt_trichotomy (beNat (k.take 8)) rel.id with h | h | h
      · rw [hk'] at hl
        have := append_lt_append_of_lt ((beBytes_lt_beBytes_iff hlt hid).2 h) (by simp)
          (k.drop 8) []
        exact absurd this (not_lt.2 hl)
      · exact h
      · rcases Nat.lt_or_ge (beNat (k.take 8)) next.id with h' | h'
        · omega
        rw [hk'] at hr
        rcases h'.lt_or_eq with h' | h'
        · have := append_lt_append_of_lt ((beBytes_lt_beBytes_iff hid' hlt).2 h') (by simp) []
            (k.drop 8)
          exact absurd this (not_lt.2 hr.le)
        · rw [← h', append_lt_append_iff] at hr
          exact absurd hr (by simp)
    exact ⟨k.drop 8, by rw [← heq]; exact hk'⟩

/-! ### Prefixes of rows -/

theorem encodeDatavalue_lt_bot {v : Value} (hv : v ≠ .bot) :
    ∃ b bs, encodeDatavalue v = b :: bs ∧ b < botTag := by
  cases v with
  | bot => exact absurd rfl hv
  | bool b => cases b <;> exact ⟨_, _, rfl, by decide⟩
  | _ => exact ⟨_, _, rfl, by decide⟩

theorem encodeAsKey_append_bot (l : List Value) (rel : RelationId) :
    encodeAsKey (l ++ [.bot]) rel = encodeAsKey l rel ++ [botTag] := by
  rw [encodeAsKey, encodeAsKey, encodeTuple_append, append_assoc]
  rfl

/-- A row begins with another exactly when its encoding does. -/
theorem encodeTuple_prefix_iff {l m : List Value} (hl : WFList l) (hm : WFList m) :
    encodeTuple l <+: encodeTuple m ↔ l <+: m := by
  constructor
  · rintro ⟨z, hz⟩
    rcases Nat.le_total l.length m.length with hle | hle
    · rw [← take_append_drop l.length m, WFList_append] at hm
      rw [← take_append_drop l.length m, encodeTuple_append] at hz
      rw [(encodeTuple_append_inj hl hm.1 (by simpa using hle) hz).1]
      exact take_prefix _ _
    · -- a longer row has a longer encoding
      rw [← take_append_drop m.length l, WFList_append] at hl
      rw [← take_append_drop m.length l, encodeTuple_append,
        append_assoc, ← append_nil (encodeTuple m)] at hz
      obtain ⟨heq, hnil⟩ := encodeTuple_append_inj hl.1 hm (by simpa using hle) hz
      have hdrop := length_le_length_encodeTuple (l.drop m.length)
      rw [(append_eq_nil_iff.1 hnil).1, length_nil, Nat.le_zero, length_eq_zero_iff] at hdrop
      have hlm : l = m := by rw [← take_append_drop m.length l, heq, hdrop, append_nil]
      exact hlm ▸ prefix_rfl
  · rintro ⟨z, rfl⟩
    rw [encodeTuple_append]
    exact prefix_append _ _

/-- **A range of keys is a beginning of rows**: the keys from `pre` up to `pre` and `Bot` are those
of the rows of the relation that begin with `pre`. -/
theorem key_in_range_iff {pre t : List Value} (hpre : WFList pre) (ht : WFList t) (hbot : .bot ∉ t)
    (id rel : RelationId) : (encodeAsKey pre id ≤ encodeAsKey t rel ∧
      encodeAsKey t rel < encodeAsKey (pre ++ [.bot]) id) ↔ rel = id ∧ pre <+: t := by
  rw [encodeAsKey_append_bot]
  constructor
  · rintro ⟨hlo, hhi⟩
    obtain ⟨z, hz⟩ := exists_append_of_le_of_le (encodeAsKey pre id) (by rwa [append_nil]) hhi.le
    obtain rfl : rel = id := Option.some.inj ((rawDecode_encodeAsKey t rel).symm.trans
      (keyId_eq_some_iff.2 ⟨encodeTuple pre ++ z, by rw [hz, encodeAsKey, append_assoc]⟩))
    rw [encodeAsKey, encodeAsKey, append_assoc, append_cancel_left_eq] at hz
    exact ⟨rfl, (encodeTuple_prefix_iff hpre ht).1 ⟨z, hz.symm⟩⟩
  · rintro ⟨rfl, rest, rfl⟩
    have hkey : encodeAsKey (pre ++ rest) rel = encodeAsKey pre rel ++ encodeTuple rest := by
      rw [encodeAsKey, encodeAsKey, encodeTuple_append, append_assoc]
    rw [hkey]
    refine ⟨le_append_left, (append_lt_append_iff _).2 ?_⟩
    cases rest with
    | nil => exact nil_lt_cons _ _
    | cons v rest =>
      -- the column after the beginning is not `Bot`
      obtain ⟨b, bs, hb, hlt⟩ := encodeDatavalue_lt_bot (v := v) fun hv => hbot (by simp [hv])
      rw [encodeTuple, hb, cons_append, cons_lt_cons_iff]
      exact .inl hlt

end Retia
