import Mathlib
import Retia.Runtime.Transaction

/-!
# Relation identifiers

The rows of a relation are found by its identifier, so two relations with one identifier share their
rows. The counter of identifiers is kept in memory; every transaction that creates a relation also
stores the last identifier it has taken, and opening a database starts the counter there.

A relation is *live* (`Live`) when there is metadata for it, or when it is an index relation named
in the metadata of another one. `Catalogue` says of a store that live relations with one identifier
have one name, and that no identifier is above the stored one. It is kept

* by everything that only writes rows, since rows are written under identifiers other than that of
  the metadata (`Inv.of_touches`);
* by writing metadata back whose parts are live already (`Catalogue.update`), by removing it
  (`Catalogue.remove`) and by renaming (`Catalogue.rename`);
* by creating a relation when the counter is not behind the stored identifier (`Catalogue.create`).

Only `restore_backup` leaves the counter behind.
-/

namespace Retia

open Effect List

namespace Session

open SessionM

/-! ### Keys of the catalogue -/

theorem strBytes_injective : Function.Injective strBytes := by
  intro a b h
  have hdata : a.toUTF8.data = b.toUTF8.data := Array.toList_inj.1 h
  exact String.toByteArray_inj.1 (ByteArray.ext hdata)

theorem metaKey_injective : Function.Injective metaKey := by
  intro a b h
  have hrow := (Row.key_inj (t := [.str (strBytes a)]) (u := [.str (strBytes b)]) h).1
  have hvalue : (Datum.str (strBytes a)).1 = (Datum.str (strBytes b)).1 :=
    congrArg Subtype.val (List.cons.inj hrow).1
  exact strBytes_injective (DataValue.str.inj hvalue)

theorem metaKey_ne_lastIdKey (name : String) : metaKey name ≠ lastIdKey := by
  intro h
  have hrow := (Row.key_inj (t := [.str (strBytes name)]) (u := [.null]) h).1
  have hvalue : (Datum.str (strBytes name)).1 = Datum.null.1 :=
    congrArg Subtype.val (List.cons.inj hrow).1
  cases hvalue

theorem outside_metaKey (name : String) : Outside (· ≠ .system) (metaKey name) :=
  ⟨.system, keyId_key [.str (strBytes name)] _, fun h => h rfl⟩

theorem outside_lastIdKey : Outside (· ≠ .system) lastIdKey :=
  ⟨.system, keyId_key [.null] _, fun h => h rfl⟩

/-! ### The catalogue of a store -/

abbrev View := Bytes → Option Bytes

def RelationHandle.Quiet (h : RelationHandle) : Prop :=
  h.putTriggers = [] ∧ h.rmTriggers = [] ∧ h.replaceTriggers = []

def RelationHandle.parts (h : RelationHandle) : List IndexRelation :=
  h.toIndexRelation :: h.indexRelations

section Catalogue

variable (S : Serde)

def Record (view : View) (name : String) (h : RelationHandle) : Prop :=
  ∃ bytes, view (metaKey name) = some bytes ∧ S.decodeHandle bytes = some h

def Live (view : View) (name : String) (id : RelationId) : Prop :=
  ∃ n h, Record S view n h ∧ ∃ r ∈ h.parts, r.name = name ∧ r.id = id

/-- Metadata of a persistent relation as it stands under a name. The names of index relations cannot
be names of other relations. -/
structure Proper (name : String) (h : RelationHandle) : Prop where
  name_eq : h.name = name
  isTemp : h.isTemp = false
  persistent : isTempStoreName name = false
  index : ∀ r ∈ h.indexRelations, ':' ∈ r.name.toList

/-- All metadata can be read and is proper, and names no relation with the identifier of the
metadata itself. -/
structure Named (view : View) : Prop where
  record : ∀ name bytes, view (metaKey name) = some bytes → ∃ h, S.decodeHandle bytes = some h ∧
    Proper name h
  positive : ∀ name id, Live S view name id → id ≠ .system

/-- Identifiers are in order, with `last` as the stored one. -/
structure Ordered (view : View) (last : RelationId) : Prop where
  lastId : view lastIdKey = some (beBytes 8 last.id)
  range : ∀ name id, Live S view name id → id.id ≤ last.id
  unique : ∀ name name' id, Live S view name id → Live S view name' id → name = name'

/-- What is kept of the catalogue: whether identifiers are in order, and what holds of the metadata
in the temporary store. -/
structure Regime where
  ids : Prop
  temp : RelationHandle → Prop
  within : ∀ h, temp h → h.Within (· ≠ .system)
  created : ∀ h, h.isTemp = true → h.indexRelations = [] → h.Quiet → h.id ≠ .system → temp h
  renamed : ∀ h name, temp h → temp { h with name }

variable (G : Regime)

structure Catalogue (view : View) : Prop extends Named S view where
  ordered : G.ids → ∃ last, Ordered S view last

variable {S G} {view view' : View} {last : RelationId} {name : String} {h : RelationHandle}

theorem Record.live (hr : Record S view name h) {r : IndexRelation} (hmem : r ∈ h.parts) :
    Live S view r.name r.id := ⟨name, h, hr, r, hmem, rfl, rfl⟩

theorem Record.congr (hv : view' (metaKey name) = view (metaKey name))
    (hr : Record S view name h) : Record S view' name h := by
  obtain ⟨bytes, hb, hdec⟩ := hr
  exact ⟨bytes, hv.trans hb, hdec⟩

theorem Named.of_record (c : Named S view) (hr : Record S view name h) : Proper name h := by
  obtain ⟨bytes, hb, hdec⟩ := hr
  obtain ⟨h', hdec', hprop⟩ := c.record name bytes hb
  rw [hdec] at hdec'
  cases hdec'
  exact hprop

theorem Named.within (c : Named S view) (hr : Record S view name h) : h.Within (· ≠ .system) :=
  ⟨c.positive _ _ (hr.live mem_cons_self), fun _ hidx => c.positive _ _ (hr.live (mem_cons_of_mem _ hidx))⟩

namespace Catalogue

theorem of_live (c : Catalogue S G view) (hlast : view' lastIdKey = view lastIdKey)
    (hrecord : ∀ name bytes, view' (metaKey name) = some bytes →
      ∃ h, S.decodeHandle bytes = some h ∧ Proper name h)
    (hlive : ∀ name id, Live S view' name id → Live S view name id) : Catalogue S G view' where
  record := hrecord
  positive name id hl := c.positive name id (hlive name id hl)
  ordered hG := by
    obtain ⟨last, ho⟩ := c.ordered hG
    exact ⟨last, hlast.trans ho.lastId, fun name id hl => ho.range name id (hlive name id hl),
      fun name name' id hl hl' => ho.unique name name' id (hlive name id hl) (hlive name' id hl')⟩

theorem congr (c : Catalogue S G view) (hlast : view' lastIdKey = view lastIdKey)
    (hmeta : ∀ name, view' (metaKey name) = view (metaKey name)) : Catalogue S G view' := by
  refine c.of_live hlast (fun name bytes hb => c.record name bytes ((hmeta name).symm.trans hb)) ?_
  rintro name id ⟨n, h, hr, hparts⟩
  exact ⟨n, h, hr.congr (hmeta n).symm, hparts⟩

theorem remove (c : Catalogue S G view) (hlast : view' lastIdKey = view lastIdKey)
    (hmeta : ∀ n, view' (metaKey n) = if n = name then none else view (metaKey n)) :
    Catalogue S G view' := by
  have hsome : ∀ n bytes, view' (metaKey n) = some bytes → view (metaKey n) = some bytes := by
    intro n bytes hb
    rw [hmeta] at hb
    split at hb
    · cases hb
    · exact hb
  refine c.of_live hlast (fun n bytes hb => c.record n bytes (hsome n bytes hb)) ?_
  rintro n id ⟨m, h, ⟨bytes, hb, hdec⟩, hparts⟩
  exact ⟨m, h, ⟨bytes, hsome m bytes hb, hdec⟩, hparts⟩

theorem record_of_write (c : Named S view) (hproper : Proper name h)
    (hmeta : ∀ n, view' (metaKey n) = if n = name then some (S.encodeHandle h)
      else view (metaKey n))
    (n : String) (bytes : Bytes) (hb : view' (metaKey n) = some bytes) :
    ∃ h, S.decodeHandle bytes = some h ∧ Proper n h := by
  rw [hmeta] at hb
  split at hb
  case isTrue heq =>
    cases hb
    exact ⟨h, S.decode_encodeHandle h, heq ▸ hproper⟩
  case isFalse => exact c.record n bytes hb

theorem update (c : Catalogue S G view) (hlast : view' lastIdKey = view lastIdKey)
    (hmeta : ∀ n, view' (metaKey n) = if n = name then some (S.encodeHandle h)
      else view (metaKey n))
    (hproper : Proper name h) (hparts : ∀ r ∈ h.parts, Live S view r.name r.id) :
    Catalogue S G view' := by
  refine c.of_live hlast (record_of_write c.toNamed hproper hmeta) ?_
  rintro n id ⟨m, h', ⟨bytes, hb, hdec⟩, r, hr, hrn, hrid⟩
  rw [hmeta] at hb
  split at hb
  case isTrue heq =>
    cases hb
    rw [S.decode_encodeHandle] at hdec
    cases hdec
    rw [← hrn, ← hrid]
    exact hparts r hr
  case isFalse => exact ⟨m, h', ⟨bytes, hb, hdec⟩, r, hr, hrn, hrid⟩

theorem create (c : Catalogue S G view) (hlast : view' lastIdKey = some (beBytes 8 h.id.id))
    (hmeta : ∀ n, view' (metaKey n) = if n = name then some (S.encodeHandle h)
      else view (metaKey n))
    (hproper : Proper name h) (hindex : h.indexRelations = []) (hpos : h.id ≠ .system)
    (hid : G.ids → ∀ last, Ordered S view last → last.id < h.id.id) : Catalogue S G view' := by
  have hlive : ∀ n id, Live S view' n id → (n = name ∧ id = h.id) ∨ Live S view n id := by
    rintro n id ⟨m, h', ⟨bytes, hb, hdec⟩, r, hr, hrn, hrid⟩
    rw [hmeta] at hb
    split at hb
    case isTrue heq =>
      cases hb
      rw [S.decode_encodeHandle] at hdec
      cases hdec
      rw [RelationHandle.parts, hindex, mem_singleton] at hr
      subst hr
      exact .inl ⟨hrn.symm.trans hproper.name_eq, hrid.symm⟩
    case isFalse => exact .inr ⟨m, h', ⟨bytes, hb, hdec⟩, r, hr, hrn, hrid⟩
  refine ⟨⟨record_of_write c.toNamed hproper hmeta, ?_⟩, fun hG => ?_⟩
  · intro n id hl
    rcases hlive n id hl with ⟨-, rfl⟩ | hl
    · exact hpos
    · exact c.positive n id hl
  obtain ⟨last, ho⟩ := c.ordered hG
  have hlt := hid hG last ho
  -- an identifier that was taken before is not the new one
  have hold : ∀ n id, Live S view n id → id ≠ h.id := by
    rintro n id hl rfl
    exact absurd (ho.range n _ hl) (by omega)
  refine ⟨h.id, hlast, ?_, ?_⟩
  · intro n id hl
    rcases hlive n id hl with ⟨-, rfl⟩ | hl
    · exact le_rfl
    · exact (ho.range n id hl).trans hlt.le
  · intro n n' id hl hl'
    rcases hlive n id hl with ⟨rfl, rfl⟩ | hl <;> rcases hlive n' _ hl' with ⟨rfl, hid'⟩ | hl'
    · rfl
    · exact absurd rfl (hold n' _ hl')
    · exact absurd hid' (hold n _ hl)
    · exact ho.unique n n' id hl hl'

theorem rename (c : Catalogue S G view) {old new : String} (hr : Record S view old h)
    (hold : ':' ∉ old.toList) (hnew : isTempStoreName new = false)
    (hlast : view' lastIdKey = view lastIdKey)
    (hmeta : ∀ n, view' (metaKey n) = if n = new then some (S.encodeHandle { h with name := new })
      else if n = old then none else view (metaKey n)) : Catalogue S G view' := by
  have hproper := c.of_record hr
  have hself : Live S view old h.id :=
    ⟨old, h, hr, h.toIndexRelation, mem_cons_self, hproper.name_eq, rfl⟩
  -- apart from the relation itself everything was live before, and is not called by the old name
  have hlive : ∀ n id, Live S view' n id → (n = new ∧ id = h.id) ∨ (Live S view n id ∧ n ≠ old) := by
    rintro n id ⟨m, h', ⟨bytes, hb, hdec⟩, r, hmem, hrn, hrid⟩
    rw [hmeta] at hb
    split at hb
    case isTrue =>
      cases hb
      rw [S.decode_encodeHandle] at hdec
      cases hdec
      rcases mem_cons.1 hmem with rfl | hmem
      · exact .inl ⟨hrn.symm, hrid.symm⟩
      · refine .inr ⟨⟨old, h, hr, r, mem_cons_of_mem _ hmem, hrn, hrid⟩, fun heq => hold ?_⟩
        rw [← heq, ← hrn]
        exact hproper.index r hmem
    case isFalse =>
      split at hb
      · cases hb
      case isFalse hne =>
        have hr' : Record S view m h' := ⟨bytes, hb, hdec⟩
        refine .inr ⟨⟨m, h', hr', r, hmem, hrn, hrid⟩, fun heq => ?_⟩
        have hproper' := c.of_record hr'
        rcases mem_cons.1 hmem with rfl | hmem
        · exact hne (hproper'.name_eq.symm.trans (hrn.trans heq))
        · exact hold (by rw [← heq, ← hrn]; exact hproper'.index r hmem)
  refine ⟨⟨?_, ?_⟩, fun hG => ?_⟩
  · intro n bytes hb
    rw [hmeta] at hb
    split at hb
    case isTrue heq =>
      cases hb
      subst heq
      exact ⟨_, S.decode_encodeHandle _, ⟨rfl, hproper.isTemp, hnew, hproper.index⟩⟩
    case isFalse =>
      split at hb
      · cases hb
      · exact c.record n bytes hb
  · intro n id hl
    rcases hlive n id hl with ⟨-, rfl⟩ | ⟨hl, -⟩
    · exact c.positive old _ hself
    · exact c.positive n id hl
  obtain ⟨last, ho⟩ := c.ordered hG
  have hne : ∀ n id, Live S view n id → n ≠ old → id ≠ h.id := by
    rintro n id hl hn rfl
    exact hn (ho.unique n old _ hl hself)
  refine ⟨last, hlast.trans ho.lastId, ?_, ?_⟩
  · intro n id hl
    rcases hlive n id hl with ⟨-, rfl⟩ | ⟨hl, -⟩
    · exact ho.range old _ hself
    · exact ho.range n id hl
  · intro n n' id hl hl'
    rcases hlive n id hl with ⟨rfl, rfl⟩ | ⟨hl, hn⟩ <;> rcases hlive n' _ hl' with ⟨rfl, hid'⟩ | ⟨hl', hn'⟩
    · rfl
    · exact absurd rfl (hne n' _ hl' hn')
    · exact absurd hid' (hne n _ hl hn)
    · exact ho.unique n n' id hl hl'

end Catalogue

end Catalogue

/-! ### The catalogue during a session -/

/-- The content of the store that relations of the name are looked up in. -/
def SessionTx.viewOf (s : SessionTx) (isTemp : Bool) : View :=
  if isTemp then fun k => s.tempStoreTx[k]? else s.storeTx.get

variable {h' : RelationHandle} {relName : String}

section Sessions

variable (S : Serde) (G : Regime)

/-- The catalogue of the store that the session leaves, whether it is committed or dropped, and that
of its temporary relations. -/
structure Sound (s : SessionTx) : Prop where
  store : Catalogue S G s.storeTx.get
  persisted : Catalogue S G fun k => s.storeTx.persisted[k]?
  temp : ∀ name h, Record S (s.viewOf true) name h → G.temp h

/-- The counter is not behind the stored identifier. -/
def NotBehind (s : SessionTx) : Prop :=
  ∀ last : RelationId, s.storeTx.get lastIdKey = some (beBytes 8 last.id) → last.id ≤ s.relationStoreId

/-- The invariant, for statements that create relations (`c`) and for those that do not. -/
structure Inv (c : Bool) (s : SessionTx) : Prop extends Sound S G s where
  notBehind : c = true → G.ids → NotBehind s

/-- The invariant together with metadata that is known to be there. -/
structure InvWith (c : Bool) (records : List (String × RelationHandle)) (s : SessionTx) :
    Prop extends Inv S G c s where
  records : ∀ p ∈ records, Record S s.storeTx.get p.1 p.2

variable {S G} {c : Bool} {s s' : SessionTx} {records : List (String × RelationHandle)}

theorem Inv.of_touches (hs : Inv S G c s) (ht : Touches (· ≠ .system) s s') : Inv S G c s' where
  store := hs.store.congr (ht.store _ outside_lastIdKey) fun n => ht.store _ (outside_metaKey n)
  persisted := hs.persisted.congr (ht.persisted _ outside_lastIdKey) fun n =>
    ht.persisted _ (outside_metaKey n)
  temp name h hr := hs.temp name h (hr.congr (ht.temp _ (outside_metaKey name)).symm)
  notBehind hc hG last hlast := by
    rw [ht.relationStoreId]
    exact hs.notBehind hc hG last ((ht.store _ outside_lastIdKey).symm.trans hlast)

theorem InvWith.of_touches (hs : InvWith S G c records s) (ht : Touches (· ≠ .system) s s') :
    InvWith S G c records s' where
  toInv := hs.toInv.of_touches ht
  records p hp := (hs.records p hp).congr (ht.store _ (outside_metaKey p.1))

variable {name : String} {h : RelationHandle} {α : Type} {m : SessionM α} {t : Store}

theorem keeps_of_touches (h : Moves (Touches (· ≠ .system)) m) :
    Keeps (Inv S G c) (fun _ => True) m :=
  Keeps.of_moves h fun _ _ ht hs => hs.of_touches ht

theorem keepsWith_of_touches {m : SessionM α} (h : Moves (Touches (· ≠ .system)) m) :
    Keeps (InvWith S G c records) (fun _ => True) m :=
  Keeps.of_moves h fun _ _ ht hs => hs.of_touches ht

theorem wp_getRelation (name : String) (s : SessionTx) :
    wp (getRelation S name) (fun h s' => s' = s ∧
      Record S (s.viewOf (isTempStoreName name)) name h) (fun _ s' => s' = s) s := by
  have hget : getIn (isTempStoreName name) (metaKey name) s =
      .ok (s.viewOf (isTempStoreName name) (metaKey name)) s := by
    cases isTempStoreName name <;> rfl
  rw [getRelation, wp_bind, wp_iff_of_ok hget]
  cases hv : s.viewOf (isTempStoreName name) (metaKey name) with
  | none => exact rfl
  | some found =>
    dsimp only
    cases hdec : S.decodeHandle found with
    | none => exact rfl
    | some h => exact ⟨rfl, found, hv, hdec⟩

theorem Inv.within (hs : Inv S G c s) {isTemp : Bool} {h : RelationHandle}
    (hr : Record S (s.viewOf isTemp) name h) : h.Within (· ≠ .system) := by
  cases isTemp with
  | false => exact hs.store.within hr
  | true => exact G.within h (hs.temp name h hr)

theorem wp_getRelation_of_not_temp (hname : isTempStoreName name = false) (hs : Inv S G c s) :
    wp (getRelation S name) (fun h => InvWith S G c [(name, h)]) (fun _ => Inv S G c) s := by
  refine wp_mono (wp_getRelation name s) ?_ ?_
  · rintro h s' ⟨rfl, hr⟩
    rw [hname] at hr
    refine ⟨hs, fun p hp => ?_⟩
    cases mem_singleton.1 hp
    exact hr
  · rintro e s' rfl
    exact hs

/-! ### Writing metadata -/

theorem get_metaKey_of_put {tx tx' : MemTx} {v : Bytes} (h : tx.put (metaKey name) v = .ok tx')
    (n : String) :
    tx'.get (metaKey n) = if n = name then some v else tx.get (metaKey n) := by
  rw [MemTx.get_of_put h]
  simp only [metaKey_injective.eq_iff]

theorem get_metaKey_of_del {tx tx' : MemTx} (h : tx.del (metaKey name) = .ok tx')
    (n : String) : tx'.get (metaKey n) = if n = name then none else tx.get (metaKey n) := by
  rw [MemTx.get_of_del h]
  simp only [metaKey_injective.eq_iff]

theorem Inv.of_storeTx (hs : Inv S G c s) {tx : MemTx} (hstore : Catalogue S G tx.get)
    (hpersisted : tx.persisted = s.storeTx.persisted)
    (hlast : tx.get lastIdKey = s.storeTx.get lastIdKey) : Inv S G c { s with storeTx := tx } where
  store := hstore
  persisted := by
    dsimp only
    rw [hpersisted]
    exact hs.persisted
  temp := hs.temp
  notBehind hc hG last h := hs.notBehind hc hG last (hlast.symm.trans h)

theorem InvWith.of_tempStoreTx (hs : InvWith S G c records s)
    (ht : ∀ name h, Record S (fun k => t[k]?) name h →
      Record S (s.viewOf true) name h ∨ G.temp h) :
      InvWith S G c records { s with tempStoreTx := t } where
  store := hs.store
  persisted := hs.persisted
  temp name h hr := (ht name h hr).elim (hs.temp name h) id
  notBehind := hs.notBehind
  records := hs.records

theorem record_insert_metaKey {name n : String} {h : RelationHandle}
    (hr : Record S (fun k => (t.insert (metaKey name) (S.encodeHandle h))[k]?) n h') :
    h' = h ∨ Record S (fun k => t[k]?) n h' := by
  obtain ⟨bytes, hb, hdec⟩ := hr
  by_cases hn : n = name
  · subst hn
    dsimp only at hb
    rw [Std.ExtTreeMap.getElem?_insert_self] at hb
    cases hb
    rw [S.decode_encodeHandle] at hdec
    exact .inl (Option.some.inj hdec).symm
  · dsimp only at hb
    rw [getElem?_insert_of_ne (metaKey_injective.ne hn)] at hb
    exact .inr ⟨bytes, hb, hdec⟩

theorem record_of_erase {k : Bytes} {n : String} (hr : Record S (fun k' => (t.erase k)[k']?) n h) :
    Record S (fun k' => t[k']?) n h := by
  obtain ⟨bytes, hb, hdec⟩ := hr
  dsimp only at hb
  rw [Std.ExtTreeMap.getElem?_erase] at hb
  split at hb
  · cases hb
  · exact ⟨bytes, hb, hdec⟩

theorem keeps_tempPut_record (hh : G.temp h) :
    Keeps (InvWith S G c records) (fun _ => True) (tempPut (metaKey name) (S.encodeHandle h)) := by
  intro s hs
  refine ⟨hs.of_tempStoreTx fun n h' hr => ?_, trivial⟩
  rcases record_insert_metaKey hr with rfl | hr
  · exact .inr hh
  · exact .inl hr

theorem keeps_tempDel (k : Bytes) : Keeps (InvWith S G c records) (fun _ => True) (tempDel k) :=
  fun _ hs => ⟨hs.of_tempStoreTx fun _ _ hr => .inl (record_of_erase hr), trivial⟩

theorem keeps_storePut_record (hproper : Proper name h)
    (hparts : ∀ r ∈ h.parts, ∃ p ∈ records, r ∈ p.2.parts) (hs : InvWith S G c records s) :
    wp (storePut (metaKey name) (S.encodeHandle h)) (fun _ => Inv S G c)
    (fun _ => Inv S G c) s := by
  refine wp_storeOp (fun tx hput => ?_) fun _ _ => hs.toInv
  have hlast : tx.get lastIdKey = s.storeTx.get lastIdKey := by
    rw [MemTx.get_of_put hput, if_neg (metaKey_ne_lastIdKey name).symm]
  refine hs.toInv.of_storeTx ?_ (persisted_of_put hput) hlast
  refine hs.store.update hlast (get_metaKey_of_put hput) hproper fun r hr => ?_
  obtain ⟨p, hp, hmem⟩ := hparts r hr
  exact (hs.records p hp).live hmem

theorem keeps_delIn_record {isTemp : Bool} (hname : name ∉ records.map Prod.fst) :
    Keeps (InvWith S G c records) (fun _ => True) (delIn isTemp (metaKey name)) := by
  cases isTemp with
  | true => exact keeps_tempDel _
  | false =>
    intro s hs
    refine wp_storeOp (fun tx hdel => ?_) fun _ _ => hs
    have hlast : tx.get lastIdKey = s.storeTx.get lastIdKey := by
      rw [MemTx.get_of_del hdel, if_neg (metaKey_ne_lastIdKey name).symm]
    have hinv := hs.toInv.of_storeTx (hs.store.remove hlast (get_metaKey_of_del hdel))
      (persisted_of_del hdel) hlast
    refine ⟨⟨hinv, fun p hp => (hs.records p hp).congr ?_⟩, trivial⟩
    have hne : p.1 ≠ name := fun h => hname (h ▸ mem_map_of_mem hp)
    exact (get_metaKey_of_del hdel p.1).trans (if_neg hne)

/-! ### Creating and removing -/

theorem InvWith.of_counters (hs : InvWith S G c records s) {n m : Nat}
    (hn : s.relationStoreId ≤ n) :
    InvWith S G c records { s with relationStoreId := n, tempStoreId := m } where
  store := hs.store
  persisted := hs.persisted
  temp := hs.temp
  notBehind hc hG last h := (hs.notBehind hc hG last h).trans hn
  records := hs.records

theorem wp_putIn_created (hname : h.name ∉ records.map Prod.fst)
    (hproper : Proper h.name h) (hindex : h.indexRelations = []) (hpos : h.id ≠ RelationId.system)
    (hid : s.relationStoreId = h.id.id) (hs : InvWith S G true records s)
    (hfresh : G.ids → ∀ last, Ordered S s.storeTx.get last → last.id < h.id.id) : wp (do
        storePut (metaKey h.name) (beBytes 8 h.id.id)
        storePut (metaKey h.name) (S.encodeHandle h)
        storePut lastIdKey (beBytes 8 h.id.id) : SessionM Unit)
      (fun _ s' => InvWith S G true records s' ∧ Record S s'.storeTx.get h.name h)
      (fun _ => InvWith S G true records) s := by
  rw [wp_bind]
  refine wp_storeOp (fun tx₁ h₁ => ?_) fun _ _ => hs
  -- a transaction that has taken one write takes the others
  have hwriter : tx₁.isWriter = true := by
    rw [MemTx.isWriter_of_put h₁]
    cases hstore : s.storeTx with
    | reader rdr =>
      rw [hstore] at h₁
      cases h₁
    | writer wtr cache => rfl
  rw [wp_bind]
  refine wp_storeOp (fun tx₂ h₂ => wp_storeOp (fun tx₃ h₃ => ?_) fun e herr => ?_) fun e herr => ?_
  · dsimp only at h₂ h₃
    have hlast : tx₃.get lastIdKey = some (beBytes 8 h.id.id) := by
      rw [MemTx.get_of_put h₃, if_pos rfl]
    have hmeta : ∀ n, tx₃.get (metaKey n) =
        if n = h.name then some (S.encodeHandle h) else s.storeTx.get (metaKey n) := by
      intro n
      rw [MemTx.get_of_put h₃, if_neg (metaKey_ne_lastIdKey n), get_metaKey_of_put h₂,
        get_metaKey_of_put h₁]
      split <;> rfl
    have hpersisted : tx₃.persisted = s.storeTx.persisted := by
      rw [persisted_of_put h₃, persisted_of_put h₂, persisted_of_put h₁]
    have hcat : Catalogue S G tx₃.get :=
      hs.store.create hlast hmeta hproper hindex hpos hfresh
    refine ⟨⟨⟨⟨hcat, ?_, hs.temp⟩, fun _ _ l hl => ?_⟩, fun p hp => ?_⟩, ?_⟩
    · dsimp only
      rw [hpersisted]
      exact hs.persisted
    · have hl' : some (beBytes 8 h.id.id) = some (beBytes 8 l.id) := hlast.symm.trans hl
      have : beNat (beBytes 8 h.id.id) = beNat (beBytes 8 l.id) := by rw [Option.some.inj hl']
      rw [beNat_beBytes (h.id.le.trans_lt (by decide)), beNat_beBytes (l.le.trans_lt (by decide))] at this
      dsimp only
      omega
    · have hne : p.1 ≠ h.name := fun heq => hname (heq ▸ mem_map_of_mem hp)
      exact (hs.records p hp).congr ((hmeta p.1).trans (if_neg hne))
    · exact ⟨_, (hmeta h.name).trans (if_pos rfl), S.decode_encodeHandle h⟩
  · obtain ⟨tx, htx⟩ := MemTx.put_of_isWriter ((MemTx.isWriter_of_put h₂).trans hwriter) lastIdKey
      (beBytes 8 h.id.id)
    dsimp only at herr
    rw [htx] at herr
    cases herr
  · obtain ⟨tx, htx⟩ := MemTx.put_of_isWriter hwriter (metaKey h.name) (S.encodeHandle h)
    dsimp only at herr
    rw [htx] at herr
    cases herr

theorem wp_tempPut_created (hh : G.temp h) (hs : InvWith S G c records s) : wp (do
        tempPut (metaKey h.name) (beBytes 8 h.id.id)
        tempPut (metaKey h.name) (S.encodeHandle h)
        tempPut lastIdKey (beBytes 8 h.id.id) : SessionM Unit)
      (fun _ => InvWith S G c records) (fun _ => InvWith S G c records) s := by
  refine hs.of_tempStoreTx (t := ((s.tempStoreTx.insert (metaKey h.name) (beBytes 8 h.id.id)).insert
    (metaKey h.name) (S.encodeHandle h)).insert lastIdKey (beBytes 8 h.id.id)) fun n h' hr => ?_
  have hr' : Record S (fun k => ((s.tempStoreTx.insert (metaKey h.name)
      (beBytes 8 h.id.id)).insert (metaKey h.name) (S.encodeHandle h))[k]?) n h' :=
    hr.congr (getElem?_insert_of_ne (metaKey_ne_lastIdKey n)).symm
  by_cases hn : n = h.name
  · -- the metadata itself
    obtain ⟨bytes, hb, hdec⟩ := hr'
    subst hn
    dsimp only at hb
    rw [Std.ExtTreeMap.getElem?_insert_self] at hb
    cases hb
    rw [S.decode_encodeHandle] at hdec
    cases hdec
    exact .inr hh
  · refine .inl (hr'.congr ?_)
    have hne := metaKey_injective.ne hn
    exact ((getElem?_insert_of_ne hne).trans (getElem?_insert_of_ne hne)).symm

/-- **Creating a relation.** Only a persistent one takes an identifier of the counter. -/
theorem wp_createRelation {input : InputRelationHandle} (hname : input.name ∉ records.map Prod.fst)
    (hc : isTempStoreName input.name = false → c = true) (hs : InvWith S G c records s) :
    wp (createRelation S input) (fun h s' => InvWith S G c records s' ∧ h.name = input.name ∧
        h.isTemp = isTempStoreName input.name ∧ h.indexRelations = [] ∧ h.Quiet ∧
        h.id ≠ RelationId.system ∧
        (isTempStoreName input.name = false → Record S s'.storeTx.get input.name h))
        (fun _ => InvWith S G c records) s := by
  have hsystem : ∀ n (h : n + 1 ≤ 2 ^ 48), (⟨n + 1, h⟩ : RelationId) ≠ RelationId.system := by
    intro n h heq
    have := congrArg RelationId.id heq
    simp [RelationId.system] at this
  rw [createRelation, wp_bind]
  refine (Reads.existsIn _ _).wp (fun found => ?_) fun _ => hs
  rw [wp_bind]
  refine (Reads.bailIf _ _).wp (fun _ => ?_) fun _ => hs
  let handle (isTemp : Bool) (id : RelationId) : RelationHandle := {
    name := input.name, id, metadata := input.metadata, isTemp, putTriggers :=
      [], rmTriggers := [], replaceTriggers := [],
    accessLevel := .normal, indices := [], hnswIndices := [], ftsIndices :=
      [], lshIndices := [], description := "" }
  cases htemp : isTempStoreName input.name with
  | false =>
    obtain rfl := hc htemp
    have hcounter : fetchAddId false s =
        .ok s.relationStoreId { s with relationStoreId := s.relationStoreId + 1 } := rfl
    have hs' : InvWith S G true records { s with relationStoreId := s.relationStoreId + 1 } :=
      hs.of_counters (Nat.le_succ _)
    rw [wp_bind, wp_iff_of_ok hcounter]
    split
    case isFalse => exact hs'
    case isTrue hid =>
      have hfresh : G.ids → ∀ last, Ordered S s.storeTx.get last → last.id < s.relationStoreId + 1 :=
        fun hG last ho => Nat.lt_succ_of_le (hs.notBehind rfl hG last ho.lastId)
      have hputs := wp_putIn_created (h := handle false ⟨_, hid⟩) hname
        ⟨rfl, rfl, htemp, by simp [handle, RelationHandle.indexRelations]⟩ rfl (hsystem _ hid)
        rfl hs' hfresh
      simp only [wp_bind] at hputs ⊢
      refine wp_mono hputs (fun _ _ h => wp_mono h
        (fun _ _ h => wp_mono h (fun _ _ h => ?_) fun _ _ => id) fun _ _ => id) fun _ _ => id
      exact ⟨h.1, rfl, rfl, rfl, ⟨rfl, rfl, rfl⟩, hsystem _ hid, fun _ => h.2⟩
  | true =>
    have hcounter : fetchAddId true s =
        .ok s.tempStoreId { s with tempStoreId := s.tempStoreId + 1 } := rfl
    have hs' : InvWith S G c records { s with tempStoreId := s.tempStoreId + 1 } :=
      hs.of_counters (n := s.relationStoreId) le_rfl
    rw [wp_bind, wp_iff_of_ok hcounter]
    split
    case isFalse => exact hs'
    case isTrue hid =>
      have hputs := wp_tempPut_created (h := handle true ⟨_, hid⟩)
        (G.created _ rfl rfl ⟨rfl, rfl, rfl⟩ (hsystem _ hid)) hs'
      simp only [wp_bind] at hputs ⊢
      refine wp_mono hputs (fun _ _ h => wp_mono h
        (fun _ _ h => wp_mono h (fun _ _ h => ?_) fun _ _ => id) fun _ _ => id) fun _ _ => id
      exact ⟨h, rfl, rfl, rfl, ⟨rfl, rfl, rfl⟩, hsystem _ hid, by simp⟩

theorem Inv.with_nil (hs : Inv S G c s) : InvWith S G c [] s := ⟨hs, by simp⟩

theorem keeps_of_keepsWith_nil {F : α → Prop} (h : Keeps (InvWith S G c []) F m) :
    Keeps (Inv S G c) F m := fun s hs =>
  wp_mono (h s hs.with_nil) (fun _ _ h => ⟨h.1.toInv, h.2⟩) fun _ _ h => h.toInv

theorem keepsWith_of_reads (h : Reads m) : Keeps (InvWith S G c records) (fun _ => True) m :=
  keepsWith_of_touches h.moves

theorem keeps_of_reads (h : Reads m) : Keeps (Inv S G c) (fun _ => True) m :=
  keeps_of_touches h.moves

def RelationRanges (bounds : Cleanups) : Prop :=
  ∀ b ∈ bounds, ∃ id next : RelationId, next.id = id.id + 1 ∧ id ≠ .system ∧
    b = (Row.key [] id, Row.key [] next)

theorem collects_relationRanges : Db.Collects RelationRanges where
  nil := by simp [RelationRanges]
  append ha hb b hmem := (mem_append.1 hmem).elim (ha b) (hb b)

/-- **Removing a relation.** -/
theorem keeps_destroyRelation (hname : name ∉ records.map Prod.fst) :
    Keeps (InvWith S G c records) RelationRanges (destroyRelation S name) := by
  refine Keeps.bind (F := fun h => h.Within (· ≠ RelationId.system)) ?_ fun h hh => ?_
  · intro s hs
    refine wp_mono (wp_getRelation name s) ?_ ?_
    · rintro h s' ⟨rfl, hr⟩
      exact ⟨hs, hs.within hr⟩
    · rintro e s' rfl
      exact hs
  refine (keepsWith_of_reads (Reads.bailIf _ _)).bind fun _ _ =>
    (keepsWith_of_reads (Reads.requireLevel _ _ _)).bind fun _ _ =>
    (keeps_delIn_record hname).bind fun _ _ => ?_
  cases hnext : h.id.next with
  | error e => exact Keeps.throw _
  | ok next =>
    refine Keeps.pure fun b hb => ?_
    rw [mem_singleton] at hb
    refine ⟨h.id, next, ?_, hh.base, hb⟩
    rw [RelationId.next] at hnext
    split at hnext
    · cases hnext
      rfl
    · cases hnext

theorem keeps_delRanges {bounds : Cleanups} (hb : RelationRanges bounds) :
    Keeps (Inv S G c) (fun _ => True) (Db.delRanges bounds) := by
  refine Keeps.forM fun b hmem => ?_
  obtain ⟨id, next, hnext, hid, rfl⟩ := hb b hmem
  exact keeps_of_touches (touches_delRange hnext hid)

theorem keeps_delRangesAnyway {bounds : Cleanups} (hb : RelationRanges bounds) :
    Keeps (Inv S G c) (fun _ => True) (Db.delRangesAnyway bounds) := by
  refine Keeps.forM fun b hmem s hs => ⟨?_, trivial⟩
  obtain ⟨id, next, hnext, hid, rfl⟩ := hb b hmem
  exact (keeps_of_touches (touches_delRange hnext hid)).final hs

/-! ### System operations -/

theorem keeps_getRelation_bind (hname : isTempStoreName name = false)
    {f : RelationHandle → SessionM Unit}
    (hf : ∀ h, Proper name h → ∀ s, InvWith S G c [(name, h)] s →
      wp (f h) (fun _ => Inv S G c) (fun _ => Inv S G c) s) :
    Keeps (Inv S G c) (fun _ => True) (getRelation S name >>= f) := by
  intro s hs
  rw [wp_bind]
  refine wp_mono (wp_getRelation_of_not_temp hname hs) (fun h s' hs' => ?_) fun _ _ => id
  have hproper := hs'.store.of_record (hs'.records (name, h) mem_cons_self)
  exact wp_mono (hf h hproper s' hs') (fun _ _ h => ⟨h, trivial⟩) fun _ _ => id

theorem wp_writeBack {h : RelationHandle} (hproper : Proper name h)
    (hself : h'.toIndexRelation = h.toIndexRelation) (hindex : h'.indexRelations = h.indexRelations)
    (hs : InvWith S G c [(name, h)] s) :
    wp (storePut (metaKey name) (S.encodeHandle h')) (fun _ => Inv S G c)
    (fun _ => Inv S G c) s := by
  refine keeps_storePut_record ⟨?_, ?_, hproper.persistent, ?_⟩ (fun r hr => ?_) hs
  · rw [← hproper.name_eq, ← congrArg IndexRelation.name hself]
  · rw [← hproper.isTemp, ← congrArg IndexRelation.isTemp hself]
  · rw [hindex]
    exact hproper.index
  · rw [RelationHandle.parts, hself, hindex] at hr
    exact ⟨_, mem_singleton_self _, hr⟩

theorem keeps_setAccessLevel (hname : isTempStoreName name = false) (level : AccessLevel) :
    Keeps (Inv S G c) (fun _ => True) (setAccessLevel S name level) := by
  refine keeps_getRelation_bind hname fun h hproper s hs => ?_
  obtain rfl := hproper.name_eq
  exact wp_writeBack hproper rfl rfl hs

theorem keeps_setRelationTriggers (hname : isTempStoreName name = false)
    (puts rms replaces : List String) :
    Keeps (Inv S G c) (fun _ => True) (setRelationTriggers S name puts rms replaces) := by
  refine (keeps_of_reads (Reads.bailIf _ _)).bind fun _ _ =>
    keeps_getRelation_bind hname fun h hproper s hs => ?_
  obtain rfl := hproper.name_eq
  rw [wp_bind]
  refine (Reads.requireLevel _ _ _).wp (fun _ => ?_) fun _ => hs.toInv
  exact wp_writeBack hproper rfl rfl hs

theorem keeps_describeRelation (hname : isTempStoreName name = false) (description : String) :
    Keeps (Inv S G c) (fun _ => True) (describeRelation S name description) := by
  refine keeps_getRelation_bind hname fun h hproper s hs => ?_
  obtain rfl := hproper.name_eq
  dsimp only
  rw [hproper.isTemp]
  exact wp_writeBack hproper rfl rfl hs

theorem keeps_renameRelation {old : String} (hold : isCompoundIdent old = true)
    (new : String) : Keeps (Inv S G c) (fun _ => True) (renameRelation S old new) := by
  simp only [isCompoundIdent, Bool.and_eq_true, Bool.not_eq_true', contains_eq_mem,
    decide_eq_false_iff_not] at hold
  intro s hs
  rw [renameRelation, wp_bind]
  -- a temporary name is refused
  cases hnew : isTempStoreName new with
  | true =>
    rw [hold.1]
    exact hs
  | false =>
  refine (Reads.bailIf _ _).wp (fun _ => ?_) fun _ => hs
  refine (keeps_of_reads (Reads.existsIn false _)).wp_bind hs (fun _ _ => id) fun _ s hs _ => ?_
  refine (keeps_of_reads (Reads.bailIf _ _)).wp_bind hs (fun _ _ => id) fun _ s hs _ => ?_
  refine wp_bind.2 (wp_mono (wp_getRelation old s) ?_ ?_)
  · rintro h s' ⟨rfl, hr⟩
    rw [hold.1] at hr
    rw [wp_bind]
    refine (Reads.requireLevel _ _ _).wp (fun _ => ?_) fun _ => hs
    dsimp only
    rw [wp_bind]
    refine wp_storeOp (fun tx₁ h₁ => ?_) fun _ _ => hs
    have hlast₁ : tx₁.get lastIdKey = s'.storeTx.get lastIdKey := by
      rw [MemTx.get_of_del h₁, if_neg (metaKey_ne_lastIdKey old).symm]
    refine wp_storeOp (fun tx₂ h₂ => ⟨?_, trivial⟩) fun _ _ => ?_
    · have hlast₂ : tx₂.get lastIdKey = s'.storeTx.get lastIdKey := by
        rw [MemTx.get_of_put h₂, if_neg (metaKey_ne_lastIdKey new).symm]
        exact hlast₁
      refine hs.of_storeTx ?_ ((persisted_of_put h₂).trans (persisted_of_del h₁)) hlast₂
      refine hs.store.rename hr hold.2 hnew hlast₂ fun n => ?_
      rw [get_metaKey_of_put h₂]
      dsimp only
      rw [get_metaKey_of_del h₁]
    · exact hs.of_storeTx (hs.store.remove hlast₁ (get_metaKey_of_del h₁)) (persisted_of_del h₁) hlast₁
  · rintro e s' rfl
    exact hs

theorem keeps_renameTempRelation {old : String}
    (hold : isTempStoreName old = true ∨ ∀ h, h.Within (· ≠ RelationId.system) → G.temp h)
    (new : String) :
    Keeps (Inv S G c) (fun _ => True) (renameTempRelation S old new) := by
  refine (keeps_of_reads (Reads.existsIn true _)).bind fun _ _ =>
    (keeps_of_reads (Reads.bailIf _ _)).bind fun _ _ => Keeps.bind (F := G.temp) ?_ fun h hh => ?_
  · intro s hs
    refine wp_mono (wp_getRelation old s) ?_ ?_
    · rintro h s' ⟨rfl, hr⟩
      refine ⟨hs, ?_⟩
      rcases hold with hold | hall
      · rw [hold] at hr
        exact hs.temp old h hr
      · exact hall h (hs.within hr)
    · rintro e s' rfl
      exact hs
  · refine (keeps_of_keepsWith_nil (keeps_tempDel _)).bind fun _ _ => keeps_of_keepsWith_nil ?_
    exact keeps_tempPut_record (G.renamed h new hh)

/-! ### Indices -/

theorem mem_insertByName {a : α} {l : List (String × α)} {e : String × α}
    (h : e ∈ insertByName name a l) : e = (name, a) ∨ e ∈ l := by
  induction l with
  | nil => exact .inl (mem_singleton.1 h)
  | cons b l ih =>
    obtain ⟨n, b⟩ := b
    rw [insertByName] at h
    split at h
    · exact (mem_cons.1 h).imp_right id
    split at h
    · exact (mem_cons.1 h).imp_right (mem_cons_of_mem _)
    · rcases mem_cons.1 h with rfl | h
      · exact .inr mem_cons_self
      · exact (ih h).imp_right (mem_cons_of_mem _)

theorem colon_mem_append (a b : String) : ':' ∈ (a ++ ":" ++ b).toList := by
  simp [String.toList_append]

theorem isTempStoreName_append {a : String} (h : isTempStoreName a = false) (b : String) :
    isTempStoreName (a ++ ":" ++ b) = false := by
  unfold isTempStoreName at h ⊢
  simp only [String.toList_append, append_assoc]
  cases ha : a.toList with
  | nil => simp
  | cons x xs =>
    rw [ha] at h
    simpa using h

theorem append_ne_of_not_colon {a : String} (h : ':' ∉ a.toList) (b c : String) :
    b ++ ":" ++ c ≠ a := by
  rintro rfl
  exact h (colon_mem_append b c)

theorem indexRelations_of_entries {P : IndexRelation → Prop} {h : RelationHandle}
    (hplain : ∀ e ∈ h'.indices, e ∈ h.indices ∨ P e.2.1)
    (hhnsw : ∀ e ∈ h'.hnswIndices, e ∈ h.hnswIndices ∨ P e.2.1)
    (hfts : ∀ e ∈ h'.ftsIndices, e ∈ h.ftsIndices ∨ P e.2.1)
    (hlsh : ∀ e ∈ h'.lshIndices, e ∈ h.lshIndices ∨ P e.2.1 ∧ P e.2.2.1) :
    ∀ r ∈ h'.indexRelations, r ∈ h.indexRelations ∨ P r := by
  intro r hr
  simp only [RelationHandle.indexRelations, mem_append, mem_map, mem_flatMap,
    mem_cons, not_mem_nil, or_false] at hr ⊢
  rcases hr with ((⟨e, he, rfl⟩ | ⟨e, he, rfl⟩) | ⟨e, he, rfl⟩) | ⟨e, he, hr⟩
  · exact (hplain e he).imp_left fun he => .inl (.inl (.inl ⟨e, he, rfl⟩))
  · exact (hhnsw e he).imp_left fun he => .inl (.inl (.inr ⟨e, he, rfl⟩))
  · exact (hfts e he).imp_left fun he => .inl (.inr ⟨e, he, rfl⟩)
  · rcases hlsh e he with he | hP
    · exact .inl (.inr ⟨e, he, hr⟩)
    · rcases hr with rfl | rfl
      · exact .inr hP.1
      · exact .inr hP.2

theorem wp_addIndex {rel rel' : RelationHandle} (hproper : Proper name rel)
    (hself : rel'.toIndexRelation = rel.toIndexRelation)
    (hparts : ∀ r ∈ rel'.indexRelations, r ∈ rel.indexRelations ∨ ':' ∈ r.name.toList ∧
      ∃ p ∈ records, r = p.2.toIndexRelation)
    (hrel : (name, rel) ∈ records) (hs : InvWith S G c records s) :
    wp (storePut (metaKey name) (S.encodeHandle rel')) (fun _ => Inv S G c)
    (fun _ => Inv S G c) s := by
  refine keeps_storePut_record ⟨?_, ?_, hproper.persistent, fun r hr =>
    (hparts r hr).elim (hproper.index r) And.left⟩ (fun r hr => ?_) hs
  · rw [← hproper.name_eq, ← congrArg IndexRelation.name hself]
  · rw [← hproper.isTemp, ← congrArg IndexRelation.isTemp hself]
  · rcases mem_cons.1 hr with rfl | hr
    · exact ⟨_, hrel, by rw [RelationHandle.parts, hself]; exact mem_cons_self⟩
    · rcases hparts r hr with hr | ⟨-, p, hp, rfl⟩
      · exact ⟨_, hrel, mem_cons_of_mem _ hr⟩
      · exact ⟨p, hp, mem_cons_self⟩

theorem wp_createIndexRelation {base : String} (hbase : isCompoundIdent base = true) (rest : String)
    {input : InputRelationHandle} (hinput : input.name = base ++ ":" ++ rest)
    (hrecords : ∀ p ∈ records, p.1 = base ∨ p.1.toList.length < input.name.toList.length)
    (hs : InvWith S G true records s) {f : RelationHandle → SessionM β} {Q : β → SessionTx → Prop}
    (hf : ∀ h s', InvWith S G true ((input.name, h) :: records) s' →
      ':' ∈ h.name.toList → h.id ≠ .system →
      wp (f h) Q (fun _ => Inv S G true) s') :
      wp (createRelation S input >>= f) Q (fun _ => Inv S G true) s := by
  simp only [isCompoundIdent, Bool.and_eq_true, Bool.not_eq_true', contains_eq_mem,
    decide_eq_false_iff_not] at hbase
  have hnot : input.name ∉ records.map Prod.fst := by
    intro hmem
    obtain ⟨p, hp, hpn⟩ := mem_map.1 hmem
    rcases hrecords p hp with hp | hp
    · exact append_ne_of_not_colon hbase.2 base rest (hinput.symm.trans (hpn.symm.trans hp))
    · rw [hpn] at hp
      exact absurd hp (lt_irrefl _)
  rw [wp_bind]
  refine wp_mono (wp_createRelation hnot (fun _ => rfl) hs) ?_ fun _ _ h => h.toInv
  rintro h s' ⟨hs', hname, -, -, -, hid, hrecord⟩
  have hr := hrecord (by rw [hinput]; exact isTempStoreName_append hbase.1 rest)
  refine hf h s' ⟨hs'.toInv, fun p hp => ?_⟩ (by rw [hname, hinput]; exact colon_mem_append base rest) hid
  rcases mem_cons.1 hp with rfl | hp
  · exact hr
  · exact hs'.records p hp

theorem isTempStoreName_of_isCompoundIdent (h : isCompoundIdent name = true) :
    isTempStoreName name = false := by
  simp only [isCompoundIdent, Bool.and_eq_true, Bool.not_eq_true'] at h
  exact h.1

theorem wp_touches_bind {m : SessionM α} {f : α → SessionM β} {Q : β → SessionTx → Prop}
    (h : Moves (Touches (· ≠ .system)) m) (hs : InvWith S G c records s)
    (hf : ∀ a s', InvWith S G c records s' → wp (f a) Q (fun _ => Inv S G c) s') :
    wp (m >>= f) Q (fun _ => Inv S G c) s :=
  (keepsWith_of_touches h).wp_bind hs (fun _ _ h => h.toInv) fun a s' hs' _ => hf a s' hs'

theorem mem_or_of_insertByName {a : α} {l : List (String × α)} {P : String × α → Prop}
    (hP : P (name, a)) : ∀ e ∈ insertByName name a l, e ∈ l ∨ P e := by
  intro e he
  rcases mem_insertByName he with rfl | he
  · exact .inr hP
  · exact .inl he

theorem keeps_createIndex (hrel : isCompoundIdent relName = true) (idxName : String)
    (cols : List String) :
    Keeps (Inv S G true) (fun _ => True) (createIndex S relName idxName cols) := by
  refine keeps_getRelation_bind (isTempStoreName_of_isCompoundIdent hrel) fun rel hproper s hs => ?_
  refine wp_touches_bind (Reads.bailIf _ _).moves hs fun _ s hs => ?_
  refine wp_touches_bind (Reads.attempt _).moves hs fun colDefs s hs => ?_
  refine wp_createIndexRelation hrel idxName rfl (by simp) hs fun idx s hs hcolon hid => ?_
  refine wp_touches_bind (Reads.attempt _).moves hs fun mapper s hs => ?_
  refine wp_touches_bind (Reads.scanAll _ _).moves hs fun existing s hs => ?_
  refine wp_touches_bind (Moves.forM fun row _ => touches_putIndexEntry hid mapper row) hs fun _ s hs => ?_
  refine wp_addIndex hproper rfl
    (indexRelations_of_entries (mem_or_of_insertByName ⟨hcolon, _, mem_cons_self, rfl⟩)
    (fun _ => .inl) (fun _ => .inl) (fun _ => .inl)) (by simp) hs

theorem keeps_createFtsIndex (E : Engine) (config : FtsIndexManifest)
    (hrel : isCompoundIdent config.baseRelation = true) :
    Keeps (Inv E.toSerde G true) (fun _ => True) (E.createFtsIndex config) := by
  refine keeps_getRelation_bind (isTempStoreName_of_isCompoundIdent hrel) fun rel hproper s hs => ?_
  refine wp_touches_bind (Reads.bailIf _ _).moves hs fun _ s hs => ?_
  refine wp_createIndexRelation hrel config.indexName rfl (by simp) hs fun idx s hs hcolon hid => ?_
  refine wp_touches_bind (touches_getTokenizer _ _ _ _) hs fun tokenizer s hs => ?_
  refine wp_touches_bind (Reads.attempt _).moves hs fun extractor s hs => ?_
  refine wp_touches_bind (Reads.scanAll _ _).moves hs fun existing s hs => ?_
  refine wp_touches_bind (Moves.forM fun tuple _ => ?_) hs fun _ s hs => ?_
  · exact moves_attempt_bind fun keys _ => (Reads.existsIn _ _).moves.bind fun _ =>
      (moves_runOr (touches_delFtsIndexItem E hid _ _ _)).bind fun _ =>
        touches_putFtsIndexItem E hid _ _ _
  dsimp only
  rw [hproper.name_eq]
  refine wp_addIndex hproper rfl (indexRelations_of_entries (fun _ => .inl) (fun _ => .inl)
    (mem_or_of_insertByName ⟨hcolon, _, mem_cons_self, rfl⟩) (fun _ => .inl)) (by simp) hs

theorem keeps_createMinhashLshIndex (E : Engine) (config : MinHashLshIndexManifest)
    (hrel : isCompoundIdent config.baseRelation = true) :
    Keeps (Inv E.toSerde G true) (fun _ => True) (E.createMinhashLshIndex config) := by
  refine keeps_getRelation_bind (isTempStoreName_of_isCompoundIdent hrel) fun rel hproper s hs => ?_
  refine wp_touches_bind (Reads.bailIf _ _).moves hs fun _ s hs => ?_
  dsimp only
  refine wp_createIndexRelation hrel config.indexName rfl (by simp) hs fun idx s hs hcolon hid => ?_
  refine wp_createIndexRelation hrel (config.indexName ++ ":inv") rfl ?_ hs fun inv s hs hcolon' hid' => ?_
  · intro p hp
    rcases mem_cons.1 hp with rfl | hp
    · refine .inr ?_
      simp [toString, String.toList_append]
    · exact .inl (by rw [mem_singleton.1 hp])
  refine wp_touches_bind (touches_getTokenizer _ _ _ _) hs fun tokenizer s hs => ?_
  refine wp_touches_bind (Reads.attempt _).moves hs fun extractor s hs => ?_
  refine wp_touches_bind (Reads.scanAll _ _).moves hs fun existing s hs => ?_
  refine wp_touches_bind (Moves.forM fun tuple _ =>
    touches_putLshIndexItem E hid hid' _ _ _ _) hs fun _ s hs => ?_
  rw [hproper.name_eq]
  refine wp_addIndex hproper rfl
    (indexRelations_of_entries (fun _ => .inl) (fun _ => .inl) (fun _ => .inl)
    (mem_or_of_insertByName ⟨⟨hcolon, _, mem_cons_of_mem _ mem_cons_self, rfl⟩,
    hcolon', _, mem_cons_self, rfl⟩)) (by simp) hs

theorem keeps_createHnswIndex (E : Engine) (config : HnswIndexManifest) (vecFields : List String)
    (hrel : isCompoundIdent config.baseRelation = true) :
    Keeps (Inv E.toSerde G true) (fun _ => True) (E.createHnswIndex config vecFields) := by
  refine keeps_getRelation_bind (isTempStoreName_of_isCompoundIdent hrel) fun rel hproper s hs => ?_
  refine wp_touches_bind (Reads.bailIf _ _).moves hs fun _ s hs => ?_
  refine wp_touches_bind (Reads.bailIf _ _).moves hs fun _ s hs => ?_
  refine wp_touches_bind (Reads.attempt _).moves hs fun fields s hs => ?_
  refine wp_createIndexRelation hrel config.indexName rfl (by simp) hs fun idx s hs hcolon hid => ?_
  refine wp_touches_bind (Reads.scanAll _ _).moves hs fun existing s hs => ?_
  refine wp_touches_bind (Reads.attempt _).moves hs fun filter s hs => ?_
  refine wp_touches_bind (Moves.forM fun tuple _ => ?_) hs fun _ s hs => ?_
  · exact Moves.get.bind fun _ => touches_applyIndexChanges E hid _
  refine wp_addIndex hproper rfl
    (indexRelations_of_entries (fun _ => .inl)
      (mem_or_of_insertByName ⟨hcolon, _, mem_cons_self, rfl⟩)
      (fun _ => .inl) (fun _ => .inl)) (by simp) hs

theorem withoutIndex_parts {rel rel' : RelationHandle} {idxName : String}
    (h : rel.withoutIndex idxName relName = .ok rel') :
    rel'.toIndexRelation = rel.toIndexRelation ∧
    ∀ r ∈ rel'.indexRelations, r ∈ rel.indexRelations := by
  have hsub : ∀ {α : Type} {l : List (String × α)} {e}, e ∈ removeName idxName l → e ∈ l :=
    fun he => (mem_filter.1 he).1
  have hkeep : ∀ {rel' : RelationHandle}, (∀ e ∈ rel'.indices, e ∈ rel.indices) →
      (∀ e ∈ rel'.hnswIndices, e ∈ rel.hnswIndices) → (∀ e ∈ rel'.ftsIndices, e ∈ rel.ftsIndices) →
      (∀ e ∈ rel'.lshIndices, e ∈ rel.lshIndices) → ∀ r ∈ rel'.indexRelations, r ∈ rel.indexRelations := by
    intro rel' h₁ h₂ h₃ h₄ r hr
    have := indexRelations_of_entries (P := fun _ => False) (fun e he => .inl (h₁ e he))
      (fun e he => .inl (h₂ e he)) (fun e he => .inl (h₃ e he)) (fun e he => .inl (h₄ e he)) r hr
    exact this.elim id False.elim
  unfold RelationHandle.withoutIndex at h
  split at h
  · cases h
    exact ⟨rfl, hkeep (fun _ => hsub) (fun _ => id) (fun _ => id) fun _ => id⟩
  split at h
  · cases h
    exact ⟨rfl, hkeep (fun _ => id) (fun _ => hsub) (fun _ => id) fun _ => id⟩
  split at h
  · cases h
    exact ⟨rfl, hkeep (fun _ => id) (fun _ => id) (fun _ => id) fun _ => hsub⟩
  split at h
  · cases h
    exact ⟨rfl, hkeep (fun _ => id) (fun _ => id) (fun _ => hsub) fun _ => id⟩
  · cases h

theorem keeps_removeIndex (hrel : isCompoundIdent relName = true) (idxName : String) :
    Keeps (Inv S G c) RelationRanges (removeIndex S relName idxName) := by
  intro s hs
  rw [removeIndex, wp_bind]
  refine wp_mono (wp_getRelation_of_not_temp (isTempStoreName_of_isCompoundIdent hrel) hs) ?_ fun _ _ => id
  intro rel s hs
  have hproper := hs.store.of_record (hs.records (relName, rel) mem_cons_self)
  have herr : ∀ (_ : SessionError) s', InvWith S G c [(relName, rel)] s' → Inv S G c s' :=
    fun _ _ h => h.toInv
  simp only [isCompoundIdent, Bool.and_eq_true, Bool.not_eq_true', contains_eq_mem,
    decide_eq_false_iff_not] at hrel
  have hnames : ∀ rest : String, relName ++ ":" ++ rest ∉ [(relName, rel)].map Prod.fst := by
    intro rest hmem
    exact append_ne_of_not_colon hrel.2 relName rest (mem_singleton.1 hmem)
  refine (keepsWith_of_touches (moves_runOr (touches_setTokenizers _))).wp_bind hs herr fun _ s hs _ => ?_
  cases hwithout : rel.withoutIndex idxName relName with
  | error e => exact hs.toInv
  | ok rel' =>
    obtain ⟨hself, hparts⟩ := withoutIndex_parts hwithout
    refine (keeps_destroyRelation (hnames idxName)).wp_bind hs herr fun toClean s hs hclean => ?_
    have hmore : Keeps (InvWith S G c [(relName, rel)]) RelationRanges
        (runOr (containsName idxName rel.lshIndices)
          (destroyRelation S (relName ++ ":" ++ (idxName ++ ":inv"))) []) := by
      unfold runOr
      split
      · exact keeps_destroyRelation (hnames _)
      · exact Keeps.pure collects_relationRanges.nil
    have hinv : (s!"{relName}:{idxName}:inv" : String) = relName ++ ":" ++ (idxName ++ ":inv") := by
      simp only [toString, String.append_assoc]
    rw [hinv]
    refine hmore.wp_bind hs herr fun more s hs hmore => ?_
    rw [wp_bind]
    refine wp_mono (wp_addIndex hproper hself (fun r hr => .inl (hparts r hr)) mem_cons_self hs)
      ?_ fun _ _ => id
    exact fun _ _ h => ⟨h, collects_relationRanges.append hclean hmore⟩

end Sessions

end Session

end Retia
