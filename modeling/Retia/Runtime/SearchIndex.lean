import Mathlib
import Retia.Runtime.Session

/-!
# Full-text and LSH indices, row by row

`fts/indexing.rs`, `runtime/minhash_lsh.rs` and the parts of `runtime/relation.rs` that build search
indices. A full-text index holds, for each row, one posting per word of the text its extractor
computes; an LSH index holds one entry per band of the hash of the row, and its inverse relation the
list of these bands by the key of the row, which is where a removal finds them.

What the source takes from elsewhere is a parameter, `Engine`: the coercion of values to column
types, the evaluation of expressions, tokenizers and hash functions. The search structure of vector
indices is one too; an update of it is a list of changes of its own index relation, which is all the
source writes there.

A tokenizer is looked up in a cache first by a name and then by a hash of its configuration
(`Engine.getTokenizer`). The name is that of the index relation when an index is built, and the bare
name of the index when a row is changed.
-/

namespace Retia

namespace Session

open SessionM

structure Token where
  text : Bytes
  offsetFrom : Nat
  offsetTo : Nat
  position : Nat

abbrev Extractor := Row → Except SessionError Datum

/-- Changes of an index relation: a row of it, and its value columns or `none` for a removal. -/
abbrev IndexChanges := List (Row × Option Row)

structure Engine extends Serde where
  /-- `NullableColType::coerce`, at the time given. -/
  coerce : NullableColType → Datum → Int64 → Except SessionError Datum
  /-- The value of a default. -/
  evalToConst : String → Except SessionError Datum
  /-- Parsing, resolving the columns and compiling. -/
  compileExtractor : String → (Symbol → Option Nat) → Except SessionError Extractor
  configHash : TextAnalyzer → Bytes
  /-- Refuses unknown tokenizers and filters. -/
  build : TextAnalyzer → Except SessionError Unit
  tokenStream : TextAnalyzer → Bytes → List Token
  /-- The hash values of a text and of a list, as bytes. -/
  minHashText : MinHashLshIndexManifest → TextAnalyzer → Bytes → Bytes
  minHashList : MinHashLshIndexManifest → List Value → Bytes
  /-- The changes an insertion or a removal carries out, and the error it ends with if it fails. -/
  hnswPut : HnswIndexManifest → RelationHandle → IndexRelation → Option Extractor →
    Row → SessionTx → IndexChanges × Option SessionError
  hnswRemove : RelationHandle → IndexRelation → Row → SessionTx → IndexChanges × Option SessionError

namespace Engine

variable (E : Engine)

/-- `TokenizerCache::get`. -/
def getTokenizer (name : String) (tokenizer : TokenizerConfig) (filters : List TokenizerConfig) :
    SessionM TextAnalyzer := do
  let cache := (← get).tokenizers
  match cache.namedCache[name]? with
  | some analyzer => pure analyzer
  | none =>
    let config : TextAnalyzer := ⟨tokenizer, filters⟩
    match cache.hashedCache[E.configHash config]? with
    | some analyzer =>
      setTokenizers { cache with namedCache := cache.namedCache.insert name analyzer }
      pure analyzer
    | none =>
      attempt (E.build config)
      setTokenizers ⟨cache.namedCache.insert name config,
        cache.hashedCache.insert (E.configHash config) config⟩
      pure config

/-! ### Full-text indices -/

def ftsText (extractor : Extractor) (tuple : Row) : Except SessionError (Option Bytes) := do
  let toIndex ← extractor tuple
  match toIndex.1 with
  | .null => pure none
  | .str s => pure (some s)
  | _ => .error (.ftsExtract toIndex)

def ftsWords (tokens : List Token) : List Bytes := (tokens.map (·.text)).eraseDups

/-- The value columns of the posting of a word: where it begins and ends, its positions, and the
number of tokens of the text. -/
def ftsPosting (tokens : List Token) (word : Bytes) : Row :=
  let occurrences := tokens.filter (·.text == word)
  [.list (occurrences.map fun t => .int (Int64.ofNat t.offsetFrom)),
    .list (occurrences.map fun t => .int (Int64.ofNat t.offsetTo)),
    .list (occurrences.map fun t => .int (Int64.ofNat t.position)),
    .int (Int64.ofNat tokens.length)]

def keyPart (rel : IndexRelation) (tuple : Row) : Except SessionError Row :=
  if rel.metadata.keys.length ≤ tuple.length then .ok (tuple.take rel.metadata.keys.length)
  else .error (.panic .indexOutOfBounds)

/-- `put_fts_index_item`. The source collects the words in a hash map; the order in which they are
written does not matter. -/
def putFtsIndexItem (tuple : Row) (extractor : Extractor) (tokenizer : TextAnalyzer)
    (rel idx : IndexRelation) : SessionM Unit := do
  match ← attempt (ftsText extractor tuple) with
  | none => pure ()
  | some toIndex =>
    let tokens := E.tokenStream tokenizer toIndex
    let keys ← attempt (keyPart rel tuple)
    forM (ftsWords tokens) fun text => do
      let keyBytes ← attempt (idx.encodeKeyForStore (.str text :: keys))
      let valBytes ← attempt (idx.encodeValOnlyForStore E.toSerde (ftsPosting tokens text))
      storePut keyBytes valBytes

/-- `del_fts_index_item`. -/
def delFtsIndexItem (tuple : Row) (extractor : Extractor) (tokenizer : TextAnalyzer)
    (rel idx : IndexRelation) : SessionM Unit := do
  match ← attempt (ftsText extractor tuple) with
  | none => pure ()
  | some toIndex =>
    let tokens := E.tokenStream tokenizer toIndex
    let keys ← attempt (keyPart rel tuple)
    forM (ftsWords tokens) fun text => do
      let keyBytes ← attempt (idx.encodeKeyForStore (.str text :: keys))
      storeDel keyBytes

/-! ### LSH indices -/

def bandsOf (vals : Row) : Except SessionError (List Bytes) :=
  match vals.getLast? with
  | some ⟨.list l, _⟩ =>
    l.mapM fun chunk =>
      match chunk with
      | .bytes b => .ok b
      | _ => .error (.panic .unreachable)
  | _ => .error (.panic .unreachable)

/-- The loop of `del_lsh_index_item` over the bands. -/
def delBands (tuple : Row) (idx : IndexRelation) (bands : List Bytes) : SessionM Unit :=
  forM bands fun chunk => do
    let keyBytes ← attempt (idx.encodeKeyForStore (.bytes chunk :: tuple))
    storeDel keyBytes

/-- `del_lsh_index_item` without given bands: those of the inverse relation, whose entry is removed
as well. -/
def delLshIndexItem (tuple : Row) (idx inv : IndexRelation) : SessionM Unit := do
  let keys ← attempt (keyPart inv tuple)
  match ← inv.getValOnly E.toSerde keys with
  | none => pure ()
  | some found =>
    let invKey ← attempt (inv.encodeKeyForStore tuple)
    storeDel invKey
    let bands ← attempt (bandsOf found)
    delBands tuple idx bands

def lshHash (tuple : Row) (extractor : Extractor) (tokenizer : TextAnalyzer)
    (manifest : MinHashLshIndexManifest) : Except SessionError (Option Bytes) := do
  let toIndex ← extractor tuple
  match toIndex.1 with
  | .null => pure none
  | .list l => pure (some (E.minHashList manifest l))
  | .str s => pure (some (E.minHashText manifest tokenizer s))
  | _ => .error (.lshPut toIndex)

def lshBands (manifest : MinHashLshIndexManifest) (bytes : Bytes) :
    Except SessionError (List Bytes) :=
  let chunkSize := manifest.nRowsInBand * 4
  (List.range manifest.nBands).mapM fun i =>
    if (i + 1) * chunkSize ≤ bytes.length then
      .ok ((bytes.drop (i * chunkSize)).take chunkSize ++ [UInt8.ofNat i, UInt8.ofNat (i / 256)])
    else .error (.panic .indexOutOfBounds)

/-- The bands of the row's former hash are removed; its entry in the inverse relation stays. -/
def delFormerBands (tuple keys : Row) (idx inv : IndexRelation) : SessionM Unit := do
  match ← inv.getValOnly E.toSerde keys with
  | none => pure ()
  | some found =>
    let bands ← attempt (bandsOf found)
    delBands tuple idx bands

def putBands (keys : Row) (idx inv : IndexRelation) (chunks : List Bytes) : SessionM Unit := do
  forM chunks fun chunk => do
    let keyBytes ← attempt (idx.encodeKeyForStore (.bytes chunk :: keys))
    storePut keyBytes []
  let invKey ← attempt (inv.encodeKeyForStore keys)
  let invVal ← attempt (inv.encodeValOnlyForStore E.toSerde [.list (chunks.map Datum.bytes)])
  storePut invKey invVal

/-- `put_lsh_index_item`. -/
def putLshIndexItem (tuple : Row) (extractor : Extractor) (tokenizer : TextAnalyzer)
    (rel idx inv : IndexRelation) (manifest : MinHashLshIndexManifest) : SessionM Unit := do
  let keys ← attempt (keyPart rel tuple)
  E.delFormerBands tuple keys idx inv
  match ← attempt (E.lshHash tuple extractor tokenizer manifest) with
  | none => pure ()
  | some bytes =>
    let chunks ← attempt (lshBands manifest bytes)
    E.putBands keys idx inv chunks

/-! ### Vector indices -/

def applyIndexChanges (idx : IndexRelation) (outcome : IndexChanges × Option SessionError) :
    SessionM Unit := do
  forM outcome.1 fun change => do
    let key ← attempt (idx.encodeKeyForStore change.1)
    match change.2 with
    | none => storeDel key
    | some vals =>
      let val ← attempt (idx.encodeValOnlyForStore E.toSerde vals)
      storePut key val
  match outcome.2 with
  | none => pure ()
  | some e => throw e

end Engine

end Session

end Retia
