import Retia.Data.Tuple

/-!
# Columns

`data/relation.rs`: the columns of a stored relation, and the check of the columns a statement gives
against those that are stored (`StoredRelationMetadata.compatibleWithCol`,
`StoredRelationMetadata.satisfiedByRequiredCol`).

The second part is about validities: the two places a validity column gets its values from are the
function `validity` (`data/functions.rs`) and the coercion of a value to the column type. The
coercion of texts and lists refuses the two ends of the time range, which the scans use as
sentinels; a value that already is a validity is passed through, and `opValidity` builds any.
-/

namespace Retia

def strBytes (s : String) : Bytes := s.toUTF8.data.toList

/-! ### Columns of stored relations -/

inductive VecElementType where
  | f32 | f64
deriving DecidableEq

mutual

inductive ColType where
  | any | bool | int | float | string | bytes | uuid
  | list (eltype : NullableColType) (len : Option Nat)
  | vec (eltype : VecElementType) (len : Nat)
  | tuple (types : List NullableColType)
  | validity | json

inductive NullableColType where
  | mk (coltype : ColType) (nullable : Bool)

end

mutual

/-- `==` on column types. -/
def ColType.beq : ColType → ColType → Bool
  | .any, .any => true
  | .bool, .bool => true
  | .int, .int => true
  | .float, .float => true
  | .string, .string => true
  | .bytes, .bytes => true
  | .uuid, .uuid => true
  | .list e l, .list e' l' => NullableColType.beq e e' && l == l'
  | .vec e l, .vec e' l' => e == e' && l == l'
  | .tuple ts, .tuple ts' => NullableColType.beqList ts ts'
  | .validity, .validity => true
  | .json, .json => true
  | _, _ => false

def NullableColType.beq : NullableColType → NullableColType → Bool
  | .mk c n, .mk c' n' => ColType.beq c c' && n == n'

def NullableColType.beqList : List NullableColType → List NullableColType → Bool
  | [], [] => true
  | t :: ts, t' :: ts' => NullableColType.beq t t' && NullableColType.beqList ts ts'
  | _, _ => false

end

/-- `ColumnDef`. The default is an expression, kept by its text. -/
structure ColumnDef where
  name : String
  typing : NullableColType
  defaultGen : Option String

structure StoredRelationMetadata where
  keys : List ColumnDef
  nonKeys : List ColumnDef

inductive ColumnError where
  /-- "required column … not provided by input". -/
  | columnNotProvided (name : String)
  /-- "requested column … has typing …, but the requested typing is …". -/
  | incompatibleTyping (name : String) (stored requested : NullableColType)
  /-- "required column … not found". -/
  | columnNotFound (name : String)

namespace StoredRelationMetadata

def columns (m : StoredRelationMetadata) : List ColumnDef := m.keys ++ m.nonKeys

/-- `satisfied_by_required_col`. -/
def satisfiedByRequiredCol (m : StoredRelationMetadata) (col : ColumnDef) :
    Except ColumnError Unit :=
  if m.columns.any fun target => target.name == col.name then .ok ()
  else if col.defaultGen.isNone then .error (.columnNotProvided col.name)
  else .ok ()

/-- `compatible_with_col`: a column of type `Any?` goes with every type. -/
def compatibleWithCol (m : StoredRelationMetadata) (col : ColumnDef) : Except ColumnError Unit :=
  match m.columns.find? fun target => target.name == col.name with
  | none => .error (.columnNotFound col.name)
  | some target =>
    if !col.typing.beq (.mk .any true) && !target.typing.beq col.typing then
      .error (.incompatibleTyping col.name target.typing col.typing)
    else .ok ()

end StoredRelationMetadata

/-! ### Validities -/

variable {X : Type}

/-- `op_validity`. The operator takes at least one argument. -/
def opValidity (args : List (DataValue X)) : Except String (DataValue X) :=
  match args.head?.bind DataValue.getInt with
  | none => .error "'validity' expects an integer"
  | some ts =>
    match args.tail with
    | [] => .ok (.validity ⟨ts, true⟩)
    | b :: _ =>
      match b.getBool with
      | none => .error "'validity' expects a boolean as second argument"
      | some isAssert => .ok (.validity ⟨ts, isAssert⟩)

/-- What the coercion to a validity column fails with. -/
inductive CoerceError (X : Type) where
  /-- "… cannot be coerced into validity". -/
  | invalidValidity (v : DataValue X)
  | panic (p : Panic)

/-- `NullableColType::coerce` on a validity column. Times are parsed by a library of the source, to
microseconds since the epoch; a time before the epoch panics. -/
def coerceValidity (parseRfc3339 : Bytes → Option Int) (curVld : Int64) (data : DataValue X) :
    Except (CoerceError X) (DataValue X) :=
  match data with
  | .validity v => .ok (.validity v)
  | .str s =>
    if s = strBytes "ASSERT" then .ok (.validity ⟨curVld, true⟩)
    else if s = strBytes "RETRACT" then .ok (.validity ⟨curVld, false⟩)
    else
      let (isAssert, tsStr) := if s.head? = some 126 then (false, s.tail) else (true, s)
      match parseRfc3339 tsStr with
      | none => .error (.invalidValidity (.str s))
      | some micros =>
        if micros < 0 then .error (.panic .unreachable)
        else
          let microseconds := Int64.ofInt micros
          if microseconds = Int64.maxValue ∨ microseconds = Int64.minValue then
            .error (.invalidValidity (.str s))
          else .ok (.validity ⟨microseconds, isAssert⟩)
  | .list [ts, isAssert] =>
    match ts.getInt, isAssert.getBool with
    | some ts', some isAssert' =>
      if ts' = Int64.maxValue ∨ ts' = Int64.minValue then
        .error (.invalidValidity (.list [ts, isAssert]))
      else .ok (.validity ⟨ts', isAssert'⟩)
    | _, _ => .error (.invalidValidity (.list [ts, isAssert]))
  | v => .error (.invalidValidity v)

end Retia
