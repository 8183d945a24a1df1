import Mathlib.Data.List.Basic
import Retia.Lib.Except
import Retia.Data.Memcmp
import Retia.Data.Relation

/-!
# Default expressions in metadata

`parse/schema.rs`, `parse/expr.rs` and `data/expr.rs`: a column can have an expression for its
default. It is built from the parse tree of the schema and written with the metadata of the
relation, its operators by their names; when metadata is read, the names are looked up in the table
of functions (`getOp`).

The builder takes operators from this table, with one exception: the second argument of a function
whose name starts with `regex_` is wrapped in `OP_REGEX` (`postProcessArgs`), which is not in the
table.

* `buildExpr` — the builder, over what the parser has recognised (`SourceExpr`);
* `ExprOf.serialize`, `ExprOf.deserialize` — the two sides of the serialisation;
* `createRelation`, `getRelation`, `updateRelation` — metadata that is created, read and changed,
  the serialisation library being a parameter that gives back the plain data it was given;
* `metadata_readable_iff` — metadata can be read back, now and after every later change, exactly if
  no default calls one of those functions.
-/

namespace Retia.Schema

open List

/-! ### Operators -/

/-- An operator, as far as it matters before evaluation: its name, and how many arguments it takes.
-/
structure OpInfo where
  name : String
  minArity : Nat
  vararg : Bool
deriving DecidableEq

def OP_REGEX : OpInfo := ⟨"OP_REGEX", 1, false⟩

/-- The functions, in the order of `get_op`. -/
def opTable : List (String × OpInfo) :=
  [("coalesce", ⟨"OP_COALESCE", 0, true⟩), ("list", ⟨"OP_LIST", 0, true⟩), ("json", ⟨"OP_JSON", 1, false⟩),
   ("set_json_path", ⟨"OP_SET_JSON_PATH", 3, false⟩),
     ("remove_json_path", ⟨"OP_REMOVE_JSON_PATH", 2, false⟩),
   ("parse_json", ⟨"OP_PARSE_JSON", 1, false⟩), ("dump_json", ⟨"OP_DUMP_JSON", 1, false⟩),
   ("json_object", ⟨"OP_JSON_OBJECT", 0, true⟩), ("is_json", ⟨"OP_IS_JSON", 1, false⟩),
   ("json_to_scalar", ⟨"OP_JSON_TO_SCALAR", 1, false⟩), ("add", ⟨"OP_ADD", 0, true⟩),
     ("sub", ⟨"OP_SUB", 2, false⟩),
   ("mul", ⟨"OP_MUL", 0, true⟩), ("div", ⟨"OP_DIV", 2, false⟩), ("minus", ⟨"OP_MINUS", 1, false⟩),
   ("abs", ⟨"OP_ABS", 1, false⟩), ("signum", ⟨"OP_SIGNUM", 1, false⟩), ("floor", ⟨"OP_FLOOR", 1, false⟩),
   ("ceil", ⟨"OP_CEIL", 1, false⟩), ("round", ⟨"OP_ROUND", 1, false⟩), ("mod", ⟨"OP_MOD", 2, false⟩),
   ("max", ⟨"OP_MAX", 1, true⟩), ("min", ⟨"OP_MIN", 1, true⟩), ("pow", ⟨"OP_POW", 2, false⟩),
   ("sqrt", ⟨"OP_SQRT", 1, false⟩), ("exp", ⟨"OP_EXP", 1, false⟩), ("exp2", ⟨"OP_EXP2", 1, false⟩),
   ("ln", ⟨"OP_LN", 1, false⟩), ("log2", ⟨"OP_LOG2", 1, false⟩), ("log10", ⟨"OP_LOG10", 1, false⟩),
   ("sin", ⟨"OP_SIN", 1, false⟩), ("cos", ⟨"OP_COS", 1, false⟩), ("tan", ⟨"OP_TAN", 1, false⟩),
   ("asin", ⟨"OP_ASIN", 1, false⟩), ("acos", ⟨"OP_ACOS", 1, false⟩), ("atan", ⟨"OP_ATAN", 1, false⟩),
   ("atan2", ⟨"OP_ATAN2", 2, false⟩), ("sinh", ⟨"OP_SINH", 1, false⟩), ("cosh", ⟨"OP_COSH", 1, false⟩),
   ("tanh", ⟨"OP_TANH", 1, false⟩), ("asinh", ⟨"OP_ASINH", 1, false⟩), ("acosh", ⟨"OP_ACOSH", 1, false⟩),
   ("atanh", ⟨"OP_ATANH", 1, false⟩), ("eq", ⟨"OP_EQ", 2, false⟩), ("neq", ⟨"OP_NEQ", 2, false⟩),
   ("gt", ⟨"OP_GT", 2, false⟩), ("ge", ⟨"OP_GE", 2, false⟩), ("lt", ⟨"OP_LT", 2, false⟩),
   ("le", ⟨"OP_LE", 2, false⟩), ("or", ⟨"OP_OR", 0, true⟩), ("and", ⟨"OP_AND", 0, true⟩),
   ("negate", ⟨"OP_NEGATE", 1, false⟩), ("bit_and", ⟨"OP_BIT_AND", 2, false⟩),
     ("bit_or", ⟨"OP_BIT_OR", 2, false⟩),
   ("bit_not", ⟨"OP_BIT_NOT", 1, false⟩), ("bit_xor", ⟨"OP_BIT_XOR", 2, false⟩),
   ("pack_bits", ⟨"OP_PACK_BITS", 1, false⟩), ("unpack_bits", ⟨"OP_UNPACK_BITS", 1, false⟩),
   ("concat", ⟨"OP_CONCAT", 1, true⟩), ("str_includes", ⟨"OP_STR_INCLUDES", 2, false⟩),
   ("lowercase", ⟨"OP_LOWERCASE", 1, false⟩), ("uppercase", ⟨"OP_UPPERCASE", 1, false⟩),
   ("trim", ⟨"OP_TRIM", 1, false⟩), ("trim_start", ⟨"OP_TRIM_START", 1, false⟩),
   ("trim_end", ⟨"OP_TRIM_END", 1, false⟩), ("starts_with", ⟨"OP_STARTS_WITH", 2, false⟩),
   ("ends_with", ⟨"OP_ENDS_WITH", 2, false⟩), ("is_null", ⟨"OP_IS_NULL", 1, false⟩),
   ("is_int", ⟨"OP_IS_INT", 1, false⟩), ("is_float", ⟨"OP_IS_FLOAT", 1, false⟩),
     ("is_num", ⟨"OP_IS_NUM", 1, false⟩),
   ("is_string", ⟨"OP_IS_STRING", 1, false⟩), ("is_list", ⟨"OP_IS_LIST", 1, false⟩),
   ("is_bytes", ⟨"OP_IS_BYTES", 1, false⟩), ("is_in", ⟨"OP_IS_IN", 2, false⟩),
   ("is_finite", ⟨"OP_IS_FINITE", 1, false⟩), ("is_infinite", ⟨"OP_IS_INFINITE", 1, false⟩),
   ("is_nan", ⟨"OP_IS_NAN", 1, false⟩), ("is_uuid", ⟨"OP_IS_UUID", 1, false⟩),
     ("is_vec", ⟨"OP_IS_VEC", 1, false⟩),
   ("length", ⟨"OP_LENGTH", 1, false⟩), ("sorted", ⟨"OP_SORTED", 1, false⟩),
     ("reverse", ⟨"OP_REVERSE", 1, false⟩),
   ("append", ⟨"OP_APPEND", 2, false⟩), ("prepend", ⟨"OP_PREPEND", 2, false⟩),
   ("unicode_normalize", ⟨"OP_UNICODE_NORMALIZE", 2, false⟩), ("haversine", ⟨"OP_HAVERSINE", 4, false⟩),
   ("haversine_deg_input", ⟨"OP_HAVERSINE_DEG_INPUT", 4, false⟩),
     ("deg_to_rad", ⟨"OP_DEG_TO_RAD", 1, false⟩),
   ("rad_to_deg", ⟨"OP_RAD_TO_DEG", 1, false⟩), ("get", ⟨"OP_GET", 2, true⟩),
   ("maybe_get", ⟨"OP_MAYBE_GET", 2, false⟩), ("chars", ⟨"OP_CHARS", 1, false⟩),
   ("slice_string", ⟨"OP_SLICE_STRING", 3, false⟩), ("from_substrings", ⟨"OP_FROM_SUBSTRINGS", 1, false⟩),
   ("slice", ⟨"OP_SLICE", 3, false⟩), ("regex_matches", ⟨"OP_REGEX_MATCHES", 2, false⟩),
   ("regex_replace", ⟨"OP_REGEX_REPLACE", 3, false⟩),
     ("regex_replace_all", ⟨"OP_REGEX_REPLACE_ALL", 3, false⟩),
   ("regex_extract", ⟨"OP_REGEX_EXTRACT", 2, false⟩),
     ("regex_extract_first", ⟨"OP_REGEX_EXTRACT_FIRST", 2, false⟩),
   ("t2s", ⟨"OP_T2S", 1, false⟩), ("encode_base64", ⟨"OP_ENCODE_BASE64", 1, false⟩),
   ("decode_base64", ⟨"OP_DECODE_BASE64", 1, false⟩), ("first", ⟨"OP_FIRST", 1, false⟩),
   ("last", ⟨"OP_LAST", 1, false⟩), ("chunks", ⟨"OP_CHUNKS", 2, false⟩),
   ("chunks_exact", ⟨"OP_CHUNKS_EXACT", 2, false⟩), ("windows", ⟨"OP_WINDOWS", 2, false⟩),
   ("to_int", ⟨"OP_TO_INT", 1, false⟩), ("to_float", ⟨"OP_TO_FLOAT", 1, false⟩),
   ("to_string", ⟨"OP_TO_STRING", 1, false⟩), ("l2_dist", ⟨"OP_L2_DIST", 2, false⟩),
   ("l2_normalize", ⟨"OP_L2_NORMALIZE", 1, false⟩), ("ip_dist", ⟨"OP_IP_DIST", 2, false⟩),
   ("cos_dist", ⟨"OP_COS_DIST", 2, false⟩), ("int_range", ⟨"OP_INT_RANGE", 1, true⟩),
   ("rand_float", ⟨"OP_RAND_FLOAT", 0, false⟩), ("rand_bernoulli", ⟨"OP_RAND_BERNOULLI", 1, false⟩),
   ("rand_int", ⟨"OP_RAND_INT", 2, false⟩), ("rand_choose", ⟨"OP_RAND_CHOOSE", 1, false⟩),
   ("assert", ⟨"OP_ASSERT", 1, true⟩), ("union", ⟨"OP_UNION", 1, true⟩),
   ("intersection", ⟨"OP_INTERSECTION", 1, true⟩), ("difference", ⟨"OP_DIFFERENCE", 2, true⟩),
   ("to_uuid", ⟨"OP_TO_UUID", 1, false⟩), ("to_bool", ⟨"OP_TO_BOOL", 1, false⟩),
   ("to_unity", ⟨"OP_TO_UNITY", 1, false⟩), ("rand_uuid_v1", ⟨"OP_RAND_UUID_V1", 0, false⟩),
   ("rand_uuid_v4", ⟨"OP_RAND_UUID_V4", 0, false⟩), ("rand_uuid_v7", ⟨"OP_RAND_UUID_V7", 0, false⟩),
   ("rand_uuid", ⟨"OP_RAND_UUID", 0, false⟩), ("uuid_timestamp", ⟨"OP_UUID_TIMESTAMP", 1, false⟩),
   ("validity", ⟨"OP_VALIDITY", 1, true⟩), ("now", ⟨"OP_NOW", 0, false⟩),
   ("format_timestamp", ⟨"OP_FORMAT_TIMESTAMP", 1, true⟩),
     ("parse_timestamp", ⟨"OP_PARSE_TIMESTAMP", 1, false⟩),
   ("vec", ⟨"OP_VEC", 1, true⟩), ("rand_vec", ⟨"OP_RAND_VEC", 1, true⟩)]

/-- `get_op`. -/
def getOp (name : String) : Option OpInfo := (opTable.find? fun e => e.1 == name).map Prod.snd

/-- An expression; in memory over operators, in metadata over their names. -/
inductive ExprOf (O : Type) where
  | binding (var : String) (tuplePos : Option Nat)
  | const (val : Value)
  | apply (op : O) (args : List (ExprOf O))
  | unboundApply (op : String) (args : List (ExprOf O))
  | cond (clauses : List (ExprOf O × ExprOf O))

abbrev Expr := ExprOf OpInfo

/-! ### The builder -/

/-- The operators between two expressions, by their rules. -/
inductive InfixRule where
  | add | sub | mul | div | mod | pow | eq | ne | gt | ge | lt | le | concat | or | and | coalesce
  | fieldAccess

inductive PrefixRule where
  | minus | negate

/-- What the parser has recognised: precedences are resolved and literals read. -/
inductive SourceExpr where
  | var (name : String)
  | param (name : String)
  | literal (val : Value)
  | list (items : List SourceExpr)
  | object (items : List (SourceExpr × SourceExpr))
  | apply (ident : String) (args : List SourceExpr)
  | binary (op : InfixRule) (lhs rhs : SourceExpr)
  | unary (op : PrefixRule) (rhs : SourceExpr)

inductive ParseError where
  | paramNotFound (name : String)
  | emptyCond
  | wrongArgsToIf
  | wrongNumArgs (name help : String)
  | duplicateNameInCols (name : String)
  | panic

/-- `build_expr_infix`: the operator of a rule. -/
def infixOp : InfixRule → OpInfo
  | .add => ⟨"OP_ADD", 0, true⟩
  | .sub => ⟨"OP_SUB", 2, false⟩
  | .mul => ⟨"OP_MUL", 0, true⟩
  | .div => ⟨"OP_DIV", 2, false⟩
  | .mod => ⟨"OP_MOD", 2, false⟩
  | .pow => ⟨"OP_POW", 2, false⟩
  | .eq => ⟨"OP_EQ", 2, false⟩
  | .ne => ⟨"OP_NEQ", 2, false⟩
  | .gt => ⟨"OP_GT", 2, false⟩
  | .ge => ⟨"OP_GE", 2, false⟩
  | .lt => ⟨"OP_LT", 2, false⟩
  | .le => ⟨"OP_LE", 2, false⟩
  | .concat => ⟨"OP_CONCAT", 1, true⟩
  | .or => ⟨"OP_OR", 0, true⟩
  | .and => ⟨"OP_AND", 0, true⟩
  | .coalesce => ⟨"OP_COALESCE", 0, true⟩
  | .fieldAccess => ⟨"OP_MAYBE_GET", 2, false⟩

def prefixOp : PrefixRule → OpInfo
  | .minus => ⟨"OP_MINUS", 1, false⟩
  | .negate => ⟨"OP_NEGATE", 1, false⟩

def OP_LIST : OpInfo := ⟨"OP_LIST", 0, true⟩

def OP_JSON_OBJECT : OpInfo := ⟨"OP_JSON_OBJECT", 0, true⟩

/-- `post_process_args`, which indexes before the number of arguments is checked. -/
def postProcessArgs (op : OpInfo) (args : List Expr) : Except ParseError (List Expr) :=
  if "OP_REGEX_".toList.isPrefixOf op.name.toList then
    match args with
    | a :: b :: rest => .ok (a :: .apply OP_REGEX [b] :: rest)
    | _ => .error .panic
  else .ok args

/-- The number of arguments, against the arity of the function. -/
def checkArity (ident : String) (op : OpInfo) (args : List Expr) : Except ParseError Unit :=
  if op.vararg then
    if op.minArity ≤ args.length then .ok ()
    else .error (.wrongNumArgs ident s!"Need at least {op.minArity} argument(s)")
  else if op.minArity = args.length then .ok ()
  else .error (.wrongNumArgs ident s!"Need exactly {op.minArity} argument(s)")

/-- `chunks(2)`, on a list of even length. -/
def chunksOfTwo : List Expr → List (Expr × Expr)
  | a :: b :: rest => (a, b) :: chunksOfTwo rest
  | _ => []

/-- The last clause of a conditional is unconditional. -/
def closeClauses (clauses : List (Expr × Expr)) : List (Expr × Expr) :=
  match clauses.getLast? with
  | some (.const (.bool true), _) | none => clauses
  | some _ => clauses ++ [(.const (.bool true), .const .null)]

/-- The function `cond`. An odd argument at the end gets a condition, which is null. -/
def buildCond (args : List Expr) : Except ParseError Expr :=
  if args.isEmpty then .error .emptyCond
  else
    let args := if args.length % 2 = 1 then args.dropLast ++ [.const .null] ++ args.getLast?.toList
      else args
    .ok (.cond (closeClauses (chunksOfTwo args)))

/-- The function `if`. -/
def buildIf : List Expr → Except ParseError Expr
  | [cond, thn] => .ok (.cond [(cond, thn), (.const (.bool true), .const .null)])
  | [cond, thn, els] => .ok (.cond [(cond, thn), (.const (.bool true), els)])
  | _ => .error .wrongArgsToIf

def buildApply (ident : String) (args : List Expr) : Except ParseError Expr :=
  if ident = "cond" then buildCond args
  else if ident = "if" then buildIf args
  else
    match getOp ident with
    | none => .ok (.unboundApply ident args)
    | some op => do
      let args ← postProcessArgs op args
      checkArity ident op args
      return .apply op args

mutual

/-- `build_expr` and `build_term`, without parameters, as for a schema. -/
def buildExpr : SourceExpr → Except ParseError Expr
  | .var name => .ok (.binding name none)
  | .param name => .error (.paramNotFound name)
  | .literal val => .ok (.const val)
  | .list items => do return .apply OP_LIST (← buildExprs items)
  | .object items => do return .apply OP_JSON_OBJECT (← buildItems items)
  | .apply ident args => do buildApply ident (← buildExprs args)
  | .binary op lhs rhs => do return .apply (infixOp op) [← buildExpr lhs, ← buildExpr rhs]
  | .unary op rhs => do return .apply (prefixOp op) [← buildExpr rhs]

def buildExprs : List SourceExpr → Except ParseError (List Expr)
  | [] => .ok []
  | e :: es => do return (← buildExpr e) :: (← buildExprs es)

def buildItems : List (SourceExpr × SourceExpr) → Except ParseError (List Expr)
  | [] => .ok []
  | (k, v) :: items => do return (← buildExpr k) :: (← buildExpr v) :: (← buildItems items)

end

/-! ### Serialisation -/

inductive DecodeError where
  /-- `op not found in serialized data`. -/
  | opNotFound (name : String)
  /-- The data is not that of a handle. -/
  | relationDeser
  | storedRelationNotFound (name : String)
  | panic

/-- `OpVisitor::visit_str`. -/
def deserializeOp (v : String) : Except DecodeError OpInfo :=
  if "OP_".toList.isPrefixOf v.toList then
    match getOp (String.ofList ((v.toList.drop 3).map Char.toLower)) with
    | some op => .ok op
    | none => .error (.opNotFound v)
  else .error .panic

namespace ExprOf

mutual

/-- `Serialize`: an operator is written as its name. -/
def serialize : Expr → ExprOf String
  | .binding var tuplePos => .binding var tuplePos
  | .const val => .const val
  | .apply op args => .apply op.name (serializeArgs args)
  | .unboundApply op args => .unboundApply op (serializeArgs args)
  | .cond clauses => .cond (serializeClauses clauses)

def serializeArgs : List Expr → List (ExprOf String)
  | [] => []
  | e :: es => serialize e :: serializeArgs es

def serializeClauses : List (Expr × Expr) → List (ExprOf String × ExprOf String)
  | [] => []
  | (c, v) :: clauses => (serialize c, serialize v) :: serializeClauses clauses

end

mutual

/-- `Deserialize`: an operator is looked up. -/
def deserialize : ExprOf String → Except DecodeError Expr
  | .binding var tuplePos => .ok (.binding var tuplePos)
  | .const val => .ok (.const val)
  | .apply op args => do return .apply (← deserializeOp op) (← deserializeArgs args)
  | .unboundApply op args => do return .unboundApply op (← deserializeArgs args)
  | .cond clauses => do return .cond (← deserializeClauses clauses)

def deserializeArgs : List (ExprOf String) → Except DecodeError (List Expr)
  | [] => .ok []
  | e :: es => do return (← deserialize e) :: (← deserializeArgs es)

def deserializeClauses : List (ExprOf String × ExprOf String) →
    Except DecodeError (List (Expr × Expr))
  | [] => .ok []
  | (c, v) :: clauses => do return (← deserialize c, ← deserialize v) :: (← deserializeClauses clauses)

end

mutual

def ops {O : Type} : ExprOf O → List O
  | .binding _ _ | .const _ => []
  | .apply op args => op :: opsArgs args
  | .unboundApply _ args => opsArgs args
  | .cond clauses => opsClauses clauses

def opsArgs {O : Type} : List (ExprOf O) → List O
  | [] => []
  | e :: es => ops e ++ opsArgs es

def opsClauses {O : Type} : List (ExprOf O × ExprOf O) → List O
  | [] => []
  | (c, v) :: clauses => ops c ++ ops v ++ opsClauses clauses

end

def Known (op : OpInfo) : Prop := deserializeOp op.name = .ok op

mutual

theorem deserialize_serialize : ∀ {e : Expr}, (∀ op ∈ e.ops, Known op) →
    e.serialize.deserialize = .ok e
  | .binding _ _, _ => rfl
  | .const _, _ => rfl
  | .apply op args, h => by
    obtain ⟨hop, hargs⟩ := forall_mem_cons.1 (by simpa only [ops] using h)
    rw [serialize, deserialize, hop, deserializeArgs_serializeArgs hargs]
    rfl
  | .unboundApply op args, h => by
    rw [serialize, deserialize, deserializeArgs_serializeArgs (by simpa only [ops] using h)]
    rfl
  | .cond clauses, h => by
    rw [serialize, deserialize, deserializeClauses_serializeClauses (by simpa only [ops] using h)]
    rfl

theorem deserializeArgs_serializeArgs : ∀ {es : List Expr}, (∀ op ∈ opsArgs es, Known op) →
    deserializeArgs (serializeArgs es) = .ok es
  | [], _ => rfl
  | e :: es, h => by
    obtain ⟨he, hes⟩ := forall_mem_append.1 (by simpa only [opsArgs] using h)
    rw [serializeArgs, deserializeArgs, deserialize_serialize he, deserializeArgs_serializeArgs hes]
    rfl

theorem deserializeClauses_serializeClauses : ∀ {clauses : List (Expr × Expr)},
    (∀ op ∈ opsClauses clauses, Known op) →
    deserializeClauses (serializeClauses clauses) = .ok clauses
  | [], _ => rfl
  | (c, v) :: clauses, h => by
    obtain ⟨hcv, hrest⟩ := forall_mem_append.1 (by simpa only [opsClauses] using h)
    obtain ⟨hc, hv⟩ := forall_mem_append.1 hcv
    rw [serializeClauses, deserializeClauses, deserialize_serialize hc,
      deserialize_serialize hv, deserializeClauses_serializeClauses hrest]
    rfl

end

mutual

/-- An expression that has been read back has only known operators. -/
theorem known_of_deserialize : ∀ {e e' : Expr}, e.serialize.deserialize = .ok e' →
    ∀ op ∈ e.ops, ∃ op', deserializeOp op.name = .ok op'
  | .binding _ _, _, _, _, hop | .const _, _, _, _, hop => by simp [ops] at hop
  | .apply op args, _, h, _, hop => by
    rw [serialize, deserialize] at h
    obtain ⟨op', hop', hrest⟩ := bind_ok.1 h
    obtain ⟨args', hargs, -⟩ := bind_ok.1 hrest
    rw [ops, mem_cons] at hop
    rcases hop with rfl | hop
    · exact ⟨op', hop'⟩
    · exact known_of_deserializeArgs hargs _ hop
  | .unboundApply op args, _, h, _, hop => by
    rw [serialize, deserialize] at h
    obtain ⟨args', hargs, -⟩ := bind_ok.1 h
    rw [ops] at hop
    exact known_of_deserializeArgs hargs _ hop
  | .cond clauses, _, h, _, hop => by
    rw [serialize, deserialize] at h
    obtain ⟨clauses', hclauses, -⟩ := bind_ok.1 h
    rw [ops] at hop
    exact known_of_deserializeClauses hclauses _ hop

theorem known_of_deserializeArgs : ∀ {es es' : List Expr}, deserializeArgs (serializeArgs es) =
    .ok es' → ∀ op ∈ opsArgs es, ∃ op', deserializeOp op.name = .ok op'
  | [], _, _, _, hop => by simp [opsArgs] at hop
  | e :: es, _, h, _, hop => by
    rw [serializeArgs, deserializeArgs] at h
    obtain ⟨e', he, hrest⟩ := bind_ok.1 h
    obtain ⟨es', hes, -⟩ := bind_ok.1 hrest
    rw [opsArgs, mem_append] at hop
    rcases hop with hop | hop
    · exact known_of_deserialize he _ hop
    · exact known_of_deserializeArgs hes _ hop

theorem known_of_deserializeClauses : ∀ {clauses clauses' : List (Expr × Expr)},
    deserializeClauses (serializeClauses clauses) = .ok clauses' →
    ∀ op ∈ opsClauses clauses, ∃ op', deserializeOp op.name = .ok op'
  | [], _, _, _, hop => by simp [opsClauses] at hop
  | (c, v) :: clauses, _, h, _, hop => by
    rw [serializeClauses, deserializeClauses] at h
    obtain ⟨c', hc, hrest⟩ := bind_ok.1 h
    obtain ⟨v', hv, hrest⟩ := bind_ok.1 hrest
    obtain ⟨clauses', hclauses, -⟩ := bind_ok.1 hrest
    rw [opsClauses, mem_append, mem_append] at hop
    rcases hop with (hop | hop) | hop
    · exact known_of_deserialize hc _ hop
    · exact known_of_deserialize hv _ hop
    · exact known_of_deserializeClauses hclauses _ hop

end

end ExprOf

/-! ### The operators of a built expression -/

/-- The function whose second argument is wrapped. -/
def isRegexFunction (ident : String) : Bool :=
  match getOp ident with
  | some op => "OP_REGEX_".toList.isPrefixOf op.name.toList
  | none => false

namespace SourceExpr

mutual

/-- Some function call in the expression is one of a regular expression function. -/
def callsRegex : SourceExpr → Bool
  | .var _ | .param _ | .literal _ => false
  | .list items => anyCallsRegex items
  | .object items => itemsCallRegex items
  | .apply ident args => isRegexFunction ident || anyCallsRegex args
  | .binary _ lhs rhs => callsRegex lhs || callsRegex rhs
  | .unary _ rhs => callsRegex rhs

def anyCallsRegex : List SourceExpr → Bool
  | [] => false
  | e :: es => callsRegex e || anyCallsRegex es

def itemsCallRegex : List (SourceExpr × SourceExpr) → Bool
  | [] => false
  | (k, v) :: items => callsRegex k || callsRegex v || itemsCallRegex items

end

end SourceExpr

def InTable (op : OpInfo) : Prop := op ∈ opTable.map Prod.snd

instance (op : OpInfo) : Decidable (InTable op) :=
  inferInstanceAs (Decidable (op ∈ opTable.map Prod.snd))

theorem known_of_inTable {op : OpInfo} (h : InTable op) : ExprOf.Known op := by
  have hall : ∀ e ∈ opTable, (deserializeOp e.2.name).toOption = some e.2 := by decide +kernel
  obtain ⟨e, he, rfl⟩ := mem_map.1 h
  unfold ExprOf.Known
  have hsome := hall e he
  cases hdec : deserializeOp e.2.name with
  | ok op => rw [hdec] at hsome; exact congrArg Except.ok (Option.some.inj hsome)
  | error err => rw [hdec] at hsome; cases hsome

theorem not_inTable_regex : ¬ InTable OP_REGEX := by decide +kernel

theorem inTable_of_getOp {ident : String} {op : OpInfo} (h : getOp ident = some op) :
    InTable op := by
  obtain ⟨e, he, rfl⟩ := Option.map_eq_some_iff.1 h
  exact mem_map.2 ⟨e, mem_of_find?_eq_some he, rfl⟩

/-- The operators come from the table, with `OP_REGEX` among them or not. -/
structure Built (regex : Bool) (ops : List OpInfo) : Prop where
  inTable : ∀ op ∈ ops, InTable op ∨ op = OP_REGEX
  regex_iff : OP_REGEX ∈ ops ↔ regex = true

namespace Built

variable {r r' : Bool} {ops ops' : List OpInfo} {op : OpInfo}

theorem nil : Built false [] :=
  ⟨fun _ h => (nomatch h), ⟨fun h => (nomatch h), fun h => (nomatch h)⟩⟩

theorem append (h : Built r ops) (h' : Built r' ops') : Built (r || r') (ops ++ ops') where
  inTable op hop := (mem_append.1 hop).elim (h.inTable op) (h'.inTable op)
  regex_iff := by rw [mem_append, h.regex_iff, h'.regex_iff, Bool.or_eq_true]

theorem cons (hop : InTable op) (h : Built r ops) : Built r (op :: ops) where
  inTable o ho := (mem_cons.1 ho).elim (fun heq => .inl (heq ▸ hop)) (h.inTable o)
  regex_iff := by
    have hne : OP_REGEX ≠ op := fun heq => not_inTable_regex (heq ▸ hop)
    rw [mem_cons, h.regex_iff]
    exact ⟨fun h => h.resolve_left hne, .inr⟩

theorem regex (h : ∀ op ∈ ops, InTable op ∨ op = OP_REGEX) (hmem : OP_REGEX ∈ ops) :
    Built true ops :=
  ⟨h, ⟨fun _ => rfl, fun _ => hmem⟩⟩

end Built

open ExprOf

theorem opsArgs_append (l l' : List Expr) : opsArgs (l ++ l') = opsArgs l ++ opsArgs l' := by
  induction l with
  | nil => rfl
  | cons e l ih => rw [cons_append, opsArgs, opsArgs, ih, append_assoc]

theorem opsClauses_append (l l' : List (Expr × Expr)) :
    opsClauses (l ++ l') = opsClauses l ++ opsClauses l' := by
  induction l with
  | nil => rfl
  | cons p l ih => rw [cons_append, opsClauses, opsClauses, ih, ← append_assoc]

theorem opsClauses_chunksOfTwo : ∀ {l : List Expr}, l.length % 2 = 0 →
    opsClauses (chunksOfTwo l) = opsArgs l
  | [], _ => rfl
  | [_], h => by simp at h
  | a :: b :: l, h => by
    have hl : l.length % 2 = 0 := by
      rw [length_cons, length_cons] at h
      omega
    rw [chunksOfTwo, opsClauses, opsClauses_chunksOfTwo hl, opsArgs, opsArgs, append_assoc]

theorem opsClauses_closeClauses (clauses : List (Expr × Expr)) :
    opsClauses (closeClauses clauses) = opsClauses clauses := by
  unfold closeClauses
  split
  · rfl
  · rfl
  · rw [opsClauses_append]
    exact append_nil _

variable {args : List Expr} {e : Expr}

theorem ops_buildCond (h : buildCond args = .ok e) : e.ops = opsArgs args := by
  unfold buildCond at h
  split at h
  · cases h
  rename_i hne
  cases h
  rw [ops, opsClauses_closeClauses]
  split
  · rename_i hodd
    obtain ⟨init, last, rfl⟩ := eq_nil_or_concat args |>.resolve_left (by simpa using hne)
    have heven : ((init ++ [last]).dropLast ++ [ExprOf.const DataValue.null] ++
        (init ++ [last]).getLast?.toList).length % 2 = 0 := by
      simp only [concat_eq_append, length_append, length_singleton] at hodd
      simp
      omega
    rw [concat_eq_append, opsClauses_chunksOfTwo heven, opsArgs_append, opsArgs_append]
    simp [opsArgs_append, opsArgs, ops]
  · rename_i heven
    exact opsClauses_chunksOfTwo (by omega)

theorem ops_buildIf (h : buildIf args = .ok e) : e.ops = opsArgs args := by
  unfold buildIf at h
  split at h <;> cases h <;> simp [ops, opsClauses, opsArgs]

/-- A function call: the operator of the function, those of its arguments, and `OP_REGEX` for the
functions of regular expressions. -/
theorem built_buildApply {ident : String} {r : Bool} (hargs : Built r (opsArgs args))
    (h : buildApply ident args = .ok e) :
    Built (isRegexFunction ident || r) e.ops := by
  unfold buildApply at h
  split at h
  · rename_i hcond
    subst hcond
    rw [ops_buildCond h, show isRegexFunction "cond" = false by decide +kernel, Bool.false_or]
    exact hargs
  split at h
  · rename_i hif
    subst hif
    rw [ops_buildIf h, show isRegexFunction "if" = false by decide +kernel, Bool.false_or]
    exact hargs
  unfold isRegexFunction
  split at h
  · rename_i hnone
    cases h
    rw [hnone]
    exact hargs
  · rename_i op hop
    obtain ⟨args', hargs', hrest⟩ := bind_ok.1 h
    obtain ⟨_, -, he⟩ := bind_ok.1 hrest
    cases he
    rw [hop]
    dsimp only
    unfold postProcessArgs at hargs'
    split at hargs'
    · rename_i hnamed
      rw [hnamed, Bool.true_or]
      split at hargs'
      · cases hargs'
        refine .regex (fun o ho => ?_) (by simp [ops, opsArgs])
        simp only [ops, opsArgs, mem_cons, mem_append, append_nil] at ho
        rcases ho with rfl | ho | (rfl | ho) | ho
        · exact .inl (inTable_of_getOp hop)
        · exact hargs.inTable o (by simp [opsArgs, ho])
        · exact .inr rfl
        · exact hargs.inTable o (by simp [opsArgs, ho])
        · exact hargs.inTable o (by simp [opsArgs, ho])
      · cases hargs'
    · rename_i hnamed
      cases hargs'
      rw [Bool.not_eq_true] at hnamed
      rw [hnamed, Bool.false_or, ops]
      exact hargs.cons (inTable_of_getOp hop)

theorem inTable_infixOp (op : InfixRule) : InTable (infixOp op) := by
  cases op <;> decide +kernel

theorem inTable_prefixOp (op : PrefixRule) : InTable (prefixOp op) := by
  cases op <;> decide +kernel

mutual

/-- **The operators of a built expression** are in the table, but for `OP_REGEX`, which is there
exactly if a function of regular expressions is called. -/
theorem built_buildExpr : ∀ {s : SourceExpr} {e : Expr}, buildExpr s = .ok e →
    Built s.callsRegex e.ops
  | .var _, _, h => by cases h; exact .nil
  | .param _, _, h => by cases h
  | .literal _, _, h => by cases h; exact .nil
  | .list items, _, h => by
    obtain ⟨args, hargs, he⟩ := bind_ok.1 (by simpa only [buildExpr] using h)
    cases he
    exact (built_buildExprs hargs).cons (by decide +kernel)
  | .object items, _, h => by
    obtain ⟨args, hargs, he⟩ := bind_ok.1 (by simpa only [buildExpr] using h)
    cases he
    exact (built_buildItems hargs).cons (by decide +kernel)
  | .apply ident args, _, h => by
    obtain ⟨args', hargs, he⟩ := bind_ok.1 (by simpa only [buildExpr] using h)
    exact built_buildApply (built_buildExprs hargs) he
  | .binary op lhs rhs, _, h => by
    obtain ⟨l, hl, hrest⟩ := bind_ok.1 (by simpa only [buildExpr] using h)
    obtain ⟨r, hr, he⟩ := bind_ok.1 hrest
    cases he
    have hargs := (built_buildExpr hl).append ((built_buildExpr hr).append .nil)
    rw [Bool.or_false] at hargs
    exact hargs.cons (inTable_infixOp op)
  | .unary op rhs, _, h => by
    obtain ⟨r, hr, he⟩ := bind_ok.1 (by simpa only [buildExpr] using h)
    cases he
    have hargs := (built_buildExpr hr).append .nil
    rw [Bool.or_false] at hargs
    exact hargs.cons (inTable_prefixOp op)

theorem built_buildExprs : ∀ {ss : List SourceExpr} {es : List Expr}, buildExprs ss = .ok es →
    Built (SourceExpr.anyCallsRegex ss) (opsArgs es)
  | [], _, h => by cases h; exact .nil
  | s :: ss, _, h => by
    obtain ⟨e, he, hrest⟩ := bind_ok.1 (by simpa only [buildExprs] using h)
    obtain ⟨es, hes, hl⟩ := bind_ok.1 hrest
    cases hl
    exact (built_buildExpr he).append (built_buildExprs hes)

theorem built_buildItems : ∀ {items : List (SourceExpr × SourceExpr)} {es : List Expr},
    buildItems items = .ok es → Built (SourceExpr.itemsCallRegex items) (opsArgs es)
  | [], _, h => by cases h; exact .nil
  | (k, v) :: items, _, h => by
    obtain ⟨k', hk, hrest⟩ := bind_ok.1 (by simpa only [buildItems] using h)
    obtain ⟨v', hv, hrest⟩ := bind_ok.1 hrest
    obtain ⟨es, hes, hl⟩ := bind_ok.1 hrest
    cases hl
    have hargs := (built_buildExpr hk).append ((built_buildExpr hv).append (built_buildItems hes))
    rwa [← Bool.or_assoc] at hargs

end

/-- **An expression is read back** if it calls no function of regular expressions, -/
theorem deserialize_buildExpr {s : SourceExpr} (h : buildExpr s = .ok e)
    (hno : s.callsRegex = false) : e.serialize.deserialize = .ok e := by
  have hbuilt := built_buildExpr h
  refine deserialize_serialize fun op hop => ?_
  rcases hbuilt.inTable op hop with hin | rfl
  · exact known_of_inTable hin
  · rw [hbuilt.regex_iff, hno] at hop
    cases hop

theorem callsRegex_of_deserialize {s : SourceExpr} {e e' : Expr} (h : buildExpr s = .ok e)
    (hread : e.serialize.deserialize = .ok e') : s.callsRegex = false := by
  rw [← Bool.not_eq_true, ← (built_buildExpr h).regex_iff]
  intro hregex
  obtain ⟨op', hop'⟩ := known_of_deserialize hread _ hregex
  have hunknown : (deserializeOp OP_REGEX.name).toOption = none := by decide +kernel
  rw [hop'] at hunknown
  cases hunknown

/-! ### Columns -/

/-- A column as it is written: its type, if there is one, and the expression for its default. -/
structure SourceCol where
  name : String
  typing : Option NullableColType
  default : Option SourceExpr

/-- `ColumnDef`, in memory or in metadata. -/
structure ColumnOf (O : Type) where
  name : String
  typing : NullableColType
  defaultGen : Option (ExprOf O)

/-- `parse_col`. -/
def parseCol (c : SourceCol) : Except ParseError (ColumnOf OpInfo) :=
  let typing := c.typing.getD (.mk .any true)
  match c.default with
  | none => .ok ⟨c.name, typing, none⟩
  | some e => do return ⟨c.name, typing, some (← buildExpr e)⟩

def parseCols (seenNames : List String) :
    List SourceCol → Except ParseError (List (ColumnOf OpInfo) × List String)
  | [] => .ok ([], seenNames)
  | c :: cs => do
    let col ← parseCol c
    if col.name ∈ seenNames then throw (.duplicateNameInCols col.name)
    else
      let (cols, seenNames) ← parseCols (seenNames ++ [col.name]) cs
      return (col :: cols, seenNames)

/-- `parse_schema`: the key columns and the others. -/
def parseSchema (keys nonKeys : List SourceCol) :
    Except ParseError (List (ColumnOf OpInfo) × List (ColumnOf OpInfo)) := do
  let (ks, seenNames) ← parseCols [] keys
  let (nks, _) ← parseCols seenNames nonKeys
  return (ks, nks)

theorem forall₂_of_parseCols {seenNames seenNames' : List String} {cs : List SourceCol}
    {cols : List (ColumnOf OpInfo)} (h : parseCols seenNames cs = .ok (cols, seenNames')) :
    List.Forall₂ (fun c col => parseCol c = .ok col) cs cols := by
  induction cs generalizing seenNames cols with
  | nil =>
    cases h
    exact .nil
  | cons c cs ih =>
    obtain ⟨col, hcol, hrest⟩ := bind_ok.1 (by simpa only [parseCols] using h)
    split at hrest
    · cases hrest
    · obtain ⟨⟨cols', seen⟩, hcols, heq⟩ := bind_ok.1 hrest
      cases heq
      exact .cons hcol (ih hcols)

namespace ColumnOf

def serialize (c : ColumnOf OpInfo) : ColumnOf String :=
  ⟨c.name, c.typing, c.defaultGen.map ExprOf.serialize⟩

def deserialize (c : ColumnOf String) : Except DecodeError (ColumnOf OpInfo) :=
  match c.defaultGen with
  | none => .ok ⟨c.name, c.typing, none⟩
  | some e => do return ⟨c.name, c.typing, some (← e.deserialize)⟩

end ColumnOf

def SourceCol.callsRegex (c : SourceCol) : Bool := c.default.any SourceExpr.callsRegex

theorem deserialize_parseCol {c : SourceCol} {col : ColumnOf OpInfo} (h : parseCol c = .ok col)
    (hno : c.callsRegex = false) : col.serialize.deserialize = .ok col := by
  unfold parseCol at h
  unfold SourceCol.callsRegex at hno
  split at h
  · cases h
    rfl
  · rename_i s hsome
    obtain ⟨e, he, hcol⟩ := bind_ok.1 h
    cases hcol
    rw [hsome] at hno
    have hread := deserialize_buildExpr he hno
    have hcol : (⟨c.name, c.typing.getD (.mk .any true), some e⟩ : ColumnOf OpInfo).serialize.deserialize =
        (do return ⟨c.name, c.typing.getD (.mk .any true), some (← e.serialize.deserialize)⟩) := rfl
    rw [hcol, hread]
    rfl

theorem callsRegex_of_deserialize_col {c : SourceCol} {col col' : ColumnOf OpInfo}
    (h : parseCol c = .ok col)
    (hread : col.serialize.deserialize = .ok col') : c.callsRegex = false := by
  unfold parseCol at h
  unfold SourceCol.callsRegex
  split at h
  · rename_i hnone
    rw [hnone]
    rfl
  · rename_i s hsome
    obtain ⟨e, he, hcol⟩ := bind_ok.1 h
    cases hcol
    obtain ⟨e', he', -⟩ := bind_ok.1 hread
    rw [hsome]
    exact callsRegex_of_deserialize he he'

section Columns

variable {cs : List SourceCol} {cols cols' : List (ColumnOf OpInfo)}

theorem mapM_deserialize (h : List.Forall₂ (fun c col => parseCol c = .ok col) cs cols)
    (hno : ∀ c ∈ cs, c.callsRegex = false) :
    (cols.map ColumnOf.serialize).mapM ColumnOf.deserialize = .ok cols := by
  induction h with
  | nil => rfl
  | cons hcol _ ih =>
    obtain ⟨hc, hcs⟩ := forall_mem_cons.1 hno
    exact mapM_cons_eq_ok.2 ⟨_, _, deserialize_parseCol hcol hc, ih hcs, rfl⟩

theorem callsRegex_of_mapM_deserialize
    (h : List.Forall₂ (fun c col => parseCol c = .ok col) cs cols)
    (hread : (cols.map ColumnOf.serialize).mapM ColumnOf.deserialize = .ok cols') :
    ∀ c ∈ cs, c.callsRegex = false := by
  induction h generalizing cols' with
  | nil => exact fun _ hc => nomatch hc
  | cons hcol _ ih =>
    obtain ⟨_, _, hc, hcs, -⟩ := mapM_cons_eq_ok.1 hread
    exact forall_mem_cons.2 ⟨callsRegex_of_deserialize_col hcol hc, ih hcs⟩

end Columns

/-! ### Metadata -/

structure HandleOf (O R : Type) where
  name : String
  keys : List (ColumnOf O)
  nonKeys : List (ColumnOf O)
  rest : R

section Metadata

variable {B R : Type}

/-- The serialisation library, with the type of what it writes; it gives back the plain data it was
given. -/
structure Rmp (B R : Type) where
  encode : HandleOf String R → B
  decode : B → Option (HandleOf String R)
  decode_encode : ∀ h, decode (encode h) = some h

def HandleOf.serialize (h : HandleOf OpInfo R) : HandleOf String R :=
  ⟨h.name, h.keys.map ColumnOf.serialize, h.nonKeys.map ColumnOf.serialize, h.rest⟩

def HandleOf.deserialize (h : HandleOf String R) : Except DecodeError (HandleOf OpInfo R) := do
  return ⟨h.name, ← h.keys.mapM ColumnOf.deserialize, ← h.nonKeys.mapM ColumnOf.deserialize, h.rest⟩

abbrev MetaStore (B : Type) := String → Option B

variable (rmp : Rmp B R)

/-- The write of `create_relation`. -/
def createRelation (h : HandleOf OpInfo R) (store : MetaStore B) : MetaStore B :=
  Function.update store h.name (some (rmp.encode h.serialize))

/-- `get_relation`. -/
def getRelation (name : String) (store : MetaStore B) : Except DecodeError (HandleOf OpInfo R) :=
  match store name with
  | none => .error (.storedRelationNotFound name)
  | some written =>
    match rmp.decode written with
    | none => .error .relationDeser
    | some h => h.deserialize

/-- A later update of metadata (triggers, access level, description, indices): it is read, changed
apart from the columns, and written. -/
def updateRelation (name : String) (store : MetaStore B) (f : R → R) :
    Except DecodeError (MetaStore B) := do
  let h ← getRelation rmp name store
  return Function.update store h.name (some (rmp.encode { h with rest := f h.rest }.serialize))

variable {rmp}

theorem getRelation_written (h : HandleOf OpInfo R) (store : MetaStore B) :
    getRelation rmp h.name (createRelation rmp h store) = h.serialize.deserialize := by
  rw [getRelation, createRelation, Function.update_self]
  dsimp only
  rw [rmp.decode_encode]

theorem updateRelations_readable {h : HandleOf OpInfo R}
    (hread : ∀ rest, ({ h with rest } : HandleOf OpInfo R).serialize.deserialize =
      .ok { h with rest }) (updates : List (R → R)) (store : MetaStore B) :
    ∃ store', updates.foldlM (updateRelation rmp h.name) (createRelation rmp h store) = .ok store' ∧
      getRelation rmp h.name store' = .ok { h with rest := updates.foldl (fun r f => f r) h.rest } := by
  induction updates generalizing h store with
  | nil => exact ⟨_, rfl, (getRelation_written h store).trans (hread h.rest)⟩
  | cons f updates ih =>
    have hstep : updateRelation rmp h.name (createRelation rmp h store) f =
        .ok (createRelation rmp { h with rest := f h.rest } (createRelation rmp h store)) := by
      rw [updateRelation, getRelation_written, hread h.rest]
      rfl
    rw [foldlM_cons, hstep]
    exact ih (h := { h with rest := f h.rest }) hread _

/-- **Metadata is read back**, right after creation and after any later updates, exactly if no
default of the schema calls a function of regular expressions. -/
theorem metadata_readable_iff {keys nonKeys : List SourceCol}
    {cols : List (ColumnOf OpInfo) × List (ColumnOf OpInfo)}
    (hparse : parseSchema keys nonKeys = .ok cols) (name : String) (rest : R)
    (store : MetaStore B) (updates : List (R → R)) :
    (∃ store', updates.foldlM (updateRelation rmp name)
      (createRelation rmp ⟨name, cols.1, cols.2, rest⟩ store) = .ok store' ∧
      getRelation rmp name store' =
      .ok ⟨name, cols.1, cols.2, updates.foldl (fun r f => f r) rest⟩) ↔
      ∀ c ∈ keys ++ nonKeys, c.callsRegex = false := by
  obtain ⟨⟨ks, seen⟩, hks, hrest⟩ := bind_ok.1 hparse
  obtain ⟨⟨nks, seen'⟩, hnks, hcols⟩ := bind_ok.1 hrest
  cases hcols
  have hkeys := forall₂_of_parseCols hks
  have hnonKeys := forall₂_of_parseCols hnks
  rw [forall_mem_append]
  constructor
  · rintro ⟨store', hupdates, hget⟩
    -- the metadata as it was created has been read, by the first update or at the end
    have hread : ∃ h, (⟨name, ks, nks, rest⟩ : HandleOf OpInfo R).serialize.deserialize = .ok h := by
      cases updates with
      | nil =>
        cases hupdates
        exact ⟨_, (getRelation_written ⟨name, ks, nks, rest⟩ store).symm.trans hget⟩
      | cons f updates =>
        rw [foldlM_cons] at hupdates
        obtain ⟨store₁, hfirst, -⟩ := bind_ok.1 hupdates
        obtain ⟨h, hh, -⟩ := bind_ok.1 hfirst
        exact ⟨h, (getRelation_written ⟨name, ks, nks, rest⟩ store).symm.trans hh⟩
    obtain ⟨h, hread⟩ := hread
    obtain ⟨ks', hks', hread⟩ := bind_ok.1 hread
    obtain ⟨nks', hnks', -⟩ := bind_ok.1 hread
    exact ⟨callsRegex_of_mapM_deserialize hkeys hks', callsRegex_of_mapM_deserialize hnonKeys hnks'⟩
  · rintro ⟨hnoKeys, hnoNonKeys⟩
    refine updateRelations_readable (h := ⟨name, ks, nks, rest⟩) (fun r => ?_) updates store
    have hdef : (⟨name, ks, nks, r⟩ : HandleOf OpInfo R).serialize.deserialize = (do
        return ⟨name, ← (ks.map ColumnOf.serialize).mapM ColumnOf.deserialize,
          ← (nks.map ColumnOf.serialize).mapM ColumnOf.deserialize, r⟩) := rfl
    rw [hdef, mapM_deserialize hkeys hnoKeys, mapM_deserialize hnonKeys hnoNonKeys]
    rfl

end Metadata

/-! ### A default that cannot be read -/

/-- A serialisation that writes the data as it is. -/
def plainRmp : Rmp (HandleOf String Unit) Unit := ⟨id, some, fun _ => rfl⟩

/-- `a: Bool default regex_matches('x', 'y')`. -/
def regexCol : SourceCol :=
  ⟨"a", some (.mk .bool false), some
    (.apply "regex_matches" [.literal (.str "x".toUTF8.toList), .literal (.str "y".toUTF8.toList)])⟩

/-- `b default concat('x', 'y')`. -/
def concatCol : SourceCol :=
  ⟨"b", none, some (.apply "concat" [.literal (.str "x".toUTF8.toList),
    .literal (.str "y".toUTF8.toList)])⟩

/-- The relation `r` with these columns has been created, and is read. -/
def readCreated (cs : List SourceCol) : Option (Except DecodeError (HandleOf OpInfo Unit)) :=
  match parseSchema cs [] with
  | .error _ => none
  | .ok (ks, nks) => some (getRelation plainRmp "r"
    (createRelation plainRmp ⟨"r", ks, nks, ()⟩ fun _ => none))

/-- **The schema is accepted and the relation cannot be read.** -/
theorem regex_default_unreadable : (parseSchema [regexCol] []).toOption.isSome = true ∧
      (readCreated [regexCol]).any (fun read => read.toOption.isNone) = true := by decide +kernel

theorem concat_default_readable : ∃ cols, parseSchema [concatCol] [] = .ok cols ∧
    ((∃ store', [id].foldlM (updateRelation plainRmp "r")
          (createRelation plainRmp ⟨"r", cols.1, cols.2, ()⟩ fun _ => none) = .ok store' ∧
        getRelation plainRmp "r" store' = .ok ⟨"r", cols.1, cols.2, ()⟩) ↔
        ∀ c ∈ [concatCol] ++ [], c.callsRegex = false) := by
  have hsome : (parseSchema [concatCol] []).toOption.isSome = true := by decide +kernel
  cases hparse : parseSchema [concatCol] [] with
  | error e =>
    rw [hparse] at hsome
    cases hsome
  | ok cols => exact ⟨cols, rfl, metadata_readable_iff hparse "r" () (fun _ => none) [id]⟩

end Retia.Schema
