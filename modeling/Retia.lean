import Retia.Lib.Bytes
import Retia.Lib.Except
import Retia.Lib.Effect
import Retia.Lib.OrderedCode
import Retia.Lib.SeekScan
import Retia.Lib.BTree
import Retia.Lib.Fixpoint
import Retia.Data.Float
import Retia.Data.Value
import Retia.Data.Aggr
import Retia.Data.Expr
import Retia.Data.Memcmp
import Retia.Data.Tuple
import Retia.Data.KeyOrder
import Retia.Data.Row
import Retia.Data.Relation
import Retia.Storage.Mem
import Retia.Storage.Scan
import Retia.Storage.CacheIter
import Retia.Storage.SkipScan
import Retia.Storage.SkipDual
import Retia.Runtime.TempStore
import Retia.Query.RA
import Retia.Query.Produces
import Retia.Query.ValidityJoin
import Retia.Query.Eval
import Retia.Query.Sane
import Retia.Query.StoreViews
import Retia.Query.SemiNaive
import Retia.Lib.Serial
import Retia.Runtime.Session
import Retia.Runtime.SearchIndex
import Retia.Query.Stored
import Retia.Runtime.Script
import Retia.Runtime.Touches
import Retia.Runtime.Transaction
import Retia.Runtime.Codec
import Retia.Runtime.Catalogue
import Retia.Runtime.CatalogueRun
import Retia.Runtime.UniqueIds
import Retia.Runtime.Temporary
import Retia.Runtime.Tables
import Retia.Runtime.Imperative
import Retia.Runtime.Returning
import Retia.Runtime.Renames
import Retia.Runtime.ReadOnly
import Retia.Runtime.FailedPrograms
import Retia.Runtime.Triggers
import Retia.Runtime.Import
import Retia.Server.Requests
import Retia.Data.Functions
import Retia.Data.Coerce
import Retia.Query.Compile
import Retia.Parse.Fts
import Retia.Parse.Schema
import Retia.Query.Bounds
import Retia.Query.StoredJoin
import Retia.Query.MaterializedJoin
import Retia.Query.Negation
import Retia.Data.Bytecode
import Retia.Parse.Conditional
import Retia.Data.PartialEval
import Retia.Data.Bits
import Retia.Data.Range
import Retia.Data.VectorOps
import Retia.Data.Json
import Retia.Data.Indexing
import Retia.Lib.Projection
import Retia.Query.Reorder
import Retia.Query.Logical
import Retia.Fts.Near
import Retia.Lib.CostGraph
import Retia.FixedRule.Dijkstra
import Retia.FixedRule.TopSort
import Retia.Lib.PriorityQueue
import Retia.Runtime.Hnsw
import Retia.Runtime.TableRuns
