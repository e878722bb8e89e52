/-
# CloudEtcd.Storage.Api — the requests and responses of the storage (`etcdserverpb`).

The fields that the storage reads or writes.  A `bytes` field that the code compares with `nil` is an
option; other byte fields are plain, since nothing tells `nil` from empty there.
-/
import CloudEtcd.Persistence.Types

namespace CloudEtcd

/-! ## Requests -/

/-- `RangeRequest`. -/
structure RangeRequest where
  key : Option Bytes
  rangeEnd : Option Bytes := none
  limit : Int := 0
  revision : Int := 0
  keysOnly : Bool := false
  countOnly : Bool := false
  deriving DecidableEq, Repr

/-- `PutRequest`. -/
structure PutRequest where
  key : Bytes
  value : Bytes := []
  lease : Int := 0
  prevKv : Bool := false
  deriving DecidableEq, Repr

/-- `DeleteRangeRequest`. -/
structure DeleteRangeRequest where
  key : Bytes
  rangeEnd : Option Bytes := none
  deriving DecidableEq, Repr

/-- `Compare_CompareResult`. -/
inductive CompareResult where
  | equal
  | greater
  | less
  | notEqual
  deriving DecidableEq, Repr

/-- `Compare_CompareTarget`. -/
inductive CompareTarget where
  | version
  | create
  | mod
  | value
  | lease
  deriving DecidableEq, Repr

/-- The `TargetUnion` of a `Compare`. -/
inductive TargetUnion where
  | unset
  | version (version : Int)
  | createRevision (createRevision : Int)
  | modRevision (modRevision : Int)
  | value (value : Bytes)
  | lease (lease : Int)
  deriving DecidableEq, Repr

/-- `Compare`. -/
structure Compare where
  result : CompareResult
  target : CompareTarget
  key : Bytes
  targetUnion : TargetUnion
  deriving DecidableEq, Repr

/-- `RequestOp`; `other` is a nested transaction or an empty request. -/
inductive RequestOp where
  | put (req : PutRequest)
  | deleteRange (req : DeleteRangeRequest)
  | range (req : RangeRequest)
  | other
  deriving DecidableEq, Repr

/-- `TxnRequest`. -/
structure TxnRequest where
  compare : List Compare := []
  success : List RequestOp := []
  failure : List RequestOp := []
  deriving DecidableEq, Repr

/-! ## Responses -/

/-- `ResponseHeader`. -/
structure ResponseHeader where
  clusterId : Nat
  memberId : Nat
  revision : Int
  raftTerm : Nat
  deriving DecidableEq, Repr

/-- `createHeader`. -/
def createHeader (revision : Nat) : ResponseHeader := ⟨1, 1, revision, 1⟩

/-- `RangeResponse`. -/
structure RangeResponse where
  header : ResponseHeader
  kvs : List KeyValue := []
  more : Bool := false
  count : Int := 0
  deriving DecidableEq, Repr

/-- `PutResponse`. -/
structure PutResponse where
  header : Option ResponseHeader := none
  prevKv : Option KeyValue := none
  deriving DecidableEq, Repr

/-- `DeleteRangeResponse`. -/
structure DeleteRangeResponse where
  header : Option ResponseHeader := none
  deleted : Int
  deriving DecidableEq, Repr

/-- `ResponseOp`. -/
inductive ResponseOp where
  | put (resp : PutResponse)
  | deleteRange (resp : DeleteRangeResponse)
  | range (resp : RangeResponse)
  deriving DecidableEq, Repr

/-- `TxnResponse`. -/
structure TxnResponse where
  header : ResponseHeader
  succeeded : Bool
  responses : List ResponseOp := []
  deriving DecidableEq, Repr

/-! ## Errors -/

/-- The errors of the storage's operations.  `fatal` is `klog.Fatalf`, which ends the process. -/
inductive TxnError where
  /-- `rpctypes.ErrGRPCLeaseNotFound` -/
  | leaseNotFound
  /-- "unsupported target" -/
  | unsupportedTarget
  /-- "unsupported compare result" -/
  | unsupportedCompareResult (result : CompareResult)
  /-- "unsupported compare target" -/
  | unsupportedCompareTarget (target : CompareTarget)
  /-- "unsupported operation" -/
  | unsupportedOperation
  /-- "key is required by Get" -/
  | keyRequired
  /-- "range end is not supported by Get" -/
  | rangeEndNotSupportedByGet
  /-- "count only is not supported by Get" -/
  | countOnlyNotSupported
  /-- "range end is not yet supported by Delete" -/
  | rangeEndNotSupportedByDelete
  /-- "range end is required by List" -/
  | rangeEndRequired
  /-- `storage.ErrCompacted` -/
  | compacted (requested compacted : Nat)
  /-- `storage.ErrFutureRev` -/
  | futureRev (requested current : Nat)
  /-- "failed to get log entry", or the error that ends `applyUpTo` -/
  | logEntry (err : LogError)
  /-- "transaction conflicted with concurrent writes" -/
  | conflicted
  /-- the caller's context ended -/
  | canceled
  | fatal
  deriving DecidableEq, Repr

end CloudEtcd
