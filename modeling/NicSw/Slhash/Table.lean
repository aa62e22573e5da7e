/-
The stateless hash library (`sdk/lib/table/slhash`): a table with one bucket per
index, and a TCAM for the keys that find their bucket taken.

Entries live in the hardware table; software keeps two bits for each bucket.
The parameters of the TCAM calls share the buffers for key and data with the
caller's parameters, so what a TCAM call copies out is in the caller's
parameters too (`withTcam`).  A failed `SDK_ASSERT` is `none`.
-/
import NicSw.Sltcam.Table

namespace NicSw

/-! ### State -/

/-- `properties`, of a table with an overflow TCAM. -/
structure SlhProps (K : Type*) where
  tableSize : Nat
  tcam : SltProps K
  tableSize_pos : 0 < tableSize

/-- `bucket`. -/
structure SlhBucket where
  inuse : Bool
  reserved : Bool

/-- `bucket::isbusy`. -/
def SlhBucket.isbusy (b : SlhBucket) : Bool := b.inuse || b.reserved

/-- `txn`, which has the members of the one of the TCAM. -/
abbrev SlhTxn := SltTxn

/-- `slhash`, with the hardware table. -/
structure Slhash (K D : Type*) where
  bucket : Nat → SlhBucket
  hw : Nat → K × D
  txn : SlhTxn
  tcam : Sltcam K D

/-- `slhctx`; of `tcam_params` only the handle is its own. -/
structure SlhCtx (K D : Type*) where
  op : SdkTableApi
  params : SltParams K D
  indexValid : Bool
  index : Nat
  swkey : K
  swdata : D
  tcamParamsValid : Bool
  tcamHandle : Handle

variable {K D : Type*} [LinearOrder K] [Zero K] [Zero D] (P : SlhProps K) (hash : K → BitVec 32)

namespace SlhCtx

/-- `init`. -/
def init (op : SdkTableApi) (params : SltParams K D) : SlhCtx K D where
  op := op
  params := params
  indexValid := params.handle.pvalid
  index := params.handle.pindex
  swkey := 0
  swdata := 0
  tcamParamsValid := false
  tcamHandle :=
    if params.handle.svalid then params.handle.setPindex params.handle.sindex else params.handle

/-- `inhandle`. -/
def inhandle (ctx : SlhCtx K D) : Handle := ctx.params.handle

/-- `outhandle`. -/
def outhandle (ctx : SlhCtx K D) : Option Handle :=
  if ctx.inhandle.valid then some ctx.inhandle
  else
    let h := Handle.null.setPindex ctx.index
    if !ctx.tcamParamsValid then some h
    else if !ctx.tcamHandle.pvalid then none
    else some (h.setSindex ctx.tcamHandle.pindex)

/-- `calchash`. -/
def calchash (ctx : SlhCtx K D) : SlhCtx K D :=
  { ctx with index := (hash ctx.params.key).toNat % P.tableSize, indexValid := true }

/-- `keycompare() == 0`. -/
def keymatch (ctx : SlhCtx K D) : Bool := ctx.inhandle.valid || decide (ctx.params.key = ctx.swkey)

/-- `tcam_params`. -/
def tcamParams (ctx : SlhCtx K D) : SltParams K D := { ctx.params with handle := ctx.tcamHandle }

/-- The context after a TCAM call on `tcam_params`. -/
def withTcam (ctx : SlhCtx K D) (p : SltParams K D) (ret : SdkRet) : SlhCtx K D :=
  { ctx with
    params := { ctx.params with key := p.key, data := p.data }
    tcamHandle := p.handle
    tcamParamsValid := ctx.tcamParamsValid || ret == .ok }

end SlhCtx

/-! ### The hash table -/

namespace Slhash

/-- `slhctx::read`. -/
def read (T : Slhash K D) (ctx : SlhCtx K D) : Option (SlhCtx K D) :=
  if !ctx.indexValid then none
  else some { ctx with swkey := (T.hw ctx.index).1, swdata := (T.hw ctx.index).2 }

/-- `slhctx::write`. -/
def write (T : Slhash K D) (ctx : SlhCtx K D) : Option (Slhash K D) :=
  match ctx.op with
  | .insert | .update =>
    some { T with hw := Function.update T.hw ctx.index (ctx.params.key, ctx.params.data) }
  | .remove => some { T with hw := Function.update T.hw ctx.index (0, 0) }
  | _ => none

/-- Set the use bit of a bucket (`bucket::alloc`, `bucket::free`). -/
def setInuse (T : Slhash K D) (index : Nat) (v : Bool) : Slhash K D :=
  { T with bucket := Function.update T.bucket index { T.bucket index with inuse := v } }

/-- `table::find`. -/
def tableFind (T : Slhash K D) (ctx : SlhCtx K D) : Option (SdkRet × SlhCtx K D) :=
  if ctx.inhandle.valid && (ctx.inhandle.svalid || !(T.bucket ctx.index).reserved) then
    some (.entryNotFound, ctx)
  else
    let ctx := if ctx.inhandle.valid then ctx else ctx.calchash P hash
    if !(T.bucket ctx.index).isbusy then some (.entryNotFound, ctx)
    else
      (T.read ctx).bind fun ctx =>
        some (if ctx.keymatch then .ok else .entryNotFound, ctx)

/-- `table::insert`. -/
def tableInsert (T : Slhash K D) (ctx : SlhCtx K D) : Option (SdkRet × Slhash K D) :=
  if ctx.inhandle.valid && ctx.inhandle.svalid then some (.collision, T)
  else if !ctx.indexValid then none
  else if (T.bucket ctx.index).inuse then some (.collision, T)
  else ((T.setInuse ctx.index true).write ctx).map fun T => (.ok, T)

/-- `table::update`. -/
def tableUpdate (T : Slhash K D) (ctx : SlhCtx K D) : Option (SdkRet × Slhash K D) :=
  if !ctx.indexValid || !(T.bucket ctx.index).inuse then none
  else (T.write ctx).map fun T => (.ok, T)

/-- `table::remove`. -/
def tableRemove (T : Slhash K D) (ctx : SlhCtx K D) : Option (SdkRet × Slhash K D) :=
  if !ctx.indexValid then none
  else if !(T.bucket ctx.index).inuse then some (.entryNotFound, T)
  else if !ctx.keymatch then none
  else (T.write ctx).map fun T => (.ok, T.setInuse ctx.index false)

/-! ### The transaction -/

/-- `txn::validate`. -/
def txnValidate (T : Slhash K D) (ctx : SlhCtx K D) : SdkRet :=
  if T.txn.valid && (ctx.op == .insert || ctx.op == .remove || ctx.op == .release) &&
      !ctx.inhandle.valid then .invalidArg
  else .ok

/-- `txn::release`.  Its callers do not look at the status. -/
def txnRelease (T : Slhash K D) (ctx : SlhCtx K D) : Option (Slhash K D) :=
  if !T.txn.valid then some T
  else if !ctx.indexValid then none
  else
    match T.txn.indexer.free ctx.index with
    | .error _ => some T
    | .ok ix =>
      if T.txn.reservedCount = 0 then none
      else some { T with txn := ⟨true, T.txn.reservedCount - 1, ix⟩ }

/-! ### The API -/

/-- `find_`. -/
def find (T : Slhash K D) (ctx : SlhCtx K D) : Option (SdkRet × SlhCtx K D) :=
  (T.tableFind P hash ctx).bind fun
    | (.entryNotFound, ctx) =>
      (T.tcam.get P.tcam ctx.tcamParams).bind fun r => some (r.1, ctx.withTcam r.2 r.1)
    | r => some r

/-- `insert_`. -/
def insertEntry (T : Slhash K D) (ctx : SlhCtx K D) :
    Option (SdkRet × SlhCtx K D × Slhash K D) :=
  (T.tableInsert ctx).bind fun
    | (.collision, T) =>
      (T.tcam.insert P.tcam ctx.tcamParams).bind fun r =>
        some (r.1, ctx.withTcam r.2.1 r.1, { T with tcam := r.2.2 })
    | (ret, T) => some (ret, ctx, T)

/-- `update_`. -/
def updateEntry (T : Slhash K D) (ctx : SlhCtx K D) :
    Option (SdkRet × SlhCtx K D × Slhash K D) :=
  ctx.outhandle.bind fun h =>
    if h.svalid then
      (T.tcam.update P.tcam ctx.tcamParams).bind fun r =>
        some (r.1, ctx.withTcam r.2.1 r.1, { T with tcam := r.2.2 })
    else (T.tableUpdate ctx).map fun r => (r.1, ctx, r.2)

/-- `remove_`. -/
def removeEntry (T : Slhash K D) (ctx : SlhCtx K D) :
    Option (SdkRet × SlhCtx K D × Slhash K D) :=
  (T.tableRemove ctx).bind fun
    | (.entryNotFound, T) =>
      (T.tcam.remove P.tcam ctx.tcamParams).bind fun r =>
        some (r.1, ctx.withTcam r.2.1 r.1, { T with tcam := r.2.2 })
    | (ret, T) => some (ret, ctx, T)

/-- The handle is saved in the parameters. -/
def saveHandle (ret : SdkRet) (ctx : SlhCtx K D) (T : Slhash K D) :
    Option (SdkRet × SltParams K D × Slhash K D) :=
  ctx.outhandle.map fun h => (ret, { ctx.params with handle := h }, T)

/-- `insert` once it is known that the key is new or reserved. -/
def insertNew (T : Slhash K D) (ctx : SlhCtx K D) :
    Option (SdkRet × SltParams K D × Slhash K D) :=
  (T.insertEntry P ctx).bind fun
    | (.ok, ctx, T) => (T.txnRelease ctx).bind fun T => saveHandle .ok ctx T
    | (ret, ctx, T) => some (ret, ctx.params, T)

/-- `insert`. -/
def insert (T : Slhash K D) (params : SltParams K D) :
    Option (SdkRet × SltParams K D × Slhash K D) :=
  let ctx := SlhCtx.init .insert params
  if T.txnValidate ctx ≠ .ok then none
  else if params.handle.valid then T.insertNew P ctx
  else
    (T.find P hash ctx).bind fun
      | (.ok, ctx) => saveHandle .entryExists ctx T
      | (.entryNotFound, ctx) => T.insertNew P ctx
      | (ret, ctx) => some (ret, ctx.params, T)

/-- `update`. -/
def update (T : Slhash K D) (params : SltParams K D) :
    Option (SdkRet × SltParams K D × Slhash K D) :=
  let ctx := SlhCtx.init .update params
  if T.txnValidate ctx ≠ .ok then some (T.txnValidate ctx, params, T)
  else
    (T.find P hash ctx).bind fun
      | (.ok, ctx) =>
        (T.updateEntry P ctx).bind fun
          | (.ok, ctx, T) => saveHandle .ok ctx T
          | (ret, ctx, T) => some (ret, ctx.params, T)
      | (ret, ctx) => some (ret, ctx.params, T)

/-- `remove`. -/
def remove (T : Slhash K D) (params : SltParams K D) :
    Option (SdkRet × SltParams K D × Slhash K D) :=
  let ctx := SlhCtx.init .remove params
  if T.txnValidate ctx ≠ .ok then none
  else
    (T.find P hash ctx).bind fun
      | (.ok, ctx) =>
        (T.removeEntry P ctx).bind fun
          | (.ok, ctx, T) => (T.txnRelease ctx).map fun T => (.ok, ctx.params, T)
          | (ret, ctx, T) => some (ret, ctx.params, T)
      | (ret, ctx) => some (ret, ctx.params, T)

/-- `get`. -/
def get (T : Slhash K D) (params : SltParams K D) :
    Option (SdkRet × SltParams K D × Slhash K D) :=
  (T.find P hash (SlhCtx.init .get params)).bind fun
    | (.ok, ctx) =>
      ctx.outhandle.map fun h =>
        (.ok, if h.svalid then ctx.params
          else { ctx.params with key := ctx.swkey, data := ctx.swdata }, T)
    | (ret, ctx) => some (ret, ctx.params, T)

/-- `init_`. -/
def init : Slhash K D where
  bucket := fun _ => ⟨false, false⟩
  hw := fun _ => (0, 0)
  txn := ⟨false, 0, Indexer.init P.tableSize false⟩
  tcam := Sltcam.init P.tcam

end Slhash

/-- The API calls by key. -/
inductive SlhOp (K D : Type*)
  | insert (key : K) (data : D) (highest : Bool)
  | update (key : K) (data : D)
  | remove (key : K)
  | get (key : K)

/-- The parameters of a call. -/
def SlhOp.params : SlhOp K D → SltParams K D
  | .insert k d highest => ⟨k, d, Handle.null, 0, highest⟩
  | .update k d => ⟨k, d, Handle.null, 0, false⟩
  | .remove k | .get k => ⟨k, 0, Handle.null, 0, false⟩

/-- A call by key. -/
def Slhash.call (T : Slhash K D) (op : SlhOp K D) :
    Option (SdkRet × SltParams K D × Slhash K D) :=
  match op with
  | .insert _ _ _ => T.insert P hash op.params
  | .update _ _ => T.update P hash op.params
  | .remove _ => T.remove P hash op.params
  | .get _ => T.get P hash op.params

end NicSw
