/-
The stateless TCAM library (`sdk/lib/table/sltcam`).

Entries live in the hardware table.  Software keeps an array of the hardware
indexes in use, sorted by the key of the entry they lead to (`db`), an indexer
of the hardware indexes and a transaction.  A failed `SDK_ASSERT` is `none`;
hardware reads and writes succeed.
-/
import NicSw.Lib.Slots
import NicSw.Sdk.Indexer
import NicSw.Sdk.Table

namespace NicSw

/-! ### State -/

/-- `properties`; `clearKey` is the key with all bytes `0xFF`. -/
structure SltProps (K : Type*) where
  tableSize : Nat
  clearKey : K
  tableSize_pos : 0 < tableSize
  tableSize_le : tableSize ≤ 2 ^ 30

/-- `sdk_table_api_params_t`, as far as the TCAM reads it; `data` is `appdata`. -/
structure SltParams (K D : Type*) where
  key : K
  data : D
  handle : Handle
  numHandles : Nat
  highest : Bool

/-- `sltctx`. -/
structure SltCtx (K D : Type*) where
  op : SdkTableApi
  params : SltParams K D
  tcamIndexValid : Bool
  tcamIndex : Nat
  dbslotValid : Bool
  dbslot : Nat
  swkey : K
  swdata : D

/-- `db`.  An element is valid when it is `some`. -/
structure SltDb where
  count : Nat
  elems : Nat → Option Nat

/-- `txn`. -/
structure SltTxn where
  valid : Bool
  reservedCount : Nat
  indexer : Indexer

/-- `sltcam`, with the hardware table. -/
structure Sltcam (K D : Type*) where
  indexer : Indexer
  txn : SltTxn
  db : SltDb
  hw : Nat → K × D

variable {K D : Type*} [LinearOrder K] [Zero D] (P : SltProps K)

namespace SltCtx

/-- `create_sltctx`. -/
def create (op : SdkTableApi) (params : SltParams K D) : SltCtx K D where
  op := op
  params := params
  tcamIndexValid := params.handle.pvalid
  tcamIndex := params.handle.pindex
  dbslotValid := false
  dbslot := 0
  swkey := P.clearKey
  swdata := 0

/-- `clearsw`. -/
def clearsw (ctx : SltCtx K D) : SltCtx K D := { ctx with swkey := P.clearKey, swdata := 0 }

/-- `copyin`. -/
def copyin (ctx : SltCtx K D) : SltCtx K D :=
  { ctx with swkey := ctx.params.key, swdata := ctx.params.data }

/-- `copyout`. -/
def copyout (ctx : SltCtx K D) : SltCtx K D :=
  { ctx with params := { ctx.params with key := ctx.swkey, data := ctx.swdata } }

end SltCtx

/-! ### The index of entries -/

/-- `MID`. -/
def sltMid (lo hi : Nat) : Nat := if lo ≤ hi then (hi + lo) / 2 else lo

namespace SltDb

/-- The loop of `findslot_`, for at most `n` rounds, with `hw` for the hardware
table that `swcompare` reads: the slot it stops at and the index found there. -/
def findslotLoop (db : SltDb) (hw : Nat → K × D) (key : K) :
    Nat → Nat → Nat → Nat → Nat × Option Nat
  | 0, _, _, slot => (slot, none)
  | n + 1, lo, hi, slot =>
    if lo ≤ hi then
      match db.elems slot with
      | none => (slot, none)
      | some idx =>
        match compare key (hw idx).1 with
        | .eq => (slot, some idx)
        | .lt =>
          if slot = 0 then (slot, none)
          else findslotLoop db hw key n lo (slot - 1) (sltMid lo (slot - 1))
        | .gt => findslotLoop db hw key n (slot + 1) hi (sltMid (slot + 1) hi)
    else (slot, none)

/-- `findslot_`, which is all of `find`. -/
def find (db : SltDb) (hw : Nat → K × D) (ctx : SltCtx K D) : SdkRet × SltCtx K D :=
  let hi := if db.count ≠ 0 then db.count - 1 else 0
  match db.findslotLoop hw ctx.params.key (db.count + 1) 0 hi (sltMid 0 hi) with
  | (slot, some idx) =>
    (.ok, { ctx with
      dbslotValid := true, dbslot := slot, tcamIndex := idx, tcamIndexValid := true })
  | (slot, none) => (.entryNotFound, { ctx with dbslotValid := true, dbslot := slot })

/-- `insert`. -/
def insert (db : SltDb) (ctx : SltCtx K D) : Option SltDb :=
  if !ctx.dbslotValid then none
  else
    let elems :=
      if (db.elems ctx.dbslot).isSome then
        memmove db.elems (ctx.dbslot + 1) ctx.dbslot (db.count - ctx.dbslot)
      else db.elems
    some ⟨db.count + 1, Function.update elems ctx.dbslot (some ctx.tcamIndex)⟩

/-- `remove`. -/
def remove (db : SltDb) (ctx : SltCtx K D) : Option SltDb :=
  if !ctx.dbslotValid || db.count == 0 then none
  else some ⟨db.count - 1, removeSlot db.elems ctx.dbslot db.count none⟩

end SltDb

/-! ### Indexes and the transaction -/

/-- The loop of `dealloc_` over `n` indexes; the last free decides the status. -/
def sltFreeLoop (ix : Indexer) (start : Nat) : Nat → Bool × Indexer
  | 0 => (true, ix)
  | n + 1 =>
    let ix := (sltFreeLoop ix start n).2
    match ix.free (start + n) with
    | .ok ix => (true, ix)
    | .error _ => (false, ix)

/-- `num_handles`, of which none means one. -/
def SltParams.handles (p : SltParams K D) : Nat := if p.numHandles ≠ 0 then p.numHandles else 1

namespace SltTxn

/-- `validate`. -/
def validate (txn : SltTxn) (ctx : SltCtx K D) : SdkRet :=
  if txn.valid && (ctx.op == .insert || ctx.op == .remove) && !ctx.params.handle.valid then
    .invalidArg
  else .ok

/-- `release`, with its status. -/
def releaseRet (txn : SltTxn) (ctx : SltCtx K D) : Option (SdkRet × SltTxn) :=
  if !txn.valid then some (.txnNotFound, txn)
  else if !ctx.tcamIndexValid then none
  else
    match sltFreeLoop txn.indexer ctx.tcamIndex ctx.params.handles with
    | (false, ix) => some (.entryNotFound, { txn with indexer := ix })
    | (true, ix) =>
      if txn.reservedCount = 0 then none
      else some (.ok, { txn with indexer := ix, reservedCount := txn.reservedCount - 1 })

/-- `release`, for callers that do not look at the status. -/
def release (txn : SltTxn) (ctx : SltCtx K D) : Option SltTxn := (txn.releaseRet ctx).map Prod.snd

end SltTxn

namespace Sltcam

/-- `write_`. -/
def write (T : Sltcam K D) (ctx : SltCtx K D) : Sltcam K D :=
  { T with hw := Function.update T.hw ctx.tcamIndex (ctx.swkey, ctx.swdata) }

/-- `read_`. -/
def read (T : Sltcam K D) (ctx : SltCtx K D) : Option (SltCtx K D) :=
  if ctx.tcamIndex < P.tableSize then
    some { ctx with swkey := (T.hw ctx.tcamIndex).1, swdata := (T.hw ctx.tcamIndex).2 }
  else none

/-- `alloc_`. -/
def alloc (T : Sltcam K D) (ctx : SltCtx K D) : Option (SdkRet × SltCtx K D × Sltcam K D) :=
  if ctx.tcamIndexValid then none
  else
    match T.indexer.alloc (!ctx.params.highest) with
    | .ok (idx, ix) =>
      some (.ok, { ctx with tcamIndex := idx, tcamIndexValid := true }, { T with indexer := ix })
    | .error _ => some (.noResource, ctx, T)

/-- `dealloc_`. -/
def dealloc (T : Sltcam K D) (ctx : SltCtx K D) : Option (SdkRet × Sltcam K D) :=
  if !ctx.tcamIndexValid then none
  else
    match sltFreeLoop T.indexer ctx.tcamIndex ctx.params.handles with
    | (true, ix) => some (.ok, { T with indexer := ix })
    | (false, ix) => some (.err, { T with indexer := ix })

/-- `init_`. -/
def init : Sltcam K D where
  indexer := Indexer.init P.tableSize false
  txn := ⟨false, 0, Indexer.init P.tableSize false⟩
  db := ⟨0, fun _ => none⟩
  hw := fun _ => (P.clearKey, 0)

/-! ### The API -/

/-- The end of `insert` and `get`: the handle is saved. -/
def saveHandle (ctx : SltCtx K D) : SltParams K D :=
  { ctx.params with handle := ctx.params.handle.setPindex ctx.tcamIndex }

/-- `insert` once it has an index. -/
def insertAt (T : Sltcam K D) (ctx : SltCtx K D) :
    Option (SdkRet × SltParams K D × Sltcam K D) :=
  let ctx := ctx.copyin
  let T := T.write ctx
  (T.db.insert ctx).bind fun db =>
    (T.txn.release ctx).bind fun txn =>
      some (.ok, saveHandle ctx, { T with db := db, txn := txn })

/-- `insert`. -/
def insert (T : Sltcam K D) (params : SltParams K D) :
    Option (SdkRet × SltParams K D × Sltcam K D) :=
  let ctx := SltCtx.create P .insert params
  match T.txn.validate ctx with
  | .ok =>
    match T.db.find T.hw ctx with
    | (.ok, ctx) => some (.entryExists, saveHandle ctx, T)
    | (_, ctx) =>
      if ctx.params.handle.valid then T.insertAt ctx
      else
        let ctx := { ctx with params.numHandles := 1 }
        (T.alloc ctx).bind fun
          | (.ok, ctx, T) => T.insertAt ctx
          | (ret, ctx, T) => some (ret, ctx.params, T)
  | ret => some (ret, params, T)

/-- `update`. -/
def update (T : Sltcam K D) (params : SltParams K D) :
    Option (SdkRet × SltParams K D × Sltcam K D) :=
  let ctx := SltCtx.create P .update params
  match T.txn.validate ctx with
  | .ok =>
    if ctx.params.handle.valid then some (.ok, ctx.params, T.write ctx.copyin)
    else
      match T.db.find T.hw ctx with
      | (.ok, ctx) => some (.ok, ctx.params, T.write ctx.copyin)
      | (ret, ctx) => some (ret, ctx.params, T)
  | ret => some (ret, params, T)

/-- `remove` once the context has its key. -/
def removeKey (T : Sltcam K D) (ctx : SltCtx K D) :
    Option (SdkRet × SltParams K D × Sltcam K D) :=
  match T.db.find T.hw ctx with
  | (.ok, ctx) =>
    let T := T.write (ctx.clearsw P)
    (T.db.remove ctx).bind fun db =>
      (T.txn.release ctx).bind fun txn =>
        let ctx := { ctx with params.numHandles := 1 }
        (dealloc { T with db := db, txn := txn } ctx).bind fun r =>
          some (r.1, ctx.params, r.2)
  | (ret, ctx) => some (ret, ctx.params, T)

/-- `remove`. -/
def remove (T : Sltcam K D) (params : SltParams K D) :
    Option (SdkRet × SltParams K D × Sltcam K D) :=
  let ctx := SltCtx.create P .remove params
  match T.txn.validate ctx with
  | .ok =>
    if ctx.tcamIndexValid then (T.read P ctx).bind fun ctx => T.removeKey P ctx.copyout
    else T.removeKey P ctx
  | ret => some (ret, params, T)

/-- `get`. -/
def get (T : Sltcam K D) (params : SltParams K D) : Option (SdkRet × SltParams K D) :=
  let ctx := SltCtx.create P .get params
  let (ret, ctx) := if ctx.tcamIndexValid then (.ok, ctx) else T.db.find T.hw ctx
  if ret ≠ .ok then some (ret, ctx.params)
  else (T.read P ctx).bind fun ctx => some (.ok, saveHandle ctx.copyout)

/-- A TCAM of four entries. -/
def smallTcam : SltProps Nat where
  tableSize := 4
  clearKey := 255
  tableSize_pos := by decide
  tableSize_le := by decide

end Sltcam

end NicSw
