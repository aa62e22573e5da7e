/-
The staging buffer over the API cache.

An overlay holds staged operations, one entry a key, over a cache that does not change
while they are staged.  Entries of calls by a user are primary, and each of them is also
kept as a buffer item in the KV store, so that the overlay can be restored.

The functions follow the source.  Entries are behind pointers there: where a function
changes the entry that is in the overlay and then fails, the change stays.  `none` is a
panic.  Requirements, logs and copies of objects are left out.
-/
import NicSw.ApiCache.Store

namespace NicSw.Staging

open NicSw.ApiCache (GoMap Key)

/-! ### Entries -/

/-- Names of services and methods, URIs and resource versions. -/
abbrev Name := List Char

/-- What the overlay asks of API objects. -/
class RuntimeObject (α : Type) where
  kind : α → Name
  /-- `GetObjectMeta` finds metadata. -/
  hasMeta : α → Bool
  /-- The object with `GenerationID` one. -/
  firstGeneration : α → α
  version : α → Nat
  setVersion : α → Nat → α

/-- `apiOper`. -/
inductive Oper
  | create
  | update
  | delete
  deriving DecidableEq, Repr

/-- `overlayObj`.  Of `updateFn` only whether there is one is kept. -/
structure OverlayObj (α : Type) where
  oper : Oper
  primary : Bool
  serviceName : Name
  methodName : Name
  uri : Name
  orig : Option α
  val : Option α
  updateFn : Bool := false
  resVer : Name := []
  verVer : Nat := 0
  touch : Bool := false

/-- What the commit of an entry leaves of a key that has `base` in the store. -/
def OverlayObj.applied {α : Type} (e : OverlayObj α) (base : Option α) : Option α :=
  match e.oper with
  | .create => e.val
  | .update => if e.touch then base else e.val
  | .delete => none

/-- `BufferItem`. -/
structure BufferItem (α : Type) where
  kind : Name
  uri : Name
  operation : Oper
  method : Name
  service : Name
  object : Option α

/-- `overlay`, with the cache below it and the buffer items of the KV store. -/
structure Overlay (α : Type) where
  cache : Key → Option α
  kv : Key → Option (BufferItem α)
  overlay : GoMap Key (OverlayObj α)
  tenant : Name
  id : Name
  baseKey : Key
  ephemeral : Bool
  primaryCount : Int
  maxOvEntries : Nat

/-- What the functions find in their context, and whether a write to the KV store fails. -/
structure Ctx where
  dryRun : Option Nat := none
  preCommitApply : Bool := false
  restore : Bool := false
  kvFails : Bool := false

/-- The version of a dry run, zero outside. -/
def Ctx.verVer (ctx : Ctx) : Nat := ctx.dryRun.getD 0

/-- What goes wrong when an entry is persisted. -/
inductive KvErr
  /-- `primary without original set`. -/
  | noOriginal
  /-- There is no connection, or the store refuses the write. -/
  | failed
  deriving DecidableEq, Repr

/-- The errors of the overlay. -/
inductive Err
  | invalidParameters
  | existsInCache
  | alreadyExists
  | notFound
  | noMeta
  | noCacheObject
  | conflict
  | tooMany
  | persist (err : KvErr)
  deriving DecidableEq, Repr

/-- What a staging operation returns; `kv` is the result of persisting the entry. -/
structure Outcome (α : Type) where
  ov : Overlay α
  result : Except Err Unit
  kv : Except KvErr Unit := .ok ()

namespace Overlay

variable {α : Type} [RuntimeObject α]

/-! ### Persisting entries -/

/-- `strings.TrimPrefix(key, "/")`. -/
def trimSlash : Key → Key
  | '/' :: key => key
  | key => key

/-- `makeBufferKey`. -/
def makeBufferKey (ov : Overlay α) (key : Key) : Key :=
  ov.baseKey ++ "/tenant/".toList ++ ov.tenant ++ "/buffer/".toList ++ ov.id ++ ['/'] ++ trimSlash key

/-- The entry is not one that is persisted. -/
def skipsKv (ov : Overlay α) (ctx : Ctx) (obj : OverlayObj α) : Bool :=
  ov.ephemeral || ctx.restore || !obj.primary

/-- The buffer item of an entry. -/
def bufferItem (kind uri : Name) (obj : OverlayObj α) : BufferItem α where
  kind := kind
  uri := uri
  operation := obj.oper
  method := obj.methodName
  service := obj.serviceName
  object := obj.orig

/-- The kind of an object that may be missing. -/
def kindOf (obj : Option α) : Name := (obj.map RuntimeObject.kind).getD []

/-- `createKvObj`. -/
def createKvObj (ov : Overlay α) (ctx : Ctx) (uri : Name) (key : Key) (obj : OverlayObj α) :
    Overlay α × Except KvErr Unit :=
  if ov.skipsKv ctx obj then (ov, .ok ())
  else if obj.orig.isNone ∧ obj.oper ≠ .delete then (ov, .error .noOriginal)
  else if ctx.kvFails then (ov, .error .failed)
  else
    let ovKey := ov.makeBufferKey key
    match ov.kv ovKey with
    | some _ => (ov, .error .failed)
    | none =>
      ({ ov with kv := Function.update ov.kv ovKey (some (bufferItem (kindOf obj.val) uri obj)) },
        .ok ())

/-- `updateKvObj`.  The kind of a missing object is a nil dereference. -/
def updateKvObj (ov : Overlay α) (ctx : Ctx) (key : Key) (obj : OverlayObj α) :
    Option (Overlay α × Except KvErr Unit) :=
  if ov.skipsKv ctx obj then some (ov, .ok ())
  else if obj.orig.isNone ∧ obj.oper ≠ .delete then some (ov, .error .noOriginal)
  else if ctx.kvFails then some (ov, .error .failed)
  else if obj.orig.isSome ∧ obj.val.isNone then none
  else
    let kind := if obj.orig.isSome then kindOf obj.val else []
    let ovKey := ov.makeBufferKey key
    match ov.kv ovKey with
    | none => some (ov, .error .failed)
    | some _ =>
      some ({ ov with kv := Function.update ov.kv ovKey (some (bufferItem kind key obj)) }, .ok ())

/-- `deleteKvObj`. -/
def deleteKvObj (ov : Overlay α) (ctx : Ctx) (key : Key) (obj : OverlayObj α) :
    Overlay α × Except KvErr Unit :=
  if ov.skipsKv ctx obj then (ov, .ok ())
  else if ctx.kvFails then (ov, .error .failed)
  else
    let ovKey := ov.makeBufferKey key
    match ov.kv ovKey with
    | none => (ov, .error .failed)
    | some _ => ({ ov with kv := Function.update ov.kv ovKey none }, .ok ())

/-! ### Staging -/

/-- The entry of a key. -/
def entry (ov : Overlay α) (key : Key) : Option (OverlayObj α) := ov.overlay.lookup key

/-- `c.overlay[key] = obj`. -/
def put (ov : Overlay α) (key : Key) (obj : OverlayObj α) : Overlay α :=
  { ov with overlay := ov.overlay.insert key obj }

/-- `findObjects`: the entry if it is primary. -/
def findObjects (ov : Overlay α) (key : Key) : Option (OverlayObj α) :=
  (ov.entry key).filter fun obj => obj.primary

/-- A call that fails and changes nothing. -/
def fail (ov : Overlay α) (err : Err) : Option (Outcome α) := some { ov := ov, result := .error err }

/-- `create`. -/
def create (ov : Overlay α) (ctx : Ctx) (service method uri : Name) (key : Key) (orig obj : Option α)
    (dryRun : Nat) (primary : Bool) : Option (Outcome α) :=
  match obj with
  | none => ov.fail .invalidParameters
  | some obj =>
    match ov.cache key with
    | some _ =>
      match ov.entry key with
      | some ovObj =>
        if ovObj.oper = .delete then do
          -- the names of the call are not recorded
          let ovObj := { ovObj with
            oper := .update, val := some obj, orig := orig, primary := primary }
          let ov := ov.put key ovObj
          if primary then
            let (ov, kv) ← ov.updateKvObj ctx key ovObj
            some { ov := ov, result := .ok (), kv := kv }
          else some { ov := ov, result := .ok () }
        else ov.fail .existsInCache
      | none => ov.fail .existsInCache
    | none =>
      if primary ∧ dryRun = 0 ∧ (ov.findObjects key).isSome then ov.fail .alreadyExists
      else if primary ∧ 0 < dryRun then
        match ov.findObjects key with
        | none => ov.fail .notFound
        | some ovObj =>
          some
            { ov := ov.put key { ovObj with verVer := dryRun, val := some obj }
              result := .ok () }
      else if RuntimeObject.hasMeta obj then
        let ovObj : OverlayObj α :=
          { oper := .create
            primary := primary
            serviceName := service
            methodName := method
            uri := uri
            orig := orig
            val := some (RuntimeObject.firstGeneration obj)
            verVer := dryRun }
        let (ov, kv) := ov.createKvObj ctx uri key ovObj
        some { ov := ov.put key ovObj, result := .ok (), kv := kv }
      else ov.fail .noMeta

/-- The part of `update` that writes the entry `ovObj` and persists it.  `inOv` says that
there was a primary entry; an entry that was there is changed before it is persisted. -/
def updateEntry (ov : Overlay α) (ctx : Ctx) (service method uri : Name) (key : Key)
    (orig : Option α) (obj : α) (updateFn : Bool) (resVer : Name) (dryRun : Nat) (primary inOv : Bool)
    (oper : Oper) (there : Bool) (ovObj : OverlayObj α) : Option (Outcome α) := do
  let ovObj :=
    { ovObj with
      oper := oper
      primary := primary
      updateFn := if ctx.preCommitApply then ovObj.updateFn else updateFn
      resVer := if ctx.preCommitApply then ovObj.resVer else resVer
      val := some obj
      uri := uri
      orig := orig
      serviceName := service
      methodName := method
      verVer := dryRun
      touch := false }
  let changed := if there then ov.put key ovObj else ov
  let (changed, kv) ←
    if inOv then changed.updateKvObj ctx key ovObj else some (changed.createKvObj ctx uri key ovObj)
  match kv with
  | .error err => some { ov := changed, result := .error (.persist err), kv := kv }
  | .ok _ => some { ov := changed.put key ovObj, result := .ok (), kv := kv }

/-- `update`. -/
def update (ov : Overlay α) (ctx : Ctx) (service method uri : Name) (key : Key) (orig obj : Option α)
    (updateFn : Bool) (resVer : Name) (dryRun : Nat) (primary : Bool) : Option (Outcome α) :=
  match obj with
  | none => ov.fail .invalidParameters
  | some obj =>
    let inOv := (ov.findObjects key).isSome
    let inCache := (ov.cache key).isSome
    if dryRun = 0 ∧ !inCache ∧ !inOv then ov.fail .noCacheObject
    else
      match ov.entry key with
      | none =>
        if primary ∧ 0 < dryRun then ov.fail .notFound
        -- the entry that is read here is nil
        else if !inCache then none
        else
          ov.updateEntry ctx service method uri key orig obj updateFn resVer dryRun primary inOv
            .update false
            { oper := .update, primary := false, serviceName := [], methodName := [], uri := []
              orig := none, val := some obj, updateFn := updateFn, resVer := resVer }
      | some ovObj =>
        if !primary ∧ 0 < dryRun ∧ ovObj.verVer = dryRun ∧ !ctx.preCommitApply then ov.fail .conflict
        else if ovObj.primary ∧ !primary ∧ !ctx.preCommitApply then ov.fail .conflict
        else
          let primary := if ctx.preCommitApply then ovObj.primary else primary
          if inCache then
            ov.updateEntry ctx service method uri key orig obj updateFn resVer dryRun primary inOv
              .update true ovObj
          else if ovObj.oper = .delete then ov.fail .notFound
          else if RuntimeObject.hasMeta obj then
            ov.updateEntry ctx service method uri key orig obj updateFn resVer dryRun primary inOv
              .create true ovObj
          -- the value was set before the metadata is looked at
          else some { ov := ov.put key { ovObj with val := some obj }, result := .error .noMeta }

/-- `delete`.  `into` says that the caller wants the object. -/
def delete (ov : Overlay α) (ctx : Ctx) (service method uri : Name) (key : Key) (orig : Option α)
    (into : Bool) (dryRun : Nat) (primary : Bool) : Option (Outcome α) :=
  if (ov.findObjects key).isNone ∧ (ov.cache key).isNone then ov.fail .notFound
  else
    match ov.entry key with
    | none =>
      if primary ∧ 0 < dryRun then ov.fail .notFound
      else
        let ovObj : OverlayObj α :=
          { oper := .delete
            primary := primary
            serviceName := service
            methodName := method
            uri := uri
            orig := orig
            val := if into then ov.cache key else none
            verVer := dryRun }
        let (ov, kv) := ov.createKvObj ctx [] key ovObj
        match kv with
        | .error err => some { ov := ov, result := .error (.persist err), kv := kv }
        | .ok _ => some { ov := ov.put key ovObj, result := .ok (), kv := kv }
    | some ovObj =>
      if !primary ∧ 0 < dryRun ∧ ovObj.verVer = dryRun then ov.fail .conflict
      else if ovObj.primary ∧ !primary then ov.fail .conflict
      else
        match ov.cache key with
        | none =>
          let (ov, kv) := ov.deleteKvObj ctx key ovObj
          match kv with
          | .error err => some { ov := ov, result := .error (.persist err), kv := kv }
          | .ok _ =>
            some { ov := { ov with overlay := ov.overlay.erase key }, result := .ok (), kv := kv }
        | some _ => do
            -- the entry is persisted with the names and the original of the last call
            let ovObj := { ovObj with oper := .delete }
            let (ov, kv) ← (ov.put key ovObj).updateKvObj ctx key ovObj
            match kv with
            | .error err => some { ov := ov, result := .error (.persist err), kv := kv }
            | .ok _ =>
              some
                { ov := ov.put key { ovObj with
                    methodName := method, serviceName := service, primary := primary, uri := uri
                    verVer := dryRun, orig := orig, touch := false }
                  result := .ok ()
                  kv := kv }

/-! ### Primary operations -/

/-- A user's operation: what to do with which key. -/
structure Request (α : Type) where
  service : Name
  method : Name
  uri : Name
  key : Key
  orig : Option α

/-- The checks of `CreatePrimary`, `UpdatePrimary` and `DeletePrimary`, which count the
operations. -/
def stagePrimary (ov : Overlay α) (ctx : Ctx) (req : Request α)
    (stage : Overlay α → Option (Outcome α)) : Option (Outcome α) :=
  let counted :=
    if ctx.dryRun.isNone then { ov with primaryCount := ov.primaryCount + 1 } else ov
  if counted.maxOvEntries < counted.primaryCount then ov.fail .tooMany
  -- `panic("primary with no service or method")`
  else if !counted.ephemeral ∧ (req.service = [] ∨ req.method = []) then none
  else stage counted

/-- `CreatePrimary`. -/
def createPrimary (ov : Overlay α) (ctx : Ctx) (req : Request α) (obj : Option α) :
    Option (Outcome α) :=
  ov.stagePrimary ctx req fun ov =>
    ov.create ctx req.service req.method req.uri req.key req.orig obj ctx.verVer true

/-- `UpdatePrimary`. -/
def updatePrimary (ov : Overlay α) (ctx : Ctx) (req : Request α) (resVer : Name) (obj : Option α)
    (updateFn : Bool) : Option (Outcome α) :=
  ov.stagePrimary ctx req fun ov =>
    ov.update ctx req.service req.method req.uri req.key req.orig obj updateFn resVer ctx.verVer true

/-- `DeletePrimary`. -/
def deletePrimary (ov : Overlay α) (ctx : Ctx) (req : Request α) (into : Bool) : Option (Outcome α) :=
  ov.stagePrimary ctx req fun ov =>
    ov.delete ctx req.service req.method req.uri req.key req.orig into ctx.verVer true

/-- `Get` into an object. -/
def get (ov : Overlay α) (key : Key) (into : α) : Except Err α :=
  let base := match ov.cache key with
    | some obj => .ok obj
    | none => .error .notFound
  match ov.entry key with
  | none => base
  | some ovObj =>
    if ovObj.oper = .delete then .error .notFound
    else
      match ovObj.val with
      | some val =>
        .ok (RuntimeObject.setVersion val (RuntimeObject.version ((ov.cache key).getD into)))
      | none => base

end Overlay

end NicSw.Staging
