/-
The flow table library (`sdk/lib/table/ftl`): a main table and a hint table of
buckets, each with a software valid bit and an entry in memory.

The code works on API contexts (`Apictx`), one for each level of a chain, which
hold a copy of the entry of their bucket.  Contexts are values here.  Where
the source compares context pointers (`ectx == pctx`) the model compares their
levels, since the contexts of one call lie in an array indexed by level.

A failed `SDK_ASSERT` is `none`.  The depth of a recursion is bounded by
`FTL_MAX_API_CONTEXTS`: a function on hint levels recurses on the number of
contexts left, and having none left is the assert of `ctxnew_`.

Entries are generated code.  Their accessors are field accesses, except for
what `set_hint_hash` leaves in `more_hashes`, which is a parameter
(`moreHashes`): the entry classes in the tree differ there.
-/
import NicSw.Ftl.HintAlloc
import NicSw.Lib.HintForest
import NicSw.Sdk.Table

namespace NicSw

open Function

/-! ### Entries -/

/-- The properties of a table (`properties_t`) and of its generated entries. -/
structure FtlProps where
  ptableSize : Nat
  stableSize : Nat
  numHints : Nat
  maxRecircs : Nat
  /-- What `set_hint_hash` stores in `more_hashes` for a hash. -/
  moreHashes : Nat → Nat
  two_le_ptableSize : 2 ≤ ptableSize
  ptableSize_le : ptableSize ≤ 2 ^ 32
  word_le_stableSize : 64 ≤ stableSize
  stableSize_le : stableSize ≤ 2 ^ 30
  numHints_pos : 1 ≤ numHints
  moreHashes_one : moreHashes 1 ≠ 0

/-- `HINT_SLOT_MORE`. -/
def hintSlotMore : Nat := 7

/-- `FTL_MAX_API_CONTEXTS`. -/
def ftlMaxApiContexts : Nat := 8

/-- A flow entry.  `link` holds the hint slots `1 .. num_hints` and, in slot
`num_hints + 1`, `more_hints` and `more_hashes`. -/
structure FtlEntry (K D : Type*) where
  key : K
  data : D
  entryValid : Bool
  link : Nat → HintLink

variable {K D : Type*} [DecidableEq K] [Zero K] [Zero D] (P : FtlProps)

namespace FtlEntry

/-- `clear`. -/
def clear : FtlEntry K D := ⟨0, 0, false, fun _ => HintLink.none⟩

/-- `get_more_hint_slot`. -/
def moreHintSlot : Nat := P.numHints + 1

/-- `get_hint_hash`: the numbered slots, and the more slot for any other number. -/
def getHintHash (e : FtlEntry K D) (slot : Nat) : HintLink :=
  if slot ≤ P.numHints then e.link slot else e.link (moreHintSlot P)

/-- `set_hint_hash`. -/
def setHintHash (e : FtlEntry K D) (slot hint hash : Nat) : FtlEntry K D :=
  if slot ≤ P.numHints then { e with link := update e.link slot ⟨hint, hash⟩ }
  else { e with link := update e.link (moreHintSlot P) ⟨hint, P.moreHashes hash⟩ }

/-- `find_last_hint`: `0` when no slot is in use. -/
def findLastHint (e : FtlEntry K D) : Nat := (lastSlot P.numHints e.link).getD 0

/-- `is_hint_slot_valid`. -/
def isHintSlotValid (slot : Nat) : Bool := slot ≠ 0 && slot ≤ moreHintSlot P

/-- `clear_key_data`. -/
def clearKeyData (e : FtlEntry K D) : FtlEntry K D := { e with key := 0, data := 0 }

end FtlEntry

/-! ### State -/

/-- `Bucket`, with its entry in memory. -/
structure FtlBucket (K D : Type*) where
  valid : Bool
  hw : FtlEntry K D

/-- `tablestats`: the counters of table contents. -/
structure FtlStats where
  entries : BitVec 64
  collisions : BitVec 64

/-- The main table and the hint table. -/
structure FtlTable (K D : Type*) where
  bucket : BucketLoc → FtlBucket K D
  hints : HintAlloc
  tstats : Fin 8 → FtlStats

/-- `sdk_table_api_params_t`; `key` and `data` are those of `params->entry`,
and `movecb` tells whether there is a callback. -/
structure FtlParams (K D : Type*) where
  key : K
  data : D
  hash32b : BitVec 32
  handle : Handle
  movecb : Bool

/-- A call of `movecb`. -/
structure MoveCb (K D : Type*) where
  key : K
  data : D
  oldHandle : Handle
  newHandle : Handle
  done : Bool

/-- What an API call reads and writes: the table, its parameters and the
callbacks made so far. -/
structure FtlSt (K D : Type*) where
  table : FtlTable K D
  params : FtlParams K D
  moves : List (MoveCb K D)

/-- `Apictx`. -/
structure Apictx (K D : Type*) where
  loc : BucketLoc
  entry : FtlEntry K D
  hintSlot : Nat
  hashMsbits : Nat
  moreHashs : Nat
  level : Nat
  hit : Bool
  exmatch : Bool
  writePending : Bool
  hint : Nat

/-- `table_index`. -/
def BucketLoc.index : BucketLoc → Nat
  | .main i => i
  | .hint j => j

/-- `is_main`. -/
def Apictx.isMain (ctx : Apictx K D) : Bool := ctx.level == 0

/-- Change the valid bit of a bucket. -/
def FtlSt.setValid (st : FtlSt K D) (b : BucketLoc) (v : Bool) : FtlSt K D :=
  { st with table.bucket := update st.table.bucket b { st.table.bucket b with valid := v } }

/-- Change the entry of a bucket in memory. -/
def FtlSt.setHw (st : FtlSt K D) (b : BucketLoc) (e : FtlEntry K D) : FtlSt K D :=
  { st with table.bucket := update st.table.bucket b { st.table.bucket b with hw := e } }

/-! ### Buckets -/

namespace FtlBucket

/-- `Bucket::read_`. -/
def read (st : FtlSt K D) (ctx : Apictx K D) (force : Bool) : Option (Apictx K D) :=
  let bkt := st.table.bucket ctx.loc
  if !ctx.isMain && ctx.loc.index == 0 then none
  else
    let ctx := if bkt.valid || force then { ctx with entry := bkt.hw } else ctx
    if ctx.entry.entryValid && !force && bkt.valid != ctx.entry.entryValid then none else some ctx

/-- `Bucket::write_`. -/
def write (st : FtlSt K D) (ctx : Apictx K D) : Option (Apictx K D × FtlSt K D) :=
  if !ctx.writePending then some (ctx, st)
  else if !ctx.isMain && ctx.loc.index == 0 then none
  else
    let e := { ctx.entry with entryValid := (st.table.bucket ctx.loc).valid }
    let e :=
      if ctx.hint = 0 then e
      else if ctx.hintSlot = FtlEntry.moreHintSlot P then e.setHintHash P ctx.hintSlot ctx.hint 1
      else e.setHintHash P ctx.hintSlot ctx.hint ctx.hashMsbits
    some ({ ctx with entry := e, writePending := false }, st.setHw ctx.loc e)

/-- The handle of the bucket of a context. -/
def handleOf (ctx : Apictx K D) (h : Handle) : Handle :=
  if ctx.isMain then h.setPindex ctx.loc.index else h.setSindex ctx.loc.index

/-- `Bucket::create_`. -/
def create (st : FtlSt K D) (ctx : Apictx K D) : Apictx K D × FtlSt K D :=
  let st' := st.setValid ctx.loc true
  ({ ctx with
      entry := { ctx.entry with key := st.params.key, data := st.params.data }
      writePending := true },
    { st' with params.handle := handleOf ctx st.params.handle })

/-- `Bucket::find_hint_`. -/
def findHint (ctx : Apictx K D) : SdkRet × Apictx K D :=
  match matchSlot P.numHints ctx.entry.link ctx.hashMsbits with
  | some i => (.ok, { ctx with hintSlot := i, hint := (ctx.entry.link i).hint, hit := true })
  | none =>
    let more := ctx.entry.getHintHash P hintSlotMore
    let ctx := { ctx with hint := more.hint, moreHashs := more.hash }
    if more.hash ≠ 0 then
      (.ok, { ctx with hintSlot := FtlEntry.moreHintSlot P, hit := true })
    else (.entryNotFound, ctx)

/-- `Bucket::find_`. -/
def find (key : K) (ctx : Apictx K D) : SdkRet × Apictx K D :=
  if ctx.entry.key = key then (.ok, { ctx with hit := true, exmatch := true })
  else findHint P ctx

/-- `Bucket::find_first_free_hint_`. -/
def findFirstFreeHint (ctx : Apictx K D) : SdkRet × Apictx K D :=
  let ctx :=
    match (List.range' 1 P.numHints).find? fun i => (ctx.entry.link i).hint = 0 with
    | some i => { ctx with hintSlot := i, hint := (ctx.entry.link i).hint }
    | none => ctx
  if ctx.hintSlot ≠ 0 then (.ok, ctx)
  else
    let more := ctx.entry.getHintHash P hintSlotMore
    let ctx := { ctx with hint := more.hint, moreHashs := more.hash }
    if more.hash = 0 then (.ok, { ctx with hintSlot := FtlEntry.moreHintSlot P })
    else (.noResource, ctx)

/-- `Bucket::append_`. -/
def append (key : K) (ctx : Apictx K D) : SdkRet × Apictx K D :=
  match find P key ctx with
  | (.ok, ctx) => (if ctx.exmatch then .entryExists else .collision, ctx)
  | (.entryNotFound, ctx) =>
    match findFirstFreeHint P ctx with
    | (.ok, ctx) => (.collision, ctx)
    | r => r
  | r => r

/-- `Bucket::insert_`. -/
def insert (st : FtlSt K D) (ctx : Apictx K D) : SdkRet × Apictx K D × FtlSt K D :=
  if (st.table.bucket ctx.loc).valid then
    let (ret, ctx) := append P st.params.key ctx
    (ret, ctx, st)
  else (.ok, create st ctx)

/-- `Bucket::update_`. -/
def update (st : FtlSt K D) (ctx : Apictx K D) : Option (FtlSt K D) :=
  if !(st.table.bucket ctx.loc).valid then none
  else
    let st := { st with params.handle := handleOf ctx st.params.handle }
    (write P st { ctx with
      entry := { ctx.entry with data := st.params.data }, writePending := true }).map (·.2)

/-- `Bucket::find_last_hint_`. -/
def findLastHint (ctx : Apictx K D) : SdkRet × Apictx K D :=
  let ctx := { ctx with hintSlot := ctx.entry.findLastHint P }
  if !FtlEntry.isHintSlotValid P ctx.hintSlot then (.entryNotFound, ctx)
  else
    let l := ctx.entry.getHintHash P ctx.hintSlot
    if ctx.hintSlot = FtlEntry.moreHintSlot P then
      (.ok, { ctx with hint := l.hint, moreHashs := l.hash })
    else (.ok, { ctx with hint := l.hint, hashMsbits := l.hash })

/-- `Bucket::remove_`. -/
def remove (st : FtlSt K D) (ctx : Apictx K D) : Option (SdkRet × Apictx K D × FtlSt K D) :=
  if !(st.table.bucket ctx.loc).valid then some (.entryNotFound, ctx, st)
  else
    let st := { st with params.data := ctx.entry.data }
    match find P st.params.key ctx with
    | (.ok, ctx) =>
      if !ctx.exmatch then some (.ok, ctx, st)
      else
        let ctx := { ctx with entry := ctx.entry.clearKeyData, writePending := true }
        match findLastHint P ctx with
        | (.entryNotFound, ctx) =>
          (write P (st.setValid ctx.loc false) ctx).map fun r => (.ok, r)
        | (ret, ctx) => some (ret, ctx, st)
    | (ret, ctx) => some (ret, ctx, st)

/-- `Bucket::clear_hint_`, which is all of `delink_`. -/
def delink (ctx : Apictx K D) : Apictx K D :=
  { ctx with entry := ctx.entry.setHintHash P ctx.hintSlot 0 0, hint := 0, writePending := true }

/-- `Bucket::move_`.  When `dst` and `src` are one context, its key and data are
only cleared. -/
def move (st : FtlSt K D) (dst src : Apictx K D) : Apictx K D × Apictx K D × FtlSt K D :=
  let src' := { src with entry := src.entry.clearKeyData, writePending := true }
  (if dst.level == src.level then src'
    else { dst with
      entry := { dst.entry with key := src.entry.key, data := src.entry.data }
      writePending := true },
    src', st.setValid src.loc false)

/-- A call of `movecb`, if there is one. -/
def notify (st : FtlSt K D) (e : FtlEntry K D) (oldHandle newHandle : Handle) (done : Bool) :
    FtlSt K D :=
  if st.params.movecb then
    { st with moves := st.moves ++ [⟨e.key, e.data, oldHandle, newHandle, done⟩] }
  else st

/-- The end of `Bucket::defragment_` when the tail is another bucket: step 6 and
the second notification. -/
def moved (st : FtlSt K D) (ectx tctx : Apictx K D) (oldHandle newHandle : Handle) :
    Option (FtlSt K D) := do
  let (_, st) ← write P st tctx
  if st.params.movecb then do
    let ectx ← read st ectx true
    some (notify st ectx.entry oldHandle newHandle true)
  else some st

/-- `Bucket::defragment_`. -/
def defragment (st : FtlSt K D) (ectx pctx tctx : Apictx K D) : Option (FtlSt K D) :=
  let isTail := ectx.level == tctx.level
  let isParent := ectx.level == pctx.level
  let oldHandle := handleOf tctx Handle.null
  let newHandle := handleOf ectx Handle.null
  let st := if isTail then st else notify st tctx.entry oldHandle newHandle false
  let (ectx, tctx, st) := move st ectx tctx
  (if isParent then some (ectx, st) else write P st ectx).bind fun (ectx, st) =>
    (write P st (delink P (if isParent then ectx else pctx))).bind fun (_, st) =>
      if isTail then some st else moved P st ectx tctx oldHandle newHandle

end FtlBucket

/-! ### The hint table -/

namespace FtlHint

/-- `hint_table::ctxnew_` and `initctx_`: a context for the hint bucket that the
parent context leads to. -/
def ctxnew (pctx : Apictx K D) : Apictx K D where
  loc := .hint pctx.hint
  entry := FtlEntry.clear
  hintSlot := 0
  hashMsbits := pctx.hashMsbits
  moreHashs := 0
  level := pctx.level + 1
  hit := false
  exmatch := false
  writePending := false
  hint := 0

/-- `hint_table::alloc_`. -/
def alloc (tid : Fin 8) (ctx : Apictx K D) (st : FtlSt K D) :
    SdkRet × Apictx K D × FtlSt K D :=
  match st.table.hints.alloc tid with
  | (some hint, hints) =>
    (.ok, { ctx with hint := hint, writePending := true }, { st with table.hints := hints })
  | (none, hints) => (.noResource, ctx, { st with table.hints := hints })

/-- `hint_table::dealloc_`. -/
def dealloc (ctx : Apictx K D) (st : FtlSt K D) : FtlSt K D :=
  { st with table.hints := st.table.hints.dealloc ctx.loc.index }

/-- `hint_table::insert_`, with `n` contexts left. -/
def insert (tid : Fin 8) : Nat → Apictx K D → FtlSt K D →
    Option (SdkRet × Apictx K D × FtlSt K D)
  | n, pctx, st =>
    if P.maxRecircs ≤ pctx.level + 1 then some (.maxRecircExceed, pctx, st)
    else
      match if pctx.hint = 0 then alloc tid pctx st else (.ok, pctx, st) with
      | (.ok, pctx, st) =>
        match n with
        | 0 => none
        | n + 1 => do
            let hctx ← FtlBucket.read st (ctxnew pctx) false
            let (ret, hctx, st) := FtlBucket.insert P st hctx
            let (ret, hctx, st) ←
              if ret = .collision then insert tid n hctx st else some (ret, hctx, st)
            if ret = .ok then do
              let (_, st) ← FtlBucket.write P st hctx
              some (.ok, pctx, st)
            else some (ret, pctx, st)
      | r => some r

/-- `hint_table::tail_`: the tail context and its parent, where `pctx` is the
parent of `ctx`. -/
def tail (st : FtlSt K D) : Nat → Option (Apictx K D) → Apictx K D →
    Option (Option (Apictx K D) × Apictx K D)
  | n, pctx, ctx =>
    if ctx.hint = 0 then some (pctx, ctx)
    else
      match n with
      | 0 => none
      | n + 1 =>
        if P.maxRecircs ≤ (ctxnew ctx).level then none
        else do
          let tctx ← FtlBucket.read st (ctxnew ctx) false
          match FtlBucket.findLastHint P tctx with
          | (.ok, tctx) => tail st n (some ctx) tctx
          | (_, tctx) => some (some ctx, tctx)

/-- `hint_table::defragment_`. -/
def defragment (n : Nat) (pctx : Option (Apictx K D)) (ectx : Apictx K D) (st : FtlSt K D) :
    Option (FtlSt K D) := do
  let (pctx, tctx) ← tail P st n pctx ectx
  let pctx ← pctx
  let st ← FtlBucket.defragment P st ectx pctx tctx
  some (dealloc tctx st)

/-- `hint_table::remove_`. -/
def remove : Nat → Apictx K D → FtlSt K D → Option (SdkRet × FtlSt K D)
  | 0, _, _ => none
  | n + 1, ctx, st => do
      let hctx ← FtlBucket.read st (ctxnew ctx) false
      let (ret, hctx, st) ← FtlBucket.remove P st hctx
      if ret ≠ .ok then some (ret, st)
      else if hctx.exmatch then (defragment P n (some ctx) hctx st).map fun st => (.ok, st)
      else remove n hctx st

/-- `hint_table::find_`, with the context of the match. -/
def find (st : FtlSt K D) : Nat → Apictx K D → Option (SdkRet × Apictx K D)
  | 0, _ => none
  | n + 1, ctx => do
      let hctx ← FtlBucket.read st (ctxnew ctx) false
      let (ret, hctx) := FtlBucket.find P st.params.key hctx
      if ret ≠ .ok then some (ret, hctx)
      else if hctx.exmatch then some (.ok, hctx)
      else find st n hctx

end FtlHint

/-! ### The main table -/

/-- `hash_32b % table_size_`. -/
def FtlProps.tableIndex (hash : BitVec 32) : Nat := hash.toNat % P.ptableSize

/-- `hash_msbits`: the hash bits that do not go into a table index. -/
def FtlProps.hashMsbits (hash : BitVec 32) : Nat :=
  hash.toNat / 2 ^ Nat.log2 P.ptableSize % 2 ^ (32 - Nat.log2 P.ptableSize)

namespace FtlMain

/-- `main_table::initctx_` on a context from `ctxinit_`. -/
def initctx (hash : BitVec 32) : Apictx K D where
  loc := .main (P.tableIndex hash)
  entry := FtlEntry.clear
  hintSlot := 0
  hashMsbits := P.hashMsbits hash
  moreHashs := 0
  level := 0
  hit := false
  exmatch := false
  writePending := false
  hint := 0

/-- Change the counters of a thread. -/
def count (tid : Fin 8) (f : FtlStats → FtlStats) (st : FtlSt K D) : FtlSt K D :=
  { st with table.tstats := update st.table.tstats tid (f (st.table.tstats tid)) }

/-- `main_table::insert_`. -/
def insert (tid : Fin 8) (st : FtlSt K D) : Option (SdkRet × FtlSt K D) := do
  let ctx ← FtlBucket.read st (initctx P st.params.hash32b) false
  let (ret, ctx, st) := FtlBucket.insert P st ctx
  let collision := decide (ret = .collision)
  let (ret, ctx, st) ←
    if collision then FtlHint.insert P tid ftlMaxApiContexts ctx st else some (ret, ctx, st)
  if ret = .ok then do
    let (_, st) ← FtlBucket.write P st ctx
    let st := if collision then count tid (fun s => { s with collisions := s.collisions + 1 }) st
      else st
    some (.ok, count tid (fun s => { s with entries := s.entries + 1 }) st)
  else some (ret, st)

/-- `main_table::remove_`. -/
def remove (tid : Fin 8) (st : FtlSt K D) : Option (SdkRet × FtlSt K D) := do
  let ctx ← FtlBucket.read st (initctx P st.params.hash32b) false
  let (ret, ctx, st) ← FtlBucket.remove P st ctx
  let decEntries := count tid fun s => { s with entries := s.entries - 1 }
  let decCollisions := count tid fun s => { s with collisions := s.collisions - 1 }
  if ret ≠ .ok then some (ret, st)
  else if ctx.exmatch then
    if ctx.hint ≠ 0 then do
      let st ← FtlHint.defragment P ftlMaxApiContexts none ctx st
      some (.ok, decEntries (decCollisions st))
    else some (.ok, decEntries st)
  else do
    let (ret, st) ← FtlHint.remove P ftlMaxApiContexts ctx st
    if ret ≠ .ok then some (ret, st) else some (.ok, decEntries (decCollisions st))

/-- `main_table::find_`. -/
def find (st : FtlSt K D) : Option (SdkRet × Apictx K D) := do
  let ctx ← FtlBucket.read st (initctx P st.params.hash32b) false
  let (ret, ctx) := FtlBucket.find P st.params.key ctx
  if ret ≠ .ok then some (ret, ctx)
  else if ctx.exmatch then some (.ok, ctx)
  else FtlHint.find P st ftlMaxApiContexts ctx

/-- `main_table::update_`. -/
def update (st : FtlSt K D) : Option (SdkRet × FtlSt K D) := do
  let (ret, ctx) ← find P st
  if ret ≠ .ok then some (ret, st)
  else (FtlBucket.update P st ctx).map fun st => (.ok, st)

/-- `main_table::get_`. -/
def get (st : FtlSt K D) : Option (SdkRet × FtlSt K D) := do
  let (ret, ctx) ← find P st
  if ret ≠ .ok then some (ret, st)
  else
    some (.ok, { st with params := { st.params with
      handle := FtlBucket.handleOf ctx st.params.handle
      key := ctx.entry.key
      data := ctx.entry.data } })

/-- `main_table::get_with_handle_` and `hint_table::get_with_handle_`. -/
def getWithHandle (st : FtlSt K D) : Option (SdkRet × FtlSt K D) := do
  let h := st.params.handle
  let index := if h.pvalid then h.pindex else if h.svalid then h.sindex else 0
  let ctx := initctx P st.params.hash32b
  let ctx :=
    if h.svalid then { ctx with loc := .hint h.sindex, level := 1 }
    else { ctx with loc := .main index }
  let ctx ← FtlBucket.read st ctx false
  some (.ok, { st with params := { st.params with key := ctx.entry.key, data := ctx.entry.data } })

end FtlMain

/-! ### The API -/

/-- The API calls on a key. -/
inductive FtlOp (K D : Type*)
  | insert (key : K) (data : D)
  | update (key : K) (data : D)
  | remove (key : K)
  | get (key : K)

/-- The key of a call. -/
def FtlOp.key : FtlOp K D → K
  | .insert k _ | .update k _ | .remove k | .get k => k

/-- The parameters of a call. -/
def FtlOp.params (hash : K → BitVec 32) : FtlOp K D → FtlParams K D
  | .insert k d | .update k d => ⟨k, d, hash k, Handle.null, true⟩
  | .remove k | .get k => ⟨k, 0, hash k, Handle.null, true⟩

namespace FtlTable

/-- `ftl_base::init_` on cleared memory; `none` is a failed `SDK_ASSERT`. -/
def init : Option (FtlTable K D) :=
  (HintAlloc.init P.stableSize).map fun hints =>
    ⟨fun _ => ⟨false, FtlEntry.clear⟩, hints, fun _ => ⟨0, 0⟩⟩

/-- `ftl_base::insert`, `update`, `remove` and `get`, called by thread `tid`. -/
def call (hash : K → BitVec 32) (T : FtlTable K D) (tid : Fin 8) (op : FtlOp K D) :
    Option (SdkRet × FtlSt K D) :=
  let st := ⟨T, op.params hash, []⟩
  match op with
  | .insert _ _ => FtlMain.insert P tid st
  | .update _ _ => FtlMain.update P st
  | .remove _ => FtlMain.remove P tid st
  | .get _ => FtlMain.get P st

/-- `ftl_base::get_with_handle`. -/
def getWithHandle (T : FtlTable K D) (h : Handle) : Option (SdkRet × FtlSt K D) :=
  FtlMain.getWithHandle P ⟨T, ⟨0, 0, 0, h, false⟩, []⟩

end FtlTable

end NicSw
