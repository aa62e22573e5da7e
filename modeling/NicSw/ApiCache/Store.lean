/-
The store of the API cache: objects with revisions, snapshots, and delayed deletes.

A key maps to a cache object, which stays in the trie as a tombstone when the object
is deleted and waits in the heap `delPending` until it is purged.  While there is a
snapshot, the first write to a key files the object that it replaces under the
newest snapshot.

The functions follow the source.  Cache objects are behind pointers, since the trie
and the heap share them.  `none` is a panic.  Callbacks and statistics are left out.

The patricia trie is a map from keys; a prefix selects the keys that begin with it.
`Get`, `VisitSubtree` without deletes and `Delete` of a key that is there act so.
`Set` does while no node has more than 8 children; `Delete` of a key that is not
there may hit a longer one, `Sweep` deletes under the feet of its own walk, and
`DeleteSubtree` leaves the item of the root.  `TrieFits` has the calls that are right.
-/
import NicSw.Lib.BinaryHeap
import Mathlib.Data.List.AList
import Mathlib.Data.List.Sort

namespace NicSw.ApiCache

/-! ### Cache objects -/

/-- A map of the source, with the order of its entries. -/
abbrev GoMap (κ α : Type) := AList fun _ : κ => α

/-- Keys, as `patricia.Prefix`. -/
abbrev Key := List Char

instance : LawfulBEq Key := inferInstance

variable {α : Type}

/-- `mvccObj`; its zero value has no object. -/
structure MvccObj (α : Type) where
  deleted : Bool := false
  obj : Option α := none
  snapshotRev : Nat := 0
  objRev : Nat := 0

/-- `cacheObj`.  `delQId` is the position of the object in the heap, which `Swap` keeps, and
is left out. -/
structure CacheObj (α : Type) where
  revision : Nat
  key : Key
  obj : α
  lastUpd : Nat
  deleted : Bool := false
  inDelQ : Bool := false
  snapshots : GoMap Nat (MvccObj α) := ∅
  snapshotList : List Nat := []
  lastSnapshot : Nat := 0

/-- The errors of the store. -/
inductive Err
  | notFound
  | snapshotNotFound
  | notCorrectRev
  | revBackpedals
  /-- The error `snapshot not found` of `getVersion`. -/
  | noVersion
  deriving DecidableEq, Repr

namespace CacheObj

/-- `addVersion`. -/
def addVersion (c : CacheObj α) (rev snapshotVer : Nat) (del : Bool) (obj : α) :
    Option (CacheObj α × Bool) :=
  if snapshotVer = 0 then some (c, false)
  -- `panic("snapshot version backpedals")`
  else if snapshotVer < c.lastSnapshot then none
  else if c.lastSnapshot ≠ snapshotVer then
    some ({ c with
      snapshots := c.snapshots.insert snapshotVer ⟨del, some obj, snapshotVer, rev⟩
      lastSnapshot := snapshotVer
      snapshotList := c.snapshotList ++ [snapshotVer] }, true)
  else some (c, false)

/-- `delVersion`. -/
def delVersion (c : CacheObj α) (rev : Nat) : CacheObj α × Bool :=
  match c.snapshots.lookup rev with
  | some _ => ({ c with snapshots := c.snapshots.erase rev }, true)
  | none => (c, false)

/-- `c.snapshots[rev]`. -/
def version (c : CacheObj α) (rev : Nat) : MvccObj α := (c.snapshots.lookup rev).getD {}

/-- The loop of `getVersion`. -/
def findVersion (c : CacheObj α) (rev : Nat) :
    List Nat → Option (MvccObj α) → Except Err (Option α × Bool)
  | [], _ => .error .snapshotNotFound
  | snap :: snaps, pobj =>
    let cobj := c.version snap
    if rev < snap then
      if cobj.objRev ≤ rev then .ok (cobj.obj, cobj.deleted)
      else
        match pobj with
        | some pobj => .ok (pobj.obj, pobj.deleted)
        | none => .error .snapshotNotFound
    else c.findVersion rev snaps (some cobj)

/-- `getVersion`. -/
def getVersion (c : CacheObj α) (rev : Nat) : Except Err (Option α × Bool) :=
  match c.snapshots.lookup rev with
  | some o => .ok (o.obj, o.deleted)
  | none =>
    if c.snapshotList = [] then .error .noVersion else c.findVersion rev c.snapshotList none

end CacheObj

/-! ### The store -/

/-- `snapshot`: the keys that have a version filed under it. -/
structure Snapshot where
  keys : List Key := []
  deleted : Bool := false
  deriving DecidableEq, Repr

/-- `store`.  `next` is the next pointer. -/
structure Store (α : Type) where
  mem : Nat → Option (CacheObj α)
  next : Nat
  objs : Key → Option Nat
  delPending : List Nat
  lastVer : Nat
  lastSnapshot : Nat
  snapshots : GoMap Nat Snapshot

/-- `NewStore`. -/
def newStore (α : Type) : Store α where
  mem := fun _ => none
  next := 0
  objs := fun _ => none
  delPending := []
  lastVer := 0
  lastSnapshot := 0
  snapshots := ∅

namespace Store

/-- The cache object of a key, and its pointer. -/
def find (s : Store α) (key : Key) : Option (Nat × CacheObj α) :=
  (s.objs key).bind fun p => (s.mem p).map fun c => (p, c)

/-- A cache object is written. -/
def put (s : Store α) (p : Nat) (c : CacheObj α) : Store α :=
  { s with mem := Function.update s.mem p (some c) }

/-- `Less` of the heap: the object that was updated before. -/
def less (s : Store α) (p q : Nat) : Bool :=
  match s.mem p, s.mem q with
  | some c, some d => decide (c.lastUpd < d.lastUpd)
  | _, _ => false

/-- The key is added to those of a snapshot that is there. -/
def addKey (s : Store α) (snap : Nat) (key : Key) : Store α :=
  match s.snapshots.lookup snap with
  | some ss => { s with snapshots := s.snapshots.insert snap { ss with keys := ss.keys.insert key } }
  | none => s

/-- The part of `Set` and `Delete` that files the current object under the newest
snapshot. -/
def addVersion (s : Store α) (key : Key) (p : Nat) (c : CacheObj α) :
    Option (Store α × CacheObj α) :=
  if s.lastSnapshot = 0 then some (s, c)
  else
    match c.addVersion c.revision s.lastSnapshot c.deleted c.obj with
    | none => none
    | some (c, added) => some ((if added then s.addKey s.lastSnapshot key else s).put p c, c)

/-- `Set`, at time `now`. -/
def set (s : Store α) (key : Key) (rev : Nat) (obj : α) (now : Nat) :
    Option (Store α × Except Err Unit) :=
  match s.find key with
  | some (p, c) =>
    if c.revision ≤ rev then do
      let (s, c) ← s.addVersion key p c
      let c' := { c with obj := obj, revision := rev, deleted := false, lastUpd := now }
      let s := { s.put p c' with lastVer := rev }
      if c.inDelQ then
        let delPending := BinaryHeap.remove s.less s.delPending (s.delPending.idxOf p)
        some ({ s.put p { c' with inDelQ := false } with delPending := delPending }, .ok ())
      else some (s, .ok ())
    else some (s, .error .revBackpedals)
  | none =>
    let s := s.put s.next { revision := rev, key := key, obj := obj, lastUpd := now }
    some ({ s with lastVer := rev, objs := Function.update s.objs key (some s.next),
                   next := s.next + 1 }, .ok ())

/-- `Get`. -/
def get (s : Store α) (key : Key) : Except Err α :=
  match s.find key with
  | none => .error .notFound
  | some (_, c) => if c.deleted then .error .notFound else .ok c.obj

/-- `GetFromSnapshot`; an object may be missing from what it returns. -/
def getFromSnapshot (s : Store α) (rev : Nat) (key : Key) : Except Err (Option α) :=
  match s.snapshots.lookup rev with
  | none => .error .snapshotNotFound
  | some ss =>
    if ss.deleted then .error .snapshotNotFound
    else
      match s.find key with
      | none => .error .notFound
      | some (_, c) =>
        if c.revision ≤ rev then
          if c.deleted then .error .notFound else .ok (some c.obj)
        else
          match c.getVersion rev with
          | .error err => .error err
          | .ok (obj, deleted) => if deleted then .error .notFound else .ok obj

/-- The revision after a `Delete`: a zero revision leaves the old one. -/
def newRev (rev old : Nat) : Nat := if rev ≠ 0 then rev else old

/-- `Delete`, at time `now`. -/
def delete (s : Store α) (key : Key) (rev now : Nat) : Option (Store α × Except Err α) :=
  match s.find key with
  | none => some (s, .error .notFound)
  | some (p, c) =>
    if rev ≠ 0 ∧ rev ≤ c.revision then some (s, .error .notCorrectRev)
    else do
      let s := { s with lastVer := newRev rev s.lastVer }
      let (s, c) ← s.addVersion key p c
      if c.deleted then some (s, .error .notFound)
      else
        let c' := { c with
          revision := newRev rev c.revision
          lastUpd := now
          deleted := true
          inDelQ := true }
        let s := s.put p c'
        let delPending :=
          if c.inDelQ then BinaryHeap.fix s.less s.delPending (s.delPending.idxOf p)
          else
            -- `Push` fixes the heap, and `heap.Push` moves the object up once more
            let l := BinaryHeap.fix s.less (s.delPending ++ [p]) s.delPending.length
            BinaryHeap.up s.less l.length l (l.length - 1)
        some ({ s with delPending := delPending }, .ok c.obj)

/-- `Mark`. -/
def mark (s : Store α) (pfx : Key) : Store α :=
  { s with mem := fun p => (s.mem p).map fun c =>
      if pfx.isPrefixOf c.key ∧ s.objs c.key = some p then { c with deleted := true } else c }

/-- `Sweep`. -/
def sweep (s : Store α) (pfx : Key) : Store α :=
  { s with objs := fun key =>
      match s.find key with
      | some (p, c) => if pfx.isPrefixOf key ∧ c.deleted then none else some p
      | none => s.objs key }

/-- `Clear`. -/
def clear (s : Store α) : Store α :=
  { s with objs := fun key => if ['/'].isPrefixOf key then none else s.objs key }

/-- `StartSnapshot`.  The flag of a deleted snapshot is cleared in a copy only. -/
def startSnapshot (s : Store α) : Store α × Nat :=
  match s.snapshots.lookup s.lastVer with
  | none =>
    ({ s with snapshots := s.snapshots.insert s.lastVer {}, lastSnapshot := s.lastVer }, s.lastVer)
  | some _ => (s, s.lastSnapshot)

/-- `DeleteSnapshot`. -/
def deleteSnapshot (s : Store α) (rev : Nat) : Store α × Except Err Unit :=
  match s.snapshots.lookup rev with
  | none => (s, .error .snapshotNotFound)
  | some ss =>
    if ss.deleted then (s, .error .snapshotNotFound)
    else ({ s with snapshots := s.snapshots.insert rev { ss with deleted := true } }, .ok ())

/-! ### Purging -/

/-- `delayedDelPurgeQuanta`. -/
def delayedDelPurgeQuanta : Nat := 100

/-- The version of a key that is filed under a snapshot is deleted; `snapdels` counts. -/
def delVersion (s : Store α) (snap : Nat) (key : Key) (snapdels : Nat) : Store α × Nat :=
  match s.find key with
  | none => (s, snapdels)
  | some (p, c) =>
    match c.delVersion snap with
    | (c, true) => (s.put p c, snapdels + 1)
    | (_, false) => (s, snapdels)

/-- `delete(sshot.keys, k)`. -/
def dropKey (s : Store α) (snap : Nat) (key : Key) : Store α :=
  match s.snapshots.lookup snap with
  | some ss => { s with snapshots := s.snapshots.insert snap { ss with keys := ss.keys.erase key } }
  | none => s

/-- The loop over the keys of a snapshot; the flag says that the quanta is used up. -/
def purgeKeys (snap : Nat) : List Key → Store α → Nat → (Store α × Nat) × Bool
  | [], s, snapdels => ((s, snapdels), false)
  | key :: keys, s, snapdels =>
    match s.objs key with
    | none => purgeKeys snap keys s snapdels
    | some _ =>
      let (s, snapdels) := s.delVersion snap key snapdels
      let s := s.dropKey snap key
      if delayedDelPurgeQuanta < snapdels then ((s, snapdels), true)
      else purgeKeys snap keys s snapdels

/-- A snapshot without keys is deleted. -/
def dropSnapshot (s : Store α) (snap : Nat) : Store α :=
  let s :=
    match s.snapshots.lookup snap with
    | some ss => if ss.keys = [] then { s with snapshots := s.snapshots.erase snap } else s
    | none => s
  if s.snapshots.keys = [] then { s with lastSnapshot := 0 } else s

/-- The loop over the snapshots.  The keys of a map come in any order. -/
def purgeSnapshots (order : List Key → List Key) : List Nat → Store α → Nat → Store α
  | [], s, _ => s
  | snap :: snaps, s, snapdels =>
    match s.snapshots.lookup snap with
    | none => purgeSnapshots order snaps s snapdels
    | some ss =>
      if ss.deleted then
        match purgeKeys snap (order ss.keys) s snapdels with
        | ((s, _), true) => s
        | ((s, snapdels), false) => purgeSnapshots order snaps (s.dropSnapshot snap) snapdels
      else purgeSnapshots order snaps s snapdels

/-- `heap.Pop` of the pending deletes. -/
def popPending (s : Store α) (p : Nat) (c : CacheObj α) : Store α :=
  { s.put p { c with inDelQ := false } with delPending := BinaryHeap.pop s.less s.delPending }

/-- The loop over the pending deletes.  `clock` gives the times that are read, and `n`
bounds the number of rounds. -/
def purgePending (past : Nat) (clock : Nat → Nat) : Nat → Nat → Store α → Store α
  | 0, _, s => s
  | n + 1, deletes, s =>
    match s.delPending with
    | [] => s
    | p :: _ =>
      match s.mem p with
      | none => s
      | some c =>
        if clock deletes < c.lastUpd + past ∨ delayedDelPurgeQuanta < deletes then s
        else if c.snapshots.keys ≠ [] then s
        else
          let s := s.popPending p c
          purgePending past clock n (deletes + 1)
            { s with objs := Function.update s.objs c.key none }

/-- `PurgeDeleted`. -/
def purgeDeleted (s : Store α) (past : Nat) (clock : Nat → Nat) (order : List Key → List Key) :
    Store α :=
  let s := purgeSnapshots order (s.snapshots.keys.insertionSort (· ≤ ·)) s 0
  purgePending past clock (s.delPending.length + 1) 0 s

end Store

end NicSw.ApiCache
