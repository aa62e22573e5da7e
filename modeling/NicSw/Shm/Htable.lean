/-
The hash tables of the metrics shared memory.  Entries with a key and a value
are chained from buckets; a small table has its buckets inline, a big one keeps
them in tablets.  An entry carries a reference count and is freed when the count
drops to zero.

An entry is named by its offset in the memory.  A call that follows a pointer to
memory that holds no entry, writes outside the memory of an entry, or fails an
assert is `none`.
-/
import Mathlib.Algebra.Group.Nat.Defs
import Mathlib.Logic.Function.Basic

namespace NicSw.Shm

open Function

/-- `assert`. -/
def assert (p : Prop) [Decidable p] : Option Unit := if p then some () else none

@[simp] theorem assert_pos {p : Prop} [Decidable p] (h : p) : assert p = some () := if_pos h

/-- What a call reports: nothing, or the text of an error. -/
abbrev Error := Option String

abbrev Key := List UInt8

def maxSeqBuckets : Nat := 2500
def maxKeyLen : Nat := 1024

/-- `fnv_hash`. -/
def fnvHash (key : Key) : UInt32 :=
  key.foldl (fun hash b => (b.toUInt32 ^^^ hash) * 0x01000193) 0x811C9DC5

/-- `ROUND_KEYLAN`: up to a multiple of eight, within 16 bits. -/
def roundKeylan (len : Int) : Nat := ((len + 7) % 65536).toNat / 8 * 8

/-- What the signed field `key_len : 10` keeps of a length. -/
def keyLenField (len : Nat) : Int := (len : Int).bmod 1024

/-- What an `int32_t` keeps of a number. -/
def int32 (n : Int) : Int := n.bmod (2 ^ 32)

/-! ### State -/

/-- An entry: header, key, trailer and value. -/
structure HtEntry where
  nextEntry : Nat
  /-- flag `HT_ENTRY_FLAG_DPSTATS` -/
  dpstats : Bool
  keyLen : Int
  valLen : Nat
  key : Key
  refcnt : Int
  value : List UInt8

/-- A table and the entries in the memory. -/
structure HTable where
  numBuckets : Nat
  twoLevel : Bool
  numEntries : Int
  numUsedBuckets : Int
  numTablets : Nat
  numBucketsPerTablet : Nat
  /-- `ht_entry` of the first level buckets -/
  buckets : Nat → Nat
  /-- `ht_entry` of the buckets of each tablet -/
  tablets : Nat → Nat → Nat
  mem : Nat → Option HtEntry

/-- A bucket of either level. -/
inductive Bucket
  | embedded (idx : Nat)
  | tablet (tabletIdx bktIdx : Nat)
  deriving DecidableEq

namespace HTable

/-- The bucket with an index. -/
def bucket (t : HTable) (idx : Nat) : Option Bucket := do
  if ¬ t.twoLevel then some (.embedded idx)
  else
    let tabletIdx := idx / t.numBucketsPerTablet
    let bktIdx := idx % t.numBucketsPerTablet
    assert (tabletIdx < t.numTablets)
    assert (t.buckets tabletIdx ≠ 0)
    some (.tablet tabletIdx bktIdx)

/-- `ht_entry` of a bucket. -/
def first (t : HTable) : Bucket → Nat
  | .embedded idx => t.buckets idx
  | .tablet tabletIdx bktIdx => t.tablets tabletIdx bktIdx

def setFirst (t : HTable) (b : Bucket) (off : Nat) : HTable :=
  match b with
  | .embedded idx => { t with buckets := update t.buckets idx off }
  | .tablet tabletIdx bktIdx => { t with
      tablets := update t.tablets tabletIdx (update (t.tablets tabletIdx) bktIdx off) }

/-- The bucket index of a key. -/
def idx (t : HTable) (key : Key) : Nat := (fnvHash key).toNat % t.numBuckets

def setEntry (t : HTable) (off : Nat) (e : HtEntry) : HTable :=
  { t with mem := update t.mem off (some e) }

def modEntry (t : HTable) (off : Nat) (f : HtEntry → HtEntry) : Option HTable := do
  let e ← t.mem off
  some (t.setEntry off (f e))

/-- `shm_ptr_->Free`. -/
def free (t : HTable) (off : Nat) : Option HTable := do
  let _ ← t.mem off
  some { t with mem := update t.mem off none }

/-- `Acquire`. -/
def acquire (t : HTable) (off : Nat) : Option HTable :=
  t.modEntry off fun e => { e with refcnt := int32 (e.refcnt + 1) }

/-- `Release`; the memory is freed with the last reference. -/
def release (t : HTable) (off : Nat) : Option HTable := do
  let e ← t.mem off
  let t := t.setEntry off { e with refcnt := int32 (e.refcnt - 1) }
  if e.refcnt ≤ 1 then t.free off else some t

end HTable

/-! ### Looking up -/

/-- The test on an entry that all walks over a chain make. -/
def HtEntry.Matches (e : HtEntry) (key : Key) : Prop :=
  e.keyLen = key.length ∧ e.key.take key.length = key

instance (e : HtEntry) (key : Key) : Decidable (e.Matches key) :=
  inferInstanceAs (Decidable (_ ∧ _))

/-- The walk over a chain: the matching entry and the one before it, if the
chain has one.  The loops have no bound in the source; this one is cut off
(`none`) after `fuel` entries. -/
def HTable.walk (t : HTable) (key : Key) : Nat → Option Nat → Nat →
    Option (Option (Option Nat × Nat))
  | 0, _, _ => none
  | fuel + 1, prev, off =>
    if off = 0 then some none
    else do
      let e ← t.mem off
      if e.Matches key then some (some (prev, off))
      else t.walk key fuel (some off) e.nextEntry

/-- The walk over the chain of a bucket. -/
def HTable.walkBucket (t : HTable) (b : Bucket) (key : Key) :
    Option (Option (Option Nat × Nat)) :=
  t.walk key (t.numEntries.toNat + 1) none (t.first b)

/-- `findEntry`, `findMatchingEntry`. -/
def findEntry (t : HTable) (key : Key) : Option (HTable × Option Nat) := do
  let b ← t.bucket (t.idx key)
  match ← t.walkBucket b key with
  | none => some (t, none)
  | some (_, off) =>
    let t ← t.acquire off
    some (t, some off)

/-- The check at the head of the calls. -/
def validKey (key : Key) : Prop := 0 < key.length ∧ key.length ≤ maxKeyLen

instance (key : Key) : Decidable (validKey key) := inferInstanceAs (Decidable (_ ∧ _))

/-- `Find`. -/
def find (t : HTable) (key : Key) : Option (HTable × Option Nat) :=
  if ¬ validKey key then some (t, none) else findEntry t key

/-- The eight bytes of a PAL address, and back. -/
def palBytes (palAddr : UInt64) : List UInt8 :=
  (List.range 8).map fun i => (palAddr >>> (8 * i).toUInt64).toUInt8

def palAddr (value : List UInt8) : UInt64 :=
  (value.take 8).foldr (fun b acc => acc <<< 8 ||| b.toUInt64) 0

/-- `FindDpstats`. -/
def findDpstats (t : HTable) (key : Key) : Option (HTable × UInt64) := do
  if ¬ validKey key then some (t, 0)
  else
    let (t, r) ← findEntry t key
    match r with
    | none => some (t, 0)
    | some off =>
      let e ← t.mem off
      if e.dpstats then
        assert (palAddr e.value &&& 7 = 0)
        some (t, palAddr e.value)
      else some (t, 0)

/-! ### Inserting and removing -/

/-- `createHashEntry`, with what the allocator answers.  The trailer and the
value stand where the kept key length puts them; the call is `none` if that is
beyond the memory asked for. -/
def createHashEntry (t : HTable) (key : Key) (valLen : Nat) (mem : Option Nat) :
    Option (HTable × Option Nat) := do
  match mem with
  | none => some (t, none)
  | some off =>
    let keyLen := keyLenField key.length
    assert (roundKeylan keyLen ≤ roundKeylan key.length)
    some (t.setEntry off
      { nextEntry := 0, dpstats := false, keyLen := keyLen, valLen := valLen, key := key
        refcnt := 1, value := List.replicate valLen 0 }, some off)

/-- `insertHashEntry`, `atomicInsert`. -/
def insertHashEntry (t : HTable) (key : Key) (off : Nat) : Option HTable := do
  let b ← t.bucket (t.idx key)
  let t := if t.first b = 0 then { t with numUsedBuckets := t.numUsedBuckets + 1 } else t
  let t ← t.modEntry off fun e => { e with nextEntry := t.first b }
  let t := t.setFirst b off
  some { t with numEntries := t.numEntries + 1 }

/-- Write the slot of a chain: the bucket, or the link of the entry before. -/
def HTable.setSlot (t : HTable) (b : Bucket) (prev : Option Nat) (off : Nat) : Option HTable :=
  match prev with
  | none => some (t.setFirst b off)
  | some prev => t.modEntry prev fun e => { e with nextEntry := off }

/-- `swapHashEntry`: the entry takes the place of the one with the key. -/
def swapHashEntry (t : HTable) (off : Nat) (key : Key) : Option HTable := do
  let b ← t.bucket (t.idx key)
  if t.first b ≠ 0 then
    match ← t.walkBucket b key with
    | none => some t
    | some (prev, curr) =>
      let c ← t.mem curr
      let t ← t.modEntry off fun e => { e with nextEntry := c.nextEntry }
      let t ← t.setSlot b prev off
      let t ← t.modEntry curr fun e => { e with nextEntry := 0 }
      t.release curr
  else
    let t ← t.modEntry off fun e => { e with nextEntry := t.first b }
    some (t.setFirst b off)

/-- The head of `Create` and `CreateDpstats`: the entry of a key that is there, or else
one that is made. -/
def findOrMake (t : HTable) (key : Key) (make : HTable → Option (HTable × Option Nat)) :
    Option (HTable × Option Nat) := do
  if ¬ validKey key then some (t, none)
  else
    let (t, val) ← find t key
    match val with
    | some off =>
      let t ← t.release off
      some (t, some off)
    | none => make t

/-- `Create`. -/
def create (t : HTable) (key : Key) (valLen : Nat) (mem : Option Nat) :
    Option (HTable × Option Nat) :=
  findOrMake t key fun t => do
    let (t, entry) ← createHashEntry t key valLen mem
    match entry with
    | none => some (t, none)
    | some off =>
      let t ← insertHashEntry t key off
      some (t, some off)

/-- `CreateDpstats`. -/
def createDpstats (t : HTable) (key : Key) (addr : UInt64) (valLen : Nat) (mem : Option Nat) :
    Option (HTable × Option Nat) :=
  findOrMake t key fun t => do
    let (t, entry) ← createHashEntry t key 8 mem
    match entry with
    | none => some (t, none)
    | some off =>
      let t ← t.modEntry off fun e => { e with dpstats := true, valLen := valLen }
      let t ← insertHashEntry t key off
      assert (addr &&& 7 = 0)
      let t ← t.modEntry off fun e => { e with value := palBytes addr }
      some (t, some off)

/-- `Publish`. -/
def publish (t : HTable) (key : Key) (val : List UInt8) (mem : Option Nat) :
    Option (HTable × Error) := do
  if ¬ validKey key then some (t, none)
  else
    let (t, entry) ← createHashEntry t key val.length mem
    match entry with
    | none => some (t, some "Error allocating memory")
    | some off =>
      let t ← t.modEntry off fun e => { e with value := val }
      let (t, old) ← findEntry t key
      match old with
      | some old =>
        let t ← t.release old
        let t ← swapHashEntry t off key
        some (t, none)
      | none =>
        let t ← insertHashEntry t key off
        some (t, none)

/-- `deleteMatchingEntry`. -/
def deleteMatchingEntry (t : HTable) (b : Bucket) (key : Key) : Option (HTable × Error) := do
  match ← t.walkBucket b key with
  | none => some (t, some "Key not found")
  | some (prev, off) =>
    let e ← t.mem off
    let t ← t.setSlot b prev e.nextEntry
    let t ← t.modEntry off fun e => { e with nextEntry := 0 }
    let t := { t with numEntries := t.numEntries - 1 }
    let t ← t.release off
    some (t, none)

/-- `Delete`. -/
def delete (t : HTable) (key : Key) : Option (HTable × Error) := do
  if ¬ validKey key then some (t, none)
  else
    let b ← t.bucket (t.idx key)
    if t.first b ≠ 0 then
      let (t, err) ← deleteMatchingEntry t b key
      if t.first b = 0 then
        some ({ t with numUsedBuckets := t.numUsedBuckets - 1 }, err)
      else some (t, err)
    else some (t, none)

/-! ### Iterating -/

/-- `getNextEntry` over the `n` buckets from `idx` on. -/
def getNextEntry (t : HTable) : Nat → Nat → Option (HTable × Option Nat)
  | 0, _ => some (t, none)
  | n + 1, idx => do
      let b ← t.bucket idx
      if t.first b ≠ 0 then
        let t ← t.acquire (t.first b)
        some (t, some (t.first b))
      else getNextEntry t n (idx + 1)

/-- `GetNext`.  The bucket it locks is one of the first level also if the table
has two levels; the call is `none` if there is no such bucket. -/
def getNext (t : HTable) (entry : Option Nat) : Option (HTable × Option Nat) := do
  if t.numEntries = 0 then some (t, none)
  else
    match entry with
    | none => getNextEntry t t.numBuckets 0
    | some off =>
      let e ← t.mem off
      -- a negative length makes the hash run far beyond the entry
      assert (0 ≤ e.keyLen)
      let idx := t.idx (e.key.take e.keyLen.toNat)
      assert (t.twoLevel → idx < t.numTablets)
      if e.nextEntry ≠ 0 then
        let t ← t.acquire e.nextEntry
        let t ← t.release off
        some (t, some e.nextEntry)
      else
        let t ← t.release off
        getNextEntry t (t.numBuckets - (idx + 1)) (idx + 1)

/-! ### Creating a table -/

/-- `createTable`: one level up to `MAX_SEQ_BUCKETS` buckets, else tablets, which
the allocator puts at `tablets`. -/
def createTable (size : Nat) (tablets : Nat → Nat) : HTable :=
  if size ≤ maxSeqBuckets then
    { numBuckets := size, twoLevel := false, numEntries := 0, numUsedBuckets := 0
      numTablets := 0, numBucketsPerTablet := 0
      buckets := fun _ => 0, tablets := fun _ _ => 0, mem := fun _ => none }
  else
    let numTablets := size / maxSeqBuckets + if size % maxSeqBuckets ≠ 0 then 1 else 0
    { numBuckets := numTablets * maxSeqBuckets, twoLevel := true, numEntries := 0
      numUsedBuckets := 0, numTablets := numTablets, numBucketsPerTablet := maxSeqBuckets
      buckets := tablets, tablets := fun _ _ => 0, mem := fun _ => none }

end NicSw.Shm
