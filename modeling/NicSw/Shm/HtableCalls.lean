/-
What each call does to the invariant of a table: to the map the table stands
for, and to the references handed out.
-/
import NicSw.Shm.HtableMoves

namespace NicSw.Shm

open Function

/-- Where the entry of a key is, and its value. -/
abbrev AbsMap := Key → Option (Nat × List UInt8)

namespace AbsMap

/-- An absent key gets an entry, if there is memory for it. -/
def create (m : AbsMap) (key : Key) (val : List UInt8) (mem : Option Nat) : AbsMap :=
  match m key, mem with
  | none, some off => update m key (some (off, val))
  | _, _ => m

theorem create_new {m : AbsMap} {key : Key} (h : m key = none) (val : List UInt8) (off : Nat) :
    m.create key val (some off) = update m key (some (off, val)) := by
  simp [create, h]

theorem create_of_some {m : AbsMap} {key : Key} {p : Nat × List UInt8} (h : m key = some p)
    (val : List UInt8) (mem : Option Nat) : m.create key val mem = m := by
  simp [create, h]

theorem create_noMem (m : AbsMap) (key : Key) (val : List UInt8) : m.create key val none = m := by
  rcases h : m key with - | p
  · simp [create, h]
  · exact create_of_some h val none

def publish (m : AbsMap) (key : Key) (val : List UInt8) (mem : Option Nat) : AbsMap :=
  match mem with
  | some off => update m key (some (off, val))
  | none => m

def delete (m : AbsMap) (key : Key) : AbsMap := update m key none

/-- A write through a pointer reaches the key whose entry it points to. -/
def write (m : AbsMap) (off : Nat) (val : List UInt8) : AbsMap := fun key =>
  (m key).map fun p => if p.1 = off then (off, val) else p

end AbsMap

/-- One more reference, if a call returned one. -/
def addRef (refs : Nat → Nat) (r : Option Nat) (x : Nat) : Nat :=
  refs x + if r = some x then 1 else 0

variable {t t' : HTable} {i j n off : Nat} {key : Key} {e e' : HtEntry} {v val : List UInt8}
variable {chain : Nat → List Nat} {refs : Nat → Nat} {abs : AbsMap} {mem r : Option Nat}

@[simp] theorem addRef_none : addRef refs none = refs := by
  funext x
  simp [addRef]

theorem addRef_some : addRef refs (some off) = update refs off (refs off + 1) := by
  funext x
  rcases eq_or_ne x off with rfl | hx
  · simp [addRef]
  · simp [addRef, hx, hx.symm]

/-- A reference taken before another is given back. -/
theorem addRef_swap (hr : 1 ≤ refs off) (r : Option Nat) :
    update (addRef refs r) off (addRef refs r off - 1) =
      addRef (update refs off (refs off - 1)) r := by
  funext x
  rcases eq_or_ne x off with rfl | hx
  · simp only [update_self, addRef]
    omega
  · simp [addRef, hx]

/-! ### Looking up -/

theorem acquire_release (hroom : Room t) (he : t.mem off = some e) (hcnt : 1 ≤ e.refcnt) :
    ∃ t1, t.acquire off = some t1 ∧ t1.release off = some t := by
  have hmax := hroom off e he
  refine ⟨_, modEntry_eq he _, ?_⟩
  have hlt : ¬ e.refcnt + 1 ≤ 1 := by omega
  simp [HTable.release, int32_eq (n := e.refcnt + 1) (by omega) hmax,
    int32_eq (n := e.refcnt) (by omega) (by omega), hlt, HTable.setEntry, ← he]

section

variable (h : TblInv t chain refs abs)
include h

theorem findEntry_none (habs : abs key = none) : findEntry t key = some (t, none) := by
  rw [findEntry, bucket_eq h.shape (idx_lt h.shape key), Option.bind_eq_bind, Option.bind_some,
    h.walkBucket_none habs]
  rfl

theorem findEntry_some (habs : abs key = some (off, v)) :
    findEntry t key = (t.acquire off).map fun t => (t, some off) := by
  obtain ⟨l1, l2, e, -, he, -, -, hw⟩ := h.walkBucket_some habs
  rw [findEntry, bucket_eq h.shape (idx_lt h.shape key), Option.bind_eq_bind, Option.bind_some, hw]
  rw [Option.map_eq_bind]
  rfl

/-- **Finding an entry** takes a reference on it. -/
theorem findEntry_spec (hroom : Room t) (key : Key) :
    ∃ t', findEntry t key = some (t', (abs key).map Prod.fst) ∧
      TblInv t' chain (addRef refs ((abs key).map Prod.fst)) abs := by
  rcases habs : abs key with - | ⟨off, v⟩
  · exact ⟨t, findEntry_none h habs, by simpa using h⟩
  obtain ⟨-, e, he, -⟩ := h.of_abs habs
  obtain ⟨t', hacq, -, h'⟩ := acquire_spec h hroom he
  refine ⟨t', ?_, ?_⟩
  · rw [findEntry_some h habs, hacq]
    rfl
  · rw [Option.map_some, addRef_some]
    exact h'

/-- **A lookup** takes a reference on what it returns.  A key that the call refuses
is in no table. -/
theorem find_spec (hroom : Room t) (key : Key) :
    ∃ t', find t key = some (t', (abs key).map Prod.fst) ∧
      TblInv t' chain (addRef refs ((abs key).map Prod.fst)) abs := by
  by_cases hkey : validKey key
  · simpa [find, hkey] using findEntry_spec h hroom key
  have habs : abs key = none := by
    by_contra hne
    obtain ⟨⟨off, v⟩, habs⟩ := Option.ne_none_iff_exists'.mp hne
    obtain ⟨-, e, he, rfl, -⟩ := h.of_abs habs
    have hok := (h.entry off e he).2
    exact hkey ⟨hok.pos, hok.le⟩
  exact ⟨t, by simp [find, hkey, habs], by simpa [habs] using h⟩

/-- An entry that is found and released is as it was. -/
theorem findEntry_release (hroom : Room t) (habs : abs key = some (off, v)) :
    ∃ t1, findEntry t key = some (t1, some off) ∧ t1.release off = some t := by
  obtain ⟨-, e, he, -⟩ := h.of_abs habs
  obtain ⟨t1, hacq, hrel⟩ := acquire_release hroom he (h.entry off e he).2.refcnt_pos
  refine ⟨t1, ?_, hrel⟩
  rw [findEntry_some h habs, hacq]
  rfl

end

/-! ### Creating entries -/

theorem setEntry_idem (t : HTable) (off : Nat) (e e' : HtEntry) :
    (t.setEntry off e).setEntry off e' = t.setEntry off e' := by
  simp [HTable.setEntry]

/-- The entry that is made for a key. -/
def newEntry (key : Key) (val : List UInt8) : HtEntry where
  nextEntry := 0
  dpstats := false
  keyLen := key.length
  valLen := val.length
  key := key
  refcnt := 1
  value := val

/-- The field `key_len` keeps lengths up to 511. -/
theorem keyLenField_eq (hlen : n ≤ 511) : keyLenField n = n :=
  Int.bmod_eq_of_le_mul_two (by omega) (by omega)

theorem createHashEntry_eq (t : HTable) (hlen : key.length ≤ 511) (n off : Nat) :
    createHashEntry t key n (some off) =
      some (t.setEntry off (newEntry key (List.replicate n 0)), some off) := by
  simp only [createHashEntry, keyLenField_eq hlen, assert_pos (le_refl _), newEntry,
    List.length_replicate]
  rfl

/-- What the allocator answers: no memory, or memory that holds no entry. -/
def Fresh (t : HTable) (mem : Option Nat) : Prop :=
  ∀ off, mem = some off → off ≠ 0 ∧ t.mem off = none

section

variable (h : TblInv t chain refs abs)
include h

/-- An entry in new memory, before it is linked. -/
theorem TblInv.pending (hfresh : Fresh t (some off))
    (hkey : validKey key) (hkeyLen : e.keyLen = key.length) (hk : e.key = key)
    (hcnt : e.refcnt = 1) (hnext : e.nextEntry = 0) :
    TblInv (t.setEntry off e) chain (update refs off 1) abs ∧ ¬ Linked chain off := by
  obtain ⟨h0, hfree⟩ := hfresh off rfl
  refine ⟨h.create hfree h0 (hk ▸ hkeyLen) (hk ▸ hkey.1) (hk ▸ hkey.2) hcnt hnext, ?_⟩
  rintro ⟨i, hi⟩
  obtain ⟨e1, he1, -⟩ := h.linked i off hi
  rw [hfree] at he1
  cases he1

/-- The reference of its creator goes with the link. -/
theorem refs_linked (hfree : t.mem off = none) :
    update (update refs off 1) off (update refs off 1 off - 1) = refs := by
  rw [update_self, update_idem, Nat.sub_self, ← h.dead off hfree, update_eq_self]

theorem insertHashEntry_spec (he : t.mem off = some e)
    (hl : ¬ Linked chain off) (habs : abs e.key = none) :
    ∃ t' chain', insertHashEntry t e.key off = some t' ∧
      TblInv t' chain' (update refs off (refs off - 1))
        (update abs e.key (some (off, e.value))) := by
  have hb := bucket_eq h.shape (idx_lt h.shape e.key)
  obtain ⟨k, hk⟩ : ∃ k, (if t.first (t.bkt (t.idx e.key)) = 0 then
      { t with numUsedBuckets := t.numUsedBuckets + 1 } else t) =
        { t with numUsedBuckets := k } := by
    split_ifs
    · exact ⟨_, rfl⟩
    · exact ⟨_, rfl⟩
  refine ⟨_, _, ?_, (h.setUsed k).link he hl habs rfl⟩
  have hmod := modEntry_eq (t := { t with numUsedBuckets := k }) he
  simp only [insertHashEntry, hb, Option.bind_eq_bind, Option.bind_some, hk, hmod]
  rfl

/-- Linking the entry a call has just made. -/
theorem TblInv.insertNew (hfresh : Fresh t (some off))
    (hkey : validKey key) (hkeyLen : e.keyLen = key.length) (hk : e.key = key)
    (hcnt : e.refcnt = 1) (hnext : e.nextEntry = 0) (habs : abs key = none) :
    ∃ t' chain', insertHashEntry (t.setEntry off e) key off = some t' ∧
      TblInv t' chain' refs (update abs key (some (off, e.value))) := by
  obtain ⟨hp, hl⟩ := h.pending hfresh hkey hkeyLen hk hcnt hnext
  subst hk
  obtain ⟨t', chain', hins, h'⟩ := insertHashEntry_spec hp (setEntry_mem_self ..) hl habs
  rw [refs_linked h (hfresh off rfl).2] at h'
  exact ⟨t', chain', hins, h'⟩

end

/-- The pointer that a creating call returns. -/
def created (abs : AbsMap) (key : Key) (mem : Option Nat) : Option Nat :=
  ((abs key).map Prod.fst).or mem

/-- An entry that is there is returned as it was. -/
theorem findOrMake_spec (h : TblInv t chain refs abs) (hroom : Room t) (hkey : validKey key)
    {make : HTable → Option (HTable × Option Nat)}
    (hmake : abs key = none → ∃ t' chain', make t = some (t', mem) ∧
      TblInv t' chain' refs (abs.create key val mem)) :
    ∃ t' chain', findOrMake t key make = some (t', created abs key mem) ∧
      TblInv t' chain' refs (abs.create key val mem) := by
  rcases habs : abs key with - | ⟨off, v⟩
  · obtain ⟨t', chain', hmade, h'⟩ := hmake habs
    refine ⟨t', chain', ?_, h'⟩
    simp [findOrMake, find, hkey, findEntry_none h habs, hmade, created, habs]
  · obtain ⟨t1, hfind, hrel⟩ := findEntry_release h hroom habs
    refine ⟨t, chain, ?_, by rwa [AbsMap.create_of_some habs]⟩
    simp [findOrMake, find, hkey, hfind, hrel, created, habs]

/-- **Creating an entry** hands out no reference. -/
theorem create_spec (h : TblInv t chain refs abs) (hroom : Room t) (hkey : validKey key)
    (hlen : key.length ≤ 511) (hfresh : Fresh t mem) (n : Nat) :
    ∃ t' chain', create t key n mem = some (t', created abs key mem) ∧
      TblInv t' chain' refs (abs.create key (List.replicate n 0) mem) := by
  refine findOrMake_spec h hroom hkey fun habs => ?_
  rcases mem with - | off
  · exact ⟨t, chain, rfl, by rwa [AbsMap.create_noMem]⟩
  · obtain ⟨t', chain', hins, h'⟩ := h.insertNew (e := newEntry key (List.replicate n 0)) hfresh
      hkey rfl rfl rfl rfl habs
    refine ⟨t', chain', ?_, by rw [AbsMap.create_new habs]; exact h'⟩
    simp [createHashEntry_eq t hlen, hins]

/-- The entry of a dpstats key, as it is linked. -/
def dpstatsEntry (key : Key) (valLen : Nat) : HtEntry :=
  { newEntry key (List.replicate 8 0) with dpstats := true, valLen := valLen }

theorem createDpstats_spec (h : TblInv t chain refs abs) (hroom : Room t) (hkey : validKey key)
    (hlen : key.length ≤ 511) (hfresh : Fresh t mem) {addr : UInt64} (haddr : addr &&& 7 = 0)
    (n : Nat) :
    ∃ t' chain', createDpstats t key addr n mem = some (t', created abs key mem) ∧
      TblInv t' chain' refs (abs.create key (palBytes addr) mem) := by
  refine findOrMake_spec h hroom hkey fun habs => ?_
  rcases mem with - | off
  · exact ⟨t, chain, rfl, by rwa [AbsMap.create_noMem]⟩
  obtain ⟨t1, chain', hins, h1⟩ := h.insertNew (e := dpstatsEntry key n) hfresh hkey rfl rfl rfl
    rfl habs
  -- the address is written into the linked entry
  obtain ⟨hl, e, he, hk, hv⟩ := h1.of_abs (update_self key _ abs)
  have h2 : TblInv (t1.setEntry off { e with value := palBytes addr }) chain'
      (update refs off (refs off))
      (update abs key (some (off, palBytes addr))) := by
    refine h1.modify he rfl rfl rfl (h1.entry off e he).2.lt rfl (fun hn => absurd hl hn)
      (fun _ => ?_) fun k hne => ?_
    · rw [hk]
      exact update_self ..
    · have hne := hk ▸ hne hl
      rw [update_of_ne hne, update_of_ne hne]
  rw [update_eq_self] at h2
  refine ⟨_, chain', ?_, by rw [AbsMap.create_new habs]; exact h2⟩
  have hmade : (t.setEntry off (newEntry key (List.replicate 8 0))).modEntry off
      (fun e => { e with dpstats := true, valLen := n }) =
        some (t.setEntry off (dpstatsEntry key n)) := by
    rw [modEntry_eq (setEntry_mem_self ..), setEntry_idem]
    rfl
  simp [-List.reduceReplicate, createHashEntry_eq t hlen, hmade, hins, assert_pos haddr,
    modEntry_eq he]

/-! ### Publishing -/

theorem swapHashEntry_spec (h : TblInv t chain refs abs) (he : t.mem off = some e)
    (hl : ¬ Linked chain off) {curr : Nat} (habs : abs e.key = some (curr, v)) :
    ∃ t' chain', swapHashEntry t off e.key = some t' ∧
      TblInv t' chain' (update refs off (refs off - 1))
        (update abs e.key (some (off, e.value))) := by
  obtain ⟨l1, l2, c, hc, hcm, hck, -, hw⟩ := h.walkBucket_some habs
  have hcurr : curr ∈ chain (t.idx e.key) := hc ▸ by simp
  have hne : curr ≠ off := fun heq => hl ⟨_, heq ▸ hcurr⟩
  have hi := idx_lt h.shape e.key
  have hfirst : t.first (t.bkt (t.idx e.key)) ≠ 0 := fun h0 => by
    rw [(h.chains _ hi).eq_nil_iff.mp h0] at hcurr
    exact List.not_mem_nil hcurr
  obtain ⟨t0, t1, t2, hmod, hslot, hclear, hsame, h2⟩ := h.replace hc hcm he hl hck.symm
  have hheld : 1 ≤ update (update refs off (refs off - 1)) curr (refs curr + 1) curr := by
    rw [update_self]
    exact Nat.le_add_left ..
  obtain ⟨t3, hrel, -, -, h3⟩ := release_spec h2 hheld
  rw [update_self, update_idem, Nat.add_sub_cancel,
    ← update_of_ne hne (refs off - 1) refs, update_eq_self, hck] at h3
  refine ⟨t3, _, ?_, h3⟩
  simp [swapHashEntry, bucket_eq h.shape hi, hfirst, hw, hcm, hmod, hslot, hclear, hrel]

/-- **Publishing a value** hands out no reference, and gives the one on a
replaced entry back. -/
theorem publish_spec (h : TblInv t chain refs abs) (hroom : Room t) (hkey : validKey key)
    (hlen : key.length ≤ 511) (hfresh : Fresh t mem) (val : List UInt8) :
    ∃ t' chain' err, publish t key val mem = some (t', err) ∧
      TblInv t' chain' refs (abs.publish key val mem) := by
  rcases mem with - | off
  · refine ⟨t, chain, some "Error allocating memory", ?_, h⟩
    simp [publish, hkey, createHashEntry]
  have hmade : (t.setEntry off (newEntry key (List.replicate val.length 0))).modEntry off
      (fun e => { e with value := val }) = some (t.setEntry off (newEntry key val)) := by
    rw [modEntry_eq (setEntry_mem_self ..), setEntry_idem]
    simp [newEntry]
  obtain ⟨hp, hl⟩ := h.pending (e := newEntry key val) hfresh hkey rfl rfl rfl rfl
  rcases habs : abs key with - | ⟨curr, v⟩
  · obtain ⟨t', chain', hins, h'⟩ := h.insertNew (e := newEntry key val) hfresh hkey rfl rfl rfl
      rfl habs
    refine ⟨t', chain', none, ?_, h'⟩
    simp [publish, hkey, createHashEntry_eq t hlen, hmade, findEntry_none hp habs, hins]
  obtain ⟨t1, hfind, hrel⟩ := findEntry_release hp
    (hroom.setEntry off (show (1 : Int) + 1 < 2 ^ 31 by decide)) habs
  obtain ⟨t', chain', hswap, h'⟩ := swapHashEntry_spec hp (setEntry_mem_self ..) hl habs
  rw [refs_linked h (hfresh off rfl).2] at h'
  refine ⟨t', chain', none, ?_, h'⟩
  have hswap : swapHashEntry (t.setEntry off (newEntry key val)) off key = some t' := hswap
  simp [publish, hkey, createHashEntry_eq t hlen, hmade, hfind, hrel, hswap]

/-! ### Deleting -/

/-- **Deleting a key** hands out no reference. -/
theorem delete_spec (h : TblInv t chain refs abs) (hkey : validKey key) :
    ∃ t' chain' err, delete t key = some (t', err) ∧ TblInv t' chain' refs (abs.delete key) := by
  have hi := idx_lt h.shape key
  rcases habs : abs key with - | ⟨off, v⟩
  · have hdel : abs.delete key = abs := by rw [AbsMap.delete, ← habs, update_eq_self]
    rw [hdel]
    by_cases hfirst : t.first (t.bkt (t.idx key)) = 0
    · refine ⟨t, chain, none, ?_, h⟩
      simp [delete, hkey, bucket_eq h.shape hi, hfirst]
    · refine ⟨t, chain, some "Key not found", ?_, h⟩
      simp [delete, deleteMatchingEntry, hkey, bucket_eq h.shape hi, hfirst, h.walkBucket_none habs]
  · obtain ⟨l1, l2, e, hc, he, rfl, -, hw⟩ := h.walkBucket_some habs
    have hfirst : t.first (t.bkt (t.idx e.key)) ≠ 0 := fun h0 => by
      rw [(h.chains _ hi).eq_nil_iff.mp h0] at hc
      simp at hc
    obtain ⟨t1, t2, hslot, hclear, hsame, h2⟩ := h.unlink hc he
    have hheld : 1 ≤ update refs off (refs off + 1) off := by
      rw [update_self]
      exact Nat.le_add_left ..
    obtain ⟨t3, hrel, -, -, h3⟩ := release_spec h2 hheld
    rw [update_self, update_idem, Nat.add_sub_cancel, update_eq_self] at h3
    have hmatch : deleteMatchingEntry t (t.bkt (t.idx e.key)) e.key = some (t3, none) := by
      simp [deleteMatchingEntry, hw, he, hslot, hclear, hrel]
    by_cases hlast : t3.first (t.bkt (t.idx e.key)) = 0
    · refine ⟨_, _, none, ?_, h3.setUsed (t3.numUsedBuckets - 1)⟩
      simp [delete, hkey, bucket_eq h.shape hi, hfirst, hmatch, hlast]
    · refine ⟨_, _, none, ?_, h3⟩
      simp [delete, hkey, bucket_eq h.shape hi, hfirst, hmatch, hlast]

/-! ### Iterating -/

/-- **The search for the next entry** takes a reference on what it finds. -/
theorem getNextEntry_spec (h : TblInv t chain refs abs) (hroom : Room t)
    (hle : i + n ≤ t.numBuckets) :
    ∃ t' r, getNextEntry t n i = some (t', r) ∧ TblInv t' chain (addRef refs r) abs := by
  induction n generalizing i with
  | zero => exact ⟨t, none, rfl, by rwa [addRef_none]⟩
  | succ n ih =>
    have hi : i < t.numBuckets := by omega
    by_cases hfirst : t.first (t.bkt i) = 0
    · obtain ⟨t', r, hget, h'⟩ := ih (i := i + 1) (by omega)
      refine ⟨t', r, ?_, h'⟩
      simp [getNextEntry, bucket_eq h.shape hi, hfirst, hget]
    -- the first entry of the bucket is the head of its chain
    have hchain := h.chains i hi
    rcases hc : chain i with - | ⟨off, l⟩
    · rw [hc] at hchain
      exact absurd hchain hfirst
    rw [hc] at hchain
    obtain ⟨e, he, -⟩ := h.linked i off (hc ▸ List.mem_cons_self)
    obtain ⟨t', hacq, hfirst', h'⟩ := acquire_spec h hroom he
    have hhead : t.first (t.bkt i) = off := hchain.1
    refine ⟨t', some off, ?_, by rwa [addRef_some]⟩
    simp [getNextEntry, bucket_eq h.shape hi, hhead, hacq, hchain.2.1, hfirst']

/-- **An iterator's first step.** -/
theorem getNext_none_spec (h : TblInv t chain refs abs) (hroom : Room t) :
    ∃ t' r, getNext t none = some (t', r) ∧ TblInv t' chain (addRef refs r) abs := by
  by_cases hn : t.numEntries = 0
  · exact ⟨t, none, by simp [getNext, hn], by rwa [addRef_none]⟩
  · obtain ⟨t', r, hget, h'⟩ := getNextEntry_spec (i := 0) (n := t.numBuckets) h hroom
      (Nat.zero_add _).le
    exact ⟨t', r, by simp [getNext, hn, hget], h'⟩

/-- **An iterator's next step** gives back the reference on the entry it stood
on, and takes one on the entry it goes to. -/
theorem getNext_spec (h : TblInv t chain refs abs) (hroom : Room t) (hr : 1 ≤ refs off)
    (hn : t.numEntries ≠ 0)
    (hidx : ∀ e, t.mem off = some e → t.twoLevel → t.idx e.key < t.numTablets) :
    ∃ t' r, getNext t (some off) = some (t', r) ∧
      TblInv t' chain (addRef (update refs off (refs off - 1)) r) abs := by
  obtain ⟨e, he⟩ := h.live_of_refs hr
  have hok := (h.entry off e he).2
  have hkey : e.key.take e.keyLen.toNat = e.key := by
    rw [hok.keyLen, Int.toNat_natCast, List.take_length]
  have hlen : (0 : Int) ≤ e.keyLen := hok.keyLen ▸ Int.natCast_nonneg _
  by_cases hnext : e.nextEntry = 0
  · obtain ⟨t1, hrel, hsame, hroom1, h1⟩ := release_spec h hr
    have hle : t.idx e.key + 1 + (t1.numBuckets - (t.idx e.key + 1)) ≤ t1.numBuckets := by
      have := idx_lt h.shape e.key
      have := hsame.numBuckets
      omega
    obtain ⟨t', r, hget, h'⟩ := getNextEntry_spec h1 (hroom1 hroom) hle
    refine ⟨t', r, ?_, h'⟩
    simp [getNext, hn, he, hkey, assert_pos hlen, assert_pos (hidx e he), hnext, hrel, hget]
  · obtain ⟨e', he'⟩ : ∃ e', t.mem e.nextEntry = some e' := by
      by_cases hl : Linked chain off
      · obtain ⟨i, hi⟩ := hl
        obtain ⟨l1, l2, hc⟩ := List.append_of_mem hi
        have hafter := (hc ▸ h.chains i (h.bucket_lt hi) : Chain _ _ (l1 ++ off :: l2)).suffix.2.2
        rw [next_eq he] at hafter
        rcases l2 with - | ⟨x, l2⟩
        · exact absurd hafter hnext
        · obtain ⟨e', he', -⟩ := h.linked i x (hc ▸ by simp)
          exact ⟨e', hafter.1 ▸ he'⟩
      · exact absurd (hok.unlinked hl).2.2 hnext
    obtain ⟨t1, hacq, -, h1⟩ := acquire_spec h hroom he'
    rw [← addRef_some] at h1
    obtain ⟨t2, hrel, -, -, h2⟩ := release_spec h1 (Nat.le_add_right_of_le hr)
    rw [addRef_swap hr] at h2
    refine ⟨t2, some e.nextEntry, ?_, h2⟩
    simp [getNext, hn, he, hkey, assert_pos hlen, assert_pos (hidx e he), hnext, hacq, hrel]

/-! ### Writing through a pointer, and a new table -/

/-- **A write through a pointer** changes the value of the key whose entry it
points to, if any. -/
theorem write_spec (h : TblInv t chain refs abs) (he : t.mem off = some e) (val : List UInt8) :
    ∃ t', t.modEntry off (fun e => { e with value := val }) = some t' ∧
      TblInv t' chain refs (abs.write off val) := by
  refine ⟨_, modEntry_eq he _, ?_⟩
  rw [← update_eq_self off refs]
  refine h.modify he rfl rfl rfl (h.entry off e he).2.lt rfl
    (fun hl => ((h.entry off e he).2.unlinked hl).2.1) ?_ ?_
  · intro hl
    simp [AbsMap.write, h.abs_eq hl he]
  · intro k hk
    rcases habs : abs k with - | ⟨x, v⟩
    · simp [AbsMap.write, habs]
    · obtain ⟨hl, e', he', rfl, -⟩ := h.of_abs habs
      have hx : x ≠ off := by
        rintro rfl
        exact hk hl (congrArg HtEntry.key (Option.some.inj (he'.symm.trans he)))
      simp [AbsMap.write, habs, hx]

theorem tblInv_empty (hshape : t.Shape) (hhead : ∀ i, t.head i = 0)
    (hmem : ∀ x, t.mem x = none) (hnum : t.numEntries = 0) :
    TblInv t (fun _ => []) (fun _ => 0) fun _ => none where
  shape := hshape
  chains := fun i _ => hhead i
  outside := fun _ _ => rfl
  nodup := fun _ => List.nodup_nil
  linked := fun _ _ hx => absurd hx List.not_mem_nil
  entry := fun x e hx => by
    rw [hmem x] at hx
    cases hx
  complete := fun _ _ hv => by cases hv
  dead := fun _ _ => rfl
  numEntries := by simpa using hnum

/-- **A new table** is empty. -/
theorem createTable_inv {size : Nat} {tablets : Nat → Nat} (hsize : 1 ≤ size)
    (htablets : ∀ i, tablets i ≠ 0) :
    TblInv (createTable size tablets) (fun _ => []) (fun _ => 0) fun _ => none := by
  unfold createTable
  split_ifs with hle hmod
  · refine tblInv_empty ⟨hsize, ?_, ?_, ?_⟩ (fun _ => rfl) (fun _ => rfl) rfl
    · exact fun htwo => absurd htwo Bool.false_ne_true
    · exact fun htwo => absurd htwo Bool.false_ne_true
    · exact fun htwo => absurd htwo Bool.false_ne_true
  · refine tblInv_empty ⟨?_, ?_, ?_, ?_⟩ (fun _ => rfl) (fun _ => rfl) rfl
    · exact Nat.mul_pos (Nat.succ_pos _) (by decide)
    · exact fun _ => Nat.succ_pos 2499
    · exact fun _ => le_rfl
    · exact fun _ i _ => htablets i
  · refine tblInv_empty ⟨?_, ?_, ?_, ?_⟩ (fun _ => rfl) (fun _ => rfl) rfl
    · have : 0 < size / maxSeqBuckets := Nat.div_pos (Nat.le_of_not_le hle) (by decide)
      exact Nat.mul_pos this (by decide)
    · exact fun _ => Nat.succ_pos 2499
    · exact fun _ => le_rfl
    · exact fun _ i _ => htablets i

end NicSw.Shm
