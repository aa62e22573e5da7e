/-
Reservations in the hash table: `reserve`, `release` and the transaction.

A bucket has a bit for a reservation and a bit for an entry.  A client keeps
the buckets that it has reserved and the keys that it has stored in buckets.
An insert with the handle of a reserved bucket sets the second bit and leaves
the first one as it is, so that the bucket stays reserved for ever.
`Client.Inv` holds over runs without such inserts in which reservations are
made in transactions.
-/
import NicSw.Slhash.Refine
import NicSw.Sltcam.Reserve

namespace NicSw

open Handle (null valid)

open Option SlhSystem Bool

open Function (update_self update_of_ne)

variable {K D : Type*}

/-! ### The calls -/

namespace SlhTxn

/-- `start`. -/
def start (txn : SlhTxn) : SdkRet × SlhTxn := SltTxn.start txn

/-- `end`. -/
def stop (txn : SlhTxn) : SdkRet × SlhTxn := SltTxn.stop txn

end SlhTxn

/-- Where a call looks: at the bucket of its handle or of its key. -/
def SlhProps.target [LinearOrder K] (P : SlhProps K) (hash : K → BitVec 32)
    (p : SltParams K D) : Nat :=
  if p.handle.valid then p.handle.pindex else P.idx hash p.key

namespace Slhash

/-- Set the reservation bit of a bucket (`bucket::reserve`, `bucket::release`). -/
def setReserved (T : Slhash K D) (index : Nat) (v : Bool) : Slhash K D :=
  { T with bucket := Function.update T.bucket index { T.bucket index with reserved := v } }

/-- `table::reserve`. -/
def tableReserve (T : Slhash K D) (ctx : SlhCtx K D) : Option (SdkRet × Slhash K D) :=
  if !ctx.indexValid then none
  else if (T.bucket ctx.index).isbusy then some (.collision, T)
  else some (.ok, T.setReserved ctx.index true)

/-- `table::release`. -/
def tableRelease (T : Slhash K D) (ctx : SlhCtx K D) : Option (SdkRet × Slhash K D) :=
  if !ctx.indexValid then none
  else if !(T.bucket ctx.index).reserved then some (.entryNotFound, T)
  else some (.ok, T.setReserved ctx.index false)

/-- `txn::reserve`, which does not ask for an open transaction. -/
def txnReserve (T : Slhash K D) (ctx : SlhCtx K D) : Option (SdkRet × Slhash K D) :=
  if !ctx.indexValid then none
  else
    match T.txn.indexer.allocWithid ctx.index with
    | .error _ => some (.entryExists, T)
    | .ok ix => some (.ok, { T with txn := ⟨T.txn.valid, T.txn.reservedCount + 1, ix⟩ })

section Api

variable [LinearOrder K] [Zero K] [Zero D] (P : SlhProps K) (hash : K → BitVec 32)

/-- `reserve_`. -/
def reserveEntry (T : Slhash K D) (ctx : SlhCtx K D) :
    Option (SdkRet × SlhCtx K D × Slhash K D) :=
  (T.tableReserve ctx).bind fun
    | (.collision, T) =>
      (T.tcam.reserve P.tcam ctx.tcamParams).bind fun r =>
        some (r.1, ctx.withTcam r.2.1 r.1, { T with tcam := r.2.2 })
    | (.ok, T) => (T.txnReserve ctx).bind fun r => some (r.1, ctx, r.2)
    | (ret, T) => some (ret, ctx, T)

/-- `reserve`. -/
def reserve (T : Slhash K D) (params : SltParams K D) :
    Option (SdkRet × SltParams K D × Slhash K D) :=
  (T.find P hash (SlhCtx.init .reserve params)).bind fun
    | (.ok, ctx) => saveHandle .entryExists ctx T
    | (.entryNotFound, ctx) =>
      (T.reserveEntry P ctx).bind fun
        | (.ok, ctx, T) => saveHandle .ok ctx T
        | (ret, ctx, T) => some (ret, ctx.params, T)
    | (ret, ctx) => some (ret, ctx.params, T)

/-- The entry of a release is given up in the TCAM or in the hash table. -/
def releaseEntry (T : Slhash K D) (ctx : SlhCtx K D) : Option (SdkRet × Slhash K D) :=
  if ctx.inhandle.svalid then
    (T.tcam.release P.tcam ctx.tcamParams).map fun r => (r.1, { T with tcam := r.2.2 })
  else T.tableRelease ctx

/-- `release`. -/
def release (T : Slhash K D) (params : SltParams K D) :
    Option (SdkRet × SltParams K D × Slhash K D) :=
  let ctx := SlhCtx.init .release params
  if T.txnValidate ctx ≠ .ok then some (T.txnValidate ctx, params, T)
  else
    (T.releaseEntry P ctx).bind fun
      | (.ok, T) => (T.txnRelease ctx).map fun T => (.ok, params, T)
      | (ret, T) => some (ret, params, T)

end Api

/-- `txn_start`. -/
def txnStart (T : Slhash K D) : SdkRet × Slhash K D :=
  let T' := { T with txn := T.txn.start.2 }
  if T.txn.start.1 ≠ .ok then (T.txn.start.1, T')
  else (T.tcam.txnStart.1, { T' with tcam := T.tcam.txnStart.2 })

/-- `txn_end`. -/
def txnEnd (T : Slhash K D) : SdkRet × Slhash K D :=
  let T' := { T with txn := T.txn.stop.2 }
  if T.txn.stop.1 ≠ .ok then (T.txn.stop.1, T')
  else (T.tcam.txnEnd.1, { T' with tcam := T.tcam.txnEnd.2 })

/-! ### Clients -/

/-- A table and what its client knows: the buckets it has reserved and the keys
it has stored in buckets. -/
structure Client (K D : Type*) where
  table : Slhash K D
  out : Nat → Bool
  entry : Nat → Option K

/-- The calls of a client. -/
inductive Call (K D : Type*)
  | insert (params : SltParams K D)
  | remove (params : SltParams K D)
  | reserve (params : SltParams K D)
  | release (params : SltParams K D)
  | txnStart
  | txnEnd

namespace Client

/-- A handle that leads to a bucket of the hash table. -/
def inTable (h : Handle) : Bool := h.pvalid && !h.svalid

/-- What a client records of an insert: a reservation is used up, and the handle
that is returned says where the entry is. -/
def inserted (s : Client K D) (p p' : SltParams K D) (T : Slhash K D) : Client K D where
  table := T
  out := if inTable p.handle then Function.update s.out p.handle.pindex false else s.out
  entry :=
    if inTable p'.handle then Function.update s.entry p'.handle.pindex (some p.key) else s.entry

/-- What a client records of a reserve. -/
def reserved (s : Client K D) (p' : SltParams K D) (T : Slhash K D) : Client K D where
  table := T
  out := if inTable p'.handle then Function.update s.out p'.handle.pindex true else s.out
  entry := s.entry

/-- What a client records of a release. -/
def released (s : Client K D) (p : SltParams K D) (T : Slhash K D) : Client K D where
  table := T
  out := if inTable p.handle then Function.update s.out p.handle.pindex false else s.out
  entry := s.entry

variable [LinearOrder K] (P : SlhProps K) (hash : K → BitVec 32)

/-- What a client records of a remove, by handle or by key. -/
def removed (s : Client K D) (p : SltParams K D) (T : Slhash K D) : Client K D where
  table := T
  out := s.out
  entry :=
    if p.handle.valid then
      if inTable p.handle then Function.update s.entry p.handle.pindex none else s.entry
    else if s.entry (P.idx hash p.key) = some p.key then
      Function.update s.entry (P.idx hash p.key) none
    else s.entry

variable [Zero K] [Zero D]

/-- The state after a call; `none` if the call aborts.  Only calls that succeed
are recorded. -/
def next (s : Client K D) : Call K D → Option (Client K D)
  | .insert p => (s.table.insert P hash p).map fun r =>
    if r.1 = .ok then s.inserted p r.2.1 r.2.2 else { s with table := r.2.2 }
  | .remove p => (s.table.remove P hash p).map fun r =>
    if r.1 = .ok then s.removed P hash p r.2.2 else { s with table := r.2.2 }
  | .reserve p => (s.table.reserve P hash p).map fun r =>
    if r.1 = .ok then s.reserved r.2.1 r.2.2 else { s with table := r.2.2 }
  | .release p => (s.table.release P p).map fun r =>
    if r.1 = .ok then s.released p r.2.2 else { s with table := r.2.2 }
  | .txnStart => some { s with table := s.table.txnStart.2 }
  | .txnEnd => some { s with table := s.table.txnEnd.2 }

/-- A fresh table and a client that knows nothing. -/
def init : Client K D := ⟨Slhash.init P, fun _ => false, fun _ => none⟩

/-- The states of runs in which every call meets `meets`. -/
def Reached (meets : Client K D → Call K D → Prop) : Client K D → Prop :=
  Reachable (· = init P) fun s s' => ∃ c, meets s c ∧ s.next P hash c = some s'

/-- **The bits of a bucket say what the client knows**: it is reserved only
while a reservation of it is outstanding and in use only while it has an entry,
and a bucket with neither can be reserved. -/
structure Marked (s : Client K D) : Prop where
  reserved : ∀ i, (s.table.bucket i).reserved = true → s.out i = true
  inuse : ∀ i, (s.table.bucket i).inuse = true → s.entry i ≠ none
  again : ∀ p, p.handle = null → s.out (P.idx hash p.key) = false →
    s.entry (P.idx hash p.key) = none →
    ∀ ctx, s.table.find P hash (SlhCtx.init .reserve p) = some (.entryNotFound, ctx) →
      ∃ p' T', s.table.reserve P hash p = some (.ok, p', T') ∧
        p'.handle = null.setPindex (P.idx hash p.key) ∧
        (T'.bucket (P.idx hash p.key)).reserved = true

/-- The condition on a call: no insert is made with a handle to a bucket, and a
reservation is made in a transaction. -/
def Meets (s : Client K D) : Call K D → Prop
  | .insert p => inTable p.handle = false
  | .reserve _ => s.table.txn.valid = true
  | _ => True

end Client

/-! ### The search -/

section Find

variable [LinearOrder K] [Zero K] [Zero D] {P : SlhProps K} {hash : K → BitVec 32}
  {T T' : Slhash K D} {op : SdkTableApi} {p : SltParams K D} {ctx : SlhCtx K D} {ret : SdkRet}
  {q q' : SltParams K D} {t : Sltcam K D}

omit [Zero K] in
/-- A get through a handle finds something. -/
theorem tcam_get_of_pvalid (hv : q.handle.pvalid = true) (h : t.get P.tcam q = some (ret, q')) :
    ret = .ok := by
  unfold Sltcam.get at h
  have hctx : (SltCtx.create P.tcam .get q).tcamIndexValid = true := hv
  simp only [hctx, if_true, ne_eq, not_true_eq_false, if_false] at h
  obtain ⟨c, -, hc⟩ := bind_eq_some_iff.mp h
  exact (Prod.mk.inj (some.inj hc)).1.symm

omit [Zero K] in
/-- A get that finds nothing leaves the parameters alone. -/
theorem tcam_get_notFound (h : t.get P.tcam q = some (.entryNotFound, q')) : q' = q := by
  cases hv : q.handle.pvalid with
  | true => cases tcam_get_of_pvalid hv h
  | false =>
    have hctx : (SltCtx.create P.tcam .get q).tcamIndexValid = false := hv
    unfold Sltcam.get at h
    simp only [hctx, false_eq_true, if_false] at h
    split at h
    · rw [← (Prod.mk.inj (some.inj h)).2]
      unfold SltDb.find
      dsimp only
      split <;> rfl
    · obtain ⟨c, -, hc⟩ := bind_eq_some_iff.mp h
      cases (Prod.mk.inj (some.inj hc)).1

/-- The context of a search in the hash table. -/
structure Searched (P : SlhProps K) (hash : K → BitVec 32) (op : SdkTableApi)
    (p : SltParams K D) (ctx : SlhCtx K D) : Prop where
  call : ctx.op = op
  params : ctx.params = p
  tcam : ctx.tcamParamsValid = false
  handle : ctx.tcamHandle = (SlhCtx.init op p).tcamHandle
  index : ctx.index = P.target hash p
  valid : p.handle.valid = false → ctx.indexValid = true

/-- What the search in the hash table leaves in the context. -/
theorem tableFind_ctx (h : T.tableFind P hash (SlhCtx.init op p) = some (ret, ctx)) :
    Searched P hash op p ctx := by
  have hin : (SlhCtx.init op p).inhandle.valid = p.handle.valid := rfl
  have hstart : Searched P hash op p (if p.handle.valid then SlhCtx.init op p
      else (SlhCtx.init op p).calchash P hash) := by
    cases hv : p.handle.valid with
    | true => exact ⟨rfl, rfl, rfl, rfl, (if_pos hv).symm, fun hn => by cases hv.symm.trans hn⟩
    | false => exact ⟨rfl, rfl, rfl, rfl, (if_neg (by simp [hv])).symm, fun _ => rfl⟩
  unfold tableFind at h
  rw [hin] at h
  split at h
  · rename_i hv
    rw [if_pos (and_eq_true _ _ ▸ hv).1] at hstart
    cases h
    exact hstart
  dsimp only at h
  -- the context with its index, before the bucket is read
  generalize (if p.handle.valid then _ else _ : SlhCtx K D) = c1 at h hstart
  split at h
  · cases h
    exact hstart
  obtain ⟨c2, hread, h⟩ := bind_eq_some_iff.mp h
  cases h
  unfold Slhash.read at hread
  split at hread
  · cases hread
  · cases hread
    exact { hstart with }

/-- **What `find_` leaves in the context.** -/
theorem find_ctx (h : T.find P hash (SlhCtx.init op p) = some (ret, ctx)) :
    ctx.op = op ∧ ctx.params.handle = p.handle ∧ ctx.index = P.target hash p ∧
      (p.handle.valid = false → ctx.indexValid = true) ∧
      (ret = .entryNotFound → ctx.params = p ∧ ctx.tcamParamsValid = false) := by
  obtain ⟨⟨ret1, c1⟩, hfind, h⟩ := bind_eq_some_iff.mp h
  have hc := tableFind_ctx hfind
  split at h
  · rename_i heq
    cases heq
    obtain ⟨⟨ret2, q⟩, hget, h⟩ := bind_eq_some_iff.mp h
    cases h
    refine ⟨hc.call, show c1.params.handle = _ by rw [hc.params], hc.index, hc.valid, ?_⟩
    rintro (rfl : ret2 = _)
    obtain rfl := tcam_get_notFound hget
    exact ⟨hc.params, (Bool.or_false _).trans hc.tcam⟩
  · rename_i hne
    cases h
    refine ⟨hc.call, by rw [hc.params], hc.index, hc.valid, fun hret => ?_⟩
    exact absurd (by rw [hret]) (hne ctx)

/-- A search through a handle finds something. -/
theorem find_of_valid (hv : p.handle.valid = true)
    (h : T.find P hash (SlhCtx.init op p) = some (ret, ctx)) : ret = .ok := by
  obtain ⟨⟨ret1, c1⟩, hfind, h⟩ := bind_eq_some_iff.mp h
  have hc := tableFind_ctx hfind
  split at h
  · rename_i heq
    cases heq
    obtain ⟨⟨ret2, q⟩, hg, h⟩ := bind_eq_some_iff.mp h
    cases h
    refine tcam_get_of_pvalid ?_ hg
    show c1.tcamHandle.pvalid = true
    rw [hc.handle]
    show (if p.handle.svalid then p.handle.setPindex p.handle.sindex else p.handle).pvalid = true
    cases hs : p.handle.svalid with
    | true => rfl
    | false => rwa [valid, hs, Bool.or_false] at hv
  · -- a bucket that is read through a handle is not compared
    rename_i hne
    cases h
    have hin : (SlhCtx.init op p).inhandle.valid = true := hv
    unfold tableFind at hfind
    simp only [hin, Bool.true_and, if_true] at hfind
    split at hfind
    · exact absurd (some.inj hfind).symm (hne _)
    split at hfind
    · exact absurd (some.inj hfind).symm (hne _)
    · obtain ⟨c2, -, hfind⟩ := bind_eq_some_iff.mp hfind
      obtain ⟨hret, rfl⟩ := Prod.mk.inj (some.inj hfind)
      rw [← hret, SlhCtx.keymatch, SlhCtx.inhandle, hc.params, hv]
      rfl

end Find

/-! ### The transaction -/

/-- What holds of the transaction of a table. -/
abbrev TxnOk (P : SlhProps K) : SlhTxn → Prop := SltTxn.Ok P.tableSize

/-- The transaction is in order and holds nothing that it did not hold before. -/
abbrev TxnLess (P : SlhProps K) : SlhTxn → SlhTxn → Prop := SltTxn.Less P.tableSize

variable {txn : SlhTxn}

section Txn

variable {P : SlhProps K} {T T' : Slhash K D} {ctx : SlhCtx K D}

/-- **`txn::release`** changes the transaction only, which does not hold the
index afterwards. -/
theorem txnRelease_post (h : TxnOk P T.txn) (hc : T.txnRelease ctx = some T') :
    T' = { T with txn := T'.txn } ∧ TxnOk P T'.txn ∧
      ∀ k < P.tableSize, T'.txn.indexer.isUsed k = true →
        T.txn.indexer.isUsed k = true ∧ k ≠ ctx.index := by
  unfold txnRelease at hc
  split at hc
  · rename_i hv
    cases hc
    refine ⟨rfl, h, fun k hk hu => ?_⟩
    rw [h.unused_of_idle (by simpa using hv) hk] at hu
    cases hu
  · rename_i hv
    split at hc
    · cases hc
    cases hf : T.txn.indexer.free ctx.index with
    | error e =>
      rw [hf] at hc
      cases hc
      refine ⟨rfl, h, fun k hk hu => ⟨hu, ?_⟩⟩
      -- an index that is held can be freed
      rintro rfl
      obtain ⟨ix, hf', -⟩ := Indexer.free_ok h.txn_ok (h.txn_size ▸ hk) hu
      rw [hf] at hf'
      cases hf'
    | ok ix =>
      rw [hf] at hc
      dsimp only at hc
      split at hc
      · cases hc
      cases hc
      obtain ⟨hlt, hu, -⟩ := Indexer.free_eq_ok hf
      obtain ⟨ix', hf', hused, hok, hsize⟩ := Indexer.free_ok h.txn_ok hlt hu
      cases hf.symm.trans hf'
      have hkept : ∀ k, ix.isUsed k = true → T.txn.indexer.isUsed k = true ∧ k ≠ ctx.index := by
        intro k hk
        rw [hused, and_eq_true, not_eq_true', decide_eq_false_iff_not] at hk
        exact ⟨hk.2, hk.1⟩
      have hfree : ix.isUsed ctx.index = false := by simp [hused]
      have hcard := Indexer.card_allocated_lt hsize (fun k _ hk => (hkept k hk).1) hlt hu hfree
      have hcount := h.count
      refine ⟨rfl, ⟨hok, hsize.trans h.txn_size, ?_, fun hf => absurd hf.symm false_ne_true⟩,
        fun k _ hk => hkept k hk⟩
      show ix.allocated.card ≤ T.txn.reservedCount - 1
      omega

/-- **`txn::reserve`** of an index that the transaction does not hold. -/
theorem txnReserve_post (h : TxnOk P T.txn) (hc : ctx.indexValid = true)
    (hi : ctx.index < P.tableSize) (hu : T.txn.indexer.isUsed ctx.index = false) :
    ∃ txn, T.txnReserve ctx = some (.ok, { T with txn := txn }) ∧
      (T.txn.valid = true → TxnOk P txn) ∧
      ∀ k, txn.indexer.isUsed k = true → k = ctx.index ∨ T.txn.indexer.isUsed k = true := by
  have hoff := Nat.mod_lt ctx.index (show 0 < 64 by decide)
  refine ⟨⟨T.txn.valid, T.txn.reservedCount + 1,
    T.txn.indexer.mark (ctx.index / 64) (ctx.index % 64)⟩, ?_, fun hvalid => ?_, fun k hk => ?_⟩
  · unfold txnReserve
    rw [hc, Indexer.allocWithid_of_free h.txn_ok (h.txn_size ▸ hi) hu]
    rfl
  · refine ⟨h.txn_ok.mark hoff, h.txn_size, ?_, fun hf => absurd (hf.symm.trans hvalid) false_ne_true⟩
    exact (Indexer.card_allocated_mark_le hoff).trans (Nat.succ_le_succ h.count)
  · rw [Indexer.isUsed_mark hoff, Nat.div_add_mod', or_eq_true, decide_eq_true_eq] at hk
    exact hk

end Txn

/-! ### What the calls do to the bits -/

section Bits

variable (T : Slhash K D) (i j : Nat) (v : Bool)

@[simp] theorem setInuse_reserved :
    ((T.setInuse i v).bucket j).reserved = (T.bucket j).reserved := by
  simp only [setInuse, Function.update_apply]
  split <;> simp [*]

theorem setInuse_inuse :
    ((T.setInuse i v).bucket j).inuse = if j = i then v else (T.bucket j).inuse := by
  simp only [setInuse, Function.update_apply]
  split <;> rfl

@[simp] theorem setReserved_inuse : ((T.setReserved i v).bucket j).inuse = (T.bucket j).inuse := by
  simp only [setReserved, Function.update_apply]
  split <;> simp [*]

theorem setReserved_reserved :
    ((T.setReserved i v).bucket j).reserved = if j = i then v else (T.bucket j).reserved := by
  simp only [setReserved, Function.update_apply]
  split <;> rfl

end Bits

section Effects

variable {P : SlhProps K} {hash : K → BitVec 32} {T T' : Slhash K D} {p p' : SltParams K D}
  {ctx ctx' : SlhCtx K D} {ret : SdkRet}

theorem txnLess_of_release (h : TxnOk P T.txn) (hc : T.txnRelease ctx = some T') :
    TxnLess P T.txn T'.txn :=
  have hpost := txnRelease_post h hc
  ⟨hpost.2.1, fun k hk hu => (hpost.2.2 k hk hu).1⟩

theorem outhandle_of_table (hin : ctx.inhandle.valid = false) (ht : ctx.tcamParamsValid = false) :
    ctx.outhandle = some (null.setPindex ctx.index) := by
  unfold SlhCtx.outhandle
  rw [hin, ht]
  rfl

/-- After a TCAM call that succeeds the handle does not lead to a bucket. -/
theorem inTable_of_outhandle {c : SlhCtx K D} {h : Handle}
    (hin : Client.inTable c.inhandle = false) (ht : c.tcamParamsValid = true)
    (ho : c.outhandle = some h) :
    Client.inTable h = false := by
  unfold SlhCtx.outhandle at ho
  split at ho
  · cases ho
    exact hin
  rw [ht] at ho
  simp only [Bool.not_true, Bool.false_eq_true, if_false] at ho
  split at ho
  · cases ho
  · cases ho
    rfl

theorem inTable_of_invalid {h : Handle} (hv : h.valid = false) : Client.inTable h = false := by
  rw [valid, Bool.or_eq_false_iff] at hv
  rw [Client.inTable, hv.1, Bool.false_and]

theorem idx_lt (k : K) : P.idx hash k < P.tableSize := Nat.mod_lt _ P.tableSize_pos

/-- The handle of a bucket holds its index: hash values have 32 bits. -/
theorem pindex_idx (k : K) : (null.setPindex (P.idx hash k)).pindex = P.idx hash k := by
  have hle : P.idx hash k ≤ (hash k).toNat := Nat.mod_le _ _
  exact Nat.mod_eq_of_lt (by omega)

/-- **What an insert does to the buckets**: nothing, or it takes the one of its key. -/
def InsertEffect (P : SlhProps K) (hash : K → BitVec 32) (T : Slhash K D) (p : SltParams K D)
    (ret : SdkRet) (p' : SltParams K D) (T' : Slhash K D) : Prop :=
  (T'.bucket = T.bucket ∧ (ret = .ok → Client.inTable p'.handle = false)) ∨
    (ret = .ok ∧ T'.bucket = (T.setInuse (P.idx hash p.key) true).bucket ∧
      p'.handle = null.setPindex (P.idx hash p.key))

variable [LinearOrder K] [Zero K] [Zero D]

/-- What `insert_` does. -/
theorem insertEntry_cases (hop : ctx.op = .insert)
    (h : T.insertEntry P ctx = some (ret, ctx', T')) :
    (T'.bucket = T.bucket ∧ T'.txn = T.txn ∧ ctx'.inhandle = ctx.inhandle ∧
        (ret = .ok → ctx'.tcamParamsValid = true)) ∨
      (ret = .ok ∧ ctx' = ctx ∧ (ctx.inhandle.valid && ctx.inhandle.svalid) = false ∧
        T'.bucket = (T.setInuse ctx.index true).bucket ∧ T'.txn = T.txn) := by
  obtain ⟨⟨ret1, T1⟩, hins, h1⟩ := bind_eq_some_iff.mp h
  have hins' : (ret1 = .collision ∧ T1 = T) ∨
      (ret1 = .ok ∧ (ctx.inhandle.valid && ctx.inhandle.svalid) = false ∧
        T1.bucket = (T.setInuse ctx.index true).bucket ∧ T1.txn = T.txn) := by
    unfold tableInsert at hins
    split at hins
    · cases hins
      exact .inl ⟨rfl, rfl⟩
    rename_i hs
    split at hins
    · cases hins
    split at hins
    · cases hins
      exact .inl ⟨rfl, rfl⟩
    · unfold Slhash.write at hins
      rw [hop] at hins
      cases hins
      exact .inr ⟨rfl, by simpa using hs, rfl, rfl⟩
  obtain ⟨rfl, rfl⟩ | ⟨rfl, hs, hb, ht⟩ := hins'
  · obtain ⟨⟨ret2, q, t⟩, -, h2⟩ := bind_eq_some_iff.mp h1
    cases h2
    refine .inl ⟨rfl, rfl, rfl, fun hret => ?_⟩
    rw [show ret2 = .ok from hret]
    exact or_true _
  · cases h1
    exact .inr ⟨rfl, rfl, hs, hb, ht⟩

/-- `insert` from a context that was found. -/
theorem insertNew_cases (htxn : TxnOk P T.txn) (hop : ctx.op = .insert)
    (hin : Client.inTable ctx.inhandle = false) (hctx : ctx.inhandle.valid = false →
      ctx.index = P.idx hash p.key ∧ ctx.tcamParamsValid = false)
    (h : T.insertNew P ctx = some (ret, p', T')) :
    TxnLess P T.txn T'.txn ∧ InsertEffect P hash T p ret p' T' := by
  obtain ⟨⟨ret1, ctx1, T1⟩, hins, h⟩ := bind_eq_some_iff.mp h
  have hcases := insertEntry_cases hop hins
  split at h
  · rename_i heq
    cases heq
    obtain ⟨T2, hrel, h⟩ := bind_eq_some_iff.mp h
    obtain ⟨o, hout, h⟩ := map_eq_some_iff.mp h
    obtain ⟨rfl, rfl, rfl⟩ := triple_inj h
    have ht : T1.txn = T.txn := by
      obtain ⟨-, ht, -⟩ | ⟨-, -, -, -, ht⟩ := hcases <;> exact ht
    obtain ⟨hT2, -⟩ := txnRelease_post (ht ▸ htxn) hrel
    have hb : T2.bucket = T1.bucket := by rw [hT2]
    refine ⟨ht ▸ txnLess_of_release (ht ▸ htxn) hrel, ?_⟩
    obtain ⟨hb1, -, hih, hval⟩ | ⟨-, rfl, hs, hb1, -⟩ := hcases
    · exact .inl ⟨hb.trans hb1, fun _ => inTable_of_outhandle (hih ▸ hin) (hval rfl) hout⟩
    -- the handle is not one of the TCAM, so that there is none
    have hv : ctx1.inhandle.valid = false := by
      unfold Client.inTable at hin
      unfold valid at hs ⊢
      generalize ctx1.inhandle.pvalid = a at hin hs ⊢
      generalize ctx1.inhandle.svalid = b at hin hs ⊢
      revert hin hs
      cases a <;> cases b <;> simp
    obtain ⟨hidx, htv⟩ := hctx hv
    rw [outhandle_of_table hv htv] at hout
    cases hout
    rw [hidx] at hb1 ⊢
    exact .inr ⟨rfl, hb.trans hb1, rfl⟩
  · rename_i hne heq
    cases heq
    obtain ⟨rfl, rfl, rfl⟩ := some_triple_inj h
    have hret : ret1 ≠ .ok := fun he => hne he
    obtain ⟨hb1, ht, -⟩ | ⟨hok, -⟩ := hcases
    · exact ⟨⟨ht ▸ htxn, fun _ _ hu => ht ▸ hu⟩, .inl ⟨hb1, fun he => absurd he hret⟩⟩
    · exact absurd hok hret

/-- **`insert`** without a handle to a bucket. -/
theorem insert_cases (htxn : TxnOk P T.txn) (hin : Client.inTable p.handle = false)
    (h : T.insert P hash p = some (ret, p', T')) :
    TxnLess P T.txn T'.txn ∧ InsertEffect P hash T p ret p' T' := by
  have hsame : ∀ {q}, ret ≠ .ok → T = T' →
      TxnLess P T.txn T'.txn ∧ InsertEffect P hash T p ret q T' := by
    rintro q hret rfl
    exact ⟨htxn.less, .inl ⟨rfl, fun he => absurd he hret⟩⟩
  unfold Slhash.insert at h
  dsimp only at h
  split at h
  · cases h
  split at h
  · rename_i hv
    have hin' : Client.inTable (SlhCtx.init .insert p).inhandle = false := hin
    refine insertNew_cases htxn rfl hin' (fun hn => ?_) h
    exact absurd (hn.symm.trans hv) false_ne_true
  rename_i hv
  obtain ⟨⟨ret1, ctx1⟩, hfind, h⟩ := bind_eq_some_iff.mp h
  obtain ⟨hop, hhandle, hindex, -, hnot⟩ := find_ctx hfind
  split at h
  · obtain ⟨o, -, h⟩ := map_eq_some_iff.mp h
    obtain ⟨rfl, -, hT⟩ := triple_inj h
    exact hsame (by decide) hT
  · rename_i heq
    cases heq
    have hin' : Client.inTable ctx1.inhandle = false := by rwa [SlhCtx.inhandle, hhandle]
    refine insertNew_cases htxn hop hin' (fun _ => ⟨?_, (hnot rfl).2⟩) h
    rw [hindex, SlhProps.target, if_neg hv]
  · rename_i hne _ _
    obtain ⟨rfl, -, hT⟩ := some_triple_inj h
    exact hsame hne hT

/-- **What a remove does to the buckets**: nothing, or it clears the use bit of
the one it looks at. -/
def RemoveEffect (P : SlhProps K) (hash : K → BitVec 32) (T : Slhash K D) (p : SltParams K D)
    (ret : SdkRet) (T' : Slhash K D) : Prop :=
  (T'.bucket = T.bucket ∧ ret ≠ .ok) ∨ T'.bucket = (T.setInuse (P.target hash p) false).bucket

/-- What `remove_` does. -/
theorem removeEntry_cases (hop : ctx.op = .remove) (hindex : ctx.index = P.target hash p)
    (h : T.removeEntry P ctx = some (ret, ctx', T')) :
    T'.txn = T.txn ∧ RemoveEffect P hash T p ret T' := by
  obtain ⟨⟨ret1, T1⟩, hrem, h1⟩ := bind_eq_some_iff.mp h
  have hcases : (ret1 = .entryNotFound ∨ ret1 = .ok) ∧ T1.txn = T.txn ∧
      T1.bucket = (T.setInuse ctx.index false).bucket := by
    unfold tableRemove at hrem
    split at hrem
    · cases hrem
    split at hrem
    · rename_i hu
      cases hrem
      refine ⟨.inl rfl, rfl, (Function.update_eq_self_iff.mpr ?_).symm⟩
      rw [← (Bool.not_eq_true' _).mp hu]
    split at hrem
    · cases hrem
    · unfold Slhash.write at hrem
      rw [hop] at hrem
      cases hrem
      exact ⟨.inr rfl, rfl, rfl⟩
  obtain ⟨rfl | rfl, ht, hb⟩ := hcases
  · obtain ⟨⟨ret2, q, t⟩, -, h2⟩ := bind_eq_some_iff.mp h1
    cases h2
    exact ⟨ht, .inr (hindex ▸ hb)⟩
  · cases h1
    exact ⟨ht, .inr (hindex ▸ hb)⟩

/-- **`remove`.** -/
theorem remove_cases (htxn : TxnOk P T.txn) (h : T.remove P hash p = some (ret, p', T')) :
    TxnLess P T.txn T'.txn ∧ RemoveEffect P hash T p ret T' := by
  unfold Slhash.remove at h
  dsimp only at h
  split at h
  · cases h
  obtain ⟨⟨ret1, ctx1⟩, hfind, h1⟩ := bind_eq_some_iff.mp h
  obtain ⟨hop, -, hindex, -⟩ := find_ctx hfind
  split at h1
  · rename_i heq
    cases heq
    obtain ⟨⟨ret2, ctx2, T2⟩, hrem, h2⟩ := bind_eq_some_iff.mp h1
    obtain ⟨ht, heff⟩ := removeEntry_cases hop hindex hrem
    split at h2
    · rename_i heq
      cases heq
      obtain ⟨T3, hrel, h3⟩ := map_eq_some_iff.mp h2
      obtain ⟨rfl, -, rfl⟩ := triple_inj h3
      obtain ⟨hT3, -⟩ := txnRelease_post (ht ▸ htxn) hrel
      have hb : T3.bucket = T2.bucket := by rw [hT3]
      exact ⟨ht ▸ txnLess_of_release (ht ▸ htxn) hrel, by rwa [RemoveEffect, hb]⟩
    · rename_i heq
      cases heq
      cases h2
      exact ⟨⟨ht ▸ htxn, fun _ _ hu => ht ▸ hu⟩, heff⟩
  · rename_i hne _
    cases h1
    exact ⟨htxn.less, .inl ⟨rfl, hne⟩⟩

/-- **What a reserve does to the buckets**: nothing, or it reserves the one of its key. -/
def ReserveEffect (P : SlhProps K) (hash : K → BitVec 32) (T : Slhash K D) (p : SltParams K D)
    (ret : SdkRet) (p' : SltParams K D) (T' : Slhash K D) : Prop :=
  (T'.bucket = T.bucket ∧ TxnLess P T.txn T'.txn ∧
      (ret = .ok → Client.inTable p'.handle = false)) ∨
    (ret = .ok ∧ T'.bucket = (T.setReserved (P.idx hash p.key) true).bucket ∧
      p'.handle = null.setPindex (P.idx hash p.key) ∧
      (T.txn.valid = true → TxnOk P T'.txn) ∧
      ∀ k, T'.txn.indexer.isUsed k = true → k = P.idx hash p.key ∨ T.txn.indexer.isUsed k = true)

/-- `reserve` of a free bucket that the transaction does not hold. -/
theorem reserve_of_free (htxn : TxnOk P T.txn) (hv : p.handle.valid = false)
    (hfree : (T.bucket (P.idx hash p.key)).isbusy = false)
    (hu : T.txn.indexer.isUsed (P.idx hash p.key) = false)
    (hfind : T.find P hash (SlhCtx.init .reserve p) = some (.entryNotFound, ctx)) :
    ∃ txn, T.reserve P hash p = some (.ok,
        { p with handle := null.setPindex (P.idx hash p.key) },
        { T.setReserved (P.idx hash p.key) true with txn := txn }) ∧
      (T.txn.valid = true → TxnOk P txn) ∧
      ∀ k, txn.indexer.isUsed k = true → k = P.idx hash p.key ∨ T.txn.indexer.isUsed k = true := by
  obtain ⟨-, -, hindex, hvalid, hnot⟩ := find_ctx hfind
  obtain ⟨hparams, htv⟩ := hnot rfl
  rw [SlhProps.target, hv] at hindex
  have hin : ctx.inhandle.valid = false := by rwa [SlhCtx.inhandle, hparams]
  replace hindex : ctx.index = P.idx hash p.key := hindex
  rw [← hindex] at hfree hu ⊢
  obtain ⟨txn, htr, hok, hused⟩ :=
    txnReserve_post (show TxnOk P (T.setReserved ctx.index true).txn from htxn) (hvalid hv)
      (hindex ▸ idx_lt _) hu
  have htab : T.tableReserve ctx = some (.ok, T.setReserved ctx.index true) := by
    unfold tableReserve
    rw [hvalid hv, hfree]
    rfl
  have hres : T.reserveEntry P ctx =
      some (.ok, ctx, { T.setReserved ctx.index true with txn := txn }) := by
    unfold reserveEntry
    rw [htab, bind_some]
    dsimp only
    rw [htr]
    rfl
  refine ⟨txn, ?_, hok, hused⟩
  unfold Slhash.reserve
  rw [hfind, bind_some]
  dsimp only
  rw [hres, bind_some]
  show saveHandle .ok ctx _ = _
  rw [saveHandle, outhandle_of_table hin htv, hparams]
  rfl

/-- `reserve` of a key whose bucket is busy, which goes to the TCAM. -/
theorem reserve_of_busy (hv : p.handle.valid = false)
    (hbusy : (T.bucket (P.idx hash p.key)).isbusy = true)
    (hfind : T.find P hash (SlhCtx.init .reserve p) = some (.entryNotFound, ctx))
    (h : T.reserve P hash p = some (ret, p', T')) :
    T'.bucket = T.bucket ∧ T'.txn = T.txn ∧ (ret = .ok → Client.inTable p'.handle = false) := by
  obtain ⟨-, hhandle, hindex, hvalid, -⟩ := find_ctx hfind
  rw [SlhProps.target, hv] at hindex
  replace hindex : ctx.index = P.idx hash p.key := hindex
  have hin : ctx.inhandle.valid = false := by rwa [SlhCtx.inhandle, hhandle]
  obtain ⟨r, hfind', h1⟩ := bind_eq_some_iff.mp h
  cases hfind.symm.trans hfind'
  obtain ⟨⟨ret1, ctx1, T1⟩, hres, h2⟩ := bind_eq_some_iff.mp h1
  obtain ⟨⟨ret2, T2⟩, htab, hres1⟩ := bind_eq_some_iff.mp hres
  unfold tableReserve at htab
  rw [hvalid hv, hindex, hbusy] at htab
  cases htab
  obtain ⟨⟨ret3, q, t⟩, -, hres2⟩ := bind_eq_some_iff.mp hres1
  cases hres2
  split at h2
  · rename_i heq
    obtain ⟨hok, rfl, rfl⟩ := triple_inj heq
    obtain ⟨o, hout, h3⟩ := map_eq_some_iff.mp h2
    cases h3
    refine ⟨rfl, rfl, fun _ =>
      inTable_of_outhandle (c := ctx.withTcam q ret3) (inTable_of_invalid hin) ?_ hout⟩
    rw [show ret3 = .ok from hok]
    exact or_true _
  · rename_i hne heq
    cases heq
    cases h2
    exact ⟨rfl, rfl, fun he => absurd he hne⟩

/-- **`reserve`**, when the transaction holds reserved buckets only. -/
theorem reserve_cases (htxn : TxnOk P T.txn)
    (hheld : ∀ k < P.tableSize, T.txn.indexer.isUsed k = true → (T.bucket k).reserved = true)
    (h : T.reserve P hash p = some (ret, p', T')) : ReserveEffect P hash T p ret p' T' := by
  obtain ⟨⟨ret1, ctx1⟩, hfind, h1⟩ := bind_eq_some_iff.mp h
  split at h1
  · obtain ⟨o, -, h2⟩ := map_eq_some_iff.mp h1
    cases h2
    exact .inl ⟨rfl, htxn.less, fun he => absurd he (by decide)⟩
  · rename_i heq
    cases heq
    have hv : p.handle.valid = false := by
      -- a search through a handle would have found something
      by_contra hv
      cases find_of_valid (eq_true_of_not_eq_false hv) hfind
    cases hb : (T.bucket (P.idx hash p.key)).isbusy with
    | true =>
      obtain ⟨hbucket, ht, hout⟩ := reserve_of_busy hv hb hfind h
      exact .inl ⟨hbucket, ⟨ht ▸ htxn, fun _ _ hu => ht ▸ hu⟩, hout⟩
    | false =>
      have hu : T.txn.indexer.isUsed (P.idx hash p.key) = false := by
        by_contra hc
        rw [SlhBucket.isbusy, hheld _ (idx_lt _) (eq_true_of_not_eq_false hc), Bool.or_true] at hb
        cases hb
      obtain ⟨txn, hres, hok, hused⟩ := reserve_of_free htxn hv hb hu hfind
      cases hres.symm.trans h
      exact .inr ⟨rfl, rfl, rfl, hok, hused⟩
  · rename_i hne _ _
    cases h1
    exact .inl ⟨rfl, htxn.less, fun he => absurd he hne⟩

/-- **What a release does to the buckets**: nothing, or it releases the one of
its handle, which the transaction does not hold then. -/
def ReleaseEffect (P : SlhProps K) (T : Slhash K D) (p : SltParams K D) (ret : SdkRet)
    (T' : Slhash K D) : Prop :=
  (T'.bucket = T.bucket ∧ (ret = .ok → Client.inTable p.handle = false)) ∨
    (T'.bucket = (T.setReserved p.handle.pindex false).bucket ∧
      ∀ k < P.tableSize, T'.txn.indexer.isUsed k = true → k ≠ p.handle.pindex)

omit [LinearOrder K] in
/-- **`release`.** -/
theorem release_cases (htxn : TxnOk P T.txn) (h : T.release P p = some (ret, p', T')) :
    TxnLess P T.txn T'.txn ∧ ReleaseEffect P T p ret T' := by
  have hsame : TxnLess P T.txn T.txn := htxn.less
  unfold Slhash.release at h
  dsimp only at h
  split at h
  · rename_i hv
    cases h
    exact ⟨hsame, .inl ⟨rfl, fun he => absurd he hv⟩⟩
  obtain ⟨⟨ret1, T1⟩, hrel, h1⟩ := bind_eq_some_iff.mp h
  have hcases : T1.txn = T.txn ∧ ((T1.bucket = T.bucket ∧
      (ret1 = .ok → Client.inTable p.handle = false)) ∨
      (ret1 = .ok ∧ T1.bucket = (T.setReserved p.handle.pindex false).bucket)) := by
    unfold releaseEntry at hrel
    split at hrel
    · rename_i hs
      obtain ⟨r, -, hr⟩ := map_eq_some_iff.mp hrel
      cases hr
      refine ⟨rfl, .inl ⟨rfl, fun _ => ?_⟩⟩
      rw [Client.inTable, show p.handle.svalid = true from hs, Bool.not_true, Bool.and_false]
    · unfold tableRelease at hrel
      split at hrel
      · cases hrel
      · split at hrel
        · cases hrel
          exact ⟨rfl, .inl ⟨rfl, fun he => absurd he (by decide)⟩⟩
        · cases hrel
          exact ⟨rfl, .inr ⟨rfl, rfl⟩⟩
  obtain ⟨ht, hcases⟩ := hcases
  split at h1
  · rename_i heq
    cases heq
    obtain ⟨T2, htr, h2⟩ := map_eq_some_iff.mp h1
    obtain ⟨rfl, -, rfl⟩ := triple_inj h2
    obtain ⟨hT2, -, hless⟩ := txnRelease_post (ht ▸ htxn) htr
    have hb : T2.bucket = T1.bucket := by rw [hT2]
    refine ⟨ht ▸ txnLess_of_release (ht ▸ htxn) htr, ?_⟩
    obtain ⟨hb1, hin⟩ | ⟨-, hb1⟩ := hcases
    · exact .inl ⟨hb.trans hb1, hin⟩
    · exact .inr ⟨hb.trans hb1, fun k hk hu => (hless k hk hu).2⟩
  · rename_i hne heq
    cases heq
    cases h1
    obtain ⟨hb1, hin⟩ | ⟨hok, -⟩ := hcases
    · exact ⟨ht ▸ hsame, .inl ⟨hb1, hin⟩⟩
    · exact absurd hok hne

end Effects

/-! ### Runs -/

namespace Client

variable {P : SlhProps K} {hash : K → BitVec 32} {s s' : Client K D} {p : SltParams K D}

/-- **What holds along runs**: a reserved bucket is outstanding, a bucket in use
has an entry, and the transaction holds reserved buckets only. -/
structure Inv (P : SlhProps K) (s : Client K D) : Prop where
  txn : TxnOk P s.table.txn
  held : ∀ k < P.tableSize, s.table.txn.indexer.isUsed k = true → (s.table.bucket k).reserved = true
  reserved : ∀ i, (s.table.bucket i).reserved = true → s.out i = true
  inuse : ∀ i, (s.table.bucket i).inuse = true → s.entry i ≠ none

variable {T : Slhash K D}

/-- Steps that leave the buckets alone. -/
theorem Inv.of_bucket (h : Inv P s) (hb : T.bucket = s.table.bucket)
    (ht : TxnLess P s.table.txn T.txn) : Inv P { s with table := T } := by
  refine ⟨ht.ok, fun k hk hu => ?_, fun i hi => h.reserved i ?_, fun i hi => h.inuse i ?_⟩
  · show (T.bucket k).reserved = true
    rw [hb]
    exact h.held k hk (ht.less k hk hu)
  · rwa [← hb]
  · rwa [← hb]

/-- The use bit of one bucket is written. -/
theorem Inv.setInuse (h : Inv P s) {i : Nat} {v : Bool} {entry : Nat → Option K}
    (hb : T.bucket = (s.table.setInuse i v).bucket) (ht : TxnLess P s.table.txn T.txn)
    (hi : v = true → entry i ≠ none) (hentry : ∀ j ≠ i, entry j = s.entry j) :
    Inv P ⟨T, s.out, entry⟩ := by
  refine ⟨ht.ok, fun k hk hu => ?_, fun j hj => h.reserved j ?_, fun j hj => ?_⟩
  · show (T.bucket k).reserved = true
    rw [hb, setInuse_reserved]
    exact h.held k hk (ht.less k hk hu)
  · rwa [← setInuse_reserved, ← hb]
  · have hj' : (T.bucket j).inuse = true := hj
    rw [hb, setInuse_inuse] at hj'
    show entry j ≠ none
    split at hj'
    · rename_i heq
      exact heq ▸ hi hj'
    · rw [hentry j ‹_›]
      exact h.inuse j hj'

/-- The reservation bit of one bucket is written. -/
theorem Inv.setReserved (h : Inv P s) {i : Nat} {v : Bool} {out : Nat → Bool}
    (hb : T.bucket = (s.table.setReserved i v).bucket) (ht : TxnOk P T.txn)
    (hused : ∀ k < P.tableSize, T.txn.indexer.isUsed k = true →
      (k = i → v = true) ∧ (k ≠ i → s.table.txn.indexer.isUsed k = true))
    (hi : v = true → out i = true) (hout : ∀ j ≠ i, out j = s.out j) :
    Inv P ⟨T, out, s.entry⟩ := by
  refine ⟨ht, fun k hk hu => ?_, fun j hj => ?_, fun j hj => h.inuse j ?_⟩
  · show (T.bucket k).reserved = true
    rw [hb, setReserved_reserved]
    split
    · exact (hused k hk hu).1 ‹_›
    · exact h.held k hk ((hused k hk hu).2 ‹_›)
  · have hj' : (T.bucket j).reserved = true := hj
    rw [hb, setReserved_reserved] at hj'
    show out j = true
    split at hj'
    · rename_i heq
      exact heq ▸ hi hj'
    · rw [hout j ‹_›]
      exact h.reserved j hj'
  · rwa [← setReserved_inuse, ← hb]

variable {ret : SdkRet} {p' : SltParams K D}

/-- A call that leaves the buckets alone and has nothing to record. -/
theorem Inv.unrecorded {s1 : Client K D} (h : Inv P { s with table := T })
    (hs1 : ret = .ok → s1 = { s with table := T }) :
    Inv P (if ret = .ok then s1 else { s with table := T }) := by
  split
  · rename_i hret
    rwa [hs1 hret]
  · exact h

/-- An insert without a handle to a bucket. -/
theorem Inv.inserted_step (h : Inv P s) (hin : inTable p.handle = false)
    (ht : TxnLess P s.table.txn T.txn) (heff : InsertEffect P hash s.table p ret p' T) :
    Inv P (if ret = .ok then s.inserted p p' T else { s with table := T }) := by
  unfold Client.inserted
  rw [hin]
  obtain ⟨hb, hout⟩ | ⟨rfl, hb, hout⟩ := heff
  · refine (h.of_bucket hb ht).unrecorded fun hret => ?_
    rw [hout hret]
    rfl
  · have hpi : p'.handle.pindex = P.idx hash p.key := by rw [hout, pindex_idx]
    rw [if_pos rfl, show inTable p'.handle = true by rw [hout]; rfl, hpi]
    refine h.setInuse hb ht (fun _ => ?_) fun j hj => update_of_ne hj ..
    rw [if_pos rfl, update_self]
    exact some_ne_none _

/-- A reserve. -/
theorem Inv.reserved_step (h : Inv P s) (hvalid : s.table.txn.valid = true)
    (heff : ReserveEffect P hash s.table p ret p' T) :
    Inv P (if ret = .ok then s.reserved p' T else { s with table := T }) := by
  unfold Client.reserved
  obtain ⟨hb, ht, hout⟩ | ⟨rfl, hb, hout, ht, hused⟩ := heff
  · refine (h.of_bucket hb ht).unrecorded fun hret => ?_
    rw [hout hret]
    rfl
  · have hpi : p'.handle.pindex = P.idx hash p.key := by rw [hout, pindex_idx]
    rw [if_pos rfl, show inTable p'.handle = true by rw [hout]; rfl, hpi]
    refine h.setReserved hb (ht hvalid) (fun k hk hu => ?_) (fun _ => update_self ..)
      fun j hj => update_of_ne hj ..
    exact ⟨fun _ => rfl, fun hne => (hused k hu).resolve_left hne⟩

/-- A release. -/
theorem Inv.released_step (h : Inv P s) (ht : TxnLess P s.table.txn T.txn)
    (heff : ReleaseEffect P s.table p ret T) :
    Inv P (if ret = .ok then s.released p T else { s with table := T }) := by
  unfold Client.released
  obtain ⟨hb, hout⟩ | ⟨hb, hless⟩ := heff
  · refine (h.of_bucket hb ht).unrecorded fun hret => ?_
    rw [hout hret]
    rfl
  · -- the bit of the bucket is clear: whether the client forgets it or not
    have hstep : ∀ out : Nat → Bool, (∀ j ≠ p.handle.pindex, out j = s.out j) →
        Inv P ⟨T, out, s.entry⟩ := fun out hout =>
      h.setReserved hb ht.ok (fun k hk hu => ⟨fun he => absurd he (hless k hk hu),
        fun _ => ht.less k hk hu⟩) nofun hout
    split
    · refine hstep _ fun j hj => ?_
      split
      · exact update_of_ne hj ..
      · rfl
    · exact hstep _ fun _ _ => rfl

theorem Inv.txnStart (h : Inv P s) : Inv P { s with table := s.table.txnStart.2 } := by
  refine h.of_bucket ?_ ?_ <;> unfold Slhash.txnStart <;> dsimp only <;> split
  · rfl
  · rfl
  · exact h.txn.start
  · exact h.txn.start

theorem Inv.txnEnd (h : Inv P s) : Inv P { s with table := s.table.txnEnd.2 } := by
  refine h.of_bucket ?_ ?_ <;> unfold Slhash.txnEnd <;> dsimp only <;> split
  · rfl
  · rfl
  · exact h.txn.stop
  · exact h.txn.stop

variable [LinearOrder K]

/-- A remove is recorded at the bucket it looks at. -/
theorem removed_entry {i : Nat} (hi : i ≠ P.target hash p) :
    (s.removed P hash p T).entry i = s.entry i := by
  unfold SlhProps.target at hi
  unfold removed
  split
  · rename_i hv
    rw [if_pos hv] at hi
    split
    · exact update_of_ne hi _ _
    · rfl
  · rename_i hv
    rw [if_neg hv] at hi
    split
    · exact update_of_ne hi _ _
    · rfl

/-- A remove. -/
theorem Inv.removed_step (h : Inv P s) (ht : TxnLess P s.table.txn T.txn)
    (heff : RemoveEffect P hash s.table p ret T) :
    Inv P (if ret = .ok then s.removed P hash p T else { s with table := T }) := by
  obtain ⟨hb, hret⟩ | hb := heff
  · exact (h.of_bucket hb ht).unrecorded fun hok => absurd hok hret
  split
  · exact h.setInuse hb ht nofun fun j hj => removed_entry (T := T) hj
  · exact h.setInuse hb ht nofun fun _ _ => rfl

variable [Zero K] [Zero D]

omit [LinearOrder K] in
theorem Inv.of_init : Inv P (init P : Client K D) where
  txn := .of_init _
  held := by
    intro k hk hu
    obtain ⟨-, -, hfree⟩ := Indexer.init_ok P.tableSize
    exact absurd (hu.symm.trans (hfree k hk)) (by decide)
  reserved := fun _ hi => absurd hi false_ne_true
  inuse := fun _ hi => absurd hi false_ne_true

/-- **What one call preserves**, under the condition on calls. -/
theorem Inv.next (h : Inv P s) {c : Call K D} (hm : Meets s c)
    (hc : s.next P hash c = some s') : Inv P s' := by
  cases c with
  | insert p =>
    obtain ⟨⟨ret, p', T⟩, hins, rfl⟩ := map_eq_some_iff.mp hc
    obtain ⟨ht, heff⟩ := insert_cases h.txn hm hins
    exact h.inserted_step hm ht heff
  | remove p =>
    obtain ⟨⟨ret, p', T⟩, hrem, rfl⟩ := map_eq_some_iff.mp hc
    obtain ⟨ht, heff⟩ := remove_cases h.txn hrem
    exact h.removed_step ht heff
  | reserve p =>
    obtain ⟨⟨ret, p', T⟩, hres, rfl⟩ := map_eq_some_iff.mp hc
    exact h.reserved_step hm (reserve_cases h.txn h.held hres)
  | release p =>
    obtain ⟨⟨ret, p', T⟩, hrel, rfl⟩ := map_eq_some_iff.mp hc
    obtain ⟨ht, heff⟩ := release_cases h.txn hrel
    exact h.released_step ht heff
  | txnStart =>
    cases hc
    exact h.txnStart
  | txnEnd =>
    cases hc
    exact h.txnEnd

theorem Inv.marked (h : Inv P s) : Marked P hash s := { h with
  again := by
    intro p hnull ho he ctx hfind
    have hres : (s.table.bucket (P.idx hash p.key)).reserved = false := by
      by_contra hc
      exact absurd ((h.reserved _ (eq_true_of_not_eq_false hc)).symm.trans ho) (by decide)
    have huse : (s.table.bucket (P.idx hash p.key)).inuse = false := by
      by_contra hc
      exact h.inuse _ (eq_true_of_not_eq_false hc) he
    have hheld : s.table.txn.indexer.isUsed (P.idx hash p.key) = false := by
      by_contra hc
      have hr := h.held _ (idx_lt _) (eq_true_of_not_eq_false hc)
      exact absurd (hr.symm.trans hres) (by decide)
    obtain ⟨txn, hr, -⟩ := reserve_of_free h.txn (by rw [hnull]; rfl)
      (by rw [SlhBucket.isbusy, huse, hres]; rfl) hheld hfind
    refine ⟨_, _, hr, rfl, ?_⟩
    rw [setReserved_reserved, if_pos rfl] }

/-- **The bits of the buckets are right in every state of a run that meets the
condition.** -/
theorem Reached.bits_marked (hr : Reached P hash Meets s) : Marked P hash s := by
  have hinv : Inv P s := by
    refine Reachable.invariant hr ?_ ?_
    · rintro s rfl
      exact Inv.of_init
    · rintro s s' h ⟨c, hm, hc⟩
      exact h.next hm hc
  exact hinv.marked

/-! ### Runs that can be evaluated -/

instance (s : Client K D) : (c : Call K D) → Decidable (Meets s c)
  | .insert p => inferInstanceAs (Decidable (inTable p.handle = false))
  | .reserve _ => inferInstanceAs (Decidable (s.table.txn.valid = true))
  | .remove _ | .release _ | .txnStart | .txnEnd => .isTrue trivial

variable (P hash) in
/-- Make the calls of a list, each of which has to pass `check`. -/
def run (check : Client K D → Call K D → Bool) : Client K D → List (Call K D) → Option (Client K D)
  | s, [] => some s
  | s, c :: cs => if check s c then (s.next P hash c).bind fun s' => run check s' cs else none

theorem reached_of_run {meets : Client K D → Call K D → Prop} {check : Client K D → Call K D → Bool}
    (hcheck : ∀ s c, check s c = true → meets s c) {cs : List (Call K D)}
    (hr : Reached P hash meets s) (h : run P hash check s cs = some s') :
    Reached P hash meets s' := by
  induction cs generalizing s with
  | nil => exact some.inj h ▸ hr
  | cons c cs ih =>
    rw [run] at h
    split at h
    · rename_i hc
      obtain ⟨s1, hs1, h1⟩ := bind_eq_some_iff.mp h
      exact ih (.step hr ⟨c, hcheck s c hc, hs1⟩) h1
    · cases h


/-- The parameters of a call for key 1. -/
def keyOne (h : Handle) : SltParams Nat Nat := ⟨1, 10, h, 0, false⟩

/-- A reservation that is released, and an entry that is stored and removed. -/
def calmCalls : List (Call Nat Nat) :=
  [.txnStart, .reserve (keyOne .null), .release (keyOne (null.setPindex 1)), .txnEnd,
    .insert (keyOne .null), .remove (keyOne .null)]

/-- A reservation that is used for an entry, which is removed. -/
def usedCalls : List (Call Nat Nat) :=
  [.txnStart, .reserve (keyOne .null), .insert (keyOne (null.setPindex 1)),
    .remove (keyOne (null.setPindex 1))]

theorem Reached.bits_marked_calm :
    ∃ s : Client Nat Nat, run smallProps collidingHash
        (fun s c => decide (Meets s c)) (init smallProps) calmCalls = some s ∧
      Marked smallProps collidingHash s := by
  have hsome : (run smallProps collidingHash
      (fun s c => decide (Meets s c)) (init smallProps) calmCalls).isSome = true := by
    decide +kernel
  obtain ⟨s, hs⟩ := isSome_iff_exists.mp hsome
  have hr := reached_of_run (fun _ _ h => of_decide_eq_true h) (.start rfl) hs
  exact ⟨s, hs, hr.bits_marked⟩

/-- The bucket of a reservation that was used stays reserved when its entry is
removed. -/
theorem not_marked_used :
    ∃ s : Client Nat Nat, Reached smallProps collidingHash (fun _ _ => True) s ∧
      s.out 1 = false ∧ s.entry 1 = none ∧
      ¬ Marked smallProps collidingHash s := by
  have hsome : (run smallProps collidingHash (fun _ _ => true)
      (init smallProps) usedCalls).any (fun s => decide (s.out 1 = false ∧
        s.entry 1 = none ∧ (s.table.bucket 1).reserved = true)) = true := by
    decide +kernel
  obtain ⟨s, hs, hbits⟩ := (any_eq_true _ _).mp hsome
  obtain ⟨hout, hentry, hres⟩ := of_decide_eq_true hbits
  refine ⟨s, reached_of_run (fun _ _ _ => trivial) (.start rfl) hs, hout, hentry, fun hm => ?_⟩
  exact absurd ((hm.reserved 1 hres).symm.trans hout) (by decide)

end Client

end Slhash

end NicSw
