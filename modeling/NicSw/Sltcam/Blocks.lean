/-
Reservations of blocks over whole runs of transactions.

A client keeps the reservations that are outstanding, each with the number of
handles it asked for.  `reserve` allocates one index whatever that number is,
so the blocks of two reservations can overlap.  For runs in which no call asks
for more than one handle, `Client.Inv` says where every index is: it is an
entry's, it is reserved, or it is free in both indexers.
-/
import NicSw.Sltcam.Reserve
import NicSw.Sltcam.Spec

namespace NicSw

open SltCtx (create copyin)

open Handle (null valid)

open List

namespace Sltcam

variable {K D : Type*}

/-! ### Clients -/

/-- A TCAM and the reservations of its client: index and number of handles. -/
structure Client (K D : Type*) where
  table : Sltcam K D
  out : List (Nat × Nat)

/-- Index `k` is in the block of a reservation. -/
def InBlock (b : Nat × Nat) (k : Nat) : Prop := b.1 ≤ k ∧ k < b.1 + b.2

instance (b : Nat × Nat) (k : Nat) : Decidable (InBlock b k) := inferInstanceAs (Decidable (_ ∧ _))

/-- Index `k` is that of an entry. -/
def Entry (T : Sltcam K D) (k : Nat) : Prop := ∃ i < T.db.count, T.db.elems i = some k

section Runs

variable [LinearOrder K] [Zero D] (P : SltProps K)

/-- **A call in a transaction**, with `n` for its `num_handles`.  Inserts and
releases are made for a reservation that is outstanding. -/
inductive Client.Step (s : Client K D) : Nat → Client K D → Prop
  | txnStart : Client.Step s 0 ⟨s.table.txnStart.2, s.out⟩
  | txnEnd : Client.Step s 0 ⟨s.table.txnEnd.2, s.out⟩
  | reserve {p ret p' T'} (inTxn : s.table.txn.valid = true) (null : p.handle = null)
      (call : s.table.reserve P p = some (ret, p', T')) :
      Client.Step s p.numHandles
        ⟨T', if ret = .ok then (p'.handle.pindex, p.handles) :: s.out else s.out⟩
  | insert {p b ret p' T'} (inTxn : s.table.txn.valid = true) (mem : b ∈ s.out)
      (handle : p.handle = null.setPindex b.1)
      (call : s.table.insert P p = some (ret, p', T')) :
      Client.Step s p.numHandles ⟨T', if ret = .ok then s.out.erase b else s.out⟩
  | remove {p ret p' T'} (inTxn : s.table.txn.valid = true)
      (call : s.table.remove P p = some (ret, p', T')) :
      Client.Step s p.numHandles ⟨T', s.out⟩
  | release {p b ret p' T'} (inTxn : s.table.txn.valid = true) (mem : b ∈ s.out)
      (handle : p.handle = null.setPindex b.1) (handles : p.handles = b.2)
      (call : s.table.release P p = some (ret, p', T')) :
      Client.Step s p.numHandles ⟨T', if ret = .ok then s.out.erase b else s.out⟩

/-- The states of runs in which every call meets `meets`. -/
def Client.Reached (meets : Nat → Prop) : Client K D → Prop :=
  Reachable (· = ⟨init P, []⟩) fun s s' => ∃ n, meets n ∧ Client.Step P s n s'

/-- The reservations are released one after the other; `none` if a release
fails. -/
def releaseAll (T : Sltcam K D) : List (Nat × Nat) → Option (Sltcam K D)
  | [] => some T
  | b :: l =>
    match T.release P ⟨P.clearKey, 0, null.setPindex b.1, b.2, false⟩ with
    | some (.ok, _, T') => T'.releaseAll l
    | _ => none

/-- **Blocks and entries do not overlap and are allocated**, and when all
reservations are released, exactly the entries are allocated, the transaction
holds nothing and can be ended. -/
structure Client.Apart (s : Client K D) : Prop where
  blocks : s.out.Pairwise fun a b => ∀ k, InBlock a k → ¬ InBlock b k
  entries : ∀ i < s.table.db.count, ∀ j < s.table.db.count,
    s.table.db.elems i = s.table.db.elems j → i = j
  blocks_entries : ∀ b ∈ s.out, ∀ k, InBlock b k → ¬ s.table.Entry k
  blocks_used : ∀ b ∈ s.out, ∀ k, InBlock b k → k < P.tableSize ∧ s.table.indexer.isUsed k = true
  entries_used : ∀ k, s.table.Entry k → k < P.tableSize ∧ s.table.indexer.isUsed k = true
  released : ∃ T', s.table.releaseAll P s.out = some T' ∧ T'.db = s.table.db ∧
    (∀ k < P.tableSize, T'.indexer.isUsed k = true ↔ s.table.Entry k) ∧
    (∀ k < P.tableSize, T'.txn.indexer.isUsed k = false) ∧
    (s.table.txn.valid = true → T'.txnEnd.1 = .ok)

end Runs

/-! ### The invariant -/

/-- The TCAM as it is outside a transaction. -/
def calm (T : Sltcam K D) : Sltcam K D := { T with txn := { T.txn with valid := false } }

/-- **Where every index is**, when each reservation is of one index. -/
structure Client.Inv [LinearOrder K] (P : SltProps K) (s : Client K D) : Prop where
  ok : Ok P s.table.calm
  accounted : Accounted P s.table.indexer s.table.txn
  one : ∀ b ∈ s.out, b.2 = 1
  nodup : s.out.Nodup
  reserved_lt : ∀ b ∈ s.out, b.1 < P.tableSize
  reserved_entry : ∀ b ∈ s.out, ¬ s.table.Entry b.1
  used : ∀ k < P.tableSize, s.table.indexer.isUsed k = true ↔ s.table.Entry k ∨ (k, 1) ∈ s.out
  held : ∀ k < P.tableSize, s.table.txn.indexer.isUsed k = true ↔ (k, 1) ∈ s.out
  count : s.table.txn.reservedCount = s.out.length

theorem sltFreeLoop_one_unused {ix : Indexer} {i : Nat} (hu : ix.isUsed i = false) :
    sltFreeLoop ix i 1 = (false, ix) := by
  cases hf : ix.free i with
  | error e => simp [sltFreeLoop, hf]
  | ok ix' =>
    obtain ⟨-, hu', -⟩ := Indexer.free_eq_ok hf
    cases hu.symm.trans hu'

variable {ctx : SltCtx K D} {T : Sltcam K D}

theorem dealloc_of_loop {ix : Indexer} (hv : ctx.tcamIndexValid = true)
    (hloop : sltFreeLoop T.indexer ctx.tcamIndex ctx.params.handles = (true, ix)) :
    T.dealloc ctx = some (.ok, { T with indexer := ix }) := by
  unfold dealloc
  rw [hv, hloop]
  rfl

/-- No more than one handle is one handle. -/
theorem handles_of_le {p : SltParams K D} (h : p.numHandles ≤ 1) : p.handles = 1 := by
  rw [SltParams.handles]
  split <;> omega

section Inv

variable [LinearOrder K] {P : SltProps K} {s : Client K D} {T : Sltcam K D} {b : Nat × Nat}
  {l : List (Nat × Nat)} {txn : SltTxn}

/-- The transaction does not matter for the entries. -/
theorem Ok.set_txn (hok : Ok P T) (hv : txn.valid = false) : Ok P { T with txn := txn } :=
  ⟨hv, hok.indexer, hok.size, hok.elems, hok.sorted, hok.empty⟩

/-- `insert` with an index and a slot, whatever the transaction does then. -/
theorem insertAt_of_release (hok : Ok P T.calm) {k : K} {slot : Nat}
    (hs : SlotOf (slotKey T.hw) T.db.elems T.db.count k slot) (hv : ctx.dbslotValid = true)
    (hslot : ctx.dbslot = slot) (hrel : T.txn.release ctx.copyin = some txn) :
    T.insertAt ctx = some (.ok, saveHandle ctx.copyin,
      { T.inserted T.indexer slot ctx.tcamIndex ctx.params.key ctx.params.data with
        txn := txn }) := by
  have hins : T.db.insert ctx.copyin = _ := @insert_elems _ _ _ _ T.calm _ _ hok hs _ hv hslot
  show (T.db.insert ctx.copyin).bind _ = _
  rw [hins, Option.bind_some]
  show (T.txn.release ctx.copyin).bind _ = _
  rw [hrel, Option.bind_some]
  rfl

namespace Client.Inv

section

variable (hi : s.Inv P)
include hi

theorem entry_used {k : Nat} (he : s.table.Entry k) :
    k < P.tableSize ∧ s.table.indexer.isUsed k = true := hi.ok.used he

section

variable (hb : b ∈ s.out)
include hb

theorem eq_one : b = (b.1, 1) := by
  rw [← hi.one b hb]

theorem block_used : s.table.indexer.isUsed b.1 = true :=
  (hi.used b.1 (hi.reserved_lt b hb)).mpr (.inr (hi.eq_one hb ▸ hb))

theorem block_held : s.table.txn.indexer.isUsed b.1 = true :=
  (hi.held b.1 (hi.reserved_lt b hb)).mpr (hi.eq_one hb ▸ hb)

/-- The block of a reservation is its index. -/
theorem inBlock_iff {k : Nat} : InBlock b k ↔ k = b.1 := by
  unfold InBlock
  rw [hi.one b hb]
  omega

theorem pindex : (null.setPindex b.1).pindex = b.1 := by
  have hlt := hi.reserved_lt b hb
  have hle := P.tableSize_le
  exact Nat.mod_eq_of_lt (by omega)

/-- One reservation fewer. -/
theorem mem_erase {k : Nat} : (k, 1) ∈ s.out.erase b ↔ k ≠ b.1 ∧ (k, 1) ∈ s.out := by
  have hne : (k, 1) ≠ b ↔ k ≠ b.1 := by
    rw [hi.eq_one hb]
    simp
  rw [hi.nodup.mem_erase_iff, hne]

theorem length_erase :
    s.table.txn.reservedCount ≠ 0 ∧ s.table.txn.reservedCount - 1 = (s.out.erase b).length := by
  rw [hi.count, length_erase_of_mem hb]
  exact ⟨(length_pos_of_mem hb).ne', rfl⟩

end

end

/-! ### Release -/

/-- What the transaction does with the release of a reservation. -/
theorem txn_release (hi : s.Inv P) (hv : s.table.txn.valid = true) (hb : b ∈ s.out)
    (hc : ctx.tcamIndexValid = true) (hidx : ctx.tcamIndex = b.1) (hn : ctx.params.handles = 1) :
    ∃ tix, s.table.txn.releaseRet ctx
        = some (.ok, ⟨true, s.table.txn.reservedCount - 1, tix⟩) ∧
      ∀ k, tix.isUsed k = (!decide (k = b.1) && s.table.txn.indexer.isUsed k) := by
  have hlt : b.1 < s.table.txn.indexer.size := hi.accounted.txn_size ▸ hi.reserved_lt b hb
  obtain ⟨tix, hloop, hused, -⟩ := sltFreeLoop_one_used hi.accounted.txn_ok hlt (hi.block_held hb)
  refine ⟨tix, ?_, hused⟩
  unfold SltTxn.releaseRet
  rw [hv, hc, hidx, hn, hloop]
  exact if_neg (hi.length_erase hb).1

variable [Zero D] {p : SltParams K D}

/-- **The release of a reservation** gives its index back in both indexers. -/
theorem release (hi : s.Inv P) (hv : s.table.txn.valid = true) (hb : b ∈ s.out)
    (hp : p.handle = null.setPindex b.1) (hn : p.handles = 1) :
    ∃ T', s.table.release P p = some (.ok, p, T') ∧ Client.Inv P ⟨T', s.out.erase b⟩ ∧
      T'.db = s.table.db ∧ T'.txn.valid = true := by
  have hpidx : p.handle.pindex = b.1 := by rw [hp, hi.pindex hb]
  have hpv : p.handle.pvalid = true := by rw [hp]; rfl
  obtain ⟨tix, htxn, htused⟩ :
      ∃ tix, s.table.txn.releaseRet (create P .release p)
          = some (.ok, ⟨true, s.table.txn.reservedCount - 1, tix⟩) ∧
        ∀ k, tix.isUsed k = (!decide (k = b.1) && s.table.txn.indexer.isUsed k) :=
    hi.txn_release hv hb hpv hpidx hn
  have hlt : b.1 < s.table.indexer.size := hi.accounted.size ▸ hi.reserved_lt b hb
  obtain ⟨ix, hloop, hused, hok, hsize⟩ :=
    sltFreeLoop_one_used hi.accounted.ok hlt (hi.block_used hb)
  have hcall : s.table.release P p = some (.ok, p,
      ⟨ix, ⟨true, s.table.txn.reservedCount - 1, tix⟩, s.table.db, s.table.hw⟩) := by
    rw [← hpidx, ← hn] at hloop
    show (s.table.txn.releaseRet (create P .release p)).bind _ = _
    rw [htxn, Option.bind_some]
    show (dealloc ⟨s.table.indexer, _, _, _⟩ (create P .release p)).map _ = _
    rw [dealloc_of_loop hpv hloop]
    rfl
  refine ⟨_, hcall, ⟨?_, release_call_accounted hi.accounted hcall, ?_, hi.nodup.erase b, ?_, ?_,
    ?_, ?_, (hi.length_erase hb).2⟩, rfl, rfl⟩
  · refine ⟨rfl, hok, hsize.trans hi.accounted.size, fun i hlt => ?_, hi.ok.sorted, hi.ok.empty⟩
    obtain ⟨idx, he, hidx, hu⟩ := hi.ok.elems i hlt
    have hne : idx ≠ b.1 := by
      rintro rfl
      exact hi.reserved_entry b hb ⟨i, hlt, he⟩
    refine ⟨idx, he, hidx, ?_⟩
    show ix.isUsed idx = true
    rw [hused, show s.table.indexer.isUsed idx = true from hu]
    simp [hne]
  · exact fun c hc => hi.one c (mem_of_mem_erase hc)
  · exact fun c hc => hi.reserved_lt c (mem_of_mem_erase hc)
  · exact fun c hc => hi.reserved_entry c (mem_of_mem_erase hc)
  · intro k hk
    show ix.isUsed k = true ↔ s.table.Entry k ∨ (k, 1) ∈ s.out.erase b
    rw [hused, hi.mem_erase hb, Bool.and_eq_true, hi.used k hk]
    by_cases hkb : k = b.1
    · have := hi.reserved_entry b hb
      simp [hkb, this]
    · simp [hkb]
  · intro k hk
    rw [htused, hi.mem_erase hb, Bool.and_eq_true, hi.held k hk]
    simp

/-- **All reservations can be released**, and the transaction can then be ended. -/
theorem releaseAll (hi : s.Inv P) (hv : s.out ≠ [] → s.table.txn.valid = true) :
    ∃ T', s.table.releaseAll P s.out = some T' ∧ T'.db = s.table.db ∧
      T'.txn.valid = s.table.txn.valid ∧ Client.Inv P ⟨T', []⟩ := by
  obtain ⟨T, l⟩ := s
  induction l generalizing T with
  | nil => exact ⟨T, rfl, rfl, rfl, hi⟩
  | cons b l ih =>
    have hb : b ∈ (⟨T, b :: l⟩ : Client K D).out := mem_cons_self ..
    have hopen : T.txn.valid = true := hv (cons_ne_nil b l)
    have hone : (⟨P.clearKey, 0, null.setPindex b.1, b.2, false⟩ :
        SltParams K D).handles = 1 := by
      rw [SltParams.handles, hi.one b hb]
      rfl
    obtain ⟨T1, hc, hi1, hdb, hv1⟩ := hi.release hopen hb rfl hone
    rw [show (b :: l).erase b = l from erase_cons_head ..] at hi1
    obtain ⟨T', hall, hdb', hv', hi'⟩ := ih T1 hi1 fun _ => hv1
    refine ⟨T', ?_, hdb'.trans hdb, ?_, hi'⟩
    · rw [Sltcam.releaseAll, hc]
      exact hall
    · rw [hv']
      exact hv1.trans hopen.symm

/-! ### Reserve -/

variable {p' : SltParams K D} {T' : Sltcam K D} {ret : SdkRet}

/-- **A reserve** takes an index that is nobody's. -/
theorem reserve (hi : s.Inv P) (hv : s.table.txn.valid = true) (hp : p.handle = null)
    (hn : p.numHandles ≤ 1) (hc : s.table.reserve P p = some (ret, p', T')) :
    Client.Inv P ⟨T', if ret = .ok then (p'.handle.pindex, p.handles) :: s.out else s.out⟩ := by
  have hpv : p.handle.pvalid = false := by rw [hp]; rfl
  cases ha : s.table.indexer.alloc (!p.highest) with
  | error e =>
    cases (reserve_of_error hpv ha).symm.trans hc
    exact hi
  | ok r =>
    obtain ⟨i, ix⟩ := r
    have hacc := reserve_accounted hi.accounted hc
    obtain ⟨hlt, hfree, hused, hok, hsize⟩ := Indexer.alloc_ok hi.accounted.ok ha
    rw [reserve_of_alloc hi.accounted hpv ha, hv, if_pos rfl] at hc
    cases hc
    rw [hi.accounted.size] at hlt
    have hidx : (p.handle.setPindex i).pindex = i := by
      have := P.tableSize_le
      exact Nat.mod_eq_of_lt (by omega)
    -- the index was neither an entry's nor reserved
    have hno := hi.used i hlt
    rw [hfree, Bool.false_eq_true, false_iff, not_or] at hno
    rw [if_pos rfl, handles_of_le hn]
    rw [hidx]
    refine ⟨⟨rfl, hok, hsize.trans hi.accounted.size, fun j hj => ?_, hi.ok.sorted, hi.ok.empty⟩,
      hacc, fun b hb => ?_, nodup_cons.mpr ⟨hno.2, hi.nodup⟩, fun b hb => ?_,
      fun b hb => ?_, fun k hk => ?_, fun k hk => ?_, ?_⟩
    · obtain ⟨idx, he, hidx, hu⟩ := hi.ok.elems j hj
      refine ⟨idx, he, hidx, ?_⟩
      show ix.isUsed idx = true
      rw [hused, show s.table.indexer.isUsed idx = true from hu, Bool.or_true]
    · rcases mem_cons.mp hb with rfl | hb
      · rfl
      · exact hi.one b hb
    · rcases mem_cons.mp hb with rfl | hb
      · exact hlt
      · exact hi.reserved_lt b hb
    · rcases mem_cons.mp hb with rfl | hb
      · exact hno.1
      · exact hi.reserved_entry b hb
    · show ix.isUsed k = true ↔ s.table.Entry k ∨ (k, 1) ∈ (i, 1) :: s.out
      rw [hused, Bool.or_eq_true, hi.used k hk, decide_eq_true_eq, mem_cons, Prod.mk.injEq]
      tauto
    · show (s.table.txn.indexer.mark (i / 64) (i % 64)).isUsed k = true ↔ (k, 1) ∈ (i, 1) :: s.out
      rw [Indexer.isUsed_mark (Nat.mod_lt _ (by decide)), Nat.div_add_mod', Bool.or_eq_true,
        hi.held k hk, decide_eq_true_eq, mem_cons, Prod.mk.injEq]
      tauto
    · exact congrArg (· + 1) hi.count

/-! ### Insert -/

omit [LinearOrder K] [Zero D] in
/-- The entries after an insert at index `e`. -/
theorem entry_inserted {ix : Indexer} {slot e k : Nat} {key : K} {d : D} (hle : slot ≤ T.db.count) :
    (T.inserted ix slot e key d).Entry k ↔ k = e ∨ T.Entry k := by
  unfold Entry
  rw [show (T.inserted ix slot e key d).db
    = ⟨T.db.count + 1, insertSlot T.db.elems slot T.db.count (some e)⟩ from rfl,
    exists_insertSlot hle, Option.some.injEq, eq_comm]

omit [Zero D] in
/-- An entry takes the place of a reservation. -/
theorem of_inserted (hi : s.Inv P) (hb : b ∈ s.out) {slot : Nat} {key : K} {d : D}
    (hs : SlotOf (slotKey s.table.hw) s.table.db.elems s.table.db.count key slot)
    (hacc : Accounted P s.table.indexer txn) (hcount : txn.reservedCount = (s.out.erase b).length)
    (hheld : ∀ k, txn.indexer.isUsed k = (!decide (k = b.1) && s.table.txn.indexer.isUsed k)) :
    Client.Inv P
      ⟨{ s.table.inserted s.table.indexer slot b.1 key d with txn := txn }, s.out.erase b⟩ := by
  have hins : Ok P (s.table.calm.inserted s.table.indexer slot b.1 key d) :=
    ok_inserted (fun i hi' he => hi.reserved_entry b hb ⟨i, hi', he⟩) hs hi.ok hi.accounted.ok
      hi.accounted.size (hi.reserved_lt b hb) (hi.block_used hb) fun _ h => h
  have hentry : ∀ k, Sltcam.Entry
      { s.table.inserted s.table.indexer slot b.1 key d with txn := txn } k ↔
        k = b.1 ∨ s.table.Entry k :=
    fun k => @entry_inserted _ _ s.table s.table.indexer slot b.1 k key d hs.le
  refine ⟨hins.set_txn rfl, hacc, fun c hc => hi.one c (mem_of_mem_erase hc),
    hi.nodup.erase b, fun c hc => hi.reserved_lt c (mem_of_mem_erase hc), fun c hc => ?_,
    fun k hk => ?_, fun k hk => ?_, hcount⟩
  · rw [hentry, not_or]
    have hmem := mem_of_mem_erase hc
    refine ⟨?_, hi.reserved_entry c hmem⟩
    rw [hi.eq_one hmem] at hc
    exact ((hi.mem_erase hb).mp hc).1
  · show s.table.indexer.isUsed k = true ↔ _
    rw [hi.used k hk, hentry, hi.mem_erase hb]
    by_cases hkb : k = b.1
    · have hmem : (b.1, 1) ∈ s.out := hi.eq_one hb ▸ hb
      simp [hkb, hmem]
    · simp [hkb]
  · rw [hheld, hi.mem_erase hb, Bool.and_eq_true, hi.held k hk]
    simp

/-- **An insert with the handle of a reservation** makes an entry at its index. -/
theorem insert (hi : s.Inv P) (hv : s.table.txn.valid = true) (hb : b ∈ s.out)
    (hp : p.handle = null.setPindex b.1) (hn : p.numHandles ≤ 1)
    (hc : s.table.insert P p = some (ret, p', T')) :
    Client.Inv P ⟨T', if ret = .ok then s.out.erase b else s.out⟩ := by
  have hacc := insert_accounted hi.accounted hc
  have hpv : p.handle.pvalid = true := by rw [hp]; rfl
  have hvalid : p.handle.valid = true := by
    unfold valid
    rw [hpv]
    rfl
  have hidx : p.handle.pindex = b.1 := by rw [hp, hi.pindex hb]
  have hfind := find_post hi.ok (create P .insert p)
  unfold Sltcam.insert at hc
  have hval : s.table.txn.validate (create P .insert p) = .ok := by
    show (if s.table.txn.valid && _ && !p.handle.valid then _ else _) = _
    rw [hvalid, Bool.not_true, Bool.and_false]
    rfl
  simp only [hval] at hc
  change FindPost s.table.calm _ (s.table.db.find s.table.hw (create P .insert p)) at hfind
  generalize s.table.db.find s.table.hw (create P .insert p) = r at hc hfind
  cases hfind with
  | ok lt elem key =>
    cases hc
    exact hi
  | @notFound slot hs =>
    simp only [show (create P .insert p).params.handle.valid = true from hvalid,
      if_true] at hc
    -- the slot is opened for the index of the reservation
    obtain ⟨tix, htxn, htused⟩ :
        ∃ tix, s.table.txn.releaseRet (copyin { create P .insert p with
              dbslotValid := true, dbslot := slot })
            = some (.ok, ⟨true, s.table.txn.reservedCount - 1, tix⟩) ∧
          ∀ k, tix.isUsed k = (!decide (k = b.1) && s.table.txn.indexer.isUsed k) :=
      hi.txn_release hv hb hpv hidx (handles_of_le hn)
    have hrel : s.table.txn.release (copyin { create P .insert p with
        dbslotValid := true, dbslot := slot })
          = some ⟨true, s.table.txn.reservedCount - 1, tix⟩ := by
      rw [SltTxn.release, htxn, Option.map_some]
    rw [insertAt_of_release hi.ok hs rfl rfl hrel] at hc
    cases hc
    show Client.Inv P ⟨{ s.table.inserted s.table.indexer slot p.handle.pindex p.key p.data with
      txn := _ }, _⟩
    rw [hidx]
    exact hi.of_inserted hb hs hacc (hi.length_erase hb).2 htused

/-! ### Remove -/

omit [Zero D] in
/-- An entry's index is not held by the transaction. -/
theorem entry_not_held (hi : s.Inv P) {e : Nat} (he : s.table.Entry e) :
    s.table.txn.indexer.isUsed e = false := by
  by_contra hu
  have hmem := (hi.held e (hi.entry_used he).1).mp (by simpa using hu)
  exact hi.reserved_entry _ hmem he

omit [Zero D] in
/-- An entry is given up and its index freed. -/
theorem of_removed (hi : s.Inv P) {slot e : Nat} {ix : Indexer} {z : K × D}
    (hlt : slot < s.table.db.count) (he : s.table.db.elems slot = some e)
    (hused : ∀ k, ix.isUsed k = (!decide (k = e) && s.table.indexer.isUsed k)) (hix : ix.Ok)
    (hsize : ix.size = P.tableSize) (hacc : Accounted P ix s.table.txn) :
    Client.Inv P ⟨s.table.removed ix slot e z, s.out⟩ := by
  have hok : Ok P (s.table.calm.removed ix slot e z) := ok_removed hi.ok hlt he hix hsize hused
  have hentry : ∀ k, (s.table.removed ix slot e z).Entry k ↔ s.table.Entry k ∧ k ≠ e := by
    intro k
    refine (exists_removeSlot hlt).trans ⟨?_, ?_⟩
    · rintro ⟨i, hi', hne, hei⟩
      exact ⟨⟨i, hi', hei⟩, index_ne hi.ok hlt he ⟨i, hi', hne, hei⟩⟩
    · rintro ⟨⟨i, hi', hei⟩, hne⟩
      refine ⟨i, hi', ?_, hei⟩
      rintro rfl
      exact hne (Option.some.inj (hei.symm.trans he))
  refine ⟨hok, hacc, hi.one, hi.nodup, hi.reserved_lt, fun b hb hent => ?_, fun k hk => ?_,
    hi.held, hi.count⟩
  · exact hi.reserved_entry b hb ((hentry _).mp hent).1
  · show ix.isUsed k = true ↔ _
    rw [hused, Bool.and_eq_true, hi.used k hk, hentry]
    by_cases hke : k = e
    · have hmem : (e, 1) ∉ s.out := fun hmem =>
        hi.reserved_entry _ hmem ⟨slot, hlt, he⟩
      simp [hke, hmem]
    · simp [hke]

/-- `remove` once the context has its key. -/
theorem removeKey (hi : s.Inv P) (hn : ctx.params.numHandles ≤ 1)
    (hc : s.table.removeKey P ctx = some (ret, p', T')) : Client.Inv P ⟨T', s.out⟩ := by
  have hacc := removeKey_accounted hi.accounted hc
  have hfind := find_post hi.ok ctx
  change FindPost s.table.calm ctx (s.table.db.find s.table.hw ctx) at hfind
  unfold Sltcam.removeKey at hc
  generalize s.table.db.find s.table.hw ctx = r at hc hfind
  cases hfind with
  | notFound slotOf =>
    cases hc
    exact hi
  | @ok slot e lt elem key =>
    change slot < s.table.db.count at lt
    change s.table.db.elems slot = some e at elem
    have hent : s.table.Entry e := ⟨slot, lt, elem⟩
    obtain ⟨hlt, hu⟩ := hi.entry_used hent
    obtain ⟨ix, hloop, hused, hix, hsize⟩ :=
      sltFreeLoop_one_used hi.accounted.ok (hi.accounted.size ▸ hlt) hu
    have hrem : ∀ c : SltCtx K D, c.dbslotValid = true → c.dbslot = slot →
        s.table.db.remove c
          = some ⟨s.table.db.count - 1,
              removeSlot s.table.db.elems slot s.table.db.count none⟩ := by
      rintro c hv rfl
      unfold SltDb.remove
      have : s.table.db.count ≠ 0 := by omega
      rw [if_neg (by simp [hv, this])]
    -- the transaction does not hold the index, so its release changes nothing
    have hrel : ∀ c : SltCtx K D, c.tcamIndexValid = true → c.tcamIndex = e →
        c.params = ctx.params → s.table.txn.release c = some s.table.txn := by
      rintro c hv rfl hpar
      unfold SltTxn.release SltTxn.releaseRet
      rw [hv, hpar, handles_of_le hn, sltFreeLoop_one_unused (hi.entry_not_held hent)]
      split <;> rfl
    have hcall : some (SdkRet.ok, { ctx.params with numHandles := 1 },
        s.table.removed ix slot e (P.clearKey, 0)) = some (ret, p', T') := by
      rw [← hc]
      show _ = ((s.table.db.remove _).bind _)
      rw [hrem _ rfl rfl, Option.bind_some]
      show _ = ((s.table.txn.release _).bind _)
      rw [hrel { ctx with dbslotValid := true, dbslot := slot, tcamIndex := e, tcamIndexValid := true }
        rfl rfl rfl, Option.bind_some]
      show _ = (dealloc ⟨s.table.indexer, s.table.txn, _, _⟩ _).bind _
      rw [dealloc_of_loop rfl hloop, Option.bind_some]
      rfl
    cases hcall
    exact hi.of_removed lt elem hused hix (hsize.trans hi.accounted.size) hacc

/-- **A remove** gives up an entry and leaves the reservations alone. -/
theorem remove (hi : s.Inv P) (hn : p.numHandles ≤ 1) (hc : s.table.remove P p = some (ret, p', T')) :
    Client.Inv P ⟨T', s.out⟩ := by
  unfold Sltcam.remove at hc
  dsimp only at hc
  split at hc
  · split at hc
    · obtain ⟨ctx, hread, hc⟩ := Option.bind_eq_some_iff.mp hc
      have hnum : ctx.copyout.params.numHandles = p.numHandles := by
        unfold Sltcam.read at hread
        split at hread
        · rw [← Option.some.inj hread]
          rfl
        · cases hread
      exact hi.removeKey (hnum ▸ hn) hc
    · exact hi.removeKey hn hc
  · cases hc
    exact hi

/-! ### Runs -/

omit [Zero D] in
/-- Outside a transaction nothing is reserved. -/
theorem out_eq_nil (hi : s.Inv P) (h : s.table.txn.reservedCount = 0) : s.out = [] :=
  eq_nil_of_length_eq_zero (hi.count.symm.trans h)

omit [Zero D] in
/-- A transaction is opened or ended. -/
theorem set_valid (hi : s.Inv P) (h : ¬ s.table.txn.reservedCount ≠ 0) (v : Bool) :
    Client.Inv P
      ⟨{ s.table with txn := { s.table.txn with valid := v, reservedCount := 0 } }, s.out⟩ := by
  refine ⟨hi.ok.set_txn rfl, hi.accounted.less (hi.accounted.toOk.reset h v), hi.one, hi.nodup,
    hi.reserved_lt, hi.reserved_entry, hi.used, hi.held, ?_⟩
  rw [hi.out_eq_nil (not_not.mp h)]
  rfl

omit [Zero D] in
theorem txnStart (hi : s.Inv P) : Client.Inv P ⟨s.table.txnStart.2, s.out⟩ := by
  unfold Sltcam.txnStart SltTxn.start
  split
  · exact hi
  · split
    · exact hi
    · exact hi.set_valid ‹_› true

omit [Zero D] in
theorem txnEnd (hi : s.Inv P) : Client.Inv P ⟨s.table.txnEnd.2, s.out⟩ := by
  unfold Sltcam.txnEnd SltTxn.stop
  split
  · exact hi
  · split
    · exact hi
    · exact hi.set_valid ‹_› false

/-- **A call for one handle keeps the invariant.** -/
theorem step (hi : s.Inv P) {n : Nat} (hn : n ≤ 1) {s' : Client K D}
    (h : Client.Step P s n s') : s'.Inv P := by
  cases h with
  | txnStart => exact hi.txnStart
  | txnEnd => exact hi.txnEnd
  | reserve inTxn null call => exact hi.reserve inTxn null hn call
  | insert inTxn mem handle call => exact hi.insert inTxn mem handle hn call
  | remove inTxn call => exact hi.remove hn call
  | release inTxn mem handle handles call =>
    obtain ⟨T', hc, hi', -⟩ := hi.release inTxn mem handle (handles_of_le hn)
    cases hc.symm.trans call
    exact hi'

theorem of_init (P : SltProps K) : Client.Inv P (⟨Sltcam.init P, []⟩ : Client K D) := by
  have hacc := Accounted.of_init P
  have hfree := (Indexer.init_ok P.tableSize).2.2
  have hnone : ∀ k, ¬ (Sltcam.init P : Sltcam K D).Entry k := by
    rintro k ⟨i, hi, -⟩
    exact Nat.not_lt_zero i hi
  refine ⟨(init_ok P).1.set_txn rfl, hacc, fun b hb => absurd hb not_mem_nil, nodup_nil,
    fun b hb => absurd hb not_mem_nil, fun b hb => absurd hb not_mem_nil,
    fun k hk => ?_, fun k hk => ?_, rfl⟩
  · refine iff_of_false ?_ (not_or.mpr ⟨hnone k, not_mem_nil⟩)
    show ¬ (Indexer.init P.tableSize false).isUsed k = true
    rw [hfree k hk]
    exact Bool.false_ne_true
  · refine iff_of_false ?_ not_mem_nil
    show ¬ (Indexer.init P.tableSize false).isUsed k = true
    rw [hfree k hk]
    exact Bool.false_ne_true

/-- What the invariant says about blocks and entries. -/
theorem apart (hi : s.Inv P) : s.Apart P := by
  refine ⟨?_, fun i hi' j hj he => ?_, fun b hb k hk => ?_, fun b hb k hk => ?_,
    fun k => hi.entry_used, ?_⟩
  · refine hi.nodup.pairwise_of_forall_ne fun a ha b hb hab k hka hkb => hab ?_
    rw [hi.inBlock_iff ha] at hka
    rw [hi.inBlock_iff hb] at hkb
    rw [hi.eq_one ha, hi.eq_one hb, ← hka, ← hkb]
  · exact hi.ok.sorted.inj hi' hj (congrArg _ he)
  · rw [(hi.inBlock_iff hb).mp hk]
    exact hi.reserved_entry b hb
  · rw [(hi.inBlock_iff hb).mp hk]
    exact ⟨hi.reserved_lt b hb, hi.block_used hb⟩
  · have hopen : s.out ≠ [] → s.table.txn.valid = true := by
      intro hne
      by_contra hv
      exact hne (hi.out_eq_nil (hi.accounted.idle (by simpa using hv)))
    obtain ⟨T', hall, hdb, hv, hi'⟩ := hi.releaseAll hopen
    refine ⟨T', hall, hdb, fun k hk => ?_, fun k hk => ?_, fun hval => ?_⟩
    · refine (hi'.used k hk).trans ?_
      rw [or_iff_left not_mem_nil]
      unfold Entry
      rw [hdb]
    · by_contra hu
      exact absurd ((hi'.held k hk).mp (by simpa using hu)) not_mem_nil
    · show T'.txn.stop.1 = .ok
      unfold SltTxn.stop
      rw [hv, hval, show T'.txn.reservedCount = 0 from hi'.count]
      rfl

end Client.Inv

variable [Zero D]

/-- **Reservations of single indexes stay apart** from each other and from the
entries, over every run of transactions, and can all be taken back. -/
theorem Client.Reached.blocks_apart (hr : Client.Reached P (· ≤ 1) s) : s.Apart P := by
  have hi : s.Inv P := by
    refine Reachable.invariant hr (fun s h0 => ?_) fun s s' hi hs => ?_
    · rw [h0]
      exact .of_init P
    · obtain ⟨n, hn, hstep⟩ := hs
      exact hi.step hn hstep
  exact hi.apart

/-- A fresh TCAM in a transaction. -/
def openTcam : Sltcam Nat Nat := (init smallTcam).txnStart.2

/-- The TCAM after reserves of the first `n` indexes. -/
def reservedTcam (n : Nat) : Sltcam Nat Nat :=
  { openTcam with
    indexer := openTcam.indexer.markBlock 0 n
    txn := ⟨true, n, openTcam.txn.indexer.markBlock 0 n⟩ }

theorem Client.reached_open (meets : Nat → Prop) (h0 : meets 0) :
    Client.Reached smallTcam meets (⟨openTcam, []⟩ : Client Nat Nat) :=
  .step (.start rfl) ⟨0, h0, .txnStart⟩

/-- Two reservations of `n` handles each. -/
theorem Client.reached_reserved (ok : Nat → Prop) (h0 : ok 0) {n : Nat} (hn : ok n)
    (hcall1 : openTcam.reserve smallTcam (reserveParams n)
      = some (.ok, ⟨0, 0, null.setPindex 0, n, false⟩, reservedTcam 1))
    (hcall2 : (reservedTcam 1).reserve smallTcam (reserveParams n)
      = some (.ok, ⟨0, 0, null.setPindex 1, n, false⟩, reservedTcam 2)) :
    Client.Reached smallTcam ok (⟨reservedTcam 2, [1, 0].map (·, (reserveParams n).handles)⟩ :
      Client Nat Nat) := by
  have hstep1 := Client.Step.reserve (s := ⟨openTcam, []⟩) rfl rfl hcall1
  have hstep2 := Client.Step.reserve (s := ⟨reservedTcam 1, [(0, (reserveParams n).handles)]⟩)
    rfl rfl hcall2
  exact .step (.step (Client.reached_open _ h0) ⟨n, hn, hstep1⟩) ⟨n, hn, hstep2⟩

/-- Two single reservations. -/
theorem Client.Reached.blocks_apart_single :
    Client.Reached smallTcam (· ≤ 1) (⟨reservedTcam 2, [(1, 1), (0, 1)]⟩ : Client Nat Nat) ∧
      Client.Apart smallTcam (⟨reservedTcam 2, [(1, 1), (0, 1)]⟩ : Client Nat Nat) := by
  have hr := Client.reached_reserved (· ≤ 1) (Nat.zero_le 1) (Nat.le_refl 1) rfl rfl
  exact ⟨hr, hr.blocks_apart⟩

/-- Two reservations of two handles each: their blocks overlap, and the last
index of the second is not allocated. -/
theorem Client.not_apart_twoHandles :
    ∃ s : Client Nat Nat, Client.Reached smallTcam (fun _ => True) s ∧
      s.out = [(1, 2), (0, 2)] ∧ ¬ s.Apart smallTcam := by
  refine ⟨_, Client.reached_reserved _ trivial (n := 2) trivial rfl rfl, rfl, fun h => ?_⟩
  have hapart := (pairwise_cons.mp h.blocks).1 (0, 2) (mem_singleton_self _) 1
  exact hapart (by decide) (by decide)

end Inv

end Sltcam

end NicSw
