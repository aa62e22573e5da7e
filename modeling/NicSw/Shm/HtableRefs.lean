/-
The reference counts of a table over whole runs of its calls, with the holds
that callers have and the iterators that stand on entries.
-/
import NicSw.Lib.Run
import NicSw.Shm.HtableCalls

namespace NicSw.Shm

/-! ### Callers -/

/-- A table with the holds taken and not released, and the iterators. -/
structure Sys where
  tbl : HTable
  holds : List Nat
  iters : List (Option Nat)

/-- A call; a creating call has the allocator's answer. -/
inductive RefOp
  | create (key : Key) (valLen : Nat) (mem : Option Nat)
  | createDpstats (key : Key) (addr : UInt64) (valLen : Nat) (mem : Option Nat)
  | publish (key : Key) (val : List UInt8) (mem : Option Nat)
  | find (key : Key)
  | findDpstats (key : Key)
  /-- `Acquire`, `AcquireValue` -/
  | acquire (off : Nat)
  | release (off : Nat)
  | delete (key : Key)
  /-- `Iterator` -/
  | iterator
  /-- `Next` of one of the iterators -/
  | next (i : Nat)

/-- One call. -/
def Sys.call (s : Sys) : RefOp → Option Sys
  | .create key valLen mem => do
      let (t, _) ← create s.tbl key valLen mem
      some { s with tbl := t }
  | .createDpstats key addr valLen mem => do
      let (t, _) ← createDpstats s.tbl key addr valLen mem
      some { s with tbl := t }
  | .publish key val mem => do
      let (t, _) ← publish s.tbl key val mem
      some { s with tbl := t }
  | .find key => do
      let (t, r) ← find s.tbl key
      some { s with tbl := t, holds := r.toList ++ s.holds }
  | .findDpstats key => do
      let (t, _) ← findDpstats s.tbl key
      some { s with tbl := t }
  | .acquire off => do
      let t ← s.tbl.acquire off
      some { s with tbl := t, holds := off :: s.holds }
  | .release off => do
      let t ← s.tbl.release off
      some { s with tbl := t, holds := s.holds.erase off }
  | .delete key => do
      let (t, _) ← delete s.tbl key
      some { s with tbl := t }
  | .iterator => do
      let (t, r) ← getNext s.tbl none
      some { s with tbl := t, iters := r :: s.iters }
  | .next i => do
      let entry ← s.iters[i]?
      let (t, r) ← getNext s.tbl entry
      some { s with tbl := t, iters := s.iters.set i r }

/-- The entry is in the chain of a bucket. -/
def HTable.InBucket (t : HTable) (off : Nat) : Prop :=
  off ≠ 0 ∧ ∃ i < t.numBuckets, ∃ n, t.next^[n] (t.head i) = off

/-- The holds on an entry and the iterators that stand on it. -/
def Sys.held (s : Sys) (off : Nat) : Nat := s.holds.count off + s.iters.count (some off)

/-- The allocator answers unused memory, holds are taken on entries that are
there, released only if taken, and iterators are stepped that exist. -/
def RefOp.Legal (s : Sys) : RefOp → Prop
  | .create _ _ mem => Fresh s.tbl mem
  | .createDpstats _ _ _ mem => Fresh s.tbl mem
  | .publish _ _ mem => Fresh s.tbl mem
  | .acquire off => (s.tbl.mem off).isSome
  | .release off => off ∈ s.holds
  | .next i => i < s.iters.length
  | _ => True

/-- Where the calls count right: a call that takes a reference finds room in the
counts, new keys fit the field `key_len` and addresses of dpstats are aligned,
`FindDpstats` asks for absent keys, an iterator on an entry is stepped only while the
table has entries, and in a table of two levels only from an entry whose bucket number
is below the number of tablets. -/
def RefOp.Safe (s : Sys) : RefOp → Prop
  | .create key _ _ => Room s.tbl ∧ key.length ≤ 511
  | .createDpstats key addr _ _ => Room s.tbl ∧ key.length ≤ 511 ∧ addr &&& 7 = 0
  | .publish key _ _ => Room s.tbl ∧ key.length ≤ 511
  | .find _ => Room s.tbl
  | .findDpstats key => ∀ off e, s.tbl.mem off = some e → e.key = key → ¬ s.tbl.InBucket off
  | .acquire _ => Room s.tbl
  | .iterator => Room s.tbl
  | .next i => Room s.tbl ∧ ∀ off, s.iters[i]? = some (some off) → s.tbl.numEntries ≠ 0 ∧
      ∀ e, s.tbl.mem off = some e → s.tbl.twoLevel → s.tbl.idx e.key < s.tbl.numTablets
  | _ => True

def NewSys (s : Sys) : Prop :=
  ∃ size tablets, 1 ≤ size ∧ (∀ i, tablets i ≠ 0) ∧ s = ⟨createTable size tablets, [], []⟩

def SafeCall (s s' : Sys) : Prop := ∃ op : RefOp, op.Legal s ∧ op.Safe s ∧ s.call op = some s'

variable {s s' : Sys} {t t' : HTable} {off i : Nat} {op : RefOp} {key : Key} {e : HtEntry}
variable {chain : Nat → List Nat} {refs : Nat → Nat} {abs : AbsMap}

/-! ### One call -/

theorem TblInv.inBucket_iff (h : TblInv t chain refs abs) : t.InBucket off ↔ Linked chain off := by
  have h0 : t.next 0 = 0 := by
    rcases hm : t.mem 0 with - | e
    · simp [HTable.next, hm]
    · exact absurd rfl (h.entry 0 e hm).1
  constructor
  · rintro ⟨hne, i, hi, hn⟩
    exact ⟨i, ((h.chains i hi).mem_iff h0).mpr ⟨hne, hn⟩⟩
  · rintro ⟨i, hoff⟩
    have hi := h.bucket_lt hoff
    obtain ⟨hne, hn⟩ := ((h.chains i hi).mem_iff h0).mp hoff
    exact ⟨hne, i, hi, hn⟩

/-- The references handed out are the holds and the iterators. -/
def Counted (s : Sys) : Prop := ∃ chain abs, TblInv s.tbl chain s.held abs

/-- A call that leaves the references as they were. -/
theorem Counted.of_same (h : TblInv t' chain s.held abs) : Counted { s with tbl := t' } :=
  ⟨chain, abs, h⟩

section

variable (s : Sys) (t : HTable)

theorem held_find (r : Option Nat) :
    Sys.held { s with tbl := t, holds := r.toList ++ s.holds } = addRef s.held r := by
  funext x
  rcases r with - | off
  · simp [Sys.held, addRef]
  · simp only [Sys.held, addRef, Option.toList_some, List.singleton_append, List.count_cons,
      beq_iff_eq, Option.some.injEq]
    omega

theorem held_release (hoff : off ∈ s.holds) :
    Sys.held { s with tbl := t, holds := s.holds.erase off } =
      Function.update s.held off (s.held off - 1) := by
  have hpos := List.count_pos_iff.mpr hoff
  funext x
  rcases eq_or_ne x off with rfl | hx
  · simp only [Sys.held, Function.update_self, List.count_erase_self]
    omega
  · simp only [Sys.held, Function.update_of_ne hx, List.count_erase_of_ne hx]

theorem held_iterator (r : Option Nat) :
    Sys.held { s with tbl := t, iters := r :: s.iters } = addRef s.held r := by
  funext x
  simp only [Sys.held, addRef, List.count_cons, beq_iff_eq]
  omega

theorem held_next {entry : Option Nat} (hi : s.iters[i]? = some entry) (r : Option Nat) :
    Sys.held { s with tbl := t, iters := s.iters.set i r } =
      addRef (fun x => s.held x - if entry = some x then 1 else 0) r := by
  obtain ⟨hlt, hget⟩ := List.getElem?_eq_some_iff.mp hi
  funext x
  have hpos : entry = some x → 0 < s.iters.count (some x) := fun hx =>
    List.count_pos_iff.mpr (hx ▸ hget ▸ List.getElem_mem hlt)
  simp only [Sys.held, addRef, List.count_set hlt, hget, beq_iff_eq]
  by_cases hx : entry = some x
  · have := hpos hx
    rw [if_pos hx]
    omega
  · rw [if_neg hx]
    omega

end

/-- **Safe calls count right**, and do not fail. -/
theorem call_spec (h : Counted s) (hlegal : op.Legal s) (hsafe : op.Safe s) :
    ∃ s', s.call op = some s' ∧ Counted s' := by
  obtain ⟨chain, abs, h⟩ := h
  cases op with
  | create key n mem =>
    by_cases hkey : validKey key
    · obtain ⟨t', chain', hcall, h'⟩ := create_spec h hsafe.1 hkey hsafe.2 hlegal n
      exact ⟨_, by simp [Sys.call, hcall], .of_same h'⟩
    · exact ⟨s, by simp [Sys.call, create, findOrMake, hkey], chain, abs, h⟩
  | createDpstats key addr n mem =>
    by_cases hkey : validKey key
    · obtain ⟨t', chain', hcall, h'⟩ := createDpstats_spec h hsafe.1 hkey hsafe.2.1 hlegal
        hsafe.2.2 n
      exact ⟨_, by simp [Sys.call, hcall], .of_same h'⟩
    · exact ⟨s, by simp [Sys.call, createDpstats, findOrMake, hkey], chain, abs, h⟩
  | publish key val mem =>
    by_cases hkey : validKey key
    · obtain ⟨t', chain', err, hcall, h'⟩ := publish_spec h hsafe.1 hkey hsafe.2 hlegal val
      exact ⟨_, by simp [Sys.call, hcall], .of_same h'⟩
    · exact ⟨s, by simp [Sys.call, publish, hkey], chain, abs, h⟩
  | find key =>
    obtain ⟨t', hcall, h'⟩ := find_spec h hsafe key
    rw [← held_find s t'] at h'
    exact ⟨{ s with tbl := t', holds := ((abs key).map Prod.fst).toList ++ s.holds },
      by simp [Sys.call, hcall], chain, abs, h'⟩
  | findDpstats key =>
    by_cases hkey : validKey key
    · have habs : abs key = none := by
        by_contra hne
        obtain ⟨⟨off, v⟩, habs⟩ := Option.ne_none_iff_exists'.mp hne
        obtain ⟨hl, e, he, hk, -⟩ := h.of_abs habs
        exact hsafe off e he hk (h.inBucket_iff.mpr hl)
      refine ⟨s, ?_, chain, abs, h⟩
      simp [Sys.call, findDpstats, hkey, findEntry_none h habs]
    · exact ⟨s, by simp [Sys.call, findDpstats, hkey], chain, abs, h⟩
  | acquire off =>
    obtain ⟨e, he⟩ := Option.isSome_iff_exists.mp hlegal
    obtain ⟨t', hcall, -, h'⟩ := acquire_spec h hsafe he
    rw [← addRef_some, ← held_find s t'] at h'
    exact ⟨{ s with tbl := t', holds := off :: s.holds }, by simp [Sys.call, hcall], chain, abs, h'⟩
  | release off =>
    have hr : 1 ≤ s.held off := Nat.le_add_right_of_le (List.count_pos_iff.mpr hlegal)
    obtain ⟨t', hcall, -, -, h'⟩ := release_spec h hr
    rw [← held_release s t' hlegal] at h'
    exact ⟨{ s with tbl := t', holds := s.holds.erase off }, by simp [Sys.call, hcall], chain, abs,
      h'⟩
  | delete key =>
    by_cases hkey : validKey key
    · obtain ⟨t', chain', err, hcall, h'⟩ := delete_spec h hkey
      exact ⟨_, by simp [Sys.call, hcall], .of_same h'⟩
    · exact ⟨s, by simp [Sys.call, delete, hkey], chain, abs, h⟩
  | iterator =>
    obtain ⟨t', r, hcall, h'⟩ := getNext_none_spec h hsafe
    rw [← held_iterator s t'] at h'
    exact ⟨{ s with tbl := t', iters := r :: s.iters }, by simp [Sys.call, hcall], chain, abs, h'⟩
  | next i =>
    have hlt : i < s.iters.length := hlegal
    obtain ⟨entry, hi⟩ : ∃ entry, s.iters[i]? = some entry := ⟨_, List.getElem?_eq_getElem hlt⟩
    rcases entry with - | off
    · obtain ⟨t', r, hcall, h'⟩ := getNext_none_spec h hsafe.1
      refine ⟨{ s with tbl := t', iters := s.iters.set i r }, by simp [Sys.call, hi, hcall], chain,
        abs, ?_⟩
      rw [held_next s t' hi]
      simpa using h'
    · have hr : 1 ≤ s.held off := Nat.le_add_left_of_le
        (List.count_pos_iff.mpr (List.mem_of_getElem? hi))
      obtain ⟨hn, hidx⟩ := hsafe.2 off hi
      obtain ⟨t', r, hcall, h'⟩ := getNext_spec h hsafe.1 hr hn hidx
      refine ⟨{ s with tbl := t', iters := s.iters.set i r }, by simp [Sys.call, hi, hcall], chain,
        abs, ?_⟩
      rw [held_next s t' hi]
      convert h' using 2
      funext x
      rcases eq_or_ne x off with rfl | hx
      · simp
      · simp [hx, hx.symm]

/-! ### Runs -/

theorem counted_run (h : Reachable NewSys SafeCall s) : Counted s := by
  refine h.invariant ?_ ?_
  · rintro s ⟨size, tablets, hsize, htablets, rfl⟩
    exact ⟨_, _, createTable_inv hsize htablets⟩
  · rintro s s' h ⟨op, hlegal, hsafe, hcall⟩
    obtain ⟨s1, hcall', h'⟩ := call_spec h hlegal hsafe
    cases hcall'.symm.trans hcall
    exact h'

/-- **Reference counts are exact.**  In every run of safe calls the count of an
entry is the number of holds on it and of iterators that stand on it, plus one
while it is linked; an entry is there while it is linked or held, and no longer;
and no call fails, so that nothing is freed twice or used after it is freed. -/
theorem refcnt_exact (h : Reachable NewSys SafeCall s) :
    (∀ off e, s.tbl.mem off = some e →
      (s.tbl.InBucket off → e.refcnt = s.held off + 1) ∧
        (¬ s.tbl.InBucket off → e.refcnt = s.held off)) ∧
    (∀ off, (s.tbl.mem off).isSome ↔ s.tbl.InBucket off ∨ 0 < s.held off) ∧
    ∀ op : RefOp, op.Legal s → op.Safe s → (s.call op).isSome := by
  obtain ⟨chain, abs, h⟩ := counted_run h
  refine ⟨fun off e he => ?_, fun off => ?_, fun op hlegal hsafe => ?_⟩
  · have hok := (h.entry off e he).2
    rw [h.inBucket_iff]
    exact ⟨hok.counted, fun hl => (hok.unlinked hl).1⟩
  · rw [h.inBucket_iff, Option.isSome_iff_exists]
    constructor
    · rintro ⟨e, he⟩
      by_cases hl : Linked chain off
      · exact .inl hl
      · exact .inr ((h.entry off e he).2.unlinked hl).2.1
    · rintro (⟨i, hi⟩ | hr)
      · obtain ⟨e, he, -⟩ := h.linked i off hi
        exact ⟨e, he⟩
      · exact h.live_of_refs hr
  · obtain ⟨s', hcall, -⟩ := call_spec ⟨chain, abs, h⟩ hlegal hsafe
    rw [hcall]
    rfl

/-- A created and found entry has two references: the link and the caller's. -/
theorem refcnt_exact_found :
    ∃ s, Reachable NewSys SafeCall s ∧ s.holds = [1] ∧
      ∀ e, s.tbl.mem 1 = some e → s.tbl.InBucket 1 → e.refcnt = 2 := by
  have hfresh : Fresh (createTable 1 fun _ => 1) (some 1) := fun off hoff =>
    ⟨Option.some.inj hoff ▸ one_ne_zero, rfl⟩
  have hkey : validKey [7] := by decide
  have h0 := createTable_inv (le_refl 1) fun _ => one_ne_zero
  have hroom0 := h0.room fun _ => by decide
  obtain ⟨t1, chain, hcreate, h1⟩ := create_spec h0 hroom0 hkey (by decide) hfresh 2
  have hroom1 := h1.room fun _ => by decide
  obtain ⟨t2, hfind, -⟩ := find_spec h1 hroom1 [7]
  have hreach : Reachable NewSys SafeCall ⟨t2, [1], []⟩ := by
    refine Reachable.step (s := ⟨t1, [], []⟩) (Reachable.step (s := ⟨createTable 1 _, [], []⟩)
      (.start ⟨1, _, le_rfl, fun _ => one_ne_zero, rfl⟩) ?_) ?_
    · exact ⟨.create [7] 2 (some 1), hfresh, ⟨hroom0, by decide⟩, by simp [Sys.call, hcreate]⟩
    · exact ⟨.find [7], trivial, hroom1, by rw [Sys.call, hfind]; rfl⟩
  exact ⟨_, hreach, rfl, fun e he hb => ((refcnt_exact hreach).1 1 e he).1 hb⟩

/-- `FindDpstats` keeps the reference that its lookup takes, and returns nothing
that could be released: the entry of a deleted key stays, with one reference
that nobody has. -/
theorem findDpstats_leaves_hold :
    (RefOp.createDpstats [7] 64 8 (some 1)).Legal ⟨createTable 1 fun _ => 1, [], []⟩ ∧
    (do
      let s ← Sys.call ⟨createTable 1 fun _ => 1, [], []⟩ (.createDpstats [7] 64 8 (some 1))
      let s ← s.call (.findDpstats [7])
      let s ← s.call (.delete [7])
      some (s.holds, s.iters, s.tbl.buckets 0, (s.tbl.mem 1).map HtEntry.refcnt)) =
        some ([], [], 0, some 1) :=
  ⟨fun off hoff => ⟨Option.some.inj hoff ▸ one_ne_zero, rfl⟩, by decide +kernel⟩

end NicSw.Shm
