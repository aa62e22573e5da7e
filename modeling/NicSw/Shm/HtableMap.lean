/-
A table as a map: what lookups return over whole runs of `Create`, `Publish`,
`Delete`, `Find` and writes through the pointers these hand out.
-/
import Mathlib.Data.Set.Card
import NicSw.Lib.Run
import NicSw.Shm.HtableCalls

namespace NicSw.Shm

/-- A call, with the memory that the allocator answers. -/
inductive MapOp
  | create (key : Key) (valLen off : Nat)
  | publish (key : Key) (val : List UInt8) (off : Nat)
  | delete (key : Key)
  | find (key : Key)
  | write (off : Nat) (val : List UInt8)

namespace MapOp

/-- The calls of the code. -/
def run (t : HTable) : MapOp → Option HTable
  | create key valLen off => (Shm.create t key valLen (some off)).map Prod.fst
  | publish key val off => (Shm.publish t key val (some off)).map Prod.fst
  | delete key => (Shm.delete t key).map Prod.fst
  | find key => (Shm.find t key).map Prod.fst
  | write off val => t.modEntry off fun e => { e with value := val }

/-- What the calls are to do. -/
def spec (m : AbsMap) : MapOp → AbsMap
  | create key valLen off => m.create key (List.replicate valLen 0) (some off)
  | publish key val off => m.publish key val (some off)
  | delete key => m.delete key
  | find _ => m
  | write off val => m.write off val

/-- Keys are of a length that the calls accept, the allocator answers unused
memory, and a write stays within the value of an entry that is there. -/
def Legal (t : HTable) : MapOp → Prop
  | create key _ off => validKey key ∧ off ≠ 0 ∧ t.mem off = none
  | publish key _ off => validKey key ∧ off ≠ 0 ∧ t.mem off = none
  | delete key => validKey key
  | find key => validKey key
  | write off val => ∃ e, t.mem off = some e ∧ val.length = e.value.length

/-- The length of a new key fits the signed field `key_len : 10`, and a call that takes a
reference finds room in the counts. -/
def Fits (t : HTable) : MapOp → Prop
  | create key _ _ => Room t ∧ key.length ≤ 511
  | publish key _ _ => Room t ∧ key.length ≤ 511
  | find _ => Room t
  | _ => True

end MapOp

/-- A new table, next to the empty map. -/
def NewTable (p : HTable × AbsMap) : Prop :=
  ∃ size tablets, 1 ≤ size ∧ (∀ i, tablets i ≠ 0) ∧ p = (createTable size tablets, fun _ => none)

/-- A legal call that fits, next to what it is to do. -/
def FittingStep (p q : HTable × AbsMap) : Prop :=
  ∃ op : MapOp, op.Legal p.1 ∧ op.Fits p.1 ∧ op.run p.1 = some q.1 ∧ q.2 = op.spec p.2

variable {t : HTable} {off : Nat} {key : Key} {e : HtEntry} {op : MapOp}
variable {chain : Nat → List Nat} {refs : Nat → Nat} {abs : AbsMap}

/-! ### One call -/

theorem fresh_some (h0 : off ≠ 0) (hfree : t.mem off = none) : Fresh t (some off) := by
  intro x hx
  cases hx
  exact ⟨h0, hfree⟩

/-- **A call does what it is to do.** -/
theorem run_spec (h : TblInv t chain refs abs) (hlegal : op.Legal t) (hfits : op.Fits t) :
    ∃ t' chain' refs', op.run t = some t' ∧ TblInv t' chain' refs' (op.spec abs) := by
  cases op with
  | create key n off =>
    obtain ⟨t', chain', hcall, h'⟩ :=
      create_spec h hfits.1 hlegal.1 hfits.2 (fresh_some hlegal.2.1 hlegal.2.2) n
    exact ⟨t', chain', refs, by simp [MapOp.run, hcall], h'⟩
  | publish key val off =>
    obtain ⟨t', chain', err, hcall, h'⟩ :=
      publish_spec h hfits.1 hlegal.1 hfits.2 (fresh_some hlegal.2.1 hlegal.2.2) val
    exact ⟨t', chain', refs, by simp [MapOp.run, hcall], h'⟩
  | delete key =>
    obtain ⟨t', chain', err, hcall, h'⟩ := delete_spec h hlegal
    exact ⟨t', chain', refs, by simp [MapOp.run, hcall], h'⟩
  | find key =>
    obtain ⟨t', hcall, h'⟩ := find_spec h hfits key
    exact ⟨t', chain, _, by simp [MapOp.run, hcall], h'⟩
  | write off val =>
    obtain ⟨e, he, -⟩ := hlegal
    obtain ⟨t', hcall, h'⟩ := write_spec h he val
    exact ⟨t', chain, refs, hcall, h'⟩

/-! ### The number of entries -/

/-- The keys of the linked entries. -/
def HTable.keyOf (t : HTable) (off : Nat) : Key := ((t.mem off).map HtEntry.key).getD []

theorem keyOf_eq (he : t.mem off = some e) : t.keyOf off = e.key := by
  simp [HTable.keyOf, he]

/-- **`num_entries`** counts the present keys. -/
theorem TblInv.ncard_keys (h : TblInv t chain refs abs) :
    t.numEntries = ({key | (abs key).isSome} : Set Key).ncard := by
  let linked := (Finset.range t.numBuckets).biUnion fun i => (chain i).toFinset
  have hmem : ∀ x, x ∈ linked ↔ Linked chain x := by
    intro x
    simp only [linked, Finset.mem_biUnion, Finset.mem_range, List.mem_toFinset]
    exact ⟨fun ⟨i, _, hi⟩ => ⟨i, hi⟩, fun ⟨i, hi⟩ => ⟨i, h.bucket_lt hi, hi⟩⟩
  have hcard : linked.card = ∑ i ∈ Finset.range t.numBuckets, (chain i).length := by
    rw [Finset.card_biUnion]
    · exact Finset.sum_congr rfl fun i _ => List.toFinset_card_of_nodup (h.nodup i)
    · intro i _ j _ hij
      refine Finset.disjoint_left.mpr fun x hi hj => ?_
      exact hij (h.chain_unique (List.mem_toFinset.mp hi) (List.mem_toFinset.mp hj))
  have hlive : ∀ x, Linked chain x → ∃ e, t.mem x = some e := by
    rintro x ⟨i, hi⟩
    obtain ⟨e, he, -⟩ := h.linked i x hi
    exact ⟨e, he⟩
  have hinj : Set.InjOn t.keyOf linked := by
    intro x hx y hy hkey
    obtain ⟨e, he⟩ := hlive x ((hmem x).mp hx)
    obtain ⟨e', he'⟩ := hlive y ((hmem y).mp hy)
    rw [keyOf_eq he, keyOf_eq he'] at hkey
    exact h.unique ((hmem x).mp hx) ((hmem y).mp hy) he he' hkey
  have hkeys : ({key | (abs key).isSome} : Set Key) = linked.image t.keyOf := by
    ext key
    simp only [Set.mem_ofPred_eq, Finset.coe_image, Set.mem_image, Finset.mem_coe, hmem]
    constructor
    · intro hkey
      obtain ⟨⟨off, v⟩, habs⟩ := Option.isSome_iff_exists.mp hkey
      obtain ⟨hl, e, he, rfl, -⟩ := h.of_abs habs
      exact ⟨off, hl, keyOf_eq he⟩
    · rintro ⟨off, hl, rfl⟩
      obtain ⟨e, he⟩ := hlive off hl
      rw [keyOf_eq he, h.abs_eq hl he]
      rfl
  rw [hkeys, Set.ncard_coe_finset, Finset.card_image_of_injOn hinj, hcard]
  exact h.numEntries

/-! ### Runs -/

/-- The table agrees with the map. -/
def Agrees (p : HTable × AbsMap) : Prop := ∃ chain refs, TblInv p.1 chain refs p.2

theorem agrees_run {p : HTable × AbsMap} (h : Reachable NewTable FittingStep p) : Agrees p := by
  refine h.invariant ?_ ?_
  · rintro p ⟨size, tablets, hsize, htablets, rfl⟩
    exact ⟨_, _, createTable_inv hsize htablets⟩
  rintro ⟨t, abs⟩ ⟨t', abs'⟩ ⟨chain, refs, h⟩ ⟨op, hlegal, hfits, hrun, habs⟩
  obtain ⟨t1, chain', refs', hrun', h'⟩ := run_spec h hlegal hfits
  cases hrun'.symm.trans hrun
  exact ⟨chain', refs', habs ▸ h'⟩

/-- **A table is a map.**  In every run of fitting calls a lookup finds the entry that
the map has for the key, with its value, the number of entries is the number of
present keys, and no call fails. -/
theorem table_is_map {t : HTable} {m : AbsMap} (h : Reachable NewTable FittingStep (t, m)) :
    (Room t → ∀ key, ∃ t', find t key = some (t', (m key).map Prod.fst) ∧
      ∀ off val, m key = some (off, val) → ∃ e, t'.mem off = some e ∧ e.key = key ∧ e.value = val) ∧
    t.numEntries = ({key | (m key).isSome} : Set Key).ncard ∧
    ∀ op : MapOp, op.Legal t → op.Fits t → (op.run t).isSome := by
  obtain ⟨chain, refs, h⟩ := agrees_run h
  refine ⟨fun hroom key => ?_, h.ncard_keys, fun op hlegal hfits => ?_⟩
  · obtain ⟨t', hfind, h'⟩ := find_spec h hroom key
    exact ⟨t', hfind, fun off val habs => (h'.of_abs habs).2⟩
  · obtain ⟨t', -, -, hrun, -⟩ := run_spec h hlegal hfits
    rw [hrun]
    rfl

/-- A value is published while no reference is out. -/
theorem publish_step {m : AbsMap} (key : Key) (hreach : Reachable NewTable FittingStep (t, m))
    (h : TblInv t chain (fun _ => 0) m) (hkey : validKey key) (hlen : key.length ≤ 511)
    (h0 : off ≠ 0) (hfree : t.mem off = none) (val : List UInt8) :
    ∃ t' chain', (publish t key val (some off)).map Prod.fst = some t' ∧
      Reachable NewTable FittingStep (t', m.publish key val (some off)) ∧
      TblInv t' chain' (fun _ => 0) (m.publish key val (some off)) := by
  have hroom : Room t := h.room fun _ => by decide
  obtain ⟨t', chain', err, hcall, h'⟩ :=
    publish_spec h hroom hkey hlen (fresh_some h0 hfree) val
  have hrun : (publish t key val (some off)).map Prod.fst = some t' := by rw [hcall]; rfl
  exact ⟨t', chain', hrun, hreach.step ⟨.publish key val off, ⟨hkey, h0, hfree⟩, ⟨hroom, hlen⟩,
    hrun, rfl⟩, h'⟩

/-- Two keys in one chain, and one of them published again. -/
theorem table_is_map_published :
    ∃ t m, Reachable NewTable FittingStep (t, m) ∧ t.numEntries = 2 ∧
      (∃ t', find t [7] = some (t', some 3)) ∧ ∃ t', find t [8] = some (t', some 2) := by
  have hcheck : ((publish (createTable 1 fun _ => 1) [7] [1, 2] (some 1)).map Prod.fst).any
      fun t => (t.mem 2).isNone && ((publish t [8] [3] (some 2)).map Prod.fst).any fun t =>
        (t.mem 3).isNone && ((publish t [7] [5] (some 3)).map Prod.fst).any fun t =>
          t.numEntries == 2 := by decide +kernel
  obtain ⟨t1, hrun1, hcheck⟩ := (Option.any_eq_true _ _).mp hcheck
  obtain ⟨hfree1, hcheck⟩ := (Bool.and_eq_true ..).mp hcheck
  obtain ⟨t2, hrun2, hcheck⟩ := (Option.any_eq_true _ _).mp hcheck
  obtain ⟨hfree2, hcheck⟩ := (Bool.and_eq_true ..).mp hcheck
  obtain ⟨t3, hrun3, hcheck⟩ := (Option.any_eq_true _ _).mp hcheck
  obtain ⟨_, _, hrun, hr1, h1⟩ := publish_step [7]
    (.start ⟨1, fun _ => 1, le_rfl, fun _ => one_ne_zero, rfl⟩)
    (createTable_inv (le_refl 1) fun _ => one_ne_zero) (by decide) (by decide)
    one_ne_zero rfl [1, 2]
  cases hrun1.symm.trans hrun
  obtain ⟨_, _, hrun, hr2, h2⟩ := publish_step [8] hr1 h1 (by decide) (by decide)
    two_ne_zero (Option.isNone_iff_eq_none.mp hfree1) [3]
  cases hrun2.symm.trans hrun
  obtain ⟨_, _, hrun, hr3, h3⟩ := publish_step [7] hr2 h2 (by decide) (by decide)
    three_ne_zero (Option.isNone_iff_eq_none.mp hfree2) [5]
  cases hrun3.symm.trans hrun
  have hmap := (table_is_map hr3).1 (h3.room fun _ => by decide)
  obtain ⟨t7, hfind7, -⟩ := hmap [7]
  obtain ⟨t8, hfind8, -⟩ := hmap [8]
  exact ⟨t3, _, hr3, eq_of_beq hcheck, ⟨t7, hfind7⟩, ⟨t8, hfind8⟩⟩

/-- A key of 1024 bytes is kept with the length 0: the entry that `Create` returns
is not found. -/
theorem create_long_key_not_found :
    (MapOp.create (List.replicate 1024 7) 8 1).Legal (createTable 1 fun _ => 1) ∧
    ((MapOp.create (List.replicate 1024 7) 8 1).spec (fun _ => none)
      (List.replicate 1024 7)).isSome ∧
    ((MapOp.create (List.replicate 1024 7) 8 1).run (createTable 1 fun _ => 1)).bind
      (fun t => (find t (List.replicate 1024 7)).map Prod.snd) = some none := by
  refine ⟨⟨?_, one_ne_zero, rfl⟩, ?_, by decide +kernel⟩
  · rw [validKey, List.length_replicate]
    decide
  · rw [MapOp.spec, AbsMap.create_new rfl, Function.update_self]
    rfl

end NicSw.Shm
