/-
`lpm_build_interval_table`: from a sorted route table to the interval table
that the LPM tree is built from.

The source sweeps the routes in order of their start address and keeps a
stack of the ends of the prefixes that are still open.  An element of the
stack carries the interval to emit when the sweep leaves its prefix, and
the data and priority that hold inside it (the fallback).  The model is
the same sweep; a failed `SDK_ASSERT` is `none`.
-/
import NicSw.Lib.Predecessor
import NicSw.Lpm.Prefix

namespace NicSw

open IpPrefix (ipNext_toNat contains_iff contains_of_overlap)

open List BitVec

variable {w : Nat}

/-! ### Data model -/

/-- `route_t`: a prefix, its nexthop and its priority (a numerically lower
value is a higher priority). -/
structure Route (w : Nat) where
  pfx : IpPrefix w
  nhid : BitVec 32
  prio : BitVec 32
  deriving DecidableEq, Repr

/-- `lpm_inode_t`: the key (the `ipaddr`/`port`/`key32` union of the source)
from which `data` holds on. -/
structure LpmInode (w : Nat) where
  key : BitVec w
  data : BitVec 32
  deriving DecidableEq, Repr

/-- `itable_stack_elem_t`: the interval to emit at the end of a prefix, and
the data and priority in force inside the prefix. -/
structure ItableStackElem (w : Nat) where
  interval : LpmInode w
  fallbackData : BitVec 32
  fallbackPrio : BitVec 32
  deriving DecidableEq, Repr

/-- The stack `s`, top first, and the emitted `nodes` of the interval table. -/
structure ItableState (w : Nat) where
  stack : List (ItableStackElem w)
  nodes : List (LpmInode w)
  deriving DecidableEq, Repr

/-- `LPM_NEXTHOP_INVALID`. -/
def lpmNexthopInvalid : BitVec 32 := 0xFFFFFFFF#32

/-- `route_compare_cb`: by address, then by length; `eq` is the source's
`SDK_ASSERT(0)` on two equal prefixes. -/
def routeCompare (r1 r2 : Route w) : Ordering :=
  if r1.pfx.addr < r2.pfx.addr then .lt
  else if r2.pfx.addr < r1.pfx.addr then .gt
  else if r1.pfx.len < r2.pfx.len then .lt
  else if r2.pfx.len < r1.pfx.len then .gt
  else .eq

/-- The `qsort_r` call of `lpm_tree_create`. -/
def qsortRoutes (routes : List (Route w)) : List (Route w) :=
  routes.mergeSort fun r1 r2 => routeCompare r1 r2 != .gt

/-! ### The sweep -/

/-- Pop and emit the elements of the stack that are numerically lower than
`start`. -/
def popLower (start : BitVec w) :
    List (ItableStackElem w) → List (LpmInode w) → List (ItableStackElem w) × List (LpmInode w)
  | [], nodes => ([], nodes)
  | e :: s, nodes =>
    if e.interval.key < start then popLower start s (nodes ++ [e.interval])
    else (e :: s, nodes)

/-- Emit an interval, overwriting the previous one when it starts at the
same address. -/
def emitInterval (nodes : List (LpmInode w)) (n : LpmInode w) : List (LpmInode w) :=
  match nodes.getLast? with
  | some m => if m.key = n.key then nodes.dropLast ++ [n] else nodes ++ [n]
  | none => nodes ++ [n]

/-- The part of the loop body after the priority check, with `t` the top of
the stack: emit the route and open its end. -/
def installRoute (r : Route w) (t : ItableStackElem w) (rest : List (ItableStackElem w))
    (nodes : List (LpmInode w)) : ItableState w :=
  let nodes' := emitInterval nodes ⟨r.pfx.ipLow, r.nhid⟩
  if t.interval.key = r.pfx.ipNext then
    ⟨{ t with fallbackData := r.nhid, fallbackPrio := r.prio } :: rest, nodes'⟩
  else
    ⟨⟨⟨r.pfx.ipNext, t.fallbackData⟩, r.nhid, r.prio⟩ :: t :: rest, nodes'⟩

/-- One round of the loop of `lpm_build_interval_table`. -/
def addRoute (st : ItableState w) (r : Route w) : Option (ItableState w) :=
  let start := r.pfx.ipLow
  let (s, nodes) := popLower start st.stack st.nodes
  match s with
  | [] => none
  | top :: below =>
    -- pop an end that falls on `start`, to be rolled back if the route is shadowed
    match (if top.interval.key = start then below else s) with
    | [] => none
    | t :: rest =>
      if t.fallbackPrio < r.prio then some ⟨s, nodes⟩
      else some (installRoute r t rest nodes)

/-- `lpm_build_interval_table` on sorted routes; `endAddr` is the address of
the sentinel (the all-ones address for IPv4). -/
def lpmBuildIntervalTable (endAddr : BitVec w) (defaultNhid : BitVec 32)
    (routes : List (Route w)) : Option (List (LpmInode w)) := do
  let st ← routes.foldlM addRoute ⟨[⟨⟨endAddr, lpmNexthopInvalid⟩, defaultNhid, 0xFFFFFFFF#32⟩], []⟩
  if st.stack.isEmpty then none
  else some (popLower endAddr st.stack st.nodes).2

/-! ### Emitting -/

variable {nodes : List (LpmInode w)} {n : LpmInode w}

theorem mem_emitInterval {m : LpmInode w} (h : m ∈ emitInterval nodes n) : m = n ∨ m ∈ nodes := by
  unfold emitInterval at h
  split at h
  · split at h
    · rcases mem_append.mp h with h | h
      · exact .inr (dropLast_subset nodes h)
      · exact .inl (mem_singleton.mp h)
    · rcases mem_append.mp h with h | h
      · exact .inr h
      · exact .inl (mem_singleton.mp h)
  · rcases mem_append.mp h with h | h
    · exact .inr h
    · exact .inl (mem_singleton.mp h)

theorem emitInterval_nil (n : LpmInode w) : emitInterval [] n = [n] := rfl

theorem emitInterval_concat (ys : List (LpmInode w)) (m n : LpmInode w) :
    emitInterval (ys ++ [m]) n = if m.key = n.key then ys ++ [n] else ys ++ [m] ++ [n] := by
  simp [emitInterval]

theorem strictlySorted_concat (hs : StrictlySorted (fun n : LpmInode w => n.key.toNat) nodes)
    (hn : ∀ m ∈ nodes, m.key.toNat < n.key.toNat) :
    StrictlySorted (fun n : LpmInode w => n.key.toNat) (nodes ++ [n]) := by
  refine pairwise_append.mpr ⟨hs, pairwise_singleton _ _, ?_⟩
  intro m hm n' hn'
  rw [mem_singleton.mp hn']
  exact hn m hm

theorem strictlySorted_emitInterval (hs : StrictlySorted (fun n : LpmInode w => n.key.toNat) nodes)
    (hn : ∀ m ∈ nodes, m.key.toNat ≤ n.key.toNat) :
    StrictlySorted (fun n : LpmInode w => n.key.toNat) (emitInterval nodes n) := by
  rcases eq_nil_or_concat nodes with rfl | ⟨ys, m, rfl⟩
  · exact pairwise_singleton _ _
  rw [concat_eq_append] at hs hn ⊢
  obtain ⟨hys, -, hlt⟩ := pairwise_append.mp hs
  rw [emitInterval_concat]
  by_cases hm : m.key = n.key
  · rw [if_pos hm]
    refine strictlySorted_concat hys fun x hx => ?_
    rw [← hm]
    exact hlt x hx m (by simp)
  rw [if_neg hm]
  refine strictlySorted_concat hs fun x hx => ?_
  have hmn : m.key.toNat < n.key.toNat :=
    lt_of_le_of_ne (hn m (by simp)) fun he => hm (eq_of_toNat_eq he)
  rcases mem_append.mp hx with hx | hx
  · exact (hlt x hx m (by simp)).trans hmn
  · rw [mem_singleton.mp hx]
    exact hmn

/-! ### The order of the routes -/

/-- `p` starts before `r`, or at the same address and is not longer. -/
def Precedes (p r : Route w) : Prop :=
  p.pfx.ipLow.toNat < r.pfx.ipLow.toNat ∨
    (p.pfx.ipLow.toNat = r.pfx.ipLow.toNat ∧ p.pfx.len ≤ r.pfx.len)

/-- A route that comes later ends inside an earlier one or starts beyond it. -/
theorem Precedes.nested {q r : Route w} (h : Precedes q r) (hq : q.pfx.len ≤ w)
    (hr : r.pfx.len ≤ w) : r.pfx.ipNext.toNat ≤ q.pfx.ipNext.toNat ∨
      q.pfx.ipNext.toNat ≤ r.pfx.ipLow.toNat := by
  rw [ipNext_toNat hq, ipNext_toNat hr]
  by_cases hin : q.pfx.ipLow.toNat + q.pfx.size ≤ r.pfx.ipLow.toNat
  · exact .inr ((min_le_left _ _).trans hin)
  left
  have hlow : q.pfx.ipLow.toNat ≤ r.pfx.ipLow.toNat := by
    obtain h | ⟨h, -⟩ := h <;> omega
  have hqc : q.pfx.contains r.pfx.ipLow := (contains_iff hq _).mpr ⟨hlow, by omega⟩
  have hrc : r.pfx.contains r.pfx.ipLow :=
    (contains_iff hr _).mpr ⟨le_refl _, by have := r.pfx.size_pos; omega⟩
  have hle : q.pfx.len ≤ r.pfx.len := by
    by_contra hgt
    have hback := (contains_of_overlap hq (by omega) hrc hqc).1
    obtain h | ⟨-, h⟩ := h <;> omega
  have hend := (contains_of_overlap hr hle hqc hrc).2
  omega

theorem routeCompare_eq_lt {r1 r2 : Route w} : routeCompare r1 r2 = .lt ↔
    r1.pfx.addr.toNat < r2.pfx.addr.toNat ∨
      (r1.pfx.addr.toNat = r2.pfx.addr.toNat ∧ r1.pfx.len < r2.pfx.len) := by
  unfold routeCompare
  simp only [lt_def]
  split_ifs with h1 h2 h3 h4
  · exact iff_of_true rfl (.inl h1)
  · exact iff_of_false (by decide) (by omega)
  · exact iff_of_true rfl (by omega)
  · exact iff_of_false (by decide) (by omega)
  · exact iff_of_false (by decide) (by omega)

theorem routeCompare_swap (r1 r2 : Route w) : (routeCompare r1 r2).swap = routeCompare r2 r1 := by
  unfold routeCompare
  simp only [lt_def]
  split_ifs <;> first | rfl | omega

theorem routeCompare_ne_gt (r1 r2 : Route w) : (routeCompare r1 r2 != .gt) = true ↔
    r1.pfx.addr.toNat < r2.pfx.addr.toNat ∨
      (r1.pfx.addr.toNat = r2.pfx.addr.toNat ∧ r1.pfx.len ≤ r2.pfx.len) := by
  rw [bne_iff_ne, ne_eq, ← Ordering.swap_eq_lt, routeCompare_swap, routeCompare_eq_lt]
  omega

theorem qsortRoutes_sorted (routes : List (Route w)) :
    (qsortRoutes routes).Pairwise fun r1 r2 => (routeCompare r1 r2 != .gt) = true := by
  apply pairwise_mergeSort
  · intro a b c hab hbc
    rw [routeCompare_ne_gt] at *
    omega
  · intro a b
    rw [Bool.or_eq_true, routeCompare_ne_gt, routeCompare_ne_gt]
    omega

/-- A table of distinct prefixes is sorted strictly by `route_compare_cb`. -/
theorem qsortRoutes_pairwise_lt {routes : List (Route w)}
    (hdistinct : (routes.map Route.pfx).Nodup) :
    (qsortRoutes routes).Pairwise fun r1 r2 => routeCompare r1 r2 = .lt := by
  have hperm : (qsortRoutes routes).Perm routes := mergeSort_perm _ _
  have hnodup := (hperm.map Route.pfx).nodup_iff.mpr hdistinct
  refine ((qsortRoutes_sorted routes).and (pairwise_map.mp hnodup)).imp ?_
  rintro ⟨⟨a1, l1⟩, n1, p1⟩ ⟨⟨a2, l2⟩, n2, p2⟩ ⟨hle, hne⟩
  rw [routeCompare_ne_gt] at hle
  rw [routeCompare_eq_lt]
  dsimp only at hle hne ⊢
  refine hle.imp_right fun ⟨ha, hl⟩ => ⟨ha, lt_of_le_of_ne hl fun hl => hne ?_⟩
  rw [eq_of_toNat_eq ha, hl]

/-- The address of the IPv4 sentinel. -/
def lpmEndAddrV4 : BitVec 32 := 0xFFFFFFFF#32

/-- Three nested routes: `10.1/16` is shadowed by `10/8`, `10.2/16` ties with
it and wins by its length. -/
def nestedRoutes : List (Route 32) :=
  [⟨⟨0x0A000000#32, 8⟩, 1#32, 5#32⟩, ⟨⟨0x0A010000#32, 16⟩, 2#32, 9#32⟩,
    ⟨⟨0x0A020000#32, 16⟩, 3#32, 5#32⟩]

theorem qsortRoutes_nestedRoutes : qsortRoutes nestedRoutes = nestedRoutes :=
  mergeSort_of_pairwise (by decide)

end NicSw
