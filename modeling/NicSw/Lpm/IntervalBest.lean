/-
What the interval table answers.

When the sweep completes, the predecessor lookup in the emitted table answers,
below the all-ones address, the best route that contains the probe.  "Best" is
the smallest priority value, then the longest prefix.

Proof.  `fallbackAt rs a` is what the processed routes `rs` leave at
address `a`.  `Sweep` is the invariant: the fallback of each open end is
`fallbackAt` on the stretch below it, the interval of each restores the fallback
of the next one (`StackOk`), and the emitted nodes already answer `fallbackAt`
for every address below the top of the stack.
-/
import Mathlib.Data.List.Induction
import NicSw.Lpm.IntervalSafe

namespace NicSw

open IpPrefix (ipNext_toNat contains_iff contains_of_overlap)

open List BitVec

variable {w : Nat}

/-! ### Specification -/

/-- The interval table as a map from addresses, by predecessor search. -/
def itableLookup (dflt : BitVec 32) (nodes : List (LpmInode w)) (a : BitVec w) : BitVec 32 :=
  predLookup (fun n : LpmInode w => n.key.toNat) LpmInode.data dflt nodes a.toNat

/-- `r` is the best route of the table for `a`: it contains `a`, and every
route that does has a larger priority value, or the same one and a prefix
that is not longer. -/
def BestRoute (routes : List (Route w)) (a : BitVec w) (r : Route w) : Prop :=
  r ∈ routes ∧ r.pfx.contains a ∧
    ∀ r' ∈ routes, r'.pfx.contains a →
      r.prio < r'.prio ∨ (r.prio = r'.prio ∧ r'.pfx.len ≤ r.pfx.len)

/-- What the routes say at `a`: the nexthop of the best route, and `dflt`
when no route contains `a`. -/
def RoutesTo (dflt : BitVec 32) (routes : List (Route w)) (a : BitVec w) (d : BitVec 32) :
    Prop :=
  (∃ r, BestRoute routes a r ∧ d = r.nhid) ∨ ((∀ r ∈ routes, ¬ r.pfx.contains a) ∧ d = dflt)

/-- What an interval table says at `a`: the data of the greatest key that is
at most `a`, and `dflt` when there is none. -/
def GreatestKeyData (dflt : BitVec 32) (nodes : List (LpmInode w)) (a : BitVec w)
    (d : BitVec 32) : Prop :=
  (∃ n ∈ nodes, n.key ≤ a ∧ (∀ m ∈ nodes, m.key ≤ a → m.key ≤ n.key) ∧ d = n.data) ∨
    ((∀ n ∈ nodes, a < n.key) ∧ d = dflt)

/-- Data and priority that the routes `rs`, taken in table order, leave at
address `a`. -/
def fallbackAt (dflt : BitVec 32) (rs : List (Route w)) (a : BitVec w) :
    BitVec 32 × BitVec 32 :=
  rs.foldl (fun best r =>
    if r.pfx.contains a ∧ ¬ best.2 < r.prio then (r.nhid, r.prio) else best)
    (dflt, 0xFFFFFFFF#32)

theorem fallbackAt_concat (dflt : BitVec 32) (rs : List (Route w)) (r : Route w) (a : BitVec w) :
    fallbackAt dflt (rs ++ [r]) a
      = if r.pfx.contains a ∧ ¬ (fallbackAt dflt rs a).2 < r.prio then (r.nhid, r.prio)
        else fallbackAt dflt rs a := by
  unfold fallbackAt
  rw [foldl_append]
  rfl

section

variable (dflt : BitVec 32) (nodes : List (LpmInode w)) (n : LpmInode w) (a : BitVec w)

theorem itableLookup_concat :
    itableLookup dflt (nodes ++ [n]) a
      = if n.key.toNat ≤ a.toNat then n.data else itableLookup dflt nodes a := by
  simp [itableLookup]

/-- Overwriting an interval that starts at the same address loses nothing. -/
theorem itableLookup_emitInterval :
    itableLookup dflt (emitInterval nodes n) a
      = if n.key.toNat ≤ a.toNat then n.data else itableLookup dflt nodes a := by
  rcases eq_nil_or_concat nodes with rfl | ⟨ys, m, rfl⟩
  · rw [emitInterval_nil, ← nil_append [n], itableLookup_concat]
  · rw [concat_eq_append, emitInterval_concat]
    by_cases hm : m.key = n.key
    · rw [if_pos hm, itableLookup_concat, itableLookup_concat, hm]
      split <;> rfl
    · rw [if_neg hm, itableLookup_concat]

end

/-! ### The open ends -/

/-- The fallback of `e` is what `best` says from `lo` to the end `e`. -/
def Covers (best : BitVec w → BitVec 32 × BitVec 32) (lo : Nat) (e : ItableStackElem w) :
    Prop :=
  ∀ a : BitVec w, lo ≤ a.toNat → a.toNat < e.interval.key.toNat →
    best a = (e.fallbackData, e.fallbackPrio)

/-- The stack, from position `lo` on: increasing ends down to the sentinel,
each covering the stretch above it, and each restoring the fallback of the
one below. -/
inductive StackOk (best : BitVec w → BitVec 32 × BitVec 32) (endAddr : BitVec w) :
    Nat → List (ItableStackElem w) → Prop
  | last {lo e} : lo ≤ e.interval.key.toNat → Covers best lo e →
      e.interval.key = endAddr → StackOk best endAddr lo [e]
  | push {lo e f s} : lo ≤ e.interval.key.toNat → Covers best lo e →
      e.interval.key.toNat < f.interval.key.toNat →
      e.interval.data = f.fallbackData →
      StackOk best endAddr e.interval.key.toNat (f :: s) →
      StackOk best endAddr lo (e :: f :: s)

namespace StackOk

variable {best best' : BitVec w → BitVec 32 × BitVec 32} {endAddr : BitVec w}
variable {lo lo' : Nat} {e : ItableStackElem w} {s : List (ItableStackElem w)}

section

variable (h : StackOk best endAddr lo (e :: s))
include h

theorem le_head : lo ≤ e.interval.key.toNat := by
  cases h with
  | last h _ _ => exact h
  | push h _ _ _ _ => exact h

theorem covers_head : Covers best lo e := by
  cases h with
  | last _ h _ => exact h
  | push _ h _ _ _ => exact h

/-- Every end is at or below the sentinel. -/
theorem head_le_end : e.interval.key.toNat ≤ endAddr.toNat := by
  induction s generalizing lo e with
  | nil =>
    cases h with
    | last _ _ he => rw [he]
  | cons f s ih =>
    cases h with
    | push _ _ hlt _ hrest => exact hlt.le.trans (ih hrest)

/-- The sweep position may advance up to the first end. -/
theorem raise (hlo : lo ≤ lo')
    (hle : lo' ≤ e.interval.key.toNat) : StackOk best endAddr lo' (e :: s) := by
  have hcov : Covers best lo' e := fun a ha => h.covers_head a (hlo.trans ha)
  cases h with
  | last _ _ he => exact .last hle hcov he
  | push _ _ hlt hd hrest => exact .push hle hcov hlt hd hrest

end

/-- Only what `best` says between the position and the sentinel matters. -/
theorem congr (h : StackOk best endAddr lo s)
    (hb : ∀ a : BitVec w, lo ≤ a.toNat → a.toNat < endAddr.toNat → best' a = best a) :
    StackOk best' endAddr lo s := by
  have hcov : ∀ {lo e s}, StackOk best endAddr lo (e :: s) →
      (∀ a : BitVec w, lo ≤ a.toNat → a.toNat < endAddr.toNat → best' a = best a) →
      Covers best' lo e := by
    intro lo e s h hb a ha hae
    rw [hb a ha (lt_of_lt_of_le hae h.head_le_end)]
    exact h.covers_head a ha hae
  induction h with
  | last hle hc he => exact .last hle (hcov (.last hle hc he) hb) he
  | push hle hc hlt hd hrest ih =>
    refine .push hle (hcov (.push hle hc hlt hd hrest) hb) hlt hd (ih ?_)
    exact fun a ha => hb a (hle.trans ha)

end StackOk

/-! ### The invariant of the sweep -/

/-- The invariant of the sweep at position `lo`: the open ends are in order, and the emitted
nodes answer `best` for every address below the first open end. -/
structure Sweep (best : BitVec w → BitVec 32 × BitVec 32) (dflt : BitVec 32)
    (endAddr : BitVec w) (lo : Nat) (st : ItableState w) : Prop where
  stack : StackOk best endAddr lo st.stack
  value : ∀ e ∈ st.stack.head?, ∀ a : BitVec w, a.toNat < e.interval.key.toNat →
    itableLookup dflt st.nodes a = (best a).1

variable {best : BitVec w → BitVec 32 × BitVec 32} {endAddr a : BitVec w} {dflt : BitVec 32}
  {lo : Nat} {s : List (ItableStackElem w)} {nodes : List (LpmInode w)}

/-- Emitting the first open end when another one is below it. -/
theorem Sweep.pop {e f : ItableStackElem w} (h : Sweep best dflt endAddr lo ⟨e :: f :: s, nodes⟩) :
    Sweep best dflt endAddr e.interval.key.toNat ⟨f :: s, nodes ++ [e.interval]⟩ := by
  cases h.stack with
  | push hle hcov hlt hd hrest =>
    refine ⟨hrest, fun g hg a ha => ?_⟩
    obtain rfl : f = g := by simpa using hg
    rw [itableLookup_concat]
    by_cases hea : e.interval.key.toNat ≤ a.toNat
    · rw [if_pos hea, hrest.covers_head a hea ha]
      exact hd
    · rw [if_neg hea]
      exact h.value e (by simp) a (not_le.mp hea)

variable {st : ItableState w}

theorem Sweep.le_end (h : Sweep best dflt endAddr lo st) : lo ≤ endAddr.toNat := by
  obtain ⟨stack, nodes⟩ := st
  cases stack with
  | nil => cases h.stack
  | cons e s => exact h.stack.le_head.trans h.stack.head_le_end

/-- Popping the ends below `start` advances the sweep to `start`. -/
theorem Sweep.popLower {start : BitVec w} (h : Sweep best dflt endAddr lo st)
    (hlo : lo ≤ start.toNat) (hend : start.toNat ≤ endAddr.toNat) :
    ∃ e s nodes, popLower start st.stack st.nodes = (e :: s, nodes) ∧
      Sweep best dflt endAddr start.toNat ⟨e :: s, nodes⟩ ∧ (e :: s) <:+ st.stack := by
  obtain ⟨stack, nodes⟩ := st
  induction stack generalizing lo nodes with
  | nil => cases h.stack
  | cons e s ih =>
    by_cases hlt : e.interval.key < start
    · -- the sentinel is not below `start`, so another end follows
      cases s with
      | nil =>
        cases h.stack with
        | last _ _ he =>
          rw [lt_def, he] at hlt
          omega
      | cons f s =>
        have hlt' := lt_def.mp hlt
        obtain ⟨e', s', nodes', hpop, hsw, hsuf⟩ := ih hlt'.le _ h.pop
        refine ⟨e', s', nodes', ?_, hsw, hsuf.trans (suffix_cons _ _)⟩
        simp only [NicSw.popLower, if_pos hlt]
        exact hpop
    · refine ⟨e, s, nodes, by simp only [NicSw.popLower, if_neg hlt], ?_, suffix_refl _⟩
      have hge : start.toNat ≤ e.interval.key.toNat := by
        rw [lt_def] at hlt
        omega
      exact ⟨h.stack.raise hlo hge, h.value⟩

/-- The invariant depends on `best` only below the sentinel. -/
theorem Sweep.congr {best' : BitVec w → BitVec 32 × BitVec 32} (h : Sweep best dflt endAddr lo st)
    (hb : ∀ a : BitVec w, a.toNat < endAddr.toNat → best' a = best a) :
    Sweep best' dflt endAddr lo st := by
  refine ⟨h.stack.congr fun a _ => hb a, fun e he a ha => ?_⟩
  obtain ⟨stack, nodes⟩ := st
  cases stack with
  | nil => cases h.stack
  | cons f s =>
    obtain rfl : f = e := by simpa using he
    rw [hb a (lt_of_lt_of_le ha h.stack.head_le_end)]
    exact h.value f he a ha

/-! ### One route -/

variable {routes : List (Route w)}

section Step

variable {dflt : BitVec 32} {rs : List (Route w)} {r : Route w} {t : ItableStackElem w}

/-- A route that starts strictly before an open end also ends there or before. -/
theorem Swept.ipNext_le (h : Swept (allOnes w) rs lo st) (hr : r.pfx.len ≤ w)
    (hlen : ∀ p ∈ rs, p.pfx.len ≤ w) (hbefore : ∀ p ∈ rs, Precedes p r) (ht : t ∈ st.stack)
    (hlt : r.pfx.ipLow.toNat < t.interval.key.toNat) :
    r.pfx.ipNext.toNat ≤ t.interval.key.toNat := by
  obtain ⟨es, bot, hstack, hopen, -⟩ := h
  rcases mem_append.mp (hstack ▸ ht) with ht | ht
  · exact hopen.ipNext_le hr hlen hbefore ht hlt
  · rw [mem_singleton.mp ht, hopen.sentinel, toNat_allOnes]
    omega

/-- Below the all-ones address a route holds from its lowest address up to
its successor. -/
theorem contains_iff_lt_ipNext {p : IpPrefix w} (h : p.len ≤ w)
    (ha : a.toNat < (allOnes w).toNat) :
    p.contains a ↔ p.ipLow.toNat ≤ a.toNat ∧ a.toNat < p.ipNext.toNat := by
  rw [contains_iff h, ipNext_toNat h]
  omega

variable {rest : List (ItableStackElem w)}

/-- Installing a route that wins against the fallback of the open end `t`
above its start. -/
theorem Sweep.install (hr : r.pfx.len ≤ w)
    (h : Sweep (fallbackAt dflt rs) dflt (allOnes w) r.pfx.ipLow.toNat ⟨s, nodes⟩)
    (hs : StackOk (fallbackAt dflt rs) (allOnes w) r.pfx.ipLow.toNat (t :: rest))
    (hlt : r.pfx.ipLow.toNat < t.interval.key.toNat)
    (hnext : r.pfx.ipNext.toNat ≤ t.interval.key.toNat) (hprio : ¬ t.fallbackPrio < r.prio) :
    Sweep (fallbackAt dflt (rs ++ [r])) dflt (allOnes w) r.pfx.ipLow.toNat
      (installRoute r t rest nodes) := by
  have hstart : r.pfx.ipLow.toNat < r.pfx.ipNext.toNat := by
    have h2 := r.pfx.size_pos
    rw [ipNext_toNat hr]
    omega
  -- what the new route changes: its own stretch, and nothing else
  have hin : ∀ a : BitVec w, r.pfx.ipLow.toNat ≤ a.toNat → a.toNat < r.pfx.ipNext.toNat →
      fallbackAt dflt (rs ++ [r]) a = (r.nhid, r.prio) := by
    intro a h1 h2
    have ha : a.toNat < t.interval.key.toNat := lt_of_lt_of_le h2 hnext
    have hc : r.pfx.contains a :=
      (contains_iff_lt_ipNext hr (lt_of_lt_of_le ha hs.head_le_end)).mpr ⟨h1, h2⟩
    rw [fallbackAt_concat, hs.covers_head a h1 ha, if_pos ⟨hc, hprio⟩]
  have hout : ∀ a : BitVec w, a.toNat < (allOnes w).toNat →
      (a.toNat < r.pfx.ipLow.toNat ∨ r.pfx.ipNext.toNat ≤ a.toNat) →
      fallbackAt dflt (rs ++ [r]) a = fallbackAt dflt rs a := by
    intro a ha h'
    rw [fallbackAt_concat, if_neg]
    rintro ⟨hc, -⟩
    rw [contains_iff_lt_ipNext hr ha] at hc
    omega
  have hvalue : ∀ a : BitVec w, a.toNat < r.pfx.ipNext.toNat →
      itableLookup dflt (emitInterval nodes ⟨r.pfx.ipLow, r.nhid⟩) a
        = (fallbackAt dflt (rs ++ [r]) a).1 := by
    intro a ha
    rw [itableLookup_emitInterval]
    by_cases hge : r.pfx.ipLow.toNat ≤ a.toNat
    · rw [if_pos hge, hin a hge ha]
    rw [if_neg hge, hout a _ (.inl (not_le.mp hge))]
    · cases s with
      | nil => cases h.stack
      | cons e s => exact h.value e (by simp) a (by have := h.stack.le_head; omega)
    · have := hs.head_le_end
      omega
  unfold installRoute
  by_cases heq : t.interval.key = r.pfx.ipNext
  · rw [if_pos heq]
    refine ⟨?_, ?_⟩
    · -- the end is already open: the route takes over its fallback
      have hcov : Covers (fallbackAt dflt (rs ++ [r])) r.pfx.ipLow.toNat
          { t with fallbackData := r.nhid, fallbackPrio := r.prio } := by
        intro a h1 h2
        exact hin a h1 (by rw [← heq]; exact h2)
      cases hs with
      | last hle _ he => exact .last hle hcov he
      | push hle _ hk hd hrest =>
        refine .push hle hcov hk hd (hrest.congr fun a h1 h2 => hout a h2 (.inr ?_))
        rw [← heq]
        exact h1
    · intro e he a ha
      obtain rfl : { t with fallbackData := r.nhid, fallbackPrio := r.prio } = e := by
        simpa using he
      exact hvalue a (by rw [← heq]; exact ha)
  · rw [if_neg heq]
    have hne := lt_of_le_of_ne hnext fun he => heq (eq_of_toNat_eq he).symm
    refine ⟨?_, ?_⟩
    · refine .push hstart.le hin hne rfl ?_
      refine (hs.raise hstart.le hne.le).congr fun a h1 h2 => hout a h2 (.inr h1)
    · intro e he a ha
      have hkey : e.interval.key = r.pfx.ipNext := by
        simp only [head?_cons, Option.mem_def, Option.some.injEq] at he
        rw [← he]
      exact hvalue a (by rw [← hkey]; exact ha)

variable {st' : ItableState w}

section

variable (h : Sweep (fallbackAt dflt rs) dflt (allOnes w) lo st)
  (hswept : Swept (allOnes w) rs lo st)
include h hswept

/-- **Step lemma**: one route keeps the invariant. -/
theorem Sweep.addRoute (hlen : ∀ p ∈ rs, p.pfx.len ≤ w) (hr : r.pfx.len ≤ w)
    (hbefore : ∀ p ∈ rs, Precedes p r) (hlo : lo ≤ r.pfx.ipLow.toNat)
    (hstep : addRoute st r = some st') :
    Sweep (fallbackAt dflt (rs ++ [r])) dflt (allOnes w) r.pfx.ipLow.toNat st' := by
  have hle : r.pfx.ipLow.toNat ≤ (allOnes w).toNat := by
    rw [toNat_allOnes]
    omega
  obtain ⟨top, below, nodes, hpop, hsw, hsuf⟩ := h.popLower hlo hle
  -- `t` is the end that is open just after `start`
  obtain ⟨t, rest, hst, hs, hlt, ht⟩ : ∃ t rest,
      (if top.interval.key = r.pfx.ipLow then below else top :: below) = t :: rest ∧
      StackOk (fallbackAt dflt rs) (allOnes w) r.pfx.ipLow.toNat (t :: rest) ∧
      r.pfx.ipLow.toNat < t.interval.key.toNat ∧ t ∈ top :: below := by
    unfold NicSw.addRoute at hstep
    simp only [hpop] at hstep
    by_cases heq : top.interval.key = r.pfx.ipLow
    · simp only [if_pos heq] at hstep ⊢
      cases below with
      | nil => cases hstep
      | cons t rest =>
        cases hsw.stack with
        | push _ _ hk _ hrest =>
          refine ⟨t, rest, rfl, ?_, ?_, by simp⟩
          · rw [← heq]; exact hrest
          · rw [← heq]; exact hk
    · simp only [if_neg heq]
      refine ⟨top, below, rfl, hsw.stack, ?_, by simp⟩
      exact lt_of_le_of_ne hsw.stack.le_head fun he => heq (eq_of_toNat_eq he).symm
  have hnext := hswept.ipNext_le hr hlen hbefore (hsuf.subset ht) hlt
  unfold NicSw.addRoute at hstep
  simp only [hpop, hst] at hstep
  by_cases hprio : t.fallbackPrio < r.prio
  · -- shadowed by a shorter prefix of higher priority: the pop is rolled back
    rw [if_pos hprio] at hstep
    cases hstep
    refine hsw.congr fun a ha => ?_
    rw [fallbackAt_concat, if_neg]
    rintro ⟨hc, hnp⟩
    obtain ⟨h1, h2⟩ := (contains_iff_lt_ipNext hr ha).mp hc
    rw [hs.covers_head a h1 (lt_of_lt_of_le h2 hnext)] at hnp
    exact hnp hprio
  · rw [if_neg hprio] at hstep
    cases hstep
    exact hsw.install hr hs hlt hnext hprio

/-- **Run lemma**: the loop over the routes keeps the invariant. -/
theorem Sweep.foldlM (hlen : ∀ p ∈ rs ++ routes, p.pfx.len ≤ w)
    (hsorted : (rs ++ routes).Pairwise Precedes) (hlo : ∀ r ∈ routes, lo ≤ r.pfx.ipLow.toNat)
    (hrun : routes.foldlM NicSw.addRoute st = some st') :
    ∃ lo', Sweep (fallbackAt dflt (rs ++ routes)) dflt (allOnes w) lo' st' := by
  induction routes generalizing rs lo st with
  | nil =>
    cases hrun
    rw [append_nil]
    exact ⟨lo, h⟩
  | cons r routes ih =>
    obtain ⟨st1, hstep, hrun⟩ := Option.bind_eq_some_iff.mp hrun
    obtain ⟨-, hp, hbefore⟩ := pairwise_append.mp hsorted
    have hlen' : ∀ p ∈ rs, p.pfx.len ≤ w := fun p hp => hlen p (by simp [hp])
    have hr := hlen r (by simp)
    have hbefore' : ∀ p ∈ rs, Precedes p r := fun p hp => hbefore p hp r (by simp)
    have hlo' := hlo r (by simp)
    rcases addRoute_swept hr hlen' hbefore' hswept hlo' with ⟨-, st2, hst2, hswept'⟩ | ⟨-, hnone⟩
    · cases hst2.symm.trans hstep
      rw [append_cons]
      refine ih (h.addRoute hswept hlen' hr hbefore' hlo' hstep) hswept'
        (fun p hp => hlen p (by simpa using hp)) (by simpa using hsorted) ?_ hrun
      intro q hq
      rcases (pairwise_cons.mp hp).1 q hq with h | ⟨h, -⟩ <;> omega
    · cases hnone.symm.trans hstep

end

end Step

/-! ### What the routes leave at an address -/

/-- The routes that contain an address are nested, so in table order the
last one to win is the best route. -/
theorem fallbackAt_best (dflt : BitVec 32) {rs : List (Route w)} (a : BitVec w)
    (hlen : ∀ p ∈ rs, p.pfx.len ≤ w) (hsorted : rs.Pairwise Precedes) :
    (∃ r, BestRoute rs a r ∧ fallbackAt dflt rs a = (r.nhid, r.prio)) ∨
      ((∀ r ∈ rs, ¬ r.pfx.contains a) ∧ fallbackAt dflt rs a = (dflt, 0xFFFFFFFF#32)) := by
  induction rs using List.reverseRecOn with
  | nil => exact .inr ⟨by simp, rfl⟩
  | append_singleton rs r ih =>
    obtain ⟨hrs, -, hbefore⟩ := pairwise_append.mp hsorted
    have ih := ih (fun p hp => hlen p (by simp [hp])) hrs
    rw [fallbackAt_concat]
    by_cases hwin : r.pfx.contains a ∧ ¬ (fallbackAt dflt rs a).2 < r.prio
    · rw [if_pos hwin]
      obtain ⟨hc, hp⟩ := hwin
      refine .inl ⟨r, ⟨by simp, hc, ?_⟩, rfl⟩
      intro r' hr' hc'
      rcases mem_append.mp hr' with hr' | hr'
      · have hshorter : r'.pfx.len ≤ r.pfx.len := by
          by_contra hgt
          have h1 := (contains_of_overlap (hlen r' (by simp [hr'])) (by omega) hc hc').1
          rcases hbefore r' hr' r (by simp) with h | ⟨-, h⟩ <;> omega
        have hle : r.prio.toNat ≤ r'.prio.toNat := by
          rcases ih with ⟨b, ⟨-, -, hbest⟩, he⟩ | ⟨hnone, -⟩
          · rw [he, lt_def, not_lt] at hp
            rcases hbest r' hr' hc' with h | ⟨h, -⟩
            · exact hp.trans (lt_def.mp h).le
            · exact h ▸ hp
          · exact absurd hc' (hnone r' hr')
        by_cases heq : r.prio = r'.prio
        · exact .inr ⟨heq, hshorter⟩
        · exact .inl (lt_def.mpr (lt_of_le_of_ne hle fun h => heq (eq_of_toNat_eq h)))
      · rw [mem_singleton.mp hr']
        exact .inr ⟨rfl, le_refl _⟩
    · -- the route does not hold here or is shadowed
      rw [if_neg hwin]
      rcases ih with ⟨b, ⟨hb, hba, hbest⟩, he⟩ | ⟨hnone, he⟩
      · refine .inl ⟨b, ⟨by simp [hb], hba, ?_⟩, he⟩
        refine forall_mem_append.mpr ⟨hbest, forall_mem_singleton.mpr fun hc => .inl ?_⟩
        rw [he] at hwin
        exact not_not.mp fun hp => hwin ⟨hc, hp⟩
      · refine .inr ⟨forall_mem_append.mpr ⟨hnone, forall_mem_singleton.mpr fun hc => ?_⟩, he⟩
        refine hwin ⟨hc, ?_⟩
        rw [he, lt_def]
        simp
        omega

/-! ### The whole table -/

/-- A strictly sorted table answers at `a` exactly what the predecessor
search finds. -/
theorem GreatestKeyData.eq_itableLookup
    (hs : StrictlySorted (fun n : LpmInode w => n.key.toNat) nodes) {d : BitVec 32}
    (h : GreatestKeyData dflt nodes a d) : d = itableLookup dflt nodes a := by
  rcases predLookup_cases LpmInode.data dflt hs a.toNat with
    ⟨n, hn, hna, hmax, he⟩ | ⟨hlt, he⟩
  · rcases h with ⟨m, hm, hma, hmmax, rfl⟩ | ⟨hlt, -⟩
    · obtain rfl : n = m := by
        refine hs.eq_of_key_eq hn hm (le_antisymm ?_ (hmax m hm (le_def.mp hma)))
        exact le_def.mp (hmmax n hn (le_def.mpr hna))
      exact he.symm
    · exact absurd (lt_def.mp (hlt n hn)) (not_lt.mpr hna)
  · rcases h with ⟨m, hm, hma, -, -⟩ | ⟨-, rfl⟩
    · exact absurd (le_def.mp hma) (not_le.mpr (hlt m hm))
    · exact he.symm

/-- The emitted table is sorted and answers, below the all-ones address,
what the processed routes leave there. -/
theorem lpmBuildIntervalTable_fallbackAt (hlen : ∀ r ∈ routes, r.pfx.len ≤ w)
    (hsorted : routes.Pairwise Precedes)
    (hbuild : lpmBuildIntervalTable (allOnes w) dflt routes = some nodes) :
    StrictlySorted (fun n : LpmInode w => n.key.toNat) nodes ∧
      ∀ a : BitVec w, a.toNat < (allOnes w).toNat →
        itableLookup dflt nodes a = (fallbackAt dflt routes a).1 := by
  have hinit : Sweep (fallbackAt dflt []) dflt (allOnes w) 0 (itableStart (allOnes w) dflt) :=
    ⟨.last (Nat.zero_le _) (fun a _ _ => rfl) rfl, fun e _ a _ => rfl⟩
  have hstart := swept_start (allOnes w) dflt
  obtain ⟨st, hrun, hflush⟩ := Option.bind_eq_some_iff.mp hbuild
  obtain ⟨lo, hsw⟩ := hinit.foldlM hstart (by simpa using hlen) (by simpa using hsorted)
    (fun _ _ => Nat.zero_le _) hrun
  obtain ⟨e, s, nodes', hpop, hfin, -⟩ := hsw.popLower hsw.le_end (le_refl _)
  split at hflush
  · cases hflush
  cases hflush
  refine ⟨?_, fun a ha => ?_⟩
  · rcases foldlM_swept hstart (by simpa using hlen) (by simpa using hsorted)
      (fun _ _ => Nat.zero_le _) with ⟨-, lo', st', hrun', hswept⟩ | ⟨-, hnone⟩
    · cases hrun'.symm.trans hrun
      exact hswept.flush.2.1
    · cases hnone.symm.trans hrun
  · rw [hpop]
    exact hfin.value e (by simp) a (lt_of_lt_of_le ha hfin.stack.le_head)

/-- **The interval table is the route table**: for an IPv4 table of distinct
prefixes with zero host bits on which the sweep completes, the greatest
emitted key at or below an address carries the nexthop of the best route
for that address. -/
theorem lpmBuildIntervalTable_best {dflt : BitVec 32} {routes : List (Route 32)}
    {nodes : List (LpmInode 32)} (hlen : ∀ r ∈ routes, r.pfx.len ≤ 32)
    (hhost : ∀ r ∈ routes, r.pfx.hostBitsZero) (hdistinct : (routes.map Route.pfx).Nodup)
    (hbuild : lpmBuildIntervalTable lpmEndAddrV4 dflt (qsortRoutes routes) = some nodes)
    {a : BitVec 32} (ha : a < lpmEndAddrV4) {d : BitVec 32}
    (hd : GreatestKeyData dflt nodes a d) : RoutesTo dflt routes a d := by
  have hperm : (qsortRoutes routes).Perm routes := mergeSort_perm _ _
  have hlen' : ∀ r ∈ qsortRoutes routes, r.pfx.len ≤ 32 := fun r hr =>
    hlen r (hperm.mem_iff.mp hr)
  have hsorted := qsortRoutes_precedes hdistinct (inOrder_of_hostBitsZero hhost)
  obtain ⟨hnodes, hlookup⟩ := lpmBuildIntervalTable_fallbackAt hlen' hsorted hbuild
  have hval : d = (fallbackAt dflt (qsortRoutes routes) a).1 := by
    rw [hd.eq_itableLookup hnodes]
    exact hlookup a (lt_def.mp ha)
  rcases fallbackAt_best dflt a hlen' hsorted with ⟨r, ⟨hr, hc, hbest⟩, he⟩ | ⟨hnone, he⟩
  · refine .inl ⟨r, ⟨hperm.mem_iff.mp hr, hc, ?_⟩, by rw [hval, he]⟩
    exact fun r' hr' => hbest r' (hperm.mem_iff.mpr hr')
  · exact .inr ⟨fun r hr => hnone r (hperm.mem_iff.mpr hr), by rw [hval, he]⟩

theorem lpmBuildIntervalTable_best_nestedRoutes :
    RoutesTo 0#32 nestedRoutes 0x0A020001#32 3#32 := by
  have hbuild : lpmBuildIntervalTable lpmEndAddrV4 0#32 (qsortRoutes nestedRoutes)
      = some [⟨0x0A000000#32, 1#32⟩, ⟨0x0A020000#32, 3#32⟩, ⟨0x0A030000#32, 1#32⟩,
          ⟨0x0B000000#32, 0#32⟩] := by
    rw [qsortRoutes_nestedRoutes]
    decide
  refine lpmBuildIntervalTable_best (by decide) (by decide) (by decide) hbuild (by decide) ?_
  exact .inl ⟨⟨0x0A020000#32, 3#32⟩, by decide, by decide, by decide, rfl⟩

end NicSw
