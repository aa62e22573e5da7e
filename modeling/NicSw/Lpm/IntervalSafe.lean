/-
When `lpm_build_interval_table` is safe: the sweep completes, the sentinel
stays on the stack, the keys increase and the nodes fit in their buffer.

The sentinel is meant to be above every address.  The IPv4 one is the all-ones
address, which a route can start at; the IPv6 one has a zero byte in every
word and is below many routes.  Such a route pops the sentinel, unless a route
that encloses it is still open (`Sheltered`).

`OpenEnds` is the invariant of the sweep for any sentinel.  The ends on the
stack above the sentinel increase, but the sentinel itself may be below them.
-/
import NicSw.Lpm.IntervalTable

namespace NicSw

open BitVec (lt_def eq_of_toNat_eq toNat_ofNat le_def)

open List ItableStackElem

variable {w : Nat}

/-- The address of the IPv6 sentinel: each 32-bit word is set to `0xFFFFFF`,
which reads `FF FF FF 00` in network order. -/
def lpmEndAddrV6 : BitVec 128 := 0xFFFFFF00FFFFFF00FFFFFF00FFFFFF00#128

/-- The state before the first route. -/
def itableStart (endAddr : BitVec w) (dflt : BitVec 32) : ItableState w :=
  ⟨[⟨⟨endAddr, lpmNexthopInvalid⟩, dflt, 0xFFFFFFFF#32⟩], []⟩

/-- **Interval construction is safe on a table**: the sweep over the sorted
routes completes, the sentinel is at the bottom of the stack to the end, so
that it is never emitted, and the nodes are strictly increasing and at most
two for a route. -/
def Safe (endAddr : BitVec w) (dflt : BitVec 32) (routes : List (Route w)) : Prop :=
  ∃ st, (qsortRoutes routes).foldlM addRoute (itableStart endAddr dflt) = some st ∧
    (popLower endAddr st.stack st.nodes).1.getLast?.map interval
      = some ⟨endAddr, lpmNexthopInvalid⟩ ∧
    StrictlySorted (fun n : LpmInode w => n.key.toNat) (popLower endAddr st.stack st.nodes).2 ∧
    (popLower endAddr st.stack st.nodes).2.length ≤ 2 * routes.length

/-- The order of the addresses is the order of the prefixes, as it is when host
bits are zero. -/
def InOrder (routes : List (Route w)) : Prop :=
  ∀ r1 ∈ routes, ∀ r2 ∈ routes, routeCompare r1 r2 = .lt → Precedes r1 r2

/-- If `r` starts at or above the sentinel, one of the routes `rs` reaches
beyond the sentinel and up to the start of `r`. -/
def Sheltered (endAddr : BitVec w) (rs : List (Route w)) (r : Route w) : Prop :=
  endAddr ≤ r.pfx.ipLow → ∃ q ∈ rs, endAddr < q.pfx.ipNext ∧ r.pfx.ipLow ≤ q.pfx.ipNext

/-! ### Prefixes in order -/

theorem ipLow_lt_ipNext {p : IpPrefix w} (h : p.len ≤ w) :
    p.ipLow.toNat < p.ipNext.toNat ∨ p.ipNext.toNat = 2 ^ w - 1 := by
  have hpos := p.size_pos
  rw [IpPrefix.ipNext_toNat h]
  omega

theorem ipLow_le_ipNext {p : IpPrefix w} (h : p.len ≤ w) : p.ipLow.toNat ≤ p.ipNext.toNat := by
  obtain h | h := ipLow_lt_ipNext h
  · exact h.le
  · omega

/-! ### Popping -/

variable {start endAddr : BitVec w}

theorem popLower_append {pre s : List (ItableStackElem w)} (h : ∀ e ∈ pre, e.interval.key < start)
    (nodes : List (LpmInode w)) :
    popLower start (pre ++ s) nodes = popLower start s (nodes ++ pre.map interval) := by
  induction pre generalizing nodes with
  | nil => simp
  | cons e pre ih =>
    rw [cons_append, popLower, if_pos (h e (mem_cons_self ..)),
      ih fun f hf => h f (mem_cons_of_mem _ hf)]
    simp

theorem popLower_of_not_lt {e : ItableStackElem w} {s : List (ItableStackElem w)}
    {nodes : List (LpmInode w)} (h : ¬ e.interval.key < start) :
    popLower start (e :: s) nodes = (e :: s, nodes) := by
  rw [popLower, if_neg h]

/-- Increasing ends are split by an address. -/
theorem exists_split (start : BitVec w) {es : List (ItableStackElem w)}
    (h : es.Pairwise fun e f => e.interval.key.toNat < f.interval.key.toNat) :
    ∃ pre post, es = pre ++ post ∧ (∀ e ∈ pre, e.interval.key < start) ∧
      ∀ e ∈ post, start.toNat ≤ e.interval.key.toNat := by
  induction es with
  | nil => exact ⟨[], [], rfl, by simp, by simp⟩
  | cons e es ih =>
    obtain ⟨he, hes⟩ := pairwise_cons.mp h
    by_cases hlt : e.interval.key < start
    · obtain ⟨pre, post, rfl, hpre, hpost⟩ := ih hes
      exact ⟨e :: pre, post, rfl, forall_mem_cons.mpr ⟨hlt, hpre⟩, hpost⟩
    · have hle : start.toNat ≤ e.interval.key.toNat := not_lt.mp hlt
      refine ⟨[], e :: es, rfl, by simp, forall_mem_cons.mpr ⟨hle, fun f hf => ?_⟩⟩
      exact hle.trans (he f hf).le

/-! ### The invariant -/

/-- **The invariant of the sweep** over the routes `rs` up to position `lo`: the
stack is `es` over the sentinel `bot`. -/
structure OpenEnds (endAddr : BitVec w) (rs : List (Route w)) (lo : Nat)
    (es : List (ItableStackElem w)) (bot : ItableStackElem w) (nodes : List (LpmInode w)) :
    Prop where
  sentinel : bot.interval = ⟨endAddr, lpmNexthopInvalid⟩
  incr : es.Pairwise fun e f => e.interval.key.toNat < f.interval.key.toNat
  ahead : ∀ e ∈ es, lo ≤ e.interval.key.toNat
  ends : ∀ e ∈ es, ∃ q ∈ rs, e.interval.key = q.pfx.ipNext
  beyond : ∀ e ∈ es, e.interval.key = endAddr → ∃ f ∈ es, endAddr.toNat < f.interval.key.toNat
  prio : bot.fallbackPrio = 0xFFFFFFFF#32 ∨
    (∃ q ∈ rs, q.pfx.ipNext = endAddr) ∧ ∀ e ∈ es, e.interval.key.toNat < endAddr.toNat
  sorted : StrictlySorted (fun n : LpmInode w => n.key.toNat) nodes
  behind : ∀ n ∈ nodes, n.key.toNat ≤ lo
  below : ∀ n ∈ nodes, ∀ e ∈ es,
    n.key.toNat < e.interval.key.toNat ∨ e.interval.key.toNat = 2 ^ w - 1
  room : nodes.length + es.length ≤ 2 * rs.length

/-- The ends of the processed routes that reach beyond the sentinel are on the stack. -/
def Covered (endAddr : BitVec w) (rs : List (Route w)) (es : List (ItableStackElem w)) : Prop :=
  ∀ q ∈ rs, q.pfx.ipNext.toNat ≤ endAddr.toNat ∨ ∃ e ∈ es, q.pfx.ipNext.toNat ≤ e.interval.key.toNat

namespace OpenEnds

variable {endAddr : BitVec w} {rs : List (Route w)} {lo : Nat}
  {e bot : ItableStackElem w} {es pre post : List (ItableStackElem w)}
  {nodes : List (LpmInode w)} {r : Route w} {start : BitVec w}

theorem init (endAddr : BitVec w) (dflt : BitVec 32) :
    OpenEnds endAddr [] 0 [] ⟨⟨endAddr, lpmNexthopInvalid⟩, dflt, 0xFFFFFFFF#32⟩ [] where
  sentinel := rfl
  incr := List.Pairwise.nil
  ahead := by simp
  ends := by simp
  beyond := by simp
  prio := .inl rfl
  sorted := List.Pairwise.nil
  behind := by simp
  below := by simp
  room := le_refl _

/-- The nodes stay sorted when the ends below an address are emitted. -/
theorem sorted_pop (h : OpenEnds endAddr rs lo (pre ++ post) bot nodes)
    (hpre : ∀ e ∈ pre, e.interval.key < start) :
    StrictlySorted (fun n : LpmInode w => n.key.toNat) (nodes ++ pre.map interval) := by
  have hincr := pairwise_append.mp h.incr
  refine pairwise_append.mpr ⟨h.sorted, pairwise_map.mpr hincr.1, ?_⟩
  intro n hn m hm
  obtain ⟨e, he, rfl⟩ := mem_map.mp hm
  have hsmall : e.interval.key.toNat < start.toNat := hpre e he
  obtain hlt | hones := h.below n hn e (mem_append_left _ he)
  · exact hlt
  · omega

/-- The ends below an address are emitted. -/
theorem pop (h : OpenEnds endAddr rs lo (pre ++ post) bot nodes) (hlo : lo ≤ start.toNat)
    (hpre : ∀ e ∈ pre, e.interval.key < start)
    (hpost : ∀ e ∈ post, start.toNat ≤ e.interval.key.toNat) :
    OpenEnds endAddr rs start.toNat post bot (nodes ++ pre.map interval) := by
  have hincr := pairwise_append.mp h.incr
  have hmem : ∀ {e}, e ∈ post → e ∈ pre ++ post := fun he => mem_append_right _ he
  refine ⟨h.sentinel, hincr.2.1, hpost, fun e he => h.ends e (hmem he), ?_, ?_, h.sorted_pop hpre,
    ?_, ?_, ?_⟩
  · intro e he hkey
    obtain ⟨f, hf, hlt⟩ := h.beyond e (hmem he) hkey
    refine ⟨f, (mem_append.mp hf).resolve_left fun hf => ?_, hlt⟩
    have hsmall : f.interval.key.toNat < start.toNat := hpre f hf
    have hbig := hpost e he
    rw [hkey] at hbig
    omega
  · exact h.prio.imp_right fun ⟨hq, hes⟩ => ⟨hq, fun e he => hes e (hmem he)⟩
  · intro n hn
    obtain hn | hn := mem_append.mp hn
    · exact (h.behind n hn).trans hlo
    · obtain ⟨e, he, rfl⟩ := mem_map.mp hn
      exact (lt_def.mp (hpre e he)).le
  · intro n hn e he
    obtain hn | hn := mem_append.mp hn
    · exact h.below n hn e (hmem he)
    · obtain ⟨f, hf, rfl⟩ := mem_map.mp hn
      exact .inl (lt_of_lt_of_le (hpre f hf) (hpost e he))
  · have hroom := h.room
    rw [length_append] at hroom
    rw [length_append, length_map]
    omega

/-- An end at the position is taken off the stack. -/
theorem drop (h : OpenEnds endAddr rs lo (e :: es) bot nodes) :
    OpenEnds endAddr rs lo es bot nodes := by
  obtain ⟨hhead, htail⟩ := pairwise_cons.mp h.incr
  have hmem : ∀ {f}, f ∈ es → f ∈ e :: es := fun hf => mem_cons_of_mem _ hf
  refine ⟨h.sentinel, htail, fun f hf => h.ahead f (hmem hf), fun f hf => h.ends f (hmem hf),
    ?_, ?_, h.sorted, h.behind, fun n hn f hf => h.below n hn f (hmem hf), ?_⟩
  · intro f hf hkey
    obtain ⟨g, hg, hlt⟩ := h.beyond f (hmem hf) hkey
    refine ⟨g, (mem_cons.mp hg).resolve_left ?_, hlt⟩
    rintro rfl
    have hgf := hhead f hf
    rw [hkey] at hgf
    omega
  · exact h.prio.imp_right fun ⟨hq, hes⟩ => ⟨hq, fun f hf => hes f (hmem hf)⟩
  · have hroom := h.room
    rw [length_cons] at hroom
    omega

/-- A route that is shadowed changes nothing. -/
theorem skip (h : OpenEnds endAddr rs lo es bot nodes) :
    OpenEnds endAddr (rs ++ [r]) lo es bot nodes := { h with
  ends := fun e he => by
    obtain ⟨q, hq, hkey⟩ := h.ends e he
    exact ⟨q, mem_append_left _ hq, hkey⟩
  prio := h.prio.imp_right fun ⟨⟨q, hq, hkey⟩, hes⟩ =>
    ⟨⟨q, mem_append_left _ hq, hkey⟩, hes⟩
  room := by
    have hroom := h.room
    rw [length_append]
    omega }

theorem length_emitInterval_le (nodes : List (LpmInode w)) (n : LpmInode w) :
    (emitInterval nodes n).length ≤ nodes.length + 1 := by
  rcases eq_nil_or_concat nodes with rfl | ⟨ys, m, rfl⟩
  · exact le_refl _
  · rw [concat_eq_append, emitInterval_concat]
    split <;> simp

/-- The start of a route is emitted when every end is above it. -/
theorem emit (h : OpenEnds endAddr rs r.pfx.ipLow.toNat es bot nodes)
    (habove : ∀ e ∈ es, r.pfx.ipLow.toNat < e.interval.key.toNat) :
    OpenEnds endAddr (rs ++ [r]) r.pfx.ipLow.toNat es bot
      (emitInterval nodes ⟨r.pfx.ipLow, r.nhid⟩) := by
  have hskip := h.skip (r := r)
  refine { hskip with
    sorted := strictlySorted_emitInterval h.sorted h.behind
    behind := ?_, below := ?_, room := ?_ }
  · intro n hn
    obtain rfl | hn := mem_emitInterval hn
    · exact le_refl _
    · exact h.behind n hn
  · intro n hn e he
    obtain rfl | hn := mem_emitInterval hn
    · exact .inl (habove e he)
    · exact h.below n hn e he
  · have hroom := h.room
    have hlen := length_emitInterval_le nodes ⟨r.pfx.ipLow, r.nhid⟩
    rw [length_append, length_singleton]
    omega

/-- The end of a route is pushed on higher ends. -/
theorem push (h : OpenEnds endAddr rs r.pfx.ipLow.toNat es bot nodes) (hr : r.pfx.len ≤ w)
    (hkey : e.interval.key = r.pfx.ipNext)
    (habove : ∀ f ∈ es, r.pfx.ipNext.toNat < f.interval.key.toNat)
    (hbeyond : r.pfx.ipNext = endAddr → es ≠ [])
    (hprio : bot.fallbackPrio = 0xFFFFFFFF#32 ∨ r.pfx.ipNext.toNat < endAddr.toNat) :
    OpenEnds endAddr (rs ++ [r]) r.pfx.ipLow.toNat (e :: es) bot
      (emitInterval nodes ⟨r.pfx.ipLow, r.nhid⟩) := by
  have hle := ipLow_le_ipNext hr
  have hemit := h.emit fun f hf => lt_of_le_of_lt hle (habove f hf)
  refine ⟨h.sentinel, pairwise_cons.mpr ⟨hkey ▸ habove, h.incr⟩,
    forall_mem_cons.mpr ⟨hkey ▸ hle, h.ahead⟩,
    forall_mem_cons.mpr ⟨⟨r, by simp, hkey⟩, hemit.ends⟩, ?_, ?_, hemit.sorted, hemit.behind,
    ?_, ?_⟩
  · refine forall_mem_cons.mpr ⟨fun he => ?_, fun f hf hf' => ?_⟩
    · obtain ⟨f, hf⟩ := exists_mem_of_ne_nil _ (hbeyond (hkey ▸ he))
      refine ⟨f, mem_cons_of_mem _ hf, ?_⟩
      rw [← he, hkey]
      exact habove f hf
    · obtain ⟨g, hg, hlt⟩ := h.beyond f hf hf'
      exact ⟨g, mem_cons_of_mem _ hg, hlt⟩
  · obtain hp | ⟨hq, hes⟩ := hemit.prio
    · exact .inl hp
    · exact hprio.imp_right fun hlt => ⟨hq, forall_mem_cons.mpr ⟨hkey ▸ hlt, hes⟩⟩
  · intro n hn
    refine forall_mem_cons.mpr ⟨?_, hemit.below n hn⟩
    have hn' := hemit.behind n hn
    rw [hkey]
    obtain hlt | hones := ipLow_lt_ipNext hr
    · exact .inl (lt_of_le_of_lt hn' hlt)
    · exact .inr hones
  · have hroom := h.room
    have hlen := length_emitInterval_le nodes ⟨r.pfx.ipLow, r.nhid⟩
    rw [length_append, length_singleton, length_cons]
    omega

/-- Only the intervals of the ends matter. -/
theorem setHead (h : OpenEnds endAddr rs lo (e :: es) bot nodes) {e' : ItableStackElem w}
    (he : e'.interval = e.interval) : OpenEnds endAddr rs lo (e' :: es) bot nodes := by
  obtain ⟨hs, hincr, hahead, hends, hbeyond, hprio, hsorted, hbehind, hbelow, hroom⟩ := h
  simp only [pairwise_cons, forall_mem_cons, exists_mem_cons_iff, ← he] at *
  exact ⟨hs, pairwise_cons.mpr hincr, forall_mem_cons.mpr hahead,
    forall_mem_cons.mpr hends, by simpa using hbeyond, by simpa using hprio, hsorted, hbehind,
    by simpa using hbelow, hroom⟩

/-- A route that ends at the sentinel is recorded there. -/
theorem setSentinel (h : OpenEnds endAddr rs r.pfx.ipLow.toNat [] bot nodes)
    (hkey : r.pfx.ipNext = endAddr) (d p : BitVec 32) :
    OpenEnds endAddr (rs ++ [r]) r.pfx.ipLow.toNat []
      { bot with fallbackData := d, fallbackPrio := p }
      (emitInterval nodes ⟨r.pfx.ipLow, r.nhid⟩) := by
  have hemit := h.emit (by simp)
  exact { hemit with prio := .inr ⟨⟨r, by simp, hkey⟩, by simp⟩ }

end OpenEnds

/-! ### One route -/

section Step

variable {endAddr : BitVec w} {rs : List (Route w)} {lo : Nat}
  {e bot : ItableStackElem w} {es : List (ItableStackElem w)}
  {nodes : List (LpmInode w)} {r : Route w}

/-- The invariant with a state of the sweep. -/
def Swept (endAddr : BitVec w) (rs : List (Route w)) (lo : Nat) (st : ItableState w) : Prop :=
  ∃ es bot, st.stack = es ++ [bot] ∧ OpenEnds endAddr rs lo es bot st.nodes ∧ Covered endAddr rs es

/-- `Covered` after a route, given where its end and the ends before it went. -/
theorem Covered.concat {es' : List (ItableStackElem w)} (hr : r.pfx.len ≤ w)
    (hcov : ∀ q ∈ rs, q.pfx.ipNext.toNat ≤ endAddr.toNat ∨
      q.pfx.ipNext.toNat ≤ r.pfx.ipLow.toNat ∨ ∃ e ∈ es, q.pfx.ipNext.toNat ≤ e.interval.key.toNat)
    (hkept : ∀ e ∈ es, ∃ f ∈ es', f.interval.key = e.interval.key)
    (hnew : r.pfx.ipNext.toNat ≤ endAddr.toNat ∨
      ∃ f ∈ es', r.pfx.ipNext.toNat ≤ f.interval.key.toNat) :
    Covered endAddr (rs ++ [r]) es' := by
  have hle := ipLow_le_ipNext hr
  intro q hq
  obtain hq | hq := mem_append.mp hq
  · obtain hend | hlow | ⟨e, he, hq'⟩ := hcov q hq
    · exact .inl hend
    · exact hnew.imp (hlow.trans hle).trans fun ⟨f, hf, h⟩ => ⟨f, hf, (hlow.trans hle).trans h⟩
    · obtain ⟨f, hf, hkey⟩ := hkept e he
      exact .inr ⟨f, hf, hkey ▸ hq'⟩
  · rw [mem_singleton.mp hq]
    exact hnew

/-- A route ends at or below every end that is above its start. -/
theorem OpenEnds.ipNext_le (h : OpenEnds endAddr rs lo es bot nodes) (hr : r.pfx.len ≤ w)
    (hlen : ∀ q ∈ rs, q.pfx.len ≤ w) (hbefore : ∀ q ∈ rs, Precedes q r) (he : e ∈ es)
    (hlt : r.pfx.ipLow.toNat < e.interval.key.toNat) :
    r.pfx.ipNext.toNat ≤ e.interval.key.toNat := by
  obtain ⟨q, hq, hkey⟩ := h.ends e he
  obtain hle | hle := (hbefore q hq).nested (hlen q hq) hr
  · rwa [hkey]
  · rw [hkey] at hlt
    omega

section Install

variable (h : OpenEnds endAddr rs r.pfx.ipLow.toNat es bot nodes) (hr : r.pfx.len ≤ w)
  (hlen : ∀ q ∈ rs, q.pfx.len ≤ w) (hbefore : ∀ q ∈ rs, Precedes q r)
  (habove : ∀ e ∈ es, r.pfx.ipLow.toNat < e.interval.key.toNat)
  (hcov : ∀ q ∈ rs, q.pfx.ipNext.toNat ≤ endAddr.toNat ∨
    q.pfx.ipNext.toNat ≤ r.pfx.ipLow.toNat ∨ ∃ e ∈ es, q.pfx.ipNext.toNat ≤ e.interval.key.toNat)
include h hr hlen hbefore

/-- Above a sentinel that has been recorded for a route, routes end at or below it. -/
theorem OpenEnds.ipNext_le_sentinel
    (hlow : bot.fallbackPrio = 0xFFFFFFFF#32 ∨ r.pfx.ipLow.toNat < endAddr.toNat) :
    bot.fallbackPrio = 0xFFFFFFFF#32 ∨ r.pfx.ipNext.toNat ≤ endAddr.toNat := by
  obtain hp | ⟨⟨q, hq, hkey⟩, -⟩ := h.prio
  · exact .inl hp
  · refine hlow.imp_right fun hlt => ?_
    obtain hle | hle := (hbefore q hq).nested (hlen q hq) hr
    · rwa [← hkey]
    · rw [hkey] at hle
      omega

include habove hcov

/-- **Installing a route** over the ends `es` above its start. -/
theorem swept_install (hlow : bot.fallbackPrio = 0xFFFFFFFF#32 ∨ r.pfx.ipLow.toNat < endAddr.toNat)
    {t : ItableStackElem w} {rest : List (ItableStackElem w)} (ht : es ++ [bot] = t :: rest) :
    Swept endAddr (rs ++ [r]) r.pfx.ipLow.toNat (installRoute r t rest nodes) := by
  have hsent := h.ipNext_le_sentinel hr hlen hbefore hlow
  have hkept : ∀ f : ItableStackElem w, ∀ e ∈ es, ∃ g ∈ f :: es, g.interval.key = e.interval.key :=
    fun f e he => ⟨e, mem_cons_of_mem _ he, rfl⟩
  unfold installRoute
  cases es with
  | nil =>
    obtain ⟨rfl, rfl⟩ := List.cons.inj ht
    have hkey : bot.interval.key = endAddr := by rw [h.sentinel]
    split
    · rename_i hnext
      have hnext' : r.pfx.ipNext = endAddr := hnext.symm.trans hkey
      refine ⟨[], _, rfl, h.setSentinel hnext' _ _, Covered.concat hr hcov (by simp) (.inl ?_)⟩
      rw [hnext']
    rename_i hnext
    have hne : r.pfx.ipNext ≠ endAddr := fun he => hnext (hkey.trans he.symm)
    have hne' : r.pfx.ipNext.toNat ≠ endAddr.toNat := fun he => hne (eq_of_toNat_eq he)
    refine ⟨[_], bot, rfl, h.push hr rfl (by simp) (fun he => absurd he hne) ?_,
      Covered.concat hr hcov (hkept _) (.inr ⟨_, mem_cons_self .., le_refl _⟩)⟩
    exact hsent.imp_right fun hle => lt_of_le_of_ne hle hne'
  | cons e es =>
    obtain ⟨rfl, rfl⟩ := List.cons.inj ht
    have hin := mem_cons_self (a := e) (l := es)
    have hle := h.ipNext_le hr hlen hbefore hin (habove e hin)
    split
    · rename_i hnext
      refine ⟨_ :: es, bot, rfl, (h.emit habove).setHead rfl, Covered.concat hr hcov ?_ (.inr
        ⟨_, mem_cons_self .., hle⟩)⟩
      exact forall_mem_cons.mpr ⟨⟨_, mem_cons_self .., rfl⟩,
        fun f hf => ⟨f, mem_cons_of_mem _ hf, rfl⟩⟩
    · rename_i hnext
      have hlt := lt_of_le_of_ne hle fun he => hnext (eq_of_toNat_eq he.symm)
      refine ⟨_ :: e :: es, bot, rfl, h.push hr rfl ?_ (fun _ => cons_ne_nil _ _) ?_,
        Covered.concat hr hcov (hkept _) (.inr ⟨_, mem_cons_self .., le_refl _⟩)⟩
      · refine forall_mem_cons.mpr ⟨hlt, fun f hf => hlt.trans ?_⟩
        exact (pairwise_cons.mp h.incr).1 f hf
      · obtain hp | ⟨-, hes⟩ := h.prio
        · exact .inl hp
        · exact .inr (hlt.trans (hes e hin))

end Install

section Round

variable {post act rest : List (ItableStackElem w)} {t : ItableStackElem w} (hr : r.pfx.len ≤ w)
  (hlen : ∀ q ∈ rs, q.pfx.len ≤ w) (hbefore : ∀ q ∈ rs, Precedes q r)
include hr hlen hbefore

/-- **The priority check and what follows**: of the ends `post`, `act` are above
the start of the route. -/
theorem swept_round (h : OpenEnds endAddr rs r.pfx.ipLow.toNat post bot nodes)
    (hact : OpenEnds endAddr rs r.pfx.ipLow.toNat act bot nodes)
    (hcov : Covered endAddr rs post) (hsub : ∀ e ∈ act, e ∈ post)
    (habove : ∀ e ∈ act, r.pfx.ipLow.toNat < e.interval.key.toNat)
    (hrest : ∀ e ∈ post, e ∈ act ∨ e.interval.key.toNat ≤ r.pfx.ipLow.toNat)
    (hlow : bot.fallbackPrio = 0xFFFFFFFF#32 ∨ r.pfx.ipLow.toNat < endAddr.toNat)
    (ht : act ++ [bot] = t :: rest) :
    Swept endAddr (rs ++ [r]) r.pfx.ipLow.toNat
      (if t.fallbackPrio < r.prio then ⟨post ++ [bot], nodes⟩
        else installRoute r t rest nodes) := by
  split
  · rename_i hshadow
    refine ⟨post, bot, rfl, h.skip, Covered.concat hr ?_ (fun e he => ⟨e, he, rfl⟩) ?_⟩
    · exact fun q hq => (hcov q hq).imp_right .inr
    · -- what shadows the route encloses it
      cases act with
      | nil =>
        obtain ⟨rfl, rfl⟩ := List.cons.inj ht
        refine .inl ((hact.ipNext_le_sentinel hr hlen hbefore hlow).resolve_left fun hp => ?_)
        rw [hp, lt_def] at hshadow
        simp only [toNat_ofNat] at hshadow
        omega
      | cons e act =>
        have hin := mem_cons_self (a := e) (l := act)
        exact .inr ⟨e, hsub e hin, hact.ipNext_le hr hlen hbefore hin (habove e hin)⟩
  · refine swept_install hact hr hlen hbefore habove (fun q hq => ?_) hlow ht
    refine (hcov q hq).imp_right fun ⟨e, he, hle⟩ => ?_
    exact (hrest e he).symm.imp hle.trans fun he => ⟨e, he, hle⟩

omit hr hlen hbefore in
/-- An end above the start of a route shelters it: it is the end of a route, or
the sentinel's address with an end beyond it. -/
theorem OpenEnds.sheltered (h : OpenEnds endAddr rs r.pfx.ipLow.toNat (e :: es) bot nodes) :
    Sheltered endAddr rs r := by
  intro hle
  have hin := mem_cons_self (a := e) (l := es)
  have hle' : endAddr.toNat ≤ r.pfx.ipLow.toNat := hle
  have hkey := h.ahead e hin
  by_cases heq : e.interval.key = endAddr
  · obtain ⟨f, hf, hlt⟩ := h.beyond e hin heq
    obtain ⟨q, hq, hfq⟩ := h.ends f hf
    rw [heq] at hkey
    rw [hfq] at hlt
    exact ⟨q, hq, hlt, hkey.trans hlt.le⟩
  · obtain ⟨q, hq, heq'⟩ := h.ends e hin
    have hne : endAddr.toNat ≠ e.interval.key.toNat := fun h => heq (eq_of_toNat_eq h).symm
    rw [heq'] at hkey hne
    exact ⟨q, hq, lt_of_le_of_ne (hle'.trans hkey) hne, hkey⟩

variable {st : ItableState w}

/-- The round when the sentinel is on top and above the start. -/
theorem addRoute_of_closed (h : OpenEnds endAddr rs r.pfx.ipLow.toNat [] bot nodes)
    (hcov : Covered endAddr rs []) (hlow : r.pfx.ipLow.toNat < endAddr.toNat)
    (hpop : popLower r.pfx.ipLow st.stack st.nodes = ([bot], nodes)) :
    ∃ st', addRoute st r = some st' ∧ Swept endAddr (rs ++ [r]) r.pfx.ipLow.toNat st' := by
  have hne : bot.interval.key ≠ r.pfx.ipLow := by
    rw [h.sentinel]
    rintro rfl
    omega
  have hround := swept_round hr hlen hbefore h h hcov (fun _ => id) (by simp) (by simp)
    (.inr hlow) (nil_append [bot])
  unfold addRoute
  simp only [hpop, if_neg hne]
  rw [← apply_ite some]
  exact ⟨_, rfl, hround⟩

/-- The round when an end is on top. -/
theorem addRoute_of_open (h : OpenEnds endAddr rs r.pfx.ipLow.toNat (e :: es) bot nodes)
    (hcov : Covered endAddr rs (e :: es))
    (hpop : popLower r.pfx.ipLow st.stack st.nodes = (e :: (es ++ [bot]), nodes)) :
    ∃ st', addRoute st r = some st' ∧ Swept endAddr (rs ++ [r]) r.pfx.ipLow.toNat st' := by
  have hin := mem_cons_self (a := e) (l := es)
  have hlow := h.prio.imp_right fun ⟨_, hes⟩ => lt_of_le_of_lt (h.ahead e hin) (hes e hin)
  have hgt := (pairwise_cons.mp h.incr).1
  unfold addRoute
  simp only [hpop]
  by_cases heq : e.interval.key = r.pfx.ipLow
  · -- the end falls on the start and makes way for the route
    obtain ⟨t, rest, ht⟩ : ∃ t rest, es ++ [bot] = t :: rest := exists_cons_of_ne_nil (by simp)
    have hround := swept_round hr hlen hbefore h h.drop hcov
      (fun f hf => mem_cons_of_mem _ hf) (fun f hf => heq ▸ hgt f hf)
      (forall_mem_cons.mpr ⟨.inr (heq ▸ le_refl _), fun f hf => .inl hf⟩) hlow ht
    simp only [if_pos heq, ht]
    rw [← ht, ← apply_ite some]
    exact ⟨_, rfl, hround⟩
  · have hlt : r.pfx.ipLow.toNat < e.interval.key.toNat :=
      lt_of_le_of_ne (h.ahead e hin) fun h => heq (eq_of_toNat_eq h.symm)
    have hround := swept_round hr hlen hbefore h h hcov (fun _ => id)
      (forall_mem_cons.mpr ⟨hlt, fun f hf => hlt.trans (hgt f hf)⟩)
      (fun f hf => .inl hf) hlow (cons_append ..)
    simp only [if_neg heq]
    rw [← apply_ite some]
    exact ⟨_, rfl, hround⟩

omit hr hlen hbefore in
/-- The round when the sentinel is on top and not above the start: it is popped. -/
theorem addRoute_of_popped (hlow : bot.interval.key.toNat ≤ r.pfx.ipLow.toNat)
    (hpop : popLower r.pfx.ipLow st.stack st.nodes = popLower r.pfx.ipLow [bot] nodes) :
    addRoute st r = none := by
  unfold addRoute
  simp only [hpop]
  by_cases heq : bot.interval.key = r.pfx.ipLow
  · have hge : ¬ bot.interval.key < r.pfx.ipLow := by
      rw [heq, lt_def]
      omega
    rw [popLower_of_not_lt hge]
    simp only [if_pos heq]
  · have hlt : bot.interval.key < r.pfx.ipLow := by
      have hne := mt eq_of_toNat_eq heq
      rw [lt_def]
      omega
    rw [popLower, if_pos hlt]
    rfl

/-- **What one route does**: the round completes exactly if the route is
sheltered, and keeps the invariant. -/
theorem addRoute_swept (h : Swept endAddr rs lo st) (hlo : lo ≤ r.pfx.ipLow.toNat) :
    (Sheltered endAddr rs r ∧
        ∃ st', addRoute st r = some st' ∧ Swept endAddr (rs ++ [r]) r.pfx.ipLow.toNat st') ∨
      (¬ Sheltered endAddr rs r ∧ addRoute st r = none) := by
  obtain ⟨es, bot, hstack, hopen, hcov⟩ := h
  obtain ⟨pre, post, rfl, hpre, hpost⟩ := exists_split r.pfx.ipLow hopen.incr
  have hpop := hopen.pop hlo hpre hpost
  have hbot : bot.interval.key = endAddr := by rw [hopen.sentinel]
  have hpre' : ∀ e ∈ pre, e.interval.key.toNat < r.pfx.ipLow.toNat := hpre
  have hlower : popLower r.pfx.ipLow st.stack st.nodes
      = popLower r.pfx.ipLow (post ++ [bot]) (st.nodes ++ pre.map interval) := by
    rw [hstack, append_assoc, popLower_append hpre]
  cases post with
  | nil =>
    rw [append_nil] at hcov
    by_cases hlow : r.pfx.ipLow.toNat < endAddr.toNat
    · refine .inl ⟨fun hle => absurd (le_def.mp hle) (by omega), ?_⟩
      have hcov' : Covered endAddr rs [] := by
        intro q hq
        obtain hle | ⟨e, he, hle⟩ := hcov q hq
        · exact .inl hle
        · exact .inl (hle.trans ((hpre' e he).trans hlow).le)
      refine addRoute_of_closed hr hlen hbefore hpop hcov' hlow ?_
      rw [hlower, nil_append, popLower_of_not_lt]
      rw [hbot, lt_def]
      omega
    · refine .inr ⟨fun hs => ?_, addRoute_of_popped (hbot ▸ not_lt.mp hlow) hlower⟩
      -- no end of a route is at or above the start
      obtain ⟨q, hq, hlt, hle⟩ := hs (not_lt.mp hlow)
      rw [lt_def] at hlt
      rw [le_def] at hle
      obtain hle' | ⟨e, he, hle'⟩ := hcov q hq
      · omega
      · have := hpre' e he
        omega
  | cons e post =>
    have hin := mem_cons_self (a := e) (l := post)
    refine .inl ⟨hpop.sheltered, addRoute_of_open hr hlen hbefore hpop (fun q hq => ?_) ?_⟩
    · refine (hcov q hq).imp_right fun ⟨f, hf, hle⟩ => ?_
      obtain hf | hf := mem_append.mp hf
      · exact ⟨e, hin, (hle.trans (hpre' f hf).le).trans (hpost e hin)⟩
      · exact ⟨f, hf, hle⟩
    · rw [hlower, cons_append, popLower_of_not_lt (not_lt.mpr (hpost e hin))]

end Round

end Step

/-! ### All routes -/

/-- Every route is sheltered by the ones before it. -/
def AllSheltered (endAddr : BitVec w) (rs : List (Route w)) : List (Route w) → Prop
  | [] => True
  | r :: routes => Sheltered endAddr rs r ∧ AllSheltered endAddr (rs ++ [r]) routes

section Run

variable {endAddr : BitVec w} {rs routes : List (Route w)} {lo : Nat} {st : ItableState w}

theorem swept_start (endAddr : BitVec w) (dflt : BitVec 32) :
    Swept endAddr [] 0 (itableStart endAddr dflt) :=
  ⟨[], _, rfl, OpenEnds.init endAddr dflt, fun _ hq => absurd hq not_mem_nil⟩

/-- **What the sweep does**: it completes exactly if all routes are sheltered. -/
theorem foldlM_swept (h : Swept endAddr rs lo st) (hlen : ∀ r ∈ rs ++ routes, r.pfx.len ≤ w)
    (hsorted : (rs ++ routes).Pairwise Precedes) (hlo : ∀ r ∈ routes, lo ≤ r.pfx.ipLow.toNat) :
    (AllSheltered endAddr rs routes ∧
        ∃ lo' st', routes.foldlM addRoute st = some st' ∧ Swept endAddr (rs ++ routes) lo' st') ∨
      (¬ AllSheltered endAddr rs routes ∧ routes.foldlM addRoute st = none) := by
  induction routes generalizing rs lo st with
  | nil => exact .inl ⟨trivial, lo, st, rfl, (append_nil rs).symm ▸ h⟩
  | cons r routes ih =>
    have hmem : ∀ {q}, q ∈ rs → q ∈ rs ++ r :: routes := fun hq => mem_append_left _ hq
    have hrin : r ∈ rs ++ r :: routes := by simp
    obtain ⟨-, htail, hbefore⟩ := pairwise_append.mp hsorted
    have hround := addRoute_swept (hlen r hrin) (fun q hq => hlen q (hmem hq))
      (fun q hq => hbefore q hq r (by simp)) h (hlo r (by simp))
    rw [foldlM_cons]
    obtain ⟨hs, st', hst', hsw⟩ | ⟨hs, hnone⟩ := hround
    · rw [hst', Option.bind_eq_bind, Option.bind_some]
      rw [append_cons] at hlen hsorted ⊢
      have hlo' : ∀ q ∈ routes, r.pfx.ipLow.toNat ≤ q.pfx.ipLow.toNat := by
        intro q hq
        obtain hlt | ⟨heq, -⟩ := (pairwise_cons.mp htail).1 q hq
        · exact hlt.le
        · exact heq.le
      obtain ⟨hall, hrun⟩ | ⟨hall, hrun⟩ := ih hsw hlen hsorted hlo'
      · exact .inl ⟨⟨hs, hall⟩, hrun⟩
      · exact .inr ⟨fun hc => hall hc.2, hrun⟩
    · rw [hnone]
      exact .inr ⟨fun hc => hs hc.1, rfl⟩

/-- After the last route: the sentinel stays, and the nodes are sorted and few. -/
theorem Swept.flush (h : Swept endAddr rs lo st) :
    (popLower endAddr st.stack st.nodes).1.getLast?.map interval
        = some ⟨endAddr, lpmNexthopInvalid⟩ ∧
      StrictlySorted (fun n : LpmInode w => n.key.toNat) (popLower endAddr st.stack st.nodes).2 ∧
      (popLower endAddr st.stack st.nodes).2.length ≤ 2 * rs.length := by
  obtain ⟨es, bot, hstack, hopen, -⟩ := h
  obtain ⟨pre, post, rfl, hpre, hpost⟩ := exists_split endAddr hopen.incr
  have hkeep : popLower endAddr (post ++ [bot]) (st.nodes ++ pre.map interval)
      = (post ++ [bot], st.nodes ++ pre.map interval) := by
    cases post with
    | nil =>
      refine popLower_of_not_lt ?_
      rw [hopen.sentinel, lt_def]
      exact lt_irrefl _
    | cons e post => exact popLower_of_not_lt (not_lt.mpr (hpost e (mem_cons_self ..)))
  rw [hstack, append_assoc, popLower_append hpre, hkeep]
  refine ⟨?_, hopen.sorted_pop hpre, ?_⟩
  · rw [getLast?_concat, Option.map_some, hopen.sentinel]
  · have hroom := hopen.room
    rw [length_append] at hroom
    rw [length_append, length_map]
    omega

end Run

/-! ### The tables on which construction is safe -/

/-- Every route that starts at or above the sentinel has an earlier one in the
sorted table that reaches beyond the sentinel and up to its start. -/
def Enclosed (endAddr : BitVec w) (routes : List (Route w)) : Prop :=
  ∀ r ∈ routes, endAddr ≤ r.pfx.ipLow →
    ∃ q ∈ routes, routeCompare q r = .lt ∧ endAddr < q.pfx.ipNext ∧ r.pfx.ipLow ≤ q.pfx.ipNext

variable {routes : List (Route w)}

/-- In a sorted table the routes before `r` are those that compare less. -/
theorem allSheltered_iff {rs : List (Route w)}
    (hsorted : (rs ++ routes).Pairwise fun r1 r2 => routeCompare r1 r2 = .lt) :
    AllSheltered endAddr rs routes ↔ ∀ r ∈ routes, endAddr ≤ r.pfx.ipLow →
      ∃ q ∈ rs ++ routes, routeCompare q r = .lt ∧ endAddr < q.pfx.ipNext ∧
        r.pfx.ipLow ≤ q.pfx.ipNext := by
  induction routes generalizing rs with
  | nil => exact iff_of_true trivial (by simp)
  | cons r routes ih =>
    obtain ⟨-, htail, hbefore⟩ := pairwise_append.mp hsorted
    have hafter := (pairwise_cons.mp htail).1
    have hhead : Sheltered endAddr rs r ↔ (endAddr ≤ r.pfx.ipLow →
        ∃ q ∈ rs ++ r :: routes, routeCompare q r = .lt ∧ endAddr < q.pfx.ipNext ∧
          r.pfx.ipLow ≤ q.pfx.ipNext) := by
      refine imp_congr_right fun _ => ⟨?_, ?_⟩
      · rintro ⟨q, hq, hlt, hle⟩
        exact ⟨q, mem_append_left _ hq, hbefore q hq r (by simp), hlt, hle⟩
      · rintro ⟨q, hq, hcmp, hlt, hle⟩
        refine ⟨q, (mem_append.mp hq).resolve_right fun hq => ?_, hlt, hle⟩
        rw [routeCompare_eq_lt] at hcmp
        obtain rfl | hq := mem_cons.mp hq
        · omega
        · have hcmp' := routeCompare_eq_lt.mp (hafter q hq)
          omega
    rw [forall_mem_cons, AllSheltered, hhead]
    rw [append_cons] at hsorted
    rw [ih hsorted, ← append_cons]

theorem qsortRoutes_precedes (hdistinct : (routes.map Route.pfx).Nodup) (horder : InOrder routes) :
    (qsortRoutes routes).Pairwise Precedes := by
  have hperm : (qsortRoutes routes).Perm routes := mergeSort_perm _ _
  refine (qsortRoutes_pairwise_lt hdistinct).imp_of_mem ?_
  intro r1 r2 h₁ h₂ hcmp
  exact horder r1 (hperm.mem_iff.mp h₁) r2 (hperm.mem_iff.mp h₂) hcmp

/-- **The sweep is safe exactly on enclosed tables**, for any sentinel. -/
theorem safe_iff_enclosed {dflt : BitVec 32} (hlen : ∀ r ∈ routes, r.pfx.len ≤ w)
    (hdistinct : (routes.map Route.pfx).Nodup) (horder : InOrder routes) :
    Safe endAddr dflt routes ↔ Enclosed endAddr routes := by
  have hperm : (qsortRoutes routes).Perm routes := mergeSort_perm _ _
  have hlt := qsortRoutes_pairwise_lt hdistinct
  have hprec := qsortRoutes_precedes hdistinct horder
  have hall : AllSheltered endAddr [] (qsortRoutes routes) ↔ Enclosed endAddr routes := by
    rw [allSheltered_iff (by simpa using hlt), nil_append]
    unfold Enclosed
    simp only [hperm.mem_iff]
  have hrun := foldlM_swept (swept_start endAddr dflt)
    (fun r hr => hlen r (hperm.mem_iff.mp (by simpa using hr))) (by simpa using hprec)
    (fun _ _ => Nat.zero_le _)
  rw [hall, nil_append] at hrun
  obtain ⟨henc, lo, st, hst, hsw⟩ | ⟨henc, hnone⟩ := hrun
  · refine iff_of_true ⟨st, hst, ?_⟩ henc
    rw [← hperm.length_eq]
    exact hsw.flush
  · refine iff_of_false ?_ henc
    rintro ⟨st, hst, -⟩
    rw [hnone] at hst
    cases hst

/-- Without host bits the order of the addresses is the order of the prefixes. -/
theorem inOrder_of_hostBitsZero (h : ∀ r ∈ routes, r.pfx.hostBitsZero) : InOrder routes := by
  intro r1 h₁ r2 h₂ hcmp
  unfold Precedes
  rw [show r1.pfx.ipLow = r1.pfx.addr from h r1 h₁, show r2.pfx.ipLow = r2.pfx.addr from h r2 h₂]
  exact (routeCompare_eq_lt.mp hcmp).imp_right fun ⟨ha, hl⟩ => ⟨ha, hl.le⟩

/-- Nothing is beyond the IPv4 sentinel. -/
theorem enclosed_v4_iff {routes : List (Route 32)} :
    Enclosed lpmEndAddrV4 routes ↔ ∀ r ∈ routes, r.pfx.ipLow ≠ lpmEndAddrV4 := by
  constructor
  · intro h r hr heq
    obtain ⟨q, -, -, hlt, -⟩ := h r hr (heq ▸ BitVec.le_refl _)
    rw [lt_def, lpmEndAddrV4, toNat_ofNat] at hlt
    omega
  · intro h r hr hle
    refine absurd (eq_of_toNat_eq ?_) (h r hr)
    rw [le_def, lpmEndAddrV4, toNat_ofNat] at hle
    rw [lpmEndAddrV4, toNat_ofNat]
    omega

/-- **When interval construction is safe**: for tables of distinct prefixes whose
addresses are in the order of the prefixes, exactly if no IPv4 route starts at
the all-ones address, and if every IPv6 route that starts at or above the
sentinel starts inside an earlier one that reaches beyond it. -/
theorem lpmBuildIntervalTable_safe_iff (dflt : BitVec 32) :
    (∀ routes : List (Route 32), (∀ r ∈ routes, r.pfx.len ≤ 32) →
      (routes.map Route.pfx).Nodup → InOrder routes →
        (Safe lpmEndAddrV4 dflt routes ↔ ∀ r ∈ routes, r.pfx.ipLow ≠ lpmEndAddrV4)) ∧
    (∀ routes : List (Route 128), (∀ r ∈ routes, r.pfx.len ≤ 128) →
      (routes.map Route.pfx).Nodup → InOrder routes →
        (Safe lpmEndAddrV6 dflt routes ↔ Enclosed lpmEndAddrV6 routes)) := by
  refine ⟨fun routes hlen hdistinct horder => ?_, fun routes hlen hdistinct horder => ?_⟩
  · rw [safe_iff_enclosed hlen hdistinct horder, enclosed_v4_iff]
  · exact safe_iff_enclosed hlen hdistinct horder

/-- The default route and a route above the IPv6 sentinel. -/
def shelteredRoutes : List (Route 128) :=
  [⟨⟨0#128, 0⟩, 1#32, 5#32⟩, ⟨⟨0xFFFFFFFF000000000000000000000000#128, 32⟩, 2#32, 5#32⟩]

theorem lpmBuildIntervalTable_safe_iff_examples :
    Safe lpmEndAddrV4 0#32 nestedRoutes ∧ Safe lpmEndAddrV6 0#32 shelteredRoutes := by
  have hv4 := (lpmBuildIntervalTable_safe_iff 0#32).1 nestedRoutes (by decide) (by decide)
    (inOrder_of_hostBitsZero (by decide))
  have hv6 := (lpmBuildIntervalTable_safe_iff 0#32).2 shelteredRoutes (by decide) (by decide)
    (inOrder_of_hostBitsZero (by decide))
  refine ⟨hv4.mpr (by decide), hv6.mpr fun r hr hle => ?_⟩
  obtain rfl | hr := mem_cons.mp hr
  · exact absurd hle (by decide)
  · rw [mem_singleton.mp hr]
    exact ⟨_, mem_cons_self .., by decide, by decide, by decide⟩

/-- A route to the last IPv4 address. -/
def lastRoute : List (Route 32) := [⟨⟨0xFFFFFFFF#32, 32⟩, 1#32, 5#32⟩]

/-- A route above the IPv6 sentinel. -/
def highRoute : List (Route 128) := [⟨⟨0xFFFFFFFF000000000000000000000000#128, 32⟩, 1#32, 5#32⟩]

/-- Routes whose addresses are not in the order of their prefixes. -/
def hostBitsRoutes : List (Route 32) :=
  [⟨⟨0x0A010000#32, 16⟩, 1#32, 5#32⟩, ⟨⟨0x0A010203#32, 8⟩, 2#32, 5#32⟩]

/-- The first two empty the stack; the third emits `10.1.0.0` before `10.0.0.0`. -/
theorem not_safe_examples : ¬ Safe lpmEndAddrV4 0#32 lastRoute ∧
    ¬ Safe lpmEndAddrV6 0#32 highRoute ∧ ¬ Safe lpmEndAddrV4 0#32 hostBitsRoutes := by
  have hlast : qsortRoutes lastRoute = lastRoute := mergeSort_of_pairwise (by decide)
  have hhigh : qsortRoutes highRoute = highRoute := mergeSort_of_pairwise (by decide)
  have hhost : qsortRoutes hostBitsRoutes = hostBitsRoutes := mergeSort_of_pairwise (by decide)
  refine ⟨?_, ?_, ?_⟩
  · rintro ⟨st, hst, -⟩
    rw [hlast] at hst
    exact absurd (Option.isSome_iff_exists.mpr ⟨st, hst⟩) (by decide)
  · rintro ⟨st, hst, -⟩
    rw [hhigh] at hst
    exact absurd (Option.isSome_iff_exists.mpr ⟨st, hst⟩) (by decide)
  · rintro ⟨st, hst, -, hsorted, -⟩
    rw [hhost] at hst
    have hrun : hostBitsRoutes.foldlM addRoute (itableStart lpmEndAddrV4 0#32)
        = some ⟨[⟨⟨0x0B000000#32, 1#32⟩, 2#32, 5#32⟩, ⟨⟨0x0A020000#32, 0#32⟩, 1#32, 5#32⟩,
            ⟨⟨lpmEndAddrV4, lpmNexthopInvalid⟩, 0#32, 0xFFFFFFFF#32⟩],
          [⟨0x0A010000#32, 1#32⟩, ⟨0x0A000000#32, 2#32⟩]⟩ := by decide
    rw [← Option.some.inj (hrun.symm.trans hst)] at hsorted
    revert hsorted
    unfold StrictlySorted
    decide

end NicSw
