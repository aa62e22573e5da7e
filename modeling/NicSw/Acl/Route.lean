/-
The route table of the HAL (`hal/plugins/cfg/nw/route_acl.cc`): longest prefix match on top
of the ACL classifier.

A route is a rule with two fields, the VRF and the prefix, whose priority number is smaller
the longer the prefix is.  So the best match of the classifier is a longest prefix, wherever
the classifier has filed the routes, as long as the rule of a route matches what the route
contains.  It does not for a prefix of length 0: the address is then shifted by 32 bits,
which is no shift at all, and the default route matches its own address only.  And the field
of the VRF has 32 bits of the 64 bits of a VRF id.
-/
import NicSw.Acl.Ctx
import Mathlib.Data.List.Pairwise

namespace NicSw.Acl

open Function

/-! ### The model -/

/-- `route_acl_config`. -/
def routeAclConfig : Config where
  numFields := 2
  defs
    | 0 => ⟨.exact, .u32, 0⟩
    | 1 => ⟨.pfx, .u32, 4⟩
  maxFields := by decide

/-- `ROUTE_TUPLE_VRF_ID`. -/
def routeTupleVrfId : Fin routeAclConfig.numFields := ⟨0, by decide⟩

/-- `ROUTE_TUPLE_IP_PREFIX`. -/
def routeTupleIpPrefix : Fin routeAclConfig.numFields := ⟨1, by decide⟩

/-- The part of `route_t` that the route table reads. -/
structure Route where
  vrfId : BitVec 64
  addr : BitVec 32
  len : Nat
  halHandle : Nat
  deriving DecidableEq, Repr

/-- The rule that `route_acl_add_route` makes, with the address of its user data. -/
def routeAclRule (udata : Nat) (route : Route) : Rule routeAclConfig where
  categoryMask := 1
  priority := 32 - route.len
  userdata := udata
  field fid :=
    if fid = routeTupleVrfId then ⟨⟨route.vrfId.setWidth 32⟩, ⟨0xFFFFFFFF⟩, false⟩
    else ⟨⟨route.addr⟩, ⟨BitVec.ofNat 32 route.len⟩, false⟩

/-- The committed context, and the user data: the route handle at each address.  Rules and
user data are never freed, a route keeps its reference to its rule. -/
structure RouteTable where
  ctx : Ctx routeAclConfig
  udata : Nat → Nat
  next : Nat

namespace RouteTable

/-- `route_acl_create`. -/
def create : RouteTable := ⟨Ctx.create, fun _ => 0, 0⟩

/-- `route_acl_add_route`: the table and the rule of the route. -/
def addRoute (t : RouteTable) (route : Route) : RouteTable × Rule routeAclConfig :=
  let rule := routeAclRule t.next route
  (⟨(t.ctx.addRule rule).2, update t.udata t.next route.halHandle, t.next + 1⟩, rule)

/-- `route_acl_del_route` of a route with this rule. -/
def delRoute (t : RouteTable) (routeRule : Rule routeAclConfig) : RouteTable :=
  { t with ctx := t.ctx.delRule routeRule }

/-- The bytes of a `route_tuple_t`. -/
def tupleKey (vrfId ipPfx : BitVec 32) : Key := fun i =>
  BitVec.ofNat 8 (if i < 4 then vrfId.toNat / 256 ^ i else ipPfx.toNat / 256 ^ (i - 4))

/-- `route_acl_lookup`; `none` is `HAL_RET_ROUTE_NOT_FOUND`. -/
def lookup (t : RouteTable) (vrfId : BitVec 64) (addr : BitVec 32) : Option Nat :=
  (t.ctx.classify (tupleKey (vrfId.setWidth 32) addr)).map fun rule => t.udata rule.userdata

end RouteTable

/-! ### Longest prefix match -/

/-- The route is one of the VRF and its prefix contains the address. -/
def Route.contains (r : Route) (vrfId : BitVec 64) (addr : BitVec 32) : Prop :=
  r.vrfId = vrfId ∧ r.addr.toNat >>> (32 - r.len) = addr.toNat >>> (32 - r.len)

/-- Two routes of the same VRF with the same prefix. -/
def Route.same (r s : Route) : Prop :=
  r.vrfId = s.vrfId ∧ r.len = s.len ∧ r.addr.toNat >>> (32 - r.len) = s.addr.toNat >>> (32 - s.len)

/-- `r` is a route with the longest prefix among those that contain the address. -/
structure IsLongest (routes : List Route) (vrfId : BitVec 64) (addr : BitVec 32)
    (r : Route) : Prop where
  mem : r ∈ routes
  contains : r.contains vrfId addr
  longest : ∀ s ∈ routes, s.contains vrfId addr → s.len ≤ r.len

/-- **Longest prefix match**: the handle is that of the route with the longest prefix, and
there is none if no route contains the address. -/
def LongestMatch (routes : List Route) (vrfId : BitVec 64) (addr : BitVec 32)
    (handle : Option Nat) : Prop :=
  (∀ r, IsLongest routes vrfId addr r → handle = some r.halHandle) ∧
    ((∀ r ∈ routes, ¬ r.contains vrfId addr) → handle = none)

/-! ### What the rule of a route matches -/

variable {udata : Nat} {r s : Route} {vrfId : BitVec 64} {addr : BitVec 32}

theorem fieldKey_vrfId (v a : BitVec 32) :
    fieldKey routeAclConfig routeTupleVrfId (RouteTable.tupleKey v a) = v.toNat := by
  refine keyBytes_of_bytes v.isLt fun j hj => ?_
  have hj' : j < 4 := hj
  show RouteTable.tupleKey v a (0 + j) = _
  rw [Nat.zero_add, RouteTable.tupleKey, if_pos hj']

theorem fieldKey_ipPrefix (v a : BitVec 32) :
    fieldKey routeAclConfig routeTupleIpPrefix (RouteTable.tupleKey v a) = a.toNat := by
  refine keyBytes_of_bytes a.isLt fun j hj => ?_
  show RouteTable.tupleKey v a (4 + j) = _
  rw [RouteTable.tupleKey, if_neg (by omega), Nat.add_sub_cancel_left]

theorem fldMatch_vrfId (v w : BitVec 32) :
    fldMatch .exact w.toNat .u32 ⟨⟨v⟩, ⟨0xFFFFFFFF⟩, false⟩ = true ↔ v = w := by
  have hand : ∀ v : BitVec 32, v.toNat &&& 0xFFFFFFFF = v.toNat := by
    intro v
    rw [show (0xFFFFFFFF : Nat) = 2 ^ 32 - 1 from rfl, Nat.and_two_pow_sub_one_eq_mod]
    exact Nat.mod_eq_of_lt v.isLt
  have hv : v.toNat % 2 ^ 32 = v.toNat := Nat.mod_eq_of_lt v.isLt
  show (v.toNat % 2 ^ 32 &&& 0xFFFFFFFF == w.toNat &&& 0xFFFFFFFF) = true ↔ v = w
  rw [hv, hand, hand, beq_iff_eq, BitVec.toNat_inj]

theorem fldMatch_ipPrefix (a b : BitVec 32) {len : Nat} (hlen : len ≤ 32) :
    fldMatch .pfx b.toNat .u32 ⟨⟨a⟩, ⟨BitVec.ofNat 32 len⟩, false⟩ = true ↔
      a.toNat >>> ((32 - len) % 32) = b.toNat >>> ((32 - len) % 32) := by
  have ha : a.toNat % 2 ^ 32 = a.toNat := Nat.mod_eq_of_lt a.isLt
  have hget : (FieldVal.mk (BitVec.ofNat 32 len)).get .u32 = len := by
    show (BitVec.ofNat 32 len).toNat % 2 ^ 32 = len
    rw [BitVec.toNat_ofNat]
    omega
  have hshift : prefixShift .u32 ⟨⟨a⟩, ⟨BitVec.ofNat 32 len⟩, false⟩ = (32 - len) % 32 := by
    rw [prefixShift, hget]
    show (32 + 2 ^ 32 - len) % 32 = _
    omega
  rw [fldMatch, hshift, beq_iff_eq]
  show (a.toNat % 2 ^ 32) >>> _ = _ ↔ _
  rw [ha]

/-- **What the rule of a route matches**: 32 bits of the VRF, and the address with its bits
shifted out modulo 32. -/
theorem ruleMatch_routeAclRule (hlen : r.len ≤ 32) :
    ruleMatch routeAclConfig (routeAclRule udata r)
        (RouteTable.tupleKey (vrfId.setWidth 32) addr) = true ↔
      r.vrfId.setWidth 32 = vrfId.setWidth 32 ∧
        r.addr.toNat >>> ((32 - r.len) % 32) = addr.toNat >>> ((32 - r.len) % 32) := by
  rw [ruleMatch_iff, ← fldMatch_vrfId, ← fldMatch_ipPrefix r.addr addr hlen]
  constructor
  · intro h
    have hv := h routeTupleVrfId rfl
    have ha := h routeTupleIpPrefix rfl
    rw [fieldKey_vrfId] at hv
    rw [fieldKey_ipPrefix] at ha
    exact ⟨hv, ha⟩
  · rintro ⟨hv, ha⟩ ⟨fid, hfid⟩ -
    match fid, hfid with
    | 0, _ => exact (fieldKey_vrfId (vrfId.setWidth 32) addr).symm ▸ hv
    | 1, _ => exact (fieldKey_ipPrefix (vrfId.setWidth 32) addr).symm ▸ ha

/-- The address is in the rule of a route iff it is in its prefix, or for a prefix of length
0, iff it is the address of the route. -/
theorem shift_mod (hlen : r.len ≤ 32) :
    r.addr.toNat >>> ((32 - r.len) % 32) = addr.toNat >>> ((32 - r.len) % 32) ↔
      r.addr.toNat >>> (32 - r.len) = addr.toNat >>> (32 - r.len) ∧
        (r.len = 0 → r.addr = addr) := by
  by_cases h0 : r.len = 0
  · -- 32 is no shift at all
    have hz : ∀ v : BitVec 32, v.toNat >>> 32 = 0 := fun v => by
      rw [Nat.shiftRight_eq_div_pow]
      exact Nat.div_eq_of_lt v.isLt
    simp [h0, hz, BitVec.toNat_inj]
  · rw [Nat.mod_eq_of_lt (by omega)]
    exact ⟨fun h => ⟨h, fun hc => absurd hc h0⟩, fun h => h.1⟩

/-! ### Runs -/

/-- A route table, and the routes that were added and not deleted, each with its rule. -/
structure RouteRun where
  table : RouteTable
  live : List (Route × Rule routeAclConfig)

/-- The routes of a run. -/
def RouteRun.routes (s : RouteRun) : List Route := s.live.map Prod.fst

/-- A route is added whose VRF and prefix are not those of a route present, or a route is
deleted. -/
inductive RouteStep : RouteRun → RouteRun → Prop
  | add (s : RouteRun) (r : Route) (hlen : r.len ≤ 32) (hd : ∀ q ∈ s.routes, ¬ r.same q) :
      RouteStep s ⟨(s.table.addRoute r).1, (r, (s.table.addRoute r).2) :: s.live⟩
  | del (s : RouteRun) (x : Route × Rule routeAclConfig) (hx : x ∈ s.live) :
      RouteStep s ⟨s.table.delRoute x.2, s.live.filter fun y => y.2 ≠ x.2⟩

/-- A new route table. -/
def RouteStart (s : RouteRun) : Prop := s = ⟨RouteTable.create, []⟩

/-- What every step keeps: the rules of the classifier are those of the routes, and each has
its own user data with the handle of the route. -/
structure RouteInv (s : RouteRun) : Prop where
  filed : Filed s.table.ctx
  rules : s.table.ctx.rules.Perm (s.live.map Prod.snd)
  rule : ∀ x ∈ s.live, x.1.len ≤ 32 ∧ ∃ u < s.table.next,
    x.2 = routeAclRule u x.1 ∧ s.table.udata u = x.1.halHandle
  udata : s.live.Pairwise fun x y => x.2.userdata ≠ y.2.userdata
  distinct : s.routes.Pairwise fun r q => ¬ r.same q

namespace RouteInv

variable {t : RouteRun}

theorem start : RouteInv ⟨RouteTable.create, []⟩ where
  filed := .create
  rules := by
    show (Ctx.create : Ctx routeAclConfig).rules.Perm []
    rw [Ctx.rules_create]
  rule := by simp
  udata := .nil
  distinct := .nil

/-- Rules with user data of their own differ under `acl_rule_compare`. -/
theorem ruleCompare_eq_false {a b : Rule routeAclConfig} (h : a.userdata ≠ b.userdata) :
    ruleCompare routeAclConfig a b = false :=
  Bool.eq_false_iff.2 fun hc => h (ruleCompare_iff.1 hc).2.2.1

theorem add (h : RouteInv t) (hlen : r.len ≤ 32) (hd : ∀ q ∈ t.routes, ¬ r.same q) :
    RouteInv ⟨(t.table.addRoute r).1, (r, (t.table.addRoute r).2) :: t.live⟩ where
  filed := h.filed.addRule _
  rules := (Ctx.rules_addRule _ _).trans (h.rules.cons _)
  rule := by
    refine List.forall_mem_cons.2 ⟨⟨hlen, t.table.next, Nat.lt_succ_self _, rfl, ?_⟩, ?_⟩
    · exact update_self ..
    · intro x hx
      obtain ⟨hl, u, hu, hr, hh⟩ := h.rule x hx
      refine ⟨hl, u, Nat.lt_succ_of_lt hu, hr, ?_⟩
      rw [← hh]
      exact update_of_ne (Nat.ne_of_lt hu) ..
  udata := by
    refine List.pairwise_cons.2 ⟨fun x hx => ?_, h.udata⟩
    obtain ⟨-, u, hu, hr, -⟩ := h.rule x hx
    rw [hr]
    exact Nat.ne_of_gt hu
  distinct := List.pairwise_cons.2 ⟨hd, h.distinct⟩

/-- Deleting a rule deletes no other one. -/
theorem del (h : RouteInv t) {x : Route × Rule routeAclConfig} (hx : x ∈ t.live) :
    RouteInv ⟨t.table.delRoute x.2, t.live.filter fun y => y.2 ≠ x.2⟩ where
  filed := h.filed.delRule _
  rules := by
    have hpair : (t.live.map Prod.snd).Pairwise fun a b =>
        ruleCompare routeAclConfig a b = false :=
      List.pairwise_map.2 (h.udata.imp ruleCompare_eq_false)
    have hd : t.table.ctx.rules.Pairwise fun a b => ruleCompare routeAclConfig a b = false := by
      refine (h.rules.pairwise_iff fun {a b} hab => ?_).2 hpair
      refine Bool.eq_false_iff.2 fun hba => ?_
      rw [ruleCompare_symm hba] at hab
      cases hab
    -- among the rules of the routes, comparing equal is being equal
    have hself : ∀ y ∈ t.live, ruleCompare routeAclConfig x.2 y.2 = decide (y.2 = x.2) := by
      intro y hy
      by_cases hyx : y.2 = x.2
      · rw [hyx, ruleCompare_refl, decide_eq_true rfl]
      rw [decide_eq_false hyx]
      refine ruleCompare_eq_false fun hu => ?_
      have hne : x ≠ y := fun hxy => hyx (hxy ▸ rfl)
      have : Std.Symm fun x y : Route × Rule routeAclConfig =>
          x.2.userdata ≠ y.2.userdata := ⟨fun _ _ hab => hab.symm⟩
      exact h.udata.forall hx hy hne hu
    show (t.table.ctx.delRule x.2).rules.Perm _
    rw [Ctx.rules_delRule h.filed x.2 hd]
    refine (h.rules.filter _).trans ?_
    rw [List.filter_map]
    refine .map _ (.of_eq (List.filter_congr fun y hy => ?_))
    simp [hself y hy]
  rule := fun y hy => h.rule y (List.mem_filter.1 hy).1
  udata := h.udata.filter _
  distinct := by
    have hs : ((t.live.filter fun y => y.2 ≠ x.2).map Prod.fst).Sublist t.routes :=
      List.filter_sublist.map _
    exact h.distinct.sublist hs

theorem step {t' : RouteRun} (h : RouteInv t) (hs : RouteStep t t') : RouteInv t' := by
  cases hs with
  | add r hlen hd => exact h.add hlen hd
  | del x hx => exact h.del hx

theorem of_reachable (h : Reachable RouteStart RouteStep t) : RouteInv t :=
  h.invariant (by rintro s rfl; exact .start) fun _ _ hi hs => hi.step hs

/-- A route whose rule matches: one of 32 bits of the VRF that contains the address, and if
its prefix is empty, one with this very address. -/
def Hit (r : Route) (vrfId : BitVec 64) (addr : BitVec 32) : Prop :=
  r.vrfId.setWidth 32 = vrfId.setWidth 32 ∧
    r.addr.toNat >>> (32 - r.len) = addr.toNat >>> (32 - r.len) ∧ (r.len = 0 → r.addr = addr)

/-- **A lookup gives the handle of a longest route that is hit**, and nothing if none is. -/
theorem lookup_hit (h : RouteInv t) (vrfId : BitVec 64) (addr : BitVec 32) :
    (t.table.lookup vrfId addr = none ∧ ∀ r ∈ t.routes, ¬ Hit r vrfId addr) ∨
      ∃ b ∈ t.routes, t.table.lookup vrfId addr = some b.halHandle ∧ Hit b vrfId addr ∧
        ∀ r ∈ t.routes, Hit r vrfId addr → r.len ≤ b.len := by
  have hmatch : ∀ x ∈ t.live, ruleMatch routeAclConfig x.2
      (RouteTable.tupleKey (vrfId.setWidth 32) addr) = true ↔ Hit x.1 vrfId addr := by
    intro x hx
    obtain ⟨hlen, u, -, hr, -⟩ := h.rule x hx
    rw [hr, ruleMatch_routeAclRule hlen, shift_mod hlen, Hit]
  have hbest := (h.filed.classify_isBest
    (RouteTable.tupleKey (vrfId.setWidth 32) addr)).of_perm h.rules
  rw [RouteTable.lookup]
  cases hc : t.table.ctx.classify (RouteTable.tupleKey (vrfId.setWidth 32) addr) with
  | none =>
    rw [hc] at hbest
    refine .inl ⟨rfl, fun r hr hit => ?_⟩
    obtain ⟨x, hx, rfl⟩ := List.mem_map.1 hr
    have hno := hbest x.2 (List.mem_map_of_mem hx)
    rw [(hmatch x hx).2 hit] at hno
    cases hno
  | some b =>
    rw [hc] at hbest
    obtain ⟨hb, hm, hmin⟩ := hbest
    obtain ⟨x, hx, rfl⟩ := List.mem_map.1 hb
    obtain ⟨hlen, u, -, hr, hu⟩ := h.rule x hx
    refine .inr ⟨x.1, List.mem_map_of_mem hx, ?_, (hmatch x hx).1 hm, fun r hr' hit => ?_⟩
    · show some (t.table.udata x.2.userdata) = _
      rw [hr]
      exact congrArg some hu
    · -- a smaller priority number is a longer prefix
      obtain ⟨y, hy, rfl⟩ := List.mem_map.1 hr'
      have hle := hmin y.2 (List.mem_map_of_mem hy) ((hmatch y hy).2 hit)
      obtain ⟨hly, v, -, hry, -⟩ := h.rule y hy
      rw [hr, hry] at hle
      have hle' : 32 - x.1.len ≤ 32 - y.1.len := hle
      omega

end RouteInv

/-! ### When a lookup is right -/

/-- No route of another VRF agrees with the VRF in the 32 bits that are compared. -/
def VrfClear (routes : List Route) (vrfId : BitVec 64) : Prop :=
  ∀ r ∈ routes, r.vrfId.setWidth 32 = vrfId.setWidth 32 → r.vrfId = vrfId

/-- A default route of the VRF is for this very address, or another route of the VRF
contains the address. -/
def DefaultClear (routes : List Route) (vrfId : BitVec 64) (addr : BitVec 32) : Prop :=
  ∀ r ∈ routes, r.vrfId = vrfId → r.len = 0 →
    r.addr = addr ∨ ∃ q ∈ routes, 0 < q.len ∧ q.contains vrfId addr

/-- A default route contains every address. -/
theorem Route.contains_default (hv : r.vrfId = vrfId) (h0 : r.len = 0) : r.contains vrfId addr := by
  refine ⟨hv, ?_⟩
  have hz : ∀ v : BitVec 32, v.toNat >>> 32 = 0 := by
    intro v
    rw [Nat.shiftRight_eq_div_pow]
    exact Nat.div_eq_of_lt v.isLt
  rw [h0, Nat.sub_zero, hz, hz]

/-- Routes of one length that contain the same address have the same prefix. -/
theorem Route.same_of_contains (hr : r.contains vrfId addr) (hs : s.contains vrfId addr)
    (hlen : r.len = s.len) : r.same s := by
  refine ⟨hr.1.trans hs.1.symm, hlen, ?_⟩
  rw [hr.2, hs.2, hlen]

/-- A prefix is present at most once. -/
theorem RouteInv.eq_of_same {t : RouteRun} (h : RouteInv t) (hr : r ∈ t.routes)
    (hs : s ∈ t.routes) (hrs : r.same s) : r = s := by
  have : Std.Symm fun r s : Route => ¬ r.same s :=
    ⟨fun _ _ hn hsame => hn ⟨hsame.1.symm, hsame.2.1.symm, hsame.2.2.symm⟩⟩
  by_contra hne
  exact h.distinct.forall hr hs hne hrs

/-- **The route table is longest prefix match up to the default route.**  After any
additions and deletions, where the VRF is told apart by 32 bits, a lookup is right exactly if
no default route is needed, or the one there is has this very address. -/
theorem lookup_longest_iff {t : RouteRun} (h : Reachable RouteStart RouteStep t)
    (hvrf : VrfClear t.routes vrfId) :
    LongestMatch t.routes vrfId addr (t.table.lookup vrfId addr) ↔
      DefaultClear t.routes vrfId addr := by
  have hinv := RouteInv.of_reachable h
  have hcont : ∀ r ∈ t.routes, RouteInv.Hit r vrfId addr → r.contains vrfId addr :=
    fun r hr hit => ⟨hvrf r hr hit.1, hit.2.1⟩
  constructor
  · rintro ⟨hfound, -⟩ r hr hv h0
    -- the default route alone contains the address, but its rule does not match
    by_contra hno
    push Not at hno
    obtain ⟨hne, hother⟩ := hno
    have hlongest : IsLongest t.routes vrfId addr r := by
      refine ⟨hr, Route.contains_default hv h0, fun q hq hc => ?_⟩
      by_contra hlt
      exact hother q hq (by omega) hc
    have hsome := hfound r hlongest
    obtain ⟨hnone, -⟩ | ⟨b, hb, -, hit, -⟩ := hinv.lookup_hit vrfId addr
    · rw [hnone] at hsome
      cases hsome
    have hb0 : b.len = 0 := by
      by_contra hpos
      exact hother b hb (by omega) (hcont b hb hit)
    have heq := hinv.eq_of_same hb hr
      (Route.same_of_contains (hcont b hb hit) hlongest.contains (hb0.trans h0.symm))
    exact hne (heq ▸ hit.2.2 hb0)
  · intro hclear
    obtain ⟨hnone, hnohit⟩ | ⟨b, hb, hsome, hit, hmax⟩ := hinv.lookup_hit vrfId addr
    · -- nothing is hit, so that nothing contains the address
      have hnot : ∀ r ∈ t.routes, ¬ r.contains vrfId addr := by
        intro r hr hc
        by_cases h0 : r.len = 0
        · obtain heq | ⟨q, hq, hpos, hqc⟩ := hclear r hr hc.1 h0
          · exact hnohit r hr ⟨by rw [hc.1], hc.2, fun _ => heq⟩
          · exact hnohit q hq ⟨by rw [hqc.1], hqc.2, fun hz => absurd hz (by omega)⟩
        · exact hnohit r hr ⟨by rw [hc.1], hc.2, fun hz => absurd hz h0⟩
      rw [hnone]
      exact ⟨fun r hr => absurd hr.contains (hnot r hr.mem), fun _ => rfl⟩
    · rw [hsome]
      refine ⟨fun r hr => ?_, fun hno => absurd (hcont b hb hit) (hno b hb)⟩
      -- a longest route is hit as well, so that the two have one length and are the same
      have hrhit : RouteInv.Hit r vrfId addr := by
        refine ⟨by rw [hr.contains.1], hr.contains.2, fun h0 => ?_⟩
        obtain heq | ⟨q, hq, hpos, hqc⟩ := hclear r hr.mem hr.contains.1 h0
        · exact heq
        · have := hr.longest q hq hqc
          omega
      have hle1 := hmax r hr.mem hrhit
      have hle2 := hr.longest b hb (hcont b hb hit)
      rw [hinv.eq_of_same hr.mem hb
        (Route.same_of_contains hr.contains (hcont b hb hit) (by omega))]

/-- The route 10.0.0.0/8 and a host route in it, both of VRF 1, and a default route of VRF 2. -/
def netRoute : Route := ⟨1, 0x0A000000, 8, 100⟩
def hostRoute : Route := ⟨1, 0x0A000001, 32, 101⟩
def defaultRoute : Route := ⟨2, 0, 0, 102⟩

/-- The route table with these three routes, after the host route was deleted. -/
def routeRun : RouteRun :=
  let t1 := RouteTable.create.addRoute netRoute
  let t2 := t1.1.addRoute hostRoute
  let t3 := t2.1.addRoute defaultRoute
  ⟨t3.1.delRoute t2.2, [(defaultRoute, t3.2), (netRoute, t1.2)]⟩

theorem routeRun_reachable : Reachable RouteStart RouteStep routeRun := by
  have h₀ : Reachable RouteStart RouteStep ⟨RouteTable.create, []⟩ := .start rfl
  have h1 := h₀.step (.add _ netRoute (by decide) (by simp [RouteRun.routes]))
  have h2 := h1.step (.add _ hostRoute (by decide) (by
    simp [RouteRun.routes, Route.same, netRoute, hostRoute]))
  have h3 := h2.step (.add _ defaultRoute (by decide) (by
    simp [RouteRun.routes, Route.same, netRoute, hostRoute, defaultRoute]))
  exact h3.step (.del _ (hostRoute, _) (by simp))

/-- Without the host route its address goes to the network. -/
theorem lookup_longest_iff_net :
    LongestMatch routeRun.routes 1 0x0A000001 (routeRun.table.lookup 1 0x0A000001) := by
  refine (lookup_longest_iff routeRun_reachable ?_).2 ?_
  · unfold VrfClear
    decide
  · intro r hr hv h0
    have hr' : r = defaultRoute ∨ r = netRoute := by simpa [routeRun, RouteRun.routes] using hr
    obtain rfl | rfl := hr'
    · exact absurd hv (by decide)
    · exact absurd h0 (by decide)

/-- **The default route is not found**, and a route of VRF 1 is found in VRF `2 ^ 32 + 1`. -/
theorem not_lookup_longest :
    Reachable RouteStart RouteStep routeRun ∧
      ¬ LongestMatch routeRun.routes 2 0x08080808 (routeRun.table.lookup 2 0x08080808) ∧
      ¬ LongestMatch routeRun.routes 0x100000001 0x0A000001
        (routeRun.table.lookup 0x100000001 0x0A000001) := by
  have hmem : ∀ r, r ∈ routeRun.routes ↔ r = defaultRoute ∨ r = netRoute := by
    intro r
    simp [routeRun, RouteRun.routes]
  have h1 : routeRun.table.lookup 2 0x08080808 = none := by decide
  have h2 : routeRun.table.lookup 0x100000001 0x0A000001 = some 100 := by decide
  refine ⟨routeRun_reachable, fun h => ?_, fun h => ?_⟩
  · rw [h1] at h
    have hl : IsLongest routeRun.routes 2 0x08080808 defaultRoute := by
      refine ⟨(hmem _).2 (.inl rfl), ⟨rfl, by decide⟩, fun s hs hc => ?_⟩
      obtain rfl | rfl := (hmem s).1 hs
      · exact Nat.le_refl _
      · exact absurd hc.1 (by decide)
    cases h.1 _ hl
  · rw [h2] at h
    have hno := h.2 fun r hr hc => by
      obtain rfl | rfl := (hmem r).1 hr
      · exact absurd hc.1 (by decide)
      · exact absurd hc.1 (by decide)
    cases hno

end NicSw.Acl
