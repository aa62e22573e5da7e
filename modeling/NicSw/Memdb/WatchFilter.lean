/-
Watch filters on the controller side of memdb.

Watch options of a DSC select the objects that it is sent.  DSCs with the same options
of a kind share a filter group, which has the filters that the options stand for and
the channels of the DSCs.  The groups are rebuilt as watchers come and go and options
are set, changed and cleared; `Members` says that the channels of a group are always
those of the DSCs with its options.

`watchEvent` sends inside the loop over the filters: a channel gets the event once for
every filter before the first that rejects the object, and not at all if there is no
filter.

The parsers of selectors and the string that tells options apart are parameters.
Filters are only used without a previous version of the object.  Calls are made one at
a time, and channels have room.
-/
import Mathlib.Algebra.Order.BigOperators.Group.Finset
import Mathlib.Data.List.AList
import NicSw.Lib.Run

namespace NicSw.WatchFilter

open Function List Option

/-! ### Objects, options and filters -/

/-- `api.ObjectMeta`, as far as filters look at it. -/
structure ObjectMeta where
  name : String := ""
  tenant : String := ""
  nameSpace : String := ""
  resourceVersion : String := ""
  labels : List (String × String) := []
  deriving DecidableEq, Repr

/-- An object; field selectors look at its `spec` too. -/
structure Object where
  kind : String
  objectMeta : ObjectMeta
  spec : Nat := 0
  deriving DecidableEq, Repr

/-- `api.ListWatchOptions`; `other` stands for the fields that filters do not look at. -/
structure ListWatchOptions extends ObjectMeta where
  labelSelector : String := ""
  fieldSelector : String := ""
  fieldChangeSelector : List String := []
  other : Nat := 0
  deriving DecidableEq, Repr

/-- `FilterFn`, without a previous version; `none` where the process is ended. -/
abbrev FilterFn := Object → Option Bool

/-- The packages that filters and groups use. -/
structure Env where
  /-- `labels.Parse`, and `Matches` of the selector. -/
  parseLabels : String → Option (List (String × String) → Bool)
  /-- `fields.Parse`, and `MatchesObj` of the selector. -/
  parseFields : String → Option (Object → Bool)
  /-- `fields.ParseWithValidation`. -/
  parseFieldsWithValidation : String → String → Option (Object → Bool)
  /-- `getWatchOptionsStr`. -/
  getWatchOptionsStr : ListWatchOptions → String

/-- `strconv.ParseUint(s, 10, 64)`. -/
def parseUint (s : String) : Option Nat :=
  let n := s.toList.foldl (fun n c => 10 * n + (c.toNat - '0'.toNat)) 0
  if s ≠ "" ∧ s.toList.all Char.isDigit ∧ n < 2 ^ 64 then some n else none

/-- `fromVersionFilterFn`. -/
def fromVersionFilterFn (fromVer : Nat) : FilterFn := fun obj =>
  (parseUint obj.objectMeta.resourceVersion).map fun ver => decide (fromVer ≤ ver)

/-- `nameFilterFn`. -/
def nameFilterFn (name : String) : FilterFn := fun obj => some (decide (obj.objectMeta.name = name))

/-- `tenantFilterFn`. -/
def tenantFilterFn (tenant : String) : FilterFn := fun obj =>
  some (decide (obj.objectMeta.tenant = tenant))

/-- `namespaceFilterFn`. -/
def namespaceFilterFn (nameSpace : String) : FilterFn := fun obj =>
  some (decide (obj.objectMeta.nameSpace = nameSpace))

/-- `labelSelectorFilterFn`. -/
def labelSelectorFilterFn (matchesLabels : List (String × String) → Bool) : FilterFn := fun obj =>
  some (matchesLabels obj.objectMeta.labels)

/-- `fieldSelectorFilterFn`. -/
def fieldSelectorFilterFn (matchesObj : Object → Bool) : FilterFn := fun obj =>
  some (matchesObj obj)

/-- `fieldChangeSelectorFilterFn`: without a previous version `ObjDiff` has no elements, and
`Lookup` finds every path. -/
def fieldChangeSelectorFilterFn (selectors : List String) : FilterFn := fun _ =>
  some (!selectors.isEmpty)

/-- `GetWatchFilter`.  A selector that cannot be parsed leaves no filters at all. -/
def getWatchFilter (env : Env) (kind : String) (opts : ListWatchOptions) :
    Option (List FilterFn) := do
  let version ← if opts.resourceVersion ≠ "" then
      (parseUint opts.resourceVersion).map fun ver => [fromVersionFilterFn ver]
    else some []
  let filters := version ++
    (if opts.name ≠ "" then [nameFilterFn opts.name] else []) ++
    (if opts.tenant ≠ "" then [tenantFilterFn opts.tenant] else []) ++
    (if opts.nameSpace ≠ "" then [namespaceFilterFn opts.nameSpace] else [])
  let changes := if opts.fieldChangeSelector.length ≠ 0 then
    [fieldChangeSelectorFilterFn opts.fieldChangeSelector] else []
  let labels := if opts.labelSelector ≠ "" then
    (env.parseLabels opts.labelSelector).map fun s => [labelSelectorFilterFn s] else some []
  let fields := if opts.fieldSelector ≠ "" then
    (if kind ≠ "" then env.parseFieldsWithValidation kind opts.fieldSelector
      else env.parseFields opts.fieldSelector).map fun s => [fieldSelectorFilterFn s] else some []
  match labels, fields with
  | some labels, some fields => some (filters ++ labels ++ fields ++ changes)
  | _, _ => some []

/-! ### Groups -/

/-- The name of a DSC. -/
abbrev Dsc := String

/-- A channel of a watcher. -/
abbrev Chan := Nat

/-- `WFilterGroup`. -/
structure WFilterGroup where
  filters : List FilterFn
  watchers : List Chan
  watchOptions : ListWatchOptions

/-- `DSCWatcherInfo`; only the filters are read through `filterGroup`. -/
structure DSCWatcherInfo where
  watchers : List Chan := []
  watchOptions : ListWatchOptions := {}
  filterGroup : Option (List FilterFn) := none

/-- `watcherFilterSet`: the groups of a kind, by the strings of their options. -/
abbrev FilterSet := AList fun _ : String => WFilterGroup

/-- `Memdb`, as far as watch filters are concerned.  A kind without a filter set has the empty
one. -/
structure Memdb where
  dscWatcherInfo : Dsc → Option (String → Option DSCWatcherInfo)
  filterGroups : String → FilterSet

/-- `removeWatcherFromList`, for one watcher after the other up to the first that is not
there. -/
def removeWatchersFromList : List Chan → List Chan → List Chan × Bool
  | [], l => (l, true)
  | w :: ws, l => if w ∈ l then removeWatchersFromList ws (l.erase w) else (l, false)

section Groups

variable (env : Env)

/-- `addWFilterGroup`, with the filters of the group that it returns. -/
def addWFilterGroup (fs : FilterSet) (kind : String) (opts : ListWatchOptions) (ws : List Chan) :
    Option (FilterSet × List FilterFn) :=
  let optsStr := env.getWatchOptionsStr opts
  match fs.lookup optsStr with
  | some grp =>
    if ws.length = 0 then some (fs, grp.filters)
    else some (fs.insert optsStr { grp with watchers := grp.watchers ++ ws }, grp.filters)
  | none => do
      let filters ← getWatchFilter env ("netproto." ++ kind) opts
      some (fs.insert optsStr ⟨filters, ws, opts⟩, filters)

/-- `delWatcherFromWFilterGroup`, with the filters of the group that it returns; errors are
only logged. -/
def delWatcherFromWFilterGroup (fs : FilterSet) (opts : ListWatchOptions) (ws : List Chan)
    (clear : Bool) : FilterSet × Option (List FilterFn) :=
  let optsStr := env.getWatchOptionsStr opts
  match fs.lookup optsStr with
  | some grp =>
    let r := removeWatchersFromList ws grp.watchers
    if r.2 ∧ clear ∧ r.1.length = 0 then (fs.erase optsStr, none)
    else (fs.insert optsStr { grp with watchers := r.1 }, some grp.filters)
  | none => (fs, none)

namespace Memdb

/-- The watchers and options of a DSC and a kind. -/
def info (m : Memdb) (dsc : Dsc) (kind : String) : Option DSCWatcherInfo :=
  (m.dscWatcherInfo dsc).bind fun infos => infos kind

/-- The watchers and options of a DSC and a kind are set. -/
def setInfo (m : Memdb) (dsc : Dsc) (kind : String) (i : DSCWatcherInfo) : Memdb :=
  { m with
    dscWatcherInfo := update m.dscWatcherInfo dsc
      (some (update ((m.dscWatcherInfo dsc).getD fun _ => none) kind (some i))) }

/-- `addWFltGrp`. -/
def addWFltGrp (m : Memdb) (kind : String) (opts : ListWatchOptions) (ws : List Chan) :
    Option (Memdb × List FilterFn) :=
  (addWFilterGroup env (m.filterGroups kind) kind opts ws).map fun r =>
    ({ m with filterGroups := update m.filterGroups kind r.1 }, r.2)

/-- `delWFltGrp`. -/
def delWFltGrp (m : Memdb) (kind : String) (opts : ListWatchOptions) (ws : List Chan)
    (clear : Bool) : Memdb × Option (List FilterFn) :=
  let r := delWatcherFromWFilterGroup env (m.filterGroups kind) opts ws clear
  ({ m with filterGroups := update m.filterGroups kind r.1 }, r.2)

/-- `addDscWInfo`: a watcher of a DSC. -/
def addDscWInfo (m : Memdb) (dsc : Dsc) (kind : String) (watcher : Chan) : Option Memdb :=
  match m.info dsc kind with
  | some i =>
    let m := m.setInfo dsc kind { i with watchers := i.watchers ++ [watcher] }
    if i.filterGroup.isSome then (m.addWFltGrp env kind i.watchOptions [watcher]).map Prod.fst
    else some m
  | none => some (m.setInfo dsc kind { watchers := [watcher] })

/-- `addDSCWatcherInfoWatchOptions`, with the old and the new filters. -/
def addDSCWatcherInfoWatchOptions (m : Memdb) (dsc : Dsc) (kind : String)
    (opts : ListWatchOptions) : Option (Memdb × List FilterFn × List FilterFn) :=
  match m.info dsc kind with
  | some i =>
    match i.filterGroup with
    | some old =>
      if env.getWatchOptionsStr i.watchOptions = env.getWatchOptionsStr opts then
        some (m, old, old)
      else do
        let (m, new) ← m.addWFltGrp env kind opts i.watchers
        let (m, _) := m.delWFltGrp env kind i.watchOptions i.watchers true
        some (m.setInfo dsc kind { i with filterGroup := some new, watchOptions := opts }, old, new)
    | none => do
        let (m, new) ← m.addWFltGrp env kind opts i.watchers
        some (m.setInfo dsc kind { i with filterGroup := some new, watchOptions := opts }, [], new)
  | none => do
      let (m, new) ← m.addWFltGrp env kind opts []
      some (m.setInfo dsc kind { watchOptions := opts, filterGroup := some new }, [], new)

/-- `addDscWatchOptions`: an unknown DSC is added first. -/
def addDscWatchOptions (m : Memdb) (dsc : Dsc) (kind : String) (opts : ListWatchOptions) :
    Option (Memdb × List FilterFn × List FilterFn) :=
  match m.dscWatcherInfo dsc with
  | some _ => m.addDSCWatcherInfoWatchOptions env dsc kind opts
  | none => (m.setInfo dsc kind {}).addDSCWatcherInfoWatchOptions env dsc kind opts

/-- `delDSCInfo`. -/
def delDSCInfo (m : Memdb) (dsc : Dsc) (kind : String) (watcher : Chan) : Memdb :=
  match m.info dsc kind with
  | some i =>
    if watcher ∈ i.watchers then
      let watchers := i.watchers.erase watcher
      if i.filterGroup.isSome then
        let (m, fgrp) := m.delWFltGrp env kind i.watchOptions [watcher] false
        m.setInfo dsc kind
          { watchers := watchers
            watchOptions := if fgrp.isSome then i.watchOptions else {}
            filterGroup := fgrp }
      else m.setInfo dsc kind { i with watchers := watchers }
    else m
  | none => m

/-- `clearWatchOptions`, with the old filters. -/
def clearWatchOptions (m : Memdb) (dsc : Dsc) (kind : String) : Memdb × List FilterFn :=
  match m.info dsc kind with
  | some i =>
    match i.filterGroup with
    | some old =>
      let (m, _) := m.delWFltGrp env kind i.watchOptions i.watchers true
      (m.setInfo dsc kind { i with filterGroup := none, watchOptions := {} }, old)
    | none => (m, [])
  | none => (m, [])

end Memdb

/-! ### Events -/

/-- The loop over the filters of a group in `watchEvent`: the channels that are sent the
event. -/
def sendToWatchers (watchers : List Chan) (obj : Object) : List FilterFn → Option (List Chan)
  | [] => some []
  | flt :: filters => do
      let accepts ← flt obj
      if accepts then
        let rest ← sendToWatchers watchers obj filters
        some (watchers ++ rest)
      else some []

/-- The loop over the groups in `watchEvent`, in some order: what is sent, and for which
group. -/
def watchEvent (obj : Object) : List (Sigma fun _ : String => WFilterGroup) →
    Option (List (String × Chan))
  | [] => some []
  | ⟨optsStr, grp⟩ :: groups => do
      let sent ← sendToWatchers grp.watchers obj grp.filters
      let rest ← watchEvent obj groups
      some (sent.map (fun w => (optsStr, w)) ++ rest)

/-- `watchEventControllerFilter`. -/
def watchEventControllerFilter (m : Memdb) (obj : Object) : Option (List (String × Chan)) :=
  watchEvent obj (m.filterGroups obj.kind).entries

/-! ### Runs -/

/-- The calls that change the groups. -/
inductive Op
  | addDscWInfo (dsc : Dsc) (kind : String) (watcher : Chan)
  | delDSCInfo (dsc : Dsc) (kind : String) (watcher : Chan)
  | addDscWatchOptions (dsc : Dsc) (kind : String) (opts : ListWatchOptions)
  | clearWatchOptions (dsc : Dsc) (kind : String)

/-- A call; `none` where the process is ended. -/
def Memdb.step (m : Memdb) : Op → Option Memdb
  | .addDscWInfo dsc kind watcher => m.addDscWInfo env dsc kind watcher
  | .delDSCInfo dsc kind watcher => some (m.delDSCInfo env dsc kind watcher)
  | .addDscWatchOptions dsc kind opts => (m.addDscWatchOptions env dsc kind opts).map Prod.fst
  | .clearWatchOptions dsc kind => some (m.clearWatchOptions env dsc kind).1

/-- `NewMemdb`. -/
def newMemdb : Memdb := ⟨fun _ => none, fun _ => ∅⟩

/-- The states that calls lead to. -/
def Reached : Memdb → Prop :=
  Reachable (fun m => m = newMemdb) fun m m' => ∃ op, m.step env op = some m'

end Groups

/-! ### The members of groups -/

/-- The channels of a group; none if there is no group. -/
def Memdb.watchers (m : Memdb) (kind optsStr : String) : List Chan :=
  ((m.filterGroups kind).lookup optsStr).elim [] WFilterGroup.watchers

/-- How often a DSC has a channel in a group. -/
def registered (env : Env) (i : Option DSCWatcherInfo) (optsStr : String) (w : Chan) : Nat :=
  match i with
  | some i =>
    if i.filterGroup.isSome ∧ env.getWatchOptionsStr i.watchOptions = optsStr then
      i.watchers.count w
    else 0
  | none => 0

/-- The channel belongs to the group: a DSC with its options has it. -/
def Belongs (env : Env) (m : Memdb) (kind optsStr : String) (w : Chan) : Prop :=
  ∃ dsc i, m.info dsc kind = some i ∧ i.filterGroup.isSome ∧
    env.getWatchOptionsStr i.watchOptions = optsStr ∧ w ∈ i.watchers

/-- **The channels of the groups are those of the DSCs with their options.** -/
def Members (env : Env) (m : Memdb) : Prop :=
  ∃ D : Finset Dsc, (∀ d, d ∉ D → ∀ kind, m.info d kind = none) ∧
    ∀ kind optsStr w, (m.watchers kind optsStr).count w
      = ∑ d ∈ D, registered env (m.info d kind) optsStr w

section Members

variable {env : Env} {m m' : Memdb} {dsc : Dsc} {kind : String} {opts : ListWatchOptions}
  {ws : List Chan} {i : DSCWatcherInfo}

theorem setInfo_info (m : Memdb) (dsc : Dsc) (kind : String) (i : DSCWatcherInfo) (d : Dsc)
    (k : String) :
    (m.setInfo dsc kind i).info d k = if d = dsc ∧ k = kind then some i else m.info d k := by
  by_cases hd : d = dsc
  · subst hd
    by_cases hk : k = kind
    · simp [Memdb.info, Memdb.setInfo, hk]
    · cases h : m.dscWatcherInfo d <;> simp [Memdb.info, Memdb.setInfo, hk, h]
  · simp [Memdb.info, Memdb.setInfo, hd]

theorem setInfo_watchers (m : Memdb) (dsc : Dsc) (kind : String) (i : DSCWatcherInfo) :
    (m.setInfo dsc kind i).watchers = m.watchers := rfl

/-- **The information of one DSC and the groups of its kind change together.** -/
theorem Members.change (h : Members env m) (dsc : Dsc) (kind : String) (new : DSCWatcherInfo)
    (hinfo : ∀ d k, m'.info d k = if d = dsc ∧ k = kind then some new else m.info d k)
    (hcount : ∀ k optsStr w, (m'.watchers k optsStr).count w
        + (if k = kind then registered env (m.info dsc kind) optsStr w else 0)
      = (m.watchers k optsStr).count w
        + if k = kind then registered env (some new) optsStr w else 0) :
    Members env m' := by
  obtain ⟨D, hnone, hsum⟩ := h
  refine ⟨insert dsc D, fun d hd k => ?_, fun k optsStr w => ?_⟩
  · obtain ⟨hne, hd⟩ := not_or.mp (mt Finset.mem_insert.mpr hd)
    rw [hinfo, if_neg fun heq => hne heq.1, hnone d hd]
  · -- a DSC without information has no channels
    have hold : ∑ d ∈ insert dsc D, registered env (m.info d k) optsStr w
        = (m.watchers k optsStr).count w := by
      rw [hsum]
      refine (Finset.sum_subset (Finset.subset_insert dsc D) fun d _ hd => ?_).symm
      rw [hnone d hd]
      rfl
    have hc := hcount k optsStr w
    by_cases hk : k = kind
    · subst hk
      have hrest : ∑ d ∈ (insert dsc D).erase dsc, registered env (m'.info d k) optsStr w
          = ∑ d ∈ (insert dsc D).erase dsc, registered env (m.info d k) optsStr w := by
        refine Finset.sum_congr rfl fun d hd => ?_
        rw [hinfo, if_neg fun heq => Finset.ne_of_mem_erase hd heq.1]
      have hmem : dsc ∈ insert dsc D := Finset.mem_insert_self ..
      have hnew := Finset.add_sum_erase _ (fun d => registered env (m'.info d k) optsStr w) hmem
      have hwas := Finset.add_sum_erase _ (fun d => registered env (m.info d k) optsStr w) hmem
      simp only [hinfo dsc k, and_self, if_true] at hnew hc
      omega
    · simp only [if_neg hk, Nat.add_zero] at hc
      rw [hc, ← hold]
      refine Finset.sum_congr rfl fun d _ => ?_
      rw [hinfo, if_neg fun heq => hk heq.2]

/-- A DSC has no more channels in a group than the group has. -/
theorem Members.le (h : Members env m) (dsc : Dsc) (kind optsStr : String) (w : Chan) :
    registered env (m.info dsc kind) optsStr w ≤ (m.watchers kind optsStr).count w := by
  obtain ⟨D, hnone, hsum⟩ := h
  by_cases hd : dsc ∈ D
  · rw [hsum]
    exact Finset.single_le_sum (f := fun d => registered env (m.info d kind) optsStr w)
      (fun _ _ => Nat.zero_le _) hd
  · rw [hnone dsc hd]
    exact Nat.zero_le _

/-- **Who is in a group.** -/
theorem Members.mem_watchers (h : Members env m) {kind optsStr : String} {w : Chan} :
    w ∈ m.watchers kind optsStr ↔ Belongs env m kind optsStr w := by
  constructor
  · intro hw
    obtain ⟨D, hnone, hsum⟩ := h
    have hpos := count_pos_iff.mpr hw
    rw [hsum] at hpos
    obtain ⟨dsc, -, hd⟩ := Finset.exists_ne_zero_of_sum_ne_zero (Nat.pos_iff_ne_zero.mp hpos)
    cases hi : m.info dsc kind with
    | none => simp [registered, hi] at hd
    | some i =>
      simp only [registered, hi] at hd
      split_ifs at hd with hreg
      · exact ⟨dsc, i, hi, hreg.1, hreg.2, count_pos_iff.mp (Nat.pos_iff_ne_zero.mpr hd)⟩
      · exact absurd rfl hd
  · rintro ⟨dsc, i, hi, hgrp, hstr, hw⟩
    have hle := h.le dsc kind optsStr w
    rw [hi, registered, if_pos ⟨hgrp, hstr⟩] at hle
    exact count_pos_iff.mp (Nat.lt_of_lt_of_le (count_pos_iff.mpr hw) hle)

variable {new : List FilterFn}

theorem addWFltGrp_info (h : m.addWFltGrp env kind opts ws = some (m', new)) : m'.info = m.info := by
  obtain ⟨r, -, heq⟩ := map_eq_some_iff.mp h
  cases heq
  rfl

theorem lookup_insert_elim (fs : FilterSet) (a o : String) (grp : WFilterGroup) :
    ((fs.insert a grp).lookup o).elim [] WFilterGroup.watchers
      = if o = a then grp.watchers else (fs.lookup o).elim [] WFilterGroup.watchers := by
  split_ifs with ho
  · subst ho
    rw [AList.lookup_insert]
    rfl
  · rw [AList.lookup_insert_ne ho]

/-- Channels are added to a group. -/
theorem addWFltGrp_count {new : List FilterFn}
    (h : m.addWFltGrp env kind opts ws = some (m', new)) (k optsStr : String) (w : Chan) :
    (m'.watchers k optsStr).count w = (m.watchers k optsStr).count w +
      if k = kind ∧ env.getWatchOptionsStr opts = optsStr then ws.count w else 0 := by
  obtain ⟨r, hr, heq⟩ := map_eq_some_iff.mp h
  cases heq
  by_cases hk : k = kind
  · subst hk
    simp only [Memdb.watchers, update_self, true_and, eq_comm (b := optsStr)]
    simp only [addWFilterGroup] at hr
    cases hl : (m.filterGroups k).lookup (env.getWatchOptionsStr opts) with
    | some grp =>
      simp only [hl] at hr
      split_ifs at hr with hws
      · cases hr
        simp [length_eq_zero_iff.mp hws]
      cases hr
      rw [lookup_insert_elim]
      split_ifs with ho
      · rw [ho, hl, count_append]
        rfl
      · rfl
    | none =>
      simp only [hl] at hr
      obtain ⟨filters, -, hr⟩ := bind_eq_some_iff.mp hr
      cases hr
      rw [lookup_insert_elim]
      split_ifs with ho
      · rw [ho, hl]
        simp
      · rfl
  · simp only [Memdb.watchers, update_of_ne hk, hk, false_and, if_false, Nat.add_zero]

/-- A channel that is there is removed. -/
theorem count_erase_add {x : Chan} {l : List Chan} (hx : x ∈ l) (w : Chan) :
    (l.erase x).count w + [x].count w = l.count w := by
  have hperm := (perm_cons_erase hx).count_eq w
  rw [count_cons] at hperm
  rw [hperm, count_singleton]

/-- Channels that are all there are removed. -/
theorem removeWatchersFromList_of_le (ws l : List Chan) (h : ∀ w, ws.count w ≤ l.count w) :
    (removeWatchersFromList ws l).2 = true ∧
      ∀ w, (removeWatchersFromList ws l).1.count w + ws.count w = l.count w := by
  induction ws generalizing l with
  | nil => exact ⟨rfl, fun w => rfl⟩
  | cons x ws ih =>
    have hcons : ∀ w, ([x] ++ ws).count w = [x].count w + ws.count w := fun w => count_append
    have hx : x ∈ l := by
      have hle := h x
      rw [count_cons_self] at hle
      exact count_pos_iff.mp (by omega)
    have hcount := count_erase_add hx
    obtain ⟨hok, hrest⟩ := ih (l.erase x) fun w => by
      have hle : ([x] ++ ws).count w ≤ l.count w := h w
      have hc := hcount w
      rw [hcons] at hle
      omega
    rw [removeWatchersFromList, if_pos hx]
    refine ⟨hok, fun w => ?_⟩
    have hr := hrest w
    have hc := hcount w
    show _ + ([x] ++ ws).count w = _
    rw [hcons]
    omega

theorem delWFltGrp_info (m : Memdb) (kind : String) (opts : ListWatchOptions) (ws : List Chan)
    (clear : Bool) : (m.delWFltGrp env kind opts ws clear).1.info = m.info := rfl

/-- Channels are removed from a group. -/
theorem delWFltGrp_count (env : Env) (m : Memdb) (kind : String) (opts : ListWatchOptions)
    (ws : List Chan) (clear : Bool)
    (hle : ∀ w, ws.count w ≤ (m.watchers kind (env.getWatchOptionsStr opts)).count w)
    (k optsStr : String) (w : Chan) :
    ((m.delWFltGrp env kind opts ws clear).1.watchers k optsStr).count w
        + (if k = kind ∧ env.getWatchOptionsStr opts = optsStr then ws.count w else 0)
      = (m.watchers k optsStr).count w := by
  by_cases hk : k = kind
  swap
  · simp only [Memdb.delWFltGrp, Memdb.watchers, update_of_ne hk, hk, false_and, if_false,
      Nat.add_zero]
  subst hk
  simp only [Memdb.delWFltGrp, Memdb.watchers, update_self, delWatcherFromWFilterGroup,
    true_and, eq_comm (b := optsStr)]
  cases hl : (m.filterGroups k).lookup (env.getWatchOptionsStr opts) with
  | none =>
    have hw := hle w
    simp only [Memdb.watchers, hl, elim_none, count_nil, Nat.le_zero] at hw
    simp [hw]
  | some grp =>
    simp only [Memdb.watchers, hl, elim_some] at hle
    obtain ⟨hok, hcount⟩ := removeWatchersFromList_of_le ws grp.watchers hle
    dsimp only
    split_ifs with hclear ho ho
    · -- the group is empty and it is deleted
      have hnil := length_eq_zero_iff.mp hclear.2.2
      have hc := hcount w
      rw [hnil] at hc
      rw [ho, AList.lookup_erase, hl]
      simpa using hc
    · rw [AList.lookup_erase_ne ho]
      rfl
    · rw [lookup_insert_elim, if_pos ho, ho, hl]
      exact hcount w
    · rw [lookup_insert_elim, if_neg ho]
      rfl

section

variable (h : Members env m)
include h

/-- What a DSC has registered is there to be removed. -/
theorem Members.count_le (hi : m.info dsc kind = some i) (hgrp : i.filterGroup.isSome) (w : Chan) :
    i.watchers.count w ≤ (m.watchers kind (env.getWatchOptionsStr i.watchOptions)).count w := by
  have hle := h.le dsc kind (env.getWatchOptionsStr i.watchOptions) w
  rwa [hi, registered, if_pos ⟨hgrp, rfl⟩] at hle

/-- Only the information changes, and not what is registered. -/
theorem Members.setInfo (hsame : ∀ o w, registered env (some i) o w
    = registered env (m.info dsc kind) o w) : Members env (m.setInfo dsc kind i) := by
  refine h.change dsc kind i (setInfo_info m dsc kind i) fun k o w => ?_
  rw [setInfo_watchers, hsame]

theorem Members.addDscWInfo {w : Chan}
    (hstep : m.addDscWInfo env dsc kind w = some m') : Members env m' := by
  rw [Memdb.addDscWInfo] at hstep
  cases hi : m.info dsc kind with
  | some i =>
    simp only [hi] at hstep
    split_ifs at hstep with hgrp
    · obtain ⟨⟨m1, new⟩, hadd, rfl⟩ := map_eq_some_iff.mp hstep
      refine h.change dsc kind { i with watchers := i.watchers ++ [w] } (fun d k => ?_)
        fun k o x => ?_
      · rw [addWFltGrp_info hadd, setInfo_info]
      · rw [addWFltGrp_count hadd, setInfo_watchers, hi]
        simp only [registered, hgrp, true_and, count_append]
        split_ifs <;> grind
    · cases hstep
      exact h.setInfo fun o x => by simp [registered, hgrp, hi]
  | none =>
    simp only [hi] at hstep
    cases hstep
    exact h.setInfo fun o x => by simp [registered, hi]

theorem Members.addDSCWatcherInfoWatchOptions {old new : List FilterFn}
    (hstep : m.addDSCWatcherInfoWatchOptions env dsc kind opts = some (m', old, new)) :
    Members env m' := by
  rw [Memdb.addDSCWatcherInfoWatchOptions] at hstep
  cases hi : m.info dsc kind with
  | some i =>
    simp only [hi] at hstep
    cases hgrp : i.filterGroup with
    | some fs =>
      simp only [hgrp] at hstep
      split_ifs at hstep with hstr
      · cases hstep
        exact h
      -- the channels move from one group to the other
      obtain ⟨⟨m1, fs'⟩, hadd, heq⟩ := bind_eq_some_iff.mp hstep
      cases heq
      have hsome : i.filterGroup.isSome := by rw [hgrp]; rfl
      have hcount := delWFltGrp_count env m1 kind i.watchOptions i.watchers true fun w => by
        rw [addWFltGrp_count hadd, if_neg fun heq => hstr heq.2.symm]
        exact h.count_le hi hsome w
      refine h.change dsc kind { i with filterGroup := some fs', watchOptions := opts }
        (fun d k => ?_) fun k o x => ?_
      · rw [setInfo_info, delWFltGrp_info, addWFltGrp_info hadd]
      · have hc := hcount k o x
        rw [addWFltGrp_count hadd] at hc
        rw [setInfo_watchers, hi]
        simp only [registered, hsome, true_and, isSome_some]
        split_ifs at hc ⊢ <;> grind
    | none =>
      simp only [hgrp] at hstep
      obtain ⟨⟨m1, fs'⟩, hadd, heq⟩ := bind_eq_some_iff.mp hstep
      cases heq
      refine h.change dsc kind { i with filterGroup := some fs', watchOptions := opts }
        (fun d k => ?_) fun k o x => ?_
      · rw [setInfo_info, addWFltGrp_info hadd]
      · rw [setInfo_watchers, addWFltGrp_count hadd, hi]
        simp [registered, hgrp, ite_and]
  | none =>
    simp only [hi] at hstep
    obtain ⟨⟨m1, fs'⟩, hadd, heq⟩ := bind_eq_some_iff.mp hstep
    cases heq
    refine h.change dsc kind { watchOptions := opts, filterGroup := some fs' } (fun d k => ?_)
      fun k o x => ?_
    · rw [setInfo_info, addWFltGrp_info hadd]
    · rw [setInfo_watchers, addWFltGrp_count hadd, hi]
      simp [registered]

theorem Members.delDSCInfo (dsc : Dsc) (kind : String) (w : Chan) :
    Members env (m.delDSCInfo env dsc kind w) := by
  rw [Memdb.delDSCInfo]
  cases hi : m.info dsc kind with
  | none => exact h
  | some i =>
    dsimp only
    by_cases hw : w ∈ i.watchers
    · rw [if_pos hw]
      have herase := count_erase_add hw
      by_cases hgrp : i.filterGroup.isSome
      · rw [if_pos hgrp]
        have hle : ∀ x, [w].count x
            ≤ (m.watchers kind (env.getWatchOptionsStr i.watchOptions)).count x := fun x => by
          have he := herase x
          have hc := h.count_le hi hgrp x
          omega
        -- the group has the channel, so it is there
        have hfgrp : (m.delWFltGrp env kind i.watchOptions [w] false).2.isSome := by
          simp only [Memdb.delWFltGrp, delWatcherFromWFilterGroup]
          cases hl : (m.filterGroups kind).lookup (env.getWatchOptionsStr i.watchOptions) with
          | some grp => simp
          | none =>
            have hpos := hle w
            simp [Memdb.watchers, hl] at hpos
        refine h.change dsc kind _ (setInfo_info _ dsc kind _) fun k o x => ?_
        have hc := delWFltGrp_count env m kind i.watchOptions [w] false hle k o x
        have he := herase x
        rw [setInfo_watchers, hi]
        simp only [registered, hgrp, hfgrp, if_true, true_and]
        split_ifs at hc ⊢ <;> grind
      · rw [if_neg hgrp]
        exact h.setInfo fun o x => by simp [registered, hgrp, hi]
    · rw [if_neg hw]
      exact h

theorem Members.clearWatchOptions (dsc : Dsc) (kind : String) :
    Members env (m.clearWatchOptions env dsc kind).1 := by
  rw [Memdb.clearWatchOptions]
  cases hi : m.info dsc kind with
  | none => exact h
  | some i =>
    cases hgrp : i.filterGroup with
    | none =>
      simp only [hgrp]
      exact h
    | some fs =>
      simp only [hgrp]
      have hsome : i.filterGroup.isSome := by rw [hgrp]; rfl
      refine h.change dsc kind { i with filterGroup := none, watchOptions := {} }
        (fun d k => ?_) fun k o x => ?_
      · rw [setInfo_info, delWFltGrp_info]
      · rw [setInfo_watchers, hi, ← delWFltGrp_count env m kind i.watchOptions i.watchers
          true (h.count_le hi hsome)]
        simp [registered, hsome, ite_and]

/-- **Every call keeps the groups right.** -/
theorem Members.step {op : Op} (hstep : m.step env op = some m') : Members env m' := by
  cases op with
  | addDscWInfo dsc kind w => exact h.addDscWInfo hstep
  | delDSCInfo dsc kind w =>
    cases hstep
    exact h.delDSCInfo dsc kind w
  | addDscWatchOptions dsc kind opts =>
    obtain ⟨⟨m1, old, new⟩, hadd, rfl⟩ := map_eq_some_iff.mp hstep
    rw [Memdb.addDscWatchOptions] at hadd
    cases hdsc : m.dscWatcherInfo dsc with
    | some infos =>
      simp only [hdsc] at hadd
      exact h.addDSCWatcherInfoWatchOptions hadd
    | none =>
      simp only [hdsc] at hadd
      have hi : m.info dsc kind = none := by rw [Memdb.info, hdsc]; rfl
      have hknown : Members env (m.setInfo dsc kind {}) := h.setInfo fun o w => by simp [registered, hi]
      exact hknown.addDSCWatcherInfoWatchOptions hadd
  | clearWatchOptions dsc kind =>
    cases hstep
    exact h.clearWatchOptions dsc kind

end

theorem Reached.members (h : Reached env m) : Members env m := by
  refine Reachable.invariant h (fun m hm => ?_) fun m m' hm ⟨op, hstep⟩ => hm.step hstep
  subst hm
  exact ⟨∅, fun d _ kind => rfl, fun kind o w => rfl⟩

end Members

/-! ### Delivery -/

/-- The filters of the group all accept the object. -/
def WFilterGroup.Accepts (grp : WFilterGroup) (obj : Object) : Prop :=
  ∀ flt ∈ grp.filters, flt obj = some true

open Classical in
/-- **The event is delivered as it should be**: once for every group that accepts the object to
every channel that belongs to it, and to nobody else. -/
def Delivered (env : Env) (m : Memdb) (obj : Object) : Prop :=
  ∃ sent, watchEventControllerFilter m obj = some sent ∧
    ∀ optsStr grp, (m.filterGroups obj.kind).lookup optsStr = some grp → ∀ w,
      sent.count (optsStr, w) = if Belongs env m obj.kind optsStr w ∧ grp.Accepts obj then 1 else 0

/-- The number of filters that accept the object before one rejects it. -/
def passed (obj : Object) : List FilterFn → Option Nat
  | [] => some 0
  | flt :: filters => do
      let accepts ← flt obj
      if accepts then (passed obj filters).map (· + 1) else some 0

/-- **The condition for a group**: its filters can be evaluated, and it has no channels, or its
first filter rejects the object, or it has one filter, which accepts the object, and no
channel twice. -/
def WFilterGroup.Single (grp : WFilterGroup) (obj : Object) : Prop :=
  (passed obj grp.filters).isSome ∧ (grp.watchers = [] ∨
    (∃ flt filters, grp.filters = flt :: filters ∧ flt obj = some false) ∨
    ∃ flt, grp.filters = [flt] ∧ flt obj = some true ∧ grp.watchers.Nodup)

section Delivery

variable {env : Env} {m : Memdb} {obj : Object}

/-- A channel is sent the event once for every filter that passes. -/
theorem sendToWatchers_eq (watchers : List Chan) (obj : Object) (filters : List FilterFn) :
    sendToWatchers watchers obj filters
      = (passed obj filters).map fun n => (List.replicate n watchers).flatten := by
  induction filters with
  | nil => rfl
  | cons flt filters ih =>
    rw [sendToWatchers, passed]
    cases hflt : flt obj with
    | none => rfl
    | some accepts =>
      cases accepts with
      | false => rfl
      | true =>
        simp only [bind_eq_bind, bind_some, if_true, ih]
        cases passed obj filters with
        | none => rfl
        | some n => simp [replicate_succ]

/-- All filters pass if all accept. -/
theorem passed_of_accepts {filters : List FilterFn} (h : ∀ flt ∈ filters, flt obj = some true) :
    passed obj filters = some filters.length := by
  induction filters with
  | nil => rfl
  | cons flt filters ih =>
    obtain ⟨hflt, hrest⟩ := forall_mem_cons.mp h
    simp [passed, hflt, ih hrest]

theorem count_map_pair (optsStr o : String) (l : List Chan) (w : Chan) :
    (l.map fun x => (o, x)).count (optsStr, w) = if optsStr = o then l.count w else 0 := by
  split_ifs with ho
  · subst ho
    exact count_map_of_injective l _ (fun x y hxy => (Prod.mk.inj hxy).2) w
  · refine count_eq_zero.mpr fun hmem => ?_
    obtain ⟨x, -, heq⟩ := mem_map.mp hmem
    exact ho (Prod.mk.inj heq).1.symm

/-- The loop over the groups ends if the filters of all groups can be evaluated. -/
theorem watchEvent_isSome (groups : List (Sigma fun _ : String => WFilterGroup)) :
    (watchEvent obj groups).isSome ↔ ∀ g ∈ groups, (passed obj g.2.filters).isSome := by
  induction groups with
  | nil => simp [watchEvent]
  | cons g groups ih =>
    rw [watchEvent, sendToWatchers_eq, forall_mem_cons, ← ih]
    cases passed obj g.2.filters with
    | none => simp
    | some n => cases watchEvent obj groups <;> simp

/-- **What is sent for a group**: the event once for every filter that passes. -/
theorem watchEvent_count {groups : List (Sigma fun _ : String => WFilterGroup)}
    (hnodup : groups.NodupKeys) {sent : List (String × Chan)}
    (h : watchEvent obj groups = some sent) (optsStr : String) (w : Chan) :
    sent.count (optsStr, w) = (groups.dlookup optsStr).elim 0 fun grp =>
      (passed obj grp.filters).elim 0 fun n => n * grp.watchers.count w := by
  induction groups generalizing sent with
  | nil =>
    cases h
    rfl
  | cons g groups ih =>
    obtain ⟨hnot, hnodup⟩ := nodupKeys_cons.mp hnodup
    rw [watchEvent, sendToWatchers_eq] at h
    obtain ⟨here, hhere, h⟩ := bind_eq_some_iff.mp h
    obtain ⟨rest, hrest, h⟩ := bind_eq_some_iff.mp h
    cases h
    obtain ⟨n, hn, rfl⟩ := map_eq_some_iff.mp hhere
    rw [count_append, count_map_pair, ih hnodup hrest]
    by_cases ho : optsStr = g.1
    · -- the keys are distinct, so nothing else is sent for this group
      subst ho
      rw [if_pos rfl, dlookup_eq_none.mpr hnot, dlookup_cons_eq, count_flatten, map_replicate,
        sum_replicate]
      simp [hn]
    · rw [if_neg ho, dlookup_cons_ne groups g ho, Nat.zero_add]

/-- The first filter rejects the object if none passes. -/
theorem rejects_of_passed {filters : List FilterFn} (h : passed obj filters = some 0)
    (hnot : ¬ ∀ flt ∈ filters, flt obj = some true) :
    ∃ flt rest, filters = flt :: rest ∧ flt obj = some false := by
  cases filters with
  | nil => exact absurd (by simp) hnot
  | cons flt filters =>
    rw [passed] at h
    cases hflt : flt obj with
    | none => simp [hflt] at h
    | some accepts =>
      cases accepts with
      | false => exact ⟨flt, filters, rfl, hflt⟩
      | true => simp [hflt] at h

open Classical in
/-- A group sends as it should if and only if it meets the condition. -/
theorem WFilterGroup.single_iff (grp : WFilterGroup) {n : Nat}
    (hn : passed obj grp.filters = some n) :
    (∀ w, n * grp.watchers.count w = if w ∈ grp.watchers ∧ grp.Accepts obj then 1 else 0) ↔
      grp.Single obj := by
  constructor
  · intro h
    refine ⟨by rw [hn]; rfl, ?_⟩
    rcases eq_nil_or_concat grp.watchers with hnil | ⟨l, w, hl⟩
    · exact .inl hnil
    have hw : w ∈ grp.watchers := by simp [hl]
    by_cases hacc : grp.Accepts obj
    · -- every filter passes, so there is one
      have hone : ∀ x ∈ grp.watchers, n = 1 ∧ grp.watchers.count x = 1 := fun x hx => by
        have hx' := h x
        rw [if_pos ⟨hx, hacc⟩] at hx'
        exact ⟨Nat.eq_one_of_mul_eq_one_right hx', Nat.eq_one_of_mul_eq_one_left hx'⟩
      obtain rfl := (hone w hw).1
      rw [passed_of_accepts hacc] at hn
      obtain ⟨flt, hflt⟩ := length_eq_one_iff.mp (Option.some.inj hn)
      exact .inr (.inr ⟨flt, hflt, hacc flt (by simp [hflt]),
        nodup_iff_count_eq_one.mpr fun x hx => (hone x hx).2⟩)
    · have hzero := h w
      rw [if_neg fun hc => hacc hc.2] at hzero
      have hpos := count_pos_iff.mpr hw
      obtain rfl : n = 0 := by
        rcases Nat.mul_eq_zero.mp hzero with hz | hz
        · exact hz
        · omega
      exact .inr (.inl (rejects_of_passed hn hacc))
  · rintro ⟨-, hnil | ⟨flt, filters, hfilters, hflt⟩ | ⟨flt, hfilters, hflt, hnodup⟩⟩ w
    · simp [hnil]
    · have hnot : ¬ grp.Accepts obj := by
        intro hacc
        rw [hacc flt (by simp [hfilters])] at hflt
        cases hflt
      rw [hfilters, passed, hflt] at hn
      cases hn
      rw [if_neg fun hc => hnot hc.2, Nat.zero_mul]
    · have hacc : grp.Accepts obj := by
        intro f hf
        rw [hfilters, mem_singleton] at hf
        exact hf ▸ hflt
      rw [passed_of_accepts hacc, hfilters] at hn
      cases hn
      rw [length_singleton, Nat.one_mul]
      by_cases hw : w ∈ grp.watchers
      · rw [if_pos ⟨hw, hacc⟩]
        exact nodup_iff_count_eq_one.mp hnodup w hw
      · rw [if_neg fun hc => hw hc.1]
        exact count_eq_zero.mpr hw

open Classical in
/-- **Delivery of an event**, in every state that calls lead to: it is right if and only if
every group of the kind meets the condition. -/
theorem Reached.delivered_iff (h : Reached env m) (obj : Object) :
    Delivered env m obj ↔
      ∀ optsStr grp, (m.filterGroups obj.kind).lookup optsStr = some grp → grp.Single obj := by
  have hmembers := h.members
  have hnodup := (m.filterGroups obj.kind).nodupKeys
  have hbelongs : ∀ {optsStr grp}, (m.filterGroups obj.kind).lookup optsStr = some grp → ∀ w,
      Belongs env m obj.kind optsStr w ↔ w ∈ grp.watchers := by
    intro optsStr grp hgrp w
    rw [← hmembers.mem_watchers, Memdb.watchers, hgrp]
    rfl
  have hpassed : (∃ sent, watchEventControllerFilter m obj = some sent) ↔
      ∀ optsStr grp, (m.filterGroups obj.kind).lookup optsStr = some grp →
        (passed obj grp.filters).isSome := by
    rw [← isSome_iff_exists, watchEventControllerFilter, watchEvent_isSome]
    constructor
    · exact fun hall optsStr grp hgrp => hall ⟨optsStr, grp⟩ (of_mem_dlookup hgrp)
    · exact fun hall g hg => hall g.1 g.2 (mem_dlookup hnodup hg)
  -- what is sent for one group
  have hgroup : ∀ {sent optsStr grp}, watchEventControllerFilter m obj = some sent →
      (m.filterGroups obj.kind).lookup optsStr = some grp → (passed obj grp.filters).isSome →
      ((∀ w, sent.count (optsStr, w)
        = if Belongs env m obj.kind optsStr w ∧ grp.Accepts obj then 1 else 0) ↔ grp.Single obj) := by
    intro sent optsStr grp hsent hgrp hsome
    obtain ⟨n, hn⟩ := isSome_iff_exists.mp hsome
    have hlookup : (m.filterGroups obj.kind).entries.dlookup optsStr = some grp := hgrp
    rw [← grp.single_iff hn]
    refine forall_congr' fun w => ?_
    rw [watchEvent_count hnodup hsent, hlookup, elim_some, hn, elim_some]
    simp only [hbelongs hgrp w]
  constructor
  · rintro ⟨sent, hsent, hall⟩ optsStr grp hgrp
    exact (hgroup hsent hgrp (hpassed.mp ⟨sent, hsent⟩ optsStr grp hgrp)).mp (hall optsStr grp hgrp)
  · intro hsingle
    obtain ⟨sent, hsent⟩ := hpassed.mpr fun optsStr grp hgrp => (hsingle optsStr grp hgrp).1
    exact ⟨sent, hsent, fun optsStr grp hgrp =>
      (hgroup hsent hgrp (hsingle optsStr grp hgrp).1).mpr (hsingle optsStr grp hgrp)⟩

/-- Options are told apart by name and tenant. -/
private def byName : Env where
  parseLabels _ := none
  parseFields _ := none
  parseFieldsWithValidation _ _ := none
  getWatchOptionsStr opts := opts.name ++ "/" ++ opts.tenant

/-- A DSC with one watcher. -/
private def watching (opts : ListWatchOptions) : List Op :=
  [.addDscWInfo "dsc1" "Endpoint" 1, .addDscWatchOptions "dsc1" "Endpoint" opts]

/-- The state after the calls. -/
private def afterWatching (opts : ListWatchOptions) : Memdb :=
  ((watching opts).foldlM (Memdb.step byName) newMemdb).getD newMemdb

/-- The objects of a tenant. -/
private def ofTenant : ListWatchOptions := { tenant := "t1" }

/-- One object of a tenant. -/
private def ofTenantByName : ListWatchOptions := { name := "e1", tenant := "t1" }

/-- An endpoint. -/
private def endpoint : Object := ⟨"Endpoint", { name := "e1", tenant := "t1" }, 0⟩

private theorem reached_watching {opts : ListWatchOptions}
    (h : ((watching opts).foldlM (Memdb.step byName) newMemdb).isSome) :
    Reached byName (afterWatching opts) := by
  obtain ⟨m, hm⟩ := isSome_iff_exists.mp h
  rw [afterWatching, hm]
  exact Reachable.run (fun m op m' h => ⟨op, h⟩) (.start rfl) hm

/-- With a filter for the tenant alone, the event is sent once. -/
theorem delivered_ofTenant : Delivered byName (afterWatching ofTenant) endpoint := by
  refine (Reached.delivered_iff (reached_watching (by rfl)) endpoint).mpr fun optsStr grp hgrp => ?_
  have hgroups : (afterWatching ofTenant).filterGroups "Endpoint"
      = AList.singleton "/t1" ⟨[tenantFilterFn "t1"], [1], ofTenant⟩ := AList.ext rfl
  have hmem := of_mem_dlookup hgrp
  rw [show endpoint.kind = "Endpoint" from rfl, hgroups] at hmem
  cases mem_singleton.mp hmem
  exact ⟨rfl, .inr (.inr ⟨_, rfl, rfl, nodup_singleton 1⟩)⟩

/-- With filters for the name and the tenant, the event is sent twice to the one channel. -/
theorem not_delivered_ofTenantByName :
    Reached byName (afterWatching ofTenantByName) ∧
      watchEventControllerFilter (afterWatching ofTenantByName) endpoint
        = some [("e1/t1", 1), ("e1/t1", 1)] ∧
      ¬ Delivered byName (afterWatching ofTenantByName) endpoint := by
  have hsent : watchEventControllerFilter (afterWatching ofTenantByName) endpoint
      = some [("e1/t1", 1), ("e1/t1", 1)] := by rfl
  refine ⟨reached_watching (by rfl), hsent, ?_⟩
  rintro ⟨sent, hsome, hall⟩
  cases hsent.symm.trans hsome
  have hgrp : ((afterWatching ofTenantByName).filterGroups endpoint.kind).lookup "e1/t1"
      = some ⟨[nameFilterFn "e1", tenantFilterFn "t1"], [1], ofTenantByName⟩ := by rfl
  have htwo := hall _ _ hgrp 1
  split at htwo
  · exact absurd htwo (by decide)
  · exact absurd htwo (by decide)

end Delivery

end NicSw.WatchFilter
