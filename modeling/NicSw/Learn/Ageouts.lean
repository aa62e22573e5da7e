/-
Timeouts, clears and mapping calls keep the endpoint database consistent, and do not
crash.
-/
import NicSw.Learn.Consistent

namespace NicSw.Learn

open Function

/-- No object call fails for another reason than that the object is present or absent. -/
def never : ObjCall → Bool := fun _ => false

/-- The databases and the objects agree. -/
def Db.Agrees (db : Db) : Prop :=
  Agree db.macDb db.ipDb db.vnics db.localMappings db.remoteMappings

/-- At the start there is nothing to agree about. -/
theorem Db.Agrees.init : Db.init.Agrees where
  vnic h := nomatch h
  owner h := nomatch h
  listed h := nomatch h
  nodup h := nomatch h
  mapping _ := Iff.rfl
  macLocal h := nomatch h
  ipLocal h := nomatch h

/-- A result that is no crash, with a state in which databases and objects agree. -/
structure Sound (r : Ret × Db) : Prop where
  ret : r.1 ≠ .crash
  agrees : r.2.Agrees

section Operations

variable {db : Db} {k : MacKey} {e : MacEntry} {ip : IpKey} {i : IpEntry} {σ α β : Type*}

@[simp] theorem andThen_ok (s : σ) (f : σ → Ret × σ) : andThen (.ok, s) f = f s := rfl

theorem andThen_of_ne {r : Ret × σ} (hr : r.1 ≠ .ok) (f : σ → Ret × σ) : andThen r f = r := if_neg hr

/-! ### Object calls that do not fail -/

theorem localMappingDelete_never {m : LocalMapping} (hm : db.localMappings ip = some m) :
    db.localMappingDelete never ip
      = (.ok, { db with localMappings := update db.localMappings ip none }) := by
  simp [Db.localMappingDelete, never, hm]

theorem vnicDelete_never {id : Nat} {v : VnicSpec} (hv : db.vnics id = some v) :
    db.vnicDelete never id = (.ok, { db with vnics := update db.vnics id none }) := by
  simp [Db.vnicDelete, never, hv]

theorem deleteIpEntry_eq (hk : db.macDb k = some e) (hi : db.ipDb ip = some i) :
    db.deleteIpEntry ip k = (.ok, { db with
      macDb := update db.macDb k (some { e with ipList := e.ipList.filter (· ≠ ip) })
      ipDb := update db.ipDb ip none
      ipCount := db.ipCount - 1 }) := by
  simp [Db.deleteIpEntry, Db.delIp, hk, hi]

theorem sound_of {r : Ret} (hr : r ≠ .crash) (h : db.Agrees) : Sound (r, db) := ⟨hr, h⟩

theorem sound_andThen {r : Ret × Db} {f : Db → Ret × Db} (hr : Sound r)
    (hf : ∀ db, db.Agrees → Sound (f db)) : Sound (andThen r f) := by
  rw [andThen]
  split
  · exact hf r.2 hr.agrees
  · exact hr

/-- **The MAC of an IP is found through the VNIC.** -/
theorem Db.Agrees.macEntryOf (h : db.Agrees) (hi : db.ipDb ip = some i) :
    ∃ k e, db.macDb k = some e ∧ ip ∈ e.ipList ∧ e.vnicObjId = i.vnicObjId ∧
      db.macEntryOf i = some k := by
  obtain ⟨k, e, hk, hmem, hid⟩ := h.owner hi
  obtain ⟨v, hv, hkey⟩ := h.vnic hk
  refine ⟨k, e, hk, hmem, hid, ?_⟩
  rw [Db.macEntryOf, ← hid, hv, Option.bind_some, hkey, hk]
  rfl

theorem Db.Agrees.localMapping (h : db.Agrees) (hi : db.ipDb ip = some i) :
    ∃ m, db.localMappings ip = some m := by
  refine Option.isSome_iff_exists.mp ((h.mapping ip).mpr ?_)
  rw [hi]
  rfl

/-! ### Timeouts and clears -/

/-- An IP that ages out is forgotten. -/
theorem sound_ipAgeout (h : db.Agrees) (ip : IpKey) : Sound (ipAgeout never db ip) := by
  rw [ipAgeout]
  cases hi : db.ipDb ip with
  | none => exact sound_of (by decide) h
  | some i =>
    dsimp only
    split
    · exact sound_of (by decide) h
    obtain ⟨k, e, hk, hmem, -, howner⟩ := h.macEntryOf hi
    obtain ⟨m, hm⟩ := h.localMapping hi
    let db1 : Db := { db with localMappings := update db.localMappings ip none }
    have hret : deleteIpFromEp never db ip (db.macEntryOf i) = db1.deleteIpEntry ip k := by
      simp [deleteIpFromEp, localMappingDelete_never hm, howner, db1]
    rw [hret, deleteIpEntry_eq (show db1.macDb k = some e from hk) hi]
    exact sound_of (by decide) (h.forgetIp hk hmem)

theorem without_nil [DecidableEq α] (f : α → Option β) : without f [] = f := by
  funext x
  simp [without]

/-- A MAC that ages out is forgotten. -/
theorem sound_macAgeout (h : db.Agrees) (k : MacKey) : Sound (macAgeout never db k) := by
  rw [macAgeout]
  cases hk : db.macDb k with
  | none => exact sound_of (by decide) h
  | some e =>
    dsimp only
    split
    · exact sound_of (by decide) h
    split
    · exact sound_of (by decide) h
    rename_i hlist
    rw [not_ne_iff] at hlist
    obtain ⟨v, hv, -⟩ := h.vnic hk
    have hforget := h.forgetMac hk
    rw [hlist, without_nil, without_nil] at hforget
    rw [deleteEp, vnicDelete_never hv, if_neg (by simp)]
    simp only [Db.deleteMacEntry, hk]
    exact sound_of (by decide) hforget

theorem sound_ipAgingCb (h : db.Agrees) (ip : IpKey) : Sound (ipAgingCb never db ip) := by
  rw [ipAgingCb]
  cases hi : db.ipDb ip with
  | none => exact sound_of (by decide) h
  | some i =>
    dsimp only
    split
    · split
      · exact sound_ipAgeout h ip
      · exact sound_of (by decide) (h.setIp hi rfl)
    · exact sound_of (by decide) (h.setIp hi rfl)
    · exact sound_of (by decide) h

theorem sound_clearIps (ips : List IpKey) (h : db.Agrees) : Sound (clearIps never ips db) := by
  induction ips generalizing db with
  | nil => exact sound_of (by decide) h
  | cons ip ips ih => exact sound_andThen (sound_ipAgeout h ip) fun _ h' => ih h'

theorem sound_epMacEntryClear (h : db.Agrees) (k : MacKey) :
    Sound (epMacEntryClear never db k) := by
  rw [epMacEntryClear]
  cases db.macDb k with
  | none => exact sound_of (by decide) h
  | some e => exact sound_andThen (sound_clearIps e.ipList h) fun _ h' => sound_macAgeout h' k

theorem sound_clearMacs (filter : Db → MacKey → Bool) (ks : List MacKey) (h : db.Agrees) :
    Sound (clearMacs never filter ks db) := by
  induction ks generalizing db with
  | nil => exact sound_of (by decide) h
  | cons k ks ih =>
    rw [clearMacs]
    split
    · exact sound_andThen (sound_epMacEntryClear h k) fun _ h' => ih h'
    · exact ih h

theorem sound_freeDelayed (h : db.Agrees) (e : MacEntry) : (db.freeDelayed e).Agrees := by
  rw [Db.freeDelayed]
  split
  · rw [Db.destroyMac]
    split
    · exact h
    · exact h
  · exact h

/-! ### Mapping calls -/

theorem without_update [DecidableEq α] (f : α → Option β) (a : α) (l : List α) :
    without (update f a none) l = without f (a :: l) := by
  funext x
  by_cases hx : x = a
  · subst hx
    simp [without]
  · simp [without, hx]

/-- The mappings of all IPs of a MAC are deleted. -/
theorem deleteLocalIpMappings_eq {ips : List IpKey} (hnodup : ips.Nodup)
    (hmapped : ∀ ip ∈ ips, (db.localMappings ip).isSome) (ret : Ret) :
    deleteLocalIpMappings never ips (ret, db)
      = (if ips = [] then ret else .ok,
          { db with localMappings := without db.localMappings ips }) := by
  induction ips generalizing db ret with
  | nil => simp [deleteLocalIpMappings, without_nil]
  | cons ip ips ih =>
    obtain ⟨hnot, hnodup⟩ := List.nodup_cons.mp hnodup
    obtain ⟨m, hm⟩ := Option.isSome_iff_exists.mp (hmapped ip List.mem_cons_self)
    have hrest : ∀ x ∈ ips, (update db.localMappings ip none x).isSome := by
      intro x hx
      have hne : x ≠ ip := fun heq => hnot (heq ▸ hx)
      rw [update_of_ne hne]
      exact hmapped x (List.mem_cons_of_mem ip hx)
    rw [deleteLocalIpMappings, localMappingDelete_never hm, if_pos rfl, ih hnodup hrest,
      without_update, ite_self, if_neg (List.cons_ne_nil ip ips)]

/-- The entries of a MAC and its IPs are deleted. -/
theorem processDeletedObjects_eq {ips : List IpKey} (hk : db.macDb k = some e)
    (hnodup : ips.Nodup) (hentries : ∀ ip ∈ ips, (db.ipDb ip).isSome) :
    ∃ db', processDeletedObjects (ips.map (.ip · k) ++ [.mac k]) db = (.ok, db') ∧
      db'.macDb = update db.macDb k none ∧ db'.ipDb = without db.ipDb ips ∧
      db'.vnics = db.vnics ∧ db'.localMappings = db.localMappings ∧
      db'.remoteMappings = db.remoteMappings := by
  induction ips generalizing db e with
  | nil =>
    refine ⟨(db.deleteMacEntry k).2, ?_, ?_, ?_, ?_, ?_, ?_⟩
    all_goals simp [processDeletedObjects, andThen, Db.deleteMacEntry, Db.vnicObjIdFree, hk,
      without_nil]
  | cons ip ips ih =>
    obtain ⟨hnot, hnodup⟩ := List.nodup_cons.mp hnodup
    obtain ⟨i, hi⟩ := Option.isSome_iff_exists.mp (hentries ip List.mem_cons_self)
    let db1 : Db := { db.delIp k e ip with
      ipDb := update db.ipDb ip none
      ipCount := db.ipCount - 1 }
    have hstep : db.deleteIpEntry ip k = (.ok, db1) := deleteIpEntry_eq hk hi
    have hrest : ∀ x ∈ ips, (db1.ipDb x).isSome := by
      intro x hx
      have hne : x ≠ ip := fun heq => hnot (heq ▸ hx)
      show (update db.ipDb ip none x).isSome
      rw [update_of_ne hne]
      exact hentries x (List.mem_cons_of_mem ip hx)
    have hk1 : db1.macDb k = some { e with ipList := e.ipList.filter (· ≠ ip) } := update_self ..
    obtain ⟨db', hret, hmac, hip, hvnics, hlocals, hremotes⟩ := ih hk1 hnodup hrest
    refine ⟨db', ?_, ?_, ?_, hvnics, hlocals, hremotes⟩
    · show andThen (db.deleteIpEntry ip k) _ = _
      rw [hstep]
      exact hret
    · exact hmac.trans (update_idem ..)
    · exact hip.trans (without_update ..)

/-- What is done after the object calls of a mapping call. -/
def afterCalls (r : Ret × Db × List DelObj) : Ret × Db :=
  if r.1 = .ok then processDeletedObjects r.2.2 r.2.1 else (r.1, r.2.1)

/-- A MAC that moves to a remote TEP is forgotten, and has a remote mapping. -/
theorem sound_l2rMoveMac (h : db.Agrees) (call : MappingCall) (hkey : call.key = .l2 k)
    (hk : db.macDb k = some e) : Sound (afterCalls (processL2rMoveMac never db k call)) := by
  have hentries : ∀ ip ∈ e.ipList, (db.ipDb ip).isSome := by
    intro ip hip
    obtain ⟨i, hi, -⟩ := h.listed hk hip
    rw [hi]
    rfl
  have hmapped : ∀ ip ∈ e.ipList, (db.localMappings ip).isSome := fun ip hip =>
    (h.mapping ip).mpr (hentries ip hip)
  obtain ⟨v, hv, -⟩ := h.vnic hk
  by_cases hret : (if e.ipList = [] then call.stackRet else .ok) = .ok
  · let db3 : Db := { db with
      localMappings := without db.localMappings e.ipList
      vnics := update db.vnics e.vnicObjId none
      remoteMappings := update db.remoteMappings (.l2 k) (some call.spec) }
    have hcalls : processL2rMoveMac never db k call
        = (.ok, db3, e.ipList.map (.ip · k) ++ [.mac k]) := by
      simp [processL2rMoveMac, hk, deleteLocalIpMappings_eq (h.nodup hk) hmapped, hkey, hret,
        Db.vnicDelete, Db.remoteMappingCreate, never, hv, h.macLocal hk, db3]
    obtain ⟨db', hdone, hmac, hip, hvnics, hlocals, hremotes⟩ :=
      processDeletedObjects_eq (k := k) (show db3.macDb k = some e from hk) (h.nodup hk) hentries
    rw [hcalls, afterCalls, if_pos rfl, hdone]
    refine sound_of (by decide) ?_
    rw [Db.Agrees, hmac, hip, hvnics, hlocals, hremotes]
    exact (h.forgetMac hk).setRemoteMac (update_self ..) (some call.spec)
  · -- the list is empty, and the walk has not set `cb_args.ret`
    have hempty : e.ipList = [] := by
      by_contra hne
      exact hret (if_neg hne)
    have hstack : call.stackRet = .err := by
      cases hok : call.stackOk with
      | false => simp [MappingCall.stackRet, hok]
      | true => simp [MappingCall.stackRet, hok] at hret
    have hsame : processL2rMoveMac never db k call = (.err, db, [.mac k]) := by
      simp [processL2rMoveMac, hk, hempty, deleteLocalIpMappings, hstack, andThen_of_ne]
    rw [hsame]
    exact sound_of (r := .err) (by decide) h

/-- An IP that moves to a remote TEP is forgotten, and has a remote mapping. -/
theorem sound_l2rMoveIp (h : db.Agrees) (call : MappingCall) (hkey : call.key = .l3 ip)
    (hi : db.ipDb ip = some i) : Sound (afterCalls (processL2rMoveIp never db ip call)) := by
  obtain ⟨k, e, hk, hmem, -, howner⟩ := h.macEntryOf hi
  obtain ⟨m, hm⟩ := h.localMapping hi
  have hforget := (h.forgetIp hk hmem).setRemoteIp (update_self ..) (some call.spec)
  let db2 : Db := { db with
    localMappings := update db.localMappings ip none
    remoteMappings := update db.remoteMappings (.l3 ip) (some call.spec) }
  have hcalls : processL2rMoveIp never db ip call = (.ok, db2, [.ip ip k]) := by
    simp [processL2rMoveIp, hi, howner, localMappingDelete_never hm, hkey,
      Db.remoteMappingCreate, never, h.ipLocal hi, db2]
  have hdone : processDeletedObjects [.ip ip k] db2 = db2.deleteIpEntry ip k := by
    rw [processDeletedObjects, deleteIpEntry_eq (show db2.macDb k = some e from hk) hi]
    rfl
  rw [hcalls, afterCalls, if_pos rfl, hdone,
    deleteIpEntry_eq (show db2.macDb k = some e from hk) hi]
  exact sound_of (by decide) hforget

variable {key : MappingKey}

section

variable (h : db.Agrees) (hkey : db.isLocal key = false)
include h hkey

/-- The remote mapping of what is not local is set. -/
theorem Db.Agrees.setRemote (spec : Option RemoteSpec) :
    { db with remoteMappings := update db.remoteMappings key spec }.Agrees := by
  cases key with
  | l2 k => exact h.setRemoteMac (by simpa [Db.isLocal] using hkey) spec
  | l3 ip => exact h.setRemoteIp (by simpa [Db.isLocal] using hkey) spec

theorem sound_remoteMappingCreate (spec : RemoteSpec) :
    Sound (db.remoteMappingCreate never key spec) := by
  rw [Db.remoteMappingCreate]
  split
  · exact sound_of (by decide) h
  · exact sound_of (by decide) (h.setRemote hkey (some spec))

theorem sound_remoteMappingDelete :
    Sound (db.remoteMappingDelete never key) := by
  rw [Db.remoteMappingDelete]
  split
  · exact sound_of (by decide) h
  · split
    · exact sound_of (by decide) h
    · exact sound_of (by decide) (h.setRemote hkey none)

end

theorem isLocal_remoteMappingDelete (db : Db) (key key' : MappingKey) :
    (db.remoteMappingDelete never key).2.isLocal key' = db.isLocal key' := by
  rw [Db.remoteMappingDelete]
  split
  · rfl
  · split
    · rfl
    · cases key' <;> rfl

theorem afterCalls_nil (r : Ret × Db) : afterCalls (r.1, r.2, []) = r := by
  obtain ⟨ret, db⟩ := r
  rw [afterCalls]
  split
  · rename_i hret
    cases hret
    rfl
  · rfl

theorem detectMapping_of_local {call : MappingCall} (hlocal : db.isLocal call.key = true) :
    detectMapping db call = if call.op = .create then .moveL2R else .none := by
  cases hop : call.op <;> simp [detectMapping, hlocal, hop]

theorem detectMapping_of_not_local {call : MappingCall} (hlocal : db.isLocal call.key = false) :
    detectMapping db call = match call.op with
      | .create => if (db.remoteMappings call.key).isSome then .moveR2R else .newRemote
      | .update => .moveR2R
      | .delete => .delete := by
  cases hop : call.op with
  | create => cases hremote : (db.remoteMappings call.key).isSome <;>
      simp [detectMapping, hlocal, hop, hremote]
  | update => simp [detectMapping, hlocal, hop]
  | delete => simp [detectMapping, hlocal, hop]

/-- A mapping call for what is local. -/
theorem sound_processApi_of_local (h : db.Agrees) (call : MappingCall)
    (hlocal : db.isLocal call.key = true) : Sound (processApi never db call) := by
  show Sound (afterCalls (processMappingApi never db call))
  rw [processMappingApi, detectMapping_of_local hlocal]
  by_cases hop : call.op = .create
  · rw [if_pos hop]
    cases hkey : call.key with
    | l2 k =>
      obtain ⟨e, hk⟩ : ∃ e, db.macDb k = some e :=
        Option.isSome_iff_exists.mp (by simpa [Db.isLocal, hkey] using hlocal)
      exact sound_l2rMoveMac h call hkey hk
    | l3 ip =>
      obtain ⟨i, hi⟩ : ∃ i, db.ipDb ip = some i :=
        Option.isSome_iff_exists.mp (by simpa [Db.isLocal, hkey] using hlocal)
      exact sound_l2rMoveIp h call hkey hi
  · rw [if_neg hop]
    exact sound_of (r := .ok) (by decide) h

/-- A mapping call for what is not local. -/
theorem sound_processApi_of_not_local (h : db.Agrees) (call : MappingCall)
    (hlocal : db.isLocal call.key = false) : Sound (processApi never db call) := by
  have hupdate : Sound (andThen (db.remoteMappingDelete never call.key) fun db =>
      db.remoteMappingCreate never call.key call.spec) := by
    rw [andThen]
    split
    · refine sound_remoteMappingCreate (sound_remoteMappingDelete h hlocal).agrees ?_ _
      rw [isLocal_remoteMappingDelete, hlocal]
    · exact sound_remoteMappingDelete h hlocal
  show Sound (afterCalls (processMappingApi never db call))
  rw [processMappingApi, detectMapping_of_not_local hlocal]
  cases call.op with
  | create =>
    cases (db.remoteMappings call.key).isSome with
    | true =>
      rw [if_pos rfl, afterCalls_nil]
      exact hupdate
    | false =>
      rw [if_neg (by decide), afterCalls_nil]
      exact sound_remoteMappingCreate h hlocal call.spec
  | update =>
    rw [afterCalls_nil]
    exact hupdate
  | delete =>
    rw [afterCalls_nil]
    exact sound_remoteMappingDelete h hlocal

/-- **A mapping call.** -/
theorem sound_processApi (h : db.Agrees) (call : MappingCall) :
    Sound (processApi never db call) := by
  cases hlocal : db.isLocal call.key with
  | true => exact sound_processApi_of_local h call hlocal
  | false => exact sound_processApi_of_not_local h call hlocal

end Operations

end NicSw.Learn
