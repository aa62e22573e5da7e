/-
The state of endpoint learning (`apollo/learn`) and the calls that change it.

A MAC that is learnt is an entry in the database of MACs, which has the id of a VNIC and a
list of IPs; an IP is an entry with the id of the VNIC of its MAC.  Next to the databases
there are the objects that learning creates: VNICs, local IP mappings and remote mappings.

Each object call is committed on its own.  It succeeds if the object is absent (create) or
present (update, delete), unless it fails for another reason (`fails`).

Entries that are deleted are freed later.  What is left to do then is to free the VNIC id
of a MAC, which was freed once already.
-/
import Mathlib.Data.Finset.Erase
import Mathlib.Data.Finset.Insert

namespace NicSw.Learn

open Function

/-! ### Keys, entries and objects -/

/-- `ep_mac_key_t`. -/
structure MacKey where
  subnet : Nat
  macAddr : Nat
  deriving DecidableEq, Repr

/-- `ep_ip_key_t`. -/
structure IpKey where
  vpc : Nat
  ipAddr : Nat
  deriving DecidableEq, Repr

/-- `pds_mapping_key_t`. -/
inductive MappingKey
  | l2 (k : MacKey)
  | l3 (k : IpKey)
  deriving DecidableEq, Repr

/-- `ep_state_t`, as far as it is used. -/
inductive EpState
  | learning
  | created
  | probing
  | deleted
  deriving DecidableEq, Repr

/-- `ep_mac_entry`; IPs on the list are named by their keys. -/
structure MacEntry where
  vnicObjId : Nat
  state : EpState
  ipList : List IpKey
  deriving DecidableEq, Repr

/-- `ep_ip_entry`. -/
structure IpEntry where
  vnicObjId : Nat
  state : EpState
  arpProbeCount : Nat
  deriving DecidableEq, Repr

/-- `pds_encap_t`: with an 802.1Q header or none, and the tag. -/
structure Encap where
  dot1q : Bool
  vlanTag : Nat
  deriving DecidableEq, Repr

/-- `pds_vnic_spec_t`, as far as learning fills it in. -/
structure VnicSpec where
  macKey : MacKey
  hostIf : Nat
  encap : Encap
  deriving DecidableEq, Repr

/-- `pds_local_mapping_spec_t`. -/
structure LocalMapping where
  vnic : Nat
  macKey : MacKey
  deriving DecidableEq, Repr

/-- `pds_remote_mapping_spec_t`; learning passes it on as it is. -/
abbrev RemoteSpec := Nat

/-- `ep_learn_type_t`. -/
inductive LearnType
  | invalid
  | none
  | newLocal
  | newRemote
  | moveL2L
  | moveR2L
  | moveL2R
  | moveR2R
  | delete
  deriving DecidableEq, Repr

/-- A return code; `crash` is a failed `SDK_ASSERT` or a pointer that is `NULL`. -/
inductive Ret
  | ok
  | err
  | entryNotFound
  | crash
  deriving DecidableEq, Repr

/-- The databases of endpoints, the objects, the VNIC ids that are allocated, and the MAC
entries that are to be freed. -/
structure Db where
  macDb : MacKey → Option MacEntry
  ipDb : IpKey → Option IpEntry
  macCount : Nat
  ipCount : Nat
  vnics : Nat → Option VnicSpec
  localMappings : IpKey → Option LocalMapping
  remoteMappings : MappingKey → Option RemoteSpec
  vnicObjIds : Finset Nat
  delayed : List MacEntry

/-- The state after `learn_state::init`. -/
def Db.init : Db where
  macDb _ := none
  ipDb _ := none
  macCount := 0
  ipCount := 0
  vnics _ := none
  localMappings _ := none
  remoteMappings _ := none
  vnicObjIds := ∅
  delayed := []

/-! ### Object calls -/

/-- The object calls. -/
inductive ObjCall
  | vnicCreate (id : Nat)
  | vnicUpdate (id : Nat)
  | vnicDelete (id : Nat)
  | localMappingCreate (k : IpKey)
  | localMappingDelete (k : IpKey)
  | remoteMappingCreate (k : MappingKey)
  | remoteMappingDelete (k : MappingKey)
  deriving DecidableEq, Repr

/-- `r` and then, if it succeeds, `f`. -/
def andThen {σ : Type*} (r : Ret × σ) (f : σ → Ret × σ) : Ret × σ :=
  if r.1 = .ok then f r.2 else r

namespace Db

variable (fails : ObjCall → Bool) (db : Db)

/-- `pds_vnic_create`. -/
def vnicCreate (id : Nat) (spec : VnicSpec) : Ret × Db :=
  if fails (.vnicCreate id) ∨ (db.vnics id).isSome then (.err, db)
  else (.ok, { db with vnics := update db.vnics id (some spec) })

/-- `pds_vnic_update`. -/
def vnicUpdate (id : Nat) (spec : VnicSpec) : Ret × Db :=
  if fails (.vnicUpdate id) then (.err, db)
  else if (db.vnics id).isNone then (.entryNotFound, db)
  else (.ok, { db with vnics := update db.vnics id (some spec) })

/-- `pds_vnic_delete`. -/
def vnicDelete (id : Nat) : Ret × Db :=
  if fails (.vnicDelete id) then (.err, db)
  else if (db.vnics id).isNone then (.entryNotFound, db)
  else (.ok, { db with vnics := update db.vnics id none })

/-- `pds_local_mapping_create`. -/
def localMappingCreate (k : IpKey) (spec : LocalMapping) : Ret × Db :=
  if fails (.localMappingCreate k) ∨ (db.localMappings k).isSome then (.err, db)
  else (.ok, { db with localMappings := update db.localMappings k (some spec) })

/-- `pds_local_mapping_delete`. -/
def localMappingDelete (k : IpKey) : Ret × Db :=
  if fails (.localMappingDelete k) then (.err, db)
  else if (db.localMappings k).isNone then (.entryNotFound, db)
  else (.ok, { db with localMappings := update db.localMappings k none })

/-- `pds_remote_mapping_create`. -/
def remoteMappingCreate (k : MappingKey) (spec : RemoteSpec) : Ret × Db :=
  if fails (.remoteMappingCreate k) ∨ (db.remoteMappings k).isSome then (.err, db)
  else (.ok, { db with remoteMappings := update db.remoteMappings k (some spec) })

/-- `pds_remote_mapping_delete`. -/
def remoteMappingDelete (k : MappingKey) : Ret × Db :=
  if fails (.remoteMappingDelete k) then (.err, db)
  else if (db.remoteMappings k).isNone then (.entryNotFound, db)
  else (.ok, { db with remoteMappings := update db.remoteMappings k none })

/-! ### Entries -/

/-- `ep_ip_entry::mac_entry`: the key of the MAC entry, which is found through the VNIC. -/
def macEntryOf (i : IpEntry) : Option MacKey :=
  (db.vnics i.vnicObjId).bind fun v => (db.macDb v.macKey).map fun _ => v.macKey

/-- `vnic_obj_id_free`. -/
def vnicObjIdFree (id : Nat) : Db := { db with vnicObjIds := db.vnicObjIds.erase id }

/-- `ep_mac_entry::~ep_mac_entry`. -/
def destroyMac (e : MacEntry) : Db := if e.vnicObjId ≠ 0 then db.vnicObjIdFree e.vnicObjId else db

/-- `ep_mac_entry::del_ip`. -/
def delIp (k : MacKey) (e : MacEntry) (ip : IpKey) : Db :=
  { db with
    macDb := update db.macDb k (some { e with ipList := e.ipList.filter (· ≠ ip) }) }

/-- `delete_ip_entry`. -/
def deleteIpEntry (ip : IpKey) (k : MacKey) : Ret × Db :=
  match db.macDb k with
  | none => (.crash, db)
  | some e =>
    let db := db.delIp k e ip
    match db.ipDb ip with
    | none => (.entryNotFound, db)
    | some _ =>
      (.ok, { db with ipDb := update db.ipDb ip none, ipCount := db.ipCount - 1 })

/-- `delete_mac_entry`; the entry is freed later. -/
def deleteMacEntry (k : MacKey) : Ret × Db :=
  match db.macDb k with
  | none => (.crash, db)
  | some e =>
    let db := db.vnicObjIdFree e.vnicObjId
    (.ok, { db with
      macDb := update db.macDb k none
      macCount := db.macCount - 1
      delayed := { e with state := .deleted } :: db.delayed })

/-- `slab_delay_delete_cb` for a MAC entry. -/
def freeDelayed (e : MacEntry) : Db :=
  if e ∈ db.delayed then { db with delayed := db.delayed.erase e }.destroyMac e else db

end Db

end NicSw.Learn
