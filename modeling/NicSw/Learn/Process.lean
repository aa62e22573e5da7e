/-
How endpoint learning processes packets, mapping calls, timeouts and clears.

A packet has a MAC and perhaps an IP.  For each of them the learn type is found first
(`detect_learn_type`), then the object calls are made (`process_learn`), and only then the
entries are put in the databases (`update_ep`).  If a call fails, `reset` frees the entries
that were allocated.

A remote mapping that is created for a MAC or IP that is local moves it: the objects go
first, and the entries after that (`process_deleted_objects`).
-/
import NicSw.Learn.Db

namespace NicSw.Learn

open Function

/-- `EP_MAX_MAC_ENTRY`. -/
def epMaxMacEntry : Nat := 128

/-- `EP_MAX_IP_ENTRY`. -/
def epMaxIpEntry : Nat := epMaxMacEntry * 32

/-- `MAX_NUM_ARP_PROBES`. -/
def maxNumArpProbes : Nat := 3

/-- The subnets: their VPCs, and their prefixes. -/
structure Subnets where
  vpc : Nat → Nat
  contains : Nat → Nat → Bool

/-! ### Packets -/

/-- What the P4 pipeline says of an 802.1Q header, and the bytes in its place.  A `char` has no
sign, as on the ARM cores of the card. -/
structure VlanHdr where
  vlanValid : Bool
  tpid : UInt16
  tciHigh : UInt8
  tciLow : UInt8
  deriving DecidableEq, Repr

/-- `ETH_TYPE_DOT1Q`. -/
def ethTypeDot1q : UInt16 := 0x8100

/-- The packet has an 802.1Q header. -/
def VlanHdr.isDot1q (hdr : VlanHdr) : Bool := hdr.vlanValid && hdr.tpid = ethTypeDot1q

/-- `fill_encap`. -/
def fillEncap (hdr : VlanHdr) : Encap :=
  if hdr.isDot1q then ⟨true, ((hdr.tciHigh.toNat <<< 4) &&& 0xf) ||| hdr.tciLow.toNat⟩
  else ⟨false, 0⟩

/-- The encapsulation of a packet: a VLAN id has 12 bits. -/
def VlanHdr.encap (hdr : VlanHdr) : Encap :=
  if hdr.isDot1q then ⟨true, (hdr.tciHigh.toNat &&& 0xf) * 256 + hdr.tciLow.toNat⟩
  else ⟨false, 0⟩

/-- Only the tag can be read wrong. -/
theorem fillEncap_eq {hdr : VlanHdr} (htag : (fillEncap hdr).vlanTag = hdr.encap.vlanTag) :
    fillEncap hdr = hdr.encap := by
  unfold fillEncap VlanHdr.encap at *
  split_ifs at * with hdot
  · exact congrArg _ htag
  · rfl

/-- What is learnt from a packet, and what the allocators do: the VNIC id that is free, if any,
and whether there is memory for entries. -/
structure Pkt where
  macKey : MacKey
  ipAddr : Option Nat
  lif : Nat
  hdr : VlanHdr
  vnicObjId : Option Nat
  macAlloc : Bool
  ipAlloc : Bool
  deriving DecidableEq, Repr

/-- `learn_ctxt_t` of a packet.  `newMac` and `newIp` are the entries that were allocated and
are not in a database. -/
structure PktCtxt where
  db : Db
  macLearnType : LearnType
  ipLearnType : LearnType
  newMac : Option MacEntry := none
  newIp : Option IpEntry := none

section Packets

variable (subnets : Subnets) (fails : ObjCall → Bool) (pkt : Pkt)

/-- The encapsulation that `extract_info_from_p4_hdr` finds. -/
def Pkt.encap : Encap := fillEncap pkt.hdr

/-- The key of the IP of a packet. -/
def Pkt.ipKey (ip : Nat) : IpKey := ⟨subnets.vpc pkt.macKey.subnet, ip⟩

/-- `detect_learn_type` for the MAC of a packet. -/
def detectMac (db : Db) : Option LearnType :=
  match db.macDb pkt.macKey with
  | some e => do
      let v ← db.vnics e.vnicObjId
      -- of the encapsulations only the tags are compared
      some (if v.hostIf ≠ pkt.lif ∨ v.encap.vlanTag ≠ pkt.encap.vlanTag then .moveL2L else .none)
  | none =>
    some (if (db.remoteMappings (.l2 pkt.macKey)).isSome then .moveR2L else .newLocal)

/-- `detect_learn_type` for the IP of a packet. -/
def detectIp (db : Db) (k : IpKey) : Option LearnType :=
  match db.ipDb k with
  | some i => do
      let owner ← db.macEntryOf i
      some (if owner.macAddr ≠ pkt.macKey.macAddr then .moveL2L else .none)
  | none => some (if (db.remoteMappings (.l3 k)).isSome then .moveR2L else .newLocal)

/-- `extract_learn_info`. -/
def extractLearnInfo (db : Db) : Option (LearnType × LearnType) := do
  let macType ← detectMac pkt db
  match pkt.ipAddr with
  | none => some (macType, .invalid)
  | some ip => do
      let ipType ← detectIp pkt db (pkt.ipKey subnets ip)
      some (macType, ipType)

/-- `validate_learn`. -/
def validateLearn (db : Db) (macType ipType : LearnType) : Bool :=
  !(decide (macType = .newLocal ∨ macType = .moveR2L) && decide (epMaxMacEntry ≤ db.macCount)) &&
    match pkt.ipAddr with
    | none => true
    | some ip =>
      !((db.ipDb (pkt.ipKey subnets ip)).isNone &&
        decide (ipType = .newLocal ∨ ipType = .moveR2L ∨ ipType = .moveL2L)) ||
      (!(decide (ipType ≠ .moveL2L) && decide (epMaxIpEntry ≤ db.ipCount)) &&
        subnets.contains pkt.macKey.subnet ip)

/-- The VNIC of the MAC of a packet. -/
def Pkt.vnicSpec : VnicSpec := ⟨pkt.macKey, pkt.lif, pkt.encap⟩

/-- `ctxt->mac_entry->vnic_obj_id()`. -/
def PktCtxt.vnicObjId (c : PktCtxt) : Option Nat :=
  match c.newMac with
  | some e => some e.vnicObjId
  | none => (c.db.macDb pkt.macKey).map (·.vnicObjId)

/-- An object call of a packet. -/
def PktCtxt.call (c : PktCtxt) (f : Db → Ret × Db) : Ret × PktCtxt :=
  let r := f c.db
  (r.1, { c with db := r.2 })

/-- `process_new_local_mac`. -/
def processNewLocalMac (c : PktCtxt) : Ret × PktCtxt :=
  match pkt.vnicObjId with
  | none => (.err, c)
  | some id =>
    if id = 0 ∨ id ∈ c.db.vnicObjIds then (.err, c)
    -- the id is given back
    else if !pkt.macAlloc then (.err, c)
    else
      let c := { c with
        db := { c.db with vnicObjIds := insert id c.db.vnicObjIds }
        newMac := some ⟨id, .learning, []⟩ }
      c.call fun db => db.vnicCreate fails id pkt.vnicSpec

/-- `process_l2l_move_mac`. -/
def processL2lMoveMac (c : PktCtxt) : Ret × PktCtxt :=
  match c.vnicObjId pkt with
  | none => (.crash, c)
  | some id => c.call fun db => db.vnicUpdate fails id pkt.vnicSpec

/-- `process_r2l_move_mac`. -/
def processR2lMoveMac (c : PktCtxt) : Ret × PktCtxt :=
  andThen (c.call fun db => db.remoteMappingDelete fails (.l2 pkt.macKey))
    (processNewLocalMac fails pkt)

/-- `process_new_local_ip`. -/
def processNewLocalIp (k : IpKey) (c : PktCtxt) : Ret × PktCtxt :=
  match c.vnicObjId pkt with
  | none => (.crash, c)
  | some id =>
    if !pkt.ipAlloc then (.err, c)
    else { c with newIp := some ⟨id, .learning, 0⟩ }.call fun db =>
      db.localMappingCreate fails k ⟨id, pkt.macKey⟩

/-- `process_l2l_move_ip`.  The old entry is gone before the new one is made. -/
def processL2lMoveIp (k : IpKey) (c : PktCtxt) : Ret × PktCtxt :=
  andThen (c.call fun db => db.localMappingDelete fails k) fun c =>
    match (c.db.ipDb k).bind c.db.macEntryOf with
    | none => (.crash, c)
    | some owner =>
      andThen (c.call fun db => db.deleteIpEntry k owner) (processNewLocalIp fails pkt k)

/-- `process_r2l_move_ip`. -/
def processR2lMoveIp (k : IpKey) (c : PktCtxt) : Ret × PktCtxt :=
  andThen (c.call fun db => db.remoteMappingDelete fails (.l3 k)) (processNewLocalIp fails pkt k)

/-- `process_learn_dispatch` for the MAC of a packet. -/
def processMac (c : PktCtxt) : Ret × PktCtxt :=
  match c.macLearnType with
  | .newLocal => processNewLocalMac fails pkt c
  | .moveL2L => processL2lMoveMac fails pkt c
  | .moveR2L => processR2lMoveMac fails pkt c
  | .none => (.ok, c)
  | _ => (.err, c)

/-- `process_learn_dispatch` for the IP of a packet. -/
def processIp (k : IpKey) (c : PktCtxt) : Ret × PktCtxt :=
  match c.ipLearnType with
  | .newLocal => processNewLocalIp fails pkt k c
  | .moveL2L => processL2lMoveIp fails pkt k c
  | .moveR2L => processR2lMoveIp fails pkt k c
  | .none => (.ok, c)
  | _ => (.err, c)

/-- `process_learn` for a packet. -/
def processLearn (c : PktCtxt) : Ret × PktCtxt :=
  andThen (processMac fails pkt c) fun c =>
    match pkt.ipAddr with
    | none => (.ok, c)
    | some ip => processIp fails pkt (pkt.ipKey subnets ip) c

/-- `update_ep_mac`. -/
def updateEpMac (c : PktCtxt) : Ret × PktCtxt :=
  match c.macLearnType with
  | .none | .moveL2L => (.ok, c)
  | .newLocal | .moveR2L =>
    match c.newMac with
    | none => (.crash, c)
    | some e =>
      (.ok, { c with
        db := { c.db with
          macDb := update c.db.macDb pkt.macKey (some { e with state := .created })
          macCount := c.db.macCount + 1 }
        newMac := none })
  | _ => (.err, c)

/-- `ep_mac_entry::add_ip` on the MAC entry of a packet, which is in the database by now. -/
def PktCtxt.addIp (c : PktCtxt) (k : IpKey) : PktCtxt :=
  { c with
    db := { c.db with
      macDb := update c.db.macDb pkt.macKey
        ((c.db.macDb pkt.macKey).map fun e => { e with ipList := k :: e.ipList }) } }

/-- `update_ep_ip`.  For a move, the old entry has been deleted before. -/
def updateEpIp (k : IpKey) (c : PktCtxt) : Ret × PktCtxt :=
  match c.ipLearnType with
  | .none =>
    (.ok, { c with
      db := { c.db with
        ipDb := update c.db.ipDb k ((c.db.ipDb k).map fun i => { i with state := .created }) } })
  | .newLocal | .moveR2L | .moveL2L =>
    match c.newIp with
    | none => (.crash, c)
    | some i =>
      (.ok, { c with
        db := { c.db with
          ipDb := update c.db.ipDb k (some { i with state := .created })
          ipCount := c.db.ipCount + 1 }
        newIp := none }.addIp pkt k)
  | _ => (.err, c)

/-- `update_ep`. -/
def updateEp (c : PktCtxt) : Ret × PktCtxt :=
  andThen (updateEpMac pkt c) fun c =>
    match pkt.ipAddr with
    | none => (.ok, c)
    | some ip => updateEpIp pkt (pkt.ipKey subnets ip) c

/-- `learn_ctxt_s::reset`. -/
def PktCtxt.reset (c : PktCtxt) : Db :=
  match c.newMac with
  | some e => c.db.destroyMac e
  | none => c.db

/-- `process_learn_pkt`. -/
def processLearnPkt (db : Db) : Ret × Db :=
  match extractLearnInfo subnets pkt db with
  | none => (.crash, db)
  | some (macType, ipType) =>
    if !validateLearn subnets pkt db macType ipType then (.err, db)
    else
      let r := andThen (processLearn subnets fails pkt ⟨db, macType, ipType, none, none⟩)
        (updateEp subnets pkt)
      (r.1, r.2.reset)

end Packets

/-! ### Mapping calls -/

/-- An entry of the list of entries to delete. -/
inductive DelObj
  | mac (k : MacKey)
  | ip (ip : IpKey) (k : MacKey)
  deriving DecidableEq, Repr

/-- The operations of a mapping call. -/
inductive MappingOp
  | create
  | update
  | delete
  deriving DecidableEq, Repr

/-- A call for a remote mapping.  `stackOk` is whether `cb_args.ret`, which is not initialised,
happens to be `SDK_RET_OK` before the IPs of a MAC are walked. -/
structure MappingCall where
  op : MappingOp
  key : MappingKey
  spec : RemoteSpec
  stackOk : Bool
  deriving DecidableEq, Repr

/-- `cb_args.ret` before the walk. -/
def MappingCall.stackRet (call : MappingCall) : Ret := if call.stackOk then .ok else .err

section Mappings

variable (fails : ObjCall → Bool)

/-- Whether there is a local entry. -/
def Db.isLocal (db : Db) : MappingKey → Bool
  | .l2 k => (db.macDb k).isSome
  | .l3 k => (db.ipDb k).isSome

/-- `detect_learn_type` for a mapping call; a create of what exists is an update. -/
def detectMapping (db : Db) (call : MappingCall) : LearnType :=
  let op :=
    if !db.isLocal call.key && call.op == .create && (db.remoteMappings call.key).isSome then
      MappingOp.update
    else call.op
  match op with
  | .create => if db.isLocal call.key then .moveL2R else .newRemote
  | .update => if db.isLocal call.key then .none else .moveR2R
  | .delete => if db.isLocal call.key then .none else .delete

/-- The walk of `l2r_mac_move_cb` over the IPs of a MAC. -/
def deleteLocalIpMappings : List IpKey → Ret × Db → Ret × Db
  | [], r => r
  | ip :: ips, r =>
    let r := r.2.localMappingDelete fails ip
    if r.1 = .ok then deleteLocalIpMappings ips r else r

/-- `process_l2r_move_mac`, with the entries to delete. -/
def processL2rMoveMac (db : Db) (k : MacKey) (call : MappingCall) : Ret × Db × List DelObj :=
  match db.macDb k with
  | none => (.crash, db, [])
  | some e =>
    let r := andThen (deleteLocalIpMappings fails e.ipList (call.stackRet, db)) fun db =>
      andThen (db.vnicDelete fails e.vnicObjId) fun db =>
        db.remoteMappingCreate fails call.key call.spec
    (r.1, r.2, e.ipList.map (.ip · k) ++ [.mac k])

/-- `process_l2r_move_ip`, with the entries to delete. -/
def processL2rMoveIp (db : Db) (k : IpKey) (call : MappingCall) : Ret × Db × List DelObj :=
  match (db.ipDb k).bind db.macEntryOf with
  | none => (.crash, db, [])
  | some owner =>
    let r := andThen (db.localMappingDelete fails k) fun db =>
      db.remoteMappingCreate fails call.key call.spec
    (r.1, r.2, [.ip k owner])

/-- `process_learn` for a mapping call. -/
def processMappingApi (db : Db) (call : MappingCall) : Ret × Db × List DelObj :=
  match detectMapping db call with
  | .newRemote =>
    let r := db.remoteMappingCreate fails call.key call.spec
    (r.1, r.2, [])
  | .moveL2R =>
    match call.key with
    | .l2 k => processL2rMoveMac fails db k call
    | .l3 k => processL2rMoveIp fails db k call
  | .moveR2R =>
    let r := andThen (db.remoteMappingDelete fails call.key) fun db =>
      db.remoteMappingCreate fails call.key call.spec
    (r.1, r.2, [])
  | .delete =>
    let r := db.remoteMappingDelete fails call.key
    (r.1, r.2, [])
  | .none => (.ok, db, [])
  | _ => (.err, db, [])

/-- `process_deleted_objects`. -/
def processDeletedObjects : List DelObj → Db → Ret × Db
  | [], db => (.ok, db)
  | .mac k :: objs, db => andThen (db.deleteMacEntry k) (processDeletedObjects objs)
  | .ip ip k :: objs, db => andThen (db.deleteIpEntry ip k) (processDeletedObjects objs)

/-- `process_mapping_api_batch`, for one of its calls. -/
def processApi (db : Db) (call : MappingCall) : Ret × Db :=
  let r := processMappingApi fails db call
  if r.1 = .ok then processDeletedObjects r.2.2 r.2.1 else (r.1, r.2.1)

end Mappings

/-! ### Timeouts and clears -/

section Ageouts

variable (fails : ObjCall → Bool)

/-- `delete_ip_from_ep`; a mapping that is not found does not matter. -/
def deleteIpFromEp (db : Db) (ip : IpKey) (owner : Option MacKey) : Ret × Db :=
  let r := db.localMappingDelete fails ip
  if r.1 ≠ .ok ∧ r.1 ≠ .entryNotFound then r
  else
    match owner with
    | none => (.crash, r.2)
    | some k => r.2.deleteIpEntry ip k

/-- `ip_ageout`. -/
def ipAgeout (db : Db) (ip : IpKey) : Ret × Db :=
  match db.ipDb ip with
  | none => (.err, db)
  | some i =>
    if i.state ≠ .created ∧ i.state ≠ .probing then (.err, db)
    else deleteIpFromEp fails db ip (db.macEntryOf i)

/-- `delete_ep`; a VNIC that is not found does not matter. -/
def deleteEp (db : Db) (k : MacKey) (e : MacEntry) : Ret × Db :=
  let r := db.vnicDelete fails e.vnicObjId
  if r.1 ≠ .ok ∧ r.1 ≠ .entryNotFound then r else r.2.deleteMacEntry k

/-- `mac_ageout`. -/
def macAgeout (db : Db) (k : MacKey) : Ret × Db :=
  match db.macDb k with
  | none => (.err, db)
  | some e =>
    if e.state ≠ .created then (.err, db)
    else if e.ipList ≠ [] then (.err, db)
    else deleteEp fails db k e

/-- `ip_aging_cb`. -/
def ipAgingCb (db : Db) (ip : IpKey) : Ret × Db :=
  match db.ipDb ip with
  | none => (.err, db)
  | some i =>
    match i.state with
    | .probing =>
      if i.arpProbeCount = maxNumArpProbes then ipAgeout fails db ip
      else
        (.ok, { db with
          ipDb := update db.ipDb ip (some { i with arpProbeCount := i.arpProbeCount + 1 }) })
    | .created =>
      (.ok, { db with
        ipDb := update db.ipDb ip (some { i with state := .probing, arpProbeCount := 1 }) })
    | _ => (.err, db)

/-- The walk of `ep_ip_entry_clear_cb` over IPs. -/
def clearIps : List IpKey → Db → Ret × Db
  | [], db => (.ok, db)
  | ip :: ips, db => andThen (ipAgeout fails db ip) (clearIps ips)

/-- `ep_mac_entry_clear`. -/
def epMacEntryClear (db : Db) (k : MacKey) : Ret × Db :=
  match db.macDb k with
  | none => (.entryNotFound, db)
  | some e => andThen (clearIps fails e.ipList db) fun db => macAgeout fails db k

/-- The walk of `ep_mac_entry_clear_cb` over MACs, with a filter. -/
def clearMacs (filter : Db → MacKey → Bool) : List MacKey → Db → Ret × Db
  | [], db => (.ok, db)
  | k :: ks, db =>
    if filter db k then andThen (epMacEntryClear fails db k) (clearMacs filter ks)
    else clearMacs filter ks db

end Ageouts

end NicSw.Learn
