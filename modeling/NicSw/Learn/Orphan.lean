/-
What a packet leaves behind when one of its object calls fails.

`process_learn` creates the VNIC of a new MAC and then the objects of the IP.  If a call for
the IP fails, `learn_ctxt_s::reset` destroys the MAC entry, which is not in the database yet,
and with it frees the VNIC id.  Nothing deletes the VNIC.  That is the only way to an orphan:
a packet leaves none if and only if it is not of that kind (`LeavesVnic`).
-/
import NicSw.Learn.Runs

namespace NicSw.Learn

/-- **No orphans.** -/
structure Db.NoOrphan (db : Db) : Prop where
  /-- A VNIC belongs to a MAC of the database. -/
  vnic : ∀ id, (db.vnics id).isSome → db.Held id
  /-- A local mapping belongs to an IP of the database, and conversely. -/
  mapping : ∀ ip, (db.localMappings ip).isSome ↔ (db.ipDb ip).isSome
  /-- The VNIC ids that are allocated are those that MACs hold. -/
  objId : ∀ id, id ∈ db.vnicObjIds ↔ db.Held id

section Orphans

variable {subnets : Subnets} {fails : ObjCall → Bool} {pkt : Pkt} {db db' : Db}

/-- A MAC with its VNIC and its id, or nothing, is new. -/
theorem Changes.noOrphan {o : Option Nat} (h : Changes db db' o o o) (hdb : db.NoOrphan)
    (hagrees : db'.Agrees) : db'.NoOrphan where
  vnic id hid := by
    rw [h.held]
    rcases (h.vnics id).mp hid with hold | hnew
    · exact .inl (hdb.vnic id hold)
    · exact .inr hnew
  mapping := hagrees.mapping
  objId id := by rw [h.objIds, h.held, hdb.objId]

/-- A VNIC alone is new. -/
theorem Changes.orphan {id : Nat} (h : Changes db db' none (some id) none) (hdb : db.NoOrphan)
    (hid : id ∉ db.vnicObjIds) : ¬ db'.NoOrphan := by
  intro hdb'
  have hheld : db'.Held id := hdb'.vnic id ((h.vnics id).mpr (.inr rfl))
  rcases (h.held id).mp hheld with hold | hnew
  · exact hid ((hdb.objId id).mpr hold)
  · cases hnew

/-- **A packet leaves no orphan** if and only if it is not one whose VNIC is created before a
call for its IP fails. -/
theorem noOrphan_processLearnPkt_iff (hagrees : db.Agrees) (hdb : db.NoOrphan) :
    (processLearnPkt subnets fails pkt db).2.NoOrphan ↔ ¬ LeavesVnic subnets fails pkt db := by
  obtain ⟨hsound, -, ⟨hnot, o, hchanges⟩ | ⟨hleaves, id, hid, hchanges⟩⟩ :=
    @pktOutcome subnets fails pkt db hagrees
  · exact iff_of_true (hchanges.noOrphan hdb hsound.agrees) hnot
  · exact iff_of_false (hchanges.orphan hdb hid) (not_not.mpr hleaves)

theorem Db.NoOrphan.init : Db.init.NoOrphan where
  vnic _ h := nomatch h
  mapping _ := Iff.rfl
  objId id := by simp [Db.init, Db.Held]

end Orphans

/-- `pds_local_mapping_create` fails. -/
def mappingFails : ObjCall → Bool
  | .localMappingCreate _ => true
  | _ => false

/-- A new host whose VNIC is not created leaves nothing. -/
theorem noOrphan_vnicCreateFails :
    (processLearnPkt oneSubnet (fun c => c = .vnicCreate 3) pktOfHost Db.init).2.NoOrphan := by
  refine (noOrphan_processLearnPkt_iff Db.Agrees.init Db.NoOrphan.init).mpr ?_
  rintro ⟨macType, ipType, hextract, -, hcreated, -⟩
  cases (show some (LearnType.newLocal, LearnType.newLocal) = some (macType, ipType) from hextract)
  revert hcreated
  decide

/-- **A VNIC without a MAC**: the local mapping of a new host is not created. -/
theorem orphan_newHost : Db.init.Agrees ∧ Db.init.NoOrphan ∧
    ¬ (processLearnPkt oneSubnet mappingFails pktOfHost Db.init).2.NoOrphan := by
  refine ⟨Db.Agrees.init, Db.NoOrphan.init, fun h => ?_⟩
  obtain ⟨k, e, hk, -⟩ := h.vnic 3 (by decide)
  cases (show none = some e from hk)

end NicSw.Learn
