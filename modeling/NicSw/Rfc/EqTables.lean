/-
Equivalence tables (`rfc_compute_eq_class_tables`): the cross product of two class tables.

For each pair of classes the bitmaps are intersected, and the entry of the pair is the class of
the intersection (phases 1 and 2), or its result (phase 3).  Entries are packed into cache
lines by a buffer of one line, so the order matters in which the pairs are visited: a line that
is left and visited again loses its first entries.

The class ids of most tables are in order.  Those of tags are not, and where tags are the
second table, a line is visited again (`programmed_iff`).
-/
import NicSw.Lib.LineBuffer
import NicSw.Rfc.Addresses
import NicSw.Rfc.Result
import NicSw.Rfc.Tags

namespace NicSw.Rfc

open Option (map_some map some)

open Prod (mk fst snd)

open List LineBuffer

variable {w n : Nat}

/-- `mem`, the line that is packed, and its entries. -/
structure EqBuf where
  mem : Nat → Nat → Nat
  clAddr : Nat
  actionData : Nat → Nat

namespace EqBuf

/-- `rfc_p1_action_data_flush` and its like, to the current line. -/
def flush (s : EqBuf) : EqBuf :=
  { s with mem := Function.update s.mem s.clAddr s.actionData, actionData := fun _ => 0 }

/-- The line of the next entry. -/
def nextLine (s : EqBuf) (nextClAddr : Nat) : EqBuf :=
  if s.clAddr ≠ nextClAddr then
    { (if s.clAddr ≠ 0 then s.flush else s) with clAddr := nextClAddr }
  else s

/-- `entry_pack_cb`. -/
def pack (s : EqBuf) (entryNum entryVal : Nat) : EqBuf :=
  { s with actionData := Function.update s.actionData entryNum entryVal }

/-- The last line is flushed as well. -/
def finish (s : EqBuf) : Nat → Nat → Nat := if s.clAddr ≠ 0 then s.flush.mem else s.mem

end EqBuf

/-- What the entries of a table are: classes (phases 1 and 2), or results (phase 3). -/
inductive EqKind (w : Nat)
  | classes
  | results (π : Policy w)

namespace EqKind

variable (kind : EqKind w)

/-- Entries per cache line. -/
def perLine : EqKind w → Nat
  | .classes => 64
  | .results _ => 46

/-- Bits per entry. -/
def width : EqKind w → Nat
  | .classes => 8
  | .results _ => 11

/-- `compute_entry_val_cb`. -/
def entryVal (n : Nat) : EqKind w → RfcTable → RteBitmap → Option (Nat × RfcTable)
  | .classes, t, cbm => rfcComputeClassIdCb n t cbm
  | .results π, t, cbm => (rfcComputeP3Result π cbm).map fun result => (result, t)

/-- `rfc_compute_p1_next_cl_addr_entry_num` and its like. -/
def clAddr (base tableIdx : Nat) : Nat := base + (tableIdx / kind.perLine) <<< 6

def entryNum (tableIdx : Nat) : Nat := tableIdx % kind.perLine

end EqKind

/-- The index of a pair, where the second table has room for `max` classes. -/
def tableIdx (max : Nat) (p : CbmTe × CbmTe) : Nat := p.1.classId * max + p.2.classId

/-- The rules of a pair. -/
def meet (p : CbmTe × CbmTe) : RteBitmap := p.1.cbm.and p.2.cbm

/-- The pairs of two tables, in the order of the loops. -/
def pairs (t1 t2 : RfcTable) : List (CbmTe × CbmTe) := t1.cbmTable.product t2.cbmTable

/-- The loops of `rfc_compute_eq_class_tables`. -/
def eqLoop (n : Nat) (kind : EqKind w) (base max : Nat) :
    List (CbmTe × CbmTe) → RfcTable → EqBuf → Option (RfcTable × EqBuf)
  | [], t, s => some (t, s)
  | p :: ps, t, s => do
      let s := s.nextLine (kind.clAddr base (tableIdx max p))
      let (v, t) ← kind.entryVal n t (meet p)
      eqLoop n kind base max ps t (s.pack (kind.entryNum (tableIdx max p)) (v % 2 ^ kind.width))

/-- `rfc_compute_eq_class_tables`, from a memory, with an empty result table. -/
def rfcComputeEqClassTables (n : Nat) (kind : EqKind w) (base : Nat) (t1 t2 : RfcTable)
    (mem : Nat → Nat → Nat) : Option (RfcTable × (Nat → Nat → Nat)) :=
  (eqLoop n kind base t2.maxClasses (pairs t1 t2) ⟨256, []⟩ ⟨mem, 0, fun _ => 0⟩).map
    fun r => (r.1, r.2.finish)

/-! ### The buffer -/

namespace EqBuf

/-- Address 0 is that of no line. -/
def toLine (s : EqBuf) : LineBuffer Nat Nat Nat :=
  ⟨s.mem, if s.clAddr = 0 then none else some s.clAddr, s.actionData⟩

/-- Without a line, nothing is packed. -/
def Clean (s : EqBuf) : Prop := s.clAddr = 0 → s.actionData = fun _ => 0

theorem toLine_pack {s : EqBuf} (hs : s.Clean) {addr : Nat} (haddr : addr ≠ 0) (e v : Nat) :
    ((s.nextLine addr).pack e v).toLine = s.toLine.put 0 ⟨addr, e, v⟩ ∧
      ((s.nextLine addr).pack e v).Clean := by
  by_cases hline : s.clAddr = addr
  · subst hline
    have hnext : s.nextLine s.clAddr = s := if_neg (fun h => h rfl)
    rw [hnext]
    refine ⟨?_, fun h => absurd h haddr⟩
    rw [put, toLine, toLine, if_neg haddr, if_pos rfl]
    simp [pack, haddr]
  · refine ⟨?_, fun h => absurd ?_ haddr⟩
    · have hput : s.toLine.line ≠ some addr := by
        rw [toLine]
        split
        · simp
        · simpa using hline
      rw [LineBuffer.put, if_neg hput, nextLine, if_pos hline, LineBuffer.flush]
      by_cases hzero : s.clAddr = 0
      · simp [pack, toLine, hzero, haddr, hs hzero]
      · simp [pack, toLine, flush, hzero, haddr]
    · rw [nextLine, if_pos hline] at h
      exact h

theorem finish_eq (s : EqBuf) : s.finish = s.toLine.flush := by
  rw [finish, LineBuffer.flush, toLine]
  by_cases hzero : s.clAddr = 0
  · simp [hzero]
  · simp [hzero, flush]

end EqBuf

section Loop

variable {kind : EqKind w} {base max : Nat}

/-- The write of an entry. -/
def entryWrite (kind : EqKind w) (base max : Nat) (x : (CbmTe × CbmTe) × Nat) :
    LineWrite Nat Nat Nat :=
  ⟨kind.clAddr base (tableIdx max x.1), kind.entryNum (tableIdx max x.1), x.2 % 2 ^ kind.width⟩

/-- The loops compute values, and write them through a buffer. -/
theorem eqLoop_eq (hbase : 0 < base) (ps : List (CbmTe × CbmTe)) (t : RfcTable) {s : EqBuf}
    (hs : s.Clean) :
    (eqLoop n kind base max ps t s).map (fun r => (r.1, r.2.finish))
      = (runCb (fun t p => kind.entryVal n t (meet p)) mk ps t).map fun r =>
          (r.2, ((r.1.map (entryWrite kind base max)).foldl (put 0) s.toLine).flush) := by
  induction ps generalizing t s with
  | nil => rw [eqLoop, runCb, map_some, map_some, EqBuf.finish_eq]; rfl
  | cons p ps ih =>
    have haddr : kind.clAddr base (tableIdx max p) ≠ 0 :=
      Nat.ne_of_gt (Nat.lt_of_lt_of_le hbase (Nat.le_add_right _ _))
    rw [eqLoop, runCb]
    cases hv : kind.entryVal n t (meet p) with
    | none => rfl
    | some r =>
      obtain ⟨hput, hclean⟩ := EqBuf.toLine_pack hs haddr
        (kind.entryNum (tableIdx max p)) (r.1 % 2 ^ kind.width)
      refine (ih r.2 hclean).trans ?_
      rw [hput]
      show _ = map _ (runCb _ _ ps r.2 >>= _)
      cases runCb (fun t p => kind.entryVal n t (meet p)) mk ps r.2 <;> rfl

end Loop

/-! ### Entries that are kept -/

/-- The writes of a table, with the rules of each pair. -/
def pairWrites (kind : EqKind w) (base : Nat) (t1 t2 : RfcTable) :
    List (LineWrite Nat Nat RteBitmap) :=
  (pairs t1 t2).map fun p =>
    ⟨kind.clAddr base (tableIdx t2.maxClasses p), kind.entryNum (tableIdx t2.maxClasses p), meet p⟩

/-- The place of a write is written in the last visit to its line. -/
def Kept (ws : List (LineWrite Nat Nat RteBitmap)) (x : LineWrite Nat Nat RteBitmap) : Prop :=
  ∃ y ∈ lastVisit x.line ws, y.entry = x.entry

section Kept

variable {ws : List (LineWrite Nat Nat RteBitmap)} {val : RteBitmap → Nat} {width : Nat}
  {mem : Nat → Nat → Nat}

/-- A value that is truncated to its width. -/
def truncWrite (val : RteBitmap → Nat) (width : Nat) (x : LineWrite Nat Nat RteBitmap) :
    LineWrite Nat Nat Nat :=
  ⟨x.line, x.entry, val x.value % 2 ^ width⟩

theorem flush_lt {x : LineWrite Nat Nat RteBitmap} (hx : x ∈ ws) :
    (run 0 mem (ws.map (truncWrite val width))).flush x.line x.entry < 2 ^ width := by
  have hline : ∃ y ∈ ws.map (truncWrite val width), y.line = x.line :=
    ⟨truncWrite val width x, mem_map_of_mem hx, rfl⟩
  rw [flush_run hline, visitValue]
  cases hfind : (lastVisit x.line
      (ws.map (truncWrite val width))).find? fun y => y.entry = x.entry with
  | none => exact Nat.two_pow_pos width
  | some y =>
    obtain ⟨hy, -⟩ := mem_of_mem_lastVisit (mem_of_find?_eq_some hfind)
    obtain ⟨z, -, rfl⟩ := mem_map.mp hy
    exact Nat.mod_lt _ (Nat.two_pow_pos width)

/-- **Values can be read back** if and only if they fit, those at one place agree, and those
other than zero are kept. -/
theorem readBack_trunc_iff :
    (∀ x ∈ ws, (run 0 mem (ws.map (truncWrite val width))).flush x.line x.entry
        = val x.value)
      ↔ (∀ x ∈ ws, val x.value < 2 ^ width) ∧
        (∀ x ∈ ws, ∀ y ∈ ws, x.line = y.line → x.entry = y.entry → val x.value = val y.value) ∧
        ∀ x ∈ ws, val x.value ≠ 0 → Kept ws x := by
  have hfit : (∀ x ∈ ws, val x.value < 2 ^ width) →
      ((∀ x ∈ ws, (run 0 mem (ws.map (truncWrite val width))).flush x.line x.entry
          = val x.value)
        ↔ (∀ x ∈ ws, ∀ y ∈ ws, x.line = y.line → x.entry = y.entry → val x.value = val y.value) ∧
          ∀ x ∈ ws, val x.value ≠ 0 → Kept ws x) := by
    intro hlt
    have hval : ∀ x ∈ ws, (truncWrite val width x).value = val x.value := fun x hx =>
      Nat.mod_eq_of_lt (hlt x hx)
    have hread : (∀ x ∈ ws, (run 0 mem (ws.map (truncWrite val width))).flush x.line
          x.entry = val x.value)
        ↔ ∀ y ∈ ws.map (truncWrite val width),
          (run 0 mem (ws.map (truncWrite val width))).flush y.line y.entry = y.value := by
      rw [forall_mem_map]
      exact forall₂_congr fun x hx => by rw [hval x hx]; rfl
    rw [hread, readBack_iff, forall_mem_map, forall_mem_map]
    refine and_congr (forall₂_congr fun x hx => ?_) (forall₂_congr fun x hx => ?_)
    · rw [forall_mem_map]
      exact forall₂_congr fun y hy => by rw [hval x hx, hval y hy]; rfl
    · rw [hval x hx, lastVisit_map (g := truncWrite val width) fun _ => rfl]
      simp only [mem_map, exists_exists_and_eq_and]
      rfl
  constructor
  · intro h
    have hlt : ∀ x ∈ ws, val x.value < 2 ^ width := fun x hx => h x hx ▸ flush_lt hx
    exact ⟨hlt, (hfit hlt).mp h⟩
  · rintro ⟨hlt, h⟩
    exact (hfit hlt).mpr h

end Kept

/-! ### When a table is complete -/

/-- The entry of a pair in memory. -/
def entryAt (kind : EqKind w) (base max : Nat) (mem : Nat → Nat → Nat) (p : CbmTe × CbmTe) : Nat :=
  mem (kind.clAddr base (tableIdx max p)) (kind.entryNum (tableIdx max p))

/-- The memory holds, for every pair, the value that is computed for its rules. -/
def Programmed (n : Nat) (kind : EqKind w) (base : Nat) (t1 t2 : RfcTable)
    (mem : Nat → Nat → Nat) : Prop :=
  ∃ t mem', rfcComputeEqClassTables n kind base t1 t2 mem = some (t, mem') ∧
    ∀ p ∈ pairs t1 t2, (kind.entryVal n t (meet p)).map fst
      = some (entryAt kind base t2.maxClasses mem' p)

/-- What a table must be like: the values fit, those at one place agree, and those other than
zero are kept.  The class of the first pair is zero. -/
def EqCondition (kind : EqKind w) (ws : List (LineWrite Nat Nat RteBitmap)) : Prop :=
  match kind with
  | .classes =>
    (bitmapsOf LineWrite.value ws).card ≤ 2 ^ 8 ∧
      (∀ x ∈ ws, ∀ y ∈ ws, x.line = y.line → x.entry = y.entry → x.value = y.value) ∧
      ∀ x ∈ ws, ws.head?.map LineWrite.value ≠ some x.value → Kept ws x
  | .results π =>
    (∀ x ∈ ws, ∀ y ∈ ws, x.line = y.line → x.entry = y.entry →
        rfcComputeP3Result π x.value = rfcComputeP3Result π y.value) ∧
      ∀ x ∈ ws, rfcComputeP3Result π x.value ≠ some 0 → Kept ws x

section Complete

variable {kind : EqKind w} {base : Nat} {t1 t2 : RfcTable} {mem : Nat → Nat → Nat}

/-- A table whose values are given by a function of the rules. -/
theorem programmed_of_val (hbase : 0 < base) {val : RteBitmap → Nat} {t : RfcTable}
    (hrun : runCb (fun t p => kind.entryVal n t (meet p)) mk (pairs t1 t2) ⟨256, []⟩
      = some ((pairs t1 t2).map fun p => (p, val (meet p)), t))
    (hask : ∀ p ∈ pairs t1 t2, (kind.entryVal n t (meet p)).map fst = some (val (meet p))) :
    Programmed n kind base t1 t2 mem
      ↔ (∀ x ∈ pairWrites kind base t1 t2, val x.value < 2 ^ kind.width) ∧
        (∀ x ∈ pairWrites kind base t1 t2, ∀ y ∈ pairWrites kind base t1 t2, x.line = y.line →
          x.entry = y.entry → val x.value = val y.value) ∧
        ∀ x ∈ pairWrites kind base t1 t2, val x.value ≠ 0 →
          Kept (pairWrites kind base t1 t2) x := by
  have hclean : (⟨mem, 0, fun _ => 0⟩ : EqBuf).Clean := fun _ => rfl
  have hcompute : rfcComputeEqClassTables n kind base t1 t2 mem
      = some (t, (run 0 mem ((pairWrites kind base t1 t2).map
          (truncWrite val kind.width))).flush) := by
    rw [rfcComputeEqClassTables, eqLoop_eq hbase _ _ hclean, hrun, map_some,
      map_map, pairWrites, map_map]
    rfl
  rw [← readBack_trunc_iff, pairWrites, forall_mem_map]
  constructor
  · rintro ⟨t', mem', heq, hmem⟩ p hp
    rw [hcompute] at heq
    cases heq
    exact (some.inj ((hask p hp).symm.trans (hmem p hp))).symm
  · intro h
    refine ⟨t, _, hcompute, fun p hp => ?_⟩
    rw [hask p hp]
    exact congrArg some (h p hp).symm

/-- The values of phases 1 and 2 are the classes of the intersections. -/
theorem runCb_classes {t : RfcTable} {ys : List ((CbmTe × CbmTe) × Nat)} (hgood : t.Good)
    {ps : List (CbmTe × CbmTe)} (h : Assigned meet mk t ys ps) :
    ys = ps.map fun p => (p, t.classOf (meet p)) := by
  refine (List.forall₂_eq_eq_eq ▸ List.forall₂_map_right_iff.mpr (h.imp fun y p hy => ?_) :)
  obtain ⟨id, rfl, hof⟩ := hy
  rw [hgood.classOf_eq hof]

/-- Asking again gives the class that a bitmap has. -/
theorem rfcComputeClassIdCb_again {t : RfcTable} {cbm : RteBitmap} (h : t.Good)
    (hlen : cbm.length = n) (hcbm : cbm ∈ t.cbms) :
    (rfcComputeClassIdCb n t cbm).map fst = some (t.classOf cbm) := by
  have hin : insert cbm t.cbms = t.cbms := Finset.insert_eq_self.mpr hcbm
  rcases rfcComputeClassIdCb_spec h hlen with
    ⟨_, id, t', hcb, hgood, _, hof, hext, _⟩ | ⟨hlt, _⟩
  · rw [hcb, map_some, ← hgood.classOf_eq hof,
      hgood.classOf_eq (hext _ _ (h.cbmOf_classOf hcbm))]
  · rw [hin, h.card_cbms] at hlt
    exact absurd h.room (Nat.not_le_of_lt hlt)

/-- The first pair gets class 0. -/
theorem classOf_head {t : RfcTable} {p : CbmTe × CbmTe} {ps : List (CbmTe × CbmTe)}
    (hrun : runCb (fun t p => rfcComputeClassIdCb n t (meet p)) mk (p :: ps) ⟨256, []⟩
      = some ((p :: ps).map fun p => (p, t.classOf (meet p)), t)) : t.classOf (meet p) = 0 := by
  obtain ⟨v, t1, ys, hv, -, hys⟩ := runCb_cons_eq_some hrun
  cases hv
  exact congrArg snd (List.cons.inj hys).1

theorem bitmapsOf_pairWrites (kind : EqKind w) :
    bitmapsOf LineWrite.value (pairWrites kind base t1 t2) = bitmapsOf meet (pairs t1 t2) := by
  rw [bitmapsOf, bitmapsOf, pairWrites, map_map]
  rfl

theorem head_pairWrites (kind : EqKind w) :
    (pairWrites kind base t1 t2).head?.map LineWrite.value = (pairs t1 t2).head?.map meet := by
  rw [pairWrites, head?_map, Option.map_map]
  rfl

/-- The classes of a table fit if there are not too many. -/
theorem classOf_lt_iff {t : RfcTable} (hgood : t.Good) {ws : List (LineWrite Nat Nat RteBitmap)}
    (hcbms : t.cbms = bitmapsOf LineWrite.value ws) {m : Nat} :
    (∀ x ∈ ws, t.classOf x.value < m) ↔ t.numClasses ≤ m := by
  have hmem : ∀ b, b ∈ t.cbms ↔ ∃ x ∈ ws, x.value = b := by
    intro b
    rw [hcbms, bitmapsOf, mem_toFinset, mem_map]
  constructor
  · intro h
    by_contra hlt
    have hm : m < t.cbmTable.length := Nat.lt_of_not_le hlt
    have hte := getElem?_eq_getElem hm
    obtain ⟨x, hx, hval⟩ := (hmem _).mp (RfcTable.mem_cbms.mpr ⟨_, mem_of_getElem? hte, rfl⟩)
    have hclass := hgood.classOf_eq (hgood.cbmOf_iff.mpr ⟨_, hte, rfl⟩)
    exact absurd (h x hx) (by rw [hval, hclass]; exact lt_irrefl m)
  · intro hle x hx
    obtain ⟨te, hte, -⟩ :=
      hgood.cbmOf_iff.mp (hgood.cbmOf_classOf ((hmem x.value).mpr ⟨x, hx, rfl⟩))
    exact lt_of_lt_of_le (List.getElem?_eq_some_iff.mp hte).1 hle

/-- **Tables of classes.** -/
theorem programmed_classes_iff (hbase : 0 < base) (hlen1 : ∀ te ∈ t1.cbmTable, te.cbm.length = n)
    (hlen2 : ∀ te ∈ t2.cbmTable, te.cbm.length = n) :
    Programmed n (.classes : EqKind w) base t1 t2 mem
      ↔ EqCondition (.classes : EqKind w) (pairWrites (.classes : EqKind w) base t1 t2) := by
  have hlen : ∀ p ∈ pairs t1 t2, (meet p).length = n := by
    intro p hp
    obtain ⟨h1, h2⟩ := pair_mem_product.mp hp
    rw [meet, RteBitmap.length_and ((hlen2 p.2 h2).trans (hlen1 p.1 h1).symm), hlen1 p.1 h1]
  have hspec := @runCb_classId _ _ (pairs t1 t2) n meet mk _ (@good_empty 256) hlen
  have hempty : (⟨256, []⟩ : RfcTable).cbms = ∅ := rfl
  rw [hempty, Finset.empty_union] at hspec
  rw [EqCondition, bitmapsOf_pairWrites]
  rcases hspec with ⟨_, ys, t, hrun, hgood, hcbms, _, _, has⟩ | ⟨hlt, hrun⟩
  · obtain rfl := runCb_classes hgood has
    have hin : ∀ p ∈ pairs t1 t2, meet p ∈ t.cbms := fun p hp => by
      rw [hcbms]
      exact mem_toFinset.mpr (mem_map_of_mem hp)
    have hof : ∀ x ∈ pairWrites (.classes : EqKind w) base t1 t2,
        t.cbmOf (t.classOf x.value) = some x.value := by
      refine forall_mem_map.mpr fun p hp => ?_
      exact hgood.cbmOf_classOf (hin p hp)
    have hprog := @programmed_of_val w n .classes base t1 t2 mem hbase t.classOf t hrun
      fun p hp => rfcComputeClassIdCb_again hgood (hlen p hp) (hin p hp)
    rw [hprog]
    refine and_congr ?_ (and_congr ?_ ?_)
    · rw [← hcbms, hgood.card_cbms]
      exact classOf_lt_iff hgood (by rw [hcbms, bitmapsOf_pairWrites])
    · refine forall₂_congr fun x hx => forall₂_congr fun y hy => ?_
      refine imp_congr_right fun _ => imp_congr_right fun _ => ⟨fun h => ?_, fun h => by rw [h]⟩
      exact some.inj ((hof x hx).symm.trans ((congrArg t.cbmOf h).trans (hof y hy)))
    · refine forall₂_congr fun x hx => imp_congr_left (not_congr ?_)
      rw [head_pairWrites]
      cases hps : pairs t1 t2 with
      | nil =>
        rw [pairWrites, hps] at hx
        cases hx
      | cons p ps =>
        have hhead : t.classOf (meet p) = 0 := classOf_head (hps ▸ hrun)
        have hp := hgood.cbmOf_classOf (hin p (hps ▸ mem_cons_self))
        rw [head?_cons, map_some, ← hof x hx, ← hp, hhead]
        refine ⟨fun h => by rw [h], fun h => ?_⟩
        rw [← hgood.classOf_eq (h.symm.trans (hhead ▸ hp)), hhead]
  · -- too many classes
    refine iff_of_false ?_ fun h => absurd h.1 ?_
    · rintro ⟨t, mem', heq, -⟩
      have hvals : runCb (fun t p => (EqKind.classes : EqKind w).entryVal n t (meet p)) mk
          (pairs t1 t2) ⟨256, []⟩ = none := hrun
      rw [rfcComputeEqClassTables, eqLoop_eq hbase _ _ fun _ => rfl, hvals] at heq
      cases heq
    · exact Nat.not_le_of_lt (lt_trans (by decide) hlt)

/-- The values of phase 3 are the results of the intersections. -/
theorem runCb_results {π : Policy w} {ps : List (CbmTe × CbmTe)} (t : RfcTable)
    (h : ∀ p ∈ ps, ∃ v, rfcComputeP3Result π (meet p) = some v) :
    runCb (fun t p => (EqKind.results π).entryVal n t (meet p)) mk ps t
      = some (ps.map fun p => (p, (rfcComputeP3Result π (meet p)).getD 0), t) := by
  induction ps with
  | nil => rfl
  | cons p ps ih =>
    obtain ⟨⟨v, hv⟩, hps⟩ := forall_mem_cons.mp h
    have hcb : (EqKind.results π).entryVal n t (meet p) = some (v, t) := by
      rw [EqKind.entryVal, hv]
      rfl
    rw [runCb, hcb, map_cons, hv]
    show (runCb _ _ ps t >>= _) = _
    rw [ih hps]
    rfl

/-- **Tables of results.** -/
theorem programmed_results_iff {π : Policy w} (hbase : 0 < base)
    (hbits : ∀ p ∈ pairs t1 t2, ∀ i, (meet p).test i = true → i < π.rules.length) :
    Programmed n (.results π) base t1 t2 mem
      ↔ EqCondition (.results π) (pairWrites (.results π) base t1 t2) := by
  have hresult : ∀ p ∈ pairs t1 t2, ∃ v, rfcComputeP3Result π (meet p) = some v ∧ v < 2 ^ 11 :=
    fun p hp => exists_rfcComputeP3Result (hbits p hp)
  have hsome : ∀ x ∈ pairWrites (.results π) base t1 t2,
      ∃ v, rfcComputeP3Result π x.value = some v ∧ v < 2 ^ 11 :=
    forall_mem_map.mpr hresult
  have hrun := @runCb_results w n π (pairs t1 t2) ⟨256, []⟩ fun p hp =>
    ⟨_, (hresult p hp).choose_spec.1⟩
  have hprog := @programmed_of_val w n (.results π) base t1 t2 mem hbase
    (fun b => (rfcComputeP3Result π b).getD 0) ⟨256, []⟩ hrun (by
      intro p hp
      obtain ⟨v, hv, -⟩ := hresult p hp
      rw [EqKind.entryVal, hv]
      rfl)
  have hfit : ∀ x ∈ pairWrites (.results π) base t1 t2,
      (rfcComputeP3Result π x.value).getD 0 < 2 ^ (EqKind.results π).width := by
    intro x hx
    obtain ⟨v, hv, hlt⟩ := hsome x hx
    rw [hv]
    exact hlt
  rw [hprog, EqCondition, and_iff_right hfit]
  refine and_congr (forall₂_congr fun x hx => forall₂_congr fun y hy => ?_)
    (forall₂_congr fun x hx => ?_)
  · obtain ⟨u, hu, -⟩ := hsome x hx
    obtain ⟨v, hv, -⟩ := hsome y hy
    rw [hu, hv, some.injEq]
    rfl
  · obtain ⟨v, hv, -⟩ := hsome x hx
    rw [hv, ne_eq, ne_eq, some.injEq]
    rfl

/-- **Equivalence tables.**  After `rfc_compute_eq_class_tables` the memory holds the value of
every pair if and only if the values fit, those at one place agree, and those other than zero
are kept: written in the last visit to their cache line. -/
theorem programmed_iff (hbase : 0 < base) (hlen1 : ∀ te ∈ t1.cbmTable, te.cbm.length = n)
    (hlen2 : ∀ te ∈ t2.cbmTable, te.cbm.length = n)
    (hbits : ∀ π, kind = .results π → ∀ p ∈ pairs t1 t2, ∀ i, (meet p).test i = true →
      i < π.rules.length) :
    Programmed n kind base t1 t2 mem ↔ EqCondition kind (pairWrites kind base t1 t2) := by
  cases kind with
  | classes => exact programmed_classes_iff hbase hlen1 hlen2
  | results π => exact programmed_results_iff hbase (hbits π rfl)

end Complete

instance (ws : List (LineWrite Nat Nat RteBitmap)) (x : LineWrite Nat Nat RteBitmap) :
    Decidable (Kept ws x) :=
  inferInstanceAs (Decidable (∃ y ∈ lastVisit x.line ws, y.entry = x.entry))

/-- A policy for three destination tags. -/
def dtagPolicy : Policy 32 where
  maxRules := 15
  defaultAction := .deny
  rules := [10, 20, 30].map fun tag =>
    { ipProto := none, src := .none, dst := .tag tag, l4Match := itableUpdateL4Any,
      priority := 0, action := .allow }

/-- Classes 5, `id` and 6 for the tags. -/
def dtagClass (id : Nat) (tag : BitVec 32) : Option Nat :=
  if tag = 10 then some 5 else if tag = 20 then some id else if tag = 30 then some 6 else none

/-- A bitmap of 8 slabs. -/
def slabs (x : BitVec 64) : RteBitmap := x :: List.replicate 7 0

/-- The classes of the source addresses of the policy. -/
def dtagSip : RfcTable := ⟨256, [⟨0, slabs 7⟩, ⟨1, slabs 0⟩]⟩

/-- The classes of its destination tags. -/
def dtagTable (id : Nat) : RfcTable :=
  ⟨512, [⟨511, slabs 0⟩, ⟨5, slabs 1⟩, ⟨id, slabs 2⟩, ⟨6, slabs 4⟩]⟩

theorem programmed_oneLine :
    Programmed 8 (.classes : EqKind 32) 64 dtagSip (dtagTable 7) fun _ _ => 0 := by
  refine (programmed_iff (by decide) (by decide) (by decide) fun π h => ?_).mpr ?_
  · cases h
  · exact ⟨by decide, by decide, by decide⟩

/-- If the second tag has class 100, that of the first one is lost. -/
theorem not_programmed_twoLines :
    dtagPolicy.sipTree.map RfcTree.rfcTable = some dtagSip ∧
      (dtagPolicy.tagTree .dst (dtagClass 100)).map RfcTree.rfcTable = some (dtagTable 100) ∧
      ¬ Programmed 8 (.classes : EqKind 32) 64 dtagSip (dtagTable 100) fun _ _ => 0 := by
  refine ⟨by decide, by decide, ?_⟩
  rintro ⟨t, mem, hrun, hmem⟩
  have hread := hmem (⟨0, slabs 7⟩, ⟨5, slabs 1⟩) (by decide)
  have hlost : (rfcComputeEqClassTables 8 (.classes : EqKind 32) 64 dtagSip (dtagTable 100)
      fun _ _ => 0).map (fun r => ((rfcComputeClassIdCb 8 r.1
        (meet (⟨0, slabs 7⟩, ⟨5, slabs 1⟩))).map fst,
          entryAt (.classes : EqKind 32) 64 512 r.2 (⟨0, slabs 7⟩, ⟨5, slabs 1⟩)))
      = some (some 1, 0) := by decide
  rw [hrun] at hlost
  obtain ⟨hclass, hentry⟩ := mk.inj (some.inj hlost)
  exact absurd (hclass.symm.trans (hread.trans (congrArg some hentry))) (by decide)

end NicSw.Rfc
