/-
The messages that the API engine (`apollo/framework/api_engine.cc`) prepares for
its IPC peers while it processes a batch.

A table of subscriptions says which peers want to hear of an object, and whether
as a notification or as a request that they answer.  The engine first counts the
messages of each peer (`count_api_msg_`), then allocates room for them
(`allocate_api_msgs_`) and last fills them in (`populate_api_msg_`).  The three
steps walk the dirty object list at different times: container objects that are
promoted to the list in between are filled in without having been counted.

A failed `SDK_ASSERT` is `none`.
-/
import Mathlib.Data.List.Basic
import Mathlib.Data.List.TakeWhile

namespace NicSw

open Function List

/-- `api_op_t`. -/
inductive ApiOp
  | none
  | create
  | delete
  | update
  | invalid
  deriving DecidableEq, Repr

/-! ### Subscriptions and messages -/

/-- `api_obj_ipc_peer_info_t`. -/
structure IpcPeer (E : Type*) where
  ipcId : E
  ntfn : Bool

/-- `api_obj_ipc_peer_map_t`. -/
abbrev IpcPeerMap (O E : Type*) := O → Option (List (IpcPeer E))

/-- `ipc_peer_api_msg_info_t`: for each of the two kinds of messages, their
number and the messages filled in so far, once there is room for them. -/
structure MsgInfo (M : Type*) where
  num : Bool → Nat
  msgs : Bool → Option (List M)

/-- `pds_msg_map_t`: the peers with an entry, and the entries. -/
structure MsgMap (E M : Type*) where
  peers : List E
  info : E → MsgInfo M

/-- An object of the dirty list: its id, its de-duplicated operation, the message
that `populate_msg` makes of it, and whether its callbacks in the first phase
succeed. -/
structure DirtyObj (O M : Type*) where
  objId : O
  op : ApiOp
  msg : M
  depsOk : Bool
  rsvOk : Bool

/-- A batch, as far as the commit protocol can tell: what its stages make of it. -/
structure ApiBatch (O M : Type*) where
  preProcessOk : Bool
  dol : List (DirtyObj O M)
  allocOk : Bool
  promoteOk : Bool
  promoted : List (DirtyObj O M)
  phase2Ok : Bool

variable {O E M : Type*} [DecidableEq E]

namespace MsgMap

/-- The map of a cleared batch context. -/
def empty : MsgMap E M where
  peers := []
  info := fun _ => ⟨fun _ => 0, fun _ => none⟩

/-- One round of the loop in `count_api_msg_`. -/
def count (m : MsgMap E M) (p : IpcPeer E) : MsgMap E M :=
  if p.ipcId ∈ m.peers then
    { m with
      info := update m.info p.ipcId
        { m.info p.ipcId with
          num := update (m.info p.ipcId).num p.ntfn ((m.info p.ipcId).num p.ntfn + 1) } }
  else
    { peers := m.peers ++ [p.ipcId]
      info := update m.info p.ipcId ⟨update (fun _ => 0) p.ntfn 1, fun _ => none⟩ }

/-- One round of the loop in `populate_api_msg_`.  There must be room left. -/
def add (m : MsgMap E M) (p : IpcPeer E) (msg : M) : Option (MsgMap E M) :=
  match (m.info p.ipcId).msgs p.ntfn with
  | some l =>
    if l.length < (m.info p.ipcId).num p.ntfn then
      some { m with
        info := update m.info p.ipcId
          { m.info p.ipcId with
            msgs := update (m.info p.ipcId).msgs p.ntfn (some (l ++ [msg])) } }
    else none
  | none => none

end MsgMap

variable (S : IpcPeerMap O E)

/-- `count_api_msg_`. -/
def countApiMsg (m : MsgMap E M) (o : O) : MsgMap E M :=
  match S o with
  | some peers => peers.foldl MsgMap.count m
  | none => m

/-- `allocate_api_msgs_`, when there is memory for all messages. -/
def allocateApiMsgs (m : MsgMap E M) : MsgMap E M :=
  { m with
    info := fun e =>
      { m.info e with msgs := fun n => if (m.info e).num n ≠ 0 then some [] else none } }

/-- `populate_api_msg_`. -/
def populateApiMsg (m : MsgMap E M) (o : DirtyObj O M) : Option (MsgMap E M) :=
  match S o.objId with
  | some peers => peers.foldlM (fun m p => m.add p o.msg) m
  | none => some m

/-- The loop of `obj_dependency_computation_stage_`. -/
def objDependencyLoop : List (DirtyObj O M) → MsgMap E M → Bool × MsgMap E M
  | [], m => (true, m)
  | o :: dol, m =>
    if o.op = .none then objDependencyLoop dol m
    else if o.depsOk then objDependencyLoop dol (countApiMsg S m o.objId)
    else (false, m)

/-- `resource_reservation_stage_`. -/
def resourceReservationStage : List (DirtyObj O M) → MsgMap E M → Option (Bool × MsgMap E M)
  | [], m => some (true, m)
  | o :: dol, m =>
    if o.op = .none then resourceReservationStage dol m
    else if o.rsvOk then
      (populateApiMsg S m o).bind fun m => resourceReservationStage dol m
    else some (false, m)

/-- `batch_commit_phase1_`. -/
def batchCommitPhase1 (B : ApiBatch O M) : Option (Bool × MsgMap E M) :=
  if !B.preProcessOk then some (false, .empty)
  else
    match objDependencyLoop S B.dol .empty with
    | (false, m) => some (false, m)
    | (true, m) =>
      if !B.allocOk then some (false, m)
      else if !B.promoteOk then some (false, allocateApiMsgs m)
      else resourceReservationStage S (B.dol ++ B.promoted) (allocateApiMsgs m)

/-! ### What the messages are -/

/-- The messages of kind `n` that the objects of a list have for peer `e`. -/
def messages (l : List (DirtyObj O M)) (e : E) (n : Bool) : List M :=
  l.flatMap fun o =>
    if o.op = .none then []
    else ((S o.objId).getD []).filterMap fun p =>
      if p.ipcId = e ∧ p.ntfn = n then some o.msg else none

variable {peers : List E} {m : MsgMap E M}

namespace MsgMap

/-- The map in which `num` messages are counted. -/
def Counts (m : MsgMap E M) (num : E → Bool → Nat) : Prop :=
  (∀ e, (m.info e).num = num e) ∧ m.peers.Nodup ∧ ∀ e, e ∈ m.peers ↔ ∃ n, num e n ≠ 0

/-- The map with room for `num` messages of which `done` are filled in. -/
def filled (peers : List E) (num : E → Bool → Nat) (done : E → Bool → List M) : MsgMap E M where
  peers := peers
  info := fun e => ⟨num e, fun n => if num e n ≠ 0 then some (done e n) else none⟩

variable {num : E → Bool → Nat}

theorem Counts.count (h : m.Counts num) (p : IpcPeer E) :
    (m.count p).Counts
      (update num p.ipcId (update (num p.ipcId) p.ntfn (num p.ipcId p.ntfn + 1))) := by
  obtain ⟨hnum, hnodup, hmem⟩ := h
  have hmem' : ∀ e, e ∈ m.peers ∨ e = p.ipcId ↔ ∃ n, update num p.ipcId
      (update (num p.ipcId) p.ntfn (num p.ipcId p.ntfn + 1)) e n ≠ 0 := by
    intro e
    by_cases he : e = p.ipcId
    · subst he
      exact iff_of_true (.inr rfl) ⟨p.ntfn, by simp⟩
    · rw [update_of_ne he, ← hmem e]
      simp [he]
  unfold MsgMap.count
  by_cases hp : p.ipcId ∈ m.peers
  · rw [if_pos hp]
    refine ⟨fun e => ?_, hnodup, fun e => ?_⟩
    · by_cases he : e = p.ipcId
      · subst he
        simp [hnum]
      · simp [he, hnum]
    · rw [← hmem', or_iff_left_of_imp fun he => he ▸ hp]
  · rw [if_neg hp]
    -- the peer is new: nothing was counted for it
    have hzero : num p.ipcId = fun _ => 0 := by
      funext n
      by_contra hn
      exact hp ((hmem _).mpr ⟨n, hn⟩)
    refine ⟨fun e => ?_, ?_, fun e => ?_⟩
    · by_cases he : e = p.ipcId
      · subst he
        simp [hzero]
      · simp [he, hnum]
    · rw [nodup_append]
      refine ⟨hnodup, by simp, ?_⟩
      rintro a ha b hb rfl
      exact hp (mem_singleton.mp hb ▸ ha)
    · rw [mem_append, mem_singleton]
      exact hmem' e

theorem counts_foldl (ps : List (IpcPeer E)) (msg : M) (h : m.Counts num) :
    (ps.foldl MsgMap.count m).Counts fun e n =>
      num e n + (ps.filterMap fun p => if p.ipcId = e ∧ p.ntfn = n then some msg else none).length := by
  induction ps generalizing m num with
  | nil => exact h
  | cons p ps ih =>
    have hcons := ih (h.count p)
    refine cast (congrArg _ ?_) hcons
    funext e n
    by_cases he : e = p.ipcId
    · subst he
      by_cases hn : n = p.ntfn
      · subst hn
        simp
        omega
      · simp [hn, Ne.symm hn]
    · simp [he, Ne.symm he]

variable {done : E → Bool → List M}

/-- A message is added where there is room. -/
theorem add_filled (p : IpcPeer E) (msg : M) :
    (filled peers num done).add p msg =
      if (done p.ipcId p.ntfn).length < num p.ipcId p.ntfn then
        some (filled peers num (update done p.ipcId
          (update (done p.ipcId) p.ntfn (done p.ipcId p.ntfn ++ [msg]))))
      else none := by
  unfold add filled
  by_cases h0 : num p.ipcId p.ntfn = 0
  · simp [h0]
  simp only [ne_eq, h0, not_false_eq_true, if_true]
  split_ifs with hlt
  · simp only [Option.some.injEq, MsgMap.mk.injEq, true_and]
    funext e
    by_cases he : e = p.ipcId
    · subst he
      simp only [update_self, MsgInfo.mk.injEq, true_and]
      funext n
      by_cases hn : n = p.ntfn
      · subst hn
        simp [h0]
      · simp [hn]
    · simp [he]
  · rfl

theorem foldlM_add_filled (ps : List (IpcPeer E)) (msg : M)
    (hroom : ∀ e n, (done e n).length + (ps.filterMap fun p =>
      if p.ipcId = e ∧ p.ntfn = n then some msg else none).length ≤ num e n) :
    ps.foldlM (fun m p => m.add p msg) (filled peers num done) =
      some (filled peers num fun e n => done e n ++ ps.filterMap fun p =>
        if p.ipcId = e ∧ p.ntfn = n then some msg else none) := by
  induction ps generalizing done with
  | nil => simp
  | cons p ps ih =>
    have hlt : (done p.ipcId p.ntfn).length < num p.ipcId p.ntfn := by
      have := hroom p.ipcId p.ntfn
      simp at this
      omega
    rw [foldlM_cons, add_filled, if_pos hlt]
    have key : ∀ e n, update done p.ipcId
        (update (done p.ipcId) p.ntfn (done p.ipcId p.ntfn ++ [msg])) e n ++
          (ps.filterMap fun p => if p.ipcId = e ∧ p.ntfn = n then some msg else none) =
        done e n ++ ((p :: ps).filterMap fun p =>
          if p.ipcId = e ∧ p.ntfn = n then some msg else none) := by
      intro e n
      by_cases he : e = p.ipcId
      · subst he
        by_cases hn : n = p.ntfn
        · subst hn
          simp
        · simp [hn, Ne.symm hn]
      · simp [he, Ne.symm he]
    show List.foldlM _ _ _ = _
    rw [ih]
    · simp only [key]
    · intro e n
      rw [← length_append, key, length_append]
      exact hroom e n

end MsgMap

/-! ### The stages of the first phase -/

/-- The reservation gets past the object: its callback is not called, or succeeds. -/
def DirtyObj.reserves (o : DirtyObj O M) : Bool := o.op = .none || o.rsvOk

section Stages

variable {S} {m : MsgMap E M} {num : E → Bool → Nat} {done : E → Bool → List M} {peers : List E}
  {o : DirtyObj O M} {l l' : List (DirtyObj O M)} {B : ApiBatch O M} {n : Bool}

theorem messages_append {e : E} : messages S (l ++ l') e n = messages S l e n ++ messages S l' e n :=
  flatMap_append

theorem messages_cons {e : E} : messages S (o :: l) e n = messages S [o] e n ++ messages S l e n :=
  messages_append (l := [o])

theorem messages_of_none {e : E} (ho : o.op = .none) : messages S [o] e n = [] := by
  simp [messages, ho]

/-- Objects are counted with the messages they have. -/
theorem countApiMsg_counts (h : m.Counts num) (ho : o.op ≠ .none) :
    (countApiMsg S m o.objId).Counts fun e n => num e n + (messages S [o] e n).length := by
  unfold countApiMsg messages
  cases hS : S o.objId with
  | none => simpa [ho, hS] using h
  | some ps => simpa [ho, hS] using MsgMap.counts_foldl ps o.msg h

theorem objDependencyLoop_counts (h : m.Counts num)
    (hok : ∀ o ∈ l, o.op ≠ .none → o.depsOk = true) :
    (objDependencyLoop S l m).1 = true ∧
      (objDependencyLoop S l m).2.Counts fun e n => num e n + (messages S l e n).length := by
  induction l generalizing m num with
  | nil => exact ⟨rfl, h⟩
  | cons o l ih =>
    have hrest : ∀ o ∈ l, o.op ≠ .none → o.depsOk = true :=
      fun o' ho' => hok o' (mem_cons_of_mem _ ho')
    unfold objDependencyLoop
    by_cases ho : o.op = .none
    · rw [if_pos ho]
      obtain ⟨h1, h2⟩ := ih h hrest
      refine ⟨h1, cast (congrArg _ ?_) h2⟩
      funext e n
      rw [messages_cons, messages_of_none ho, nil_append]
    · rw [if_neg ho, if_pos (hok o (mem_cons_self ..) ho)]
      obtain ⟨h1, h2⟩ := ih (countApiMsg_counts h ho) hrest
      refine ⟨h1, cast (congrArg _ ?_) h2⟩
      funext e n
      rw [messages_cons (l := l), length_append, Nat.add_assoc]

theorem objDependencyLoop_fails (hno : ∃ o ∈ l, o.op ≠ .none ∧ o.depsOk = false) :
    (objDependencyLoop S l m).1 = false := by
  induction l generalizing m with
  | nil =>
    obtain ⟨o, ho, -⟩ := hno
    cases ho
  | cons o l ih =>
    rw [objDependencyLoop]
    obtain ⟨ho, hd⟩ | hrest := (exists_mem_cons_iff ..).mp hno
    · rw [if_neg ho, hd]
      rfl
    · split_ifs
      · exact ih hrest
      · exact ih hrest
      · rfl

omit [DecidableEq E] in
theorem allocateApiMsgs_eq (h : m.Counts num) :
    allocateApiMsgs m = MsgMap.filled m.peers num fun _ _ => [] := by
  unfold allocateApiMsgs MsgMap.filled
  simp only [MsgMap.mk.injEq, true_and]
  funext e
  rw [h.1 e]

/-- An object whose messages were counted is filled in. -/
theorem populateApiMsg_filled (ho : o.op ≠ .none)
    (hroom : ∀ e n, (done e n).length + (messages S [o] e n).length ≤ num e n) :
    populateApiMsg S (MsgMap.filled peers num done) o =
      some (MsgMap.filled peers num fun e n => done e n ++ messages S [o] e n) := by
  unfold populateApiMsg
  cases hS : S o.objId with
  | none => simp [messages, hS]
  | some ps =>
    simp only [messages, flatMap_cons, flatMap_nil, append_nil, ho, if_false, hS,
      Option.getD_some] at hroom ⊢
    exact MsgMap.foldlM_add_filled ps o.msg hroom

theorem resourceReservationStage_filled
    (hroom : ∀ e n, (done e n).length + (messages S l e n).length ≤ num e n) :
    ∃ b m, resourceReservationStage S l (MsgMap.filled peers num done) = some (b, m) ∧
      (b = true ↔ ∀ o ∈ l, o.reserves = true) ∧
      (b = true → m = MsgMap.filled peers num fun e n => done e n ++ messages S l e n) := by
  induction l generalizing done with
  | nil =>
    refine ⟨true, _, rfl, by simp, fun _ => ?_⟩
    simp [messages]
  | cons o l ih =>
    unfold resourceReservationStage
    by_cases ho : o.op = .none
    · rw [if_pos ho]
      simp only [messages_cons, messages_of_none ho, nil_append] at hroom ⊢
      obtain ⟨b, m, heq, hb, hm⟩ := ih hroom
      refine ⟨b, m, heq, ?_, hm⟩
      simp [hb, DirtyObj.reserves, ho]
    · rw [if_neg ho]
      by_cases hr : o.rsvOk = true
      · simp only [messages_cons (l := l), length_append, ← Nat.add_assoc] at hroom
        have hroom1 : ∀ e n, (done e n).length + (messages S [o] e n).length ≤ num e n :=
          fun e n => (Nat.le_add_right ..).trans (hroom e n)
        have hroom2 : ∀ e n, (done e n ++ messages S [o] e n).length +
            (messages S l e n).length ≤ num e n := by
          simpa only [length_append] using hroom
        obtain ⟨b, m, heq, hb, hm⟩ := ih hroom2
        rw [if_pos hr, populateApiMsg_filled ho hroom1, Option.bind_some]
        refine ⟨b, m, heq, ?_, fun h => ?_⟩
        · simp [hb, DirtyObj.reserves, hr]
        · have hcons : (fun e n => done e n ++ messages S (o :: l) e n)
              = fun e n => (done e n ++ messages S [o] e n) ++ messages S l e n := by
            funext e n
            rw [messages_cons (l := l), append_assoc]
          rw [hm h, hcons]
      · rw [if_neg hr]
        refine ⟨false, _, rfl, ?_, fun h => absurd h Bool.false_ne_true⟩
        simp [DirtyObj.reserves, ho, hr]

theorem resourceReservationStage_append :
    resourceReservationStage S (l ++ l') m = (resourceReservationStage S l m).bind fun r =>
      if r.1 then resourceReservationStage S l' r.2 else some (false, r.2) := by
  induction l generalizing m with
  | nil => rfl
  | cons o l ih =>
    rw [cons_append, resourceReservationStage, resourceReservationStage]
    split_ifs with ho hr
    · exact ih
    · rw [Option.bind_assoc]
      simp only [ih]
    · rfl

/-- Where no room is left, an object that has a message trips the assert. -/
theorem resourceReservationStage_full (hfull : ∀ e n, (done e n).length = num e n)
    (hok : ∀ o ∈ l, o.reserves = true) (hmsg : ∃ e n, messages S l e n ≠ []) :
    resourceReservationStage S l (MsgMap.filled peers num done) = none := by
  induction l with
  | nil =>
    obtain ⟨e, n, h⟩ := hmsg
    exact absurd rfl h
  | cons o l ih =>
    obtain ⟨hres, hrest⟩ := forall_mem_cons.mp hok
    -- an object without messages is passed over
    have hskip : (∀ e n, messages S [o] e n = []) → ∃ e n, messages S l e n ≠ [] := by
      intro hnil
      obtain ⟨e, n, h⟩ := hmsg
      rw [messages_cons (l := l), hnil, nil_append] at h
      exact ⟨e, n, h⟩
    unfold resourceReservationStage
    by_cases ho : o.op = .none
    · rw [if_pos ho]
      exact ih hrest (hskip fun e n => messages_of_none ho)
    have hr : o.rsvOk = true := by simpa [DirtyObj.reserves, ho] using hres
    rw [if_neg ho, if_pos hr]
    rcases hS : (S o.objId).getD [] with - | ⟨p, ps⟩
    · have hnil : ∀ e n, messages S [o] e n = [] := by
        intro e n
        simp [messages, hS]
      have hpop : populateApiMsg S (MsgMap.filled peers num done) o
          = some (MsgMap.filled peers num done) := by
        have h : populateApiMsg S (MsgMap.filled peers num done) o = _ :=
          populateApiMsg_filled ho fun e n => by rw [hnil, hfull]; exact Nat.le_refl _
        simpa [hnil] using h
      rw [hpop, Option.bind_some]
      exact ih hrest (hskip hnil)
    · have hsome : S o.objId = some (p :: ps) := by
        cases h : S o.objId with
        | none => simp [h] at hS
        | some q => simpa [h] using hS
      have hpop : populateApiMsg S (MsgMap.filled peers num done) o = none := by
        unfold populateApiMsg
        rw [hsome]
        show List.foldlM _ _ _ = none
        rw [foldlM_cons, MsgMap.add_filled, if_neg (by rw [hfull]; exact Nat.lt_irrefl _)]
        rfl
      rw [hpop]
      rfl

end Stages

/-- The callbacks up to the reservation for the dirty objects succeed. -/
def ApiBatch.DolOk (B : ApiBatch O M) : Prop :=
  B.preProcessOk = true ∧ (∀ o ∈ B.dol, o.op ≠ .none → o.depsOk = true) ∧ B.allocOk = true ∧
    B.promoteOk = true ∧ ∀ o ∈ B.dol, o.reserves = true

instance (B : ApiBatch O M) : Decidable B.DolOk :=
  inferInstanceAs (Decidable (_ ∧ _))

/-- The callbacks of the first phase all succeed. -/
def ApiBatch.Phase1Ok (B : ApiBatch O M) : Prop :=
  B.DolOk ∧ ∀ o ∈ B.promoted, o.reserves = true

/-- The promoted objects that the reservation gets past. -/
def ApiBatch.reached (B : ApiBatch O M) : List (DirtyObj O M) :=
  if B.DolOk then B.promoted.takeWhile (·.reserves) else []

omit [DecidableEq E] in
theorem ApiBatch.Phase1Ok.reached {B : ApiBatch O M} (h : B.Phase1Ok) : B.reached = B.promoted := by
  rw [ApiBatch.reached, if_pos h.1, takeWhile_eq_self_iff]
  exact h.2

/-- The map that the first phase leaves. -/
def msgMap (B : ApiBatch O M) (peers : List E) : MsgMap E M :=
  .filled peers (fun e n => (messages S B.dol e n).length) (messages S B.dol)

section Phase1

variable {S} {B : ApiBatch O M}

/-- The messages counted before the first object is filled in. -/
theorem objDependencyLoop_dol (hdeps : ∀ o ∈ B.dol, o.op ≠ .none → o.depsOk = true) :
    ∃ m : MsgMap E M, objDependencyLoop S B.dol .empty = (true, m) ∧
      m.Counts fun e n => (messages S B.dol e n).length := by
  have h0 : (MsgMap.empty : MsgMap E M).Counts fun _ _ => 0 :=
    ⟨fun _ => rfl, List.Pairwise.nil, fun e => by simp [MsgMap.empty]⟩
  obtain ⟨h1, h2⟩ := objDependencyLoop_counts (S := S) h0 hdeps
  exact ⟨_, Prod.ext h1 rfl, by simpa using h2⟩

/-- Once the objects are counted, the first phase is left with the reservation. -/
theorem batchCommitPhase1_eq (hpre : B.preProcessOk = true) (halloc : B.allocOk = true)
    (hpromote : B.promoteOk = true) (hm : objDependencyLoop S B.dol .empty = (true, m)) :
    batchCommitPhase1 S B
      = resourceReservationStage S (B.dol ++ B.promoted) (allocateApiMsgs m) := by
  unfold batchCommitPhase1
  rw [hm, hpre, halloc, hpromote]
  rfl

/-- The reservation, once it gets to the promoted objects: there is no room left
for their messages. -/
theorem resourceReservationStage_dol (hdol : ∀ o ∈ B.dol, o.reserves = true) :
    resourceReservationStage S (B.dol ++ B.promoted)
        (.filled peers (fun e n => (messages S B.dol e n).length) fun _ _ => [])
      = resourceReservationStage S B.promoted (msgMap S B peers) := by
  have hroom : ∀ e n, ([] : List M).length + (messages S B.dol e n).length
      ≤ (messages S B.dol e n).length := fun e n => Nat.le_of_eq (Nat.zero_add _)
  obtain ⟨b, m, heq, hb, hm⟩ := resourceReservationStage_filled hroom
  obtain rfl : b = true := hb.mpr hdol
  rw [resourceReservationStage_append, heq, hm rfl]
  rfl

theorem resourceReservationStage_promoted
    (hquiet : ∀ e n, messages S (B.promoted.takeWhile (·.reserves)) e n = []) :
    resourceReservationStage S B.promoted (msgMap S B peers)
      = some (B.promoted.all (·.reserves), msgMap S B peers) := by
  have hroom : ∀ e n, (messages S B.dol e n).length +
      (messages S (B.promoted.takeWhile (·.reserves)) e n).length ≤ (messages S B.dol e n).length := by
    intro e n
    simp [hquiet]
  obtain ⟨b, m, heq, hb, hm⟩ := resourceReservationStage_filled hroom
  obtain rfl : b = true := hb.mpr fun o ho => mem_takeWhile_imp ho
  simp only [hquiet, append_nil] at hm
  have hsplit : resourceReservationStage S B.promoted (msgMap S B peers)
      = resourceReservationStage S (B.promoted.dropWhile (·.reserves)) (msgMap S B peers) := by
    conv_lhs => rw [← takeWhile_append_dropWhile (p := (·.reserves)) (l := B.promoted),
      resourceReservationStage_append]
    rw [msgMap, heq, hm trivial]
    rfl
  rw [hsplit]
  cases hrest : B.promoted.dropWhile (·.reserves) with
  | nil =>
    have hall := all_eq_true.mpr (dropWhile_eq_nil_iff.mp hrest)
    rw [hall]
    rfl
  | cons o l =>
    have ho : o.reserves = false := by
      have hhead := dropWhile_get_zero_not (fun o => o.reserves) B.promoted
        (by rw [hrest]; exact Nat.zero_lt_succ _)
      simpa [hrest] using hhead
    have hmem : o ∈ B.promoted :=
      (dropWhile_suffix _).subset (by rw [hrest]; exact mem_cons_self ..)
    have hall : B.promoted.all (·.reserves) = false := all_eq_false.mpr ⟨o, hmem, by simp [ho]⟩
    obtain ⟨hop, hr⟩ : o.op ≠ .none ∧ o.rsvOk = false := by
      simpa [DirtyObj.reserves] using ho
    rw [hall]
    simp [resourceReservationStage, hop, hr]

/-- Before the reservation the first phase fails as one of its callbacks does. -/
theorem batchCommitPhase1_fails (h : ¬ (B.preProcessOk = true ∧
      (∀ o ∈ B.dol, o.op ≠ .none → o.depsOk = true) ∧ B.allocOk = true ∧ B.promoteOk = true)) :
    ∃ m : MsgMap E M, batchCommitPhase1 S B = some (false, m) := by
  unfold batchCommitPhase1
  by_cases hpre : B.preProcessOk = true
  swap
  · exact ⟨.empty, by simp [hpre]⟩
  by_cases hdeps : ∀ o ∈ B.dol, o.op ≠ .none → o.depsOk = true
  · obtain ⟨m, hm, -⟩ := objDependencyLoop_dol (S := S) hdeps
    by_cases halloc : B.allocOk = true
    · exact ⟨allocateApiMsgs m, by simp_all⟩
    · exact ⟨m, by simp [hpre, hm, halloc]⟩
  · push Not at hdeps
    have hfail := objDependencyLoop_fails (S := S) (m := .empty) (by simpa using hdeps)
    rcases hl : (objDependencyLoop S B.dol .empty : Bool × MsgMap E M) with ⟨b, m⟩
    rw [hl] at hfail
    obtain rfl : b = false := hfail
    exact ⟨m, by simp [hpre]⟩

/-- **The first phase**, when the promoted objects it gets past have no messages:
it succeeds when its callbacks do, and every peer has the messages for it. -/
theorem batchCommitPhase1_of_quiet (hquiet : ∀ e n, messages S B.reached e n = []) :
    ∃ b m, batchCommitPhase1 S B = some (b, m) ∧ (b = true ↔ B.Phase1Ok) ∧
      (b = true → ∃ peers : List E, peers.Nodup ∧
        (∀ e, e ∈ peers ↔ ∃ n, messages S B.dol e n ≠ []) ∧ m = msgMap S B peers) := by
  by_cases hready : B.preProcessOk = true ∧
    (∀ o ∈ B.dol, o.op ≠ .none → o.depsOk = true) ∧ B.allocOk = true ∧ B.promoteOk = true
  swap
  · obtain ⟨m, hm⟩ := batchCommitPhase1_fails (S := S) hready
    exact ⟨false, m, hm, iff_of_false Bool.false_ne_true fun h => hready
      ⟨h.1.1, h.1.2.1, h.1.2.2.1, h.1.2.2.2.1⟩, by simp⟩
  obtain ⟨hpre, hdeps, halloc, hpromote⟩ := hready
  obtain ⟨m, hm, hcounts⟩ := objDependencyLoop_dol (S := S) hdeps
  rw [batchCommitPhase1_eq hpre halloc hpromote hm, allocateApiMsgs_eq hcounts]
  by_cases hdol : ∀ o ∈ B.dol, o.reserves = true
  · have hok : B.DolOk := ⟨hpre, hdeps, halloc, hpromote, hdol⟩
    rw [ApiBatch.reached, if_pos hok] at hquiet
    rw [resourceReservationStage_dol hdol, resourceReservationStage_promoted hquiet]
    refine ⟨_, _, rfl, ?_, fun _ => ⟨m.peers, hcounts.2.1, fun e => ?_, rfl⟩⟩
    · rw [all_eq_true, ApiBatch.Phase1Ok]
      exact ⟨fun h => ⟨hok, h⟩, fun h => h.2⟩
    · rw [hcounts.2.2]
      simp
  · have hroom : ∀ e n, ([] : List M).length + (messages S B.dol e n).length
        ≤ (messages S B.dol e n).length := fun e n => Nat.le_of_eq (Nat.zero_add _)
    obtain ⟨b, m', heq, hb, -⟩ := resourceReservationStage_filled hroom
    obtain rfl : b = false := by rwa [← Bool.not_eq_true, hb]
    refine ⟨false, m', ?_, ?_, by simp⟩
    · rw [resourceReservationStage_append, heq]
      rfl
    · simp [ApiBatch.Phase1Ok, ApiBatch.DolOk, hdol]

/-- A promoted object that has a message was not counted. -/
theorem batchCommitPhase1_of_uncounted (hmsg : ∃ e n, messages S B.reached e n ≠ []) :
    batchCommitPhase1 S B = none := by
  have hok : B.DolOk := by
    by_contra hno
    obtain ⟨e, n, h⟩ := hmsg
    rw [ApiBatch.reached, if_neg hno] at h
    exact h rfl
  rw [ApiBatch.reached, if_pos hok] at hmsg
  obtain ⟨hpre, hdeps, halloc, hpromote, hdol⟩ := hok
  obtain ⟨m, hm, hcounts⟩ := objDependencyLoop_dol (S := S) hdeps
  rw [batchCommitPhase1_eq hpre halloc hpromote hm, allocateApiMsgs_eq hcounts,
    resourceReservationStage_dol hdol,
    ← takeWhile_append_dropWhile (p := (·.reserves)) (l := B.promoted),
    resourceReservationStage_append, msgMap,
    resourceReservationStage_full (fun e n => rfl) (fun o ho => mem_takeWhile_imp ho) hmsg]
  rfl

end Phase1

end NicSw
