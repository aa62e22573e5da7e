/-
How the API engine commits a batch together with its IPC peers
(`batch_commit`, `send_req_rsp_msgs_`, `process_ipc_async_result_`).

After the first phase the engine walks the peers that have messages, in the
order of an unordered map, and sends each its requests.  It goes on to the next
peer from the callback that brings the answer.  When the walk is over it
programs and activates the batch (the second phase).

The walk does not expect peers that have notifications only.  If the first peer
is one, the second phase is run at once; if a later one is, the walk ends there
and the batch is never answered.  `CommitMeets` excludes such batches.
-/
import NicSw.Api.Msg
import NicSw.Lib.Run

namespace NicSw

open List

variable {O E M : Type*}

/-! ### The protocol -/

/-- What the engine does, and what it hears, while it commits a batch. -/
inductive CommitEvent (E M : Type*)
  | send (e : E) (msgs : List M)
  | answer (e : E) (ok : Bool)
  | phase2
  | abort
  | respond (ok : Bool)

/-- The response to the client. -/
def CommitEvent.isRespond : CommitEvent E M → Bool
  | .respond _ => true
  | _ => false

@[simp] theorem isRespond_send (e : E) (msgs : List M) :
    (CommitEvent.send e msgs).isRespond = false := rfl

@[simp] theorem isRespond_answer (e : E) (ok : Bool) :
    (CommitEvent.answer e ok : CommitEvent E M).isRespond = false := rfl

@[simp] theorem isRespond_phase2 : (CommitEvent.phase2 : CommitEvent E M).isRespond = false := rfl

@[simp] theorem isRespond_abort : (CommitEvent.abort : CommitEvent E M).isRespond = false := rfl

@[simp] theorem isRespond_respond (ok : Bool) :
    (CommitEvent.respond ok : CommitEvent E M).isRespond = true := rfl

/-- The part of `batch_ctxt_` that the protocol uses: the peers from `msg_map_it`
on, the peer whose answer is outstanding, and what has happened. -/
structure BatchCommit (E M : Type*) where
  it : List E
  pending : Option E
  log : List (CommitEvent E M)

/-- `send_req_rsp_msgs_`; `true` is `SDK_RET_OK`, `false` is
`SDK_RET_IN_PROGRESS`. -/
def sendReqRspMsgs (ipcMock : Bool) (m : MsgMap E M) (e : E) (c : BatchCommit E M) :
    Bool × BatchCommit E M :=
  if ipcMock then (true, c)
  else
    match (m.info e).msgs false with
    | some msgs => (false, { c with pending := some e, log := c.log ++ [.send e msgs] })
    | none => (true, c)

/-- The second phase, the abort if it fails, and the response. -/
def batchCommitPhase2 (B : ApiBatch O M) (c : BatchCommit E M) : BatchCommit E M :=
  { c with
    log := c.log ++ .phase2 :: (if B.phase2Ok then [.respond true] else [.abort, .respond false]) }

variable [DecidableEq E] (S : IpcPeerMap O E) (ipcMock : Bool) (order : List E → List E)
  (B : ApiBatch O M)

omit [DecidableEq E] in
/-- The part of `batch_commit` after the first phase, with the peers in the order
of the map. -/
def batchCommitSend (m : MsgMap E M) : List E → BatchCommit E M
  | [] => batchCommitPhase2 B ⟨[], none, []⟩
  | e :: it =>
    match sendReqRspMsgs ipcMock m e ⟨e :: it, none, []⟩ with
    | (false, c) => c
    | (true, c) => batchCommitPhase2 B c

/-- `batch_commit`, with the response that `api_thread_ipc_batch_cb` sends if the
batch is not in progress.  `order` is the order of the unordered map. -/
def batchCommit : Option (MsgMap E M × BatchCommit E M) :=
  (batchCommitPhase1 S B).map fun (ok, m) =>
    (m, if ok then batchCommitSend ipcMock B m (order m.peers)
      else ⟨[], none, [.abort, .respond false]⟩)

/-- `process_ipc_async_result_`. -/
def processIpcAsyncResult (m : MsgMap E M) (c : BatchCommit E M) (e : E) (ok : Bool) :
    BatchCommit E M :=
  let c : BatchCommit E M := { c with pending := none, log := c.log ++ [.answer e ok] }
  if !ok then { c with log := c.log ++ [.abort, .respond false] }
  else
    match c.it.tail with
    | [] => batchCommitPhase2 B { c with it := [] }
    | e' :: it => (sendReqRspMsgs ipcMock m e' { c with it := e' :: it }).2

/-- The states that the answers of the peers lead to. -/
def Committing (m : MsgMap E M) (c0 : BatchCommit E M) : BatchCommit E M → Prop :=
  Reachable (· = c0) fun c c' =>
    ∃ e ok, c.pending = some e ∧ c' = processIpcAsyncResult ipcMock B m c e ok

/-! ### Two-phase commit -/

/-- **What is asked of a commit**: the second phase runs only after every peer
that has requests was sent them and agreed, never after one refused, and the
batch is answered once, when no answer is outstanding. -/
structure TwoPhase (c : BatchCommit E M) : Prop where
  agreed : ∀ l l', c.log = l ++ .phase2 :: l' → ∀ e, messages S (B.dol ++ B.promoted) e false ≠ [] →
    .send e (messages S (B.dol ++ B.promoted) e false) ∈ l ∧ .answer e true ∈ l
  refused : ∀ e, .answer e false ∈ c.log → .phase2 ∉ c.log
  answered : c.log.countP (·.isRespond) = if c.pending = none then 1 else 0

/-- The batch is committed in two phases, however the peers answer. -/
def CommitsInTwoPhases : Prop :=
  ∃ m c0, batchCommit S ipcMock order B = some (m, c0) ∧
    ∀ c, Committing ipcMock B m c0 c → TwoPhase S B c

/-- **The batches that the engine handles**: the promoted objects that it gets past
have no messages, and if the first phase succeeds, either no peer has requests, or
every peer that has messages has requests. -/
def CommitMeets : Prop :=
  (∀ e n, messages S B.reached e n = []) ∧
    (B.Phase1Ok → (∀ e, messages S B.dol e false = []) ∨
      (ipcMock = false ∧ ∀ e, messages S B.dol e true ≠ [] → messages S B.dol e false ≠ []))

/-! ### The walk over the peers -/

variable {l peers : List E} {e : E}

section Walk

variable {S ipcMock order B} {m : MsgMap E M} {c c0 : BatchCommit E M}

/-- The walk over peers that all agree. -/
def asks (msgs : E → List M) (l : List E) : List (CommitEvent E M) :=
  l.flatMap fun e => [.send e (msgs e), .answer e true]

variable {msgs : E → List M}

omit [DecidableEq E] in
theorem asks_concat : asks msgs (l ++ [e]) = asks msgs l ++ [.send e (msgs e)] ++ [.answer e true] := by
  simp [asks]

omit [DecidableEq E] in
theorem countP_asks : (asks msgs l).countP (·.isRespond) = 0 := by
  rw [countP_eq_zero]
  intro a ha
  obtain ⟨e, -, he⟩ := mem_flatMap.mp ha
  rcases mem_pair.mp he with rfl | rfl <;> simp

omit [DecidableEq E] in
theorem phase2_notMem_asks : .phase2 ∉ asks msgs l := by
  simp [asks]

omit [DecidableEq E] in
theorem refused_notMem_asks : .answer e false ∉ asks msgs l := by
  simp [asks]

/-- Where the walk is: at a peer that is asked, ended by a refusal, or done. -/
inductive Walked (msgs : E → List M) (l : List E) (B : ApiBatch O M) : BatchCommit E M → Prop
  | asking {pre it : List E} {e : E} (split : l = pre ++ e :: it) :
      Walked msgs l B ⟨e :: it, some e, asks msgs pre ++ [.send e (msgs e)]⟩
  | refused {pre it it' : List E} {e : E} (split : l = pre ++ e :: it) :
      Walked msgs l B ⟨it', none,
        asks msgs pre ++ [.send e (msgs e)] ++ [.answer e false] ++ [.abort, .respond false]⟩
  | done {it : List E} : Walked msgs l B (batchCommitPhase2 B ⟨it, none, asks msgs l⟩)

omit [DecidableEq E] in
/-- The log of the second phase holds no answer of a peer, and one response. -/
theorem phase2_log (B : ApiBatch O M) (c : BatchCommit E M) :
    ∃ l', (batchCommitPhase2 B c).log = c.log ++ .phase2 :: l' ∧
      (∀ e, .answer e false ∉ l') ∧ .phase2 ∉ l' ∧ l'.countP (·.isRespond) = 1 := by
  refine ⟨_, rfl, ?_⟩
  cases B.phase2Ok <;> simp

omit [DecidableEq E] in
/-- What comes before the only second phase of a log. -/
theorem eq_of_append_phase2 {l l' l1 l2 : List (CommitEvent E M)} (hl : .phase2 ∉ l)
    (hl' : .phase2 ∉ l') (heq : l ++ .phase2 :: l' = l1 ++ .phase2 :: l2) : l = l1 := by
  rcases append_eq_append_iff.mp heq with ⟨a, h1, h2⟩ | ⟨a, h1, h2⟩
  · rcases a with - | ⟨x, a⟩
    · simpa using h1.symm
    · refine absurd ?_ hl'
      rw [(List.cons.inj h2).2]
      simp
  · rcases a with - | ⟨x, a⟩
    · simpa using h1
    · refine absurd ?_ hl
      rw [h1, ← (List.cons.inj h2).1]
      simp

/-- A commit without a second phase is in two phases, if it is answered in time. -/
theorem TwoPhase.of_notMem (hno : .phase2 ∉ c.log)
    (hcount : c.log.countP (·.isRespond) = if c.pending = none then 1 else 0) : TwoPhase S B c := by
  refine ⟨fun l1 l2 heq => absurd ?_ hno, fun e _ => hno, hcount⟩
  rw [heq]
  simp

/-- A state of the walk is one of a two-phase commit, if all peers that have
requests are on the way. -/
theorem Walked.twoPhase (hmsgs : ∀ e, messages S (B.dol ++ B.promoted) e false ≠ [] →
      e ∈ l ∧ messages S (B.dol ++ B.promoted) e false = msgs e) (h : Walked msgs l B c) :
    TwoPhase S B c := by
  cases h with
  | asking => exact .of_notMem (by simp [phase2_notMem_asks]) (by simp [countP_asks])
  | refused => exact .of_notMem (by simp [phase2_notMem_asks]) (by simp [countP_asks])
  | @done it =>
    obtain ⟨l', hlog, hans, hph, hresp⟩ := phase2_log B ⟨it, none, asks msgs l⟩
    refine ⟨fun l1 l2 heq e he => ?_, fun e he => ?_, ?_⟩
    · obtain ⟨hmem, hm⟩ := hmsgs e he
      rw [hlog] at heq
      obtain rfl := eq_of_append_phase2 phase2_notMem_asks hph heq
      rw [hm]
      exact ⟨mem_flatMap.mpr ⟨e, hmem, by simp⟩, mem_flatMap.mpr ⟨e, hmem, by simp⟩⟩
    · rw [hlog] at he
      simp [refused_notMem_asks, hans] at he
    · rw [hlog]
      simp [countP_asks, batchCommitPhase2, hresp]

/-- A peer that has requests is sent them. -/
theorem sendReqRspMsgs_of_ne (he : messages S B.dol e false ≠ []) :
    sendReqRspMsgs false (msgMap S B peers) e c
      = (false, { c with pending := some e, log := c.log ++ [.send e (messages S B.dol e false)] }) := by
  simp [sendReqRspMsgs, msgMap, MsgMap.filled, he]

theorem sendReqRspMsgs_of_nil (he : ipcMock = true ∨ messages S B.dol e false = []) :
    sendReqRspMsgs ipcMock (msgMap S B peers) e c = (true, c) := by
  rcases he with rfl | he
  · rfl
  · simp [sendReqRspMsgs, msgMap, MsgMap.filled, he]

/-- **An answer takes the walk on**, where every peer on the way has requests. -/
theorem Walked.answer {ok : Bool} (hreq : ∀ e ∈ l, messages S B.dol e false ≠ [])
    (h : Walked (messages S B.dol · false) l B c) (hp : c.pending = some e) :
    Walked (messages S B.dol · false) l B
      (processIpcAsyncResult false B (msgMap S B peers) c e ok) := by
  cases h with
  | @asking pre it e' split =>
    obtain rfl : e' = e := Option.some.inj hp
    cases ok with
    | false => exact .refused split
    | true =>
      unfold processIpcAsyncResult
      cases it with
      | nil =>
        have hdone : Walked (messages S B.dol · false) l B
            (batchCommitPhase2 B ⟨[], none, asks (messages S B.dol · false) l⟩) := .done
        rw [split, asks_concat] at hdone
        subst split
        exact hdone
      | cons e'' it =>
        have hsplit : l = (pre ++ [e']) ++ e'' :: it := by
          rw [split, append_assoc, singleton_append]
        have hnext := hreq e'' (by rw [hsplit]; simp)
        have hask : Walked (messages S B.dol · false) l B _ := .asking hsplit
        rw [asks_concat] at hask
        simp only [Bool.not_true, Bool.false_eq_true, if_false, tail_cons,
          sendReqRspMsgs_of_ne hnext]
        exact hask
  | refused => cases hp
  | done => cases hp

end Walk

section Main

variable {S ipcMock order B}

omit [DecidableEq E] in
/-- A commit that waits for no answer is over. -/
theorem committing_eq {m : MsgMap E M} {c0 c : BatchCommit E M} (h : Committing ipcMock B m c0 c)
    (hp : c0.pending = none) : c = c0 := by
  refine Reachable.invariant (I := (· = c0)) h (fun _ h => h) ?_
  rintro _ _ rfl ⟨e, ok, he, -⟩
  rw [hp] at he
  cases he

/-- The walk begins: with the first peer, or, if there is none, it is over. -/
theorem Walked.start (hreq : ∀ e ∈ l, messages S B.dol e false ≠ []) :
    Walked (messages S B.dol · false) l B (batchCommitSend false B (msgMap S B peers) l) := by
  cases l with
  | nil => exact .done
  | cons e it =>
    unfold batchCommitSend
    simp only [sendReqRspMsgs_of_ne (hreq e (mem_cons_self ..))]
    exact .asking (nil_append (e :: it)).symm

/-- If the first peer has no requests the walk is over before it begins. -/
theorem batchCommitSend_of_nil
    (h : ∀ e it, l = e :: it → ipcMock = true ∨ messages S B.dol e false = []) :
    batchCommitSend ipcMock B (msgMap S B peers) l = batchCommitPhase2 B ⟨l, none, []⟩ := by
  cases l with
  | nil => rfl
  | cons e it =>
    unfold batchCommitSend
    simp only [sendReqRspMsgs_of_nil (h e it rfl)]

/-- What `batch_commit` does when the promoted objects have no messages. -/
theorem batchCommit_of_quiet (hquiet : ∀ e n, messages S B.reached e n = []) :
    (¬ B.Phase1Ok ∧ ∃ m, batchCommit S ipcMock order B
        = some (m, ⟨[], none, [.abort, .respond false]⟩)) ∨
      (B.Phase1Ok ∧ ∃ peers, (∀ e, e ∈ peers ↔ ∃ n, messages S B.dol e n ≠ []) ∧
        batchCommit S ipcMock order B = some (msgMap S B peers,
          batchCommitSend ipcMock B (msgMap S B peers) (order peers))) := by
  obtain ⟨b, m, hphase, hb, hm⟩ := batchCommitPhase1_of_quiet hquiet
  unfold batchCommit
  rw [hphase, ← hb]
  cases b with
  | false => exact .inl ⟨Bool.false_ne_true, m, rfl⟩
  | true =>
    obtain ⟨peers, -, hmem, rfl⟩ := hm rfl
    exact .inr ⟨rfl, peers, hmem, rfl⟩

theorem commitsInTwoPhases_of_meets (hperm : ∀ l, (order l).Perm l)
    (hmeets : CommitMeets S ipcMock B) : CommitsInTwoPhases S ipcMock order B := by
  obtain ⟨hquiet, hcase⟩ := hmeets
  rcases batchCommit_of_quiet hquiet with ⟨-, m, heq⟩ | ⟨hok, peers, hmem, heq⟩
  · refine ⟨_, _, heq, fun c hc => ?_⟩
    rw [committing_eq hc rfl]
    exact .of_notMem (by simp) (by simp)
  have hall : ∀ e, messages S (B.dol ++ B.promoted) e false = messages S B.dol e false := by
    intro e
    rw [messages_append, ← hok.reached, hquiet, append_nil]
  refine ⟨_, _, heq, fun c hc => ?_⟩
  rcases hcase hok with hnone | ⟨rfl, hsome⟩
  · -- nobody is asked
    have hwalk : Walked (messages S B.dol · false) [] B
        (batchCommitPhase2 B ⟨order peers, none, []⟩) := .done
    rw [batchCommitSend_of_nil fun e _ _ => .inr (hnone e)] at hc
    rw [committing_eq hc rfl]
    refine hwalk.twoPhase fun e he => ?_
    rw [hall] at he
    exact absurd (hnone e) he
  · have hmem_order : ∀ e, e ∈ order peers ↔ messages S B.dol e false ≠ [] := by
      intro e
      rw [(hperm peers).mem_iff, hmem]
      refine ⟨?_, fun h => ⟨false, h⟩⟩
      rintro ⟨n, hn⟩
      cases n with
      | false => exact hn
      | true => exact hsome e hn
    have hreq : ∀ e ∈ order peers, messages S B.dol e false ≠ [] := fun e he => (hmem_order e).mp he
    have hwalk : Walked (messages S B.dol · false) (order peers) B c := by
      refine Reachable.invariant hc (fun _ h => h ▸ Walked.start hreq) ?_
      rintro c _ hw ⟨e, ok, hp, rfl⟩
      exact hw.answer hreq hp
    refine hwalk.twoPhase fun e he => ?_
    rw [hall] at he ⊢
    exact ⟨(hmem_order e).mpr he, rfl⟩

/-- The peers up to one without requests are asked one after the other, and when
all have agreed the walk ends there, without a response. -/
theorem committing_of_silent {rest : List E} {c0 : BatchCommit E M} (q : List E) {p : List E}
    {y : E} (hq : ∀ e ∈ y :: q, messages S B.dol e false ≠ []) (he : messages S B.dol e false = [])
    (hc : Committing false B (msgMap S B peers) c0 ⟨y :: q ++ e :: rest, some y,
      asks (messages S B.dol · false) p ++ [.send y (messages S B.dol y false)]⟩) :
    Committing false B (msgMap S B peers) c0
      ⟨e :: rest, none, asks (messages S B.dol · false) (p ++ y :: q)⟩ := by
  induction q generalizing p y with
  | nil =>
    have hstep := Reachable.step hc ⟨y, true, rfl, rfl⟩
    simp only [processIpcAsyncResult, Bool.not_true, Bool.false_eq_true, if_false,
      cons_append, nil_append, tail_cons, ← asks_concat,
      sendReqRspMsgs_of_nil (.inr he)] at hstep
    exact hstep
  | cons z q ih =>
    have hstep := Reachable.step hc ⟨y, true, rfl, rfl⟩
    have hz := hq z (by simp)
    simp only [processIpcAsyncResult, Bool.not_true, Bool.false_eq_true, if_false,
      cons_append, tail_cons, ← asks_concat, sendReqRspMsgs_of_ne hz] at hstep
    have hfin := ih (fun e he => hq e (mem_cons_of_mem _ he)) hstep
    rwa [append_assoc, singleton_append] at hfin

theorem meets_of_commitsInTwoPhases (hperm : ∀ l, (order l).Perm l)
    (h : CommitsInTwoPhases S ipcMock order B) : CommitMeets S ipcMock B := by
  obtain ⟨m, c0, hcommit, htwo⟩ := h
  have hquiet : ∀ e n, messages S B.reached e n = [] := by
    by_contra hno
    push Not at hno
    unfold batchCommit at hcommit
    rw [batchCommitPhase1_of_uncounted hno] at hcommit
    cases hcommit
  refine ⟨hquiet, fun hok => ?_⟩
  have hall : ∀ e, messages S (B.dol ++ B.promoted) e false = messages S B.dol e false := by
    intro e
    rw [messages_append, ← hok.reached, hquiet, append_nil]
  rcases batchCommit_of_quiet hquiet with ⟨hno, -⟩ | ⟨-, peers, hmem, heq⟩
  · exact absurd hok hno
  rw [heq] at hcommit
  cases hcommit
  by_contra hcond
  push Not at hcond
  obtain ⟨⟨r, hr⟩, hsilent⟩ := hcond
  -- the second phase may not be run before `r` is asked
  have hnot : batchCommitSend ipcMock B (msgMap S B peers) (order peers)
      ≠ batchCommitPhase2 B ⟨order peers, none, []⟩ := by
    intro hsend
    have h2 := htwo _ (.start rfl)
    rw [hsend] at h2
    have := (h2.agreed [] _ rfl r (by rwa [hall])).1
    simp at this
  cases ipcMock with
  | true => exact hnot (batchCommitSend_of_nil fun _ _ _ => .inl rfl)
  | false =>
    obtain ⟨e, he, hnil⟩ := hsilent rfl
    have he_mem : e ∈ order peers := (hperm peers).mem_iff.mpr ((hmem e).mpr ⟨true, he⟩)
    -- the first peer without requests
    have hfind : ((order peers).find? fun e => (messages S B.dol e false).isEmpty).isSome = true :=
      find?_isSome.mpr ⟨e, he_mem, by rw [hnil]; rfl⟩
    obtain ⟨f, hf⟩ := Option.isSome_iff_exists.mp hfind
    obtain ⟨hf_nil, pre, rest, hsplit, hpre⟩ := find?_eq_some_iff_append.mp hf
    have hf_nil : messages S B.dol f false = [] := by simpa using hf_nil
    have hpre : ∀ e ∈ pre, messages S B.dol e false ≠ [] := by simpa using hpre
    cases pre with
    | nil =>
      refine hnot (batchCommitSend_of_nil fun e it heq => .inr ?_)
      rw [hsplit] at heq
      rw [← (List.cons.inj heq).1]
      exact hf_nil
    | cons x pre =>
      have hstart : batchCommitSend false B (msgMap S B peers) (x :: pre ++ f :: rest)
          = ⟨x :: pre ++ f :: rest, some x, [.send x (messages S B.dol x false)]⟩ := by
        show (match sendReqRspMsgs false (msgMap S B peers) x _ with
          | (false, c) => c | (true, c) => batchCommitPhase2 B c) = _
        rw [sendReqRspMsgs_of_ne (hpre x (mem_cons_self ..))]
        rfl
      have hstuck := (htwo _ (committing_of_silent pre (p := []) hpre hf_nil
        (.start (by rw [hsplit, hstart]; rfl)))).answered
      simp [countP_asks] at hstuck

/-- **Two-phase commit with the IPC peers.**  A batch is committed in two phases,
whatever the peers answer and in whatever order the map has them, exactly if it
meets the condition. -/
theorem commitsInTwoPhases_iff (hperm : ∀ l, (order l).Perm l) :
    CommitsInTwoPhases S ipcMock order B ↔ CommitMeets S ipcMock B :=
  ⟨meets_of_commitsInTwoPhases hperm, commitsInTwoPhases_of_meets hperm⟩

end Main

/-! ### Tables of subscriptions -/

/-- Object 0 is announced to peer 0 as a notification, object 1 to peer 1 as a request, and
object 2 to both as a request. -/
def mixedPeers : IpcPeerMap Nat Nat
  | 0 => some [⟨0, true⟩]
  | 1 => some [⟨1, false⟩]
  | 2 => some [⟨0, false⟩, ⟨1, false⟩]
  | _ => none

/-- Objects 0 and 1 are created. -/
def createBoth : ApiBatch Nat Nat where
  preProcessOk := true
  dol := [⟨0, .create, 0, true, true⟩, ⟨1, .create, 1, true, true⟩]
  allocOk := true
  promoteOk := true
  promoted := []
  phase2Ok := true

/-- Objects 1 and 2 are created. -/
def createAsked : ApiBatch Nat Nat :=
  { createBoth with dol := [⟨1, .create, 1, true, true⟩, ⟨2, .create, 2, true, true⟩] }

theorem commitsInTwoPhases_createAsked :
    CommitMeets mixedPeers false createAsked ∧ CommitsInTwoPhases mixedPeers false id createAsked := by
  have hmeets : CommitMeets mixedPeers false createAsked := by
    refine ⟨fun _ _ => rfl, fun _ => .inr ⟨rfl, fun e he => ?_⟩⟩
    simp [messages, createAsked, mixedPeers] at he
  exact ⟨hmeets, (commitsInTwoPhases_iff List.Perm.refl).2 hmeets⟩

/-- The second phase is run without asking peer 1. -/
theorem not_commitsInTwoPhases_createBoth : ¬ CommitsInTwoPhases mixedPeers false id createBoth := by
  rintro ⟨m, c, hcommit, htwo⟩
  have hlog : c.log = [.phase2, .respond true] := by
    have h : (batchCommit mixedPeers false id createBoth).map (·.2.log)
        = some [.phase2, .respond true] := rfl
    rw [hcommit] at h
    exact Option.some.inj h
  have hasked := ((htwo c (.start rfl)).agreed [] _ hlog 1 (by decide)).1
  cases hasked

end NicSw
