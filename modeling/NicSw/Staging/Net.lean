/-
The last operation wins.

A run of staged operations is followed together with what the accepted ones make of the
cache, and with the last accepted operation of each key.  Each entry stands for the net
effect on its key.  It has the names of the last operation, except where a create revives
an entry that deletes an object of the cache: the names of the delete stay.
-/
import NicSw.Staging.Cases
import NicSw.Lib.Run

namespace NicSw.Staging

open Function

open NicSw.ApiCache (GoMap Key)

variable {α : Type} [RuntimeObject α]

/-! ### Runs -/

/-- An overlay in a run, with what is seen of each key, and its last accepted operation. -/
structure Trace (α : Type) where
  ov : Overlay α
  view : Key → Option α
  last : Key → Option (Overlay.Request α × Action α)

/-- A call is recorded if it was accepted. -/
def Trace.record (tr : Trace α) (req : Overlay.Request α) (a : Action α) (out : Outcome α) : Trace α :=
  match out.result with
  | .ok _ =>
    { ov := out.ov
      view := update tr.view req.key (a.effect (tr.ov.cache req.key))
      last := update tr.last req.key (some (req, a)) }
  | .error _ => { tr with ov := out.ov }

/-- The runs outside dry runs from an empty overlay whose calls are all allowed by `ok`. -/
def Followed (ok : Overlay α → Ctx → Overlay.Request α → Action α → Prop) : Trace α → Prop :=
  Reachable
    (fun tr => tr.ov.overlay = ∅ ∧ tr.view = tr.ov.cache ∧ tr.last = fun _ => none)
    fun tr tr' => ∃ ctx req a out, ctx.dryRun = none ∧ ctx.preCommitApply = false ∧
      ok tr.ov ctx req a ∧ tr.ov.stage ctx req a = some out ∧ tr' = tr.record req a out

/-- A create that revives a deleted entry has the names of the delete. -/
def Overlay.SameNames (ov : Overlay α) (req : Overlay.Request α) (a : Action α) : Prop :=
  ∀ obj e, a = .create obj → ov.entry req.key = some e → e.oper = .delete →
    (ov.cache req.key).isSome → e.serviceName = req.service ∧ e.methodName = req.method

/-- The condition on calls. -/
def Overlay.Meets (ov : Overlay α) (ctx : Ctx) (req : Overlay.Request α) (a : Action α) : Prop :=
  ov.Clean ctx req a ∧ ov.SameNames req a

/-- What the entry of a key says of what the cache has, what is seen, and the last operation. -/
def NetAt (base view : Option α) (last : Option (Overlay.Request α × Action α)) :
    Option (OverlayObj α) → Prop
  | none => view = base
  | some e => Stands base view e ∧ ∃ req a, last = some (req, a) ∧ Named req e

/-- What holds along runs. -/
def Net (tr : Trace α) : Prop :=
  ∀ k, NetAt (tr.ov.cache k) (tr.view k) (tr.last k) (tr.ov.entry k)

variable {tr : Trace α} {ov ov' : Overlay α} {ctx : Ctx} {req : Overlay.Request α} {a : Action α}
  {out : Outcome α} {key k : Key} {e : OverlayObj α}

/-! ### The step -/

omit [RuntimeObject α] in
theorem Net.absent (hN : Net tr) (he : tr.ov.entry k = none) : tr.view k = tr.ov.cache k := by
  have h := hN k
  rwa [he] at h

omit [RuntimeObject α] in
theorem Net.entry (hN : Net tr) (he : tr.ov.entry k = some e) :
    Stands (tr.ov.cache k) (tr.view k) e ∧ ∃ req a, tr.last k = some (req, a) ∧ Named req e := by
  have h := hN k
  rwa [he] at h

/-- An accepted operation that leaves the entry `oe`. -/
theorem Net.accept (hN : Net tr) {oe : Option (OverlayObj α)} (n : Int)
    (kv : Key → Option (BufferItem α))
    (hoe : NetAt (tr.ov.cache req.key) (a.effect (tr.ov.cache req.key)) (some (req, a)) oe) :
    Net ⟨tr.ov.leaving n kv req.key oe,
      update tr.view req.key (a.effect (tr.ov.cache req.key)),
      update tr.last req.key (some (req, a))⟩ := by
  intro k
  show NetAt (tr.ov.cache k) (update tr.view req.key _ k) (update tr.last req.key _ k) _
  rw [entry_leaving]
  by_cases hkey : k = req.key
  · subst hkey
    rw [update_self, update_self, if_pos rfl]
    exact hoe
  · rw [update_of_ne hkey, update_of_ne hkey, if_neg hkey]
    exact hN k

/-- **A call that meets the condition keeps the net effect.** -/
theorem Net.step (hN : Net tr) (hmeets : tr.ov.Meets ctx req a) {n : Int}
    (hst : Staged tr.ov n ctx req a out) :
    Net (tr.record req a out) := by
  unfold Trace.record
  rcases hst.leaves (.inr hmeets.1) with ⟨m, err, herr, hov, -⟩ | ⟨oe, kv, hok, hov, hleft⟩
  · rw [herr, hov]
    exact hN
  rw [hok, hov]
  refine hN.accept n kv ?_
  cases hleft with
  | named e hnamed hstands _ => exact ⟨hstands, req, a, rfl, hnamed⟩
  | revived obj e0 hthere hdel hcached =>
    obtain ⟨b, hb⟩ := Option.isSome_iff_exists.mp hcached
    obtain ⟨hservice, hmethod⟩ := hmeets.2 (some obj) e0 rfl hthere hdel hcached
    obtain ⟨-, _, _, _, hold⟩ := hN.entry hthere
    refine ⟨?_, req, _, rfl, ⟨rfl, hservice, hmethod, rfl, hold.touch⟩⟩
    rw [hb]
    exact ⟨rfl, fun _ => rfl⟩
  | removed into habsent => exact habsent.symm

omit [RuntimeObject α] in
theorem Net.start (hov : tr.ov.overlay = ∅) (hview : tr.view = tr.ov.cache) : Net tr := by
  intro k
  rw [hview, show tr.ov.entry k = none by simp [Overlay.entry, hov]]
  rfl

omit [RuntimeObject α] in
/-- Entries are primary along runs. -/
theorem Net.primary (hN : Net tr) (k : Key) (e : OverlayObj α) (he : tr.ov.entry k = some e) :
    e.primary = true := by
  obtain ⟨-, _, _, _, hnamed⟩ := hN.entry he
  exact hnamed.primary

theorem Net.of_followed (hr : Followed Overlay.Meets tr) : Net tr := by
  refine hr.invariant (fun tr h => .start h.1 h.2.1) ?_
  rintro tr tr' hN ⟨ctx, req, a, out, hdry, hpc, hmeets, hs, rfl⟩
  exact hN.step hmeets (stage_staged hdry hpc (hN.primary req.key) hs).1

/-! ### What is seen -/

omit [RuntimeObject α] in
/-- Only a delete leaves nothing. -/
theorem netOper_delete {base view : Option α} (h : netOper base view = some .delete) : view = none := by
  cases base with
  | none => cases view <;> cases h
  | some b =>
    cases view with
    | none => rfl
    | some v => cases h

/-- What `Get` returns. -/
theorem Net.get_eq (hN : Net tr) (k : Key) (into : α) :
    tr.ov.get k into = match tr.view k with
      | none => .error .notFound
      | some o => .ok (if (tr.ov.entry k).isNone then o
          else RuntimeObject.setVersion o (RuntimeObject.version ((tr.ov.cache k).getD into))) := by
  unfold Overlay.get
  cases he : tr.ov.entry k with
  | none =>
    rw [hN.absent he]
    cases tr.ov.cache k <;> rfl
  | some e =>
    obtain ⟨⟨hoper, hval⟩, -⟩ := hN.entry he
    by_cases hdel : e.oper = .delete
    · have hview : tr.view k = none := netOper_delete (hdel ▸ hoper)
      simp [hdel, hview]
    have hv := hval hdel
    cases hview : tr.view k with
    | none =>
      rw [hview] at hoper
      revert hoper
      cases tr.ov.cache k with
      | none => simp [netOper]
      | some b =>
        intro hoper
        exact absurd (Option.some.inj hoper).symm hdel
    | some o => simp [hdel, hv, hview]

omit [RuntimeObject α] in
/-- What a commit leaves. -/
theorem Net.applied_eq (hN : Net tr) (k : Key) :
    (match tr.ov.entry k with
      | none => tr.ov.cache k
      | some e => e.applied (tr.ov.cache k)) = tr.view k := by
  cases he : tr.ov.entry k with
  | none => exact (hN.absent he).symm
  | some e =>
    obtain ⟨⟨hoper, hval⟩, _, _, _, hnamed⟩ := hN.entry he
    cases hop : e.oper with
    | create =>
      simp only [OverlayObj.applied, hop]
      exact hval (by simp [hop])
    | update =>
      simp only [OverlayObj.applied, hop, hnamed.touch, Bool.false_eq_true, if_false]
      exact hval (by simp [hop])
    | delete =>
      simp only [OverlayObj.applied, hop]
      exact (netOper_delete (hop ▸ hoper)).symm

/-! ### The main theorem -/

/-- **The last operation wins.**  In a run in which no call fails after it has changed an
entry, and in which a create over a staged delete has the names of the delete, each entry
has the operation that leads from the cache to what the accepted operations leave, with
the object, the original, the service and the method of the last one; a key on which they
have no effect has no entry; and `Get` and `Commit` see what they leave. -/
theorem last_operation_wins (tr : Trace α) (hr : Followed Overlay.Meets tr) (k : Key) :
    (∀ e, tr.ov.entry k = some e →
      netOper (tr.ov.cache k) (tr.view k) = some e.oper ∧ (e.oper ≠ .delete → e.val = tr.view k) ∧
      ∃ req a, tr.last k = some (req, a) ∧ e.serviceName = req.service ∧ e.methodName = req.method ∧
        e.orig = req.orig) ∧
    (netOper (tr.ov.cache k) (tr.view k) = none → tr.ov.entry k = none) ∧
    (tr.ov.entry k = none → tr.view k = tr.ov.cache k) ∧
    (∀ into, tr.ov.get k into = match tr.view k with
      | none => .error .notFound
      | some o => .ok (if (tr.ov.entry k).isNone then o
          else RuntimeObject.setVersion o (RuntimeObject.version ((tr.ov.cache k).getD into)))) ∧
    (match tr.ov.entry k with
      | none => tr.ov.cache k
      | some e => e.applied (tr.ov.cache k)) = tr.view k := by
  have hN := Net.of_followed hr
  refine ⟨fun e he => ?_, fun hnet => ?_, hN.absent, hN.get_eq k, hN.applied_eq k⟩
  · obtain ⟨⟨hoper, hval⟩, req, a, hlast, hnamed⟩ := hN.entry he
    exact ⟨hoper, hval, req, a, hlast, hnamed.serviceName, hnamed.methodName, hnamed.orig⟩
  · cases he : tr.ov.entry k with
    | none => rfl
    | some e => cases hnet.symm.trans (hN.entry he).1.oper

/-! ### Runs on small objects -/

/-- A small API object. -/
structure Doc where
  body : Nat
  generation : Nat := 0
  ver : Nat := 0
  deriving DecidableEq, Repr

instance : RuntimeObject Doc where
  kind := fun _ => ['D']
  hasMeta := fun _ => true
  firstGeneration := fun d => { d with generation := 1 }
  version := Doc.ver
  setVersion := fun d v => { d with ver := v }

/-- A key. -/
def keyDoc : Key := ['/', 'd']

/-- A request by a method. -/
def docRequest (method : Name) (doc : Doc) : Overlay.Request Doc :=
  { service := ['s'], method := method, uri := [], key := keyDoc, orig := some doc }

/-- An empty overlay over a cache that has one object. -/
def docOverlay : Overlay Doc where
  cache := fun k => if k = keyDoc then some { body := 1 } else none
  kv := fun _ => none
  overlay := ∅
  tenant := ['t']
  id := ['i']
  baseKey := []
  ephemeral := false
  primaryCount := 0
  maxOvEntries := 4096

/-- The run of no operations. -/
def docTrace : Trace Doc := ⟨docOverlay, docOverlay.cache, fun _ => none⟩

/-- An update is replaced by another one. -/
theorem last_operation_wins_update :
    ∃ tr : Trace Doc, Followed Overlay.Meets tr ∧ tr.view keyDoc = some { body := 3 } ∧
      ∃ e, tr.ov.entry keyDoc = some e ∧ e.oper = .update ∧ ∃ req a,
        tr.last keyDoc = some (req, a) ∧ e.methodName = req.method ∧ req.method = ['V'] := by
  have h0 : Followed Overlay.Meets docTrace := .start ⟨rfl, rfl, rfl⟩
  have h1 := h0.step ⟨{}, docRequest ['U'] { body := 2 }, .update [] (some { body := 2 }) false, _, rfl,
    rfl, ⟨fun h => (by cases h), fun obj e hop => (by cases hop)⟩, rfl, rfl⟩
  have h2 := h1.step ⟨{}, docRequest ['V'] { body := 3 }, .update [] (some { body := 3 }) false, _, rfl,
    rfl, ⟨fun _ => ⟨.inr (.inr ⟨rfl, rfl⟩), .inr (.inr rfl), fun hnone => (by cases hnone)⟩,
      fun obj e hop => (by cases hop)⟩, rfl, rfl⟩
  obtain ⟨-, -, req, a, hlast, -, hmethod, -⟩ := (last_operation_wins _ h2 keyDoc).1 _ rfl
  refine ⟨_, h2, rfl, _, rfl, rfl, req, a, hlast, hmethod, ?_⟩
  exact hmethod.symm

/-- A create over a staged delete is recorded with the method of the delete.  A delete that
cannot be persisted fails, and the object is not found any more. -/
theorem not_last_operation_wins :
    (∃ tr : Trace Doc, Followed (fun _ _ _ _ => True) tr ∧ ∃ e, tr.ov.entry keyDoc = some e ∧
      ∃ req a, tr.last keyDoc = some (req, a) ∧ req.method = ['C'] ∧ e.methodName = ['D']) ∧
    ∃ tr : Trace Doc, Followed (fun _ _ _ _ => True) tr ∧ tr.view keyDoc = some { body := 2 } ∧
      tr.ov.get keyDoc { body := 0 } = .error .notFound := by
  have h0 : Followed (fun _ _ _ _ => True) docTrace := .start ⟨rfl, rfl, rfl⟩
  constructor
  · have h1 := h0.step ⟨{}, docRequest ['D'] { body := 1 }, .delete true, _, rfl, rfl, trivial, rfl, rfl⟩
    have h2 := h1.step ⟨{}, docRequest ['C'] { body := 2 }, .create (some { body := 2 }), _, rfl, rfl,
      trivial, rfl, rfl⟩
    exact ⟨_, h2, _, rfl, _, _, rfl, rfl, rfl⟩
  · have h1 := h0.step ⟨{}, docRequest ['U'] { body := 2 }, .update [] (some { body := 2 }) false, _, rfl,
      rfl, trivial, rfl, rfl⟩
    have h2 := h1.step ⟨{ kvFails := true }, docRequest ['D'] { body := 1 }, .delete true, _, rfl, rfl,
      trivial, rfl, rfl⟩
    exact ⟨_, h2, rfl, rfl⟩

end NicSw.Staging
