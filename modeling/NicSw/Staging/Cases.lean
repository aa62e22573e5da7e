/-
What a primary operation can do.

Outside dry runs, with primary entries only, a call is rejected, stages a new entry, takes
the place of one, revives an entry that deletes an object of the cache, deletes over an
entry, or removes an entry that creates an object.  There is one more outcome: a call
that fails after it has changed the entry.
-/
import NicSw.Staging.Overlay

namespace NicSw.Staging

open Overlay Option

open NicSw.ApiCache (GoMap Key)

variable {α : Type} [RuntimeObject α]

/-! ### Operations and their effect -/

/-- The operation of a request. -/
inductive Action (α : Type)
  | create (obj : Option α)
  | update (resVer : Name) (obj : Option α) (updateFn : Bool)
  | delete (into : Bool)

/-- What the operation leaves of a key that has `base` in the cache.  A new object is at its
first generation. -/
def Action.effect (base : Option α) : Action α → Option α
  | .create obj => if base.isSome then obj else obj.map RuntimeObject.firstGeneration
  | .update _ obj _ => obj
  | .delete _ => none

/-- `CreatePrimary`, `UpdatePrimary` and `DeletePrimary`. -/
def Overlay.stage (ov : Overlay α) (ctx : Ctx) (req : Overlay.Request α) :
    Action α → Option (Outcome α)
  | .create obj => ov.createPrimary ctx req obj
  | .update resVer obj updateFn => ov.updatePrimary ctx req resVer obj updateFn
  | .delete into => ov.deletePrimary ctx req into

/-- The operation of a request, after the checks of `stagePrimary`. -/
def Overlay.perform (ov : Overlay α) (ctx : Ctx) (req : Overlay.Request α) :
    Action α → Option (Outcome α)
  | .create obj => ov.create ctx req.service req.method req.uri req.key req.orig obj ctx.verVer true
  | .update resVer obj updateFn =>
    ov.update ctx req.service req.method req.uri req.key req.orig obj updateFn resVer ctx.verVer true
  | .delete into => ov.delete ctx req.service req.method req.uri req.key req.orig into ctx.verVer true

theorem stage_eq (ov : Overlay α) (ctx : Ctx) (req : Overlay.Request α) (a : Action α) :
    ov.stage ctx req a = ov.stagePrimary ctx req (·.perform ctx req a) := by
  cases a <;> rfl

/-- The operation that leads from what the cache has to what is seen. -/
def netOper : Option α → Option α → Option Oper
  | none, some _ => some .create
  | some _, some _ => some .update
  | some _, none => some .delete
  | none, none => none

/-- The entry has the names and the original of the request. -/
structure Named (req : Overlay.Request α) (e : OverlayObj α) : Prop where
  primary : e.primary = true
  serviceName : e.serviceName = req.service
  methodName : e.methodName = req.method
  orig : e.orig = req.orig
  touch : e.touch = false

/-- The entry stands for what is seen. -/
structure Stands (base view : Option α) (e : OverlayObj α) : Prop where
  oper : netOper base view = some e.oper
  val : e.oper ≠ .delete → e.val = view

/-- The operation stages an entry of this kind on a key without one that has `base` in the
cache. -/
def Fits (base : Option α) (oper : Oper) (a : Action α) : Prop :=
  match oper with
  | .create => base = none ∧ ∃ obj, a = .create (some obj) ∧ RuntimeObject.hasMeta obj = true
  | .update => base.isSome ∧ ∃ resVer obj updateFn, a = .update resVer (some obj) updateFn
  | .delete => base.isSome ∧ ∃ into, a = .delete into

/-- Persisting an entry that has a buffer item works. -/
def Overlay.Persists (ov : Overlay α) (ctx : Ctx) (key : Key) : Prop :=
  ov.ephemeral = true ∨ ctx.restore = true ∨
    (ctx.kvFails = false ∧ (ov.kv (ov.makeBufferKey key)).isSome)

/-- A call that changes an entry does not fail after the change. -/
def Overlay.Clean (ov : Overlay α) (ctx : Ctx) (req : Overlay.Request α) (a : Action α) : Prop :=
  (ov.entry req.key).isSome →
    match a with
    | .create _ => True
    | .update _ obj _ => ov.Persists ctx req.key ∧
        (ov.ephemeral = true ∨ ctx.restore = true ∨ req.orig.isSome) ∧
        ((ov.cache req.key).isNone → ∀ o, obj = some o → RuntimeObject.hasMeta o = true)
    | .delete _ => (ov.cache req.key).isSome → ov.Persists ctx req.key

/-- The entry of the key can be persisted. -/
def Overlay.Writable (ov : Overlay α) (ctx : Ctx) (key : Key) : Prop :=
  ov.ephemeral = true ∨ ctx.restore = true ∨
    ctx.kvFails = false ∧ (ov.kv (ov.makeBufferKey key)).isSome = (ov.entry key).isSome

/-- The overlay accepts the operation. -/
def Overlay.Accepts (ov : Overlay α) (ctx : Ctx) (req : Overlay.Request α) : Action α → Prop
  | .create obj => ∃ o, obj = some o ∧
      match ov.cache req.key, ov.entry req.key with
      | some _, some e => e.oper = .delete
      | none, none => RuntimeObject.hasMeta o = true
      | _, _ => False
  | .update _ obj _ => ∃ o, obj = some o ∧ ov.Writable ctx req.key ∧
      (ov.ephemeral = true ∨ ctx.restore = true ∨ req.orig.isSome) ∧
      match ov.cache req.key, ov.entry req.key with
      | some _, _ => True
      | none, some e => e.oper ≠ .delete ∧ RuntimeObject.hasMeta o = true
      | none, none => False
  | .delete _ => ov.Writable ctx req.key ∧
      ((ov.cache req.key).isSome ∨ (ov.entry req.key).isSome)

/-- The overlay with another count of operations. -/
def Overlay.counted (ov : Overlay α) (n : Int) : Overlay α := { ov with primaryCount := n }

/-- A deleted entry after a create. -/
def OverlayObj.revived (e : OverlayObj α) (orig : Option α) (obj : α) : OverlayObj α :=
  { e with oper := .update, val := some obj, orig := orig, primary := true }

/-- What a primary operation outside dry runs can do; `n` counts it. -/
inductive Staged (ov : Overlay α) (n : Int) (ctx : Ctx) (req : Overlay.Request α) :
    Action α → Outcome α → Prop
  /-- Nothing was staged. -/
  | rejected {a : Action α} (m : Int) (err : Err) (kv : Except KvErr Unit)
      (refused : ov.Accepts ctx req a → ov.maxOvEntries ≤ ov.primaryCount) :
      Staged ov n ctx req a { ov := ov.counted m, result := .error err, kv := kv }
  /-- The key had no entry.  A create is staged also if it cannot be persisted. -/
  | fresh {a : Action α} (e : OverlayObj α) (uri : Name) (kv : Except KvErr Unit)
      (absent : ov.entry req.key = none) (named : Named req e)
      (stands : Stands (ov.cache req.key) (a.effect (ov.cache req.key)) e)
      (fits : Fits (ov.cache req.key) e.oper a)
      (persisted : ((ov.counted n).createKvObj ctx uri req.key e).2 = kv)
      (created : kv = .ok () ∨ ∃ obj, a = .create obj) :
      Staged ov n ctx req a
        { ov := ((ov.counted n).createKvObj ctx uri req.key e).1.put req.key e
          result := .ok ()
          kv := kv }
  /-- A create of an object whose delete was staged. -/
  | revived (obj : α) (e0 : OverlayObj α) (ov' : Overlay α) (kv : Except KvErr Unit)
      (there : ov.entry req.key = some e0) (deleted : e0.oper = .delete)
      (cached : (ov.cache req.key).isSome)
      (persisted : ((ov.counted n).put req.key (e0.revived req.orig obj)).updateKvObj ctx req.key
        (e0.revived req.orig obj) = some (ov', kv)) :
      Staged ov n ctx req (.create (some obj)) { ov := ov', result := .ok (), kv := kv }
  /-- An update of a key that has an entry. -/
  | replaced {a : Action α} (e0 e : OverlayObj α) (ov' : Overlay α)
      (update : ∃ resVer obj updateFn, a = .update resVer (some obj) updateFn)
      (there : ov.entry req.key = some e0) (named : Named req e)
      (stands : Stands (ov.cache req.key) (a.effect (ov.cache req.key)) e)
      (persisted : ((ov.counted n).put req.key e).updateKvObj ctx req.key e = some (ov', .ok ())) :
      Staged ov n ctx req a { ov := ov'.put req.key e, result := .ok () }
  /-- A delete of an object of the cache that has an entry: the entry is persisted before
  the names are written. -/
  | deleted (into : Bool) (e0 e : OverlayObj α) (ov' : Overlay α)
      (there : ov.entry req.key = some e0) (cached : (ov.cache req.key).isSome) (named : Named req e)
      (oper : e.oper = .delete)
      (persisted : ((ov.counted n).put req.key { e0 with oper := .delete }).updateKvObj ctx req.key
        { e0 with oper := .delete } = some (ov', .ok ())) :
      Staged ov n ctx req (.delete into) { ov := ov'.put req.key e, result := .ok () }
  /-- A delete of an object that is only staged. -/
  | removed (into : Bool) (e0 : OverlayObj α) (there : ov.entry req.key = some e0)
      (absent : ov.cache req.key = none)
      (persisted : ((ov.counted n).deleteKvObj ctx req.key e0).2 = .ok ()) :
      Staged ov n ctx req (.delete into)
        { ov := { ((ov.counted n).deleteKvObj ctx req.key e0).1 with
            overlay := ((ov.counted n).deleteKvObj ctx req.key e0).1.overlay.erase req.key }
          result := .ok () }
  /-- A call that failed after it changed the entry. -/
  | spoiled {a : Action α} {out : Outcome α} (unclean : ¬ ov.Clean ctx req a) (err : Err)
      (failed : out.result = .error err) : Staged ov n ctx req a out

/-! ### The cases are all -/

variable {ov : Overlay α} {ctx : Ctx} {req : Overlay.Request α} {out : Outcome α} {key : Key}
  {e : OverlayObj α}

/-- Persisting the entry `e`: `item` is written if there is one before just when `there`
says so. -/
inductive Saves (ov : Overlay α) (ctx : Ctx) (key : Key) (e : OverlayObj α) (there : Bool)
    (item : Option (BufferItem α)) : Overlay α × Except KvErr Unit → Prop
  | skipped (skips : ov.skipsKv ctx e = true) : Saves ov ctx key e there item (ov, .ok ())
  | noOriginal (keeps : ov.skipsKv ctx e = false) (orig : e.orig = none) (oper : e.oper ≠ .delete) :
      Saves ov ctx key e there item (ov, .error .noOriginal)
  | failed (keeps : ov.skipsKv ctx e = false)
      (fails : ctx.kvFails = true ∨ (ov.kv (ov.makeBufferKey key)).isSome ≠ there) :
      Saves ov ctx key e there item (ov, .error .failed)
  | written (before : (ov.kv (ov.makeBufferKey key)).isSome = there) :
      Saves ov ctx key e there item
        ({ ov with kv := Function.update ov.kv (ov.makeBufferKey key) item }, .ok ())

theorem createKvObj_saves (ov : Overlay α) (ctx : Ctx) (uri : Name) (key : Key) (e : OverlayObj α) :
    Saves ov ctx key e false (some (bufferItem (kindOf e.val) uri e))
      (ov.createKvObj ctx uri key e) := by
  unfold createKvObj
  split_ifs with hskip hno hfails
  · exact .skipped hskip
  · exact .noOriginal (by simpa using hskip) (by simpa using hno.1) hno.2
  · exact .failed (by simpa using hskip) (.inl hfails)
  cases hl : ov.kv (ov.makeBufferKey key) with
  | some item =>
    simp only [hl]
    exact .failed (by simpa using hskip) (.inr (by simp [hl]))
  | none =>
    simp only [hl]
    exact .written (by simp [hl])

theorem updateKvObj_saves {r : Overlay α × Except KvErr Unit}
    (h : ov.updateKvObj ctx key e = some r) :
    ∃ kind, Saves ov ctx key e true (some (bufferItem kind key e)) r := by
  obtain ⟨kind, hkind⟩ : ∃ kind, kind = if e.orig.isSome then kindOf e.val else [] := ⟨_, rfl⟩
  simp only [updateKvObj, ← hkind] at h
  refine ⟨kind, ?_⟩
  split_ifs at h with hskip hno hfails
  · cases h
    exact .skipped hskip
  · cases h
    exact .noOriginal (by simpa using hskip) (by simpa using hno.1) hno.2
  · cases h
    exact .failed (by simpa using hskip) (.inl hfails)
  · cases hl : ov.kv (ov.makeBufferKey key) with
    | none =>
      simp only [hl] at h
      cases h
      exact .failed (by simpa using hskip) (.inr (by simp [hl]))
    | some item =>
      simp only [hl] at h
      cases h
      exact .written (by simp [hl])

omit [RuntimeObject α] in
theorem deleteKvObj_saves (ov : Overlay α) (ctx : Ctx) (key : Key) (e : OverlayObj α) :
    Saves ov ctx key e true none (ov.deleteKvObj ctx key e) := by
  unfold deleteKvObj
  split_ifs with hskip hfails
  · exact .skipped hskip
  · exact .failed (by simpa using hskip) (.inl hfails)
  cases hl : ov.kv (ov.makeBufferKey key) with
  | none =>
    simp only [hl]
    exact .failed (by simpa using hskip) (.inr (by simp [hl]))
  | some item =>
    simp only [hl]
    exact .written (by simp [hl])

omit [RuntimeObject α] in
theorem Overlay.Writable.of_entry {there : Bool} (hw : ov.Writable ctx key)
    (he : (ov.entry key).isSome = there) :
    ov.ephemeral = true ∨ ctx.restore = true ∨
      ctx.kvFails = false ∧ (ov.kv (ov.makeBufferKey key)).isSome = there :=
  he ▸ hw

section Saves

variable {there : Bool} {item : Option (BufferItem α)} {r : Overlay α × Except KvErr Unit}

section

variable (h : Saves ov ctx key e there item r)
include h

omit [RuntimeObject α] in
/-- What cannot be persisted changes nothing. -/
theorem Saves.error {err : KvErr} (hr : r.2 = .error err) : r.1 = ov := by
  cases h with
  | written _ => cases hr
  | _ => rfl

omit [RuntimeObject α] in
theorem Saves.eq : ∃ m, r.1 = { ov with kv := m } := by
  cases h with
  | written _ => exact ⟨_, rfl⟩
  | _ => exact ⟨ov.kv, rfl⟩

omit [RuntimeObject α] in
/-- Persisting works where it should. -/
theorem Saves.ok
    (hP : ov.ephemeral = true ∨ ctx.restore = true ∨
      ctx.kvFails = false ∧ (ov.kv (ov.makeBufferKey key)).isSome = there)
    (horig : ov.ephemeral = true ∨ ctx.restore = true ∨ e.orig.isSome ∨ e.oper = .delete) :
    r.2 = .ok () := by
  cases h with
  | skipped _ => rfl
  | written _ => rfl
  | noOriginal hkeeps hnone hoper => simp_all [skipsKv]
  | failed hkeeps hfails => simp_all [skipsKv]

omit [RuntimeObject α] in
/-- An entry that is accepted, or has an original, is written unless the store fails. -/
theorem Saves.wrote (hskip : ov.skipsKv ctx e = false)
    (horig : r.2 = .ok () ∨ e.orig.isSome) (hfail : r.2 ≠ .error .failed) :
    (ov.kv (ov.makeBufferKey key)).isSome = there ∧
      r = ({ ov with kv := Function.update ov.kv (ov.makeBufferKey key) item }, .ok ()) := by
  cases h with
  | skipped hskips => cases hskip.symm.trans hskips
  | noOriginal _ hnone _ => simp [hnone] at horig
  | failed _ _ => exact absurd rfl hfail
  | written hbefore => exact ⟨hbefore, rfl⟩

end

end Saves

theorem updateKvObj_eq {ov' : Overlay α} {kv : Except KvErr Unit}
    (h : ov.updateKvObj ctx key e = some (ov', kv)) : ∃ m, ov' = { ov with kv := m } :=
  (updateKvObj_saves h).elim fun _ hs => hs.eq

omit [RuntimeObject α] in
theorem findObjects_eq (hprim : ∀ e, ov.entry key = some e → e.primary = true) :
    ov.findObjects key = ov.entry key := by
  unfold findObjects
  cases he : ov.entry key with
  | none => rfl
  | some e => simp [Option.filter, hprim e he]

omit [RuntimeObject α] in
/-- Counting an operation changes no object. -/
theorem counted_reads (n : Int) (hprim : ∀ e, ov.entry key = some e → e.primary = true) :
    (ov.counted n).cache key = ov.cache key ∧ (ov.counted n).entry key = ov.entry key ∧
      (ov.counted n).findObjects key = ov.entry key :=
  ⟨rfl, rfl, findObjects_eq hprim⟩

omit [RuntimeObject α] in
/-- A call that fails at once. -/
theorem Staged.of_fail [RuntimeObject α] {n : Int} {a : Action α} {err : Err}
    (h : (ov.counted n).fail err = some out) (ha : ¬ ov.Accepts ctx req a) :
    Staged ov n ctx req a out := by
  cases h
  exact .rejected n err (.ok ()) fun h => absurd h ha

theorem create_staged (n : Int) (obj : Option α)
    (hprim : ∀ e, ov.entry req.key = some e → e.primary = true)
    (h : (ov.counted n).create ctx req.service req.method req.uri req.key req.orig obj 0 true = some out) :
    Staged ov n ctx req (.create obj) out := by
  obtain ⟨hcache, hentry, hfind⟩ := counted_reads n hprim
  cases obj with
  | none =>
    exact .of_fail h (by simp_all [Overlay.Accepts])
  | some obj =>
    unfold create at h
    simp only [hcache, hentry, hfind] at h
    cases hc : ov.cache req.key with
    | some b =>
      simp only [hc] at h
      cases he : ov.entry req.key with
      | none =>
        rw [he] at h
        exact .of_fail h (by simp_all [Overlay.Accepts])
      | some e0 =>
        simp only [he] at h
        split_ifs at h with hdel
        · obtain ⟨⟨ov', kv⟩, hkv, heq⟩ := bind_eq_some_iff.mp h
          cases heq
          exact .revived obj e0 ov' kv he hdel (by simp [hc]) hkv
        · exact .of_fail h (by simp_all [Overlay.Accepts])
    | none =>
      simp only [hc] at h
      cases he : ov.entry req.key with
      | some e0 =>
        simp only [he, isSome_some, and_self, if_true] at h
        exact .of_fail h (by simp_all [Overlay.Accepts])
      | none =>
        simp only [he, isSome_none, Bool.false_eq_true, and_false, if_false, Nat.lt_irrefl] at h
        split_ifs at h with hmeta
        · cases h
          refine .fresh _ req.uri _ he ⟨rfl, rfl, rfl, rfl, rfl⟩ ?_ ⟨hc, obj, rfl, hmeta⟩ rfl
            (.inr ⟨_, rfl⟩)
          rw [hc]
          exact ⟨rfl, fun _ => rfl⟩
        · exact .of_fail h (by simp_all [Overlay.Accepts])

/-- The entry that an update writes. -/
theorem updateEntry_staged (n : Int) (e0 : OverlayObj α) {resVer : Name} {obj : α} {updateFn : Bool}
    {oper : Oper} (hpc : ctx.preCommitApply = false)
    (hoper : netOper (ov.cache req.key) (some obj) = some oper)
    (he : ov.entry req.key = some e0 ∨ ov.entry req.key = none ∧
      Fits (ov.cache req.key) oper (.update resVer (some obj) updateFn))
    (h : (ov.counted n).updateEntry ctx req.service req.method req.uri req.key req.orig obj updateFn
      resVer 0 true (ov.entry req.key).isSome oper (ov.entry req.key).isSome e0 = some out) :
    Staged ov n ctx req (.update resVer (some obj) updateFn) out := by
  unfold updateEntry at h
  simp only [hpc, Bool.false_eq_true, if_false] at h
  rcases he with he | ⟨he, hfits⟩
  · simp only [he, isSome_some, if_true] at h
    obtain ⟨⟨ov', kv⟩, hkv, heq⟩ := bind_eq_some_iff.mp h
    cases kv with
    | error err =>
      cases heq
      refine .spoiled (fun hclean => ?_) _ rfl
      obtain ⟨hP, horig, -⟩ := hclean (by simp [he])
      obtain ⟨_, hs⟩ := updateKvObj_saves hkv
      cases hs.ok hP (horig.imp_right (.imp_right .inl))
    | ok u =>
      cases heq
      refine .replaced e0 _ ov' ⟨resVer, obj, updateFn, rfl⟩ he ?_ ?_ hkv
      · exact ⟨rfl, rfl, rfl, rfl, rfl⟩
      · exact ⟨hoper, fun _ => rfl⟩
  · simp only [he, isSome_none, Bool.false_eq_true, if_false] at h
    obtain ⟨⟨ov', kv⟩, hkv, heq⟩ := bind_eq_some_iff.mp h
    have hkv' := Option.some.inj hkv
    cases kv with
    | error err =>
      cases heq
      have hsaves := createKvObj_saves (ov.counted n) ctx req.uri req.key
        ⟨oper, true, req.service, req.method, req.uri, req.orig, some obj, updateFn, resVer, 0, false⟩
      rw [hkv'] at hsaves
      obtain rfl : ov' = ov.counted n := hsaves.error rfl
      refine .rejected n _ _ ?_
      rintro ⟨_, _, hw, horig, -⟩
      cases hsaves.ok (hw.of_entry (by simp [he])) (horig.imp_right (.imp_right .inl))
    | ok u =>
      cases heq
      obtain rfl := congrArg Prod.fst hkv'
      refine .fresh _ req.uri (.ok u) he ?_ ?_ hfits (congrArg Prod.snd hkv') (.inl rfl)
      · exact ⟨rfl, rfl, rfl, rfl, rfl⟩
      · exact ⟨hoper, fun _ => rfl⟩

theorem update_staged (n : Int) (resVer : Name) (obj : Option α) (updateFn : Bool)
    (hpc : ctx.preCommitApply = false) (hprim : ∀ e, ov.entry req.key = some e → e.primary = true)
    (h : (ov.counted n).update ctx req.service req.method req.uri req.key req.orig obj updateFn resVer 0
      true = some out) : Staged ov n ctx req (.update resVer obj updateFn) out := by
  obtain ⟨hcache, hentry, hfind⟩ := counted_reads n hprim
  cases obj with
  | none =>
    exact .of_fail h (by simp_all [Overlay.Accepts])
  | some obj =>
    unfold update at h
    simp only [hcache, hentry, hfind] at h
    cases he : ov.entry req.key with
    | none =>
      cases hc : ov.cache req.key with
      | none =>
        simp [he, hc] at h
        exact .of_fail h (by simp_all [Overlay.Accepts])
      | some b =>
        simp only [he, hc] at h
        have hoper : netOper (ov.cache req.key) (some obj) = some .update := by rw [hc]; rfl
        refine updateEntry_staged n
          ⟨.update, false, [], [], [], none, some obj, updateFn, resVer, 0, false⟩ hpc hoper
          (.inr ⟨he, by simp [hc], resVer, obj, updateFn, rfl⟩) ?_
        simpa [he] using h
    | some e0 =>
      simp only [he, isSome_some, Bool.not_true, Bool.false_eq_true, and_false, if_false,
        false_and, hpc] at h
      cases hc : ov.cache req.key with
      | some b =>
        refine updateEntry_staged n e0 hpc (by rw [hc]; rfl) (.inl he) ?_
        simpa [he, hc] using h
      | none =>
        simp only [hc, isSome_none, Bool.false_eq_true, if_false] at h
        by_cases hdel : e0.oper = .delete
        · rw [if_pos hdel] at h
          exact .of_fail h (by simp_all [Overlay.Accepts])
        rw [if_neg hdel] at h
        by_cases hmeta : RuntimeObject.hasMeta obj = true
        · rw [if_pos hmeta] at h
          refine updateEntry_staged n e0 hpc (by rw [hc]; rfl) (.inl he) ?_
          simpa [he] using h
        · rw [if_neg hmeta] at h
          cases h
          refine .spoiled (fun hclean => hmeta ?_) _ rfl
          exact (hclean (by simp [he])).2.2 (by simp [hc]) obj rfl

theorem delete_staged (n : Int) (into : Bool) (hprim : ∀ e, ov.entry req.key = some e → e.primary = true)
    (h : (ov.counted n).delete ctx req.service req.method req.uri req.key req.orig into 0 true
      = some out) : Staged ov n ctx req (.delete into) out := by
  obtain ⟨hcache, hentry, hfind⟩ := counted_reads n hprim
  unfold delete at h
  simp only [hcache, hentry, hfind] at h
  cases he : ov.entry req.key with
  | none =>
    cases hc : ov.cache req.key with
    | none =>
      simp only [he, hc, isNone_none, and_self, if_true] at h
      exact .of_fail h (by simp_all [Overlay.Accepts])
    | some b =>
      simp only [he, hc, isNone_none, isNone_some, Bool.false_eq_true, and_false,
        if_false, Nat.lt_irrefl] at h
      split at h
      · rename_i err hkv
        cases h
        rw [(createKvObj_saves ..).error hkv]
        refine .rejected n _ _ fun ha => ?_
        cases hkv.symm.trans
          ((createKvObj_saves ..).ok (ha.1.of_entry (by simp [he])) (.inr (.inr (.inr rfl))))
      · rename_i u hkv
        cases h
        refine .fresh _ [] _ he ⟨rfl, rfl, rfl, rfl, rfl⟩ ?_ ⟨by simp [hc], into, rfl⟩ rfl
          (.inl hkv)
        rw [hc]
        exact ⟨rfl, fun hne => absurd rfl hne⟩
  | some e0 =>
    simp only [he, isNone_some, Bool.not_true, Bool.false_eq_true, and_false, if_false,
      false_and] at h
    cases hc : ov.cache req.key with
    | none =>
      simp only [hc] at h
      split at h
      · rename_i err hkv
        cases h
        rw [(deleteKvObj_saves ..).error hkv]
        refine .rejected n _ _ fun ha => ?_
        cases hkv.symm.trans ((deleteKvObj_saves _ ctx req.key { e0 with oper := .delete }).ok
          (ha.1.of_entry (by simp [he])) (.inr (.inr (.inr rfl))))
      · rename_i u hkv
        cases h
        rw [hkv]
        exact .removed into e0 he hc hkv
    | some b =>
      simp only [hc] at h
      obtain ⟨⟨ov', kv⟩, hkv, heq⟩ := bind_eq_some_iff.mp h
      cases kv with
      | error err =>
        cases heq
        refine .spoiled (fun hclean => ?_) _ rfl
        have hP := hclean (by simp [he]) (by simp [hc])
        obtain ⟨_, hs⟩ := updateKvObj_saves hkv
        cases hs.ok hP (.inr (.inr (.inr rfl)))
      | ok u =>
        cases heq
        exact .deleted into e0 _ ov' he (by simp [hc]) ⟨rfl, rfl, rfl, rfl, rfl⟩ rfl hkv

/-- The checks before a primary operation. -/
theorem stage_cases {a : Action α} (hdry : ctx.dryRun = none) (h : ov.stage ctx req a = some out) :
    ov.maxOvEntries ≤ ov.primaryCount ∧
        out = { ov := ov.counted ov.primaryCount, result := .error .tooMany } ∨
      ((ov.primaryCount < ov.maxOvEntries ∧
        (ov.ephemeral = false → req.service ≠ [] ∧ req.method ≠ [])) ∧
        (ov.counted (ov.primaryCount + 1)).perform ctx req a = some out) := by
  simp only [stage_eq, stagePrimary, hdry, isNone_none, if_true] at h
  split_ifs at h with hmany hnames
  · exact .inl ⟨by omega, (Option.some.inj h).symm⟩
  · refine .inr ⟨⟨by omega, fun heph => ?_⟩, h⟩
    simpa [heph] using hnames

/-- **What a primary operation can do.**  An accepted one had room and names. -/
theorem stage_staged {a : Action α} (hdry : ctx.dryRun = none) (hpc : ctx.preCommitApply = false)
    (hprim : ∀ e, ov.entry req.key = some e → e.primary = true) (h : ov.stage ctx req a = some out) :
    Staged ov (ov.primaryCount + 1) ctx req a out ∧
      (out.result = .ok () → ov.primaryCount < ov.maxOvEntries ∧
        (ov.ephemeral = false → req.service ≠ [] ∧ req.method ≠ [])) := by
  rcases stage_cases hdry h with ⟨hfull, rfl⟩ | ⟨hchecked, h⟩
  · exact ⟨.rejected _ _ _ fun _ => hfull, fun hok => by cases hok⟩
  refine ⟨?_, fun _ => hchecked⟩
  have hver : ctx.verVer = 0 := by simp [Ctx.verVer, hdry]
  cases a with
  | create obj =>
    simp only [perform, hver] at h
    exact create_staged _ obj hprim h
  | update resVer obj updateFn =>
    simp only [perform, hver] at h
    exact update_staged _ resVer obj updateFn hpc hprim h
  | delete into =>
    simp only [perform, hver] at h
    exact delete_staged _ into hprim h

/-! ### Reading entries -/

omit [RuntimeObject α] in
theorem entry_put (ov : Overlay α) (key k : Key) (e : OverlayObj α) :
    (ov.put key e).entry k = if k = key then some e else ov.entry k := by
  unfold put entry
  split_ifs with hk
  · rw [hk, AList.lookup_insert]
  · rw [AList.lookup_insert_ne hk]

omit [RuntimeObject α] in
/-- An entry is taken out. -/
theorem entry_erase (ov : Overlay α) (key k : Key) :
    ({ ov with overlay := ov.overlay.erase key } : Overlay α).entry k
      = if k = key then none else ov.entry k := by
  unfold entry
  split_ifs with hk
  · rw [hk, AList.lookup_erase]
  · rw [AList.lookup_erase_ne hk]

omit [RuntimeObject α] in
/-- The entry is written twice, and persisted in between. -/
theorem entry_put_put {m : Key → Option (BufferItem α)} {n : Int} {e' : OverlayObj α} (k : Key)
    (e : OverlayObj α) :
    (({ (ov.counted n).put key e' with kv := m } : Overlay α).put key e).entry k
      = if k = key then some e else ov.entry k := by
  rw [entry_put]
  split_ifs with hk
  · rfl
  · exact (entry_put (ov.counted n) key k e').trans (if_neg hk)

/-! ### What an accepted operation leaves -/

/-- The overlay with `oe` as the entry of the key, the operation counted, and another store. -/
def Overlay.leaving (ov : Overlay α) (n : Int) (kv : Key → Option (BufferItem α)) (key : Key)
    (oe : Option (OverlayObj α)) : Overlay α :=
  { ov with
    primaryCount := n
    kv := kv
    overlay := oe.elim (ov.overlay.erase key) (ov.overlay.insert key) }

omit [RuntimeObject α] in
theorem entry_leaving (n : Int) (kv : Key → Option (BufferItem α)) (oe : Option (OverlayObj α))
    (k : Key) : (ov.leaving n kv key oe).entry k = if k = key then oe else ov.entry k := by
  cases oe with
  | none => exact entry_erase ov key k
  | some e => exact entry_put ov key k e

/-- What an accepted operation leaves as the entry of its key. -/
inductive Left (ov : Overlay α) (req : Overlay.Request α) :
    Action α → Option (OverlayObj α) → Prop
  /-- The entry of the operation itself, or of an update of an object that is only staged. -/
  | named {a : Action α} (e : OverlayObj α) (named : Named req e)
      (stands : Stands (ov.cache req.key) (a.effect (ov.cache req.key)) e)
      (fits : Fits (ov.cache req.key) e.oper a ∨ (ov.entry req.key).isSome ∧
        ov.cache req.key = none ∧ ∃ resVer obj updateFn, a = .update resVer obj updateFn) :
      Left ov req a (some e)
  | revived (obj : α) (e0 : OverlayObj α) (there : ov.entry req.key = some e0)
      (deleted : e0.oper = .delete) (cached : (ov.cache req.key).isSome) :
      Left ov req (.create (some obj)) (some (e0.revived req.orig obj))
  | removed (into : Bool) (absent : ov.cache req.key = none) : Left ov req (.delete into) none

theorem Left.primary {a : Action α} {oe : Option (OverlayObj α)} (h : Left ov req a oe)
    (he : oe = some e) : e.primary = true := by
  cases h with
  | named _ hnamed _ _ =>
    cases he
    exact hnamed.primary
  | revived _ _ _ _ _ =>
    cases he
    rfl
  | removed _ _ => cases he

/-- **What a call leaves** that does not fail after a change. -/
theorem Staged.leaves {n : Int} {a : Action α} (h : Staged ov n ctx req a out)
    (hclean : out.result = .ok () ∨ ov.Clean ctx req a) :
    (∃ m err, out.result = .error err ∧ out.ov = ov.counted m ∧
      (ov.Accepts ctx req a → ov.maxOvEntries ≤ ov.primaryCount)) ∨
    ∃ oe kv, out.result = .ok () ∧ out.ov = ov.leaving n kv req.key oe ∧ Left ov req a oe := by
  cases h with
  | rejected m err kv hrefused => exact .inl ⟨m, err, rfl, rfl, hrefused⟩
  | spoiled hunclean err hfailed =>
    rcases hclean with hok | hclean
    · cases hfailed.symm.trans hok
    · exact absurd hclean hunclean
  | fresh e uri kv _ hnamed hstands hfits _ _ =>
    obtain ⟨m, hm⟩ := (createKvObj_saves (ov.counted n) ctx uri req.key e).eq
    exact .inr ⟨some e, m, rfl, by rw [hm]; rfl, .named e hnamed hstands (.inl hfits)⟩
  | revived obj e0 ov' kv hthere hdel hcached hkv =>
    obtain ⟨m, rfl⟩ := updateKvObj_eq hkv
    exact .inr ⟨_, m, rfl, rfl, .revived obj e0 hthere hdel hcached⟩
  | replaced e0 e ov' hupdate hthere hnamed hstands hkv =>
    obtain ⟨m, rfl⟩ := updateKvObj_eq hkv
    obtain ⟨resVer, obj, updateFn, rfl⟩ := hupdate
    refine .inr ⟨some e, m, rfl, ?_, .named e hnamed hstands ?_⟩
    · exact congrArg (fun l => { ov.counted n with kv := m, overlay := l }) (AList.insert_insert ..)
    cases hc : ov.cache req.key with
    | none => exact .inr ⟨by simp [hthere], rfl, resVer, some obj, updateFn, rfl⟩
    | some b =>
      have hnet := hstands.oper
      rw [hc] at hnet
      rw [← Option.some.inj hnet]
      exact .inl ⟨rfl, resVer, obj, updateFn, rfl⟩
  | deleted into e0 e ov' _ hcached hnamed hoper hkv =>
    obtain ⟨m, rfl⟩ := updateKvObj_eq hkv
    obtain ⟨b, hb⟩ := isSome_iff_exists.mp hcached
    refine .inr ⟨some e, m, rfl, ?_, .named e hnamed ⟨?_, fun hne => absurd hoper hne⟩ ?_⟩
    · exact congrArg (fun l => { ov.counted n with kv := m, overlay := l }) (AList.insert_insert ..)
    · rw [hb, hoper]
      rfl
    · rw [hoper]
      exact .inl ⟨hcached, into, rfl⟩
  | removed into e0 _ habsent _ =>
    obtain ⟨m, hm⟩ := (deleteKvObj_saves (ov.counted n) ctx req.key e0).eq
    exact .inr ⟨none, m, rfl, by rw [hm]; rfl, .removed into habsent⟩

end NicSw.Staging
