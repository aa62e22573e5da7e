/-
The persisted staging buffer.

Primary entries are kept as buffer items in the KV store.  The items match the entries as
long as creates have an original, and a delete over the entry of an object of the cache
has the names and the original of the entry: it is persisted before they are written.

After a restart the items are staged again, each by the method that it names.  That gives
the same entries if no create is staged over a delete, and no update over a create.
-/
import NicSw.Staging.Net

namespace NicSw.Staging

open Function Overlay OverlayObj Option

open NicSw.ApiCache (GoMap Key)

variable {α : Type} [RuntimeObject α]

/-! ### Runs -/

/-- What of an entry is kept in the store. -/
def OverlayObj.saved (e : OverlayObj α) : Oper × Name × Name × Option α :=
  (e.oper, e.serviceName, e.methodName, e.orig)

/-- What a buffer item keeps of its entry. -/
def BufferItem.saved (item : BufferItem α) : Oper × Name × Name × Option α :=
  (item.operation, item.service, item.method, item.object)

/-- The runs of accepted calls by users outside dry runs, from a new overlay that is kept in
the store.  No write to the store fails, and all calls are allowed by `ok`. -/
def Persisting (ok : Overlay α → Overlay.Request α → Action α → Prop) : Overlay α → Prop :=
  Reachable
    (fun ov => ov.overlay = ∅ ∧ ov.primaryCount = 0 ∧ ov.ephemeral = false ∧
      ∀ k, ov.kv (ov.makeBufferKey k) = none)
    fun ov ov' => ∃ ctx req a out, ctx.dryRun = none ∧ ctx.preCommitApply = false ∧
      ctx.restore = false ∧ ok ov req a ∧ ov.stage ctx req a = some out ∧ out.result = .ok () ∧
      out.kv ≠ .error .failed ∧ ov' = out.ov

/-- A create has an original, and a delete over the entry of an object of the cache has the
names and the original of the entry. -/
def Overlay.Records (ov : Overlay α) (req : Overlay.Request α) (a : Action α) : Prop :=
  match a with
  | .create _ => req.orig.isSome
  | .update _ _ _ => True
  | .delete _ => ∀ e, ov.entry req.key = some e → (ov.cache req.key).isSome →
      e.serviceName = req.service ∧ e.methodName = req.method ∧ e.orig = req.orig

/-- The items in the store are those of the entries. -/
structure Mirrored (ov : Overlay α) : Prop where
  stored : ov.ephemeral = false
  primary : ∀ k e, ov.entry k = some e → e.primary = true
  item : ∀ k e, ov.entry k = some e →
    ∃ item, ov.kv (ov.makeBufferKey k) = some item ∧ item.saved = e.saved
  one : ∀ k k', (ov.entry k).isSome → (ov.entry k').isSome →
    ov.makeBufferKey k = ov.makeBufferKey k' → k = k'
  only : ∀ k, (ov.kv (ov.makeBufferKey k)).isSome →
    ∃ k', (ov.entry k').isSome ∧ ov.makeBufferKey k' = ov.makeBufferKey k

variable {ov ov' : Overlay α} {ctx : Ctx} {req : Overlay.Request α} {a : Action α}
  {out : Outcome α} {key : Key} {e : OverlayObj α}

/-! ### The step -/

omit [RuntimeObject α] in
/-- An entry is written or taken out, and its item. -/
theorem Mirrored.change (hM : Mirrored ov) {oe : Option (OverlayObj α)}
    {item : Option (BufferItem α)} (hprim : ∀ e, oe = some e → e.primary = true)
    (hsaved : item.map BufferItem.saved = oe.map saved)
    (hfree : (ov.entry key).isSome ∨ ov.kv (ov.makeBufferKey key) = none)
    (heph : ov'.ephemeral = false) (hbuf : ov'.makeBufferKey = ov.makeBufferKey)
    (hentry : ∀ k, ov'.entry k = if k = key then oe else ov.entry k)
    (hkv : ov'.kv = update ov.kv (ov.makeBufferKey key) item) : Mirrored ov' := by
  -- no other entry has the buffer key
  have hother : ∀ k, (ov.entry k).isSome → ov.makeBufferKey k = ov.makeBufferKey key → k = key := by
    intro k hk hsame
    rcases hfree with hthere | hnone
    · exact hM.one k key hk hthere hsame
    · obtain ⟨d, hd⟩ := isSome_iff_exists.mp hk
      obtain ⟨it, hit, -⟩ := hM.item k d hd
      rw [hsame, hnone] at hit
      cases hit
  have hcases : ∀ k d, ov'.entry k = some d →
      (k = key ∧ oe = some d) ∨ (k ≠ key ∧ ov.entry k = some d) := by
    intro k d hd
    rw [hentry k] at hd
    split_ifs at hd with hk
    · exact .inl ⟨hk, hd⟩
    · exact .inr ⟨hk, hd⟩
  refine ⟨heph, fun k d hd => ?_, fun k d hd => ?_, fun k k' hk hk' hsame => ?_, fun k hk => ?_⟩
  · rcases hcases k d hd with ⟨-, hd⟩ | ⟨-, hd⟩
    · exact hprim d hd
    · exact hM.primary k d hd
  · rw [hbuf, hkv]
    rcases hcases k d hd with ⟨rfl, rfl⟩ | ⟨hne, hd⟩
    · obtain ⟨it, rfl, hit⟩ := map_eq_some_iff.mp hsaved
      exact ⟨it, update_self .., hit⟩
    · rw [update_of_ne fun hsame => hne (hother k (by simp [hd]) hsame)]
      exact hM.item k d hd
  · rw [hbuf] at hsame
    obtain ⟨d, hd⟩ := isSome_iff_exists.mp hk
    obtain ⟨d', hd'⟩ := isSome_iff_exists.mp hk'
    rcases hcases k d hd with ⟨rfl, -⟩ | ⟨-, hd⟩
    · rcases hcases k' d' hd' with ⟨rfl, -⟩ | ⟨-, hd'⟩
      · rfl
      · exact (hother k' (by simp [hd']) hsame.symm).symm
    · rcases hcases k' d' hd' with ⟨rfl, -⟩ | ⟨-, hd'⟩
      · exact hother k (by simp [hd]) hsame
      · exact hM.one k k' (by simp [hd]) (by simp [hd']) hsame
  · rw [hbuf, hkv] at hk
    rw [hbuf]
    by_cases hsame : ov.makeBufferKey k = ov.makeBufferKey key
    · rw [hsame, update_self] at hk
      refine ⟨key, ?_, hsame.symm⟩
      rw [hentry, if_pos rfl, ← isSome_map, ← hsaved, isSome_map]
      exact hk
    · rw [update_of_ne hsame] at hk
      obtain ⟨k', hk', hsame'⟩ := hM.only k hk
      refine ⟨k', ?_, hsame'⟩
      rw [hentry, if_neg (fun h => hsame (by rw [← hsame', h]))]
      exact hk'

omit [RuntimeObject α] in
theorem skipsKv_false (heph : ov.ephemeral = false) (hres : ctx.restore = false)
    (hprim : e.primary = true) : ov.skipsKv ctx e = false := by
  simp [skipsKv, heph, hres, hprim]

/-- **An accepted call keeps the items and the entries together.** -/
theorem Mirrored.step (hM : Mirrored ov) (hres : ctx.restore = false) (hrec : ov.Records req a) {n : Int}
    (hst : Staged ov n ctx req a out) (hok : out.result = .ok ()) (hfail : out.kv ≠ .error .failed) :
    Mirrored out.ov := by
  have hskip : ∀ (ov1 : Overlay α) (d : OverlayObj α), ov1.ephemeral = ov.ephemeral →
      d.primary = true → ov1.skipsKv ctx d = false :=
    fun ov1 d heph hprim => skipsKv_false (heph.trans hM.stored) hres hprim
  cases hst with
  | rejected m err kv _ => cases hok
  | spoiled _ err hfailed => cases hfailed.symm.trans hok
  | fresh e uri kv habsent hnamed _ _ hkv hcreated =>
    have horig : kv = .ok () ∨ e.orig.isSome := by
      refine hcreated.imp_right ?_
      rintro ⟨obj, rfl⟩
      rw [hnamed.orig]
      exact hrec
    obtain ⟨hfree, hov⟩ := (createKvObj_saves (ov.counted n) ctx uri req.key e).wrote
      (hskip _ e rfl hnamed.primary) (hkv ▸ horig) (hkv ▸ hfail)
    rw [hov]
    exact hM.change (fun _ he => Option.some.inj he ▸ hnamed.primary) rfl
      (.inr (isNone_iff_eq_none.mp (isSome_eq_false_iff.mp hfree))) hM.stored rfl
      (entry_put _ req.key · e) rfl
  | revived obj e0 ov' kv hthere _ _ hkv =>
    obtain ⟨kind, hs⟩ := updateKvObj_saves hkv
    cases (hs.wrote (hskip _ _ rfl rfl) (.inr hrec) hfail).2
    exact hM.change (fun _ he => Option.some.inj he ▸ rfl) rfl (.inl (by simp [hthere]))
      hM.stored rfl (entry_put (ov.counted n) req.key · _) rfl
  | replaced e0 e ov' _ hthere hnamed _ hkv =>
    obtain ⟨kind, hs⟩ := updateKvObj_saves hkv
    cases (hs.wrote (hskip _ e rfl hnamed.primary) (.inl rfl) hfail).2
    exact hM.change (fun _ he => Option.some.inj he ▸ hnamed.primary) rfl
      (.inl (by simp [hthere])) hM.stored rfl (entry_put_put · e) rfl
  | deleted into e0 e ov' hthere hcached hnamed hoper hkv =>
    obtain ⟨kind, hs⟩ := updateKvObj_saves hkv
    cases (hs.wrote (hskip _ { e0 with oper := .delete } rfl (hM.primary req.key e0 hthere))
      (.inl rfl) hfail).2
    refine hM.change (fun _ he => Option.some.inj he ▸ hnamed.primary) ?_
      (.inl (by simp [hthere])) hM.stored rfl (entry_put_put · e) rfl
    -- what was persisted are the names of the entry before the delete
    obtain ⟨hservice, hmethod, horig⟩ := hrec e0 hthere hcached
    show some (Oper.delete, e0.serviceName, e0.methodName, e0.orig) = some e.saved
    rw [saved, hoper, hnamed.serviceName, hnamed.methodName, hnamed.orig, hservice, hmethod, horig]
  | removed into e0 hthere _ hkv =>
    obtain ⟨-, hov⟩ := (deleteKvObj_saves (ov.counted n) ctx req.key e0).wrote
      (hskip _ e0 rfl (hM.primary req.key e0 hthere)) (.inl hkv) (hkv ▸ hfail)
    rw [hov]
    refine hM.change ?_ ?_ (.inl (by simp [hthere])) hM.stored rfl (entry_erase _ req.key) rfl
    · exact nofun
    · rfl

omit [RuntimeObject α] in
theorem Mirrored.start (hov : ov.overlay = ∅) (heph : ov.ephemeral = false)
    (hkv : ∀ k, ov.kv (ov.makeBufferKey k) = none) : Mirrored ov := by
  have hentry : ∀ k, ov.entry k = none := fun k => by simp [entry, hov]
  refine ⟨heph, fun k e he => ?_, fun k e he => ?_, fun k k' hk => ?_, fun k hk => ?_⟩
  · cases (hentry k).symm.trans he
  · cases (hentry k).symm.trans he
  · rw [hentry k] at hk
    cases hk
  · rw [hkv k] at hk
    cases hk

theorem Mirrored.of_persisting (hr : Persisting Overlay.Records ov) : Mirrored ov := by
  refine hr.invariant (fun ov h => .start h.1 h.2.2.1 h.2.2.2) ?_
  rintro ov _ hM ⟨ctx, req, a, out, hdry, hpc, hres, hrec, hs, hok, hfail, rfl⟩
  exact hM.step hres hrec (stage_staged hdry hpc (hM.primary req.key) hs).1 hok hfail

/-! ### Restoring -/

/-- What the methods of the API server stage: the key, the URI and the operation of the
invocation of a method of a service on an object. -/
structure Server (α : Type) where
  call : Name → Name → α → Option (Key × Name × Action α)

/-- `restoreKvObj`: the method that the item names is invoked on its object.  What cannot be
restored is logged. -/
def Overlay.restoreKvObj (srv : Server α) (ov : Overlay α) (item : BufferItem α) : Option (Overlay α) :=
  match item.object with
  | none => some ov
  | some obj =>
    match srv.call item.service item.method obj with
    | none => some ov
    | some (key, uri, a) => do
        let out ← ov.stage { restore := true }
          { service := item.service, method := item.method, uri := uri, key := key, orig := some obj } a
        some out.ov

/-- The overlay that `restoreOverlays` makes before it restores the items. -/
def Overlay.renewed (ov : Overlay α) : Overlay α :=
  { ov with overlay := ∅, primaryCount := 0, ephemeral := false }

/-- `restoreOverlays`, for the items of one overlay. -/
def Overlay.restoreOverlay (srv : Server α) (ov : Overlay α) (items : List (BufferItem α)) :
    Option (Overlay α) :=
  items.foldlM (restoreKvObj srv) ov.renewed

/-- The list of the items of the overlay in the store, in some order. -/
def Overlay.Lists (ov : Overlay α) (items : List (BufferItem α)) : Prop :=
  ∃ keys : List Key, keys.Nodup ∧ keys.map ov.kv = items.map some ∧
    ∀ q, q ∈ keys ↔ (ov.kv q).isSome ∧ ∃ k, ov.makeBufferKey k = q

/-- The call is made by a method of the server.  A create is not staged over an entry, and an
update over one only if the cache has the object. -/
def Server.Replays (srv : Server α) (ov : Overlay α) (req : Overlay.Request α) (a : Action α) : Prop :=
  (∃ obj, req.orig = some obj ∧ srv.call req.service req.method obj = some (req.key, req.uri, a)) ∧
    ((ov.entry req.key).isSome →
      match a with
      | .create _ => False
      | .update _ _ _ => (ov.cache req.key).isSome
      | .delete _ => True)

/-- The entry is what its method stages on its original. -/
structure Replayed (srv : Server α) (base : Option α) (k : Key) (e : OverlayObj α) : Prop where
  service : e.serviceName ≠ []
  method : e.methodName ≠ []
  call : ∃ obj uri a, e.orig = some obj ∧
    srv.call e.serviceName e.methodName obj = some (k, uri, a) ∧ Fits base e.oper a

/-- All entries can be staged again. -/
structure Replayable (srv : Server α) (ov : Overlay α) : Prop where
  replayed : ∀ k e, ov.entry k = some e → Replayed srv (ov.cache k) k e
  counted : (ov.overlay.keys.length : Int) ≤ ov.primaryCount
  room : ov.primaryCount ≤ ov.maxOvEntries

variable {srv : Server α}

/-- An insertion adds at most one key. -/
theorem keys_insert_le {κ β : Type} [DecidableEq κ] (m : GoMap κ β) (k : κ) (b : β) :
    (m.insert k b).keys.length ≤ m.keys.length + 1 := by
  rw [AList.keys_insert, List.length_cons]
  exact Nat.succ_le_succ List.length_erase_le

theorem keys_erase_le {κ β : Type} [DecidableEq κ] (m : GoMap κ β) (k : κ) :
    (m.erase k).keys.length ≤ m.keys.length + 1 := by
  rw [AList.keys_erase]
  exact List.length_erase_le.trans (Nat.le_succ _)

/-- **An accepted call that replays keeps all entries replayable.** -/
theorem Replayable.step (hR : Replayable srv ov) (hprim : ∀ k e, ov.entry k = some e → e.primary = true)
    (heph : ov.ephemeral = false) (hdry : ctx.dryRun = none) (hpc : ctx.preCommitApply = false)
    (hrep : srv.Replays ov req a) (hs : ov.stage ctx req a = some out) (hok : out.result = .ok ()) :
    Replayable srv out.ov := by
  obtain ⟨hst, hchecked⟩ := stage_staged hdry hpc (hprim req.key) hs
  obtain ⟨hroom, hnames⟩ := hchecked hok
  obtain ⟨hservice, hmethod⟩ := hnames heph
  obtain ⟨⟨obj, horig, hcall⟩, hover⟩ := hrep
  rcases hst.leaves (.inl hok) with ⟨_, _, herr, -⟩ | ⟨oe, kv, -, hov, hleft⟩
  · cases hok.symm.trans herr
  rw [hov]
  refine ⟨fun k d hd => ?_, ?_, hroom⟩
  · rw [entry_leaving] at hd
    split_ifs at hd with hk
    · subst hk hd
      cases hleft with
      | revived obj e0 hthere _ _ => exact absurd (hover (by simp [hthere])) id
      | named e hnamed _ hfits =>
        have hfits' : Fits (ov.cache req.key) d.oper a := by
          rcases hfits with hfits | ⟨hthere, hnone, _, _, _, rfl⟩
          · exact hfits
          · exact absurd (hover hthere) (by simp [hnone])
        refine ⟨by rwa [hnamed.serviceName], by rwa [hnamed.methodName], obj, req.uri, a, ?_, ?_, hfits'⟩
        · rw [hnamed.orig, horig]
        · rw [hnamed.serviceName, hnamed.methodName, hcall]
    · exact hR.replayed k d hd
  · have hle : (ov.leaving (ov.primaryCount + 1) kv req.key oe).overlay.keys.length
        ≤ ov.overlay.keys.length + 1 := by
      cases oe with
      | none => exact keys_erase_le ..
      | some e => exact keys_insert_le ..
    have hold := hR.counted
    show (_ : Int) ≤ ov.primaryCount + 1
    omega

theorem Replayable.of_persisting (hr : Persisting (fun ov req a => ov.Records req a ∧
    srv.Replays ov req a) ov) : Mirrored ov ∧ Replayable srv ov := by
  refine hr.invariant (I := fun ov => Mirrored ov ∧ Replayable srv ov)
    (fun ov h => ⟨.start h.1 h.2.2.1 h.2.2.2, ?_⟩) ?_
  · obtain ⟨hov, hcount, -⟩ := h
    refine ⟨fun k e he => ?_, ?_, ?_⟩
    · simp [entry, hov] at he
    · simp [hov, hcount]
    · simp [hcount]
  · rintro ov _ ⟨hM, hR⟩ ⟨ctx, req, a, out, hdry, hpc, hres, ⟨hrec, hrep⟩, hs, hok, hfail, rfl⟩
    exact ⟨hM.step hres hrec (stage_staged hdry hpc (hM.primary req.key) hs).1 hok hfail,
      hR.step hM.primary hM.stored hdry hpc hrep hs hok⟩

/-- Staging the operation of an entry again, on a key without entry. -/
theorem stage_again {service method : Name} (uri : Name) (orig : Option α) {oper : Oper}
    (hentry : ov.entry key = none) (hroom : ov.primaryCount < ov.maxOvEntries) (hservice : service ≠ [])
    (hmethod : method ≠ []) (hfits : Fits (ov.cache key) oper a) :
    ∃ e out, ov.stage { restore := true } ⟨service, method, uri, key, orig⟩ a = some out ∧
      out.ov = (ov.counted (ov.primaryCount + 1)).put key e ∧ e.saved = (oper, service, method, orig) := by
  have hmany : ¬ (ov.maxOvEntries : Int) < ov.primaryCount + 1 := by omega
  have hnames : ¬ ((!ov.ephemeral) = true ∧ (service = [] ∨ method = [])) := by
    rintro ⟨-, h | h⟩
    · exact hservice h
    · exact hmethod h
  simp only [stage_eq, stagePrimary, isNone_none, if_true, if_neg hmany, if_neg hnames]
  change ∃ e out, (ov.counted (ov.primaryCount + 1)).perform _ _ a = some out ∧ _
  have hentry' : (ov.counted (ov.primaryCount + 1)).entry key = none := hentry
  have hfind : (ov.counted (ov.primaryCount + 1)).findObjects key = none := by
    simp [findObjects, hentry']
  have hskip : ∀ (ov1 : Overlay α) (d : OverlayObj α), ov1.skipsKv { restore := true } d = true :=
    fun ov1 d => by simp [skipsKv]
  change Fits ((ov.counted (ov.primaryCount + 1)).cache key) oper a at hfits
  cases oper with
  | create =>
    obtain ⟨hcache, o, rfl, hmeta⟩ := hfits
    simp only [perform, create, hcache, hfind, hmeta, createKvObj, hskip]
    exact ⟨_, _, rfl, rfl, rfl⟩
  | update =>
    obtain ⟨hcache, resVer, o, updateFn, rfl⟩ := hfits
    simp only [perform, Overlay.update, hcache, hentry', hfind, Overlay.updateEntry,
      Overlay.createKvObj, hskip]
    exact ⟨_, _, rfl, rfl, rfl⟩
  | delete =>
    obtain ⟨hcache, into, rfl⟩ := hfits
    obtain ⟨b, hb⟩ := isSome_iff_exists.mp hcache
    simp only [perform, delete, hb, hentry', hfind, createKvObj, hskip]
    exact ⟨_, _, rfl, rfl, rfl⟩

/-- One item is restored. -/
theorem restoreKvObj_again {item : BufferItem α} (hsaved : item.saved = e.saved)
    (hreplayed : Replayed srv (ov.cache key) key e) (hentry : ov.entry key = none)
    (hroom : ov.primaryCount < ov.maxOvEntries) :
    ∃ e', ov.restoreKvObj srv item = some ((ov.counted (ov.primaryCount + 1)).put key e') ∧
      e'.saved = e.saved := by
  obtain ⟨hservice, hmethod, obj, uri, a, horig, hcall, hfits⟩ := hreplayed
  simp only [BufferItem.saved, saved, Prod.mk.injEq] at hsaved
  obtain ⟨-, hs, hm, ho⟩ := hsaved
  obtain ⟨e', out, hstage, hov, hsaved'⟩ := stage_again uri (some obj) hentry hroom hservice
    hmethod hfits
  refine ⟨e', ?_, ?_⟩
  · simp only [restoreKvObj, ho, horig, hs, hm, hcall, hstage]
    exact congrArg some hov
  · rw [hsaved', saved, horig]

/-- **All items are restored.**  The induction is on the items that are left: those entries
are not there yet. -/
theorem restore_items (hM : Mirrored ov) (hR : Replayable srv ov) (keys : List Key)
    (items : List (BufferItem α)) (hitems : keys.map ov.kv = items.map some) (hnodup : keys.Nodup)
    (hkeys : ∀ q ∈ keys, ∃ k, ov.makeBufferKey k = q) (ov1 : Overlay α) (hcache : ov1.cache = ov.cache)
    (hroom : ov1.primaryCount + keys.length ≤ ov1.maxOvEntries)
    (hleft : ∀ k, ov.makeBufferKey k ∈ keys → ov1.entry k = none) :
    ∃ ov', items.foldlM (restoreKvObj srv) ov1 = some ov' ∧ ∀ k,
      (ov'.entry k).map saved =
        if ov.makeBufferKey k ∈ keys ∧ (ov.entry k).isSome then (ov.entry k).map saved
        else (ov1.entry k).map saved := by
  induction keys generalizing items ov1 with
  | nil =>
    obtain rfl : items = [] := by simpa using hitems.symm
    exact ⟨ov1, rfl, fun k => by simp⟩
  | cons q keys ih =>
    cases items with
    | nil => cases hitems
    | cons item items =>
      obtain ⟨hitem, htail⟩ := List.cons.inj hitems
      obtain ⟨hq, hrest⟩ := List.nodup_cons.mp hnodup
      obtain ⟨k0, rfl⟩ := hkeys q List.mem_cons_self
      -- the entry whose item this is
      obtain ⟨k, hk, hsame⟩ := hM.only k0 (by rw [hitem]; rfl)
      rw [← hsame] at hitem hq hleft
      obtain ⟨e, he⟩ := isSome_iff_exists.mp hk
      obtain ⟨item', hitem', hsaved⟩ := hM.item k e he
      cases hitem.symm.trans hitem'
      simp only [List.length_cons] at hroom
      obtain ⟨e', hstep, hsaved'⟩ := restoreKvObj_again hsaved
        (hcache ▸ hR.replayed k e he) (hleft k List.mem_cons_self) (by omega)
      obtain ⟨ov', hfold, hentries⟩ := ih items htail hrest
        (fun q hq => hkeys q (List.mem_cons_of_mem _ hq))
        ((ov1.counted (ov1.primaryCount + 1)).put k e') hcache
        (by show ov1.primaryCount + 1 + keys.length ≤ ov1.maxOvEntries; omega)
        (fun k' hk' => by
          rw [entry_put, if_neg (fun h => hq (by rw [← h]; exact hk'))]
          exact hleft k' (List.mem_cons_of_mem _ hk'))
      refine ⟨ov', by rw [List.foldlM_cons, hstep]; exact hfold, fun k' => ?_⟩
      rw [hentries k', ← hsame, entry_put]
      by_cases hkk : k' = k
      · subst hkk
        simp [hq, he, hsaved']
      have hne : (ov.entry k').isSome → ov.makeBufferKey k' ≠ ov.makeBufferKey k :=
        fun hsome h => hkk (hM.one k' k hsome hk h)
      rw [if_neg hkk]
      by_cases hsome : (ov.entry k').isSome
      · simp only [List.mem_cons, hne hsome, false_or]
        rfl
      · rw [if_neg fun h => hsome h.2, if_neg fun h => hsome h.2]
        rfl

omit [RuntimeObject α] in
/-- There are no more items than entries. -/
theorem Mirrored.length_le (hM : Mirrored ov) {keys : List Key} (hnodup : keys.Nodup)
    (hkeys : ∀ q ∈ keys, (ov.kv q).isSome ∧ ∃ k, ov.makeBufferKey k = q) :
    keys.length ≤ ov.overlay.keys.length := by
  have hsub : keys ⊆ ov.overlay.keys.map ov.makeBufferKey := by
    intro q hq
    obtain ⟨hsome, k, rfl⟩ := hkeys q hq
    obtain ⟨k', hk', hsame⟩ := hM.only k hsome
    refine List.mem_map.mpr ⟨k', ?_, hsame⟩
    exact AList.mem_keys.mp (AList.lookup_isSome.mp hk')
  simpa using (List.subperm_of_subset hnodup hsub).length_le

/-! ### The main theorem -/

/-- **The buffer items are those of the entries.**  In a run in which creates have an
original, and a delete over the entry of an object of the cache has the names and the
original of the entry, each entry is primary and has an item with its operation, service,
method and object, and each item is that of one entry.  If moreover all calls are made by
methods of the server, no create is staged over an entry and no update over a created one,
then restoring the overlay from the items, in any order, gives the same entries. -/
theorem buffer_mirrors_overlay (ov : Overlay α) (hr : Persisting Overlay.Records ov) :
    (∀ k e, ov.entry k = some e → e.primary = true ∧
      ∃ item, ov.kv (ov.makeBufferKey k) = some item ∧ item.saved = e.saved) ∧
    (∀ k, (ov.kv (ov.makeBufferKey k)).isSome →
      ∃! k', (ov.entry k').isSome ∧ ov.makeBufferKey k' = ov.makeBufferKey k) ∧
    ∀ srv : Server α, Persisting (fun ov req a => ov.Records req a ∧ srv.Replays ov req a) ov →
      ∀ items, ov.Lists items → ∃ ov', ov.restoreOverlay srv items = some ov' ∧
        ∀ k, (ov'.entry k).map saved = (ov.entry k).map saved := by
  have hM := Mirrored.of_persisting hr
  refine ⟨fun k e he => ⟨hM.primary k e he, hM.item k e he⟩, fun k hk => ?_, fun srv hrep items hl => ?_⟩
  · obtain ⟨k', hk', hsame⟩ := hM.only k hk
    exact ⟨k', ⟨hk', hsame⟩, fun k1 ⟨hk1, hsame1⟩ => hM.one k1 k' hk1 hk' (hsame1.trans hsame.symm)⟩
  · obtain ⟨-, hR⟩ := Replayable.of_persisting hrep
    obtain ⟨keys, hnodup, hitems, hkeys⟩ := hl
    have hlen : keys.length ≤ ov.maxOvEntries := by
      have hle := hM.length_le hnodup fun q hq => (hkeys q).mp hq
      have hcounted := hR.counted
      have hroom := hR.room
      omega
    have hempty : ∀ k, ov.renewed.entry k = none := fun k => by simp [entry, renewed]
    obtain ⟨ov', hov', hentries⟩ := restore_items hM hR keys items hitems hnodup
      (fun q hq => ((hkeys q).mp hq).2) ov.renewed rfl (by simpa [renewed] using hlen)
      fun k _ => hempty k
    refine ⟨ov', hov', fun k => ?_⟩
    rw [hentries k, hempty k]
    cases he : ov.entry k with
    | none => simp
    | some e =>
      obtain ⟨item, hitem, -⟩ := hM.item k e he
      rw [if_pos ⟨(hkeys _).mpr ⟨by simp [hitem], k, rfl⟩, rfl⟩]

/-! ### Runs on small objects -/

/-- A server with one method for each operation on the key of the small objects. -/
def docServer : Server Doc where
  call := fun _ method doc =>
    match method with
    | ['C'] => some (keyDoc, [], .create (some doc))
    | ['U'] => some (keyDoc, [], .update [] (some doc) false)
    | ['D'] => some (keyDoc, [], .delete true)
    | _ => none

/-- An empty overlay over an empty cache. -/
def blankOverlay : Overlay Doc := { docOverlay with cache := fun _ => none }

omit [RuntimeObject α] in
/-- A store with one item. -/
theorem lists_singleton (key : Key) {item : BufferItem α}
    (hkv : ov.kv = update (fun _ => none) (ov.makeBufferKey key) (some item)) :
    ov.Lists [item] := by
  refine ⟨[ov.makeBufferKey key], List.nodup_singleton _, ?_, fun q => ?_⟩
  · rw [hkv, List.map_singleton, update_self, List.map_singleton]
  · rw [List.mem_singleton, hkv]
    constructor
    · rintro rfl
      exact ⟨by rw [update_self]; rfl, key, rfl⟩
    · rintro ⟨hsome, -⟩
      by_contra hne
      rw [update_of_ne hne] at hsome
      cases hsome

/-- An update is replaced by another one, and restored. -/
theorem buffer_mirrors_overlay_update :
    ∃ ov : Overlay Doc, Persisting Overlay.Records ov ∧
      ∃ e item, ov.entry keyDoc = some e ∧ ov.kv (ov.makeBufferKey keyDoc) = some item ∧
        item.saved = e.saved ∧ item.object = some { body := 3 } ∧
        ∃ ov', ov.restoreOverlay docServer [item] = some ov' ∧
          (ov'.entry keyDoc).map saved = some e.saved := by
  have h0 : Persisting Overlay.Records docOverlay := .start ⟨rfl, rfl, rfl, fun k => rfl⟩
  have r0 : Persisting (fun ov req a => ov.Records req a ∧ docServer.Replays ov req a) docOverlay :=
    .start ⟨rfl, rfl, rfl, fun k => rfl⟩
  have h1 := h0.step ⟨{}, docRequest ['U'] { body := 2 }, .update [] (some { body := 2 }) false, _, rfl,
    rfl, rfl, trivial, rfl, rfl, nofun, rfl⟩
  have h2 := h1.step ⟨{}, docRequest ['U'] { body := 3 }, .update [] (some { body := 3 }) false, _, rfl,
    rfl, rfl, trivial, rfl, rfl, nofun, rfl⟩
  have r1 := r0.step ⟨{}, docRequest ['U'] { body := 2 }, .update [] (some { body := 2 }) false, _, rfl,
    rfl, rfl, ⟨trivial, ⟨_, rfl, rfl⟩, fun h => (by cases h)⟩, rfl, rfl, nofun, rfl⟩
  have r2 := r1.step ⟨{}, docRequest ['U'] { body := 3 }, .update [] (some { body := 3 }) false, _, rfl,
    rfl, rfl, ⟨trivial, ⟨_, rfl, rfl⟩, fun _ => rfl⟩, rfl, rfl, nofun, rfl⟩
  obtain ⟨-, -, hrestore⟩ := buffer_mirrors_overlay _ h2
  obtain ⟨ov', hov', hsame⟩ := hrestore docServer r2 _ (lists_singleton keyDoc (update_idem ..))
  exact ⟨_, h2, _, _, rfl, rfl, rfl, rfl, ov', hov', hsame keyDoc⟩

/-- A delete over an update is persisted with the method of the update.  A create without
original has no item.  An update over a create leaves an item that cannot be restored, and
a create over a delete is restored as a delete. -/
theorem not_buffer_mirrors_overlay :
    (∃ ov : Overlay Doc, Persisting (fun _ _ _ => True) ov ∧ ∃ e item, ov.entry keyDoc = some e ∧
      ov.kv (ov.makeBufferKey keyDoc) = some item ∧ e.methodName = ['D'] ∧ item.method = ['U']) ∧
    (∃ ov : Overlay Doc, Persisting (fun _ _ _ => True) ov ∧ (ov.entry keyDoc).isSome ∧
      ov.kv (ov.makeBufferKey keyDoc) = none) ∧
    (∃ ov : Overlay Doc, Persisting (fun _ _ _ => True) ov ∧ (ov.entry keyDoc).isSome ∧
      ∃ items, ov.Lists items ∧ ∃ ov', ov.restoreOverlay docServer items = some ov' ∧
        (ov'.entry keyDoc).isNone) ∧
    ∃ ov : Overlay Doc, Persisting (fun _ _ _ => True) ov ∧
      (ov.entry keyDoc).map oper = some .update ∧
      ∃ items, ov.Lists items ∧ ∃ ov', ov.restoreOverlay docServer items = some ov' ∧
        (ov'.entry keyDoc).map oper = some .delete := by
  have h0 : Persisting (fun _ _ _ => True) docOverlay := .start ⟨rfl, rfl, rfl, fun k => rfl⟩
  have b0 : Persisting (fun _ _ _ => True) blankOverlay := .start ⟨rfl, rfl, rfl, fun k => rfl⟩
  refine ⟨?_, ?_, ?_, ?_⟩
  · have h1 := h0.step ⟨{}, docRequest ['U'] { body := 2 }, .update [] (some { body := 2 }) false, _, rfl,
      rfl, rfl, trivial, rfl, rfl, nofun, rfl⟩
    have h2 := h1.step ⟨{}, docRequest ['D'] { body := 1 }, .delete true, _, rfl, rfl, rfl, trivial, rfl,
      rfl, nofun, rfl⟩
    exact ⟨_, h2, _, _, rfl, rfl, rfl, rfl⟩
  · have b1 := b0.step ⟨{}, { docRequest ['C'] { body := 2 } with orig := none },
      .create (some { body := 2 }), _, rfl, rfl, rfl, trivial, rfl, rfl, nofun, rfl⟩
    exact ⟨_, b1, rfl, rfl⟩
  · have b1 := b0.step ⟨{}, docRequest ['C'] { body := 2 }, .create (some { body := 2 }), _, rfl, rfl, rfl,
      trivial, rfl, rfl, nofun, rfl⟩
    have b2 := b1.step ⟨{}, docRequest ['U'] { body := 3 }, .update [] (some { body := 3 }) false, _, rfl,
      rfl, rfl, trivial, rfl, rfl, nofun, rfl⟩
    exact ⟨_, b2, rfl, _, lists_singleton keyDoc (update_idem ..), _, rfl, rfl⟩
  · have h1 := h0.step ⟨{}, docRequest ['D'] { body := 1 }, .delete true, _, rfl, rfl, rfl, trivial, rfl,
      rfl, nofun, rfl⟩
    have h2 := h1.step ⟨{}, docRequest ['C'] { body := 2 }, .create (some { body := 2 }), _, rfl, rfl, rfl,
      trivial, rfl, rfl, nofun, rfl⟩
    exact ⟨_, h2, rfl, _, lists_singleton keyDoc (update_idem ..), _, rfl, rfl⟩

end NicSw.Staging
