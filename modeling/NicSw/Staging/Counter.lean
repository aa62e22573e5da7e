/-
How many operations a staging buffer takes.

The overlay counts primary operations and refuses more than it may hold.  The count goes up
before an operation is tried and stays up when the operation is rejected.  `ClearBuffer` of
a list of URIs takes one off for every entry, cleared or not, and `Commit` can leave a stale
count behind.  Where none of this happens, the count is the number of accepted operations.
-/
import NicSw.Staging.Net

namespace NicSw.Staging

open Overlay

open NicSw.ApiCache (GoMap Key)

variable {α : Type} [RuntimeObject α]

/-! ### Clearing and committing -/

/-- An entry of the overlay with its key. -/
abbrev Item (α : Type) := Sigma fun _ : Key => OverlayObj α

/-- An entry is taken out, and its buffer item. -/
def Overlay.drop (ctx : Ctx) (ov : Overlay α) (x : Item α) : Overlay α :=
  let ov := (ov.deleteKvObj ctx x.1 x.2).1
  { ov with overlay := ov.overlay.erase x.1 }

/-- The primary entries. -/
def Overlay.primaries (ov : Overlay α) : List (Item α) := ov.overlay.entries.filter (·.2.primary)

/-- `ClearBuffer`.  For a list of URIs every primary entry takes one off the count, also
those that are not in the list. -/
def Overlay.clearBuffer (ov : Overlay α) (ctx : Ctx) (uris : List Name) : Overlay α :=
  if uris ≠ [] then
    (ov.primaries.filter (·.2.uri ∈ uris)).foldl (drop ctx)
      (ov.counted (ov.primaryCount - ov.primaries.length))
  else (ov.overlay.entries.foldl (drop ctx) ov).counted 0

/-- What a call of `commitDirect` does. -/
inductive Attempt
  | committed
  | failed (retry : Bool)
  deriving DecidableEq

/-- The loop of `commit`, with the turns that are left: the number of attempts and whether
the last one committed; `none` is a return with an error. -/
def commitLoop (largeBuffer : Bool) (attempt : Nat → Attempt) : Nat → Nat → Option (Nat × Bool)
  | 0, retries => some (retries, false)
  | turns + 1, retries =>
    match attempt retries with
    | .committed => some (retries + 1, true)
    | .failed retry =>
      if largeBuffer || retry then commitLoop largeBuffer attempt turns (retries + 1) else none

/-- The calls of `commitDirect` by `commit`. -/
def commitRetries (largeBuffer : Bool) (attempt : Nat → Attempt) : Option (Nat × Bool) :=
  commitLoop largeBuffer attempt (if largeBuffer then 3 else 10) 0

/-- `commit`.  The transactions leave `cache` and `kv`. -/
def Overlay.commit (ov : Overlay α) (cache : Key → Option α) (kv : Key → Option (BufferItem α))
    (largeBuffer : Bool) (attempt : Nat → Attempt) : Overlay α :=
  let ov := { ov with cache := cache, kv := kv }
  match commitRetries largeBuffer attempt with
  | none => ov
  | some (retries, committed) =>
    let ov := if committed then { ov with overlay := ∅ } else ov
    -- the tenth attempt may have committed
    if retries = 10 then ov else ov.counted 0

/-! ### Runs -/

/-- An overlay with the keys of the operations that were accepted since it was emptied, but
for those that were cleared. -/
structure Tally (α : Type) where
  ov : Overlay α
  accepted : List Key

/-- The calls. -/
inductive Call (α : Type)
  | stage (ctx : Ctx) (req : Overlay.Request α) (a : Action α)
  | clear (ctx : Ctx) (uris : List Name)
  | commit (cache : Key → Option α) (kv : Key → Option (BufferItem α)) (largeBuffer : Bool)
      (attempt : Nat → Attempt)

/-- The entry of the key is one that `ClearBuffer` of the URIs takes out. -/
def Overlay.Cleared (ov : Overlay α) (uris : List Name) (key : Key) : Bool :=
  (ov.entry key).any fun e => e.primary && (e.uri ∈ uris)

/-- A call; `none` is a panic. -/
def Tally.next (t : Tally α) : Call α → Option (Tally α)
  | .stage ctx req a => (t.ov.stage ctx req a).map fun out =>
    { ov := out.ov
      accepted := match out.result with
        | .ok _ => req.key :: t.accepted
        | .error _ => t.accepted }
  | .clear ctx uris => some
    { ov := t.ov.clearBuffer ctx uris
      accepted := if uris = [] then [] else t.accepted.filter fun k => !t.ov.Cleared uris k }
  | .commit cache kv largeBuffer attempt => some
    { ov := t.ov.commit cache kv largeBuffer attempt
      accepted := if (commitRetries largeBuffer attempt).any Prod.snd then [] else t.accepted }

variable {ov : Overlay α} {ctx : Ctx} {req : Overlay.Request α} {out : Outcome α} {a : Action α}

/-- The call changes the count as it should: an operation is accepted if there is room, a
list of URIs names as many accepted operations as there are entries, it is not the tenth
attempt that commits, and of a large buffer one attempt does. -/
def Tally.Meets (t : Tally α) : Call α → Prop
  | .stage ctx req a => ctx.dryRun = none ∧ ctx.preCommitApply = false ∧
      (t.ov.primaryCount < t.ov.maxOvEntries → t.ov.Accepts ctx req a)
  | .clear _ uris => uris = [] ∨ t.ov.primaries.length =
      (t.accepted.filter (t.ov.Cleared uris)).length
  | .commit _ _ largeBuffer attempt =>
    if largeBuffer then ∃ i < 3, attempt i = .committed else attempt 9 ≠ .committed

/-- The runs from an empty overlay whose calls are all allowed by `ok`. -/
def Tallied (ok : Tally α → Call α → Prop) : Tally α → Prop :=
  Reachable (fun t => t.ov.overlay = ∅ ∧ t.ov.primaryCount = 0 ∧ t.accepted = [])
    fun t t' => ∃ c, ok t c ∧ t.next c = some t'

/-- The count is the number of accepted operations, and each entry is of one of them. -/
structure Tally.Right (t : Tally α) : Prop where
  count : t.ov.primaryCount = t.accepted.length
  room : t.ov.primaryCount ≤ t.ov.maxOvEntries
  entry : ∀ k e, t.ov.entry k = some e → e.primary = true ∧ k ∈ t.accepted

/-! ### Staging -/

/-- A full overlay refuses the operation and stays as it is. -/
theorem stage_full (hdry : ctx.dryRun = none) (hfull : ov.maxOvEntries ≤ ov.primaryCount)
    (h : ov.stage ctx req a = some out) : out = { ov := ov, result := .error .tooMany } := by
  rcases stage_cases hdry h with ⟨-, hout⟩ | ⟨⟨hroom, -⟩, -⟩
  · exact hout
  · omega

theorem Overlay.Accepts.clean (h : ov.Accepts ctx req a) : ov.Clean ctx req a := by
  intro he
  cases a with
  | create obj => trivial
  | update resVer obj updateFn =>
    obtain ⟨o, rfl, hw, horig, hacc⟩ := h
    refine ⟨hw.of_entry he, horig, fun hc o' ho => ?_⟩
    obtain ⟨e, he⟩ := Option.isSome_iff_exists.mp he
    rw [Option.isNone_iff_eq_none.mp hc, he] at hacc
    exact Option.some.inj ho ▸ hacc.2
  | delete into => exact fun _ => h.1.of_entry he

/-- What an operation does that is accepted. -/
theorem stage_accepted (hdry : ctx.dryRun = none) (hpc : ctx.preCommitApply = false)
    (hprim : ∀ e, ov.entry req.key = some e → e.primary = true)
    (hroom : ov.primaryCount < ov.maxOvEntries) (hacc : ov.Accepts ctx req a)
    (h : ov.stage ctx req a = some out) :
    out.result = .ok () ∧ ∃ oe kv, out.ov = ov.leaving (ov.primaryCount + 1) kv req.key oe ∧
      Left ov req a oe := by
  rcases (stage_staged hdry hpc hprim h).1.leaves (.inr hacc.clean) with
    ⟨_, _, _, _, hrefused⟩ | ⟨oe, kv, hok, hov, hleft⟩
  · exact absurd (hrefused hacc) (by omega)
  · exact ⟨hok, oe, kv, hov, hleft⟩

/-! ### Clearing -/

omit [RuntimeObject α] in
theorem drop_eq (ctx : Ctx) (ov : Overlay α) (x : Item α) :
    (ov.drop ctx x).primaryCount = ov.primaryCount ∧
      (ov.drop ctx x).maxOvEntries = ov.maxOvEntries ∧
      ∀ k, (ov.drop ctx x).entry k = if k = x.1 then none else ov.entry k := by
  obtain ⟨m, hm⟩ := (deleteKvObj_saves ov ctx x.1 x.2).eq
  simp only [drop, hm, true_and]
  exact entry_erase { ov with kv := m } x.1

omit [RuntimeObject α] in
/-- Taking out a list of entries. -/
theorem foldl_drop (ctx : Ctx) (l : List (Item α)) (ov : Overlay α) :
    (l.foldl (drop ctx) ov).primaryCount = ov.primaryCount ∧
      (l.foldl (drop ctx) ov).maxOvEntries = ov.maxOvEntries ∧
      ∀ k, (l.foldl (drop ctx) ov).entry k =
        if k ∈ l.map Sigma.fst then none else ov.entry k := by
  induction l generalizing ov with
  | nil => simp
  | cons x l ih =>
    obtain ⟨hcount, hmax, hentry⟩ := ih (ov.drop ctx x)
    obtain ⟨hcount', hmax', hentry'⟩ := drop_eq ctx ov x
    refine ⟨hcount.trans hcount', hmax.trans hmax', fun k => (hentry k).trans ?_⟩
    rw [hentry']
    by_cases hk : k = x.1
    · simp [hk]
    · simp only [List.map_cons, List.mem_cons, hk, false_or, if_false]

omit [RuntimeObject α] in
theorem mem_cleared {ov : Overlay α} {uris : List Name} {k : Key} :
    k ∈ (ov.primaries.filter (·.2.uri ∈ uris)).map Sigma.fst ↔ ov.Cleared uris k = true := by
  simp only [Overlay.Cleared, primaries, List.mem_map, List.mem_filter, Option.any_eq_true,
    Bool.and_eq_true]
  constructor
  · rintro ⟨⟨k, e⟩, ⟨⟨hx, hprim⟩, huri⟩, rfl⟩
    exact ⟨e, AList.mem_lookup_iff.mpr hx, hprim, huri⟩
  · rintro ⟨e, he, hprim, huri⟩
    exact ⟨⟨k, e⟩, ⟨⟨AList.mem_lookup_iff.mp he, hprim⟩, huri⟩, rfl⟩

variable {t : Tally α}

omit [RuntimeObject α] in
/-- Clearing keeps the count right. -/
theorem Tally.Right.clear (ht : t.Right) (ctx : Ctx) {uris : List Name}
    (hmeets : uris = [] ∨ t.ov.primaries.length = (t.accepted.filter (t.ov.Cleared uris)).length) :
    Tally.Right ⟨t.ov.clearBuffer ctx uris,
      if uris = [] then [] else t.accepted.filter fun k => !t.ov.Cleared uris k⟩ := by
  unfold clearBuffer
  by_cases hnil : uris = []
  · obtain ⟨-, hmax, hentry⟩ := foldl_drop ctx t.ov.overlay.entries t.ov
    simp only [hnil, ne_eq, not_true, if_false, if_true]
    refine ⟨rfl, Int.natCast_nonneg _, fun k e he => ?_⟩
    have he' := (hentry k).symm.trans he
    split_ifs at he' with hk
    exact absurd (List.mem_map_of_mem (AList.mem_lookup_iff.mp he')) hk
  · obtain ⟨hcount, hmax, hentry⟩ := foldl_drop ctx (t.ov.primaries.filter (·.2.uri ∈ uris))
      (t.ov.counted (t.ov.primaryCount - t.ov.primaries.length))
    have hlen := hmeets.resolve_left hnil
    have hsplit := List.length_eq_length_filter_add (l := t.accepted) (t.ov.Cleared uris)
    have hold := ht.count
    have hroom := ht.room
    simp only [ne_eq, hnil, not_false_iff, if_true, if_false]
    have hcounted : (t.ov.counted (t.ov.primaryCount - t.ov.primaries.length)).primaryCount =
      t.ov.primaryCount - t.ov.primaries.length := rfl
    refine ⟨by simp only; omega, ?_, fun k e he => ?_⟩
    · have hmax' := hmax.trans (rfl : _ = t.ov.maxOvEntries)
      simp only
      omega
    · have he' := (hentry k).symm.trans he
      split_ifs at he' with hk
      obtain ⟨hprim, hmem⟩ := ht.entry k e he'
      rw [mem_cleared] at hk
      exact ⟨hprim, List.mem_filter.mpr ⟨hmem, by simpa using hk⟩⟩

/-! ### Committing -/

/-- How the loop ends if it does not return. -/
theorem commitLoop_some {largeBuffer : Bool} {attempt : Nat → Attempt} {turns r r' : Nat} {c : Bool}
    (h : commitLoop largeBuffer attempt turns r = some (r', c)) :
    (c = true ∧ ∃ i < r + turns, r' = i + 1 ∧ attempt i = .committed) ∨
      (c = false ∧ r' = r + turns ∧ ∀ i, r ≤ i → i < r + turns → attempt i ≠ .committed) := by
  induction turns generalizing r with
  | zero =>
    cases h
    exact .inr ⟨rfl, rfl, fun i _ _ => by omega⟩
  | succ turns ih =>
    unfold commitLoop at h
    split at h
    · next hc =>
      cases h
      exact .inl ⟨rfl, r, by omega, rfl, hc⟩
    next retry hf =>
    split_ifs at h
    rcases ih h with ⟨rfl, i, hi, hr, hc⟩ | ⟨rfl, rfl, hnone⟩
    · exact .inl ⟨rfl, i, by omega, hr, hc⟩
    · refine .inr ⟨rfl, by omega, fun i hi hlt => ?_⟩
      rcases eq_or_lt_of_le hi with rfl | hi
      · simp [hf]
      · exact hnone i hi (by omega)

omit [RuntimeObject α] in
theorem Tally.Right.commit (ht : t.Right) (cache : Key → Option α)
    (kv : Key → Option (BufferItem α)) {largeBuffer : Bool} {attempt : Nat → Attempt}
    (hmeets : if largeBuffer then ∃ i < 3, attempt i = .committed else attempt 9 ≠ .committed) :
    Tally.Right ⟨t.ov.commit cache kv largeBuffer attempt,
      if (commitRetries largeBuffer attempt).any Prod.snd then [] else t.accepted⟩ := by
  unfold Overlay.commit
  cases hr : commitRetries largeBuffer attempt with
  | none => exact { ht with }
  | some rc =>
    obtain ⟨r, c⟩ := rc
    rcases commitLoop_some hr with ⟨rfl, i, hi, rfl, hc⟩ | ⟨rfl, rfl, hnone⟩
    · have hne : i + 1 ≠ 10 := by
        cases largeBuffer with
        | true => simp at hi; omega
        | false =>
          rintro h
          obtain rfl : i = 9 := by omega
          exact hmeets hc
      simp only [if_neg hne, if_true, Option.any_some]
      exact ⟨rfl, Int.natCast_nonneg _, fun k e he => by simp [Overlay.entry, Overlay.counted] at he⟩
    · cases largeBuffer with
      | true =>
        obtain ⟨i, hi, hc⟩ := hmeets
        exact absurd hc (hnone i (Nat.zero_le i) (by simpa using hi))
      | false => exact { ht with }

/-! ### The main theorem -/

theorem Tally.Right.of_tallied (h : Tallied Tally.Meets t) : t.Right := by
  refine h.invariant (fun t ⟨hov, hcount, hacc⟩ => ⟨by simp [hcount, hacc], by simp [hcount],
    fun k e he => by simp [Overlay.entry, hov] at he⟩) ?_
  rintro t t' ht ⟨c, hmeets, hnext⟩
  cases c with
  | clear ctx uris =>
    cases hnext
    exact ht.clear ctx hmeets
  | commit cache kv largeBuffer attempt =>
    cases hnext
    exact ht.commit cache kv hmeets
  | stage ctx req a =>
    obtain ⟨hdry, hpc, hacc⟩ := hmeets
    obtain ⟨out, hout, rfl⟩ := Option.map_eq_some_iff.mp hnext
    rcases lt_or_ge t.ov.primaryCount t.ov.maxOvEntries with hroom | hfull
    · obtain ⟨hok, oe, kv, hov, hleft⟩ := stage_accepted hdry hpc
        (fun e he => (ht.entry req.key e he).1) hroom (hacc hroom) hout
      simp only [hok, hov]
      refine ⟨by simp [leaving, ht.count], hroom, fun k e he => ?_⟩
      rw [entry_leaving] at he
      split_ifs at he with hk
      · exact ⟨hleft.primary he, hk ▸ List.mem_cons_self⟩
      · exact ⟨(ht.entry k e he).1, List.mem_cons_of_mem _ (ht.entry k e he).2⟩
    · cases stage_full hdry hfull hout
      exact ht

/-- **The buffer refuses an operation only when it is full.**  In a run whose calls meet the
condition, an operation that meets it is refused only if as many accepted operations as the
buffer may hold have not been cleared, and there are never more primary entries than that. -/
theorem operations_counted (t : Tally α) (h : Tallied Tally.Meets t) :
    (∀ ctx req a out err, t.Meets (.stage ctx req a) → t.ov.stage ctx req a = some out →
      out.result = .error err → err = .tooMany ∧ t.ov.maxOvEntries ≤ t.accepted.length) ∧
    t.ov.primaries.length ≤ t.ov.maxOvEntries := by
  have ht := Tally.Right.of_tallied h
  have hcount := ht.count
  have hroom := ht.room
  constructor
  · rintro ctx req a out err ⟨hdry, hpc, hacc⟩ hout herr
    rcases lt_or_ge t.ov.primaryCount t.ov.maxOvEntries with hlt | hfull
    · obtain ⟨hok, -⟩ := stage_accepted hdry hpc (fun e he => (ht.entry req.key e he).1) hlt
        (hacc hlt) hout
      cases hok.symm.trans herr
    · cases stage_full hdry hfull hout
      cases herr
      exact ⟨rfl, by omega⟩
  · have hsub : t.ov.overlay.keys ⊆ t.accepted := fun k hk =>
      (Option.isSome_iff_exists.mp (AList.lookup_isSome.mpr (AList.mem_keys.mpr hk))).elim
        fun e he => (ht.entry k e he).2
    have hle : t.ov.overlay.entries.length ≤ t.accepted.length := by
      simpa [AList.keys, List.keys] using
        (List.subperm_of_subset t.ov.overlay.nodupKeys hsub).length_le
    have hprim : t.ov.primaries.length ≤ t.ov.overlay.entries.length := List.length_filter_le ..
    omega

/-- A buffer for one operation. -/
def oneTally : Tally Doc := ⟨{ docOverlay with maxOvEntries := 1 }, []⟩

/-- A request for another object. -/
def otherRequest : Overlay.Request Doc := { docRequest ['C'] { body := 3 } with key := ['/', 'e'] }

/-- The buffer takes an update, is full then, and refuses a create. -/
theorem operations_counted_update :
    ∃ t : Tally Doc, Tallied Tally.Meets t ∧ t.ov.primaries.length ≤ 1 ∧
      ∃ out, t.ov.stage {} otherRequest (.create (some { body := 3 })) = some out ∧
        out.result = .error .tooMany ∧ t.ov.maxOvEntries ≤ t.accepted.length := by
  have h0 : Tallied Tally.Meets oneTally := .start ⟨rfl, rfl, rfl⟩
  have h1 := h0.step ⟨.stage {} (docRequest ['U'] { body := 2 }) (.update [] (some { body := 2 }) false),
    ⟨rfl, rfl, fun _ => ⟨_, rfl, .inr (.inr ⟨rfl, rfl⟩), .inr (.inr rfl), trivial⟩⟩, rfl⟩
  obtain ⟨hrefused, hroom⟩ := operations_counted _ h1
  exact ⟨_, h1, hroom, _, rfl, rfl, (hrefused {} otherRequest (.create (some { body := 3 })) _ _
    ⟨rfl, rfl, fun h => absurd h (by decide)⟩ rfl rfl).2⟩

/-- A rejected create fills the buffer: the update after it is refused although nothing was
accepted.  Clearing another URI makes room for a second entry. -/
theorem not_operations_counted :
    (∃ t : Tally Doc, Tallied (fun _ _ => True) t ∧ t.accepted = [] ∧ t.ov.maxOvEntries = 1 ∧
      ∃ out, t.ov.stage {} (docRequest ['U'] { body := 2 }) (.update [] (some { body := 2 }) false)
        = some out ∧ out.result = .error .tooMany) ∧
    ∃ t : Tally Doc, Tallied (fun _ _ => True) t ∧ t.ov.maxOvEntries = 1 ∧
      t.ov.primaries.length = 2 := by
  have h0 : Tallied (fun _ _ => True) oneTally := .start ⟨rfl, rfl, rfl⟩
  constructor
  · have h1 := h0.step ⟨.stage {} (docRequest ['C'] { body := 2 }) (.create (some { body := 2 })),
      trivial, rfl⟩
    exact ⟨_, h1, rfl, rfl, _, rfl, rfl⟩
  · have h1 := h0.step ⟨.stage {} (docRequest ['U'] { body := 2 })
      (.update [] (some { body := 2 }) false), trivial, rfl⟩
    have h2 := h1.step ⟨.clear {} [['x']], trivial, rfl⟩
    have h3 := h2.step ⟨.stage {} otherRequest (.create (some { body := 3 })), trivial, rfl⟩
    exact ⟨_, h3, rfl, rfl⟩

end NicSw.Staging
