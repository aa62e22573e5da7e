/-
What the slhash calls by key do.

A key is in its own bucket or in the TCAM (`Slhash.Stores`).  A key that came
when its bucket was taken stays in the TCAM, also when the bucket is given up
or taken by a third key.

Two calls go wrong.  A remove of a key in the TCAM fails an assert when its
bucket is in use, since `table::remove` takes the key of the bucket for the key
to remove.  An update of a key in the TCAM writes the old data back, since the
search for the key copies them over the caller's.  `Slhash.Meets` excludes the
two.
-/
import NicSw.Slhash.Table
import NicSw.Sltcam.Spec

namespace NicSw

open Option SlhCtx Handle

variable {K D : Type*} [LinearOrder K]

/-- The bucket of a key. -/
def SlhProps.idx (P : SlhProps K) (hash : K → BitVec 32) (k : K) : Nat :=
  (hash k).toNat % P.tableSize

namespace Slhash

/-- Key `k` is in its own bucket. -/
def Home (P : SlhProps K) (hash : K → BitVec 32) (T : Slhash K D) (k : K) : Prop :=
  (T.bucket (P.idx hash k)).inuse = true ∧ (T.hw (P.idx hash k)).1 = k

/-- The table holds data `d` for key `k`. -/
def Stores (P : SlhProps K) (hash : K → BitVec 32) (T : Slhash K D) (k : K) (d : D) : Prop :=
  ((T.bucket (P.idx hash k)).inuse = true ∧ T.hw (P.idx hash k) = (k, d)) ∨ T.tcam.Stores k d

/-- **The invariant** outside transactions. -/
structure Ok (P : SlhProps K) (hash : K → BitVec 32) (T : Slhash K D) : Prop where
  idle : T.txn.valid = false
  tcam : T.tcam.Ok P.tcam
  unreserved : ∀ i, (T.bucket i).reserved = false
  home : ∀ i, (T.bucket i).inuse = true → P.idx hash (T.hw i).1 = i
  apart : ∀ {k d}, T.tcam.Stores k d → ¬ T.Home P hash k

/-- A call that does what the caller asks for: a key in the TCAM is not removed
while its bucket is in use, and is not updated to other data. -/
def Meets (P : SlhProps K) (hash : K → BitVec 32) (T : Slhash K D) : SlhOp K D → Prop
  | .remove k => (∃ d, T.tcam.Stores k d) → (T.bucket (P.idx hash k)).inuse = false
  | .update k d => ∀ d', T.tcam.Stores k d' → d = d'
  | _ => True

section Find

variable [Zero K] [Zero D] {P : SlhProps K} {hash : K → BitVec 32} {T : Slhash K D}
  {op : SdkTableApi} {params : SltParams K D}

/-- The context of a call by key after the search in the hash table. -/
structure Located (P : SlhProps K) (hash : K → BitVec 32) (T : Slhash K D) (op : SdkTableApi)
    (k : K) (ctx : SlhCtx K D) : Prop where
  op : ctx.op = op
  indexValid : ctx.indexValid = true
  index : ctx.index = P.idx hash k
  key : ctx.params.key = k
  handle : ctx.params.handle = null
  sw : (T.bucket (P.idx hash k)).inuse = true →
    (ctx.swkey, ctx.swdata) = T.hw (P.idx hash k)

/-- **All that `find_` can do** for a call by key. -/
inductive FindPost (P : SlhProps K) (hash : K → BitVec 32) (T : Slhash K D) (op : SdkTableApi)
    (params : SltParams K D) : Option (SdkRet × SlhCtx K D) → Prop
  | table {ctx : SlhCtx K D} (loc : Located P hash T op params.key ctx)
      (params_eq : ctx.params = params) (home : T.Home P hash params.key)
      (tcam : ctx.tcamParamsValid = false) : FindPost P hash T op params (some (.ok, ctx))
  | tcam {ctx : SlhCtx K D} {d : D} {idx : Nat} (loc : Located P hash T op params.key ctx)
      (params_eq : ctx.params = { params with data := d })
      (away : ¬ T.Home P hash params.key) (stores : T.tcam.StoresAt params.key d idx)
      (tcam : ctx.tcamParamsValid = true) (handle : ctx.tcamHandle = null.setPindex idx) :
      FindPost P hash T op params (some (.ok, ctx))
  | notFound {ctx : SlhCtx K D} (loc : Located P hash T op params.key ctx)
      (params_eq : ctx.params = params) (away : ¬ T.Home P hash params.key)
      (absent : ∀ d, ¬ T.tcam.Stores params.key d) (tcam : ctx.tcamParamsValid = false)
      (handle : ctx.tcamHandle = null) :
      FindPost P hash T op params (some (.entryNotFound, ctx))

/-- The search in the hash table. -/
theorem tableFind_post (hok : Ok P hash T) (op : SdkTableApi) (hnull : params.handle = null) :
    ∃ ctx, Located P hash T op params.key ctx ∧ ctx.params = params ∧
      ctx.tcamParamsValid = false ∧ ctx.tcamHandle = null ∧
      ((T.Home P hash params.key ∧
          T.tableFind P hash (SlhCtx.init op params) = some (.ok, ctx)) ∨
        (¬ T.Home P hash params.key ∧
          T.tableFind P hash (SlhCtx.init op params) = some (.entryNotFound, ctx))) := by
  set ctx : SlhCtx K D := (SlhCtx.init op params).calchash P hash with hctx
  have hin : (SlhCtx.init op params).inhandle.valid = false := by
    show params.handle.valid = false
    rw [hnull]
    rfl
  have htcam : ctx.tcamHandle = null := by
    show (if params.handle.svalid then _ else params.handle) = _
    rw [hnull]
    rfl
  have hbusy : (T.bucket ctx.index).isbusy = (T.bucket ctx.index).inuse := by
    rw [SlhBucket.isbusy, hok.unreserved, Bool.or_false]
  have hfind : T.tableFind P hash (SlhCtx.init op params)
      = if !(T.bucket ctx.index).inuse then some (.entryNotFound, ctx)
        else (T.read ctx).bind fun ctx =>
          some (if ctx.keymatch then .ok else .entryNotFound, ctx) := by
    unfold tableFind
    simp [hin, ← hctx, hbusy]
  cases hu : (T.bucket ctx.index).inuse with
  | false =>
    have hu' : (T.bucket (P.idx hash params.key)).inuse = false := hu
    rw [hu] at hfind
    refine ⟨ctx, ⟨rfl, rfl, rfl, rfl, hnull, fun h => ?_⟩, rfl, rfl, htcam,
      .inr ⟨fun h => ?_, hfind⟩⟩
    · rw [hu'] at h
      cases h
    · rw [Home, hu'] at h
      cases h.1
  | true =>
    set ctx' : SlhCtx K D := { ctx with swkey := (T.hw ctx.index).1, swdata := (T.hw ctx.index).2 }
    have hmatch : ctx'.keymatch = decide (params.key = (T.hw ctx.index).1) := by
      show (params.handle.valid || _) = _
      rw [hnull]
      rfl
    rw [hu, Bool.not_true, if_neg (by simp), show T.read ctx = some ctx' from rfl,
      bind_some, hmatch] at hfind
    refine ⟨ctx', ⟨rfl, rfl, rfl, rfl, hnull, fun _ => rfl⟩, rfl, rfl, htcam, ?_⟩
    by_cases hk : params.key = (T.hw ctx.index).1
    · rw [if_pos (decide_eq_true hk)] at hfind
      exact .inl ⟨⟨hu, hk.symm⟩, hfind⟩
    · rw [if_neg (by simpa using hk)] at hfind
      exact .inr ⟨fun h => hk h.2.symm, hfind⟩

theorem find_post (hok : Ok P hash T) (hnull : params.handle = null) :
    FindPost P hash T op params (T.find P hash (SlhCtx.init op params)) := by
  obtain ⟨ctx, hloc, hparams, hvalid, hhandle, hcase⟩ := tableFind_post hok op hnull
  unfold find
  rcases hcase with ⟨hhome, heq⟩ | ⟨haway, heq⟩
  · rw [heq]
    exact .table hloc hparams hhome hvalid
  have hp : ctx.tcamParams = params := by
    rw [tcamParams, hparams, hhandle, ← hnull]
  have hget := Sltcam.get_post hok.tcam hnull
  rw [heq]
  simp only [bind_some, hp]
  generalize T.tcam.get P.tcam params = r at hget
  cases hget with
  | @ok d idx stores =>
    have hparams' : (ctx.withTcam { params with
        data := d, handle := null.setPindex idx } .ok).params
        = { params with data := d } := by
      rw [withTcam, hparams]
    refine .tcam ⟨hloc.op, hloc.indexValid, hloc.index, ?_, ?_, hloc.sw⟩ hparams' haway stores
      (by simp [withTcam]) rfl
    · rfl
    · exact hloc.handle
  | notFound absent =>
    have hparams' : (ctx.withTcam params .entryNotFound).params = params := by
      rw [withTcam, hparams]
    refine .notFound ⟨hloc.op, hloc.indexValid, hloc.index, rfl, hloc.handle, hloc.sw⟩ hparams'
      haway absent ?_ hnull
    rw [withTcam, hvalid]
    rfl

end Find

/-! ### Changes of the table -/

section Change

variable {P : SlhProps K} {hash : K → BitVec 32} {T : Slhash K D} {k k' : K} {d d' : D}

/-- The table with bucket `i` changed. -/
def setBucket (T : Slhash K D) (i : Nat) (inuse : Bool) (x : K × D) : Slhash K D :=
  { T with
    bucket := Function.update T.bucket i { T.bucket i with inuse := inuse }
    hw := Function.update T.hw i x }

variable {x : K × D} {v : Bool} {i : Nat}

omit [LinearOrder K] in
theorem setBucket_self : ((T.setBucket i v x).bucket i).inuse = v ∧ (T.setBucket i v x).hw i = x := by
  unfold setBucket
  simp

omit [LinearOrder K] in
theorem setBucket_of_ne {j : Nat} (hj : j ≠ i) :
    (T.setBucket i v x).bucket j = T.bucket j ∧ (T.setBucket i v x).hw j = T.hw j :=
  ⟨Function.update_of_ne hj _ _, Function.update_of_ne hj _ _⟩

omit [LinearOrder K] in
/-- A key that is stored is in its bucket, or in the TCAM. -/
theorem home_of_stores (h : T.Stores P hash k d) : T.Home P hash k ∨ T.tcam.Stores k d := by
  rcases h with ⟨hu, hw⟩ | h
  · exact .inl ⟨hu, by rw [hw]⟩
  · exact .inr h

omit [LinearOrder K] in
theorem Home.stores (h : T.Home P hash k) : T.Stores P hash k (T.hw (P.idx hash k)).2 :=
  .inl ⟨h.1, Prod.ext h.2 rfl⟩

/-- What is stored in a table with one bucket changed.  A key of the bucket that
is not in the TCAM comes and goes with the bucket. -/
theorem stores_setBucket :
    (T.setBucket i v x).Stores P hash k d ↔
      (P.idx hash k = i ∧ v = true ∧ x = (k, d)) ∨
        (P.idx hash k ≠ i ∧ T.Stores P hash k d) ∨ T.tcam.Stores k d := by
  unfold Stores
  by_cases hi : P.idx hash k = i
  · subst hi
    simp [setBucket]
  · rw [(setBucket_of_ne hi).1, (setBucket_of_ne hi).2]
    tauto

/-- Changing a bucket keeps the invariant, if its key is one of the bucket and
not in the TCAM. -/
theorem Ok.setBucket (hok : Ok P hash T)
    (hx : v = true → P.idx hash x.1 = i ∧ ∀ d, ¬ T.tcam.Stores x.1 d) :
    Ok P hash (T.setBucket i v x) := by
  refine ⟨hok.idle, hok.tcam, fun j => ?_, fun j hj => ?_, fun {k d} hst hhome => ?_⟩
  · by_cases hj : j = i
    · subst hj
      simpa [Slhash.setBucket] using hok.unreserved j
    · rw [(setBucket_of_ne hj).1]
      exact hok.unreserved j
  · by_cases hji : j = i
    · subst hji
      rw [setBucket_self.1] at hj
      rw [setBucket_self.2]
      exact (hx hj).1
    · rw [(setBucket_of_ne hji).1] at hj
      rw [(setBucket_of_ne hji).2]
      exact hok.home j hj
  · obtain ⟨hu, hk⟩ := hhome
    by_cases hi : P.idx hash k = i
    · subst hi
      rw [setBucket_self.1] at hu
      rw [setBucket_self.2] at hk
      subst hk
      exact (hx hu).2 d hst
    · rw [(setBucket_of_ne hi).1] at hu
      rw [(setBucket_of_ne hi).2] at hk
      exact hok.apart hst ⟨hu, hk⟩

/-- A change of the TCAM keeps the invariant, if it takes no key from a bucket. -/
theorem Ok.setTcam (hok : Ok P hash T) {t : Sltcam K D} (ht : t.Ok P.tcam)
    (hapart : ∀ {k d}, t.Stores k d → ¬ T.Home P hash k) : Ok P hash { T with tcam := t } :=
  ⟨hok.idle, ht, hok.unreserved, hok.home, hapart⟩

omit [LinearOrder K] in
/-- A stored key whose bucket is not in use is in the TCAM. -/
theorem tcam_of_stores_of_free (h : T.Stores P hash k d)
    (hu : (T.bucket (P.idx hash k)).inuse = false) : T.tcam.Stores k d := by
  rcases h with ⟨hu', -⟩ | h
  · rw [hu] at hu'
    cases hu'
  · exact h

omit [LinearOrder K] in
/-- Of the keys of a bucket, all but the one in it are in the TCAM. -/
theorem tcam_of_stores_of_home (hhome : T.Home P hash k) (h : T.Stores P hash k' d')
    (hi : P.idx hash k' = P.idx hash k) (hne : k' ≠ k) : T.tcam.Stores k' d' := by
  rcases h with ⟨-, hw⟩ | h
  · rw [hi] at hw
    exact absurd ((congrArg Prod.fst hw).symm.trans hhome.2) hne
  · exact h

section

variable (habs : ∀ d, ¬ T.tcam.Stores k d)
  (hother : ∀ {k' d'}, T.Stores P hash k' d' → P.idx hash k' = P.idx hash k → k' ≠ k →
    T.tcam.Stores k' d')
include habs hother

/-- What is stored after the bucket of `k` is changed, when the other keys of the bucket are
in the TCAM. -/
theorem stores_setHome :
    (T.setBucket (P.idx hash k) v x).Stores P hash k' d' ↔
      (P.idx hash k' = P.idx hash k ∧ v = true ∧ x = (k', d')) ∨
        (T.Stores P hash k' d' ∧ k' ≠ k) := by
  rw [stores_setBucket]
  refine or_congr_right ⟨?_, fun ⟨h, hne⟩ => ?_⟩
  · rintro (⟨hi, h⟩ | h)
    · exact ⟨h, fun hk => hi (by rw [hk])⟩
    · exact ⟨.inr h, fun hk => habs d' (hk ▸ h)⟩
  · by_cases hi : P.idx hash k' = P.idx hash k
    · exact .inr (hother h hi hne)
    · exact .inl ⟨hi, h⟩

theorem stores_put :
    (T.setBucket (P.idx hash k) true (k, d)).Stores P hash k' d' ↔
      (k' = k ∧ d' = d) ∨ (T.Stores P hash k' d' ∧ k' ≠ k) := by
  rw [stores_setHome habs hother]
  refine or_congr_left ⟨?_, ?_⟩
  · rintro ⟨-, -, hx⟩
    cases hx
    exact ⟨rfl, rfl⟩
  · rintro ⟨rfl, rfl⟩
    exact ⟨rfl, rfl, rfl⟩

end

end Change

/-! ### The calls -/

section Calls

variable {P : SlhProps K} {hash : K → BitVec 32} {T : Slhash K D} {k : K} {d : D}

/-- **All that an insert by key can do.** -/
inductive InsertPost (P : SlhProps K) (hash : K → BitVec 32) (T : Slhash K D) (k : K) (d : D) :
    Option (SdkRet × SltParams K D × Slhash K D) → Prop
  | entryExists {p : SltParams K D} {d' : D} (stores : T.Stores P hash k d') :
      InsertPost P hash T k d (some (.entryExists, p, T))
  | noResource {p : SltParams K D} (absent : ∀ d, ¬ T.Stores P hash k d) :
      InsertPost P hash T k d (some (.noResource, p, T))
  | ok {p : SltParams K D} {T' : Slhash K D} (absent : ∀ d, ¬ T.Stores P hash k d)
      (ok' : Ok P hash T') (stores : ∀ k' d', T'.Stores P hash k' d' ↔
        (k' = k ∧ d' = d) ∨ (T.Stores P hash k' d' ∧ k' ≠ k)) :
      InsertPost P hash T k d (some (.ok, p, T'))

/-- **All that an update by key can do.** -/
inductive UpdatePost (P : SlhProps K) (hash : K → BitVec 32) (T : Slhash K D) (k : K) (d : D) :
    Option (SdkRet × SltParams K D × Slhash K D) → Prop
  | notFound {p : SltParams K D} (absent : ∀ d, ¬ T.Stores P hash k d) :
      UpdatePost P hash T k d (some (.entryNotFound, p, T))
  | table {p : SltParams K D} {T' : Slhash K D} (home : T.Home P hash k) (ok' : Ok P hash T')
      (stores : ∀ k' d', T'.Stores P hash k' d' ↔
        (k' = k ∧ d' = d) ∨ (T.Stores P hash k' d' ∧ k' ≠ k)) :
      UpdatePost P hash T k d (some (.ok, p, T'))
  | tcam {p : SltParams K D} {d' : D} (stores : T.tcam.Stores k d') :
      UpdatePost P hash T k d (some (.ok, p, T))

/-- **All that a remove by key can do**; no result is an abort. -/
inductive RemovePost (P : SlhProps K) (hash : K → BitVec 32) (T : Slhash K D) (k : K) :
    Option (SdkRet × SltParams K D × Slhash K D) → Prop
  | notFound {p : SltParams K D} (absent : ∀ d, ¬ T.Stores P hash k d) :
      RemovePost P hash T k (some (.entryNotFound, p, T))
  | abort (fails : ¬ T.Meets P hash (.remove k)) : RemovePost P hash T k none
  | ok {p : SltParams K D} {T' : Slhash K D} {d : D} (present : T.Stores P hash k d)
      (meets : T.Meets P hash (.remove k)) (ok' : Ok P hash T')
      (stores : ∀ k' d', T'.Stores P hash k' d' ↔ T.Stores P hash k' d' ∧ k' ≠ k) :
      RemovePost P hash T k (some (.ok, p, T'))

/-- **All that a get by key can do.** -/
inductive GetPost (P : SlhProps K) (hash : K → BitVec 32) (T : Slhash K D) (k : K) :
    Option (SdkRet × SltParams K D × Slhash K D) → Prop
  | notFound {p : SltParams K D} (absent : ∀ d, ¬ T.Stores P hash k d) :
      GetPost P hash T k (some (.entryNotFound, p, T))
  | ok {p : SltParams K D} (stores : T.Stores P hash k p.data) (key : p.key = k) :
      GetPost P hash T k (some (.ok, p, T))

omit [LinearOrder K] in
theorem not_stores (haway : ¬ T.Home P hash k) (habs : ∀ d, ¬ T.tcam.Stores k d) :
    ∀ d, ¬ T.Stores P hash k d := by
  intro d h
  rcases home_of_stores h with h | h
  · exact haway h
  · exact habs d h

variable [Zero K] [Zero D] {op : SdkTableApi} {ctx : SlhCtx K D}

omit [LinearOrder K] [Zero K] [Zero D] in
theorem Located.outhandle_table (hloc : Located P hash T op k ctx)
    (htcam : ctx.tcamParamsValid = false) :
    ∃ h, ctx.outhandle = some h ∧ h.svalid = false := by
  refine ⟨null.setPindex ctx.index, ?_, rfl⟩
  unfold outhandle inhandle
  rw [hloc.handle, htcam]
  rfl

omit [LinearOrder K] [Zero K] [Zero D] in
theorem outhandle_tcam (hnull : ctx.params.handle = null)
    (htcam : ctx.tcamParamsValid = true) (hp : ctx.tcamHandle.pvalid = true) :
    ∃ h, ctx.outhandle = some h ∧ h.svalid = true := by
  refine ⟨(null.setPindex ctx.index).setSindex ctx.tcamHandle.pindex, ?_, rfl⟩
  unfold outhandle inhandle
  rw [hnull, htcam, hp]
  rfl

section

variable (hok : Ok P hash T)
include hok

omit [Zero K] [Zero D] in
/-- Outside transactions every call is let through. -/
theorem Ok.txnValidate (ctx : SlhCtx K D) : T.txnValidate ctx = .ok := by
  unfold Slhash.txnValidate
  rw [hok.idle]
  rfl

omit [Zero K] [Zero D] in
theorem Ok.txnRelease (ctx : SlhCtx K D) : T.txnRelease ctx = some T := by
  unfold Slhash.txnRelease
  rw [hok.idle]
  rfl

/-- The insert of a key that the search did not find. -/
theorem insertNew_post (hloc : Located P hash T .insert k ctx)
    (hdata : ctx.params.data = d) (haway : ¬ T.Home P hash k)
    (habs : ∀ d, ¬ T.tcam.Stores k d) (htcam : ctx.tcamParamsValid = false)
    (hhandle : ctx.tcamHandle = null) :
    InsertPost P hash T k d (T.insertNew P ctx) := by
  have habsent := not_stores haway habs
  have hin : ctx.inhandle.valid = false := by
    show ctx.params.handle.valid = false
    rw [hloc.handle]
    rfl
  unfold insertNew insertEntry tableInsert
  rw [hin, Bool.false_and, if_neg Bool.false_ne_true, hloc.indexValid, Bool.not_true,
    if_neg Bool.false_ne_true, hloc.index]
  cases hu : (T.bucket (P.idx hash k)).inuse with
  | false =>
    have hwrite : (T.setInuse (P.idx hash k) true).write ctx
        = some (T.setBucket (P.idx hash k) true (k, d)) := by
      unfold write
      rw [hloc.op, hloc.index, hloc.key, hdata]
      rfl
    have hok' : Ok P hash (T.setBucket (P.idx hash k) true (k, d)) :=
      hok.setBucket fun _ => ⟨rfl, habs⟩
    obtain ⟨h, hout, -⟩ := hloc.outhandle_table htcam
    rw [if_neg Bool.false_ne_true, hwrite]
    simp only [map_some, bind_some, hok'.txnRelease, saveHandle, hout]
    exact .ok habsent hok' fun k' d' =>
      stores_put habs fun h hi _ => tcam_of_stores_of_free h (hi ▸ hu)
  | true =>
    have hnull : ctx.tcamParams.handle = null := hhandle
    have hins := Sltcam.insert_post hok.tcam hnull
    have hkey : ctx.tcamParams.key = k := hloc.key
    have hdata' : ctx.tcamParams.data = d := hdata
    rw [if_pos rfl, bind_some]
    dsimp only
    generalize T.tcam.insert P.tcam ctx.tcamParams = r at hins
    cases hins with
    | entryExists stores => exact absurd (hkey ▸ stores) (habs _)
    | noResource absent => exact .noResource habsent
    | @ok p t absent hp hok_t stores =>
      rw [hkey, hdata'] at stores
      have hok' : Ok P hash { T with tcam := t } := by
        refine hok.setTcam hok_t fun {k' d'} hst => ?_
        rcases (stores k' d').mp hst with ⟨rfl, -⟩ | hst
        · exact haway
        · exact hok.apart hst
      obtain ⟨h, hout, -⟩ : ∃ h, (ctx.withTcam p .ok).outhandle = some h ∧ h.svalid = true :=
        outhandle_tcam hloc.handle (by simp [withTcam]) hp
      simp only [bind_some, hok'.txnRelease, saveHandle, hout, map_some]
      refine .ok habsent hok' fun k' d' => ?_
      have hne : T.Stores P hash k' d' → k' ≠ k := fun h hk => habsent d' (hk ▸ h)
      rw [and_iff_left_of_imp hne]
      unfold Stores
      rw [stores k' d']
      exact or_left_comm

section

variable (params : SltParams K D) (hnull : params.handle = null)
include hnull

theorem insert_post :
    InsertPost P hash T params.key params.data (T.insert P hash params) := by
  have hfind : FindPost P hash T .insert params _ := find_post hok hnull
  have hvalid : params.handle.valid = false := by
    rw [hnull]
    rfl
  unfold insert
  simp only [hok.txnValidate, ne_eq, not_true_eq_false, if_false, hvalid, Bool.false_eq_true]
  generalize T.find P hash (SlhCtx.init .insert params) = r at hfind
  cases hfind with
  | table loc params_eq home tcam =>
    obtain ⟨h, hout, -⟩ := loc.outhandle_table tcam
    simp only [bind_some, saveHandle, hout, map_some]
    exact .entryExists home.stores
  | tcam loc params_eq away stores tcam handle =>
    obtain ⟨h, hout, -⟩ := outhandle_tcam loc.handle tcam (by rw [handle]; rfl)
    simp only [bind_some, saveHandle, hout, map_some]
    exact .entryExists (.inr ⟨_, stores⟩)
  | notFound loc params_eq away absent tcam handle =>
    exact insertNew_post hok loc (by rw [params_eq]) away absent tcam handle

/-- The entry found in its bucket is updated there; the entry found in the TCAM
is written back as it was found. -/
theorem update_post :
    UpdatePost P hash T params.key params.data (T.update P hash params) := by
  have hfind : FindPost P hash T .update params _ := find_post hok hnull
  unfold update
  simp only [hok.txnValidate, ne_eq, not_true_eq_false, if_false]
  generalize T.find P hash (SlhCtx.init .update params) = r at hfind
  cases hfind with
  | @table ctx loc params_eq home tcam =>
    obtain ⟨h, hout, hs⟩ := loc.outhandle_table tcam
    have hwrite : T.write ctx
        = some (T.setBucket (P.idx hash params.key) true (params.key, params.data)) := by
      unfold write setBucket
      rw [loc.op, loc.index, params_eq, ← home.1, Function.update_eq_self]
    have hok' : Ok P hash (T.setBucket (P.idx hash params.key) true (params.key, params.data)) :=
      hok.setBucket fun _ => ⟨rfl, fun d hd => hok.apart hd home⟩
    have hupdate : T.updateEntry P ctx = some (.ok, ctx,
        T.setBucket (P.idx hash params.key) true (params.key, params.data)) := by
      unfold updateEntry tableUpdate
      rw [hout, bind_some, hs, if_neg Bool.false_ne_true, loc.indexValid, loc.index, home.1, hwrite]
      rfl
    simp only [bind_some, hupdate, saveHandle, hout, map_some]
    exact .table home hok' fun k' d' =>
      stores_put (fun d hd => hok.apart hd home) (tcam_of_stores_of_home home)
  | @tcam ctx d idx loc params_eq away stores tcam handle =>
    have hlt : idx < 2 ^ 32 := by
      have := (hok.tcam.used stores.1).1
      have := P.tcam.tableSize_le
      omega
    have hpindex : ctx.tcamHandle.pindex = idx := by
      rw [handle]
      exact Nat.mod_eq_of_lt hlt
    have hp : ctx.tcamHandle.pvalid = true := by
      rw [handle]
      rfl
    obtain ⟨h, hout, hs⟩ := outhandle_tcam loc.handle tcam hp
    have hsame : T.tcam.update P.tcam ctx.tcamParams = some (.ok, ctx.tcamParams, T.tcam) := by
      refine Sltcam.update_same hok.tcam hp ?_
      show T.tcam.hw ctx.tcamHandle.pindex = (ctx.params.key, ctx.params.data)
      rw [hpindex, stores.2, params_eq]
    obtain ⟨h', hout', -⟩ : ∃ h, (ctx.withTcam ctx.tcamParams .ok).outhandle = some h ∧
        h.svalid = true := outhandle_tcam loc.handle (by simp [SlhCtx.withTcam]) hp
    simp only [bind_some, updateEntry, hout, hs, if_true, hsame, saveHandle, hout', map_some]
    exact .tcam ⟨_, stores⟩
  | notFound loc params_eq away absent tcam handle => exact .notFound (not_stores away absent)

/-- `table::remove` takes whatever is in the bucket for the key to remove, and
asserts that it is. -/
theorem remove_post :
    RemovePost P hash T params.key (T.remove P hash params) := by
  have hfind : FindPost P hash T .remove params _ := find_post hok hnull
  unfold remove
  simp only [hok.txnValidate, ne_eq, not_true_eq_false, if_false]
  generalize T.find P hash (SlhCtx.init .remove params) = r at hfind
  cases hfind with
  | @table ctx loc params_eq home tcam =>
    have hmatch : ctx.keymatch = true := by
      have hsw : ctx.swkey = params.key := (congrArg Prod.fst (loc.sw home.1)).trans home.2
      unfold keymatch
      rw [loc.key, hsw, decide_eq_true rfl, Bool.or_true]
    have hwrite : (T.write ctx).map (fun T => (SdkRet.ok, T.setInuse (P.idx hash params.key) false))
        = some (.ok, T.setBucket (P.idx hash params.key) false (0, 0)) := by
      unfold write
      rw [loc.op, loc.index]
      rfl
    have hremove : T.removeEntry P ctx = some (.ok, ctx,
        T.setBucket (P.idx hash params.key) false (0, 0)) := by
      unfold removeEntry tableRemove
      rw [loc.indexValid, loc.index, home.1, hmatch]
      simp [hwrite]
    have hok' : Ok P hash (T.setBucket (P.idx hash params.key) false (0, 0)) :=
      hok.setBucket fun h => by cases h
    simp only [bind_some, hremove, hok'.txnRelease, map_some]
    refine .ok home.stores (fun ⟨d, hd⟩ => absurd home (hok.apart hd)) hok' fun k' d' => ?_
    rw [stores_setHome (fun d hd => hok.apart hd home) (tcam_of_stores_of_home home)]
    simp
  | @tcam ctx d idx loc params_eq away stores tcam handle =>
    cases hu : (T.bucket (P.idx hash params.key)).inuse with
    | true =>
      -- the bucket holds another key: the assert fails
      have hmatch : ctx.keymatch = false := by
        have hsw : ctx.swkey = (T.hw (P.idx hash params.key)).1 := congrArg Prod.fst (loc.sw hu)
        have hne : params.key ≠ (T.hw (P.idx hash params.key)).1 := fun h => away ⟨hu, h.symm⟩
        unfold keymatch inhandle
        rw [loc.handle, loc.key, hsw, decide_eq_false hne]
        rfl
      have hremove : T.removeEntry P ctx = none := by
        unfold removeEntry tableRemove
        rw [loc.indexValid, loc.index, hu, hmatch]
        rfl
      simp only [bind_some, hremove, bind_none]
      refine .abort fun hmeets => ?_
      rw [hmeets ⟨d, idx, stores⟩] at hu
      cases hu
    | false =>
      obtain ⟨p, t, heq, hok_t, hst⟩ :=
        Sltcam.remove_of_stores hok.tcam stores (show ctx.tcamParams.handle = _ from handle)
      have hok' : Ok P hash { T with tcam := t } :=
        hok.setTcam hok_t fun {k' d'} h => hok.apart ((hst k' d').mp h).1
      have hremove : T.removeEntry P ctx
          = some (.ok, ctx.withTcam p .ok, { T with tcam := t }) := by
        unfold removeEntry tableRemove
        rw [loc.indexValid, loc.index, hu]
        simp [heq]
      simp only [bind_some, hremove, hok'.txnRelease, map_some]
      refine .ok (.inr ⟨idx, stores⟩) (fun _ => hu) hok' fun k' d' => ?_
      unfold Stores
      rw [hst k' d', or_and_right]
      refine or_congr_left ?_
      constructor
      · rintro h
        refine ⟨h, ?_⟩
        rintro rfl
        rw [hu] at h
        cases h.1
      · exact And.left
  | notFound loc params_eq away absent tcam handle => exact .notFound (not_stores away absent)

theorem get_post :
    GetPost P hash T params.key (T.get P hash params) := by
  have hfind : FindPost P hash T .get params _ := find_post hok hnull
  unfold get
  generalize T.find P hash (SlhCtx.init .get params) = r at hfind
  cases hfind with
  | @table ctx loc params_eq home tcam =>
    obtain ⟨h, hout, hs⟩ := loc.outhandle_table tcam
    have hsw := loc.sw home.1
    simp only [bind_some, hout, map_some, hs, Bool.false_eq_true, if_false]
    refine .ok (.inl ⟨home.1, ?_⟩) ((congrArg Prod.fst hsw).trans home.2)
    rw [← hsw, ← home.2, ← hsw]
  | @tcam ctx d idx loc params_eq away stores tcam handle =>
    obtain ⟨h, hout, hs⟩ := outhandle_tcam loc.handle tcam (by rw [handle]; rfl)
    simp only [bind_some, hout, map_some, hs, if_true]
    refine .ok (.inr ⟨idx, ?_⟩) loc.key
    rw [params_eq]
    exact stores
  | notFound loc params_eq away absent tcam handle => exact .notFound (not_stores away absent)

end

theorem call_insert_post (k : K) (d : D) (highest : Bool) :
    InsertPost P hash T k d (T.call P hash (.insert k d highest)) :=
  insert_post hok (SlhOp.insert k d highest).params rfl

theorem call_update_post (k : K) (d : D) : UpdatePost P hash T k d (T.call P hash (.update k d)) :=
  update_post hok (SlhOp.update k d).params rfl

theorem call_remove_post (k : K) : RemovePost P hash T k (T.call P hash (.remove k)) :=
  remove_post hok (SlhOp.remove k).params rfl

theorem call_get_post (k : K) : GetPost P hash T k (T.call P hash (.get k)) :=
  get_post hok (SlhOp.get k).params rfl

end

end Calls

end Slhash

end NicSw
