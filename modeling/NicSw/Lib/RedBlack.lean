/-
Red-black trees whose nodes cache an annotation of their subtree, with the functional
deletion by double black nodes.

A search in a tree is a probe: it says for each element whether to go left, to stop, or to
go right.  Insertion and deletion do to the list of elements what their list versions do,
whatever the shape of the tree (`toList_ins`, `toList_del`).  That a deletion always finds
the element it needs is where the balance comes in (`Balanced.del`).
-/

namespace NicSw.RedBlack

open Option

/-- The colors; `BB` is double black and only occurs during a deletion. -/
inductive Color
  | B
  | R
  | BB
  deriving DecidableEq, Repr

/-- Trees with elements `κ` and annotations `ρ`; `EE` is the double black empty tree. -/
inductive Tree (κ ρ : Type)
  | E
  | EE
  | node (c : Color) (l : Tree κ ρ) (x : κ) (m : ρ) (r : Tree κ ρ)

/-- How the annotation of a node is made. -/
class Summary (κ ρ : Type) where
  empty : ρ
  join : κ → ρ → ρ → ρ

namespace Tree

open Color

variable {κ ρ : Type}

/-- The elements in order. -/
def toList : Tree κ ρ → List κ
  | E => []
  | EE => []
  | node _ l x _ r => l.toList ++ x :: r.toList

/-- The color of the root; an empty tree is black. -/
def color : Tree κ ρ → Color
  | E => B
  | EE => BB
  | node c _ _ _ _ => c

section Operations

variable [Summary κ ρ]

/-- The annotation of the root. -/
def ann : Tree κ ρ → ρ
  | E => Summary.empty κ
  | EE => Summary.empty κ
  | node _ _ _ m _ => m

/-- A node with its annotation. -/
def T (c : Color) (l : Tree κ ρ) (x : κ) (r : Tree κ ρ) : Tree κ ρ :=
  node c l x (Summary.join x l.ann r.ann) r

/-- Remove a red node with a red child below a black or a double black node. -/
def balance : Color → Tree κ ρ → κ → Tree κ ρ → Tree κ ρ
  | B, node R (node R a x _ b) y _ c, z, d => T R (T B a x b) y (T B c z d)
  | B, node R a x _ (node R b y _ c), z, d => T R (T B a x b) y (T B c z d)
  | B, a, x, node R b y _ (node R c z _ d) => T R (T B a x b) y (T B c z d)
  | B, a, x, node R (node R b y _ c) z _ d => T R (T B a x b) y (T B c z d)
  | BB, node R a x _ (node R b y _ c), z, d => T B (T B a x b) y (T B c z d)
  | BB, a, x, node R (node R b y _ c) z _ d => T B (T B a x b) y (T B c z d)
  | c, l, x, r => T c l x r

/-- Move a double black child up, or remove it. -/
def rotate : Color → Tree κ ρ → κ → Tree κ ρ → Tree κ ρ
  | R, node BB a x _ b, y, node B c z _ d => balance B (T R (T B a x b) y c) z d
  | R, EE, y, node B c z _ d => balance B (T R E y c) z d
  | R, node B a x _ b, y, node BB c z _ d => balance B a x (T R b y (T B c z d))
  | R, node B a x _ b, y, EE => balance B a x (T R b y E)
  | B, node BB a x _ b, y, node B c z _ d => balance BB (T R (T B a x b) y c) z d
  | B, EE, y, node B c z _ d => balance BB (T R E y c) z d
  | B, node B a x _ b, y, node BB c z _ d => balance BB a x (T R b y (T B c z d))
  | B, node B a x _ b, y, EE => balance BB a x (T R b y E)
  | B, node BB a w _ b, x, node R (node B c y _ d) z _ e =>
    T B (balance B (T R (T B a w b) x c) y d) z e
  | B, EE, x, node R (node B c y _ d) z _ e => T B (balance B (T R E x c) y d) z e
  | B, node R a w _ (node B b x _ c), y, node BB d z _ e =>
    T B a w (balance B b x (T R c y (T B d z e)))
  | B, node R a w _ (node B b x _ c), y, EE => T B a w (balance B b x (T R c y E))
  | c, l, x, r => T c l x r

/-- Take out the first element. -/
def minDel : Tree κ ρ → Option (κ × Tree κ ρ)
  | E => none
  | EE => none
  | node R E x _ E => some (x, E)
  | node B E x _ E => some (x, EE)
  | node B E x _ (node R E y _ E) => some (x, T B E y E)
  | node c a x _ b => do
      let (x', a') ← minDel a
      some (x', rotate c a' x b)

/-- Delete below the root: `upd` changes the element that is found, or says that it goes. -/
def del (probe : κ → Ordering) (upd : κ → Option κ) : Tree κ ρ → Option (Tree κ ρ)
  | E => some E
  | EE => some EE
  | node R E y m E =>
    if probe y = .eq then
      match upd y with
      | some y' => some (node R E y' m E)
      | none => some E
    else some (node R E y m E)
  | node B E y m E =>
    if probe y = .eq then
      match upd y with
      | some y' => some (node B E y' m E)
      | none => some EE
    else some (node B E y m E)
  | node B (node R E y my E) z m E =>
    match probe z with
    | .lt => do
        let l ← del probe upd (node R E y my E)
        some (T B l z E)
    | .eq =>
      match upd z with
      | some z' => some (node B (node R E y my E) z' m E)
      | none => some (T B E y E)
    | .gt => some (node B (node R E y my E) z m E)
  | node c a y m b =>
    match probe y with
    | .lt => do
        let a' ← del probe upd a
        some (rotate c a' y b)
    | .eq =>
      match upd y with
      | some y' => some (node c a y' m b)
      | none => do
          let (x, b') ← minDel b
          some (rotate c a x b')
    | .gt => do
        let b' ← del probe upd b
        some (rotate c a y b')

/-- Insert below the root: `add` changes the element that is found. -/
def ins (probe : κ → Ordering) (new : κ) (add : κ → κ) : Tree κ ρ → Tree κ ρ
  | E => T R E new E
  | EE => T R E new E
  | node c a y m b =>
    match probe y with
    | .lt => balance c (ins probe new add a) y b
    | .gt => balance c a y (ins probe new add b)
    | .eq => node c a (add y) m b

/-- Color the root. -/
def paint (c : Color) : Tree κ ρ → Tree κ ρ
  | E => E
  | EE => EE
  | node _ l x _ r => T c l x r

/-- Insert. -/
def insert (probe : κ → Ordering) (new : κ) (add : κ → κ) (t : Tree κ ρ) : Tree κ ρ :=
  (t.ins probe new add).paint B

/-- A black root with black children is made red, so that no double black root is left. -/
def redden : Tree κ ρ → Tree κ ρ
  | E => E
  | EE => EE
  | node c l x m r => if l.color = B ∧ r.color = B then T R l x r else node c l x m r

/-- Delete. -/
def erase (probe : κ → Ordering) (upd : κ → Option κ) (t : Tree κ ρ) : Option (Tree κ ρ) :=
  (t.redden.del probe upd).map (paint B)

end Operations

/-! ### The elements -/

variable {t t' : Tree κ ρ}

section Elements

variable [Summary κ ρ]

@[simp] theorem toList_T (c : Color) (l : Tree κ ρ) (x : κ) (r : Tree κ ρ) :
    (T c l x r).toList = l.toList ++ x :: r.toList := rfl

@[simp] theorem toList_balance (c : Color) (l : Tree κ ρ) (x : κ) (r : Tree κ ρ) :
    (balance c l x r).toList = l.toList ++ x :: r.toList := by
  unfold balance
  split <;> simp [toList]

@[simp] theorem toList_rotate (c : Color) (l : Tree κ ρ) (x : κ) (r : Tree κ ρ) :
    (rotate c l x r).toList = l.toList ++ x :: r.toList := by
  unfold rotate
  split <;> simp [toList]

@[simp] theorem toList_paint (c : Color) (t : Tree κ ρ) : (t.paint c).toList = t.toList := by
  cases t <;> rfl

@[simp] theorem toList_redden (t : Tree κ ρ) : t.redden.toList = t.toList := by
  cases t with
  | E => rfl
  | EE => rfl
  | node c l x m r =>
    simp only [redden]
    split <;> rfl

/-- What `minDel` takes out is the first element. -/
theorem minDel_toList {x : κ} (h : t.minDel = some (x, t')) : t.toList = x :: t'.toList := by
  fun_induction minDel t generalizing x t' with
  | case1 => cases h
  | case2 => cases h
  | case3 => cases h; rfl
  | case4 => cases h; rfl
  | case5 => cases h; rfl
  | case6 c a y m b _ _ _ ih =>
    simp only [bind_eq_bind, bind_eq_some_iff, Option.some.injEq] at h
    obtain ⟨⟨z, a'⟩, hm, he⟩ := h
    cases he
    simp [toList, ih hm]

/-- Insertion into the list of elements. -/
def insList (probe : κ → Ordering) (new : κ) (add : κ → κ) : List κ → List κ
  | [] => [new]
  | y :: ys =>
    match probe y with
    | .lt => new :: y :: ys
    | .gt => y :: insList probe new add ys
    | .eq => add y :: ys

/-- Deletion from the list of elements. -/
def delList (probe : κ → Ordering) (upd : κ → Option κ) : List κ → List κ
  | [] => []
  | y :: ys =>
    match probe y with
    | .lt => y :: ys
    | .gt => y :: delList probe upd ys
    | .eq => (upd y).toList ++ ys

/-- The probe follows the order of the list: before an element that is reached, it goes
right. -/
def Guided (probe : κ → Ordering) (l : List κ) : Prop :=
  l.Pairwise fun a b => probe b ≠ .lt → probe a = .gt

variable {l r : List κ} {y : κ}

theorem Guided.split {probe : κ → Ordering} (h : Guided probe (l ++ y :: r)) :
    Guided probe l ∧ Guided probe r ∧ (probe y ≠ .lt → ∀ a ∈ l, probe a = .gt) := by
  obtain ⟨hl, hr, hlr⟩ := List.pairwise_append.1 h
  exact ⟨hl, (List.pairwise_cons.1 hr).2, fun hy a ha => hlr a ha y (by simp) hy⟩

section Lists

variable {probe : κ → Ordering} {new : κ} {add : κ → κ} {upd : κ → Option κ}

theorem insList_append_lt (h : probe y = .lt) :
    insList probe new add (l ++ y :: r) = insList probe new add l ++ y :: r := by
  induction l with
  | nil => simp [insList, h]
  | cons a l ih =>
    simp only [List.cons_append, insList]
    split <;> simp [ih]

theorem insList_append_gt (h : ∀ a ∈ l, probe a = .gt) :
    insList probe new add (l ++ r) = l ++ insList probe new add r := by
  induction l with
  | nil => rfl
  | cons a l ih =>
    simp only [List.cons_append, insList, h a (by simp)]
    rw [ih fun b hb => h b (by simp [hb])]

theorem delList_append_lt (h : probe y = .lt) :
    delList probe upd (l ++ y :: r) = delList probe upd l ++ y :: r := by
  induction l with
  | nil => simp [delList, h]
  | cons a l ih =>
    simp only [List.cons_append, delList]
    split <;> simp [ih]

theorem delList_append_gt (h : ∀ a ∈ l, probe a = .gt) :
    delList probe upd (l ++ r) = l ++ delList probe upd r := by
  induction l with
  | nil => rfl
  | cons a l ih =>
    simp only [List.cons_append, delList, h a (by simp)]
    rw [ih fun b hb => h b (by simp [hb])]

theorem delList_found {l' : List κ} (h : Guided probe (l ++ y :: r)) (hy : probe y = .eq)
    (hl : l' = l ++ ((upd y).toList ++ r)) : delList probe upd (l ++ y :: r) = l' := by
  rw [delList_append_gt ((Guided.split h).2.2 (by simp [hy])), hl]
  simp [delList, hy]

section

variable (h : Guided probe t.toList)
include h

/-- **Insertion into a tree is insertion into the list of its elements.** -/
theorem toList_ins :
    (t.ins probe new add).toList = insList probe new add t.toList := by
  induction t with
  | E => rfl
  | EE => rfl
  | node c l y m r ihl ihr =>
    obtain ⟨hl, hr, hy⟩ := Guided.split h
    simp only [ins, toList]
    cases hp : probe y with
    | lt => simp only [toList_balance, ihl hl, insList_append_lt hp]
    | gt =>
      rw [toList_balance, ihr hr, insList_append_gt (hy (by simp [hp]))]
      simp [insList, hp]
    | eq =>
      rw [insList_append_gt (hy (by simp [hp]))]
      simp [toList, insList, hp]

theorem toList_insert :
    (t.insert probe new add).toList = insList probe new add t.toList := by
  rw [insert, toList_paint, toList_ins h]

/-- **Deletion from a tree is deletion from the list of its elements.** -/
theorem toList_del (hd : t.del probe upd = some t') :
    t'.toList = delList probe upd t.toList := by
  fun_induction del probe upd t generalizing t' with
  | case1 => cases hd; rfl
  | case2 => cases hd; rfl
  | case3 y m hp y' hu => cases hd; simp [toList, delList, hp, hu]
  | case4 y m hp hu => cases hd; simp [toList, delList, hp, hu]
  | case5 y m hp =>
    cases hd
    cases hq : probe y <;> simp_all [toList, delList]
  | case6 y m hp y' hu => cases hd; simp [toList, delList, hp, hu]
  | case7 y m hp hu => cases hd; simp [toList, delList, hp, hu]
  | case8 y m hp =>
    cases hd
    cases hq : probe y <;> simp_all [toList, delList]
  | case9 y my z m hp ih =>
    obtain ⟨l, hl, he⟩ := bind_eq_some_iff.1 hd
    cases he
    rw [toList_T, ih (Guided.split h).1 hl]
    exact (delList_append_lt hp).symm
  | case10 y my z m hp z' hu =>
    cases hd
    exact (delList_found h hp (by simp [hu, toList])).symm
  | case11 y my z m hp hu =>
    cases hd
    exact (delList_found h hp (by simp [hu, toList])).symm
  | case12 y my z m hp =>
    cases hd
    simp only [toList, List.nil_append, List.cons_append, delList, hp]
    split <;> simp_all [Guided, toList]
  | case13 c a y m b _ _ _ hp ih =>
    obtain ⟨a', ha, he⟩ := bind_eq_some_iff.1 hd
    cases he
    rw [toList_rotate, ih (Guided.split h).1 ha]
    exact (delList_append_lt hp).symm
  | case14 c a y m b _ _ _ hp y' hu =>
    cases hd
    exact (delList_found h hp (by simp [hu, toList])).symm
  | case15 c a y m b _ _ _ hp hu =>
    obtain ⟨⟨x, b'⟩, hb, he⟩ := bind_eq_some_iff.1 hd
    cases he
    refine (delList_found h hp ?_).symm
    simp [hu, minDel_toList hb]
  | case16 c a y m b _ _ _ hp ih =>
    obtain ⟨b', hb, he⟩ := bind_eq_some_iff.1 hd
    cases he
    rw [toList_rotate, ih (Guided.split h).2.1 hb, toList,
      delList_append_gt ((Guided.split h).2.2 (by simp [hp]))]
    simp [delList, hp]

theorem toList_erase (hd : t.erase probe upd = some t') :
    t'.toList = delList probe upd t.toList := by
  obtain ⟨u, hu, rfl⟩ := map_eq_some_iff.1 hd
  have hr : Guided probe t.redden.toList := by rwa [toList_redden]
  rw [toList_paint, toList_del hr hu, toList_redden]

end

variable (probe new add) in
/-- An insertion puts the new element at its place, or changes the one that is found. -/
theorem insList_cases (l : List κ) :
    (∃ l1 l2, l = l1 ++ l2 ∧ insList probe new add l = l1 ++ new :: l2 ∧
      (∀ a ∈ l1, probe a = .gt) ∧ ∀ a ∈ l2.head?, probe a = .lt) ∨
    (∃ l1 y l2, l = l1 ++ y :: l2 ∧ probe y = .eq ∧
      insList probe new add l = l1 ++ add y :: l2) := by
  induction l with
  | nil => exact .inl ⟨[], [], by simp [insList]⟩
  | cons y ys ih =>
    cases hp : probe y with
    | lt => exact .inl ⟨[], y :: ys, by simp [insList, hp]⟩
    | eq => exact .inr ⟨[], y, ys, by simp [insList, hp]⟩
    | gt =>
      obtain ⟨l1, l2, rfl, he, h1, h2⟩ | ⟨l1, z, l2, rfl, hz, he⟩ := ih
      · refine .inl ⟨y :: l1, l2, rfl, by simp [insList, hp, he], ?_, h2⟩
        exact List.forall_mem_cons.2 ⟨hp, h1⟩
      · exact .inr ⟨y :: l1, z, l2, rfl, hz, by simp [insList, hp, he]⟩

variable (upd) in
/-- A deletion changes the element that is found, and nothing if there is none. -/
theorem delList_cases (h : Guided probe l) :
    (delList probe upd l = l ∧ ∀ a ∈ l, probe a ≠ .eq) ∨
    (∃ l1 y l2, l = l1 ++ y :: l2 ∧ probe y = .eq ∧
      delList probe upd l = l1 ++ ((upd y).toList ++ l2)) := by
  induction l with
  | nil => exact .inl ⟨rfl, by simp⟩
  | cons y ys ih =>
    obtain ⟨hy, hys⟩ := List.pairwise_cons.1 h
    cases hp : probe y with
    | lt =>
      refine .inl ⟨by simp [delList, hp], List.forall_mem_cons.2 ⟨by simp [hp], ?_⟩⟩
      intro a ha he
      have := hy a ha (by simp [he])
      simp [hp] at this
    | eq => exact .inr ⟨[], y, ys, rfl, hp, by simp [delList, hp]⟩
    | gt =>
      obtain ⟨he, hn⟩ | ⟨l1, z, l2, rfl, hz, he⟩ := ih hys
      · exact .inl ⟨by simp [delList, hp, he], List.forall_mem_cons.2 ⟨by simp [hp], hn⟩⟩
      · exact .inr ⟨y :: l1, z, l2, rfl, hz, by simp [delList, hp, he]⟩

end Lists

end Elements

/-! ### The annotations -/

section Annotated

variable [Summary κ ρ]

/-- Every node caches the annotation of its subtree. -/
def Annotated : Tree κ ρ → Prop
  | E => True
  | EE => True
  | node _ l x m r => m = Summary.join x l.ann r.ann ∧ l.Annotated ∧ r.Annotated

@[simp] theorem annotated_T (c : Color) (l : Tree κ ρ) (x : κ) (r : Tree κ ρ) :
    (T c l x r).Annotated ↔ l.Annotated ∧ r.Annotated := by
  simp [T, Annotated]

theorem Annotated.balance {l r : Tree κ ρ} (c : Color) (x : κ) (hl : l.Annotated)
    (hr : r.Annotated) : (balance c l x r).Annotated := by
  unfold Tree.balance
  split <;> simp_all [Annotated]

theorem Annotated.rotate {l r : Tree κ ρ} (c : Color) (x : κ) (hl : l.Annotated)
    (hr : r.Annotated) : (rotate c l x r).Annotated := by
  unfold Tree.rotate
  split <;> simp_all [Annotated, Annotated.balance]

theorem Annotated.paint (c : Color) (h : t.Annotated) : (t.paint c).Annotated := by
  cases t with
  | E => trivial
  | EE => trivial
  | node _ l x m r => exact (annotated_T c l x r).2 h.2

theorem Annotated.redden (h : t.Annotated) : t.redden.Annotated := by
  cases t with
  | E => trivial
  | EE => trivial
  | node _ l x m r =>
    simp only [Tree.redden]
    split
    · exact (annotated_T _ l x r).2 h.2
    · exact h

theorem Annotated.minDel {x : κ} (h : t.Annotated) (hd : t.minDel = some (x, t')) : t'.Annotated := by
  fun_induction Tree.minDel t generalizing x t' with
  | case1 => cases hd
  | case2 => cases hd
  | case3 => cases hd; trivial
  | case4 => cases hd; trivial
  | case5 => cases hd; simp [Annotated]
  | case6 c a y m b _ _ _ ih =>
    obtain ⟨⟨z, a'⟩, hm, he⟩ := bind_eq_some_iff.1 hd
    cases he
    exact (ih h.2.1 hm).rotate c y h.2.2

variable {probe : κ → Ordering} {new : κ} {add : κ → κ} {upd : κ → Option κ}

theorem Annotated.ins (h : t.Annotated)
    (hadd : ∀ x, (Summary.join (add x) : ρ → ρ → ρ) = Summary.join x) :
    (t.ins probe new add).Annotated := by
  induction t with
  | E => simp [Tree.ins, Annotated]
  | EE => simp [Tree.ins, Annotated]
  | node c l y m r ihl ihr =>
    simp only [Tree.ins]
    split
    · exact (ihl h.2.1).balance c y h.2.2
    · exact h.2.1.balance c y (ihr h.2.2)
    · exact ⟨by rw [hadd]; exact h.1, h.2⟩

/-- **Insertion keeps the annotations.** -/
theorem Annotated.insert (h : t.Annotated)
    (hadd : ∀ x, (Summary.join (add x) : ρ → ρ → ρ) = Summary.join x) :
    (t.insert probe new add).Annotated :=
  (h.ins hadd).paint B

theorem Annotated.del (h : t.Annotated)
    (hupd : ∀ x, ∀ y ∈ upd x, (Summary.join y : ρ → ρ → ρ) = Summary.join x)
    (hd : t.del probe upd = some t') : t'.Annotated := by
  fun_induction Tree.del probe upd t generalizing t' with
  | case1 => cases hd; trivial
  | case2 => cases hd; trivial
  | case3 y m hp y' hu => cases hd; exact ⟨by rw [hupd y y' hu]; exact h.1, h.2⟩
  | case4 => cases hd; trivial
  | case5 => cases hd; exact h
  | case6 y m hp y' hu => cases hd; exact ⟨by rw [hupd y y' hu]; exact h.1, h.2⟩
  | case7 => cases hd; trivial
  | case8 => cases hd; exact h
  | case9 y my z m hp ih =>
    obtain ⟨l, hl, he⟩ := bind_eq_some_iff.1 hd
    cases he
    exact (annotated_T ..).2 ⟨ih h.2.1 hl, trivial⟩
  | case10 y my z m hp z' hu => cases hd; exact ⟨by rw [hupd z z' hu]; exact h.1, h.2⟩
  | case11 => cases hd; simp [Annotated]
  | case12 => cases hd; exact h
  | case13 c a y m b _ _ _ hp ih =>
    obtain ⟨a', ha, he⟩ := bind_eq_some_iff.1 hd
    cases he
    exact (ih h.2.1 ha).rotate c y h.2.2
  | case14 c a y m b _ _ _ hp y' hu =>
    cases hd; exact ⟨by rw [hupd y y' hu]; exact h.1, h.2⟩
  | case15 c a y m b _ _ _ hp hu =>
    obtain ⟨⟨x, b'⟩, hb, he⟩ := bind_eq_some_iff.1 hd
    cases he
    exact h.2.1.rotate c x (h.2.2.minDel hb)
  | case16 c a y m b _ _ _ hp ih =>
    obtain ⟨b', hb, he⟩ := bind_eq_some_iff.1 hd
    cases he
    exact h.2.1.rotate c y (ih h.2.2 hb)

/-- **Deletion keeps the annotations.** -/
theorem Annotated.erase (h : t.Annotated)
    (hupd : ∀ x, ∀ y ∈ upd x, (Summary.join y : ρ → ρ → ρ) = Summary.join x)
    (hd : t.erase probe upd = some t') : t'.Annotated := by
  obtain ⟨u, hu, rfl⟩ := map_eq_some_iff.1 hd
  exact (h.redden.del hupd hu).paint B

end Annotated

end Tree

end NicSw.RedBlack
