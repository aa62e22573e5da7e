/-
Insertion and deletion keep red-black trees balanced, and a deletion never fails: where it
takes the first element of the right subtree, that subtree is not empty.  The height of a
balanced tree is logarithmic.
-/
import Mathlib.Algebra.Group.Nat.Defs
import Mathlib.Data.Nat.Log
import NicSw.Lib.RedBlack

namespace NicSw.RedBlack.Tree

open Color

variable {κ ρ : Type}

/-- `Balanced t c n`: no red node has a red child, every path has `n` black nodes and the
root has color `c`. -/
inductive Balanced : Tree κ ρ → Color → Nat → Prop
  | nil : Balanced E B 0
  | red {a b : Tree κ ρ} {x : κ} {m : ρ} {n : Nat} :
      Balanced a B n → Balanced b B n → Balanced (node R a x m b) R n
  | black {a b : Tree κ ρ} {c1 c2 : Color} {x : κ} {m : ρ} {n : Nat} :
      Balanced a c1 n → Balanced b c2 n → Balanced (node B a x m b) B (n + 1)

/-- Balanced, except that a red root may have red children. -/
inductive Infrared : Tree κ ρ → Nat → Prop
  | fine {t : Tree κ ρ} {c : Color} {n : Nat} : Balanced t c n → Infrared t n
  | red {a b : Tree κ ρ} {c1 c2 : Color} {x : κ} {m : ρ} {n : Nat} :
      Balanced a c1 n → Balanced b c2 n → Infrared (node R a x m b) n

/-- Balanced below a double black root, which counts for two. -/
inductive Bubbled : Tree κ ρ → Nat → Prop
  | nil : Bubbled EE 1
  | node {a b : Tree κ ρ} {c1 c2 : Color} {x : κ} {m : ρ} {n : Nat} :
      Balanced a c1 n → Balanced b c2 n → Bubbled (node BB a x m b) (n + 2)

/-- What a deletion leaves of a tree with root color `c` and black height `n`. -/
inductive Shrunk : Tree κ ρ → Color → Nat → Prop
  | red {t : Tree κ ρ} {c : Color} {n : Nat} : Balanced t c n → Shrunk t R n
  | black {t : Tree κ ρ} {n : Nat} : Balanced t B n → Shrunk t B n
  | bubbled {t : Tree κ ρ} {n : Nat} : Bubbled t n → Shrunk t B n

variable {t : Tree κ ρ}

theorem Balanced.eq_E (h : Balanced t B 0) : t = E := by
  cases h
  rfl

variable {c : Color}

theorem Balanced.leaf (h : Balanced t c 0) : t = E ∨ ∃ x m, t = node R E x m E := by
  cases h with
  | nil => exact .inl rfl
  | red ha hb =>
    cases ha.eq_E
    cases hb.eq_E
    exact .inr ⟨_, _, rfl⟩

variable {n : Nat}

theorem Balanced.black_of (h : Balanced t c n) (ht : ∀ a x m b, t ≠ node R a x m b) :
    Balanced t B n := by
  cases h with
  | nil => exact .nil
  | red ha hb => exact absurd rfl (ht _ _ _ _)
  | black ha hb => exact .black ha hb

theorem Balanced.color_eq (h : Balanced t c n) : t.color = c := by
  cases h <;> rfl

section Rebalance

variable [Summary κ ρ] {l m r : Tree κ ρ} {c c1 c2 : Color} {n : Nat}

theorem Infrared.balance_left (hl : Infrared l n) (x : κ) (hr : Balanced r c n) :
    ∃ c', Balanced (balance B l x r) c' (n + 1) := by
  unfold balance
  split
  case h_1 =>
    cases hl with
    | fine h => cases h with | red ha hb => cases ha
    | red ha hb => cases ha with | red h1 h2 => exact ⟨R, .red (.black h1 h2) (.black hb hr)⟩
  case h_2 =>
    cases hl with
    | fine h => cases h with | red ha hb => cases hb
    | red ha hb => cases hb with | red h1 h2 => exact ⟨R, .red (.black ha h1) (.black h2 hr)⟩
  case h_3 => cases hr with | red ha hb => cases hb
  case h_4 => cases hr with | red ha hb => cases ha
  case h_7 hll hlr _ _ _ _ =>
    cases hl with
    | fine h => exact ⟨B, .black h hr⟩
    | red ha hb =>
      have ha' := ha.black_of fun a x m b he => by subst he; exact hll _ _ _ _ _ _ _ rfl rfl
      have hb' := hb.black_of fun a x m b he => by subst he; exact hlr _ _ _ _ _ _ _ rfl rfl
      exact ⟨B, .black (.red ha' hb') hr⟩
  all_goals contradiction

theorem Infrared.balance_right (hr : Infrared r n) (x : κ) (hl : Balanced l c n) :
    ∃ c', Balanced (balance B l x r) c' (n + 1) := by
  unfold balance
  split
  case h_1 => cases hl with | red ha hb => cases ha
  case h_2 => cases hl with | red ha hb => cases hb
  case h_3 =>
    cases hr with
    | fine h => cases h with | red ha hb => cases hb
    | red ha hb => cases hb with | red h1 h2 => exact ⟨R, .red (.black hl ha) (.black h1 h2)⟩
  case h_4 =>
    cases hr with
    | fine h => cases h with | red ha hb => cases ha
    | red ha hb => cases ha with | red h1 h2 => exact ⟨R, .red (.black hl h1) (.black h2 hb)⟩
  case h_7 _ _ _ hrr hrl _ =>
    cases hr with
    | fine h => exact ⟨B, .black hl h⟩
    | red ha hb =>
      have ha' := ha.black_of fun a x m b he => by subst he; exact hrl _ _ _ _ _ _ _ rfl rfl
      have hb' := hb.black_of fun a x m b he => by subst he; exact hrr _ _ _ _ _ _ _ rfl rfl
      exact ⟨B, .black hl (.red ha' hb')⟩
  all_goals contradiction

theorem balance_BB_left (hl : Balanced l B n) (hm : Balanced m c1 n) (x y : κ)
    (hr : Balanced r c2 n) : Shrunk (balance BB (T R l x m) y r) B (n + 2) := by
  unfold balance T
  split
  case h_5 he =>
    cases he
    cases hm with | red h1 h2 => exact .black (.black (.black hl h1) (.black h2 hr))
  case h_6 => cases hr with | red ha hb => cases ha
  case h_7 hlr =>
    have hm' := hm.black_of fun a x m b he => by subst he; exact hlr _ _ _ _ _ _ _ rfl rfl
    exact .bubbled (.node (.red hl hm') hr)
  all_goals contradiction

theorem balance_BB_right (hl : Balanced l c1 n) (x y : κ) (hm : Balanced m c2 n)
    (hr : Balanced r B n) : Shrunk (balance BB l x (T R m y r)) B (n + 2) := by
  unfold balance T
  split
  case h_5 => cases hl with | red ha hb => cases hb
  case h_6 he =>
    cases he
    cases hm with | red h1 h2 => exact .black (.black (.black hl h1) (.black h2 hr))
  case h_7 _ _ _ _ _ hrl =>
    have hm' := hm.black_of fun a x m b he => by subst he; exact hrl _ _ _ _ _ _ _ rfl rfl
    exact .bubbled (.node hl (.red hm' hr))
  all_goals contradiction

theorem rotate_eq_T (c : Color) (hl : Balanced l c1 n) (x : κ) (hr : Balanced r c2 n) :
    rotate c l x r = T c l x r := by
  unfold rotate
  split <;> first | rfl | (cases hl; done) | cases hr

theorem Shrunk.rotate_red_left (hl : Shrunk l B n) (x : κ) (hr : Balanced r B n) :
    Shrunk (rotate R l x r) R n := by
  cases hl with
  | black hl =>
    rw [rotate_eq_T R hl x hr]
    exact .red (.red hl hr)
  | bubbled hl =>
    cases hl with
    | nil =>
      cases hr with
      | black hc hd =>
        obtain ⟨_, h⟩ := (Infrared.red Balanced.nil hc).balance_left _ hd
        exact .red h
    | node ha hb =>
      cases hr with
      | black hc hd =>
        obtain ⟨_, h⟩ := (Infrared.red (.black ha hb) hc).balance_left _ hd
        exact .red h

theorem Shrunk.rotate_red_right (hr : Shrunk r B n) (x : κ) (hl : Balanced l B n) :
    Shrunk (rotate R l x r) R n := by
  cases hr with
  | black hr =>
    rw [rotate_eq_T R hl x hr]
    exact .red (.red hl hr)
  | bubbled hr =>
    cases hr with
    | nil =>
      cases hl with
      | black ha hb =>
        obtain ⟨_, h⟩ := (Infrared.red hb Balanced.nil).balance_right _ ha
        exact .red h
    | node hc hd =>
      cases hl with
      | black ha hb =>
        obtain ⟨_, h⟩ := (Infrared.red hb (.black hc hd)).balance_right _ ha
        exact .red h

theorem Shrunk.rotate_black_left (hl : Shrunk l c1 n) (x : κ) (hr : Balanced r c2 n) :
    Shrunk (rotate B l x r) B (n + 1) := by
  cases hl with
  | red hl =>
    rw [rotate_eq_T B hl x hr]
    exact .black (.black hl hr)
  | black hl =>
    rw [rotate_eq_T B hl x hr]
    exact .black (.black hl hr)
  | bubbled hl =>
    cases hl with
    | nil =>
      cases hr with
      | black hc hd => exact balance_BB_left .nil hc _ _ hd
      | red hy he =>
        cases hy with
        | black hc hd =>
          obtain ⟨_, h⟩ := (Infrared.red Balanced.nil hc).balance_left _ hd
          exact .black (.black h he)
    | node ha hb =>
      cases hr with
      | black hc hd => exact balance_BB_left (.black ha hb) hc _ _ hd
      | red hy he =>
        cases hy with
        | black hc hd =>
          obtain ⟨_, h⟩ := (Infrared.red (.black ha hb) hc).balance_left _ hd
          exact .black (.black h he)

theorem Shrunk.rotate_black_right (hr : Shrunk r c2 n) (x : κ) (hl : Balanced l c1 n) :
    Shrunk (rotate B l x r) B (n + 1) := by
  cases hr with
  | red hr =>
    rw [rotate_eq_T B hl x hr]
    exact .black (.black hl hr)
  | black hr =>
    rw [rotate_eq_T B hl x hr]
    exact .black (.black hl hr)
  | bubbled hr =>
    cases hr with
    | nil =>
      cases hl with
      | black ha hb => exact balance_BB_right ha _ _ hb .nil
      | red ha hx =>
        cases hx with
        | black hb hc =>
          obtain ⟨_, h⟩ := (Infrared.red hc Balanced.nil).balance_right _ hb
          exact .black (.black ha h)
    | node hd he =>
      cases hl with
      | black ha hb => exact balance_BB_right ha _ _ hb (.black hd he)
      | red ha hx =>
        cases hx with
        | black hb hc =>
          obtain ⟨_, h⟩ := (Infrared.red hc (.black hd he)).balance_right _ hb
          exact .black (.black ha h)

end Rebalance

/-! ### Insertion and deletion -/

section Operations

variable [Summary κ ρ] {probe : κ → Ordering} {new : κ} {add : κ → κ} {upd : κ → Option κ}

theorem Balanced.ins (h : Balanced t c n) :
    (c = B → ∃ c', Balanced (t.ins probe new add) c' n) ∧ Infrared (t.ins probe new add) n := by
  induction h with
  | nil =>
    have hn : Balanced (T R E new E : Tree κ ρ) R 0 := .red .nil .nil
    exact ⟨fun _ => ⟨R, hn⟩, .fine hn⟩
  | @red a b x m n ha hb iha ihb =>
    refine ⟨nofun, ?_⟩
    simp only [Tree.ins]
    split
    · obtain ⟨_, h⟩ := iha.1 rfl
      exact .red h hb
    · obtain ⟨_, h⟩ := ihb.1 rfl
      exact .red ha h
    · exact .fine (.red ha hb)
  | @black a b c1 c2 x m n ha hb iha ihb =>
    have hi : ∃ c', Balanced ((node B a x m b).ins probe new add) c' (n + 1) := by
      simp only [Tree.ins]
      split
      · exact iha.2.balance_left x hb
      · exact ihb.2.balance_right x ha
      · exact ⟨B, .black ha hb⟩
    obtain ⟨c', h⟩ := hi
    exact ⟨fun _ => ⟨c', h⟩, .fine h⟩

theorem Infrared.paint (h : Infrared t n) : ∃ n', Balanced (t.paint B) B n' := by
  cases h with
  | red ha hb => exact ⟨_, .black ha hb⟩
  | fine h =>
    cases h with
    | nil => exact ⟨0, .nil⟩
    | red ha hb => exact ⟨_, .black ha hb⟩
    | black ha hb => exact ⟨_, .black ha hb⟩

/-- **Insertion keeps a tree balanced.** -/
theorem Balanced.insert (h : Balanced t c n) : ∃ n', Balanced (t.insert probe new add) B n' :=
  h.ins.2.paint

theorem Balanced.minDel (h : Balanced t c n) (ht : t ≠ E) :
    ∃ x t', t.minDel = some (x, t') ∧ Shrunk t' c n := by
  fun_induction Tree.minDel t generalizing c n with
  | case1 => exact absurd rfl ht
  | case2 => cases h
  | case3 x m => cases h with | red ha hb => exact ⟨x, E, rfl, .red ha⟩
  | case4 x m =>
    cases h with
    | black ha hb => cases ha; exact ⟨x, EE, rfl, .bubbled .nil⟩
  | case5 x m y my =>
    cases h with
    | black ha hb => cases ha; exact ⟨x, T B E y E, rfl, .black (.black .nil .nil)⟩
  | case6 c' a y m b hR hB hBR ih =>
    -- the left subtree is not empty: with an empty one the node is one of the leaves above
    cases h with
    | red ha hb =>
      have hn : a ≠ E := by
        rintro rfl
        cases ha
        exact hR rfl rfl hb.eq_E
      obtain ⟨x, a', he, hs⟩ := ih ha hn
      exact ⟨x, rotate R a' y b, by simp [he], hs.rotate_red_left y hb⟩
    | black ha hb =>
      have hn : a ≠ E := by
        rintro rfl
        cases ha
        obtain he | ⟨x, m, he⟩ := hb.leaf
        · exact hB rfl rfl he
        · exact hBR x m rfl rfl he
      obtain ⟨x, a', he, hs⟩ := ih ha hn
      exact ⟨x, rotate B a' y b, by simp [he], hs.rotate_black_left y hb⟩

theorem Balanced.del (h : Balanced t c n) : ∃ t', t.del probe upd = some t' ∧ Shrunk t' c n := by
  fun_induction Tree.del probe upd t generalizing c n with
  | case1 => cases h; exact ⟨E, rfl, .black .nil⟩
  | case2 => cases h
  | case3 => cases h with | red ha hb => exact ⟨_, rfl, .red (.red ha hb)⟩
  | case4 => cases h with | red ha hb => exact ⟨_, rfl, .red ha⟩
  | case5 => cases h with | red ha hb => exact ⟨_, rfl, .red (.red ha hb)⟩
  | case6 => cases h with | black ha hb => exact ⟨_, rfl, .black (.black ha hb)⟩
  | case7 => cases h with | black ha hb => cases ha; exact ⟨_, rfl, .bubbled .nil⟩
  | case8 => cases h with | black ha hb => exact ⟨_, rfl, .black (.black ha hb)⟩
  | case9 y my z m hp ih =>
    cases h with
    | black ha hb =>
      cases ha with
      | red h1 h2 =>
        obtain ⟨l, hl, hs⟩ := ih (.red h1 h2)
        cases hs with
        | red hs => exact ⟨_, by rw [hl]; rfl, .black (.black hs hb)⟩
  | case10 => cases h with | black ha hb => exact ⟨_, rfl, .black (.black ha hb)⟩
  | case11 => cases h with | black ha hb => exact ⟨_, rfl, .black (.black hb hb)⟩
  | case12 => cases h with | black ha hb => exact ⟨_, rfl, .black (.black ha hb)⟩
  | case13 c' a y m b _ _ _ hp ih =>
    cases h with
    | red ha hb =>
      obtain ⟨a', he, hs⟩ := ih ha
      exact ⟨_, by rw [he]; rfl, hs.rotate_red_left y hb⟩
    | black ha hb =>
      obtain ⟨a', he, hs⟩ := ih ha
      exact ⟨_, by rw [he]; rfl, hs.rotate_black_left y hb⟩
  | case14 c' a y m b _ _ _ hp y' hu =>
    cases h with
    | red ha hb => exact ⟨_, rfl, .red (.red ha hb)⟩
    | black ha hb => exact ⟨_, rfl, .black (.black ha hb)⟩
  | case15 c' a y m b hR hB hBR hp hu =>
    -- the right subtree is not empty: with an empty one the node is one of the leaves above
    cases h with
    | red ha hb =>
      have hn : b ≠ E := by
        rintro rfl
        cases hb
        exact hR rfl ha.eq_E rfl
      obtain ⟨x, b', he, hs⟩ := hb.minDel hn
      exact ⟨_, by rw [he]; rfl, hs.rotate_red_right x ha⟩
    | black ha hb =>
      have hn : b ≠ E := by
        rintro rfl
        cases hb
        obtain he | ⟨x, m, he⟩ := ha.leaf
        · exact hB rfl he rfl
        · exact hBR x m rfl he rfl
      obtain ⟨x, b', he, hs⟩ := hb.minDel hn
      exact ⟨_, by rw [he]; rfl, hs.rotate_black_right x ha⟩
  | case16 c' a y m b _ _ _ hp ih =>
    cases h with
    | red ha hb =>
      obtain ⟨b', he, hs⟩ := ih hb
      exact ⟨_, by rw [he]; rfl, hs.rotate_red_right y ha⟩
    | black ha hb =>
      obtain ⟨b', he, hs⟩ := ih hb
      exact ⟨_, by rw [he]; rfl, hs.rotate_black_right y ha⟩

theorem rotate_ne_EE (c : Color) (l : Tree κ ρ) (x : κ) (r : Tree κ ρ) : rotate c l x r ≠ EE := by
  intro h
  have := congrArg toList h
  simp [toList] at this

/-- Only the deletion of a black leaf leaves the double black empty tree. -/
theorem del_eq_EE (h : t.del probe upd = some EE) : t = EE ∨ ∃ x m, t = node B E x m E := by
  fun_induction Tree.del probe upd t with
  | case2 => exact .inl rfl
  | case6 y m => exact .inr ⟨y, m, rfl⟩
  | case7 y m => exact .inr ⟨y, m, rfl⟩
  | case8 y m => exact .inr ⟨y, m, rfl⟩
  | case9 =>
    obtain ⟨_, _, he⟩ := Option.bind_eq_some_iff.1 h
    cases he
  | case13 c a y m b =>
    obtain ⟨_, _, he⟩ := Option.bind_eq_some_iff.1 h
    exact absurd (Option.some.inj he) (rotate_ne_EE c _ y b)
  | case15 c a y m b =>
    obtain ⟨_, _, he⟩ := Option.bind_eq_some_iff.1 h
    exact absurd (Option.some.inj he) (rotate_ne_EE c a _ _)
  | case16 c a y m b =>
    obtain ⟨_, _, he⟩ := Option.bind_eq_some_iff.1 h
    exact absurd (Option.some.inj he) (rotate_ne_EE c a y _)
  | _ => cases h

theorem Balanced.redden (h : Balanced t c n) : ∃ c' n', Balanced t.redden c' n' := by
  cases h with
  | nil => exact ⟨B, 0, .nil⟩
  | red ha hb =>
    simp only [Tree.redden, ha.color_eq, hb.color_eq]
    exact ⟨R, _, .red ha hb⟩
  | black ha hb =>
    simp only [Tree.redden, ha.color_eq, hb.color_eq]
    split_ifs with hc
    · obtain ⟨rfl, rfl⟩ := hc
      exact ⟨R, _, .red ha hb⟩
    · exact ⟨B, _, .black ha hb⟩

theorem redden_ne_leaf (t : Tree κ ρ) (x : κ) (m : ρ) : t.redden ≠ node B E x m E := by
  intro h
  cases t with
  | E => cases h
  | EE => cases h
  | node c l y m' r =>
    simp only [Tree.redden] at h
    split_ifs at h with hc
    · cases h
    · cases h
      exact hc ⟨rfl, rfl⟩

/-- **Deletion never fails and keeps a tree balanced.** -/
theorem Balanced.erase (h : Balanced t B n) :
    ∃ t' n', t.erase probe upd = some t' ∧ Balanced t' B n' := by
  obtain ⟨c, k, hr⟩ := h.redden
  obtain ⟨u, hu, hs⟩ : ∃ u, t.redden.del probe upd = some u ∧ Shrunk u c k := hr.del
  have hp : ∃ n', Balanced (u.paint B) B n' := by
    cases hs with
    | red hs => exact (Infrared.fine hs).paint
    | black hs => exact (Infrared.fine hs).paint
    | bubbled hs =>
      cases hs with
      | node ha hb => exact ⟨_, .black ha hb⟩
      | nil =>
        obtain he | ⟨x, m, he⟩ := del_eq_EE hu
        · rw [he] at hr
          cases hr
        · exact absurd he (redden_ne_leaf t x m)
  obtain ⟨n', hp⟩ := hp
  exact ⟨u.paint B, n', by rw [Tree.erase, hu]; rfl, hp⟩

end Operations

/-! ### Height -/

/-- The length of the longest path. -/
def height : Tree κ ρ → Nat
  | node _ l _ _ r => max l.height r.height + 1
  | _ => 0

/-- At most every second node of a path is red, and the black levels are full. -/
theorem Balanced.height_le (h : Balanced t c n) :
    t.height ≤ 2 * n + (if c = R then 1 else 0) ∧ 2 ^ n ≤ t.toList.length + 1 := by
  induction h with
  | nil => exact ⟨Nat.le_refl _, Nat.le_refl _⟩
  | red _ _ ihl ihr =>
    simp only [height, toList, List.length_append, List.length_cons, reduceCtorEq, if_false,
      if_true] at ihl ihr ⊢
    omega
  | black _ _ ihl ihr =>
    simp only [height, toList, List.length_append, List.length_cons, Nat.pow_succ] at ihl ihr ⊢
    split_ifs at ihl ihr ⊢ <;> omega

theorem Balanced.height_le_log (h : Balanced t B n) :
    t.height ≤ 2 * Nat.log 2 (t.toList.length + 1) := by
  obtain ⟨hheight, hfull⟩ := h.height_le
  have hn := Nat.le_log_of_pow_le Nat.one_lt_two hfull
  rw [if_neg (by decide)] at hheight
  omega

end NicSw.RedBlack.Tree
