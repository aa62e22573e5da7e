/-
The self-check of the interval tree, and its contents along a run.

`check` looks at colors, heights, the order of the lower ends and the cached maxima, node by
node.  The fields of `Itree` are what it looks for, so it passes after every run of
insertions and removals, also of removals that match nothing.  The contents are followed
interval by interval: an operation changes the entries of its own interval only.
-/
import Mathlib.Data.List.MinMax
import Mathlib.Order.Nat
import NicSw.Acl.Itree

namespace NicSw.Acl.Itree

open Node (high key)

open RedBlack RedBlack.Tree List

variable {ε : Type}

/-! ### The check -/

/-- `low` of a node; the sentinels of the empty trees have 0. -/
def rootLow : Tree (Node ε) Nat → Nat
  | .E => 0
  | .EE => 0
  | .node _ _ x _ _ => x.low

/-- `EMPTY`. -/
def empty : Tree (Node ε) Nat → Bool
  | .node .. => false
  | _ => true

/-- `check` on a node: the black height or a negative error. -/
def checkRoot : Tree (Node ε) Nat → Int
  | .EE => -100
  | .E => 0
  | .node c l x m r =>
    if c = .BB then -100
    else if c = .R ∧ (l.color = .R ∨ r.color = .R) then -110
    else if rootLow l > x.low ∨ (!empty r ∧ rootLow r < x.low) then -120
    else if m ≠ max x.high (max l.ann r.ann) then -130
    else if checkRoot l < 0 then checkRoot l
    else if checkRoot r < 0 then checkRoot r
    else if checkRoot l ≠ checkRoot r then -140
    else if c = .B then checkRoot l + 1
    else checkRoot l

/-- `itree_t::check`. -/
def check (t : Itree ε) : Int := if t.root.color ≠ .B then -1 else checkRoot t.root

/-- Every node caches the largest upper end of its subtree. -/
def LargestHigh : Tree (Node ε) Nat → Prop
  | .E => True
  | .EE => True
  | .node c l x m r =>
    m = ((node c l x m r).toList.map high).foldr max 0 ∧ LargestHigh l ∧ LargestHigh r

variable {l r t : Tree (Node ε) Nat} {c : Color} {x : Node ε} {m : Nat}

/-- The lower ends next to a node are in order. -/
theorem rootLow_le (h : ((node c l x m r).toList.map key).Pairwise (· < ·)) :
    ¬(rootLow l > x.low ∨ (!empty r ∧ rootLow r < x.low)) := by
  have hlow : ∀ y z : Node ε, y.key < z.key → y.low ≤ z.low := by
    intro y z hyz
    rw [key, key, Prod.Lex.toLex_lt_toLex] at hyz
    omega
  rw [toList, pairwise_map, pairwise_append, pairwise_cons] at h
  obtain ⟨-, ⟨hr, -⟩, hl⟩ := h
  rintro (hlt | ⟨hne, hlt⟩)
  · cases l with
    | E => exact absurd hlt (by simp [rootLow])
    | EE => exact absurd hlt (by simp [rootLow])
    | node _ _ y _ _ =>
      exact absurd (hlow y x (hl y (by simp [toList]) x (by simp))) (Nat.not_le.2 hlt)
  · cases r with
    | E => exact absurd hne (by simp [empty])
    | EE => exact absurd hne (by simp [empty])
    | node _ _ y _ _ => exact absurd (hlow x y (hr y (by simp [toList]))) (Nat.not_le.2 hlt)

theorem max_eq (h : (node c l x m r).Annotated) : ¬m ≠ max x.high (max l.ann r.ann) := not_not.2 h.1

/-- The intervals of the subtrees ascend as well. -/
theorem ascending_sub (h : ((node c l x m r).toList.map key).Pairwise (· < ·)) :
    (l.toList.map key).Pairwise (· < ·) ∧ (r.toList.map key).Pairwise (· < ·) := by
  rw [toList, map_append, map_cons, pairwise_append, pairwise_cons] at h
  exact ⟨h.1, h.2.1.2⟩

/-- A balanced tree with right caches and ascending intervals passes, and the result is its
black height. -/
theorem checkRoot_eq {n : Nat} (h : Balanced t c n) (ha : t.Annotated)
    (hasc : (t.toList.map key).Pairwise (· < ·)) : checkRoot t = n := by
  induction h with
  | nil => rfl
  | red hl hr ihl ihr =>
    rw [checkRoot, if_neg (by decide), if_neg (by simp [hl.color_eq, hr.color_eq]),
      if_neg (rootLow_le hasc), if_neg (max_eq ha), ihl ha.2.1 (ascending_sub hasc).1,
      ihr ha.2.2 (ascending_sub hasc).2]
    simp
  | black hl hr ihl ihr =>
    rw [checkRoot, if_neg (by decide), if_neg (by simp), if_neg (rootLow_le hasc),
      if_neg (max_eq ha), ihl ha.2.1 (ascending_sub hasc).1,
      ihr ha.2.2 (ascending_sub hasc).2]
    simp [Int.not_lt.2 (Int.natCast_nonneg _)]

theorem check_nonneg (t : Itree ε) : 0 ≤ t.check := by
  obtain ⟨n, hn⟩ := t.black
  rw [check, if_neg (not_not.2 hn.color_eq), checkRoot_eq hn t.annotated t.ascending]
  exact Int.natCast_nonneg n

theorem foldr_max_append (l1 l2 : List Nat) :
    (l1 ++ l2).foldr max 0 = max (l1.foldr max 0) (l2.foldr max 0) := by
  induction l1 with
  | nil => simp
  | cons a l ih => rw [cons_append, foldr_cons, foldr_cons, ih, max_assoc]

/-- The local rule for the caches makes each the maximum of its subtree. -/
theorem largestHigh (h : t.Annotated) :
    t.ann = (t.toList.map high).foldr max 0 ∧ LargestHigh t := by
  induction t with
  | E => exact ⟨rfl, trivial⟩
  | EE => exact ⟨rfl, trivial⟩
  | node c l x m r ihl ihr =>
    obtain ⟨hl, hl'⟩ := ihl h.2.1
    obtain ⟨hr, hr'⟩ := ihr h.2.2
    have hm : m = ((node c l x m r).toList.map high).foldr max 0 := by
      rw [toList, map_append, foldr_max_append, map_cons, foldr_cons, ← hl, ← hr, max_left_comm]
      exact h.1
    exact ⟨hm, hm, hl', hr'⟩

/-! ### The length of a walk -/

/-- The nodes that `itree_t::walk` looks at. -/
def visits (low high : Nat) : Tree (Node ε) Nat → Nat
  | .node _ l x m r =>
    if low > m then 1
    else 1 + visits low high l + if high ≥ x.low then visits low high r else 0
  | _ => 0

/-- `itree_t::walk`, with a counter of the nodes. -/
def countedWalk {σ : Type} (cb : σ → ε → σ × Bool) (low high : Nat) :
    Tree (Node ε) Nat → σ → Nat × Nat × σ
  | .E, s => (0, 0, s)
  | .EE, s => (0, 0, s)
  | .node _ l x m r, s =>
    if low > m then (1, 0, s)
    else
      let w1 := countedWalk cb low high l s
      let w2 :=
        if x.low ≤ high ∧ x.high ≥ low then (x.payload.size, x.payload.walk cb w1.2.2)
        else (0, w1.2.2)
      let w3 := if high ≥ x.low then countedWalk cb low high r w2.2 else (0, 0, w2.2)
      (1 + w1.1 + w3.1, w1.2.1 + w2.1 + w3.2.1, w3.2.2)

/-- **The counted walk** is the walk, and counts what it visits. -/
theorem countedWalk_eq {σ : Type} (cb : σ → ε → σ × Bool) (low high : Nat)
    (t : Tree (Node ε) Nat) (s : σ) :
    countedWalk cb low high t s = (visits low high t, walkRoot cb low high t s) := by
  induction t generalizing s with
  | E => rfl
  | EE => rfl
  | node c l x m r ihl ihr =>
    rw [countedWalk, visits, walkRoot]
    split
    · rfl
    · simp only [ihl, ihr]
      split <;> rfl

variable {low high e h : Nat}

/-- A subtree that is entered has a node that meets the interval, or one may start behind it. -/
theorem meets_pos (ha : (node c l x m r).Annotated) (hm : low ≤ m)
    (he : 0 < e ∨ ∀ y ∈ (node c l x m r).toList, y.low ≤ high) :
    0 < (node c l x m r).toList.countP (meets low high) + e := by
  refine he.elim (Nat.add_pos_right _) fun hlow => Nat.add_pos_left ?_ _
  by_contra hzero
  have hlt : ∀ y ∈ (node c l x m r).toList, y.high < low := fun y hy => by
    have hno := countP_eq_zero.1 (Nat.eq_zero_of_not_pos hzero) y hy
    simpa [meets, hlow y hy] using hno
  have hx := hlt x (by simp [toList])
  have hmax := (largestHigh ha).1.trans_le (max_le_of_forall_le _ (low - 1)
    (forall_mem_map.2 fun y hy => Nat.le_sub_one_of_lt (hlt y hy)))
  exact absurd (Nat.le_trans hm hmax) (by omega)

/-- A walk goes down to the nodes that meet its interval and, if any may start behind it, to its
end (`e`). -/
theorem visits_le (ha : t.Annotated) (hasc : (t.toList.map key).Pairwise (· < ·))
    (hh : t.height ≤ h) (he : 0 < e ∨ ∀ y ∈ t.toList, y.low ≤ high) :
    visits low high t ≤ 1 + 2 * h * (t.toList.countP (meets low high) + e) := by
  induction t generalizing e h with
  | E => exact Nat.zero_le _
  | EE => exact Nat.zero_le _
  | node c l x m r ihl ihr =>
    obtain _ | h := h
    · cases hh
    obtain ⟨hhl, hhr⟩ := Nat.max_le.1 (Nat.le_of_succ_le_succ hh)
    obtain ⟨hl, hr⟩ := ascending_sub hasc
    have hcount : l.toList.countP (meets low high) + r.toList.countP (meets low high) ≤
        (node c l x m r).toList.countP (meets low high) := by
      simp only [toList, countP_append, countP_cons]
      omega
    rw [visits, Nat.mul_succ, Nat.add_mul]
    split_ifs with hm hx
    · exact Nat.le_add_right ..
    · -- nothing on the left starts behind the interval
      rw [toList, pairwise_map, pairwise_append] at hasc
      have hlow : ∀ y ∈ l.toList, y.low ≤ high := fun y hy =>
        (Prod.Lex.monotone_fst _ _ (hasc.2.2 y hy x mem_cons_self).le).trans hx
      have hpos := meets_pos ha (Nat.not_lt.1 hm) he
      have hleft := ihl (e := 0) ha.2.1 hl hhl (.inr hlow)
      have hright := ihr ha.2.2 hr hhr (he.imp_right fun hlow y hy =>
        hlow y (by simp [toList, hy]))
      have hmul := Nat.mul_le_mul_left (2 * h) (Nat.add_le_add_right hcount e)
      rw [Nat.add_assoc, Nat.mul_add] at hmul
      rw [Nat.add_zero] at hleft
      omega
    · have hpos := he.resolve_right fun hlow => hx (hlow x (by simp [toList]))
      have hleft := ihl ha.2.1 hl hhl (.inl hpos)
      have hmul := Nat.mul_le_mul_left (2 * h)
        (Nat.add_le_add_right (Nat.le_of_add_right_le hcount) e)
      omega

/-! ### The contents -/

/-- The entries filed under an interval. -/
def entriesIn (low high : Nat) (l : List (Node ε)) : List ε :=
  l.flatMap fun x => if x.low = low ∧ x.high = high then x.entries else []

def entriesAt (t : Itree ε) (low high : Nat) : List ε := entriesIn low high t.nodes

theorem entriesIn_split (low high : Nat) (l1 l2 : List (Node ε)) :
    entriesIn low high (l1 ++ l2) = entriesIn low high l1 ++ entriesIn low high l2 :=
  flatMap_append

theorem entriesIn_cons (low high : Nat) (x : Node ε) (l : List (Node ε)) :
    entriesIn low high (x :: l) =
      (if x.low = low ∧ x.high = high then x.entries else []) ++ entriesIn low high l :=
  flatMap_cons

theorem entriesIn_eq_nil {low high : Nat} {l : List (Node ε)}
    (h : ∀ x ∈ l, ¬(x.low = low ∧ x.high = high)) : entriesIn low high l = [] :=
  flatMap_eq_nil_iff.2 fun x hx => if_neg (h x hx)

/-- An interval occurs once. -/
theorem entriesIn_around {l1 l2 : List (Node ε)} {y : Node ε}
    (h : ((l1 ++ y :: l2).map key).Pairwise (· < ·)) :
    entriesIn y.low y.high l1 = [] ∧ entriesIn y.low y.high l2 = [] := by
  have hkey : ∀ x : Node ε, x.low = y.low ∧ x.high = y.high → x.key = y.key := by
    rintro x ⟨h1, h2⟩
    rw [key, key, h1, h2]
  obtain ⟨-, hy, hl⟩ := pairwise_append.1 (pairwise_map.1 h)
  exact ⟨entriesIn_eq_nil fun x hx he => (hl x hx y (by simp)).ne (hkey x he),
    entriesIn_eq_nil fun x hx he => (rel_of_pairwise_cons hy hx).ne' (hkey x he)⟩

/-- An insertion changes the entries of its interval only, to which it adds one. -/
theorem entriesAt_insert (t : Itree ε) (low high : Nat) (e : ε) (m : ε → Bool) (a b : Nat) :
    (t.insert low high e m).entriesAt a b =
      if a = low ∧ b = high then listInsert m e (t.entriesAt a b) else t.entriesAt a b := by
  have hasc := (t.insert low high e m).ascending
  change ((t.insert low high e m).nodes.map key).Pairwise (· < ·) at hasc
  rw [entriesAt, entriesAt]
  rw [nodes_insert] at hasc ⊢
  obtain ⟨l1, l2, hl, he, -, -⟩ | ⟨l1, y, l2, hl, hy, he⟩ :=
    insList_cases (probe low high) ⟨low, high, .entry e⟩ (addEntry m e) t.nodes
  all_goals
    rw [he] at hasc ⊢
    rw [hl]
    obtain ⟨h1, h2⟩ := entriesIn_around hasc
    simp only [entriesIn_split, entriesIn_cons]
  · by_cases hab : a = low ∧ b = high
    · obtain ⟨rfl, rfl⟩ := hab
      simp only [h1, h2, and_self, if_true]
      rfl
    · have hne : ¬(low = a ∧ high = b) := fun h => hab ⟨h.1.symm, h.2.symm⟩
      simp [if_neg hab, if_neg hne]
  · obtain ⟨rfl, rfl⟩ := probe_eq_eq.1 hy
    have hy' : (addEntry m e y).low = y.low ∧ (addEntry m e y).high = y.high := ⟨rfl, rfl⟩
    rw [hy'.1, hy'.2] at h1 h2 ⊢
    by_cases hab : a = y.low ∧ b = y.high
    · obtain ⟨rfl, rfl⟩ := hab
      simp only [h1, h2, and_self, if_true, nil_append, append_nil]
      rw [Node.entries, addEntry, Payload.entries_add]
      rfl
    · have hne : ¬(y.low = a ∧ y.high = b) := fun h => hab ⟨h.1.symm, h.2.symm⟩
      simp only [if_neg hab, if_neg hne]

/-- A removal changes the entries of its interval only, of which the first that matches
goes. -/
theorem entriesAt_remove (t : Itree ε) (low high : Nat) (m : ε → Bool) (a b : Nat) :
    (t.remove low high m).entriesAt a b =
      if a = low ∧ b = high then (t.entriesAt a b).eraseP m else t.entriesAt a b := by
  rw [entriesAt, entriesAt, nodes_remove]
  obtain ⟨he, hn⟩ | ⟨l1, y, l2, hl, hy, he⟩ := delList_cases (delEntry m) (t.guided low high)
  · rw [nodes, he]
    split_ifs with hab
    · obtain ⟨rfl, rfl⟩ := hab
      rw [entriesIn_eq_nil fun x hx h => hn x hx (probe_eq_eq.2 h)]
      rfl
    · rfl
  · have hasc := t.ascending
    rw [hl] at hasc
    obtain ⟨h1, h2⟩ := entriesIn_around hasc
    obtain ⟨rfl, rfl⟩ := probe_eq_eq.1 hy
    have hdel : entriesIn a b (delEntry m y).toList =
        if y.low = a ∧ y.high = b then y.entries.eraseP m else [] := by
      rw [← entries_delEntry]
      cases hd : delEntry m y with
      | none => simp [entriesIn]
      | some z =>
        obtain ⟨hlow, hhigh⟩ := delEntry_interval hd
        simp [entriesIn, hlow, hhigh]
    rw [nodes, he, hl]
    simp only [entriesIn_split, entriesIn_cons, hdel]
    by_cases hab : a = y.low ∧ b = y.high
    · obtain ⟨rfl, rfl⟩ := hab
      simp [h1, h2]
    · have hne : ¬(y.low = a ∧ y.high = b) := fun h => hab ⟨h.1.symm, h.2.symm⟩
      simp only [if_neg hab, if_neg hne]

/-! ### Runs -/

/-- The calls that change a tree; one without `match` has one that accepts every entry. -/
inductive Op (ε : Type)
  | insert (low high : Nat) (e : ε) (m : ε → Bool)
  | remove (low high : Nat) (m : ε → Bool)

namespace Op

def apply (t : Itree ε) : Op ε → Itree ε
  | insert low high e m => t.insert low high e m
  | remove low high m => t.remove low high m

def run (ops : List (Op ε)) : Itree ε := ops.foldl apply create

/-- **After every run the tree passes its check**: it is black at the root and balanced, its
intervals ascend and its caches are the largest upper ends.  The next call adds its entry or
takes out the first that matches under its interval, and changes no other interval.  A walk
visits the nodes that meet its interval, in order. -/
theorem run_checked (ops : List (Op ε)) :
    0 ≤ (run ops).check ∧
      ((run ops).nodes.map key).Pairwise (· < ·) ∧ LargestHigh (run ops).root ∧
      (∀ low high e m a b, ((run (ops ++ [insert low high e m])).entriesAt a b).Perm
        (if a = low ∧ b = high then e :: (run ops).entriesAt a b
        else (run ops).entriesAt a b)) ∧
      (∀ low high m a b, (run (ops ++ [remove low high m])).entriesAt a b =
        if a = low ∧ b = high then ((run ops).entriesAt a b).eraseP m
        else (run ops).entriesAt a b) ∧
      ∀ (σ : Type) (low high : Nat) (cb : σ → ε → σ × Bool) (s : σ),
        ((run ops).walk low high cb s).2 =
          ((run ops).nodes.filter (meets low high)).foldl
            (fun s x => listWalk cb x.entries s) s := by
  have hnext : ∀ op : Op ε, run (ops ++ [op]) = apply (run ops) op := fun op =>
    foldl_append
  refine ⟨check_nonneg _, (run ops).ascending, (largestHigh (run ops).annotated).2, ?_, ?_,
    fun _ low high cb s => walk_eq _ low high cb s⟩
  · intro low high e m a b
    rw [hnext, apply, entriesAt_insert]
    split_ifs
    · exact listInsert_perm m e _
    · exact .refl _
  · intro low high m a b
    rw [hnext, apply, entriesAt_remove]

/-- **After every run the tree is low and walks are short**: a walk looks at two paths at most for
each node that meets its interval, and for its end. -/
theorem run_visits_le (ops : List (Op ε)) :
    (run ops).root.height ≤ 2 * Nat.log 2 ((run ops).nodes.length + 1) ∧
      ∀ low high, visits low high (run ops).root ≤
        1 + 2 * (run ops).root.height * ((run ops).nodes.countP (meets low high) + 1) := by
  obtain ⟨n, hn⟩ := (run ops).black
  exact ⟨hn.height_le_log, fun low high =>
    visits_le (run ops).annotated (run ops).ascending le_rfl (.inl Nat.one_pos)⟩

end Op

end NicSw.Acl.Itree
