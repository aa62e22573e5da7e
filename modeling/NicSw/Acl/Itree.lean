/-
The lists and the interval tree of the ACL classifier, with entries of any type.

A node of the tree has an interval and one entry, or a list of at least two.  Each node
caches the largest upper end of its subtree, by which a walk prunes.  `Itree` carries what
the operations keep: the tree is balanced, its caches are right and its intervals ascend.
So the assertion in `min_del` never fails, and `remove` is a total function.
-/
import NicSw.Lib.RedBlackBalance
import Mathlib.Data.Prod.Lex

namespace NicSw.Acl

open RedBlack RedBlack.Tree List

variable {ε σ : Type}

/-! ### Lists -/

/-- `list_t::insert`: before the first entry that matches, or at the end. -/
def listInsert (m : ε → Bool) (e : ε) : List ε → List ε
  | [] => [e]
  | x :: xs => if m x then e :: x :: xs else x :: listInsert m e xs

/-- `list_t::remove`: the first entry that matches; `none` is `HAL_RET_ENTRY_NOT_FOUND`. -/
def listRemove (m : ε → Bool) (es : List ε) : Option (List ε) :=
  if es.any m then some (es.eraseP m) else none

/-- `list_t::walk`: the callback says whether to go on. -/
def listWalk (cb : σ → ε → σ × Bool) : List ε → σ → σ
  | [], s => s
  | e :: es, s => if (cb s e).2 then listWalk cb es (cb s e).1 else (cb s e).1

theorem listInsert_perm (m : ε → Bool) (e : ε) (es : List ε) :
    (listInsert m e es).Perm (e :: es) := by
  induction es with
  | nil => exact .refl _
  | cons x xs ih =>
    rw [listInsert]
    split_ifs
    · exact .refl _
    · exact (ih.cons x).trans (.swap e x xs)

@[simp] theorem length_listInsert (m : ε → Bool) (e : ε) (es : List ε) :
    (listInsert m e es).length = es.length + 1 :=
  (listInsert_perm m e es).length_eq

variable {m : ε → Bool}

theorem eraseP_eq_filter {es : List ε} (h : es.Pairwise fun a b => ¬(m a ∧ m b)) :
    es.eraseP m = es.filter fun e => !m e := by
  induction es with
  | nil => rfl
  | cons e es ih =>
    obtain ⟨he, hes⟩ := pairwise_cons.1 h
    cases hm : m e with
    | false => simp [hm, ih hes]
    | true =>
      rw [eraseP_cons_of_pos hm, filter_cons_of_neg (by simp [hm])]
      refine (filter_eq_self.2 fun a ha => ?_).symm
      simpa [hm] using he a ha

/-! ### Nodes -/

/-- The entry of a node, or its list if it has more than one. -/
inductive Payload (ε : Type)
  | entry (e : ε)
  | list (es : List ε) (two : 2 ≤ es.length)

namespace Payload

def entries : Payload ε → List ε
  | entry e => [e]
  | list es _ => es

/-- A list of one entry is stored directly. -/
def ofList (es : List ε) (h : es ≠ []) : Payload ε :=
  if h1 : es.length ≤ 1 then entry (es.head h) else list es (by omega)

/-- Add an entry; a single one is moved to a list first. -/
def add (m : ε → Bool) (e : ε) : Payload ε → Payload ε
  | entry e' => list (listInsert m e (listInsert m e' [])) (by simp)
  | list es two => list (listInsert m e es) (by simp; omega)

theorem listRemove_ne_nil {es es' : List ε} (two : 2 ≤ es.length) (h : listRemove m es = some es') :
    es' ≠ [] := by
  unfold listRemove at h
  split_ifs at h
  cases h
  have := es.le_length_eraseP (p := m)
  intro he
  rw [he] at this
  simp only [length_nil] at this
  omega

/-- Delete the first entry that matches; `none` if it was the only one. -/
def del (m : ε → Bool) : Payload ε → Option (Payload ε)
  | list es two =>
    match h : listRemove m es with
    | none => some (list es two)
    | some es' => some (ofList es' (listRemove_ne_nil two h))
  | entry e => if m e then none else some (entry e)

def size (p : Payload ε) : Nat := p.entries.length

/-- A walk over a node; what the callback says about a single entry does not matter. -/
def walk (cb : σ → ε → σ × Bool) : Payload ε → σ → σ
  | entry e, s => (cb s e).1
  | list es _, s => listWalk cb es s

@[simp] theorem entries_ofList (es : List ε) (h : es ≠ []) : (ofList es h).entries = es := by
  unfold ofList
  split_ifs with h1
  · match es, h, h1 with
    | [e], _, _ => rfl
  · rfl

@[simp] theorem entries_add (m : ε → Bool) (e : ε) (p : Payload ε) :
    (p.add m e).entries = listInsert m e p.entries := by
  cases p <;> rfl

theorem entries_del (m : ε → Bool) (p : Payload ε) :
    (p.del m).toList.flatMap entries = p.entries.eraseP m := by
  cases p with
  | entry e => cases h : m e <;> simp [del, entries, h]
  | list es two =>
    simp only [del]
    split
    · next h =>
        unfold listRemove at h
        split_ifs at h with hany
        rw [entries, eraseP_of_forall_not (by simpa using hany)]
        simp [entries]
    · next es' h =>
        unfold listRemove at h
        split_ifs at h
        cases h
        simp only [Option.toList_some, flatMap_singleton, entries_ofList]
        rfl

theorem walk_eq (cb : σ → ε → σ × Bool) (p : Payload ε) (s : σ) :
    p.walk cb s = listWalk cb p.entries s := by
  cases p with
  | entry e => simp [walk, entries, listWalk]
  | list es two => rfl

end Payload

/-- `node_t` without its color, its children and the cached maximum. -/
structure Node (ε : Type) where
  low : Nat
  high : Nat
  payload : Payload ε

/-- The intervals in the order of the tree. -/
def Node.key (x : Node ε) : Nat ×ₗ Nat := toLex (x.low, x.high)

def Node.entries (x : Node ε) : List ε := x.payload.entries

/-- `max`, as `update` computes it. -/
instance : Summary (Node ε) Nat where
  empty := 0
  join x l r := max x.high (max l r)

/-- Which way an interval goes at a node. -/
def probe (low high : Nat) (x : Node ε) : Ordering :=
  if low < x.low ∨ (low = x.low ∧ high < x.high) then .lt
  else if low > x.low ∨ high > x.high then .gt
  else .eq

variable {low high : Nat} {x : Node ε}

theorem probe_eq_lt : probe low high x = .lt ↔ toLex (low, high) < x.key := by
  rw [Node.key, Prod.Lex.toLex_lt_toLex, probe]
  split_ifs <;> simp_all

theorem probe_eq_gt : probe low high x = .gt ↔ x.key < toLex (low, high) := by
  rw [Node.key, Prod.Lex.toLex_lt_toLex, probe]
  split_ifs <;> simp only [false_iff, true_iff] <;> omega

theorem probe_eq_eq : probe low high x = .eq ↔ x.low = low ∧ x.high = high := by
  rw [probe]
  split_ifs <;> simp only [false_iff, true_iff] <;> omega

/-- `del_entry`. -/
def delEntry (m : ε → Bool) (x : Node ε) : Option (Node ε) :=
  (x.payload.del m).map fun p => { x with payload := p }

/-- What `insert` does to the node of the interval. -/
def addEntry (m : ε → Bool) (e : ε) (x : Node ε) : Node ε :=
  { x with payload := x.payload.add m e }

@[simp] theorem key_addEntry (m : ε → Bool) (e : ε) (x : Node ε) :
    (addEntry m e x).key = x.key := rfl

theorem delEntry_interval {y : Node ε} (h : delEntry m x = some y) :
    y.low = x.low ∧ y.high = x.high := by
  obtain ⟨p, -, rfl⟩ := Option.map_eq_some_iff.1 h
  exact ⟨rfl, rfl⟩

theorem entries_delEntry (m : ε → Bool) (x : Node ε) :
    (delEntry m x).toList.flatMap Node.entries = x.entries.eraseP m := by
  rw [Node.entries, ← Payload.entries_del, delEntry]
  cases x.payload.del m <;> rfl

/-! ### The tree -/

/-- `itree_t`. -/
structure Itree (ε : Type) where
  root : Tree (Node ε) Nat
  black : ∃ n, root.Balanced .B n
  annotated : root.Annotated
  ascending : (root.toList.map Node.key).Pairwise (· < ·)

namespace Itree

/-- The nodes in the order of their intervals. -/
def nodes (t : Itree ε) : List (Node ε) := t.root.toList

def entries (t : Itree ε) : List ε := t.nodes.flatMap Node.entries

variable {l : List (Node ε)}

/-- The order of the intervals guides every probe. -/
theorem guided_of_ascending (h : (l.map Node.key).Pairwise (· < ·)) (low high : Nat) :
    Guided (probe low high) l := by
  refine (pairwise_map.1 h).imp fun {a b} hab hb => ?_
  rw [Ne, probe_eq_lt, not_lt] at hb
  exact probe_eq_gt.2 (lt_of_lt_of_le hab hb)

theorem guided (t : Itree ε) (low high : Nat) : Guided (probe low high) t.root.toList :=
  guided_of_ascending t.ascending low high

/-- `itree_t::create`. -/
def create : Itree ε where
  root := .E
  black := ⟨0, .nil⟩
  annotated := trivial
  ascending := .nil

/-- `itree_t::insert` on the root. -/
def insertRoot (low high : Nat) (e : ε) (m : ε → Bool) (root : Tree (Node ε) Nat) :
    Tree (Node ε) Nat :=
  root.insert (probe low high) ⟨low, high, .entry e⟩ (addEntry m e)

/-- `itree_t::remove` on the root; `none` is the assertion in `min_del`. -/
def removeRoot (low high : Nat) (m : ε → Bool) (root : Tree (Node ε) Nat) :
    Option (Tree (Node ε) Nat) :=
  root.erase (probe low high) (delEntry m)

/-- Insertion keeps the intervals ascending. -/
theorem ascending_insList {new : Node ε} {add : Node ε → Node ε}
    (h : (l.map Node.key).Pairwise (· < ·)) (hnew : new.key = toLex (low, high))
    (hadd : ∀ x, (add x).key = x.key) :
    ((insList (probe low high) new add l).map Node.key).Pairwise (· < ·) := by
  obtain ⟨l1, l2, rfl, he, h1, h2⟩ | ⟨l1, y, l2, rfl, hy, he⟩ :=
    insList_cases (probe low high) new add l
  · rw [map_append, pairwise_append] at h
    obtain ⟨hl, hr, hlr⟩ := h
    have hlt : ∀ x ∈ l1, x.key < new.key := fun x hx => hnew ▸ probe_eq_gt.1 (h1 x hx)
    have hgt : ∀ x ∈ l2, new.key < x.key := by
      -- the first one is above by the probe, the others by the order
      cases l2 with
      | nil => simp
      | cons y ys =>
        have hy : new.key < y.key := hnew ▸ probe_eq_lt.1 (h2 y rfl)
        refine forall_mem_cons.2 ⟨hy, fun x hx => lt_trans hy ?_⟩
        exact rel_of_pairwise_cons hr (mem_map_of_mem hx)
    rw [he, map_append, map_cons]
    refine pairwise_append.2 ⟨hl, pairwise_cons.2 ⟨?_, hr⟩, ?_⟩
    · simpa using hgt
    · intro a ha b hb
      obtain ⟨x, hx, rfl⟩ := mem_map.1 ha
      obtain rfl | hb := mem_cons.1 hb
      · exact hlt x hx
      · exact hlr _ ha b hb
  · rw [he, map_append, map_cons, hadd]
    simpa using h

/-- Deletion keeps the intervals ascending. -/
theorem ascending_delList (m : ε → Bool) (h : (l.map Node.key).Pairwise (· < ·)) :
    ((delList (probe low high) (delEntry m) l).map Node.key).Pairwise (· < ·) := by
  obtain ⟨he, -⟩ | ⟨l1, y, l2, rfl, -, he⟩ :=
    delList_cases (delEntry m) (guided_of_ascending h low high)
  · rwa [he]
  rw [he]
  cases hd : delEntry m y with
  | none =>
    refine h.sublist ?_
    simp
  | some z =>
    obtain ⟨h1, h2⟩ := delEntry_interval hd
    have hk : z.key = y.key := by rw [Node.key, h1, h2]; rfl
    simpa [hk] using h

/-- `itree_t::insert`. -/
def insert (t : Itree ε) (low high : Nat) (e : ε) (m : ε → Bool) : Itree ε where
  root := insertRoot low high e m t.root
  black := t.black.elim fun _ h => h.insert
  annotated := t.annotated.insert fun _ => rfl
  ascending := by
    rw [insertRoot, toList_insert (t.guided low high)]
    exact ascending_insList t.ascending rfl (key_addEntry m e)

/-- The assertion in `min_del` holds. -/
theorem removeRoot_isSome (t : Itree ε) (low high : Nat) (m : ε → Bool) :
    (removeRoot low high m t.root).isSome := by
  obtain ⟨n, h⟩ := t.black
  obtain ⟨t', n', he, -⟩ : ∃ t' n', removeRoot low high m t.root = some t' ∧
    Balanced t' .B n' := h.erase
  rw [he]
  rfl

variable {root : Tree (Node ε) Nat} {t : Itree ε}

theorem toList_removeRoot (h : removeRoot low high m t.root = some root) :
    root.toList = delList (probe low high) (delEntry m) t.root.toList :=
  toList_erase (t.guided low high) h

/-- `itree_t::remove`. -/
def remove (t : Itree ε) (low high : Nat) (m : ε → Bool) : Itree ε where
  root := (removeRoot low high m t.root).get (t.removeRoot_isSome low high m)
  black := by
    obtain ⟨n, h⟩ := t.black
    obtain ⟨t', n', he, hb⟩ : ∃ t' n', removeRoot low high m t.root = some t' ∧
      Balanced t' .B n' := h.erase
    exact ⟨n', by simpa [he] using hb⟩
  annotated := by
    refine t.annotated.erase (fun x y hy => ?_) (Option.some_get _).symm
    funext l r
    simp only [Summary.join, (delEntry_interval hy).2]
  ascending := by
    rw [toList_removeRoot (Option.some_get _).symm]
    exact ascending_delList m t.ascending

theorem nodes_insert (t : Itree ε) (low high : Nat) (e : ε) (m : ε → Bool) :
    (t.insert low high e m).nodes =
      insList (probe low high) ⟨low, high, .entry e⟩ (addEntry m e) t.nodes :=
  toList_insert (t.guided low high)

theorem nodes_remove (t : Itree ε) (low high : Nat) (m : ε → Bool) :
    (t.remove low high m).nodes = delList (probe low high) (delEntry m) t.nodes :=
  toList_removeRoot (Option.some_get _).symm

variable {P : Nat → Nat → List ε → Prop}

/-- What holds of every interval with its entries, after an insertion. -/
theorem forall_nodes_insert (h : ∀ x ∈ t.nodes, P x.low x.high x.entries) {e : ε}
    (hnew : P low high [e]) (hadd : ∀ es, P low high es → P low high (listInsert m e es)) :
    ∀ x ∈ (t.insert low high e m).nodes, P x.low x.high x.entries := by
  rw [nodes_insert]
  obtain ⟨l1, l2, hl, he, -, -⟩ | ⟨l1, y, l2, hl, hy, he⟩ :=
    insList_cases (probe low high) ⟨low, high, .entry e⟩ (addEntry m e) t.nodes
  all_goals
    rw [he]
    rw [hl] at h
    simp only [forall_mem_append, forall_mem_cons] at h ⊢
  · exact ⟨h.1, hnew, h.2⟩
  · obtain ⟨rfl, rfl⟩ := probe_eq_eq.1 hy
    refine ⟨h.1, ?_, h.2.2⟩
    rw [Node.entries, addEntry, Payload.entries_add]
    exact hadd _ h.2.1

/-- What holds of every interval with its entries, after a removal. -/
theorem forall_nodes_remove (h : ∀ x ∈ t.nodes, P x.low x.high x.entries)
    (hdel : ∀ es, P low high es → P low high (es.eraseP m)) :
    ∀ x ∈ (t.remove low high m).nodes, P x.low x.high x.entries := by
  rw [nodes_remove]
  obtain ⟨he, -⟩ | ⟨l1, y, l2, hl, hy, he⟩ := delList_cases (delEntry m) (t.guided low high)
  · rwa [nodes, he]
  rw [nodes, he]
  rw [nodes, hl] at h
  simp only [forall_mem_append, forall_mem_cons] at h ⊢
  obtain ⟨rfl, rfl⟩ := probe_eq_eq.1 hy
  refine ⟨h.1, ?_, h.2.2⟩
  intro z hz
  have hz' := Option.mem_toList.1 hz
  obtain ⟨hlow, hhigh⟩ := delEntry_interval hz'
  have hzs := entries_delEntry m y
  rw [hz', Option.toList_some, flatMap_singleton] at hzs
  rw [hlow, hhigh, hzs]
  exact hdel _ h.2.1

/-- An insertion adds the entry. -/
theorem entries_insert (t : Itree ε) (low high : Nat) (e : ε) (m : ε → Bool) :
    (t.insert low high e m).entries.Perm (e :: t.entries) := by
  rw [entries, nodes_insert, entries]
  obtain ⟨l1, l2, hl, he, -, -⟩ | ⟨l1, y, l2, hl, hy, he⟩ :=
    insList_cases (probe low high) ⟨low, high, .entry e⟩ (addEntry m e) t.nodes
  all_goals
    rw [he, hl]
    simp
  · exact perm_middle
  · refine .trans ?_ perm_middle
    refine .append_left _ ?_
    rw [← cons_append, Node.entries, addEntry, Payload.entries_add]
    refine .append_right _ ?_
    exact listInsert_perm m e y.entries

/-- **A removal takes out the entry that matches**, if there is at most one and it is filed
under the interval. -/
theorem entries_remove (t : Itree ε) (low high : Nat)
    (hone : t.entries.Pairwise fun a b => ¬(m a ∧ m b))
    (hfiled : ∀ x ∈ t.nodes, ∀ e ∈ x.entries, m e → x.low = low ∧ x.high = high) :
    (t.remove low high m).entries = t.entries.filter fun e => !m e := by
  have hself : ∀ l : List (Node ε), (∀ x ∈ l, ∀ e ∈ x.entries, ¬m e) →
      (l.flatMap Node.entries).filter (fun e => !m e) = l.flatMap Node.entries := by
    intro l hl
    rw [filter_eq_self]
    intro e he
    obtain ⟨x, hx, hex⟩ := mem_flatMap.1 he
    simpa using hl x hx e hex
  rw [entries, nodes_remove, entries]
  have hasc := pairwise_map.1 t.ascending
  obtain ⟨he, hn⟩ | ⟨l1, y, l2, hl, hy, he⟩ := delList_cases (delEntry m) (t.guided low high)
  · rw [nodes, he]
    refine (hself _ fun x hx e hex hm => ?_).symm
    exact hn x hx (probe_eq_eq.2 (hfiled x hx e hex hm))
  -- no other node has the interval, and of the entries of this one at most one goes
  rw [nodes, he]
  rw [entries] at hone
  simp only [nodes, hl] at hone hfiled hasc ⊢
  obtain ⟨hlow, hhigh⟩ := probe_eq_eq.1 hy
  have hkey : ∀ x : Node ε, x.low = low ∧ x.high = high → x.key = y.key := by
    rintro x ⟨h1, h2⟩
    rw [Node.key, Node.key, h1, h2, hlow, hhigh]
  obtain ⟨-, hyl, hly⟩ := pairwise_append.1 hasc
  have hl1 := hself l1 fun x hx e hex hm =>
    (hly x hx y (by simp)).ne (hkey x (hfiled x (by simp [hx]) e hex hm))
  have hl2 := hself l2 fun x hx e hex hm =>
    (rel_of_pairwise_cons hyl hx).ne' (hkey x (hfiled x (by simp [hx]) e hex hm))
  rw [flatMap_append, flatMap_cons, pairwise_append, pairwise_append] at hone
  rw [flatMap_append, flatMap_append, entries_delEntry,
    eraseP_eq_filter hone.2.1.1, flatMap_append, flatMap_cons, filter_append,
    filter_append, hl1, hl2]

/-! ### Walks -/

/-- `itree_t::walk` on a node: the number of entries that are visited and what the callback
made of the state. -/
def walkRoot (cb : σ → ε → σ × Bool) (low high : Nat) :
    Tree (Node ε) Nat → σ → Nat × σ
  | .E, s => (0, s)
  | .EE, s => (0, s)
  | .node _ l x m r, s =>
    if low > m then (0, s)
    else
      let w1 := walkRoot cb low high l s
      let w2 :=
        if x.low ≤ high ∧ x.high ≥ low then (x.payload.size, x.payload.walk cb w1.2)
        else (0, w1.2)
      let w3 := if high ≥ x.low then walkRoot cb low high r w2.2 else (0, w2.2)
      (w1.1 + w2.1 + w3.1, w3.2)

/-- `itree_t::walk`. -/
def walk (t : Itree ε) (low high : Nat) (cb : σ → ε → σ × Bool) (s : σ) : Nat × σ :=
  walkRoot cb low high t.root s

/-- The node's interval meets the interval of the walk. -/
def meets (low high : Nat) (x : Node ε) : Bool := x.low ≤ high && x.high ≥ low

/-- The cached maximum bounds the upper ends. -/
theorem high_le_ann (h : root.Annotated) : ∀ x ∈ root.toList, x.high ≤ root.ann := by
  induction root with
  | E => simp [toList]
  | EE => simp [toList]
  | node c l y m r ihl ihr =>
    obtain ⟨rfl, hl, hr⟩ := h
    intro x hx
    simp only [toList, mem_append, mem_cons] at hx
    have hmax : (node c l y (Summary.join y l.ann r.ann) r).ann =
        max y.high (max l.ann r.ann) := rfl
    obtain hx | rfl | hx := hx
    · have := ihl hl x hx
      omega
    · omega
    · have := ihr hr x hx
      omega

/-- A walk visits the nodes that meet its interval, in order: no pruning hides one. -/
theorem walkRoot_eq (cb : σ → ε → σ × Bool) (low high : Nat) (ha : root.Annotated)
    (hasc : (root.toList.map Node.key).Pairwise (· < ·)) (s : σ) :
    (walkRoot cb low high root s).2 =
      (root.toList.filter (meets low high)).foldl (fun s x => listWalk cb x.entries s) s := by
  induction root generalizing s with
  | E => rfl
  | EE => rfl
  | node c l x m r ihl ihr =>
    by_cases hm : low > m
    · have hnone : (node c l x m r).toList.filter (meets low high) = [] := by
        refine filter_eq_nil_iff.2 fun y hy => ?_
        have hle : y.high ≤ m := high_le_ann ha y hy
        simp only [meets, Bool.and_eq_true, decide_eq_true_eq]
        omega
      rw [walkRoot, if_pos hm, hnone]
      rfl
    · rw [toList, map_append, map_cons, pairwise_append,
        pairwise_cons] at hasc
      obtain ⟨hl, ⟨hxr, hr⟩, -⟩ := hasc
      have hright : ¬high ≥ x.low → r.toList.filter (meets low high) = [] := by
        intro hx
        refine filter_eq_nil_iff.2 fun y hy => ?_
        have hxy := hxr _ (mem_map_of_mem hy)
        rw [Node.key, Node.key, Prod.Lex.toLex_lt_toLex] at hxy
        simp only [meets, Bool.and_eq_true, decide_eq_true_eq]
        omega
      simp only [walkRoot, if_neg hm, toList, filter_append, foldl_append,
        filter_cons, ← ihl ha.2.1 hl]
      by_cases hx : high ≥ x.low
      · rw [if_pos hx, ihr ha.2.2 hr]
        by_cases hx' : x.high ≥ low
        · simp [meets, hx, hx', Payload.walk_eq, Node.entries]
        · simp [meets, hx']
      · rw [if_neg hx, hright hx]
        simp [meets, hx]

theorem walk_eq (t : Itree ε) (low high : Nat) (cb : σ → ε → σ × Bool) (s : σ) :
    (t.walk low high cb s).2 =
      (t.nodes.filter (meets low high)).foldl (fun s x => listWalk cb x.entries s) s :=
  walkRoot_eq cb low high t.annotated t.ascending s

/-- `itree_t::cost`, an `uint32_t`. -/
def costRoot (low high : Nat) : Tree (Node ε) Nat → Nat
  | .E => 0
  | .EE => 0
  | .node c l x m r =>
    match probe low high x with
    | .lt => (1 + costRoot low high l) % 2 ^ 32
    | .gt => (1 + costRoot low high r) % 2 ^ 32
    | .eq => (1 + (walkRoot (fun u _ => (u, true)) low high (.node c l x m r) ()).1) % 2 ^ 32

def cost (t : Itree ε) (low high : Nat) : Nat := costRoot low high t.root

end Itree

end NicSw.Acl
