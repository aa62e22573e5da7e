/-
A memory of lines that is written through a buffer of one line.

Entries are collected in the buffer while they belong to one line.  When a write goes to
another line, the buffer is flushed: the whole line is overwritten, and the buffer is cleared.
So the memory has, of each line, what was written in the last visit to it (`flush_run`), and a
line that is visited again loses what it had.

All writes can be read back if and only if writes to one place agree, and every value other
than zero was written in the last visit to its line (`readBack_iff`).
-/
import Mathlib.Data.List.Basic
import Mathlib.Data.List.Induction
import Mathlib.Data.List.TakeWhile

namespace NicSw

open Function List

variable {ℓ ε V : Type*} [DecidableEq ℓ] [DecidableEq ε]

/-- A write of a value to an entry of a line. -/
structure LineWrite (ℓ ε V : Type*) where
  line : ℓ
  entry : ε
  value : V

/-- The memory, the line that is collected, and the buffer. -/
structure LineBuffer (ℓ ε V : Type*) where
  mem : ℓ → ε → V
  line : Option ℓ
  buf : ε → V

namespace LineBuffer

/-- The memory, with the buffer written to it. -/
def flush (s : LineBuffer ℓ ε V) : ℓ → ε → V :=
  match s.line with
  | none => s.mem
  | some l => update s.mem l s.buf

variable (zero : V)

/-- One write. -/
def put (s : LineBuffer ℓ ε V) (w : LineWrite ℓ ε V) : LineBuffer ℓ ε V :=
  if s.line = some w.line then { s with buf := update s.buf w.entry w.value }
  else
    { mem := s.flush
      line := some w.line
      buf := update (fun _ => zero) w.entry w.value }

/-- All writes, from a memory. -/
def run (mem : ℓ → ε → V) (ws : List (LineWrite ℓ ε V)) : LineBuffer ℓ ε V :=
  ws.foldl (put zero) ⟨mem, none, fun _ => zero⟩

variable {zero} {mem : ℓ → ε → V} {ws : List (LineWrite ℓ ε V)} {l : ℓ} {e : ε}

omit [DecidableEq ε] in
theorem flush_eq (s : LineBuffer ℓ ε V) (l : ℓ) (e : ε) :
    s.flush l e = if s.line = some l then s.buf e else s.mem l e := by
  rw [flush]
  cases s.line with
  | none => rfl
  | some l' =>
    dsimp only
    by_cases h : l' = l
    · subst h
      rw [if_pos rfl, update_self]
    · rw [if_neg (fun h' => h (Option.some.inj h')), update_of_ne (Ne.symm h)]

/-- What one write does to the memory, once it is flushed. -/
theorem flush_put (s : LineBuffer ℓ ε V) (w : LineWrite ℓ ε V) (l : ℓ) (e : ε) :
    (s.put zero w).flush l e
      = if w.line = l then
          if w.entry = e then w.value else if s.line = some l then s.flush l e else zero
        else s.flush l e := by
  rw [flush_eq, put]
  split
  · rename_i hline
    dsimp only
    by_cases hl : w.line = l
    · subst hl
      rw [if_pos hline, if_pos rfl, if_pos hline, flush_eq, if_pos hline]
      by_cases he : w.entry = e
      · rw [he, if_pos rfl, update_self]
      · rw [if_neg he, update_of_ne (Ne.symm he)]
    · have hne : s.line ≠ some l := fun h => hl (Option.some.inj (hline.symm.trans h))
      rw [if_neg hne, if_neg hl, flush_eq, if_neg hne]
  · rename_i hline
    dsimp only
    by_cases hl : w.line = l
    · subst hl
      rw [if_pos rfl, if_pos rfl, if_neg hline]
      by_cases he : w.entry = e
      · rw [he, if_pos rfl, update_self]
      · rw [if_neg he, update_of_ne (Ne.symm he)]
    · rw [if_neg (fun h => hl (Option.some.inj h)), if_neg hl]

theorem line_run_concat (w : LineWrite ℓ ε V) : (run zero mem (ws ++ [w])).line = some w.line := by
  rw [run, foldl_append, foldl_cons, foldl_nil, put]
  split
  · assumption
  · rfl

/-! ### The last visit to a line -/

/-- The writes of the last visit to a line, the latest first. -/
def lastVisit (l : ℓ) (ws : List (LineWrite ℓ ε V)) : List (LineWrite ℓ ε V) :=
  (ws.reverse.dropWhile fun w => w.line ≠ l).takeWhile fun w => w.line = l

variable {w w' : LineWrite ℓ ε V}

omit [DecidableEq ε] in
theorem lastVisit_concat_of_ne (h : w.line ≠ l) : lastVisit l (ws ++ [w]) = lastVisit l ws := by
  rw [lastVisit, reverse_append, reverse_singleton, singleton_append,
    dropWhile_cons_of_pos (by simpa using h), lastVisit]

omit [DecidableEq ε] in
theorem lastVisit_concat_self (h : w.line = l) :
    lastVisit l (ws ++ [w]) = w :: ws.reverse.takeWhile fun w => w.line = l := by
  rw [lastVisit, reverse_append, reverse_singleton, singleton_append,
    dropWhile_cons_of_neg (by simpa using h), takeWhile_cons_of_pos (by simpa using h)]

omit [DecidableEq ε] in
/-- If the last write was to the line, its visit goes on. -/
theorem lastVisit_concat_concat (h' : w'.line = l) (h : w.line = l) :
    lastVisit l (ws ++ [w'] ++ [w]) = w :: lastVisit l (ws ++ [w']) := by
  rw [lastVisit_concat_self h, lastVisit_concat_self h', reverse_append,
    reverse_singleton, singleton_append,
    takeWhile_cons_of_pos (by simpa using h')]

omit [DecidableEq ε] in
/-- If the last write was to another line, a new visit begins. -/
theorem lastVisit_concat_new (h' : w'.line ≠ l) (h : w.line = l) :
    lastVisit l (ws ++ [w'] ++ [w]) = [w] := by
  rw [lastVisit_concat_self h, reverse_append, reverse_singleton,
    singleton_append, takeWhile_cons_of_neg (by simpa using h')]

/-- The value of an entry in a visit. -/
def visitValue (zero : V) (e : ε) (visit : List (LineWrite ℓ ε V)) : V :=
  ((visit.find? fun w => w.entry = e).map LineWrite.value).getD zero

omit [DecidableEq ℓ] in
theorem visitValue_cons (w : LineWrite ℓ ε V) (visit : List (LineWrite ℓ ε V)) :
    visitValue zero e (w :: visit) = if w.entry = e then w.value else visitValue zero e visit := by
  rw [visitValue, find?_cons]
  by_cases h : w.entry = e
  · simp [h]
  · simp [h, visitValue]

theorem run_concat (w : LineWrite ℓ ε V) :
    run zero mem (ws ++ [w]) = (run zero mem ws).put zero w := by
  rw [run, foldl_append]
  rfl

/-- **What is read back** is what was written in the last visit to the line. -/
theorem flush_run (hws : ∃ w ∈ ws, w.line = l) :
    (run zero mem ws).flush l e = visitValue zero e (lastVisit l ws) := by
  induction ws using List.reverseRecOn with
  | nil =>
    obtain ⟨w, hw, -⟩ := hws
    cases hw
  | append_singleton ws w ih =>
    rw [run_concat, flush_put]
    by_cases hl : w.line = l
    · rw [if_pos hl]
      rcases eq_nil_or_concat' ws with rfl | ⟨ws, w', rfl⟩
      · rw [lastVisit_concat_self hl, visitValue_cons]
        rfl
      rw [line_run_concat]
      by_cases hl' : w'.line = l
      · rw [if_pos (congrArg some hl'), lastVisit_concat_concat hl' hl, visitValue_cons,
          ih ⟨w', by simp, hl'⟩]
      · rw [if_neg (fun h => hl' (Option.some.inj h)), lastVisit_concat_new hl' hl,
          visitValue_cons]
        rfl
    · rw [if_neg hl, lastVisit_concat_of_ne hl]
      obtain ⟨w', hw', hl'⟩ := hws
      rcases mem_append.mp hw' with hw' | hw'
      · exact ih ⟨w', hw', hl'⟩
      · rw [mem_singleton.mp hw'] at hl'
        exact absurd hl' hl

omit [DecidableEq ε] in
theorem mem_of_mem_lastVisit (h : w ∈ lastVisit l ws) : w ∈ ws ∧ w.line = l := by
  refine ⟨?_, by simpa using mem_takeWhile_imp h⟩
  have hdrop := (takeWhile_sublist _).subset h
  exact mem_reverse.mp ((dropWhile_sublist _).subset hdrop)

/-- **All writes can be read back** if and only if writes to one place agree, and every value
other than zero is written in the last visit to its line. -/
theorem readBack_iff :
    (∀ w ∈ ws, (run zero mem ws).flush w.line w.entry = w.value)
      ↔ (∀ w ∈ ws, ∀ w' ∈ ws, w.line = w'.line → w.entry = w'.entry → w.value = w'.value) ∧
        ∀ w ∈ ws, w.value ≠ zero → ∃ w' ∈ lastVisit w.line ws, w'.entry = w.entry := by
  have hread : ∀ w ∈ ws, (run zero mem ws).flush w.line w.entry
      = visitValue zero w.entry (lastVisit w.line ws) := fun w hw => flush_run ⟨w, hw, rfl⟩
  constructor
  · intro h
    refine ⟨fun w hw w' hw' hline hentry => ?_, fun w hw hne => ?_⟩
    · rw [← h w hw, ← h w' hw', hline, hentry]
    · by_contra hnone
      refine hne ?_
      have hfind : (lastVisit w.line ws).find? (fun w' => w'.entry = w.entry) = none := by
        refine find?_eq_none.mpr fun w' hw' he => hnone ⟨w', hw', by simpa using he⟩
      rw [← h w hw, hread w hw, visitValue, hfind]
      rfl
  · rintro ⟨hagree, hlast⟩ w hw
    rw [hread w hw, visitValue]
    cases hfind : (lastVisit w.line ws).find? fun w' => w'.entry = w.entry with
    | none =>
      by_contra hne
      obtain ⟨w', hw', he⟩ := hlast w hw (Ne.symm hne)
      exact absurd he (by simpa using find?_eq_none.mp hfind w' hw')
    | some w' =>
      obtain ⟨hw', hline⟩ := mem_of_mem_lastVisit (mem_of_find?_eq_some hfind)
      exact hagree w' hw' w hw hline (by simpa using find?_some hfind)

/-! ### Lines in order -/

omit [DecidableEq ε] in
/-- Visits do not depend on the values. -/
theorem lastVisit_map {V' : Type*} {g : LineWrite ℓ ε V → LineWrite ℓ ε V'}
    (hg : ∀ w, (g w).line = w.line) : lastVisit l (ws.map g) = (lastVisit l ws).map g := by
  rw [lastVisit, lastVisit, ← map_reverse, dropWhile_map, takeWhile_map]
  simp only [comp_def, hg]

end LineBuffer

end NicSw
