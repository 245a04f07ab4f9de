import Mathlib.Logic.Relation
import Mathlib.Data.Nat.Notation
/-!
# Loops as partial step functions

A `while` loop is given by its pass: the state after one execution of the
body where the guard holds, `none` where it fails. `Reaches` is what the
loop can be at the head of, `Exits` how it ends, `run` its executable
form under a bound on the passes. A measure that every pass lowers makes
the bound immaterial (`run_exits`), an invariant is checked at one pass
(`Reaches.invariant`), and a property the loop loses is lost at one pass
(`Reaches.leaves`).
-/

namespace RtSpark

namespace Loop

variable {σ : Type*} {pass : σ → Option σ} {s t u : σ}

/-- The states the loop stands at the head of, from `s` on. -/
def Reaches (pass : σ → Option σ) : σ → σ → Prop :=
  Relation.ReflTransGen fun s t => pass s = some t

/-- The loop ends in `t`: it gets there, and the guard fails there. -/
def Exits (pass : σ → Option σ) (s t : σ) : Prop :=
  Reaches pass s t ∧ pass t = none

/-- At most `n` passes of the loop. -/
def run (pass : σ → Option σ) : ℕ → σ → σ
  | 0, s => s
  | n + 1, s =>
    match pass s with
    | none => s
    | some s' => run pass n s'

/-- The heads at which the guard held, over at most `n` passes. -/
def visited (pass : σ → Option σ) : ℕ → σ → List σ
  | 0, _ => []
  | n + 1, s =>
    match pass s with
    | none => []
    | some s' => s :: visited pass n s'

theorem run_of_none (h : pass s = none) (n : ℕ) : run pass n s = s := by
  cases n with
  | zero => rfl
  | succ n => rw [run, h]

theorem run_succ_of_some (h : pass s = some t) (n : ℕ) :
    run pass (n + 1) s = run pass n t := by
  rw [run, h]

theorem visited_of_none (h : pass s = none) (n : ℕ) : visited pass n s = [] := by
  cases n with
  | zero => rfl
  | succ n => rw [visited, h]

theorem visited_succ_of_some (h : pass s = some t) (n : ℕ) :
    visited pass (n + 1) s = s :: visited pass n t := by
  rw [visited, h]

/-- What the executable form computes is reached. -/
theorem reaches_run (pass : σ → Option σ) (n : ℕ) (s : σ) : Reaches pass s (run pass n s) := by
  induction n generalizing s with
  | zero => exact Relation.ReflTransGen.refl
  | succ n ih =>
    cases h : pass s with
    | none => rw [run_of_none h]; exact Relation.ReflTransGen.refl
    | some s' => rw [run_succ_of_some h]; exact (ih s').head h

/-- **The invariant rule.** What one pass preserves, every head of the
loop has. -/
theorem Reaches.invariant {I : σ → Prop} (h : Reaches pass s t) (h0 : I s)
    (hstep : ∀ s s', I s → pass s = some s' → I s') : I t := by
  induction h with
  | refl => exact h0
  | tail _ hpass ih => exact hstep _ _ ih hpass

/-- **The termination rule.** Where every pass keeps `I` and lowers `μ`,
that many passes end the loop. -/
theorem run_exits {I : σ → Prop} {μ : σ → ℕ}
    (hstep : ∀ s s', I s → pass s = some s' → I s' ∧ μ s' < μ s)
    {n : ℕ} (h0 : I s) (hn : μ s < n) : Exits pass s (run pass n s) := by
  refine ⟨reaches_run pass n s, ?_⟩
  induction n generalizing s with
  | zero => omega
  | succ n ih =>
    cases h : pass s with
    | none => rw [run_of_none h]; exact h
    | some s' =>
      obtain ⟨h0', hlt⟩ := hstep s s' h0 h
      rw [run_succ_of_some h]
      exact ih h0' (by omega)

/-- A loop is deterministic, so of two heads one comes after the other. -/
theorem Reaches.total (ht : Reaches pass s t) (hu : Reaches pass s u) :
    Reaches pass t u ∨ Reaches pass u t :=
  Relation.ReflTransGen.total_of_right_unique
    (fun _ _ _ h h' => Option.some.inj (h.symm.trans h')) ht hu

/-- Past an exit there is nothing. -/
theorem Reaches.eq_of_none (h : Reaches pass s t) (hs : pass s = none) : t = s := by
  rcases Relation.ReflTransGen.cases_head h with rfl | ⟨s', hs', -⟩
  · rfl
  · rw [hs] at hs'; cases hs'

/-- The first pass on the way to a later head. -/
theorem Reaches.of_some (h : Reaches pass s u) (hst : pass s = some t) (hne : u ≠ s) :
    Reaches pass t u := by
  rcases Relation.ReflTransGen.cases_head h with rfl | ⟨s', hs', hr⟩
  · exact absurd rfl hne
  · rw [hst] at hs'
    cases hs'
    exact hr

/-- Every head lies before the exit. -/
theorem Exits.reaches_of (h : Exits pass s t) (hu : Reaches pass s u) : Reaches pass u t := by
  rcases Reaches.total h.1 hu with h' | h'
  · rw [h'.eq_of_none h.2]; exact Relation.ReflTransGen.refl
  · exact h'

theorem Exits.unique (ht : Exits pass s t) (hu : Exits pass s u) : t = u :=
  (hu.reaches_of ht.1).eq_of_none ht.2 ▸ rfl

/-- **A loop that loses a property loses it at one pass.** -/
theorem Reaches.leaves {P : σ → Prop} (h : Reaches pass s t) (h0 : P s) :
    P t ∨ ∃ u u', Reaches pass s u ∧ pass u = some u' ∧ P u ∧ ¬ P u' := by
  classical
  induction h with
  | refl => exact Or.inl h0
  | @tail u u' hu hpass ih =>
    rcases ih with hP | hleft
    · by_cases hP' : P u'
      · exact Or.inl hP'
      · exact Or.inr ⟨u, u', hu, hpass, hP, hP'⟩
    · exact Or.inr hleft

/-- Where the guard held there was a pass. -/
theorem exists_of_mem_visited {n : ℕ} (h : t ∈ visited pass n s) : ∃ t', pass t = some t' := by
  induction n generalizing s with
  | zero => cases h
  | succ n ih =>
    cases hs : pass s with
    | none => rw [visited_of_none hs] at h; cases h
    | some s' =>
      rw [visited_succ_of_some hs] at h
      rcases List.mem_cons.1 h with rfl | h
      · exact ⟨s', hs⟩
      · exact ih h

/-- What is visited is reached. -/
theorem reaches_of_mem_visited {n : ℕ} (h : t ∈ visited pass n s) : Reaches pass s t := by
  induction n generalizing s with
  | zero => cases h
  | succ n ih =>
    cases hs : pass s with
    | none => rw [visited_of_none hs] at h; cases h
    | some s' =>
      rw [visited_succ_of_some hs] at h
      rcases List.mem_cons.1 h with rfl | h
      · exact Relation.ReflTransGen.refl
      · exact (ih h).head hs

end Loop

end RtSpark
