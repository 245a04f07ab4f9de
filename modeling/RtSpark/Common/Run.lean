import Mathlib.Logic.Basic
/-!
# Runs over a sequence of inputs

A machine takes one input a step. `stateAfter` is its state once a list
of inputs is taken, `AlongRun` a relation asked of every step of the way.
`alongRun_iff` is the rule a conditional result about runs is read off:
where, under an invariant, a step does what it should exactly when its
input is admissible, a run does so at every step exactly when every input
of it is.
-/

namespace RtSpark

namespace Run

variable {σ ι : Type*} {step : σ → ι → σ} {s : σ} {is : List ι}

/-- The state once the inputs are taken. -/
def stateAfter (step : σ → ι → σ) (s : σ) (is : List ι) : σ :=
  is.foldl step s

/-- `P` holds of every step of the run, between the state it starts from,
its input and the state it ends in. -/
def AlongRun (step : σ → ι → σ) (P : σ → ι → σ → Prop) : σ → List ι → Prop
  | _, [] => True
  | s, i :: is => P s i (step s i) ∧ AlongRun step P (step s i) is

instance decidableAlongRun {P : σ → ι → σ → Prop} [∀ s i s', Decidable (P s i s')] :
    ∀ s is, Decidable (AlongRun step P s is)
  | _, [] => isTrue trivial
  | s, i :: is =>
    have : Decidable (AlongRun step P (step s i) is) := decidableAlongRun (step s i) is
    inferInstanceAs (Decidable (P s i (step s i) ∧ AlongRun step P (step s i) is))

@[simp] theorem stateAfter_nil (step : σ → ι → σ) (s : σ) : stateAfter step s [] = s := rfl

@[simp] theorem stateAfter_cons (step : σ → ι → σ) (s : σ) (i : ι) (is : List ι) :
    stateAfter step s (i :: is) = stateAfter step (step s i) is := rfl

theorem stateAfter_append (s : σ) (is js : List ι) :
    stateAfter step s (is ++ js) = stateAfter step (stateAfter step s is) js :=
  List.foldl_append

/-- A run in two parts. -/
theorem alongRun_append {P : σ → ι → σ → Prop} {js : List ι} :
    AlongRun step P s (is ++ js) ↔
      AlongRun step P s is ∧ AlongRun step P (stateAfter step s is) js := by
  induction is generalizing s with
  | nil => exact (and_iff_right trivial).symm
  | cons i is ih => exact (and_congr_right fun _ => ih).trans and_assoc.symm

/-- **The invariant rule for runs.** -/
theorem invariant {I : σ → Prop} (h0 : I s) (hstep : ∀ s i, i ∈ is → I s → I (step s i)) :
    I (stateAfter step s is) := by
  induction is generalizing s with
  | nil => exact h0
  | cons i is ih =>
    exact ih (hstep s i (List.mem_cons_self ..) h0)
      fun s j hj => hstep s j (List.mem_cons_of_mem _ hj)

/-- A relation along a run is asked at every point the run passes. -/
theorem alongRun_iff_forall {P : σ → ι → σ → Prop} :
    AlongRun step P s is ↔ ∀ js i ks, is = js ++ i :: ks →
      P (stateAfter step s js) i (step (stateAfter step s js) i) := by
  induction is generalizing s with
  | nil =>
    refine ⟨fun _ js i ks h => ?_, fun _ => trivial⟩
    cases js <;> cases h
  | cons i is ih =>
    constructor
    · rintro ⟨hP, hrest⟩ js j ks h
      cases js with
      | nil =>
        obtain ⟨rfl, -⟩ := List.cons.inj h
        exact hP
      | cons j' js =>
        obtain ⟨rfl, hjs⟩ := List.cons.inj h
        exact ih.1 hrest js j ks hjs
    · intro h
      refine ⟨h [] i is rfl, ih.2 fun js j ks hjs => ?_⟩
      exact h (i :: js) j ks (by rw [hjs]; rfl)

/-- **A step criterion is a run criterion.** The invariant may lean on
the step having done what it should: a run is followed up to the first
step that does not. `Q` is what is given of every step of the run. -/
theorem alongRun_iff {P : σ → ι → σ → Prop} {C : σ → ι → Prop} {Q : σ → ι → σ → Prop}
    {I : σ → Prop} (hstep : ∀ s i, I s → Q s i (step s i) → (P s i (step s i) ↔ C s i))
    (hkeep : ∀ s i, I s → P s i (step s i) → I (step s i)) (h0 : I s)
    (hQ : AlongRun step Q s is) :
    AlongRun step P s is ↔ AlongRun step (fun s i _ => C s i) s is := by
  induction is generalizing s with
  | nil => exact Iff.rfl
  | cons i is ih =>
    constructor
    · rintro ⟨hP, hrest⟩
      exact ⟨(hstep s i h0 hQ.1).1 hP, (ih (hkeep s i h0 hP) hQ.2).1 hrest⟩
    · rintro ⟨hC, hrest⟩
      have hP := (hstep s i h0 hQ.1).2 hC
      exact ⟨hP, (ih (hkeep s i h0 hP) hQ.2).2 hrest⟩

/-- What a step does under an invariant it keeps, a run does throughout. -/
theorem alongRun_of_invariant {P : σ → ι → σ → Prop} {I : σ → Prop} (h0 : I s)
    (hstep : ∀ s i, i ∈ is → I s → I (step s i) ∧ P s i (step s i)) : AlongRun step P s is := by
  induction is generalizing s with
  | nil => trivial
  | cons i is ih =>
    obtain ⟨hI, hP⟩ := hstep s i (List.mem_cons_self ..) h0
    exact ⟨hP, ih hI fun s j hj => hstep s j (List.mem_cons_of_mem _ hj)⟩

/-- The same, of runs whose every step is as it should be. -/
theorem alongRun_of_alongRun {P Q : σ → ι → σ → Prop} {I : σ → Prop}
    (hstep : ∀ s i, I s → Q s i (step s i) → I (step s i) ∧ P s i (step s i)) (h0 : I s)
    (hQ : AlongRun step Q s is) : AlongRun step P s is := by
  induction is generalizing s with
  | nil => trivial
  | cons i is ih =>
    obtain ⟨hI, hP⟩ := hstep s i h0 hQ.1
    exact ⟨hP, ih hI hQ.2⟩

/-- What such steps keep holds at the end of such runs. -/
theorem invariant_of_alongRun {Q : σ → ι → σ → Prop} {I : σ → Prop} (h0 : I s)
    (hstep : ∀ s i, I s → Q s i (step s i) → I (step s i)) (hQ : AlongRun step Q s is) :
    I (stateAfter step s is) := by
  induction is generalizing s with
  | nil => exact h0
  | cons i is ih => exact ih (hstep s i h0 hQ.1) hQ.2

/-- What every step does, every run does throughout. -/
theorem alongRun_of_forall {P : σ → ι → σ → Prop} (h : ∀ s i, P s i (step s i)) :
    AlongRun step P s is := by
  induction is generalizing s with
  | nil => trivial
  | cons i is ih => exact ⟨h s i, ih⟩

end Run

end RtSpark
