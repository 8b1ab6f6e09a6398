/-
  Runs of labelled steps, and how they carry over to another system. `Trace.map` takes a run to a
  run with the same labels, where a step of the first system from a state with the invariant is a
  step of the second.
-/
import Mathlib.Logic.Basic

namespace PcoOs.Lib

variable {σ τ ι : Type}

/-- Steps one after the other, with their labels. -/
inductive Trace (step : σ → ι → σ → Prop) : σ → List ι → σ → Prop
  | nil (s : σ) : Trace step s [] s
  | cons {s t u : σ} {i : ι} {is : List ι} (hs : step s i t) (ht : Trace step t is u) :
      Trace step s (i :: is) u

/-- One step more. -/
theorem Trace.snoc {step : σ → ι → σ → Prop} {s t u : σ} {is : List ι} {i : ι}
    (h : Trace step s is t) (hs : step t i u) : Trace step s (is ++ [i]) u := by
  induction h with
  | nil => exact .cons hs (.nil _)
  | cons hfirst _ ih => exact .cons hfirst (ih hs)

section Run

variable {step : σ → ι → σ → Prop} {I : σ → Prop}
  (hI : ∀ s i t, I s → step s i t → I t)

include hI

theorem Trace.invariant {s t : σ} {is : List ι} (h : Trace step s is t) (hs : I s) : I t := by
  induction h with
  | nil => exact hs
  | cons hstep _ ih => exact ih (hI _ _ _ hs hstep)

/-- A simulation of steps is one of runs. -/
theorem Trace.map {step' : τ → ι → τ → Prop} {f : σ → τ}
    (hf : ∀ s i t, I s → step s i t → step' (f s) i (f t)) {s t : σ} {is : List ι}
    (h : Trace step s is t) (hs : I s) : Trace step' (f s) is (f t) := by
  induction h with
  | nil => exact .nil _
  | cons hstep _ ih => exact .cons (hf _ _ _ hs hstep) (ih (hI _ _ _ hs hstep))

end Run

end PcoOs.Lib
