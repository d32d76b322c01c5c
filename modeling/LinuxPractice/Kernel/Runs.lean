import Mathlib.Tactic.Common

/-!
# Runs of a machine

A machine takes a step for an event, or cannot.  An invariant holds along every run from a
state in which it holds; a measure that each step lowers, up to a credit for its event,
bounds the length of the runs.
-/

namespace LinuxPractice.Kernel

variable {σ ε : Type}

def runEvents (step : σ → ε → Option σ) (s : σ) : List ε → Option σ
  | [] => some s
  | e :: es => (step s e).bind fun s' => runEvents step s' es

/-- What the events of a run may add to a measure. -/
def totalCredit (credit : ε → Nat) : List ε → Nat
  | [] => 0
  | e :: es => credit e + totalCredit credit es

variable {step : σ → ε → Option σ} {s s' : σ} {es : List ε}

theorem runEvents_cons_eq_some {e : ε} (h : runEvents step s (e :: es) = some s') :
    ∃ mid, step s e = some mid ∧ runEvents step mid es = some s' :=
  Option.bind_eq_some_iff.mp h

/-- What every step keeps is kept by every run. -/
theorem runEvents_invariant (P : σ → Prop)
    (hstep : ∀ {s e s'}, P s → step s e = some s' → P s')
    (hs : P s) (h : runEvents step s es = some s') : P s' := by
  induction es generalizing s with
  | nil =>
    cases h
    exact hs
  | cons e es ih =>
    obtain ⟨mid, hone, hrest⟩ := runEvents_cons_eq_some h
    exact ih (hstep hs hone) hrest

/-- A run is not longer than the measure of its start and the credit of its events. -/
theorem length_le_of_runEvents (P : σ → Prop) (μ : σ → Nat) (credit : ε → Nat)
    (hstep : ∀ {s e s'}, P s → step s e = some s' → P s' ∧ μ s' + 1 ≤ μ s + credit e)
    (hs : P s) (h : runEvents step s es = some s') :
    es.length + μ s' ≤ μ s + totalCredit credit es := by
  induction es generalizing s with
  | nil =>
    cases h
    exact Nat.le_of_eq (Nat.zero_add _)
  | cons e es ih =>
    obtain ⟨mid, hone, hrest⟩ := runEvents_cons_eq_some h
    obtain ⟨hmid, hless⟩ := hstep hs hone
    have hlen := ih hmid hrest
    rw [List.length_cons, totalCredit]
    omega

end LinuxPractice.Kernel
