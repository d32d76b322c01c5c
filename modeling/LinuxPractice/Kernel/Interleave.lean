import Mathlib.Algebra.BigOperators.Group.Finset.Basic
import Mathlib.Data.Fintype.Basic
import Mathlib.Tactic.Abel
import Mathlib.Tactic.Common

/-!
# Processes that share state

Processes of an arbitrary family take turns: in each step one of them, chosen freely,
makes a call that reads and changes the shared state and its own.  The state of the
others stays, and so the proof rules below ask only what a single call does.
-/

namespace LinuxPractice.Kernel

structure Config (σ ι π : Type) where
  shared : σ
  proc : ι → π

variable {σ ι π α : Type} [DecidableEq ι]

/-- One call of process `i`, for the answer `a` of the system; a process that has ended,
    or an answer that the call cannot get, gives `none`. -/
def Config.step (call : ι → σ → π → α → Option (σ × π)) (c : Config σ ι π) (i : ι) (a : α) :
    Option (Config σ ι π) :=
  (call i c.shared (c.proc i) a).map fun r => ⟨r.1, Function.update c.proc i r.2⟩

/-- The configurations that interleavings of calls reach. -/
inductive Reachable (call : ι → σ → π → α → Option (σ × π)) (start : Config σ ι π) :
    Config σ ι π → Prop
  | start : Reachable call start start
  | step {c c' : Config σ ι π} {i : ι} {a : α} :
      Reachable call start c → c.step call i a = some c' → Reachable call start c'

/-- The calls of one interleaving. -/
def Config.run (call : ι → σ → π → α → Option (σ × π)) (c : Config σ ι π) :
    List (ι × α) → Option (Config σ ι π)
  | [] => some c
  | (i, a) :: calls => (c.step call i a).bind fun c' => c'.run call calls

variable {call : ι → σ → π → α → Option (σ × π)} {start c c' : Config σ ι π}

theorem Config.step_eq_some {i : ι} {a : α} (h : c.step call i a = some c') :
    ∃ s p, call i c.shared (c.proc i) a = some (s, p) ∧ c' = ⟨s, Function.update c.proc i p⟩ := by
  obtain ⟨⟨s, p⟩, hcall, rfl⟩ := Option.map_eq_some_iff.mp h
  exact ⟨s, p, hcall, rfl⟩

theorem Reachable.of_run {calls : List (ι × α)} (h : Reachable call start c)
    (hrun : c.run call calls = some c') : Reachable call start c' := by
  induction calls generalizing c with
  | nil =>
    cases hrun
    exact h
  | cons one calls ih =>
    obtain ⟨d, hstep, hrun⟩ := Option.bind_eq_some_iff.mp hrun
    exact ih (h.step hstep) hrun

/-! ### Proof rules -/

/-- What holds at the start and is kept by every call holds in every reachable
    configuration. -/
theorem Reachable.invariant (P : Config σ ι π → Prop) (h : Reachable call start c)
    (hstart : P start)
    (hcall : ∀ {c i a s' p'}, P c → call i c.shared (c.proc i) a = some (s', p') →
      P ⟨s', Function.update c.proc i p'⟩) : P c := by
  induction h with
  | start => exact hstart
  | step hreach hstep ih =>
    obtain ⟨s, p, heq, rfl⟩ := Config.step_eq_some hstep
    exact hcall ih heq

theorem Reachable.of_call {i : ι} {a : α} {s' : σ} {p' : π} (h : Reachable call start c)
    (heq : call i c.shared (c.proc i) a = some (s', p')) :
    Reachable call start ⟨s', Function.update c.proc i p'⟩ := by
  apply h.step (i := i) (a := a)
  rw [Config.step, heq]
  rfl

/-- Processes that each have a call which leaves the shared state as it is can make these
    calls one behind the other. -/
theorem Reachable.sweep {s : σ} {p : ι → π} (h : Reachable call start ⟨s, p⟩) (T : Finset ι)
    (p' : ι → π) (hcall : ∀ i ∈ T, ∃ a, call i s (p i) a = some (s, p' i)) :
    Reachable call start ⟨s, fun i => if i ∈ T then p' i else p i⟩ := by
  induction T using Finset.induction_on with
  | empty => simpa using h
  | insert i T hi ih =>
    have hreach := ih fun j hj => hcall j (Finset.mem_insert_of_mem hj)
    rcases hcall i (Finset.mem_insert_self i T) with ⟨a, heq⟩
    have hown : call i s (if i ∈ T then p' i else p i) a = some (s, p' i) := by
      rw [if_neg hi]
      exact heq
    have hnext := hreach.of_call hown
    have hproc : Function.update (fun j => if j ∈ T then p' j else p j) i (p' i) =
        fun j => if j ∈ insert i T then p' j else p j := by
      funext j
      by_cases hj : j = i
      · subst hj
        simp
      · simp [hj]
    rwa [hproc] at hnext

/-- An assertion about each process and the shared state holds in every reachable
    configuration, if the calls of a process establish its own and keep those of the
    others. -/
theorem Reachable.each (P : ι → σ → π → Prop) (h : Reachable call start c)
    (hstart : ∀ i, P i start.shared (start.proc i))
    (hown : ∀ {i s p a s' p'}, P i s p → call i s p a = some (s', p') → P i s' p')
    (hothers : ∀ {i s p a s' p'}, P i s p → call i s p a = some (s', p') →
      ∀ {j q}, j ≠ i → P j s q → P j s' q) (i : ι) :
    P i c.shared (c.proc i) := by
  induction h generalizing i with
  | start => exact hstart i
  | @step c c' j a hreach hstep ih =>
    obtain ⟨s, p, hcall, rfl⟩ := Config.step_eq_some hstep
    dsimp only
    by_cases hi : i = j
    · subst hi
      rw [Function.update_self]
      exact hown (ih i) hcall
    · rw [Function.update_of_ne hi]
      exact hothers (ih j) hcall hi (ih i)

/-- The same for assertions that the calls of any process keep. -/
theorem Reachable.assertion (P : ι → σ → π → Prop) (h : Reachable call start c)
    (hstart : ∀ i, P i start.shared (start.proc i))
    (hown : ∀ {i s p a s' p'}, P i s p → call i s p a = some (s', p') → P i s' p')
    (hothers : ∀ {i s p a s' p'}, P i s p → call i s p a = some (s', p') →
      ∀ {j q}, P j s q → P j s' q) (i : ι) :
    P i c.shared (c.proc i) := by
  apply h.each P hstart hown
  intro i s p a s' p' hp hcall j q _
  exact hothers hp hcall

theorem sum_update_part [Fintype ι] (part : π → Nat) (proc : ι → π) (i : ι) (p : π) :
    ∑ j, part (Function.update proc i p j) + part (proc i) = ∑ j, part (proc j) + part p := by
  have hrest : ∑ j ∈ Finset.univ.erase i, part (Function.update proc i p j) =
      ∑ j ∈ Finset.univ.erase i, part (proc j) := by
    apply Finset.sum_congr rfl
    intro j hj
    rw [Function.update_of_ne (Finset.ne_of_mem_erase hj)]
  rw [← Finset.add_sum_erase _ _ (Finset.mem_univ i), hrest, Function.update_self,
    ← Finset.add_sum_erase _ (fun j => part (proc j)) (Finset.mem_univ i)]
  omega

/-- The same for parts that depend on the process and can be subtracted. -/
theorem sum_update_sub {M : Type} [AddCommGroup M] [Fintype ι] (part : ι → π → M) (proc : ι → π)
    (i : ι) (p : π) :
    ∑ j, part j (Function.update proc i p j) =
      ∑ j, part j (proc j) + (part i p - part i (proc i)) := by
  have hrest : ∑ j ∈ Finset.univ.erase i, part j (Function.update proc i p j) =
      ∑ j ∈ Finset.univ.erase i, part j (proc j) := by
    apply Finset.sum_congr rfl
    intro j hj
    rw [Function.update_of_ne (Finset.ne_of_mem_erase hj)]
  rw [← Finset.add_sum_erase _ _ (Finset.mem_univ i), hrest, Function.update_self,
    ← Finset.add_sum_erase _ (fun j => part j (proc j)) (Finset.mem_univ i)]
  abel

/-- A quantity of the shared state grows with the sum of what the processes account for,
    if each call changes both by the same amount. -/
theorem Reachable.conserved [Fintype ι] {P : ι → σ → π → Prop} (total : σ → Nat) (part : π → Nat)
    (hassert : ∀ {c}, Reachable call start c → ∀ i, P i c.shared (c.proc i))
    (hcall : ∀ {i s p a s' p'}, P i s p → call i s p a = some (s', p') →
      total s' + part p = total s + part p') (h : Reachable call start c) :
    total c.shared + ∑ i, part (start.proc i) = total start.shared + ∑ i, part (c.proc i) := by
  induction h with
  | start => rfl
  | @step c c' i a hreach hstep ih =>
    obtain ⟨s, p, heq, rfl⟩ := Config.step_eq_some hstep
    have hone := hcall (hassert hreach i) heq
    have hsum := sum_update_part part c.proc i p
    dsimp only
    omega

end LinuxPractice.Kernel
