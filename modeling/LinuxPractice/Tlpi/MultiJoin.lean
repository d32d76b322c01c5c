import LinuxPractice.Kernel.Interleave
import LinuxPractice.Kernel.Runs
import Mathlib.Algebra.Order.BigOperators.Group.Finset
import Mathlib.Algebra.Order.Ring.Int

/-!
# `thread_multijoin.c`: joining whichever thread terminates next

The main thread creates `n` threads and waits on a condition variable until some have
announced their end; it joins these and waits again.  A step is one call of the thread
library with the statements up to the next call: what they read and change is changed
only by the holder of the mutex, or only by the main thread.  A waiting thread can wake up
without a signal, and the thread that is signalled has to wait for the mutex.
-/

namespace LinuxPractice.Tlpi.MultiJoin

open LinuxPractice.Kernel

/-- `enum tstate`. -/
inductive TState where
  | TS_ALIVE
  | TS_TERMINATED
  | TS_JOINED
deriving DecidableEq

/-- The call that `threadFunc` makes next. -/
inductive ThreadPc where
  /-- `sleep`, and the message behind it. -/
  | sleep
  | lock
  | unlock
  | signal
  /-- The thread has returned. -/
  | ended
deriving DecidableEq

/-- The call that `main` makes next. -/
inductive MainPc (n : Nat) where
  | create (idx : Nat)
  | lock
  | wait
  /-- Inside `pthread_cond_wait`, without the mutex. -/
  | waiting
  | join (idx : Fin n)
  | unlock
  /-- `exit(EXIT_SUCCESS)`. -/
  | finished
deriving DecidableEq

inductive Party (n : Nat) where
  | main
  | thread (idx : Fin n)
deriving DecidableEq

/-- The lines that are printed. -/
inductive Line (n : Nat) where
  /-- `"Thread %d terminating\n"`. -/
  | terminating (idx : Fin n)
  /-- `"Reaped thread %d (numLive=%d)\n"`. -/
  | reaped (idx : Fin n) (numLive : Int)
deriving DecidableEq

structure State (n : Nat) where
  threadMutex : Option (Party n)
  /-- The main thread is blocked on `threadDied`. -/
  blocked : Bool
  created : Nat
  numLive : Int
  numUnjoined : Int
  state : Fin n → TState
  output : List (Line n)
  main : MainPc n
  thread : Fin n → ThreadPc
  /-- A call has failed and ended the process. -/
  failed : Bool

variable {n : Nat}

def start (n : Nat) : State n where
  threadMutex := none
  blocked := false
  created := 0
  numLive := 0
  numUnjoined := 0
  state := fun _ => .TS_ALIVE
  output := []
  main := .create 0
  thread := fun _ => .sleep
  failed := false

inductive Answer where
  | ok
  | error
  /-- A wakeup without a signal. -/
  | spurious
deriving DecidableEq

structure Event (n : Nat) where
  party : Party n
  answer : Answer

/-- The `for` loop over the threads, from `idx` on: the next call is `pthread_join` for a
    thread that has terminated, or `pthread_mutex_unlock`. -/
def scan (state : Fin n → TState) (idx : Nat) : MainPc n :=
  match (List.finRange n).find?
      fun i => decide (idx ≤ i.1) && decide (state i = .TS_TERMINATED) with
  | some i => .join i
  | none => .unlock

/-- `while (numUnjoined == 0)`. -/
def testUnjoined (s : State n) : MainPc n :=
  if s.numUnjoined = 0 then .wait else scan s.state 0

/-- `while (numLive > 0)`. -/
def testLive (s : State n) : MainPc n := if 0 < s.numLive then .lock else .finished

/-- The process has ended. -/
def State.over (s : State n) : Prop := s.failed = true ∨ s.main = .finished

instance (s : State n) : Decidable s.over := inferInstanceAs (Decidable (_ ∨ _))

/-- A call of `main` that succeeds. -/
def mainOk (s : State n) : Option (State n) :=
  match s.main with
  | .create idx =>
    if h : idx < n then
      some { s with
        state := Function.update s.state ⟨idx, h⟩ .TS_ALIVE
        created := idx + 1
        main := .create (idx + 1) }
    else
      let s' := { s with numLive := n }
      some { s' with main := testLive s' }
  | .lock =>
    if s.threadMutex = none then
      some { s with threadMutex := some .main, main := testUnjoined s }
    else none
  | .wait => some { s with threadMutex := none, blocked := true, main := .waiting }
  | .waiting =>
    if s.blocked = false ∧ s.threadMutex = none then
      some { s with threadMutex := some .main, main := testUnjoined s }
    else none
  | .join idx =>
    if s.thread idx = .ended then
      let state' := Function.update s.state idx .TS_JOINED
      some { s with
        state := state'
        numLive := s.numLive - 1
        numUnjoined := s.numUnjoined - 1
        output := s.output ++ [.reaped idx (s.numLive - 1)]
        main := scan state' (idx.1 + 1) }
    else none
  | .unlock => some { s with threadMutex := none, main := testLive s }
  | .finished => none

/-- A call of `threadFunc` that succeeds. -/
def threadOk (s : State n) (idx : Fin n) : Option (State n) :=
  match s.thread idx with
  | .sleep =>
    if idx.1 < s.created then
      some { s with
        output := s.output ++ [.terminating idx]
        thread := Function.update s.thread idx .lock }
    else none
  | .lock =>
    if s.threadMutex = none then
      some { s with
        threadMutex := some (.thread idx)
        numUnjoined := s.numUnjoined + 1
        state := Function.update s.state idx .TS_TERMINATED
        thread := Function.update s.thread idx .unlock }
    else none
  | .unlock =>
    some { s with threadMutex := none, thread := Function.update s.thread idx .signal }
  | .signal => some { s with blocked := false, thread := Function.update s.thread idx .ended }
  | .ended => none

/-- Whether the party makes a call whose failure ends the process. -/
def canFail (s : State n) : Party n → Bool
  | .main =>
    match s.main with
    | .create idx => decide (idx < n)
    | .waiting => false
    | _ => true
  | .thread idx => decide (s.thread idx ≠ .sleep ∧ s.thread idx ≠ .ended)

def step (s : State n) (e : Event n) : Option (State n) :=
  if s.over then none
  else
    match e.answer with
    | .ok =>
      match e.party with
      | .main => mainOk s
      | .thread idx => threadOk s idx
    | .error => if canFail s e.party then some { s with failed := true } else none
    | .spurious =>
      if e.party = .main ∧ s.blocked = true then some { s with blocked := false } else none

/-! ### What a step can do -/

/-- The main thread takes the mutex when it asks for it or when it has been woken. -/
def WantsMutex (s : State n) : Prop :=
  s.main = .lock ∨ s.main = .waiting ∧ s.blocked = false

inductive Move (s : State n) : State n → Prop
  | create {idx : Nat} (hidx : idx < n) : s.main = .create idx →
      Move s { s with
        state := Function.update s.state ⟨idx, hidx⟩ .TS_ALIVE
        created := idx + 1
        main := .create (idx + 1) }
  | created {idx : Nat} : s.main = .create idx → n ≤ idx →
      Move s { s with numLive := n, main := if 0 < n then .lock else .finished }
  | mainLock : WantsMutex s → s.threadMutex = none →
      Move s { s with threadMutex := some .main, main := testUnjoined s }
  | wait : s.main = .wait →
      Move s { s with threadMutex := none, blocked := true, main := .waiting }
  | join {idx : Fin n} : s.main = .join idx → s.thread idx = .ended →
      Move s { s with
        state := Function.update s.state idx .TS_JOINED
        numLive := s.numLive - 1
        numUnjoined := s.numUnjoined - 1
        output := s.output ++ [.reaped idx (s.numLive - 1)]
        main := scan (Function.update s.state idx .TS_JOINED) (idx.1 + 1) }
  | mainUnlock : s.main = .unlock →
      Move s { s with threadMutex := none, main := testLive s }
  | sleep {idx : Fin n} : s.thread idx = .sleep → idx.1 < s.created →
      Move s { s with
        output := s.output ++ [.terminating idx]
        thread := Function.update s.thread idx .lock }
  | threadLock {idx : Fin n} : s.thread idx = .lock → s.threadMutex = none →
      Move s { s with
        threadMutex := some (.thread idx)
        numUnjoined := s.numUnjoined + 1
        state := Function.update s.state idx .TS_TERMINATED
        thread := Function.update s.thread idx .unlock }
  | threadUnlock {idx : Fin n} : s.thread idx = .unlock →
      Move s { s with threadMutex := none, thread := Function.update s.thread idx .signal }
  | signal {idx : Fin n} : s.thread idx = .signal →
      Move s { s with blocked := false, thread := Function.update s.thread idx .ended }

theorem move_of_mainOk {s s' : State n} (h : mainOk s = some s') : Move s s' := by
  unfold mainOk at h
  split at h
  · rename_i idx hmain
    split at h
    · cases h
      exact .create _ hmain
    · rename_i hidx
      cases h
      have hmove := Move.created hmain (by omega)
      simpa [testLive] using hmove
  · rename_i hmain
    split at h
    · rename_i hmutex
      cases h
      exact .mainLock (.inl hmain) hmutex
    · cases h
  · rename_i hmain
    cases h
    exact .wait hmain
  · rename_i hmain
    split at h
    · rename_i hfree
      cases h
      exact .mainLock (.inr ⟨hmain, hfree.1⟩) hfree.2
    · cases h
  · rename_i idx hmain
    split at h
    · rename_i hended
      cases h
      exact .join hmain hended
    · cases h
  · rename_i hmain
    cases h
    exact .mainUnlock hmain
  · cases h

theorem move_of_threadOk {s s' : State n} {idx : Fin n} (h : threadOk s idx = some s') :
    Move s s' := by
  unfold threadOk at h
  split at h
  · rename_i hpc
    split at h
    · rename_i hcreated
      cases h
      exact .sleep hpc hcreated
    · cases h
  · rename_i hpc
    split at h
    · rename_i hmutex
      cases h
      exact .threadLock hpc hmutex
    · cases h
  · rename_i hpc
    cases h
    exact .threadUnlock hpc
  · rename_i hpc
    cases h
    exact .signal hpc
  · cases h

/-- A step is a move, a failure or a wakeup without a signal. -/
theorem step_cases {s s' : State n} {e : Event n} (h : step s e = some s') :
    ¬ s.over ∧
      (e.answer ≠ .spurious ∧ Move s s' ∨ s' = { s with failed := true } ∨
        e.answer = .spurious ∧ s.blocked = true ∧ s' = { s with blocked := false }) := by
  unfold step at h
  split at h
  · cases h
  · rename_i hover
    refine ⟨hover, ?_⟩
    split at h
    · rename_i hanswer
      have hne : e.answer ≠ .spurious := by
        rw [hanswer]
        decide
      split at h
      · exact .inl ⟨hne, move_of_mainOk h⟩
      · exact .inl ⟨hne, move_of_threadOk h⟩
    · split at h
      · cases h
        exact .inr (.inl rfl)
      · cases h
    · rename_i hanswer
      split at h
      · rename_i hblocked
        cases h
        exact .inr (.inr ⟨hanswer, hblocked.2, rfl⟩)
      · cases h

/-! ### Scans and counts -/

theorem scan_cases (state : Fin n → TState) (idx : Nat) :
    (∃ i, scan state idx = .join i ∧ state i = .TS_TERMINATED) ∨
      scan state idx = .unlock ∧ ∀ i : Fin n, idx ≤ i.1 → state i ≠ .TS_TERMINATED := by
  unfold scan
  split
  · rename_i i hfind
    have htest := List.find?_some hfind
    simp only [Bool.and_eq_true, decide_eq_true_eq] at htest
    exact .inl ⟨i, rfl, htest.2⟩
  · rename_i hfind
    refine .inr ⟨rfl, fun i hi hterm => ?_⟩
    have htest := List.find?_eq_none.mp hfind i (List.mem_finRange i)
    simp [hi, hterm] at htest

/-- How many threads are in a state. -/
def count (state : Fin n → TState) (t : TState) : Int := ∑ i, if state i = t then 1 else 0

theorem count_update (state : Fin n → TState) (i : Fin n) (new t : TState) :
    count (Function.update state i new) t =
      count state t + ((if new = t then 1 else 0) - (if state i = t then 1 else 0)) :=
  sum_update_sub (fun _ st => if st = t then (1 : Int) else 0) state i new

theorem count_terminate {state : Fin n → TState} {i : Fin n} (h : state i = .TS_ALIVE) :
    count (Function.update state i .TS_TERMINATED) .TS_TERMINATED =
        count state .TS_TERMINATED + 1 ∧
      count (Function.update state i .TS_TERMINATED) .TS_JOINED = count state .TS_JOINED := by
  rw [count_update, count_update, h]
  exact ⟨rfl, add_zero _⟩

theorem count_join {state : Fin n → TState} {i : Fin n} (h : state i = .TS_TERMINATED) :
    count (Function.update state i .TS_JOINED) .TS_TERMINATED =
        count state .TS_TERMINATED - 1 ∧
      count (Function.update state i .TS_JOINED) .TS_JOINED = count state .TS_JOINED + 1 := by
  rw [count_update, count_update, h]
  exact ⟨rfl, rfl⟩

theorem count_nonneg (state : Fin n → TState) (t : TState) : 0 ≤ count state t := by
  apply Finset.sum_nonneg
  intro i _
  split <;> decide

theorem exists_of_count_ne_zero {state : Fin n → TState} {t : TState} (h : count state t ≠ 0) :
    ∃ i, state i = t := by
  by_contra hnone
  apply h
  apply Finset.sum_eq_zero
  intro i _
  rw [if_neg fun hi => hnone ⟨i, hi⟩]

theorem count_pos {state : Fin n → TState} {t : TState} {i : Fin n} (h : state i = t) :
    0 < count state t := by
  apply Finset.sum_pos'
  · intro j _
    split <;> decide
  · exact ⟨i, Finset.mem_univ i, by rw [if_pos h]; decide⟩

theorem count_le (state : Fin n → TState) (t : TState) : count state t ≤ n := by
  have hall : ∑ _i : Fin n, (1 : Int) = n := by simp
  rw [← hall]
  apply Finset.sum_le_sum
  intro j _
  split <;> decide

theorem count_lt_of_ne {state : Fin n → TState} {t : TState} {i : Fin n} (h : state i ≠ t) :
    count state t < n := by
  have hall : ∑ _i : Fin n, (1 : Int) = n := by simp
  rw [← hall]
  apply Finset.sum_lt_sum
  · intro j _
    split <;> decide
  · exact ⟨i, Finset.mem_univ i, by rw [if_neg h]; decide⟩

/-! ### The invariant -/

def MainPc.holds : MainPc n → Bool
  | .wait | .join _ | .unlock => true
  | _ => false

/-- A thread and its state. -/
def Agrees : ThreadPc → TState → Prop
  | .sleep, t | .lock, t => t = .TS_ALIVE
  | .unlock, t | .signal, t => t = .TS_TERMINATED
  | .ended, t => t ≠ .TS_ALIVE

theorem Agrees.eq_ended {pc : ThreadPc} (h : Agrees pc .TS_JOINED) : pc = .ended := by
  cases pc with
  | ended => rfl
  | sleep => cases h
  | lock => cases h
  | unlock => cases h
  | signal => cases h

/-- All threads have been created. -/
def Running (s : State n) : Prop :=
  s.created = n ∧ s.numLive = n - count s.state .TS_JOINED

/-- Where the main thread is. -/
def Phase (s : State n) : Prop :=
  match s.main with
  | .create idx => s.created = idx ∧ idx ≤ n ∧ count s.state .TS_JOINED = 0
  | .lock | .waiting => Running s ∧ 0 < s.numLive
  | .wait => Running s ∧ 0 < s.numLive ∧ s.numUnjoined = 0
  | .join idx => Running s ∧ s.state idx = .TS_TERMINATED
  | .unlock => Running s
  | .finished => Running s ∧ s.numLive = 0

structure Inv (s : State n) : Prop where
  main_mutex : s.threadMutex = some .main ↔ s.main.holds = true
  thread_mutex : ∀ i, s.threadMutex = some (.thread i) ↔ s.thread i = .unlock
  agrees : ∀ i, Agrees (s.thread i) (s.state i)
  started : ∀ i : Fin n, s.created ≤ i.1 → s.thread i = .sleep
  unjoined : s.numUnjoined = count s.state .TS_TERMINATED
  phase : Phase s
  /-- The signal for a thread that has terminated is still to come. -/
  signals : s.blocked = true → s.main = .waiting ∧
    (s.numUnjoined = 0 ∨ ∃ i, s.thread i = .unlock ∨ s.thread i = .signal)

theorem inv_start (n : Nat) : Inv (start n) where
  main_mutex := by simp [start, MainPc.holds]
  thread_mutex := by simp [start]
  agrees := fun i => rfl
  started := fun i _ => rfl
  unjoined := by simp [start, count]
  phase := by simp [Phase, start, count]
  signals := by simp [start]

theorem MainPc.holds_scan (state : Fin n → TState) (idx : Nat) : (scan state idx).holds = true := by
  rcases scan_cases state idx with ⟨i, h, -⟩ | ⟨h, -⟩
  · rw [h]
    rfl
  · rw [h]
    rfl

theorem MainPc.holds_testUnjoined (s : State n) : (testUnjoined s).holds = true := by
  unfold testUnjoined
  split
  · rfl
  · exact holds_scan _ _

theorem holds_testLive (s : State n) : (testLive s).holds = false := by
  unfold testLive
  split
  · rfl
  · rfl

theorem phase_scan {s : State n} (hrun : Running s) {idx : Nat}
    (hmain : s.main = scan s.state idx) : Phase s := by
  unfold Phase
  rw [hmain]
  rcases scan_cases s.state idx with ⟨i, h, hi⟩ | ⟨h, -⟩
  · rw [h]
    exact ⟨hrun, hi⟩
  · rw [h]
    exact hrun

theorem phase_testLive {s : State n} (hrun : Running s) (hmain : s.main = testLive s) :
    Phase s := by
  unfold Phase
  rw [hmain, testLive]
  by_cases hlive : 0 < s.numLive
  · rw [if_pos hlive]
    exact ⟨hrun, hlive⟩
  · rw [if_neg hlive]
    refine ⟨hrun, ?_⟩
    have hle := count_le s.state .TS_JOINED
    have hnum := hrun.2
    omega

theorem Phase.running {s : State n} (h : Phase s) (hmain : ∀ idx, s.main ≠ .create idx) :
    Running s := by
  unfold Phase at h
  split at h
  · rename_i idx heq
    exact absurd heq (hmain idx)
  · exact h.1
  · exact h.1
  · exact h.1
  · exact h.1
  · exact h
  · exact h.1

theorem Phase.wants {s : State n} (h : Phase s) (hwants : WantsMutex s) :
    Running s ∧ 0 < s.numLive := by
  unfold Phase at h
  rcases hwants with hmain | ⟨hmain, -⟩
  · rw [hmain] at h
    exact h
  · rw [hmain] at h
    exact h

/-- The main thread stays where it is. -/
theorem Phase.keep {s s' : State n} (h : Phase s) (hmain : s'.main = s.main)
    (hcreated : s'.created = s.created) (hlive : s'.numLive = s.numLive)
    (hjoined : count s'.state .TS_JOINED = count s.state .TS_JOINED)
    (hunjoined : s.main = .wait → s'.numUnjoined = s.numUnjoined)
    (hstate : ∀ i, s.state i = .TS_TERMINATED → s'.state i = .TS_TERMINATED) : Phase s' := by
  have hrun : Running s → Running s' := by
    rintro ⟨hall, hnum⟩
    exact ⟨hcreated.trans hall, by rw [hlive, hjoined, hnum]⟩
  unfold Phase at h ⊢
  rw [hmain]
  cases hpc : s.main with
  | create idx =>
    rw [hpc] at h
    rw [hcreated, hjoined]
    exact h
  | lock =>
    rw [hpc] at h
    exact ⟨hrun h.1, hlive ▸ h.2⟩
  | wait =>
    rw [hpc] at h
    exact ⟨hrun h.1, hlive ▸ h.2.1, by rw [hunjoined hpc]; exact h.2.2⟩
  | waiting =>
    rw [hpc] at h
    exact ⟨hrun h.1, hlive ▸ h.2⟩
  | join idx =>
    rw [hpc] at h
    exact ⟨hrun h.1, hstate idx h.2⟩
  | unlock =>
    rw [hpc] at h
    exact hrun h
  | finished =>
    rw [hpc] at h
    exact ⟨hrun h.1, hlive ▸ h.2⟩

namespace Inv

variable {s : State n}

theorem blocked_eq_false (h : Inv s) (hmain : s.main ≠ .waiting) : s.blocked = false := by
  cases hblocked : s.blocked with
  | false => rfl
  | true => exact absurd (h.signals hblocked).1 hmain

theorem thread_ne_unlock (h : Inv s) (hmutex : ∀ i, s.threadMutex ≠ some (.thread i)) (i : Fin n) :
    s.thread i ≠ .unlock := by
  intro hunlock
  exact hmutex i ((h.thread_mutex i).mpr hunlock)

theorem mutex_of_holds (h : Inv s) (hholds : s.main.holds = true) (i : Fin n) :
    s.threadMutex ≠ some (.thread i) := by
  rw [h.main_mutex.mpr hholds]
  simp

theorem lt_created (h : Inv s) {idx : Fin n} (hpc : s.thread idx ≠ .sleep) :
    idx.1 < s.created := by
  by_contra hle
  exact hpc (h.started idx (not_lt.mp hle))

theorem started_update (h : Inv s) {idx : Fin n} (hidx : idx.1 < s.created) (pc : ThreadPc)
    (i : Fin n) (hi : s.created ≤ i.1) : Function.update s.thread idx pc i = .sleep := by
  have hne : i ≠ idx := by
    rintro rfl
    exact absurd hidx (not_lt.mpr hi)
  rw [Function.update_of_ne hne]
  exact h.started i hi

theorem agrees_update (h : Inv s) {idx : Fin n} {pc : ThreadPc} (hpc : Agrees pc (s.state idx))
    (i : Fin n) : Agrees (Function.update s.thread idx pc i) (s.state i) := by
  by_cases hi : i = idx
  · subst hi
    rwa [Function.update_self]
  · rw [Function.update_of_ne hi]
    exact h.agrees i

/-- The state of a thread that is created is set to the one it has. -/
theorem state_create (h : Inv s) {idx : Nat} (hidx : idx < n) (hmain : s.main = .create idx) :
    Function.update s.state ⟨idx, hidx⟩ .TS_ALIVE = s.state := by
  have hphase := h.phase
  rw [Phase, hmain] at hphase
  have hsleep : s.thread ⟨idx, hidx⟩ = .sleep := h.started ⟨idx, hidx⟩ (le_of_eq hphase.1)
  have halive : s.state ⟨idx, hidx⟩ = .TS_ALIVE := by
    have hagrees := h.agrees ⟨idx, hidx⟩
    rwa [hsleep] at hagrees
  rw [← halive, Function.update_eq_self]

theorem create (h : Inv s) {idx : Nat} (hidx : idx < n) (hmain : s.main = .create idx) :
    Inv { s with
      state := Function.update s.state ⟨idx, hidx⟩ .TS_ALIVE
      created := idx + 1
      main := .create (idx + 1) } := by
  have hphase := h.phase
  rw [Phase, hmain] at hphase
  rw [h.state_create hidx hmain]
  refine ⟨?_, h.thread_mutex, h.agrees, ?_, h.unjoined, ?_, ?_⟩
  · have hmutex := h.main_mutex
    rw [hmain] at hmutex
    exact hmutex
  · intro i hi
    apply h.started i
    rw [hphase.1]
    exact le_trans (Nat.le_succ idx) hi
  · exact ⟨rfl, hidx, hphase.2.2⟩
  · intro hblocked
    rw [h.blocked_eq_false (by simp [hmain])] at hblocked
    cases hblocked

theorem created (h : Inv s) {idx : Nat} (hmain : s.main = .create idx) (hidx : n ≤ idx) :
    Inv { s with numLive := n, main := if 0 < n then .lock else .finished } := by
  have hphase := h.phase
  rw [Phase, hmain] at hphase
  have hrun : Running { s with
      numLive := n, main := if 0 < n then MainPc.lock else MainPc.finished } :=
    ⟨hphase.1.trans (le_antisymm hphase.2.1 hidx), by simp [hphase.2.2]⟩
  refine ⟨?_, h.thread_mutex, h.agrees, h.started, h.unjoined, ?_, ?_⟩
  · have hmutex := h.main_mutex
    rw [hmain] at hmutex
    by_cases hn : 0 < n
    · simp only [if_pos hn]
      exact hmutex
    · simp only [if_neg hn]
      exact hmutex
  · apply phase_testLive hrun
    simp [testLive]
  · intro hblocked
    rw [h.blocked_eq_false (by simp [hmain])] at hblocked
    cases hblocked

theorem mainLock (h : Inv s) (hwants : WantsMutex s) (hmutex : s.threadMutex = none) :
    Inv { s with threadMutex := some .main, main := testUnjoined s } := by
  obtain ⟨hrun, hlive⟩ := h.phase.wants hwants
  refine ⟨?_, ?_, h.agrees, h.started, h.unjoined, ?_, ?_⟩
  · simp [MainPc.holds_testUnjoined]
  · intro i
    simpa using h.thread_ne_unlock (by simp [hmutex]) i
  · by_cases hzero : s.numUnjoined = 0
    · simp only [testUnjoined, if_pos hzero]
      exact ⟨hrun, hlive, hzero⟩
    · simp only [testUnjoined, if_neg hzero]
      exact phase_scan hrun rfl
  · intro hblocked
    rcases hwants with hmain | ⟨-, hfalse⟩
    · rw [h.blocked_eq_false (by simp [hmain])] at hblocked
      cases hblocked
    · rw [hfalse] at hblocked
      cases hblocked

theorem wait (h : Inv s) (hmain : s.main = .wait) :
    Inv { s with threadMutex := none, blocked := true, main := .waiting } := by
  have hphase := h.phase
  rw [Phase, hmain] at hphase
  refine ⟨by simp [MainPc.holds], ?_, h.agrees, h.started, h.unjoined, ⟨hphase.1, hphase.2.1⟩,
    fun _ => ⟨rfl, .inl hphase.2.2⟩⟩
  intro i
  simpa using h.thread_ne_unlock (h.mutex_of_holds (by rw [hmain]; rfl)) i

theorem join (h : Inv s) {idx : Fin n} (hmain : s.main = .join idx)
    (hended : s.thread idx = .ended) :
    Inv { s with
      state := Function.update s.state idx .TS_JOINED
      numLive := s.numLive - 1
      numUnjoined := s.numUnjoined - 1
      output := s.output ++ [.reaped idx (s.numLive - 1)]
      main := scan (Function.update s.state idx .TS_JOINED) (idx.1 + 1) } := by
  have hphase := h.phase
  rw [Phase, hmain] at hphase
  obtain ⟨⟨hall, hnum⟩, hterm⟩ := hphase
  have hmutex : s.threadMutex = some .main := h.main_mutex.mpr (by rw [hmain]; rfl)
  refine ⟨?_, h.thread_mutex, ?_, h.started, ?_, ?_, ?_⟩
  · simp [MainPc.holds_scan, hmutex]
  · intro i
    by_cases hi : i = idx
    · subst hi
      simp [hended, Agrees]
    · simpa only [Function.update_of_ne hi] using h.agrees i
  · simp only [(count_join hterm).1, h.unjoined]
  · refine phase_scan ⟨hall, ?_⟩ rfl
    simp only [(count_join hterm).2, hnum]
    omega
  · intro hblocked
    rw [h.blocked_eq_false (by simp [hmain])] at hblocked
    cases hblocked

theorem mainUnlock (h : Inv s) (hmain : s.main = .unlock) :
    Inv { s with threadMutex := none, main := testLive s } := by
  have hphase := h.phase
  rw [Phase, hmain] at hphase
  refine ⟨by simp [holds_testLive], ?_, h.agrees, h.started, h.unjoined, ?_, ?_⟩
  · intro i
    simpa using h.thread_ne_unlock (h.mutex_of_holds (by rw [hmain]; rfl)) i
  · exact phase_testLive hphase rfl
  · intro hblocked
    rw [h.blocked_eq_false (by simp [hmain])] at hblocked
    cases hblocked

theorem sleep (h : Inv s) {idx : Fin n} (hpc : s.thread idx = .sleep)
    (hidx : idx.1 < s.created) :
    Inv { s with
      output := s.output ++ [.terminating idx]
      thread := Function.update s.thread idx .lock } := by
  refine ⟨h.main_mutex, ?_, ?_, ?_, h.unjoined, ?_, ?_⟩
  · intro i
    by_cases hi : i = idx
    · subst hi
      simpa [hpc] using h.thread_mutex i
    · simpa only [Function.update_of_ne hi] using h.thread_mutex i
  · apply h.agrees_update
    simpa [hpc, Agrees] using h.agrees idx
  · exact h.started_update hidx _
  · exact h.phase.keep rfl rfl rfl rfl (fun _ => rfl) fun i hi => hi
  · intro hblocked
    refine ⟨(h.signals hblocked).1, (h.signals hblocked).2.imp id ?_⟩
    rintro ⟨i, hi⟩
    have hne : i ≠ idx := by
      rintro rfl
      simp [hpc] at hi
    exact ⟨i, by simpa only [Function.update_of_ne hne] using hi⟩

theorem alive_of_lock (h : Inv s) {idx : Fin n} (hpc : s.thread idx = .lock) :
    s.state idx = .TS_ALIVE := by
  have hagrees := h.agrees idx
  rwa [hpc] at hagrees

theorem terminated_of_signal (h : Inv s) {idx : Fin n} (hpc : s.thread idx = .signal) :
    s.state idx = .TS_TERMINATED := by
  have hagrees := h.agrees idx
  rwa [hpc] at hagrees

theorem threadLock (h : Inv s) {idx : Fin n} (hpc : s.thread idx = .lock)
    (hmutex : s.threadMutex = none) :
    Inv { s with
      threadMutex := some (.thread idx)
      numUnjoined := s.numUnjoined + 1
      state := Function.update s.state idx .TS_TERMINATED
      thread := Function.update s.thread idx .unlock } := by
  have halive := h.alive_of_lock hpc
  have hholds : s.main.holds = false := by
    cases hholds : s.main.holds with
    | false => rfl
    | true =>
      rw [h.main_mutex.mpr hholds] at hmutex
      cases hmutex
  refine ⟨by simp [hholds], ?_, ?_, ?_, ?_, ?_, ?_⟩
  · intro i
    by_cases hi : i = idx
    · subst hi
      simp
    · have hne : s.thread i ≠ .unlock := h.thread_ne_unlock (by simp [hmutex]) i
      simp [hi, hne, Ne.symm hi]
  · intro i
    by_cases hi : i = idx
    · subst hi
      simp [Agrees]
    · simpa only [Function.update_of_ne hi] using h.agrees i
  · exact h.started_update (h.lt_created (by simp [hpc])) _
  · simp only [(count_terminate halive).1, h.unjoined]
  · refine h.phase.keep rfl rfl rfl ?_ ?_ ?_
    · exact (count_terminate halive).2
    · intro hmain
      rw [hmain] at hholds
      cases hholds
    · intro i hi
      by_cases heq : i = idx
      · subst heq
        exact Function.update_self i _ _
      · simpa only [Function.update_of_ne heq] using hi
  · intro hblocked
    exact ⟨(h.signals hblocked).1, .inr ⟨idx, .inl (Function.update_self idx _ _)⟩⟩

theorem threadUnlock (h : Inv s) {idx : Fin n} (hpc : s.thread idx = .unlock) :
    Inv { s with threadMutex := none, thread := Function.update s.thread idx .signal } := by
  have hmutex : s.threadMutex = some (.thread idx) := (h.thread_mutex idx).mpr hpc
  refine ⟨?_, ?_, ?_, ?_, h.unjoined, ?_, ?_⟩
  · have hmain := h.main_mutex
    rw [hmutex] at hmain
    simpa using hmain
  · intro i
    by_cases hi : i = idx
    · subst hi
      simp
    · have hne := h.thread_mutex i
      rw [hmutex] at hne
      simpa [Function.update_of_ne hi, Ne.symm hi] using hne
  · apply h.agrees_update
    simpa [hpc, Agrees] using h.agrees idx
  · exact h.started_update (h.lt_created (by simp [hpc])) _
  · exact h.phase.keep rfl rfl rfl rfl (fun _ => rfl) fun i hi => hi
  · intro hblocked
    exact ⟨(h.signals hblocked).1, .inr ⟨idx, .inr (Function.update_self idx _ _)⟩⟩

theorem signal (h : Inv s) {idx : Fin n} (hpc : s.thread idx = .signal) :
    Inv { s with blocked := false, thread := Function.update s.thread idx .ended } := by
  refine ⟨h.main_mutex, ?_, ?_, ?_, h.unjoined, ?_, by simp⟩
  · intro i
    by_cases hi : i = idx
    · subst hi
      simpa [hpc] using h.thread_mutex i
    · simpa only [Function.update_of_ne hi] using h.thread_mutex i
  · apply h.agrees_update
    simp [Agrees, h.terminated_of_signal hpc]
  · exact h.started_update (h.lt_created (by simp [hpc])) _
  · exact h.phase.keep rfl rfl rfl rfl (fun _ => rfl) fun i hi => hi

theorem move (h : Inv s) {s' : State n} (hmove : Move s s') : Inv s' := by
  cases hmove with
  | create hidx hmain => exact h.create hidx hmain
  | created hmain hidx => exact h.created hmain hidx
  | mainLock hwants hmutex => exact h.mainLock hwants hmutex
  | wait hmain => exact h.wait hmain
  | join hmain hended => exact h.join hmain hended
  | mainUnlock hmain => exact h.mainUnlock hmain
  | sleep hpc hidx => exact h.sleep hpc hidx
  | threadLock hpc hmutex => exact h.threadLock hpc hmutex
  | threadUnlock hpc => exact h.threadUnlock hpc
  | signal hpc => exact h.signal hpc

theorem step (h : Inv s) {e : Event n} {s' : State n} (hstep : MultiJoin.step s e = some s') :
    Inv s' := by
  obtain ⟨-, ⟨-, hmove⟩ | rfl | ⟨-, -, rfl⟩⟩ := step_cases hstep
  · exact h.move hmove
  · exact ⟨h.main_mutex, h.thread_mutex, h.agrees, h.started, h.unjoined,
      h.phase.keep rfl rfl rfl rfl (fun _ => rfl) fun i hi => hi, h.signals⟩
  · exact ⟨h.main_mutex, h.thread_mutex, h.agrees, h.started, h.unjoined,
      h.phase.keep rfl rfl rfl rfl (fun _ => rfl) (fun i hi => hi), by simp⟩

end Inv

end LinuxPractice.Tlpi.MultiJoin
