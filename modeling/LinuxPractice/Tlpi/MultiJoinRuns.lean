import LinuxPractice.Tlpi.MultiJoin
import Mathlib.Algebra.BigOperators.Fin

/-!
# All runs of `thread_multijoin.c`

Every thread is reaped once, with the numbers of threads left counting down; nothing
deadlocks, since no signal is lost that the main thread waits for; and without wakeups that
nobody caused a run is short.
-/

namespace LinuxPractice.Tlpi.MultiJoin

open LinuxPractice.Kernel

variable {n : Nat} {s s' : State n} {es : List (Event n)}

theorem inv_of_run (h : runEvents step (start n) es = some s) : Inv s :=
  runEvents_invariant Inv (fun hs hstep => hs.step hstep) (inv_start n) h

/-! ### The reports -/

def reapedLines (output : List (Line n)) : List (Fin n × Int) :=
  output.filterMap fun
    | .reaped idx numLive => some (idx, numLive)
    | .terminating _ => none

/-- The lines for threads that were reaped in this order. -/
def countdown (order : List (Fin n)) : List (Fin n × Int) :=
  order.zipIdx.map fun p => (p.1, (n : Int) - 1 - p.2)

/-- The threads were joined in this order. -/
structure Reports (s : State n) (order : List (Fin n)) : Prop where
  nodup : order.Nodup
  joined : ∀ i, i ∈ order ↔ s.state i = .TS_JOINED
  length : (order.length : Int) = count s.state .TS_JOINED
  lines : reapedLines s.output = countdown order
  announced : ∀ i, s.thread i ≠ .sleep → .terminating i ∈ s.output
  preceded : ∀ k i l, s.output[k]? = some (.reaped i l) → .terminating i ∈ s.output.take k

theorem reports_start (n : Nat) : Reports (start n) [] where
  nodup := List.nodup_nil
  joined := by simp [start]
  length := by simp [start, count]
  lines := rfl
  announced := by simp [start]
  preceded := by simp [start]

theorem countdown_append (order : List (Fin n)) (idx : Fin n) :
    countdown (order ++ [idx]) = countdown order ++ [(idx, (n : Int) - 1 - order.length)] := by
  simp [countdown, List.zipIdx_append]

theorem Reports.keep {order : List (Fin n)} (h : Reports s order)
    (hjoined : ∀ i, s'.state i = .TS_JOINED ↔ s.state i = .TS_JOINED)
    (hcount : count s'.state .TS_JOINED = count s.state .TS_JOINED)
    (houtput : s'.output = s.output)
    (hthread : ∀ i, s'.thread i ≠ .sleep → s.thread i ≠ .sleep) : Reports s' order where
  nodup := h.nodup
  joined := fun i => (h.joined i).trans (hjoined i).symm
  length := h.length.trans hcount.symm
  lines := by rw [houtput, h.lines]
  announced := fun i hi => by
    rw [houtput]
    exact h.announced i (hthread i hi)
  preceded := by
    rw [houtput]
    exact h.preceded

theorem preceded_append {output : List (Line n)}
    (h : ∀ k i l, output[k]? = some (.reaped i l) → .terminating i ∈ output.take k)
    {line : Line n} (hline : ∀ i l, line = .reaped i l → .terminating i ∈ output) (k : Nat)
    (i : Fin n) (l : Int) (hk : (output ++ [line])[k]? = some (.reaped i l)) :
    .terminating i ∈ (output ++ [line]).take k := by
  rcases lt_trichotomy k output.length with hlt | heq | hgt
  · rw [List.getElem?_append_left hlt] at hk
    rw [List.take_append_of_le_length (le_of_lt hlt)]
    exact h k i l hk
  · subst heq
    rw [List.getElem?_append_right (le_refl _), Nat.sub_self] at hk
    rw [List.take_left]
    exact hline i l (by simpa using hk)
  · rw [List.getElem?_eq_none (by simp; omega)] at hk
    cases hk

theorem ne_sleep_of_update {thread : Fin n → ThreadPc} {idx : Fin n} {pc : ThreadPc}
    (hidx : thread idx ≠ .sleep) (i : Fin n) (hi : Function.update thread idx pc i ≠ .sleep) :
    thread i ≠ .sleep := by
  by_cases heq : i = idx
  · subst heq
    exact hidx
  · rwa [Function.update_of_ne heq] at hi

theorem Reports.move {order : List (Fin n)} (h : Reports s order) (hinv : Inv s)
    (hmove : Move s s') : ∃ order', Reports s' order' := by
  cases hmove with
  | @create idx hidx hmain =>
    have hstate := hinv.state_create hidx hmain
    refine ⟨order, h.keep (fun i => ?_) ?_ rfl fun i hi => hi⟩
    · simp only [hstate]
    · simp only [hstate]
  | created hmain hidx => exact ⟨order, h.keep (fun i => Iff.rfl) rfl rfl fun i hi => hi⟩
  | mainLock hwants hmutex => exact ⟨order, h.keep (fun i => Iff.rfl) rfl rfl fun i hi => hi⟩
  | wait hmain => exact ⟨order, h.keep (fun i => Iff.rfl) rfl rfl fun i hi => hi⟩
  | @join idx hmain hended =>
    have hphase := hinv.phase
    rw [Phase, hmain] at hphase
    obtain ⟨⟨-, hnum⟩, hterm⟩ := hphase
    have hnot : idx ∉ order := by
      rw [h.joined, hterm]
      decide
    refine ⟨order ++ [idx], ?_, ?_, ?_, ?_, ?_, ?_⟩
    · exact h.nodup.append (List.nodup_singleton idx) (by simpa using hnot)
    · intro i
      by_cases hi : i = idx
      · subst hi
        simp
      · simp [hi, h.joined]
    · simp only [(count_join hterm).2, List.length_append, List.length_singleton]
      have hlen := h.length
      omega
    · have hlast : (n : Int) - 1 - order.length = s.numLive - 1 := by
        have hlen := h.length
        omega
      rw [countdown_append, hlast, ← h.lines]
      simp [reapedLines]
    · intro i hi
      exact List.mem_append_left _ (h.announced i hi)
    · apply preceded_append h.preceded
      intro i l hline
      cases hline
      exact h.announced idx (by simp [hended])
  | mainUnlock hmain => exact ⟨order, h.keep (fun i => Iff.rfl) rfl rfl fun i hi => hi⟩
  | @sleep idx hpc hidx =>
    refine ⟨order, h.nodup, h.joined, h.length, ?_, ?_, ?_⟩
    · rw [← h.lines]
      simp [reapedLines]
    · intro i hi
      by_cases heq : i = idx
      · subst heq
        simp
      · exact List.mem_append_left _ (h.announced i (by
          simpa only [Function.update_of_ne heq] using hi))
    · apply preceded_append h.preceded
      intro i l hline
      cases hline
  | @threadLock idx hpc hmutex =>
    have halive := hinv.alive_of_lock hpc
    refine ⟨order, h.keep (fun i => ?_) ?_ rfl (ne_sleep_of_update (by simp [hpc]))⟩
    · by_cases hi : i = idx
      · subst hi
        simp [halive]
      · simp only [Function.update_of_ne hi]
    · exact (count_terminate halive).2
  | threadUnlock hpc =>
    exact ⟨order, h.keep (fun i => Iff.rfl) rfl rfl (ne_sleep_of_update (by simp [hpc]))⟩
  | signal hpc =>
    exact ⟨order, h.keep (fun i => Iff.rfl) rfl rfl (ne_sleep_of_update (by simp [hpc]))⟩

theorem exists_reports_of_run (h : runEvents step (start n) es = some s) :
    Inv s ∧ ∃ order, Reports s order := by
  refine runEvents_invariant (fun s => Inv s ∧ ∃ order, Reports s order) ?_
    ⟨inv_start n, [], reports_start n⟩ h
  rintro s e s' ⟨hinv, order, hreports⟩ hstep
  refine ⟨hinv.step hstep, ?_⟩
  obtain ⟨-, ⟨-, hmove⟩ | rfl | ⟨-, -, rfl⟩⟩ := step_cases hstep
  · exact hreports.move hinv hmove
  · exact ⟨order, hreports.keep (fun i => Iff.rfl) rfl rfl fun i hi => hi⟩
  · exact ⟨order, hreports.keep (fun i => Iff.rfl) rfl rfl fun i hi => hi⟩

/-- In every run, with failing calls and wakeups at any time: the lines `Reaped thread` name
    different threads, each behind its own message and after it has returned, with the
    numbers counting down from `n - 1`; and when the process ends well, they name every
    thread. -/
theorem run_reaps (h : runEvents step (start n) es = some s) :
    ∃ order : List (Fin n), order.Nodup ∧ reapedLines s.output = countdown order ∧
      (∀ i ∈ order, s.thread i = .ended) ∧
      (∀ k i l, s.output[k]? = some (.reaped i l) → .terminating i ∈ s.output.take k) ∧
      (s.main = .finished → ∀ i, i ∈ order) := by
  obtain ⟨hinv, order, hreports⟩ := exists_reports_of_run h
  refine ⟨order, hreports.nodup, hreports.lines, ?_, hreports.preceded, ?_⟩
  · intro i hi
    have hjoined := (hreports.joined i).mp hi
    have hagrees := hinv.agrees i
    rw [hjoined] at hagrees
    exact hagrees.eq_ended
  · intro hfinished i
    have hphase := hinv.phase
    rw [Phase, hfinished] at hphase
    obtain ⟨⟨-, hnum⟩, hzero⟩ := hphase
    by_contra hnot
    have hlt := @count_lt_of_ne n s.state .TS_JOINED i fun hj => hnot ((hreports.joined i).mpr hj)
    omega

/-- One thread, which the main thread waits for and is woken too early. -/
def oneThread : List (Event 1) :=
  [⟨.main, .ok⟩, ⟨.main, .ok⟩, ⟨.main, .ok⟩, ⟨.main, .ok⟩, ⟨.main, .spurious⟩, ⟨.main, .ok⟩,
    ⟨.main, .ok⟩, ⟨.thread 0, .ok⟩, ⟨.thread 0, .ok⟩, ⟨.thread 0, .ok⟩, ⟨.thread 0, .ok⟩,
    ⟨.main, .ok⟩, ⟨.main, .ok⟩, ⟨.main, .ok⟩]

theorem exists_run_oneThread :
    ∃ s, runEvents step (start 1) oneThread = some s ∧ s.main = .finished := by
  have hmain : (runEvents step (start 1) oneThread).map State.main = some .finished := by decide
  exact Option.map_eq_some_iff.mp hmain

theorem run_reaps_one :
    ∃ s, runEvents step (start 1) oneThread = some s ∧
      ∃ order : List (Fin 1), order.Nodup ∧ reapedLines s.output = countdown order ∧
        ∀ i, i ∈ order := by
  obtain ⟨s, hrun, hfinished⟩ := exists_run_oneThread
  obtain ⟨order, hnodup, hlines, -, -, hall⟩ := run_reaps hrun
  exact ⟨s, hrun, order, hnodup, hlines, hall hfinished⟩

/-! ### No deadlock -/

theorem step_ok_main (hover : ¬ s.over) (h : (mainOk s).isSome) :
    (step s ⟨.main, .ok⟩).isSome := by
  rw [step, if_neg hover]
  exact h

theorem step_ok_thread (hover : ¬ s.over) {idx : Fin n} (h : (threadOk s idx).isSome) :
    (step s ⟨.thread idx, .ok⟩).isSome := by
  rw [step, if_neg hover]
  exact h

theorem threadOk_isSome {idx : Fin n} (hcreated : s.created = n)
    (hmutex : s.threadMutex = none) (hpc : s.thread idx ≠ .ended) : (threadOk s idx).isSome := by
  unfold threadOk
  split
  · rw [if_pos (by rw [hcreated]; exact idx.2)]
    rfl
  · rw [if_pos hmutex]
    rfl
  · rfl
  · rfl
  · rename_i hended
    exact absurd hended hpc

/-- A thread that has terminated returns without the mutex. -/
theorem threadOk_isSome_of_announcing {idx : Fin n}
    (hpc : s.thread idx = .unlock ∨ s.thread idx = .signal) : (threadOk s idx).isSome := by
  rcases hpc with hpc | hpc
  · simp [threadOk, hpc]
  · simp [threadOk, hpc]

theorem Agrees.announcing_or_ended {pc : ThreadPc} (h : Agrees pc .TS_TERMINATED) :
    pc = .unlock ∨ pc = .signal ∨ pc = .ended := by
  cases pc with
  | unlock => exact .inl rfl
  | signal => exact .inr (.inl rfl)
  | ended => exact .inr (.inr rfl)
  | sleep => cases h
  | lock => cases h

/-- While the main thread waits without a signal to come, some thread is alive. -/
theorem exists_alive (hrun : Running s) (hlive : 0 < s.numLive)
    (hzero : count s.state .TS_TERMINATED = 0) : ∃ i, s.state i = .TS_ALIVE := by
  by_contra hnone
  have hjoined : ∀ i, s.state i = .TS_JOINED := by
    intro i
    cases hstate : s.state i with
    | TS_ALIVE => exact absurd ⟨i, hstate⟩ hnone
    | TS_TERMINATED => exact absurd (count_pos hstate) (by omega)
    | TS_JOINED => rfl
  have hall : count s.state .TS_JOINED = n := by
    simp [count, hjoined]
  have hnum := hrun.2
  omega

theorem exists_step (hinv : Inv s) (hover : ¬ s.over) :
    ∃ party, (step s ⟨party, .ok⟩).isSome := by
  have hphase := hinv.phase
  -- the holder of the mutex can go on, and so can whoever asks for it when it is free
  by_cases hbusy : ∃ i, s.thread i = .unlock ∨ s.thread i = .signal
  · obtain ⟨i, hi⟩ := hbusy
    exact ⟨.thread i, step_ok_thread hover (threadOk_isSome_of_announcing hi)⟩
  · have hunlocked : ∀ i, s.threadMutex ≠ some (.thread i) :=
      fun i hi => hbusy ⟨i, .inl ((hinv.thread_mutex i).mp hi)⟩
    have hfree : s.main.holds = false → s.threadMutex = none := by
      intro hholds
      cases hmutex : s.threadMutex with
      | none => rfl
      | some party =>
        cases party with
        | main =>
          rw [hinv.main_mutex.mp hmutex] at hholds
          cases hholds
        | thread i => exact absurd hmutex (hunlocked i)
    cases hmain : s.main with
    | create idx =>
      refine ⟨.main, step_ok_main hover ?_⟩
      by_cases hidx : idx < n
      · simp [mainOk, hmain, hidx]
      · simp [mainOk, hmain, hidx]
    | lock =>
      have hmutex := hfree (by rw [hmain]; rfl)
      exact ⟨.main, step_ok_main hover (by simp [mainOk, hmain, hmutex])⟩
    | wait => exact ⟨.main, step_ok_main hover (by simp [mainOk, hmain])⟩
    | waiting =>
      have hmutex := hfree (by rw [hmain]; rfl)
      rw [Phase, hmain] at hphase
      cases hblocked : s.blocked with
      | false => exact ⟨.main, step_ok_main hover (by simp [mainOk, hmain, hmutex, hblocked])⟩
      | true =>
        have hzero : s.numUnjoined = 0 := (hinv.signals hblocked).2.resolve_right hbusy
        obtain ⟨i, hi⟩ := exists_alive hphase.1 hphase.2 (by rw [← hinv.unjoined, hzero])
        refine ⟨.thread i, step_ok_thread hover ?_⟩
        apply threadOk_isSome hphase.1.1 hmutex
        intro hended
        have hagrees := hinv.agrees i
        rw [hended] at hagrees
        exact hagrees hi
    | join idx =>
      rw [Phase, hmain] at hphase
      have hagrees := hinv.agrees idx
      rw [hphase.2] at hagrees
      have hended : s.thread idx = .ended := by
        rcases hagrees.announcing_or_ended with h | h | h
        · exact absurd ⟨idx, .inl h⟩ hbusy
        · exact absurd ⟨idx, .inr h⟩ hbusy
        · exact h
      exact ⟨.main, step_ok_main hover (by simp [mainOk, hmain, hended])⟩
    | unlock => exact ⟨.main, step_ok_main hover (by simp [mainOk, hmain])⟩
    | finished => exact absurd (.inr hmain) hover

/-! ### Runs end -/

/-- The calls that a thread has still to make. -/
def threadWork : ThreadPc → Nat
  | .sleep => 4
  | .lock => 3
  | .unlock => 2
  | .signal => 1
  | .ended => 0

/-- A bound for the calls that the main thread has still to make: a thread that is not joined
    costs it at most a round of the loop.  Having been woken for nothing adds two. -/
def mainWork (s : State n) : Nat :=
  match s.main with
  | .create idx => (n - idx) + 6 * n + 1
  | .lock => 6 * s.numLive.toNat
  | .wait => 6 * s.numLive.toNat - 1
  | .waiting =>
    if s.blocked = false ∧ s.numUnjoined = 0 then 6 * s.numLive.toNat
    else 6 * s.numLive.toNat - 2
  | .join _ => 6 * s.numLive.toNat - 3
  | .unlock => 6 * s.numLive.toNat + 1
  | .finished => 0

def work (s : State n) : Nat :=
  if s.over then 0 else 1 + mainWork s + ∑ i, threadWork (s.thread i)

/-- A step of a thread, with the main thread's part not growing. -/
theorem work_lt_of_thread (hover : ¬ s.over) {idx : Fin n} {pc : ThreadPc}
    (hthread : s'.thread = Function.update s.thread idx pc)
    (hpc : threadWork pc < threadWork (s.thread idx)) (hmain : mainWork s' ≤ mainWork s) :
    work s' < work s := by
  have hsum := sum_update_part threadWork s.thread idx pc
  rw [← hthread] at hsum
  unfold work
  rw [if_neg hover]
  split
  · omega
  · omega

/-- A step of the main thread. -/
theorem work_lt_of_main (hover : ¬ s.over) (hthread : s'.thread = s.thread)
    (hmain : mainWork s' < mainWork s) : work s' < work s := by
  unfold work
  rw [if_neg hover, hthread]
  split
  · omega
  · omega

theorem work_eq_zero (h : s.over) : work s = 0 := if_pos h

theorem work_pos (h : ¬ s.over) : 0 < work s := by
  unfold work
  rw [if_neg h]
  omega

/-- With a thread to join, the scan from the start finds one. -/
theorem exists_testUnjoined (hinv : Inv s) (hne : s.numUnjoined ≠ 0) :
    ∃ i, testUnjoined s = .join i := by
  rw [hinv.unjoined] at hne
  obtain ⟨i, hi⟩ := exists_of_count_ne_zero hne
  rw [testUnjoined, if_neg (by rw [hinv.unjoined]; exact hne)]
  rcases scan_cases s.state 0 with ⟨j, hj, -⟩ | ⟨-, hnone⟩
  · exact ⟨j, hj⟩
  · exact absurd hi (hnone i (Nat.zero_le _))

theorem work_lt_of_mainLock (hinv : Inv s) (hover : ¬ s.over) (hwants : WantsMutex s) :
    work { s with threadMutex := some .main, main := testUnjoined s } < work s := by
  obtain ⟨-, hlive⟩ := hinv.phase.wants hwants
  have hpos : 0 < s.numLive.toNat := by omega
  refine work_lt_of_main hover (by rfl) ?_
  by_cases hzero : s.numUnjoined = 0
  · have htest : testUnjoined s = .wait := if_pos hzero
    rcases hwants with hmain | ⟨hmain, hblocked⟩
    · simp only [mainWork, htest, hmain]
      omega
    · have hwoken : s.blocked = false ∧ s.numUnjoined = 0 := ⟨hblocked, hzero⟩
      simp only [mainWork, htest, hmain, if_pos hwoken]
      omega
  · obtain ⟨i, htest⟩ := exists_testUnjoined hinv hzero
    rcases hwants with hmain | ⟨hmain, hblocked⟩
    · simp only [mainWork, htest, hmain]
      omega
    · simp only [mainWork, htest, hmain, hzero, and_false, if_false]
      omega

theorem work_lt_of_join (hinv : Inv s) (hover : ¬ s.over) {idx : Fin n}
    (hmain : s.main = .join idx) :
    work { s with
      state := Function.update s.state idx .TS_JOINED
      numLive := s.numLive - 1
      numUnjoined := s.numUnjoined - 1
      output := s.output ++ [.reaped idx (s.numLive - 1)]
      main := scan (Function.update s.state idx .TS_JOINED) (idx.1 + 1) } < work s := by
  have hphase := hinv.phase
  rw [Phase, hmain] at hphase
  obtain ⟨⟨-, hnum⟩, hterm⟩ := hphase
  have hlt := @count_lt_of_ne n s.state .TS_JOINED idx (by simp [hterm])
  have hpos : (s.numLive - 1).toNat + 1 = s.numLive.toNat := by omega
  refine work_lt_of_main hover (by rfl) ?_
  rcases scan_cases (Function.update s.state idx .TS_JOINED) (idx.1 + 1) with ⟨i, h, -⟩ | ⟨h, -⟩
  · simp only [mainWork, h, hmain]
    omega
  · simp only [mainWork, h, hmain]
    omega

theorem work_lt_of_move (hinv : Inv s) (hover : ¬ s.over) (hmove : Move s s') :
    work s' < work s := by
  cases hmove with
  | @create idx hidx hmain =>
    refine work_lt_of_main hover (by rfl) ?_
    simp only [mainWork, hmain]
    omega
  | @created idx hmain hidx =>
    by_cases hn : 0 < n
    · refine work_lt_of_main hover (by rfl) ?_
      simp only [mainWork, hmain, if_pos hn, Int.toNat_natCast]
      omega
    · rw [work_eq_zero (.inr (by simp only [if_neg hn]))]
      exact work_pos hover
  | mainLock hwants hmutex => exact work_lt_of_mainLock hinv hover hwants
  | wait hmain =>
    have hphase := hinv.phase
    rw [Phase, hmain] at hphase
    have hlive := hphase.2.1
    refine work_lt_of_main hover (by rfl) ?_
    simp only [mainWork, hmain, Bool.true_eq_false, false_and, if_false]
    omega
  | join hmain hended => exact work_lt_of_join hinv hover hmain
  | mainUnlock hmain =>
    by_cases hlive : 0 < s.numLive
    · refine work_lt_of_main hover (by rfl) ?_
      simp only [mainWork, hmain, testLive, if_pos hlive]
      omega
    · rw [work_eq_zero (.inr (by simp only [testLive, if_neg hlive]))]
      exact work_pos hover
  | sleep hpc hidx => exact work_lt_of_thread hover rfl (by rw [hpc]; decide) (le_refl _)
  | threadLock hpc hmutex =>
    refine work_lt_of_thread hover rfl (by rw [hpc]; decide) ?_
    have hnonneg := count_nonneg s.state .TS_TERMINATED
    rw [← hinv.unjoined] at hnonneg
    have hne : s.numUnjoined + 1 ≠ 0 := by omega
    unfold mainWork
    cases s.main with
    | waiting =>
      simp only [hne, and_false, if_false]
      split
      · omega
      · omega
    | _ => exact le_refl _
  | threadUnlock hpc => exact work_lt_of_thread hover rfl (by rw [hpc]; decide) (le_refl _)
  | signal hpc =>
    refine work_lt_of_thread hover rfl (by rw [hpc]; decide) ?_
    have hne : s.numUnjoined ≠ 0 := by
      have hpos := count_pos (hinv.terminated_of_signal hpc)
      rw [hinv.unjoined]
      omega
    unfold mainWork
    cases s.main with
    | waiting =>
      simp only [hne, and_false, if_false]
      exact le_refl _
    | _ => exact le_refl _

/-- A wakeup without a signal. -/
theorem work_spurious_le : work { s with blocked := false } ≤ work s + 2 := by
  unfold work
  by_cases hover : s.over
  · rw [if_pos hover]
    have hover' : State.over { s with blocked := false } := hover
    rw [if_pos hover']
    omega
  · rw [if_neg hover]
    have hover' : ¬ State.over { s with blocked := false } := hover
    rw [if_neg hover']
    have hmain : mainWork { s with blocked := false } ≤ mainWork s + 2 := by
      unfold mainWork
      cases s.main with
      | waiting =>
        simp only
        split
        · split
          · omega
          · omega
        · split
          · omega
          · omega
      | _ => exact Nat.le_add_right _ 2
    simp only
    omega

/-- What a step may add to the work, and its own length. -/
def credit (e : Event n) : Nat := if e.answer = .spurious then 3 else 0

theorem work_step (hinv : Inv s) {e : Event n} (h : step s e = some s') :
    work s' + 1 ≤ work s + credit e := by
  obtain ⟨hover, ⟨-, hmove⟩ | rfl | ⟨hanswer, -, rfl⟩⟩ := step_cases h
  · have hlt := work_lt_of_move hinv hover hmove
    omega
  · rw [work_eq_zero (.inl rfl)]
    have hpos := work_pos hover
    omega
  · have hle := @work_spurious_le n s
    rw [credit, if_pos hanswer]
    omega

theorem work_start (n : Nat) : work (start n) = 11 * n + 2 := by
  have hover : ¬ (start n).over := by simp [State.over, start]
  rw [work, if_neg hover]
  simp [mainWork, start, threadWork]
  omega

theorem totalCredit_credit (es : List (Event n)) :
    totalCredit credit es = 3 * es.countP (fun e => e.answer = .spurious) := by
  induction es with
  | nil => rfl
  | cons e es ih =>
    rw [totalCredit, List.countP_cons, ih, credit]
    by_cases hanswer : e.answer = .spurious
    · simp [hanswer]
      omega
    · simp [hanswer]

/-- No run deadlocks or goes on for ever: it has at most `11 * n + 2` steps and three more for
    each wakeup without a signal, and while the process has not ended, some call returns. -/
theorem run_ends (h : runEvents step (start n) es = some s) :
    es.length ≤ 11 * n + 2 + 3 * es.countP (fun e => e.answer = .spurious) ∧
      (¬ s.over → ∃ party, (step s ⟨party, .ok⟩).isSome) := by
  refine ⟨?_, fun hover => exists_step (inv_of_run h) hover⟩
  have hlen := length_le_of_runEvents Inv work credit
    (fun hs hstep => ⟨hs.step hstep, work_step hs hstep⟩) (inv_start n) h
  rw [work_start, totalCredit_credit] at hlen
  omega

theorem run_ends_one :
    oneThread.length ≤ 11 * 1 + 2 + 3 * oneThread.countP (fun e => e.answer = .spurious) := by
  obtain ⟨s, hrun, -⟩ := exists_run_oneThread
  exact (run_ends hrun).1

end LinuxPractice.Tlpi.MultiJoin
