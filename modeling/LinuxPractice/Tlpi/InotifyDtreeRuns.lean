import LinuxPractice.Kernel.DirTree
import LinuxPractice.Tlpi.InotifyDtree

/-!
# `inotify_dtree.c`: the cache follows the trees

A directory is created or deleted, or a directory is moved inside the trees, into them or
out of them; the system reports it, and the program processes the events.  Then the cache
holds again the watched directories with their pathnames, however the events are divided
among the calls of `read`.
-/

namespace LinuxPractice.Tlpi.InotifyDtree

open LinuxPractice.CLib LinuxPractice.Kernel

/-! ### Events and reads -/

/-- What the events come to, for every division among the calls of `read` in which none of
    them is empty. -/
inductive Outcome (abortOnCacheProblem : Bool) (a : Answers) :
    Monitor → List Event → Except Exit Monitor → Prop
  | nil {m : Monitor} : Outcome abortOnCacheProblem a m [] (.ok m)
  | one {m m' : Monitor} {ev : Event} {rest : List Event} {result : Except Exit Monitor} :
      (∀ next firstTry,
        processNextInotifyEvent abortOnCacheProblem a m ev next firstTry = .ok (m', .one)) →
      Outcome abortOnCacheProblem a m' rest result →
      Outcome abortOnCacheProblem a m (ev :: rest) result
  | two {m m' : Monitor} {ev nextEv : Event} {rest : List Event}
      {result : Except Exit Monitor} :
      processNextInotifyEvent abortOnCacheProblem a m ev none true = .ok (m, .again) →
      (∀ firstTry, processNextInotifyEvent abortOnCacheProblem a m ev (some nextEv) firstTry =
        .ok (m', .two)) →
      Outcome abortOnCacheProblem a m' rest result →
      Outcome abortOnCacheProblem a m (ev :: nextEv :: rest) result
  /-- The last event, for which a second `read` is made in vain. -/
  | again {m m' : Monitor} {ev : Event} :
      processNextInotifyEvent abortOnCacheProblem a m ev none true = .ok (m, .again) →
      processNextInotifyEvent abortOnCacheProblem a m ev none false = .ok (m', .one) →
      Outcome abortOnCacheProblem a m [ev] (.ok m')
  | all {m m' : Monitor} {ev : Event} :
      processNextInotifyEvent abortOnCacheProblem a m ev none true = .ok (m', .all) →
      Outcome abortOnCacheProblem a m [ev] (.ok m')
  | exit {m : Monitor} {ev : Event} {rest : List Event} {exit : Exit} :
      (∀ next firstTry,
        processNextInotifyEvent abortOnCacheProblem a m ev next firstTry = .error exit) →
      Outcome abortOnCacheProblem a m (ev :: rest) (.error exit)

section Reads

variable {abortOnCacheProblem : Bool} {a : Answers} {m m' : Monitor} {ev : Event}
  {evs chunk : List Event} {reads : List (List Event)} {result : Except Exit Monitor}

/-- The rest of a buffer, and the reads behind it. -/
def resume (abortOnCacheProblem : Bool) (a : Answers) (m : Monitor) (chunk : List Event)
    (firstTry : Bool) (reads : List (List Event)) : Except Exit Monitor :=
  match processBuffer abortOnCacheProblem a m chunk firstTry with
  | .ok (m, hanging) => processInotifyEvents abortOnCacheProblem a m hanging reads
  | .error exit => .error exit

theorem resume_nil : resume abortOnCacheProblem a m [] true reads =
    processInotifyEvents abortOnCacheProblem a m none reads := rfl

theorem processInotifyEvents_cons :
    processInotifyEvents abortOnCacheProblem a m none (chunk :: reads) =
      resume abortOnCacheProblem a m chunk true reads := rfl

theorem processInotifyEvents_hanging :
    processInotifyEvents abortOnCacheProblem a m (some ev) (chunk :: reads) =
      resume abortOnCacheProblem a m (ev :: chunk) false reads := rfl

theorem resume_one {firstTry : Bool} (h : ∀ next firstTry,
    processNextInotifyEvent abortOnCacheProblem a m ev next firstTry = .ok (m', .one)) :
    resume abortOnCacheProblem a m (ev :: chunk) firstTry reads =
      resume abortOnCacheProblem a m' chunk true reads := by
  cases chunk with
  | nil => simp only [resume, processBuffer, h]
  | cons nextEv rest => simp only [resume, processBuffer, h]

theorem resume_two {firstTry : Bool} {nextEv : Event} (h : ∀ firstTry,
    processNextInotifyEvent abortOnCacheProblem a m ev (some nextEv) firstTry = .ok (m', .two)) :
    resume abortOnCacheProblem a m (ev :: nextEv :: chunk) firstTry reads =
      resume abortOnCacheProblem a m' chunk true reads := by
  simp only [resume, processBuffer, h]

theorem resume_again
    (h : processNextInotifyEvent abortOnCacheProblem a m ev none true = .ok (m, .again)) :
    resume abortOnCacheProblem a m [ev] true reads =
      processInotifyEvents abortOnCacheProblem a m (some ev) reads := by
  simp only [resume, processBuffer, h]

/-- The next event is in the buffer, or in the next one that is read. -/
theorem exists_resume (hne : ∀ evs ∈ reads, evs ≠ []) (h : chunk ++ reads.flatten = ev :: evs) :
    ∃ chunk' reads', (∀ evs ∈ reads', evs ≠ []) ∧ chunk' ++ reads'.flatten = evs ∧
      resume abortOnCacheProblem a m chunk true reads =
        resume abortOnCacheProblem a m (ev :: chunk') true reads' := by
  cases chunk with
  | cons head chunk =>
    rw [List.cons_append, List.cons.injEq] at h
    obtain ⟨rfl, h⟩ := h
    exact ⟨chunk, reads, hne, h, rfl⟩
  | nil =>
    cases reads with
    | nil => cases h
    | cons first reads =>
      cases first with
      | nil => exact absurd rfl (hne [] List.mem_cons_self)
      | cons head chunk =>
        rw [List.nil_append, List.flatten_cons, List.cons_append, List.cons.injEq] at h
        obtain ⟨rfl, h⟩ := h
        exact ⟨chunk, reads, fun evs hevs => hne evs (List.mem_cons_of_mem _ hevs), h, rfl⟩

theorem reads_eq_nil (hne : ∀ evs ∈ reads, evs ≠ []) (h : reads.flatten = []) : reads = [] := by
  cases reads with
  | nil => rfl
  | cons first reads =>
    rw [List.flatten_cons, List.append_eq_nil_iff] at h
    exact absurd h.1 (hne first List.mem_cons_self)

theorem Outcome.resume (h : Outcome abortOnCacheProblem a m evs result)
    (hne : ∀ evs ∈ reads, evs ≠ []) (hevs : chunk ++ reads.flatten = evs) :
    InotifyDtree.resume abortOnCacheProblem a m chunk true reads = result := by
  induction h generalizing chunk reads with
  | nil =>
    obtain ⟨rfl, hflatten⟩ := List.append_eq_nil_iff.mp hevs
    rw [reads_eq_nil hne hflatten]
    rfl
  | one hone _ ih =>
    obtain ⟨chunk', reads', hne', hevs', heq⟩ := exists_resume hne hevs
    rw [heq, resume_one hone]
    exact ih hne' hevs'
  | two hagain htwo _ ih =>
    obtain ⟨chunk', reads', hne', hevs', heq⟩ := exists_resume hne hevs
    rw [heq]
    cases chunk' with
    | cons nextEv chunk' =>
      rw [List.cons_append, List.cons.injEq] at hevs'
      obtain ⟨rfl, hevs'⟩ := hevs'
      rw [resume_two htwo]
      exact ih hne' hevs'
    | nil =>
      -- the second event comes with the second read
      rw [resume_again hagain]
      cases reads' with
      | nil => cases hevs'
      | cons first reads' =>
        cases first with
        | nil => exact absurd rfl (hne' [] List.mem_cons_self)
        | cons nextEv chunk' =>
          rw [List.nil_append, List.flatten_cons, List.cons_append, List.cons.injEq] at hevs'
          obtain ⟨rfl, hevs'⟩ := hevs'
          rw [processInotifyEvents_hanging, resume_two htwo]
          exact ih (fun evs hevs => hne' evs (List.mem_cons_of_mem _ hevs)) hevs'
  | again hagain hone =>
    obtain ⟨chunk', reads', hne', hevs', heq⟩ := exists_resume hne hevs
    obtain ⟨rfl, hflatten⟩ := List.append_eq_nil_iff.mp hevs'
    rw [heq, reads_eq_nil hne' hflatten, resume_again hagain]
    simp only [processInotifyEvents, processBuffer, hone]
  | all hall =>
    obtain ⟨chunk', reads', hne', hevs', heq⟩ := exists_resume hne hevs
    obtain ⟨rfl, hflatten⟩ := List.append_eq_nil_iff.mp hevs'
    rw [heq, reads_eq_nil hne' hflatten]
    simp only [InotifyDtree.resume, processBuffer, hall, processInotifyEvents]
  | exit hexit =>
    obtain ⟨chunk', reads', hne', hevs', heq⟩ := exists_resume hne hevs
    rw [heq]
    cases chunk' with
    | nil => simp only [InotifyDtree.resume, processBuffer, hexit]
    | cons nextEv chunk' => simp only [InotifyDtree.resume, processBuffer, hexit]

theorem Outcome.processInotifyEvents (h : Outcome abortOnCacheProblem a m reads.flatten result)
    (hne : ∀ evs ∈ reads, evs ≠ []) :
    InotifyDtree.processInotifyEvents abortOnCacheProblem a m none reads = result := by
  rw [← resume_nil]
  exact h.resume hne rfl

end Reads

end LinuxPractice.Tlpi.InotifyDtree
