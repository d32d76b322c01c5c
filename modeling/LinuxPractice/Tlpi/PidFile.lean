import LinuxPractice.CLib.Bytes
import LinuxPractice.Kernel.File
import LinuxPractice.Kernel.Interleave
import Mathlib.Algebra.Order.BigOperators.Group.Finset
import Mathlib.Data.Fintype.Card

/-!
# `create_pid_file.c`: one instance at a time

`createPidFile` opens the file, which `O_CREAT` makes if the name leads nowhere, locks it
without waiting, and writes the process ID into it; a locked file means that another
instance is running.  "The caller is responsible for deleting" the file "(just) before
process termination".  The lock belongs to the file and not to its name: an instance that
has opened the file before it was deleted can lock it afterwards, when the name already
leads to another file.
-/

namespace LinuxPractice.Tlpi.PidFile

open LinuxPractice.CLib LinuxPractice.Kernel

/-- The files that the name has led to are numbered in the order in which they were made. -/
structure Disk (ι : Type) where
  /-- Where the name leads. -/
  entry : Option Nat
  made : Nat
  content : Nat → Bytes
  lock : Nat → Option ι

inductive Exit where
  /-- Prints `"Could not open PID file %s"`. -/
  | couldNotOpen
  /-- Prints `"Could not get flags for PID file %s"`. -/
  | couldNotGetFlags
  /-- Prints `"Could not set flags for PID file %s"`. -/
  | couldNotSetFlags
  /-- Prints `"PID file '%s' is locked; probably '%s' is already running"`. -/
  | locked
  /-- Prints `"Unable to lock PID file '%s'"`. -/
  | unableToLock
  /-- Prints `"Could not truncate PID file '%s'"`. -/
  | couldNotTruncate
  /-- Prints `"Writing to PID file '%s'"`. -/
  | writing
  /-- The process ends behind `createPidFile`, without having deleted the file. -/
  | killed
  /-- The process ends, having deleted the file. -/
  | finished
deriving DecidableEq

/-- The call that an instance makes next, with the file that it has opened. -/
inductive Stage where
  | opening
  | getFlags (file : Nat)
  | setFlags (file : Nat)
  | locking (file : Nat)
  | truncating (file : Nat)
  | writing (file : Nat)
  /-- `createPidFile` has returned. -/
  | running (file : Nat)
  /-- The name has been deleted, and the process is about to end. -/
  | deleted (file : Nat)
  | exited (exit : Exit)
deriving DecidableEq

/-- A `write` that fails has written a part. -/
inductive Answer where
  | ok
  | fails (written : Nat)

section Calls

variable {ι : Type} (pid : ι → Nat) (cloexec : ι → Bool)

/-- The buffer that is written: `"%ld\n"`. -/
def pidText (i : ι) : Bytes := decimal (pid i) ++ [10]

/-- The stage behind `open`, with or without `CPF_CLOEXEC`. -/
def opened (i : ι) (file : Nat) : Stage := if cloexec i then .getFlags file else .locking file

/-- The end of a process gives its lock back. -/
def Disk.unlock (d : Disk ι) (file : Nat) : Disk ι :=
  { d with lock := Function.update d.lock file none }

def Disk.store (d : Disk ι) (file : Nat) (text : Bytes) : Disk ι :=
  { d with content := Function.update d.content file text }

/-- `write` at the start of the file. -/
def Disk.write (d : Disk ι) (file : Nat) (text : Bytes) : Disk ι :=
  d.store file (writeAt (d.content file) 0 text)

def call (i : ι) (d : Disk ι) : Stage → Answer → Option (Disk ι × Stage)
  | .opening, .ok =>
    match d.entry with
    | some file => some (d, opened cloexec i file)
    | none =>
      some ({ d.store d.made [] with entry := some d.made, made := d.made + 1 },
        opened cloexec i d.made)
  | .opening, .fails _ => some (d, .exited .couldNotOpen)
  | .getFlags file, .ok => some (d, .setFlags file)
  | .getFlags _, .fails _ => some (d, .exited .couldNotGetFlags)
  | .setFlags file, .ok => some (d, .locking file)
  | .setFlags _, .fails _ => some (d, .exited .couldNotSetFlags)
  | .locking file, .ok =>
    match d.lock file with
    | none => some ({ d with lock := Function.update d.lock file (some i) }, .truncating file)
    | some _ => some (d, .exited .locked)
  | .locking _, .fails _ => some (d, .exited .unableToLock)
  | .truncating file, .ok => some (d.store file [], .writing file)
  | .truncating file, .fails _ => some (d.unlock file, .exited .couldNotTruncate)
  | .writing file, .ok => some (d.write file (pidText pid i), .running file)
  | .writing file, .fails written =>
    some ((d.write file ((pidText pid i).take written)).unlock file, .exited .writing)
  | .running file, .ok => some ({ d with entry := none }, .deleted file)
  | .running file, .fails _ => some (d.unlock file, .exited .killed)
  | .deleted file, _ => some (d.unlock file, .exited .finished)
  | .exited _, _ => none

/-- No instance runs; the file may be there from an earlier one. -/
def start (old : Option Bytes) : Config (Disk ι) ι Stage where
  shared :=
    { entry := old.map fun _ => 0
      made := if old.isSome then 1 else 0
      content := fun _ => old.getD []
      lock := fun _ => none }
  proc := fun _ => .opening

end Calls

/-! ### The lock -/

/-- The file that the stage is about. -/
def Stage.file? : Stage → Option Nat
  | .opening | .exited _ => none
  | .getFlags file | .setFlags file | .locking file | .truncating file | .writing file
  | .running file | .deleted file => some file

/-- The instance has the lock of this file. -/
def Stage.Holds : Stage → Nat → Prop
  | .truncating file, f | .writing file, f | .running file, f | .deleted file, f => f = file
  | _, _ => False

/-- What holds of an instance and the disk. -/
structure Owns {ι : Type} (pid : ι → Nat) (i : ι) (d : Disk ι) (stage : Stage) : Prop where
  named : ∀ file, d.entry = some file → file < d.made
  made : ∀ file, stage.file? = some file → file < d.made
  lock : ∀ file, stage.Holds file → d.lock file = some i
  empty : ∀ file, stage = .writing file → d.content file = []
  content : ∀ file, stage = .running file → d.content file = pidText pid i

section Steps

variable {ι : Type} {pid : ι → Nat} {cloexec : ι → Bool} {i j : ι} {d d' : Disk ι}
  {stage stage' : Stage} {answer : Answer}

/-- All that a call can do. -/
inductive Move (pid : ι → Nat) (cloexec : ι → Bool) (i : ι) (d : Disk ι) :
    Stage → Disk ι → Stage → Prop
  /-- A failure in front of the lock. -/
  | fail {stage : Stage} {exit : Exit} : (∀ file, ¬ stage.Holds file) → exit ≠ .finished →
      (∀ exit, stage ≠ .exited exit) → Move pid cloexec i d stage d (.exited exit)
  | found {file : Nat} : d.entry = some file →
      Move pid cloexec i d .opening d (opened cloexec i file)
  | create : d.entry = none →
      Move pid cloexec i d .opening
        { d.store d.made [] with entry := some d.made, made := d.made + 1 }
        (opened cloexec i d.made)
  | getFlags (file : Nat) : Move pid cloexec i d (.getFlags file) d (.setFlags file)
  | setFlags (file : Nat) : Move pid cloexec i d (.setFlags file) d (.locking file)
  | lock {file : Nat} : d.lock file = none →
      Move pid cloexec i d (.locking file)
        { d with lock := Function.update d.lock file (some i) } (.truncating file)
  | truncate (file : Nat) :
      Move pid cloexec i d (.truncating file) (d.store file []) (.writing file)
  | write (file : Nat) :
      Move pid cloexec i d (.writing file) (d.write file (pidText pid i)) (.running file)
  | delete (file : Nat) :
      Move pid cloexec i d (.running file) { d with entry := none } (.deleted file)
  /-- The end of an instance that has the lock. -/
  | leave {stage : Stage} {file : Nat} {content : Nat → Bytes} {exit : Exit} :
      stage.Holds file → (∀ f, f ≠ file → content f = d.content f) →
      (exit = .finished ↔ stage = .deleted file) →
      Move pid cloexec i d stage
        { d with content := content, lock := Function.update d.lock file none } (.exited exit)

theorem move_of_call (h : call pid cloexec i d stage answer = some (d', stage')) :
    Move pid cloexec i d stage d' stage' := by
  unfold call at h
  split at h
  · split at h
    · rename_i file hentry
      cases h
      exact .found hentry
    · rename_i hentry
      cases h
      exact .create hentry
  · cases h
    exact .fail (fun _ => id) Exit.noConfusion fun _ => Stage.noConfusion
  · cases h
    exact .getFlags _
  · cases h
    exact .fail (fun _ => id) Exit.noConfusion fun _ => Stage.noConfusion
  · cases h
    exact .setFlags _
  · cases h
    exact .fail (fun _ => id) Exit.noConfusion fun _ => Stage.noConfusion
  · split at h
    · rename_i hlock
      cases h
      exact .lock hlock
    · cases h
      exact .fail (fun _ => id) Exit.noConfusion fun _ => Stage.noConfusion
  · cases h
    exact .fail (fun _ => id) Exit.noConfusion fun _ => Stage.noConfusion
  · cases h
    exact .truncate _
  · cases h
    exact .leave rfl (fun _ _ => rfl) (by simp)
  · cases h
    exact .write _
  · cases h
    exact .leave rfl (fun f hf => Function.update_of_ne hf _ _) (by simp)
  · cases h
    exact .delete _
  · cases h
    exact .leave rfl (fun _ _ => rfl) (by simp)
  · cases h
    exact .leave rfl (fun _ _ => rfl) (by simp)
  · cases h

theorem owns_exited (hnamed : ∀ file, d.entry = some file → file < d.made) (exit : Exit) :
    Owns pid i d (.exited exit) where
  named := hnamed
  made := fun _ h => by cases h
  lock := fun _ h => h.elim
  empty := fun _ h => by cases h
  content := fun _ h => by cases h

/-- An instance in front of the lock. -/
theorem owns_before {file : Nat} (hnamed : ∀ file, d.entry = some file → file < d.made)
    (hfile : file < d.made)
    (hstage : stage = .getFlags file ∨ stage = .setFlags file ∨ stage = .locking file) :
    Owns pid i d stage := by
  refine ⟨hnamed, fun f hf => ?_, fun f hf => ?_, fun f hf => ?_, fun f hf => ?_⟩
  · rcases hstage with rfl | rfl | rfl
    · cases hf
      exact hfile
    · cases hf
      exact hfile
    · cases hf
      exact hfile
  · rcases hstage with rfl | rfl | rfl
    · exact hf.elim
    · exact hf.elim
    · exact hf.elim
  · rcases hstage with rfl | rfl | rfl
    · cases hf
    · cases hf
    · cases hf
  · rcases hstage with rfl | rfl | rfl
    · cases hf
    · cases hf
    · cases hf

theorem owns_opened {file : Nat} (hnamed : ∀ file, d.entry = some file → file < d.made)
    (hfile : file < d.made) : Owns pid i d (opened cloexec i file) := by
  apply owns_before hnamed hfile
  unfold opened
  split
  · exact .inl rfl
  · exact .inr (.inr rfl)

theorem Owns.move (h : Owns pid i d stage) (hmove : Move pid cloexec i d stage d' stage') :
    Owns pid i d' stage' := by
  cases hmove with
  | fail _ _ _ => exact owns_exited h.named _
  | found hentry => exact owns_opened h.named (h.named _ hentry)
  | create hentry =>
    refine owns_opened (fun file hfile => ?_) (Nat.lt_succ_self _)
    cases hfile
    exact Nat.lt_succ_self _
  | getFlags file => exact owns_before h.named (h.made file rfl) (.inr (.inl rfl))
  | setFlags file => exact owns_before h.named (h.made file rfl) (.inr (.inr rfl))
  | @lock file hlock =>
    refine ⟨h.named, fun f hf => ?_, fun f hf => ?_, fun f hf => ?_, fun f hf => ?_⟩
    · cases hf
      exact h.made file rfl
    · cases hf
      exact Function.update_self _ _ _
    · cases hf
    · cases hf
  | truncate file =>
    refine ⟨h.named, fun f hf => ?_, fun f hf => ?_, fun f hf => ?_, fun f hf => ?_⟩
    · cases hf
      exact h.made file rfl
    · cases hf
      exact h.lock file rfl
    · cases hf
      exact Function.update_self _ _ _
    · cases hf
  | write file =>
    refine ⟨h.named, fun f hf => ?_, fun f hf => ?_, fun f hf => ?_, fun f hf => ?_⟩
    · cases hf
      exact h.made file rfl
    · cases hf
      exact h.lock file rfl
    · cases hf
    · cases hf
      have hwrite : writeAt (d.content file) 0 (pidText pid i) = pidText pid i := by
        rw [h.empty file rfl]
        exact writeAt_length [] _
      exact (Function.update_self _ _ _).trans hwrite
  | delete file =>
    refine ⟨fun f hf => ?_, fun f hf => ?_, fun f hf => ?_, fun f hf => ?_, fun f hf => ?_⟩
    · cases hf
    · cases hf
      exact h.made file rfl
    · cases hf
      exact h.lock file rfl
    · cases hf
    · cases hf
  | leave _ _ _ =>
    refine owns_exited ?_ _
    exact h.named

/-- What another instance does to files that are locked. -/
theorem Owns.frame (h : Owns pid i d stage) (hmove : Move pid cloexec i d stage d' stage')
    (hne : j ≠ i) {file : Nat} (hfile : file < d.made) (hlock : d.lock file = some j) :
    d'.lock file = some j ∧ d'.content file = d.content file := by
  have hother : ∀ {f : Nat}, stage.Holds f → file ≠ f := by
    rintro f hf rfl
    rw [h.lock _ hf] at hlock
    exact hne (Option.some.inj hlock).symm
  cases hmove with
  | fail _ _ _ => exact ⟨hlock, rfl⟩
  | found hentry => exact ⟨hlock, rfl⟩
  | create hentry => exact ⟨hlock, Function.update_of_ne (Nat.ne_of_lt hfile) _ _⟩
  | getFlags f => exact ⟨hlock, rfl⟩
  | setFlags f => exact ⟨hlock, rfl⟩
  | @lock f hnone =>
    have hf : file ≠ f := by
      rintro rfl
      rw [hnone] at hlock
      cases hlock
    exact ⟨(Function.update_of_ne hf _ _).trans hlock, rfl⟩
  | truncate f => exact ⟨hlock, Function.update_of_ne (hother rfl) _ _⟩
  | write f => exact ⟨hlock, Function.update_of_ne (hother rfl) _ _⟩
  | delete f => exact ⟨hlock, rfl⟩
  | leave hholds hcontent _ =>
    exact ⟨(Function.update_of_ne (hother hholds) _ _).trans hlock, hcontent _ (hother hholds)⟩

theorem made_le (hmove : Move pid cloexec i d stage d' stage') : d.made ≤ d'.made := by
  cases hmove with
  | create _ => exact Nat.le_succ _
  | _ => exact Nat.le_refl _

theorem Stage.holds_file? {file : Nat} (h : stage.Holds file) : stage.file? = some file := by
  cases stage with
  | truncating f => exact congrArg some h.symm
  | writing f => exact congrArg some h.symm
  | running f => exact congrArg some h.symm
  | deleted f => exact congrArg some h.symm
  | opening => exact h.elim
  | getFlags f => exact h.elim
  | setFlags f => exact h.elim
  | locking f => exact h.elim
  | exited exit => exact h.elim

/-- The calls of one instance keep what holds of the others. -/
theorem Owns.others (h : Owns pid i d stage) (hmove : Move pid cloexec i d stage d' stage')
    (hne : j ≠ i) {other : Stage} (hother : Owns pid j d other) : Owns pid j d' other := by
  have hkept : ∀ file, other.Holds file →
      d'.lock file = some j ∧ d'.content file = d.content file := fun file hfile =>
    h.frame hmove hne (hother.made file (Stage.holds_file? hfile)) (hother.lock file hfile)
  refine ⟨(h.move hmove).named, ?_, fun file hfile => (hkept file hfile).1, ?_, ?_⟩
  · exact fun file hfile => Nat.lt_of_lt_of_le (hother.made file hfile) (made_le hmove)
  · rintro file rfl
    rw [(hkept file rfl).2]
    exact hother.empty file rfl
  · rintro file rfl
    rw [(hkept file rfl).2]
    exact hother.content file rfl

end Steps

/-! ### All runs -/

/-- `createPidFile` has returned, and the instance has not deleted the file. -/
def Stage.isRunning : Stage → Bool
  | .running _ => true
  | _ => false

/-- The instance has deleted the file. -/
def Stage.hasDeleted : Stage → Bool
  | .deleted _ | .exited .finished => true
  | _ => false

/-- One for an instance that has deleted the file. -/
def Stage.deletions (stage : Stage) : Nat := if stage.hasDeleted then 1 else 0

/-- One for a name that leads to a file. -/
def Disk.entries {ι : Type} (d : Disk ι) : Nat := if d.entry.isSome then 1 else 0

theorem deletions_opened {ι : Type} (cloexec : ι → Bool) (i : ι) (file : Nat) :
    (opened cloexec i file).deletions = 0 := by
  unfold opened
  split
  · rfl
  · rfl

/-- A file is made when the name leads nowhere, and that takes a deletion. -/
theorem made_add_le {ι : Type} {pid : ι → Nat} {cloexec : ι → Bool} {i : ι} {d d' : Disk ι}
    {stage stage' : Stage} (hmove : Move pid cloexec i d stage d' stage') :
    d'.made + stage.deletions + d.entries ≤ d.made + stage'.deletions + d'.entries := by
  cases hmove with
  | fail hholds hexit hstage =>
    have hnone : stage.deletions = 0 := by
      cases stage with
      | deleted file => exact absurd rfl (hholds file)
      | exited exit => exact absurd rfl (hstage exit)
      | _ => rfl
    omega
  | found _ =>
    rw [deletions_opened]
    exact Nat.le_refl _
  | create hentry =>
    have hnone : d.entries = 0 := by simp [Disk.entries, hentry]
    rw [deletions_opened, hnone]
    exact Nat.le_refl _
  | getFlags _ => exact Nat.le_refl _
  | setFlags _ => exact Nat.le_refl _
  | lock _ => exact Nat.le_refl _
  | truncate _ => exact Nat.le_refl _
  | write _ => exact Nat.le_refl _
  | delete file =>
    have hone : d.entries ≤ 1 := by
      unfold Disk.entries
      split
      · exact Nat.le_refl _
      · exact Nat.zero_le _
    change d.made + 0 + d.entries ≤ d.made + 1 + 0
    omega
  | @leave _ file _ exit hholds _ hexit =>
    have hdeleted : stage.deletions ≤ (Stage.exited exit).deletions := by
      cases stage with
      | deleted f =>
        cases hholds
        rw [hexit.mpr rfl]
        exact Nat.le_refl _
      | exited exit => exact hholds.elim
      | _ => exact Nat.zero_le _
    change d.made + stage.deletions + d.entries ≤
      d.made + (Stage.exited exit).deletions + d.entries
    omega

section Runs

variable {ι : Type} [DecidableEq ι] {pid : ι → Nat} {cloexec : ι → Bool} {old : Option Bytes}
  {c : Config (Disk ι) ι Stage}

theorem owns_of_reachable (h : Reachable (call pid cloexec) (start old) c) (i : ι) :
    Owns pid i c.shared (c.proc i) := by
  refine h.each (Owns pid) ?_ (fun hp hcall => hp.move (move_of_call hcall))
    (fun hp hcall _ _ hne hq => hp.others (move_of_call hcall) hne hq) i
  intro i
  refine ⟨fun file hfile => ?_, fun _ h => ?_, fun _ h => h.elim, fun _ h => ?_, fun _ h => ?_⟩
  · cases old with
    | none => cases hfile
    | some text =>
      cases hfile
      exact Nat.zero_lt_one
  · cases h
  · cases h
  · cases h

/-- No two instances have the lock of one file, and the file of an instance that runs holds
    its process ID: so when the name leads to it, `pidFile` names this instance. -/
theorem reachable_excludes (h : Reachable (call pid cloexec) (start old) c) :
    (∀ i j file, (c.proc i).Holds file → (c.proc j).Holds file → i = j) ∧
    ∀ i file, c.proc i = .running file → c.shared.content file = pidText pid i := by
  refine ⟨fun i j file hi hj => ?_, fun i => (owns_of_reachable h i).content⟩
  have hlock := (owns_of_reachable h i).lock file hi
  rw [(owns_of_reachable h j).lock file hj] at hlock
  exact (Option.some.inj hlock).symm

/-- Three instances: the second opens the file of the first, and locks it when the first has
    ended; the third makes a file of its own. -/
def threeCalls : List (Fin 3 × Answer) :=
  [(0, .ok), (1, .ok), (0, .ok), (0, .ok), (0, .ok), (0, .ok), (0, .ok), (1, .ok), (1, .ok),
    (1, .ok), (2, .ok), (2, .ok), (2, .ok), (2, .ok)]

theorem reachable_excludes_three :
    ∃ c : Config (Disk (Fin 3)) (Fin 3) Stage,
      Reachable (call (fun i => 100 + i.val) fun _ => false) (start none) c ∧
      c.proc 1 = .running 0 ∧ c.proc 2 = .running 1 ∧
      c.shared.content 0 = decimal 101 ++ [10] := by
  have hrun : ((start none).run (call (fun i : Fin 3 => 100 + i.val) fun _ => false)
      threeCalls).map (fun c => (c.proc 1, c.proc 2)) = some (.running 0, .running 1) := by
    decide
  obtain ⟨c, hrun, hc⟩ := Option.map_eq_some_iff.mp hrun
  rw [Prod.mk.injEq] at hc
  have hreach := Reachable.start.of_run hrun
  exact ⟨c, hreach, hc.1, hc.2, (reachable_excludes hreach).2 1 0 hc.1⟩

/-- The instances that run hold different files. -/
theorem card_running_le (h : Reachable (call pid cloexec) (start old) c) {S : Finset ι}
    (hS : ∀ i ∈ S, (c.proc i).isRunning = true) : S.card ≤ c.shared.made := by
  have hfile : ∀ i ∈ S, ∃ file, c.proc i = .running file := by
    intro i hi
    have hrunning := hS i hi
    cases hstage : c.proc i with
    | running file => exact ⟨file, rfl⟩
    | _ =>
      rw [hstage] at hrunning
      cases hrunning
  have hcard : S.card ≤ (Finset.range c.shared.made).card := by
    apply Finset.card_le_card_of_injOn fun i => ((c.proc i).file?).getD 0
    · intro i hi
      obtain ⟨file, hfile⟩ := hfile i hi
      have hmade := (owns_of_reachable h i).made file (by rw [hfile]; rfl)
      simpa [hfile, Stage.file?] using hmade
    · intro i hi j hj heq
      obtain ⟨file, hi'⟩ := hfile i hi
      obtain ⟨file', hj'⟩ := hfile j hj
      simp only [hi', hj', Stage.file?, Option.getD_some] at heq
      subst heq
      have hlock := (owns_of_reachable h i).lock file (by rw [hi']; rfl)
      rw [(owns_of_reachable h j).lock file (by rw [hj']; rfl)] at hlock
      exact (Option.some.inj hlock).symm
  simpa using hcard

variable [Fintype ι]

theorem made_le_of_reachable (h : Reachable (call pid cloexec) (start old) c) :
    c.shared.made ≤ ∑ i, (c.proc i).deletions + c.shared.entries := by
  refine h.invariant
    (fun c => c.shared.made ≤ ∑ i, (c.proc i).deletions + c.shared.entries) ?_ ?_
  · cases old with
    | none => exact Nat.zero_le _
    | some text => exact Nat.le_add_left _ _
  · intro c i a d' stage' hmade hcall
    have hsum := sum_update_part Stage.deletions c.proc i stage'
    have hone := made_add_le (move_of_call hcall)
    simp only at hmade ⊢
    omega

/-- An instance that runs has not deleted the file. -/
theorem sum_deletions_le {S : Finset ι} (hS : ∀ i ∈ S, (c.proc i).isRunning = true) :
    ∑ i, (c.proc i).deletions + S.card ≤ Fintype.card ι := by
  have hone : ∀ i, (c.proc i).deletions ≤ if i ∈ Sᶜ then 1 else 0 := by
    intro i
    by_cases hi : i ∈ S
    · have hrunning := hS i hi
      cases hstage : c.proc i with
      | running file => exact Nat.zero_le _
      | _ =>
        rw [hstage] at hrunning
        cases hrunning
    · rw [if_pos (Finset.mem_compl.mpr hi)]
      unfold Stage.deletions
      split
      · exact Nat.le_refl _
      · exact Nat.zero_le _
  have hsum : ∑ i, (c.proc i).deletions ≤ Sᶜ.card := by
    calc ∑ i, (c.proc i).deletions
        ≤ ∑ i, (if i ∈ Sᶜ then 1 else 0) := Finset.sum_le_sum fun i _ => hone i
      _ = Sᶜ.card := by rw [← Finset.card_filter, Finset.filter_univ_mem]
  rw [← Finset.card_add_card_compl S]
  omega

theorem card_le_of_running (h : Reachable (call pid cloexec) (start old) c) {S : Finset ι}
    (hS : ∀ i ∈ S, (c.proc i).isRunning = true) : 2 * S.card ≤ Fintype.card ι + 1 := by
  have hrunning := card_running_le h hS
  have hmade := made_le_of_reachable h
  have hdeleted := sum_deletions_le hS
  have hentries : c.shared.entries ≤ 1 := by
    unfold Disk.entries
    split
    · exact Nat.le_refl _
    · exact Nat.zero_le _
  omega

end Runs

/-! ### The runs with the most instances -/

/-- A file that the next `open` can lead to is not locked. -/
def Disk.Free {ι : Type} (d : Disk ι) : Prop :=
  ∀ file, d.entry = some file ∨ d.made ≤ file → d.lock file = none

section Construct

variable {ι : Type} [DecidableEq ι] {pid : ι → Nat} {cloexec : ι → Bool} {old : Option Bytes}
  {c : Config (Disk ι) ι Stage} {i : ι} {file : Nat}

/-- One call of an instance that stands at `stage`. -/
theorem reach_ok {d d' : Disk ι} {proc : ι → Stage} {stage : Stage} (stage' : Stage)
    (h : Reachable (call pid cloexec) (start old) ⟨d, Function.update proc i stage⟩)
    (hcall : call pid cloexec i d stage .ok = some (d', stage')) :
    Reachable (call pid cloexec) (start old) ⟨d', Function.update proc i stage'⟩ := by
  have hown : call pid cloexec i d (Function.update proc i stage i) .ok = some (d', stage') := by
    rw [Function.update_self]
    exact hcall
  have hreach := h.of_call hown
  rwa [Function.update_idem] at hreach

theorem reach_self {stage : Stage} (h : Reachable (call pid cloexec) (start old) c)
    (hi : c.proc i = stage) :
    Reachable (call pid cloexec) (start old) ⟨c.shared, Function.update c.proc i stage⟩ := by
  rw [← hi, Function.update_eq_self]
  exact h

theorem reach_locking {d : Disk ι} {proc : ι → Stage}
    (h : Reachable (call pid cloexec) (start old)
      ⟨d, Function.update proc i (opened cloexec i file)⟩) :
    Reachable (call pid cloexec) (start old) ⟨d, Function.update proc i (.locking file)⟩ := by
  unfold opened at h
  split at h
  · have hset := reach_ok (.setFlags file) h rfl
    exact reach_ok _ hset rfl
  · exact h

theorem reach_open (h : Reachable (call pid cloexec) (start old) c) (hi : c.proc i = .opening) :
    ∃ c' file, Reachable (call pid cloexec) (start old) c' ∧
      c'.proc = Function.update c.proc i (.locking file) ∧ c'.shared.entry = some file ∧
      (c.shared.entry = some file ∨ c.shared.entry = none ∧ c.shared.made ≤ file) ∧
      c.shared.made ≤ c'.shared.made ∧ c'.shared.lock = c.shared.lock := by
  have hopening := reach_self h hi
  cases hentry : c.shared.entry with
  | some file =>
    have hcall : call pid cloexec i c.shared .opening .ok =
        some (c.shared, opened cloexec i file) := by
      simp only [call, hentry]
    exact ⟨_, file, reach_locking (reach_ok _ hopening hcall), rfl, hentry, .inl rfl,
      Nat.le_refl _, rfl⟩
  | none =>
    have hcall : call pid cloexec i c.shared .opening .ok =
        some ({ c.shared.store c.shared.made [] with
          entry := some c.shared.made, made := c.shared.made + 1 },
          opened cloexec i c.shared.made) := by
      simp only [call, hentry]
    exact ⟨_, c.shared.made, reach_locking (reach_ok _ hopening hcall), rfl, rfl,
      .inr ⟨rfl, Nat.le_refl _⟩, Nat.le_succ _, rfl⟩

theorem reach_running (h : Reachable (call pid cloexec) (start old) c)
    (hi : c.proc i = .locking file) (hlock : c.shared.lock file = none) :
    ∃ c', Reachable (call pid cloexec) (start old) c' ∧
      c'.proc = Function.update c.proc i (.running file) ∧
      c'.shared.entry = c.shared.entry ∧ c'.shared.made = c.shared.made ∧
      c'.shared.lock = Function.update c.shared.lock file (some i) := by
  have hcall : call pid cloexec i c.shared (.locking file) .ok =
      some ({ c.shared with lock := Function.update c.shared.lock file (some i) },
        .truncating file) := by
    simp only [call, hlock]
  have hlocked := reach_ok _ (reach_self h hi) hcall
  have htruncated := reach_ok (.writing file) hlocked rfl
  have hwritten := reach_ok (.running file) htruncated rfl
  exact ⟨_, hwritten, rfl, rfl, rfl, rfl⟩

theorem reach_finished (h : Reachable (call pid cloexec) (start old) c)
    (hi : c.proc i = .running file) :
    ∃ c', Reachable (call pid cloexec) (start old) c' ∧
      c'.proc = Function.update c.proc i (.exited .finished) ∧
      c'.shared.entry = none ∧ c'.shared.made = c.shared.made ∧
      c'.shared.lock = Function.update c.shared.lock file none := by
  have hdeleted := reach_ok (.deleted file) (reach_self h hi) rfl
  have hended := reach_ok (.exited .finished) hdeleted rfl
  exact ⟨_, hended, rfl, rfl, rfl, rfl⟩

/-- An instance opens the file and has it for itself. -/
theorem reach_alone {r : ι} (h : Reachable (call pid cloexec) (start old) c)
    (hfree : c.shared.Free) (hr : c.proc r = .opening) :
    ∃ c' file, Reachable (call pid cloexec) (start old) c' ∧
      c'.proc = Function.update c.proc r (.running file) := by
  obtain ⟨c₁, file, h₁, hproc₁, -, hfile, -, hlock₁⟩ := reach_open h hr
  have hr₁ : c₁.proc r = .locking file := by rw [hproc₁, Function.update_self]
  have hnone : c₁.shared.lock file = none := by
    rw [hlock₁]
    exact hfree file (hfile.imp id And.right)
  obtain ⟨c₂, h₂, hproc₂, -⟩ := reach_running h₁ hr₁ hnone
  refine ⟨c₂, file, h₂, ?_⟩
  rw [hproc₂, hproc₁, Function.update_idem]

/-- An instance opens the file in front of another one's deletion, and locks it behind: it
    runs, while the name leads nowhere. -/
theorem reach_pair {u r : ι} (hne : u ≠ r) (h : Reachable (call pid cloexec) (start old) c)
    (hfree : c.shared.Free) (hu : c.proc u = .opening) (hr : c.proc r = .opening) :
    ∃ c' file, Reachable (call pid cloexec) (start old) c' ∧ c'.shared.Free ∧
      c'.proc r = .running file ∧ ∀ i, i ≠ u → i ≠ r → c'.proc i = c.proc i := by
  obtain ⟨c₁, file, h₁, hproc₁, hentry₁, hfile, hmade₁, hlock₁⟩ := reach_open h hu
  have hr₁ : c₁.proc r = .opening := by rw [hproc₁, Function.update_of_ne hne.symm, hr]
  obtain ⟨c₂, file', h₂, hproc₂, -, hfile', hmade₂, hlock₂⟩ := reach_open h₁ hr₁
  obtain rfl : file' = file := by
    rcases hfile' with hsome | ⟨hnone, -⟩
    · rw [hentry₁] at hsome
      exact (Option.some.inj hsome).symm
    · rw [hentry₁] at hnone
      cases hnone
  have hu₂ : c₂.proc u = .locking file' := by
    rw [hproc₂, Function.update_of_ne hne, hproc₁, Function.update_self]
  have hnone₂ : c₂.shared.lock file' = none := by
    rw [hlock₂, hlock₁]
    exact hfree file' (hfile.imp id And.right)
  obtain ⟨c₃, h₃, hproc₃, -, hmade₃, hlock₃⟩ := reach_running h₂ hu₂ hnone₂
  have hu₃ : c₃.proc u = .running file' := by rw [hproc₃, Function.update_self]
  obtain ⟨c₄, h₄, hproc₄, hentry₄, hmade₄, hlock₄⟩ := reach_finished h₃ hu₃
  have hr₄ : c₄.proc r = .locking file' := by
    rw [hproc₄, Function.update_of_ne hne.symm, hproc₃, Function.update_of_ne hne.symm, hproc₂,
      Function.update_self]
  have hnone₄ : c₄.shared.lock file' = none := by rw [hlock₄, Function.update_self]
  obtain ⟨c₅, h₅, hproc₅, hentry₅, hmade₅, hlock₅⟩ := reach_running h₄ hr₄ hnone₄
  refine ⟨c₅, file', h₅, fun other hother => ?_, by rw [hproc₅, Function.update_self], ?_⟩
  · -- the name leads nowhere, and the file of `r` has been made
    rw [hentry₅, hentry₄] at hother
    obtain hnew : c₅.shared.made ≤ other := hother.resolve_left (by simp)
    have hmade : file' < c₄.shared.made :=
      (owns_of_reachable h₄ r).made file' (by rw [hr₄]; rfl)
    have hold : c.shared.made ≤ other := by omega
    have hother : other ≠ file' := by omega
    rw [hlock₅, Function.update_of_ne hother, hlock₄, Function.update_of_ne hother, hlock₃,
      Function.update_of_ne hother, hlock₂, hlock₁]
    exact hfree other (.inr hold)
  · intro i hiu hir
    rw [hproc₅, Function.update_of_ne hir, hproc₄, Function.update_of_ne hiu, hproc₃,
      Function.update_of_ne hiu, hproc₂, Function.update_of_ne hir, hproc₁,
      Function.update_of_ne hiu]

/-- With one instance that ends for each, any number of instances can run. -/
theorem reach_pairs (T F : Finset ι) (hdisjoint : Disjoint T F) (hcard : T.card = F.card) :
    ∃ c, Reachable (call pid cloexec) (start old) c ∧ c.shared.Free ∧
      (∀ i ∈ T, (c.proc i).isRunning = true) ∧
      ∀ i, i ∉ T → i ∉ F → c.proc i = .opening := by
  induction T using Finset.induction_on generalizing F with
  | empty =>
    refine ⟨start old, .start, fun _ _ => rfl, fun i hi => ?_, fun _ _ _ => rfl⟩
    exact absurd hi (Finset.notMem_empty i)
  | insert r T hr ih =>
    rw [Finset.card_insert_of_notMem hr] at hcard
    obtain ⟨u, hu⟩ : F.Nonempty := Finset.card_pos.mp (by omega)
    rw [Finset.disjoint_insert_left] at hdisjoint
    obtain ⟨hrF, hTF⟩ := hdisjoint
    obtain ⟨c, hreach, hfree, hrunning, hopening⟩ := ih (F.erase u)
      (hTF.mono_right (Finset.erase_subset u F)) (by rw [Finset.card_erase_of_mem hu]; omega)
    have huT : u ∉ T := fun h => Finset.disjoint_left.mp hTF h hu
    have hne : u ≠ r := fun h => hrF (h ▸ hu)
    obtain ⟨c', file, hreach', hfree', hr', hothers⟩ := reach_pair hne hreach hfree
      (hopening u huT (Finset.notMem_erase u F))
      (hopening r hr fun h => hrF (Finset.mem_of_mem_erase h))
    refine ⟨c', hreach', hfree', fun i hi => ?_, fun i hi hiF => ?_⟩
    · rcases Finset.mem_insert.mp hi with rfl | hi
      · rw [hr']
        rfl
      · have hiu : i ≠ u := fun h => huT (h ▸ hi)
        have hir : i ≠ r := fun h => hr (h ▸ hi)
        rw [hothers i hiu hir]
        exact hrunning i hi
    · rw [Finset.mem_insert, not_or] at hi
      have hiu : i ≠ u := fun h => hiF (h ▸ hu)
      rw [hothers i hiu hi.1]
      exact hopening i hi.2 fun h => hiF (Finset.mem_of_mem_erase h)

/-- The instances of a set can all run at one time exactly when the others suffice to end
    one for each of them but the last: three instances are enough for two to run. -/
theorem running_iff [Fintype ι] (S : Finset ι) :
    (∃ c, Reachable (call pid cloexec) (start old) c ∧ ∀ i ∈ S, (c.proc i).isRunning = true) ↔
      2 * S.card ≤ Fintype.card ι + 1 := by
  constructor
  · rintro ⟨c, hreach, hrunning⟩
    exact card_le_of_running hreach hrunning
  · intro hcard
    rcases S.eq_empty_or_nonempty with rfl | ⟨r, hr⟩
    · exact ⟨start old, .start, fun i hi => absurd hi (Finset.notMem_empty i)⟩
    · have hothers := Finset.card_add_card_compl S
      obtain ⟨F, hF, hFcard⟩ := Finset.exists_subset_card_eq
        (show S.card - 1 ≤ Sᶜ.card by omega)
      have hSF : Disjoint S F := Finset.disjoint_left.mpr fun i hi hiF =>
        Finset.mem_compl.mp (hF hiF) hi
      obtain ⟨c, hreach, hfree, hrunning, hopening⟩ := reach_pairs (S.erase r) F
        (hSF.mono_left (Finset.erase_subset r S)) (by rw [Finset.card_erase_of_mem hr, hFcard])
      obtain ⟨c', file, hreach', hproc⟩ := reach_alone hreach hfree
        (hopening r (Finset.notMem_erase r S) (Finset.disjoint_left.mp hSF hr))
      refine ⟨c', hreach', fun i hi => ?_⟩
      by_cases hir : i = r
      · subst hir
        rw [hproc, Function.update_self]
        rfl
      · rw [hproc, Function.update_of_ne hir]
        exact hrunning i (Finset.mem_erase.mpr ⟨hir, hi⟩)

end Construct

end LinuxPractice.Tlpi.PidFile
