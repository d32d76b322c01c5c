import LinuxPractice.CLib.Stdio
import LinuxPractice.Kernel.Interleave
import LinuxPractice.Tlpi.GetNum
import Mathlib.Algebra.Order.BigOperators.Group.Finset

/-!
# `svsem_good_init.c` and `svsem_bad_init.c`: who initializes a semaphore

Each process creates the semaphore set or finds it created, and then performs one operation
on it.  The process that creates the set also has to initialize it, and in between others
may find it.  In `svsem_bad_init.c` they use it at once; in `svsem_good_init.c` they wait
until `sem_otime` is set, which the creator does with an operation that changes nothing.
-/

namespace LinuxPractice.Tlpi.SemInit

open LinuxPractice.CLib LinuxPractice.Kernel

def EEXIST : Nat := 17

def SEMVMX : Int := 32767

def MAX_TRIES : Nat := 10

/-- A set of one semaphore: its value, and whether `sem_otime` is nonzero. -/
structure SemSet where
  val : Int
  otime : Bool

/-- `semop` with the operation `op`; `none` is a call that blocks or fails. -/
def semop (op : Int) (set : SemSet) : Option SemSet :=
  if op = 0 then if set.val = 0 then some ⟨set.val, true⟩ else none
  else if 0 ≤ set.val + op ∧ set.val + op ≤ SEMVMX then some ⟨set.val + op, true⟩
  else none

inductive Exit where
  | errExit (text : String)
  | fatal (text : String)
  | gnFail (texts : GnFail)

/-- The call that a process makes next. -/
inductive Stage where
  | semget
  | setval
  | noop
  | semget2
  | stat (j : Nat)
  | op
  | done
  | failed (exit : Exit)

/-- How the system answers: with success, where a set that is created gets the value
    `val`, or with an error. -/
inductive Answer where
  | returns (val : Int)
  | fails (errno : Errno)

abbrev Next := Option (Option SemSet × Stage)

/-- The first call of both programs, `semget` with `IPC_CREAT | IPC_EXCL`. -/
def createExcl (s : Option SemSet) : Answer → Next
  | .returns val => if s.isSome then none else some (some ⟨val, false⟩, .setval)
  | .fails errno =>
    if errno.val ≠ EEXIST then some (s, .failed (.errExit "semget 1"))
    else if s.isSome then some (s, .semget2)
    else none

/-- A call that ends the program if it fails, and else goes on with `next`. -/
def orExit (text : String) (s : Option SemSet) (next : Option (Option SemSet × Stage)) :
    Answer → Next
  | .fails _ => some (s, .failed (.errExit text))
  | .returns _ => next

/-- `semop` on the set. -/
def operate (op : Int) (s : Option SemSet) (next : Stage) : Next :=
  (s.bind (semop op)).map fun set => (some set, next)

/-- `SETVAL` with the value 0. -/
def clear (s : Option SemSet) (next : Stage) : Next :=
  s.map fun set => (some { set with val := 0 }, next)

/-! ### `svsem_good_init.c` -/

variable {ι : Type}

/-- The next call of the process `i`, which has the argument `arg i`. -/
def Good.call (arg : ι → Bytes) (i : ι) (s : Option SemSet) : Stage → Answer → Next
  | .semget, a => createExcl s a
  | .setval, a => orExit "semctl 1" s (clear s .noop) a
  | .noop, a => orExit "semop" s (operate 0 s .op) a
  | .semget2, a => orExit "semget 2" s (some (s, .stat 0)) a
  | .stat j, a =>
    orExit "semctl 2" s
      (s.map fun set => (some set,
        if set.otime then .op
        else if j + 1 < MAX_TRIES then .stat (j + 1)
        else .failed (.fatal "Existing semaphore not initialized"))) a
  | .op, a =>
    match getInt (arg i) 0 "sem-op" with
    | .error texts => some (s, .failed (.gnFail texts))
    | .ok v => orExit "semop" s (operate (wrapShort v) s .done) a
  | .done, _ => none
  | .failed _, _ => none

/-- The operation that the argument of the process asks for. -/
def Good.opOf (arg : Bytes) : Int :=
  match getInt arg 0 "sem-op" with
  | .error _ => 0
  | .ok v => wrapShort v

/-! ### `svsem_bad_init.c` -/

def Bad.call (_ : ι) (s : Option SemSet) : Stage → Answer → Next
  | .semget, a => createExcl s a
  | .setval, a => orExit "semctl" s (clear s .op) a
  | .semget2, a => orExit "semget 2" s (some (s, .op)) a
  | .op, a => orExit "semop" s (operate 1 s .done) a
  | .noop, _ => none
  | .stat _, _ => none
  | .done, _ => none
  | .failed _, _ => none

/-- A set that is there at the start has been initialized and used. -/
def start (old : Option Int) : Config (Option SemSet) ι Stage :=
  ⟨old.map fun val => ⟨val, true⟩, fun _ => .semget⟩

/-! ### What a call can do -/

variable {arg : ι → Bytes} {i : ι} {s s' : Option SemSet} {stage stage' : Stage} {a : Answer}

theorem createExcl_cases (h : createExcl s a = some (s', stage')) :
    (∃ val, s = none ∧ s' = some ⟨val, false⟩ ∧ stage' = .setval) ∨
      (s.isSome ∧ s' = s ∧ stage' = .semget2) ∨ (s' = s ∧ ∃ exit, stage' = .failed exit) := by
  cases a with
  | returns val =>
    simp only [createExcl] at h
    split at h
    · cases h
    · rename_i hnone
      cases h
      exact .inl ⟨val, by simpa using hnone, rfl, rfl⟩
  | fails errno =>
    simp only [createExcl] at h
    split at h
    · cases h
      exact .inr (.inr ⟨rfl, _, rfl⟩)
    · split at h
      · rename_i hsome
        cases h
        exact .inr (.inl ⟨hsome, rfl, rfl⟩)
      · cases h

theorem orExit_cases {text : String} {next : Next} (h : orExit text s next a = some (s', stage')) :
    next = some (s', stage') ∨ (s' = s ∧ ∃ exit, stage' = .failed exit) := by
  cases a with
  | returns val => exact .inl h
  | fails errno =>
    cases h
    exact .inr ⟨rfl, _, rfl⟩

theorem operate_cases {op : Int} {next : Stage} (h : operate op s next = some (s', stage')) :
    ∃ set, s = some set ∧ (op = 0 → set.val = 0) ∧ s' = some ⟨set.val + op, true⟩ ∧
      stage' = next := by
  cases s with
  | none => cases h
  | some set =>
    simp only [operate, Option.bind_some, semop] at h
    split at h
    · rename_i hop
      split at h
      · rename_i hzero
        cases h
        exact ⟨set, rfl, fun _ => hzero, by simp [hop], rfl⟩
      · cases h
    · rename_i hop
      split at h
      · cases h
        exact ⟨set, rfl, fun h => absurd h hop, rfl, rfl⟩
      · cases h

/-! ### Every run of `svsem_good_init.c` -/

/-- The process has created the set and not yet made it usable. -/
def Stage.Creating : Stage → Prop
  | .setval => True
  | .noop => True
  | _ => False

/-- The process takes the set for initialized. -/
def Stage.Uses : Stage → Prop
  | .op => True
  | .done => True
  | _ => False

namespace Good

/-- A call, seen from outside: only the last four of these are steps of the protocol. -/
inductive Move (arg : ι → Bytes) (i : ι) :
    Option SemSet → Stage → Option SemSet → Stage → Prop
  | quiet {s : Option SemSet} {stage stage' : Stage} (hdone : stage ≠ .done)
      (hcreating : ¬ stage'.Creating) (huses : ¬ stage'.Uses) : Move arg i s stage s stage'
  | create (val : Int) : Move arg i none .semget (some ⟨val, false⟩) .setval
  | clear (set : SemSet) : Move arg i (some set) .setval (some { set with val := 0 }) .noop
  | finish (set : SemSet) (hval : set.val = 0) : Move arg i (some set) .noop (some ⟨0, true⟩) .op
  | enter (set : SemSet) (j : Nat) (hotime : set.otime = true) :
      Move arg i (some set) (.stat j) (some set) .op
  | use (set : SemSet) :
      Move arg i (some set) .op (some ⟨set.val + opOf (arg i), true⟩) .done

theorem move_failed {exit : Exit} (h : stage ≠ .done) : Move arg i s stage s (.failed exit) :=
  .quiet h id id

theorem move_of_call (h : call arg i s stage a = some (s', stage')) :
    Move arg i s stage s' stage' := by
  cases stage with
  | semget =>
    rcases createExcl_cases h with ⟨val, rfl, rfl, rfl⟩ | ⟨-, rfl, rfl⟩ | ⟨rfl, exit, rfl⟩
    · exact .create val
    · exact .quiet Stage.noConfusion id id
    · exact move_failed Stage.noConfusion
  | setval =>
    rcases orExit_cases h with hnext | ⟨rfl, exit, rfl⟩
    · obtain ⟨set, rfl, heq⟩ := Option.map_eq_some_iff.mp hnext
      cases heq
      exact .clear set
    · exact move_failed Stage.noConfusion
  | noop =>
    rcases orExit_cases h with hnext | ⟨rfl, exit, rfl⟩
    · obtain ⟨set, rfl, hzero, rfl, rfl⟩ := operate_cases hnext
      rw [hzero rfl]
      exact .finish set (hzero rfl)
    · exact move_failed Stage.noConfusion
  | semget2 =>
    rcases orExit_cases h with hnext | ⟨rfl, exit, rfl⟩
    · cases hnext
      exact .quiet Stage.noConfusion id id
    · exact move_failed Stage.noConfusion
  | stat j =>
    rcases orExit_cases h with hnext | ⟨rfl, exit, rfl⟩
    · obtain ⟨set, rfl, heq⟩ := Option.map_eq_some_iff.mp hnext
      obtain ⟨rfl, rfl⟩ := Prod.mk.inj heq
      by_cases hotime : set.otime = true
      · rw [if_pos hotime]
        exact .enter set j hotime
      · rw [if_neg hotime]
        split
        · exact .quiet Stage.noConfusion id id
        · exact move_failed Stage.noConfusion
    · exact move_failed Stage.noConfusion
  | op =>
    simp only [call] at h
    split at h
    · cases h
      exact move_failed Stage.noConfusion
    · rename_i v harg
      rcases orExit_cases h with hnext | ⟨rfl, exit, rfl⟩
      · obtain ⟨set, rfl, -, rfl, rfl⟩ := operate_cases hnext
        have hop : opOf (arg i) = wrapShort v := by rw [opOf, harg]
        rw [← hop]
        exact .use set
      · exact move_failed Stage.noConfusion
  | done => cases h
  | failed exit => cases h

/-- What a process has added to the semaphore. -/
def added (arg : ι → Bytes) (i : ι) : Stage → Int
  | .done => opOf (arg i)
  | _ => 0

theorem added_of_ne_done (h : stage ≠ .done) : added arg i stage = 0 := by
  cases stage with
  | done => exact absurd rfl h
  | _ => rfl

variable [Fintype ι]

/-- Before the creator's last step nobody uses the set; behind it nobody initializes it,
    and its value is the sum of the operations. -/
structure Inv (old : Option Int) (arg : ι → Bytes) (c : Config (Option SemSet) ι Stage) :
    Prop where
  absent : c.shared = none → old = none ∧ ∀ i, ¬ (c.proc i).Creating ∧ ¬ (c.proc i).Uses
  unused : ∀ set, c.shared = some set → set.otime = false →
    old = none ∧ (∀ i, ¬ (c.proc i).Uses) ∧
      (∀ i j, (c.proc i).Creating → (c.proc j).Creating → i = j) ∧
      ∀ i, c.proc i = .noop → set.val = 0
  used : ∀ set, c.shared = some set → set.otime = true →
    (∀ i, ¬ (c.proc i).Creating) ∧
      set.val = old.getD 0 + ∑ i, added arg i (c.proc i)

theorem inv_start (old : Option Int) (arg : ι → Bytes) : Inv old arg (start old) := by
  cases old with
  | none =>
    refine ⟨fun _ => ⟨rfl, fun i => ⟨id, id⟩⟩, ?_, ?_⟩
    · intro set hset
      cases hset
    · intro set hset
      cases hset
  | some val =>
    refine ⟨?_, ?_, ?_⟩
    · intro hset
      cases hset
    · intro set hset hotime
      cases hset
      cases hotime
    · intro set hset hotime
      cases hset
      refine ⟨fun i => id, ?_⟩
      simp [start, added]

theorem sum_added_eq_zero {proc : ι → Stage} (h : ∀ i, ¬ (proc i).Uses) :
    ∑ i, added arg i (proc i) = 0 := by
  apply Finset.sum_eq_zero
  intro i _
  apply added_of_ne_done
  intro hdone
  apply h i
  rw [hdone]
  trivial

variable {old : Option Int}

/-- The set is in use. -/
theorem inv_used {val : Int} {proc' : ι → Stage} (hcreating : ∀ j, ¬ (proc' j).Creating)
    (hval : val = old.getD 0 + ∑ j, added arg j (proc' j)) :
    Inv old arg ⟨some ⟨val, true⟩, proc'⟩ := by
  refine ⟨?_, ?_, ?_⟩
  · intro hset
    cases hset
  · intro set hset hotime
    cases hset
    cases hotime
  · intro set hset _
    cases hset
    exact ⟨hcreating, hval⟩

variable [DecidableEq ι] {proc : ι → Stage}

/-- A process that stops where it added nothing leaves the sum. -/
theorem sum_added_update (hstage : proc i ≠ .done) (hstage' : stage' ≠ .done) :
    ∑ j, added arg j (Function.update proc i stage' j) = ∑ j, added arg j (proc j) := by
  rw [sum_update_sub (added arg), added_of_ne_done hstage, added_of_ne_done hstage']
  simp

theorem inv_quiet (h : Inv old arg ⟨s, proc⟩) (hdone : proc i ≠ .done)
    (hcreating : ¬ stage'.Creating) (huses : ¬ stage'.Uses) :
    Inv old arg ⟨s, Function.update proc i stage'⟩ := by
  have hdone' : stage' ≠ .done := by
    rintro rfl
    exact huses trivial
  have hnoop : stage' ≠ .noop := by
    rintro rfl
    exact hcreating trivial
  rcases h with ⟨habsent, hunused, hused⟩
  refine ⟨?_, ?_, ?_⟩
  · intro hset
    obtain ⟨hold, hall⟩ := habsent hset
    refine ⟨hold, ?_⟩
    rw [Function.forall_update_iff proc fun _ p => ¬ p.Creating ∧ ¬ p.Uses]
    exact ⟨⟨hcreating, huses⟩, fun j _ => hall j⟩
  · intro set hset hotime
    obtain ⟨hold, hall, hone, hval⟩ := hunused set hset hotime
    refine ⟨hold, ?_, ?_, ?_⟩
    · rw [Function.forall_update_iff proc fun _ p => ¬ p.Uses]
      exact ⟨huses, fun j _ => hall j⟩
    · rw [Function.forall_update_iff proc fun j p => ∀ k, p.Creating →
        (Function.update proc i stage' k).Creating → j = k]
      refine ⟨fun k h => absurd h hcreating, ?_⟩
      intro j _
      rw [Function.forall_update_iff proc fun k p => (proc j).Creating → p.Creating → j = k]
      exact ⟨fun _ h => absurd h hcreating, fun k _ => hone j k⟩
    · rw [Function.forall_update_iff proc fun _ p => p = .noop → set.val = 0]
      exact ⟨fun h => absurd h hnoop, fun j _ => hval j⟩
  · intro set hset hotime
    obtain ⟨hall, hval⟩ := hused set hset hotime
    refine ⟨?_, ?_⟩
    · rw [Function.forall_update_iff proc fun _ p => ¬ p.Creating]
      exact ⟨hcreating, fun j _ => hall j⟩
    · rw [hval, sum_added_update hdone hdone']

/-- The creator of an unused set takes its next step. -/
theorem inv_creating {set : SemSet} (hotime : set.otime = false)
    (hone : ∀ j, j ≠ i → ¬ (proc j).Creating) (hold : old = none)
    (huses : ∀ j, ¬ (proc j).Uses) (hstage' : ¬ stage'.Uses)
    (hval : stage' = .noop → set.val = 0) :
    Inv old arg ⟨some set, Function.update proc i stage'⟩ := by
  refine ⟨?_, ?_, ?_⟩
  · intro hset
    cases hset
  · intro set' hset hotime'
    cases hset
    refine ⟨hold, ?_, ?_, ?_⟩
    · rw [Function.forall_update_iff proc fun _ p => ¬ p.Uses]
      exact ⟨hstage', fun j _ => huses j⟩
    · intro j k hj hk
      dsimp only at hj hk
      by_contra hne
      by_cases hji : j = i
      · rw [hji] at hne
        rw [Function.update_of_ne (Ne.symm hne)] at hk
        exact hone k (Ne.symm hne) hk
      · rw [Function.update_of_ne hji] at hj
        exact hone j hji hj
    · rw [Function.forall_update_iff proc fun _ p => p = .noop → set.val = 0]
      refine ⟨hval, ?_⟩
      intro j hj hnoop
      exact absurd (by rw [hnoop]; trivial) (hone j hj)
  · intro set' hset hotime'
    cases hset
    rw [hotime] at hotime'
    cases hotime'

theorem inv_move (h : Inv old arg ⟨s, proc⟩) (hmove : Move arg i s (proc i) s' stage') :
    Inv old arg ⟨s', Function.update proc i stage'⟩ := by
  generalize hstage : proc i = stage at hmove
  have hcreator : stage.Creating → ∀ set, s = some set → set.otime = false := by
    intro hcreating set hset
    by_contra hotime
    have hnone : ¬ (proc i).Creating := (h.used set hset (by simpa using hotime)).1 i
    rw [hstage] at hnone
    exact hnone hcreating
  cases hmove with
  | quiet hdone hcreating huses => exact inv_quiet h (hstage ▸ hdone) hcreating huses
  | create val =>
    obtain ⟨hold, hall⟩ := h.absent rfl
    exact inv_creating rfl (fun j _ => (hall j).1) hold (fun j => (hall j).2) id Stage.noConfusion
  | clear set =>
    have hotime := hcreator trivial set rfl
    obtain ⟨hold, huses, hone, -⟩ := h.unused set rfl hotime
    refine @inv_creating _ arg i .noop _ old _ proc { set with val := 0 } hotime ?_ hold huses id
      fun _ => rfl
    intro j hj hcreating
    exact hj (hone j i hcreating (by dsimp only; rw [hstage]; trivial))
  | finish set hval =>
    obtain ⟨hold, huses, hone, -⟩ := h.unused set rfl (hcreator trivial set rfl)
    apply inv_used
    · rw [Function.forall_update_iff proc fun _ p => ¬ p.Creating]
      refine ⟨id, ?_⟩
      intro j hj hcreating
      exact hj (hone j i hcreating (by dsimp only; rw [hstage]; trivial))
    · rw [sum_added_update (by rw [hstage]; exact Stage.noConfusion) Stage.noConfusion,
        sum_added_eq_zero huses, hold]
      rfl
  | enter set j hotime =>
    obtain ⟨hall, hval⟩ := h.used set rfl hotime
    obtain ⟨val, otime⟩ := set
    obtain rfl : otime = true := hotime
    apply inv_used
    · rw [Function.forall_update_iff proc fun _ p => ¬ p.Creating]
      exact ⟨id, fun j _ => hall j⟩
    · rw [sum_added_update (by rw [hstage]; exact Stage.noConfusion) Stage.noConfusion]
      exact hval
  | use set =>
    have hotime : set.otime = true := by
      by_contra hfalse
      have hnone : ¬ (proc i).Uses := (h.unused set rfl (by simpa using hfalse)).2.1 i
      rw [hstage] at hnone
      exact hnone trivial
    obtain ⟨hall, hval⟩ := h.used set rfl hotime
    apply inv_used
    · rw [Function.forall_update_iff proc fun _ p => ¬ p.Creating]
      exact ⟨id, fun j _ => hall j⟩
    · rw [sum_update_sub (added arg), hstage, hval]
      simp only [added]
      omega

/-- In every interleaving of any number of processes, whatever value a new set has and
    whichever calls fail: no process takes the set for initialized before it is, the
    creator's operation that changes nothing never has to wait, and once the set is in use
    its value is that of an old set, or else 0, and all completed operations together: none
    is lost. -/
theorem reachable_no_lost_operation {c : Config (Option SemSet) ι Stage}
    (h : Reachable (call arg) (start old) c) :
    (∀ i, (c.proc i).Uses → ∃ set, c.shared = some set ∧ set.otime = true) ∧
      (∀ i, c.proc i = .noop → ∃ set, c.shared = some set ∧ set.val = 0) ∧
      ∀ set, c.shared = some set → set.otime = true →
        set.val = old.getD 0 + ∑ i, added arg i (c.proc i) := by
  have hinv : Inv old arg c := by
    apply h.invariant (Inv old arg) (inv_start old arg)
    intro c i a s' p' hinv hcall
    exact inv_move hinv (move_of_call hcall)
  refine ⟨?_, ?_, fun set hset hotime => (hinv.used set hset hotime).2⟩
  · intro i huses
    cases hset : c.shared with
    | none => exact absurd huses ((hinv.absent hset).2 i).2
    | some set =>
      refine ⟨set, rfl, ?_⟩
      by_contra hfalse
      exact (hinv.unused set hset (by simpa using hfalse)).2.1 i huses
  · intro i hnoop
    have hcreating : (c.proc i).Creating := by
      rw [hnoop]
      trivial
    cases hset : c.shared with
    | none => exact absurd hcreating ((hinv.absent hset).2 i).1
    | some set =>
      refine ⟨set, rfl, ?_⟩
      cases hotime : set.otime with
      | true => exact absurd hcreating ((hinv.used set hset hotime).1 i)
      | false => exact (hinv.unused set hset hotime).2.2.2 i hnoop

/-- The first process creates the set, the second finds it, looks once too early, and then
    performs its operation first. -/
def twoProcs : List (Bool × Answer) :=
  [(false, .returns 7), (true, .fails ⟨17, by decide⟩), (true, .returns 0), (true, .returns 0),
    (false, .returns 0), (false, .returns 0), (true, .returns 0), (true, .returns 0),
    (false, .returns 0)]

theorem reachable_no_lost_operation_two :
    ∃ c : Config (Option SemSet) Bool Stage,
      Reachable (call fun i => if i then bytes "2" else bytes "1") (start none) c ∧
        (∀ i, c.proc i = .done) ∧ ∃ set, c.shared = some set ∧ set.val = 3 := by
  obtain ⟨c, hrun⟩ : ∃ c, (start none).run (call fun i : Bool => if i then bytes "2" else bytes "1")
      twoProcs = some c := ⟨_, rfl⟩
  have hreach := Reachable.start.of_run hrun
  have hdone : ∀ i, c.proc i = .done := by
    cases hrun
    intro i
    cases i <;> rfl
  obtain ⟨huses, -, hsum⟩ := reachable_no_lost_operation hreach
  obtain ⟨set, hset, hotime⟩ := huses false (by rw [hdone]; trivial)
  refine ⟨c, hreach, hdone, set, hset, ?_⟩
  rw [hsum set hset hotime]
  simp only [hdone]
  rfl

end Good

/-! ### Every run of `svsem_bad_init.c` -/

namespace Bad

/-- A call that leaves the set as it is. -/
structure Quiet (s : Option SemSet) (stage stage' : Stage) : Prop where
  ne_done : stage ≠ .done
  semget2 : stage' = .semget2 → stage = .semget ∧ s.isSome
  op : stage' = .op → stage = .semget2
  ne_semget : stage' ≠ .semget
  ne_setval : stage' ≠ .setval
  ne_done' : stage' ≠ .done

theorem quiet_failed {exit : Exit} (h : stage ≠ .done) : Quiet s stage (.failed exit) :=
  ⟨h, Stage.noConfusion, Stage.noConfusion, Stage.noConfusion, Stage.noConfusion,
    Stage.noConfusion⟩

/-- All that a call can do. -/
theorem call_cases (h : call i s stage a = some (s', stage')) :
    (∃ val, stage = .semget ∧ s = none ∧ s' = some ⟨val, false⟩ ∧ stage' = .setval) ∨
      (∃ set, stage = .setval ∧ s = some set ∧ s' = some { set with val := 0 } ∧ stage' = .op) ∨
      (∃ set, stage = .op ∧ s = some set ∧ s' = some ⟨set.val + 1, true⟩ ∧ stage' = .done) ∨
      (s' = s ∧ Quiet s stage stage') := by
  cases stage with
  | semget =>
    rcases createExcl_cases h with ⟨val, rfl, rfl, rfl⟩ | ⟨hsome, rfl, rfl⟩ | ⟨rfl, exit, rfl⟩
    · exact .inl ⟨val, rfl, rfl, rfl, rfl⟩
    · exact .inr (.inr (.inr ⟨rfl, Stage.noConfusion, fun _ => ⟨rfl, hsome⟩, Stage.noConfusion,
        Stage.noConfusion, Stage.noConfusion, Stage.noConfusion⟩))
    · exact .inr (.inr (.inr ⟨rfl, quiet_failed Stage.noConfusion⟩))
  | setval =>
    rcases orExit_cases h with hnext | ⟨rfl, exit, rfl⟩
    · obtain ⟨set, rfl, heq⟩ := Option.map_eq_some_iff.mp hnext
      cases heq
      exact .inr (.inl ⟨set, rfl, rfl, rfl, rfl⟩)
    · exact .inr (.inr (.inr ⟨rfl, quiet_failed Stage.noConfusion⟩))
  | semget2 =>
    rcases orExit_cases h with hnext | ⟨rfl, exit, rfl⟩
    · cases hnext
      exact .inr (.inr (.inr ⟨rfl, Stage.noConfusion, Stage.noConfusion, fun _ => rfl,
        Stage.noConfusion, Stage.noConfusion, Stage.noConfusion⟩))
    · exact .inr (.inr (.inr ⟨rfl, quiet_failed Stage.noConfusion⟩))
  | op =>
    rcases orExit_cases h with hnext | ⟨rfl, exit, rfl⟩
    · obtain ⟨set, rfl, -, rfl, rfl⟩ := operate_cases hnext
      exact .inr (.inr (.inl ⟨set, rfl, rfl, rfl, rfl⟩))
    · exact .inr (.inr (.inr ⟨rfl, quiet_failed Stage.noConfusion⟩))
  | noop => cases h
  | stat j => cases h
  | done => cases h
  | failed exit => cases h

/-- Whether the process has completed its operation, as a number. -/
def count : Stage → Int
  | .done => 1
  | _ => 0

theorem count_of_ne_done (h : stage ≠ .done) : count stage = 0 := by
  cases stage with
  | done => exact absurd rfl h
  | _ => rfl

section Values

variable [Fintype ι]

/-- The bounds of the value once the process `k`, which creates the set, has cleared it:
    those operations count that came behind. -/
def Bounds (val done : Int) : Stage → Prop
  | .op => 0 ≤ val ∧ val ≤ done
  | .done => 1 ≤ val ∧ val ≤ done
  | _ => True

/-- Before the set is there nobody gets beyond the first call; then one process, its
    creator, is the only one that clears it. -/
structure Inv (c : Config (Option SemSet) ι Stage) : Prop where
  absent : c.shared = none → ∀ i, c.proc i ≠ .setval ∧ c.proc i ≠ .semget2 ∧ c.proc i ≠ .op ∧
    c.proc i ≠ .done
  created : ∀ set, c.shared = some set → ∃ k,
    (∀ j, j ≠ k → c.proc j ≠ .setval) ∧ c.proc k ≠ .semget ∧ c.proc k ≠ .semget2 ∧
      Bounds set.val (∑ i, count (c.proc i)) (c.proc k)

theorem bounds_of_ne {val done : Int} (hop : stage ≠ .op) (hdone : stage ≠ .done) :
    Bounds val done stage := by
  cases stage with
  | op => exact absurd rfl hop
  | done => exact absurd rfl hdone
  | _ => trivial

theorem bounds_succ {val done : Int} (h : Bounds val done stage) :
    Bounds (val + 1) (done + 1) stage := by
  cases stage with
  | op =>
    simp only [Bounds] at h ⊢
    omega
  | done =>
    simp only [Bounds] at h ⊢
    omega
  | _ => trivial

theorem sum_count_nonneg (proc : ι → Stage) : 0 ≤ ∑ j, count (proc j) := by
  apply Finset.sum_nonneg
  intro j _
  unfold count
  split <;> decide

theorem inv_start : Inv (start none : Config (Option SemSet) ι Stage) := by
  refine ⟨?_, ?_⟩
  · intro _ i
    exact ⟨Stage.noConfusion, Stage.noConfusion, Stage.noConfusion, Stage.noConfusion⟩
  · intro set hset
    cases hset

variable [DecidableEq ι] {proc : ι → Stage}

theorem sum_count_update (hstage : proc i ≠ .done) :
    ∑ j, count (Function.update proc i stage' j) = ∑ j, count (proc j) + count stage' := by
  rw [sum_update_sub fun _ => count, count_of_ne_done hstage, sub_zero]

theorem inv_quiet (h : Inv ⟨s, proc⟩) (hquiet : Quiet s (proc i) stage') :
    Inv ⟨s, Function.update proc i stage'⟩ := by
  refine ⟨?_, ?_⟩
  · intro hset
    have hall : ∀ j, proc j ≠ .setval ∧ proc j ≠ .semget2 ∧ proc j ≠ .op ∧ proc j ≠ .done :=
      h.absent hset
    rw [Function.forall_update_iff proc fun _ p => p ≠ .setval ∧ p ≠ .semget2 ∧ p ≠ .op ∧ p ≠ .done]
    refine ⟨⟨hquiet.ne_setval, ?_, ?_, hquiet.ne_done'⟩, fun j _ => hall j⟩
    · intro heq
      have hsome := (hquiet.semget2 heq).2
      rw [show s = none from hset] at hsome
      cases hsome
    · intro heq
      exact (hall i).2.1 (hquiet.op heq)
  · intro set hset
    obtain ⟨k, hone, hne, hne2, hbounds⟩ := h.created set hset
    dsimp only at hone hne hne2 hbounds ⊢
    refine ⟨k, ?_, ?_⟩
    · intro j hj
      by_cases hji : j = i
      · subst hji
        rw [Function.update_self]
        exact hquiet.ne_setval
      · rw [Function.update_of_ne hji]
        exact hone j hj
    · rw [sum_count_update hquiet.ne_done, count_of_ne_done hquiet.ne_done', add_zero]
      by_cases hki : k = i
      · subst hki
        rw [Function.update_self]
        exact ⟨hquiet.ne_semget, fun heq => hne (hquiet.semget2 heq).1,
          bounds_of_ne (fun heq => hne2 (hquiet.op heq)) hquiet.ne_done'⟩
      · rw [Function.update_of_ne hki]
        exact ⟨hne, hne2, hbounds⟩

theorem inv_call (h : Inv ⟨s, proc⟩) (hcall : call i s (proc i) a = some (s', stage')) :
    Inv ⟨s', Function.update proc i stage'⟩ := by
  rcases call_cases hcall with ⟨val, hstage, rfl, rfl, rfl⟩ | ⟨set, hstage, rfl, rfl, rfl⟩ |
    ⟨set, hstage, rfl, rfl, rfl⟩ | ⟨rfl, hquiet⟩
  · refine ⟨fun hset => (by cases hset), ?_⟩
    intro set hset
    refine ⟨i, ?_, ?_⟩
    · intro j hj
      dsimp only
      rw [Function.update_of_ne hj]
      exact (h.absent rfl j).1
    · dsimp only
      rw [Function.update_self]
      exact ⟨Stage.noConfusion, Stage.noConfusion, trivial⟩
  · refine ⟨fun hset => (by cases hset), ?_⟩
    intro set' hset
    cases hset
    obtain ⟨k, hone, hne, hne2, -⟩ := h.created set rfl
    dsimp only at hone hne hne2 ⊢
    obtain rfl : i = k := by
      by_contra hik
      exact hone i hik hstage
    refine ⟨i, ?_, ?_⟩
    · intro j hj
      rw [Function.update_of_ne hj]
      exact hone j hj
    · rw [Function.update_self, sum_count_update (by rw [hstage]; exact Stage.noConfusion)]
      refine ⟨Stage.noConfusion, Stage.noConfusion, Int.le_refl 0, ?_⟩
      exact add_nonneg (sum_count_nonneg proc) (Int.le_refl 0)
  · refine ⟨fun hset => (by cases hset), ?_⟩
    intro set' hset
    cases hset
    obtain ⟨k, hone, hne, hne2, hbounds⟩ := h.created set rfl
    dsimp only at hone hne hne2 hbounds ⊢
    refine ⟨k, ?_, ?_⟩
    · intro j hj
      by_cases hji : j = i
      · subst hji
        rw [Function.update_self]
        exact Stage.noConfusion
      · rw [Function.update_of_ne hji]
        exact hone j hj
    · rw [sum_count_update (by rw [hstage]; exact Stage.noConfusion)]
      by_cases hki : k = i
      · subst hki
        rw [hstage] at hbounds
        rw [Function.update_self]
        exact ⟨Stage.noConfusion, Stage.noConfusion, by
          simp only [Bounds, count] at hbounds ⊢
          omega⟩
      · rw [Function.update_of_ne hki]
        refine ⟨hne, hne2, bounds_succ hbounds⟩
  · exact inv_quiet h hquiet

theorem bounds_of_done {c : Config (Option SemSet) ι Stage} {set : SemSet}
    (h : Reachable call (start none) c) (hset : c.shared = some set)
    (hdone : ∀ i, c.proc i = .done) : 1 ≤ set.val ∧ set.val ≤ Fintype.card ι := by
  have hinv : Inv c := by
    apply h.invariant Inv inv_start
    intro c i a s' p' hinv hcall
    exact inv_call hinv hcall
  obtain ⟨k, -, -, -, hbounds⟩ := hinv.created set hset
  have hsum : ∑ i, count (c.proc i) = Fintype.card ι := by
    simp only [hdone, count]
    simp
  rw [hsum, hdone] at hbounds
  exact hbounds

end Values

/-! ### Runs that lose operations -/

theorem semop_one {set : SemSet} (hlo : 0 ≤ set.val) (hhi : set.val + 1 ≤ SEMVMX) :
    semop 1 set = some ⟨set.val + 1, true⟩ := by
  rw [semop, if_neg (by decide), if_pos ⟨by omega, hhi⟩]

theorem call_op (i : ι) {set : SemSet} (hlo : 0 ≤ set.val) (hhi : set.val + 1 ≤ SEMVMX) :
    call i (some set) .op (.returns 0) = some (some ⟨set.val + 1, true⟩, .done) := by
  simp only [call, orExit, operate, Option.bind_some, semop_one hlo hhi]
  rfl

variable [DecidableEq ι] {proc : ι → Stage} {first : Config (Option SemSet) ι Stage} {set : SemSet}

/-- A process that has not begun finds the set and performs its operation. -/
theorem reachable_through (h : Reachable call first ⟨some set, proc⟩) (hproc : proc i = .semget)
    (hlo : 0 ≤ set.val) (hhi : set.val + 1 ≤ SEMVMX) :
    Reachable call first ⟨some ⟨set.val + 1, true⟩, Function.update proc i .done⟩ := by
  have hfind : call i (some set) (proc i) (.fails ⟨17, by decide⟩) = some (some set, .semget2) := by
    rw [hproc]
    rfl
  have hget : call i (some set) (Function.update proc i .semget2 i) (.returns 0) =
      some (some set, .op) := by
    rw [Function.update_self]
    rfl
  have hop : call i (some set) (Function.update proc i .op i) (.returns 0) =
      some (some ⟨set.val + 1, true⟩, .done) := by
    rw [Function.update_self]
    exact call_op i hlo hhi
  have hready := (h.of_call hfind).of_call hget
  rw [Function.update_idem] at hready
  have hdone := hready.of_call hop
  rwa [Function.update_idem] at hdone

/-- Processes that have not begun go through one behind the other. -/
theorem reachable_ops (h : Reachable call first ⟨some set, proc⟩) (T : Finset ι)
    (hproc : ∀ i ∈ T, proc i = .semget) (hlo : 0 ≤ set.val)
    (hhi : set.val + T.card ≤ SEMVMX) :
    ∃ otime, Reachable call first
      ⟨some ⟨set.val + T.card, otime⟩, fun i => if i ∈ T then .done else proc i⟩ := by
  induction T using Finset.induction_on with
  | empty => exact ⟨set.otime, by simpa using h⟩
  | insert i T hi ih =>
    rw [Finset.card_insert_of_notMem hi] at hhi ⊢
    push_cast at hhi ⊢
    obtain ⟨otime, hreach⟩ := ih (fun j hj => hproc j (Finset.mem_insert_of_mem hj)) (by omega)
    have hown : (if i ∈ T then Stage.done else proc i) = .semget := by
      rw [if_neg hi]
      exact hproc i (Finset.mem_insert_self i T)
    have hnext := reachable_through hreach hown (by dsimp only; omega) (by dsimp only; omega)
    have hstages : Function.update (fun j => if j ∈ T then Stage.done else proc j) i .done =
        fun j => if j ∈ insert i T then .done else proc j := by
      funext j
      by_cases hj : j = i
      · subst hj
        simp
      · simp [hj]
    rw [hstages] at hnext
    rw [← add_assoc]
    exact ⟨true, hnext⟩

/-- The process `k` creates the set, those of `T` use it, and then `k` clears it. -/
theorem reachable_cleared {k : ι} {T : Finset ι} (hk : k ∉ T) (hT : (T.card : Int) ≤ SEMVMX) :
    ∃ otime, Reachable call (start none) ⟨some ⟨0, otime⟩,
      Function.update (fun i => if i ∈ T then .done else .semget) k .op⟩ := by
  have hcreate : call k none .semget (.returns 0) = some (some ⟨0, false⟩, .setval) := rfl
  have hcreated : Reachable call (start none) ⟨some ⟨0, false⟩,
      Function.update (fun _ => Stage.semget) k .setval⟩ := Reachable.start.of_call hcreate
  have hwaiting : ∀ i ∈ T, Function.update (fun _ => Stage.semget) k .setval i = .semget :=
    fun i hi => Function.update_of_ne (ne_of_mem_of_not_mem hi hk) _ _
  obtain ⟨otime, hlost⟩ := reachable_ops hcreated T hwaiting (Int.le_refl 0) (by dsimp only; omega)
  have hclear : call k (some ⟨0 + T.card, otime⟩)
      (if k ∈ T then .done else Function.update (fun _ => Stage.semget) k .setval k)
      (.returns 0) = some (some ⟨0, otime⟩, .op) := by
    rw [if_neg hk, Function.update_self]
    rfl
  refine ⟨otime, ?_⟩
  have hcleared := hlost.of_call hclear
  dsimp only at hcleared
  have hstages : Function.update (fun i => if i ∈ T then Stage.done
      else Function.update (fun _ => Stage.semget) k .setval i) k .op =
        Function.update (fun i => if i ∈ T then .done else .semget) k .op := by
    funext i
    by_cases hi : i = k
    · subst hi
      simp
    · simp [hi]
  rwa [hstages] at hcleared

/-- With processes that each add 1 to a set that is not there at the start, all of which
    complete their operation, the semaphore can end with every value from 1 to their number,
    and with no other: the operations that come before the creator's `SETVAL` are lost. -/
theorem final_value_iff [Fintype ι] [Nonempty ι] (hcard : (Fintype.card ι : Int) ≤ SEMVMX)
    (val : Int) :
    (∃ c : Config (Option SemSet) ι Stage, Reachable call (start none) c ∧
      (∀ i, c.proc i = .done) ∧ ∃ set, c.shared = some set ∧ set.val = val) ↔
      1 ≤ val ∧ val ≤ Fintype.card ι := by
  constructor
  · rintro ⟨c, hreach, hdone, set, hset, rfl⟩
    exact bounds_of_done hreach hset hdone
  · rintro ⟨hlo, hhi⟩
    obtain ⟨k⟩ := ‹Nonempty ι›
    have hothers : (Finset.univ.erase k).card = Fintype.card ι - 1 := by
      rw [Finset.card_erase_of_mem (Finset.mem_univ k), Finset.card_univ]
    -- `T` are the processes whose operation is lost
    obtain ⟨T, hT, hTcard⟩ := Finset.exists_subset_card_eq
      (show Fintype.card ι - val.toNat ≤ (Finset.univ.erase k).card by omega)
    have hk : k ∉ T := fun hmem => Finset.ne_of_mem_erase (hT hmem) rfl
    have hrest : (((Finset.univ.erase k) \ T).card : Int) = val - 1 := by
      rw [Finset.card_sdiff_of_subset hT, hothers, hTcard]
      omega
    obtain ⟨otime, hcleared⟩ := @reachable_cleared ι _ k T hk (by omega)
    obtain ⟨otime', hcounted⟩ := reachable_ops hcleared ((Finset.univ.erase k) \ T)
      (fun i hi => by
        obtain ⟨hik, hiT⟩ := Finset.mem_sdiff.mp hi
        rw [Function.update_of_ne (Finset.ne_of_mem_erase hik), if_neg hiT]) (Int.le_refl 0)
      (by dsimp only; omega)
    dsimp only at hcounted
    have hlast : call k (some ⟨0 + ((Finset.univ.erase k) \ T).card, otime'⟩)
        (if k ∈ (Finset.univ.erase k) \ T then .done
          else Function.update (fun i => if i ∈ T then Stage.done else .semget) k .op k)
        (.returns 0) =
          some (some ⟨0 + ((Finset.univ.erase k) \ T).card + 1, true⟩, .done) := by
      rw [if_neg (by simp), Function.update_self]
      exact call_op k (by dsimp only; omega) (by dsimp only; omega)
    refine ⟨_, hcounted.of_call hlast, ?_, _, rfl, ?_⟩
    · intro i
      dsimp only
      by_cases hi : i = k
      · rw [hi, Function.update_self]
      · rw [Function.update_of_ne hi]
        by_cases hiT : i ∈ T
        · simp [hi, hiT]
        · simp [hi, hiT]
    · dsimp only
      omega

/-- Two processes, and one operation is lost. -/
theorem final_value_one_of_two :
    ∃ c : Config (Option SemSet) Bool Stage, Reachable call (start none) c ∧
      (∀ i, c.proc i = .done) ∧ ∃ set, c.shared = some set ∧ set.val = 1 :=
  (final_value_iff (by decide) 1).mpr (by decide)

end Bad

end LinuxPractice.Tlpi.SemInit
