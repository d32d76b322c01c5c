import LinuxPractice.CLib.Strtol
import LinuxPractice.CLib.Stdio
import LinuxPractice.Kernel.Interleave
import LinuxPractice.Kernel.Transfer

/-!
# `svshm_xfr_writer.c` and `svshm_xfr_reader.c`: a transfer through shared memory

The writer puts blocks of its standard input into a shared memory segment, from which
the reader writes them to its standard output.  Two semaphores of `binary_sems.c` hand
the segment back and forth.  Each of the system calls, and each look at `shmp->cnt`, is a
step of its own, and the two programs interleave in any way; the IPC objects do not
exist at the start.  A process whose call fails stops where it is.
-/

namespace LinuxPractice.Tlpi.ShmXfr

open LinuxPractice.CLib LinuxPractice.Kernel

/-- The values of `WRITE_SEM` and `READ_SEM`, whether the segment exists, what is in it,
    the writer's standard input, and the data of each `write` to the reader's standard
    output. -/
structure Shared where
  sems : Option (Nat × Nat)
  segment : Bool
  cnt : Int
  buf : Bytes
  stdin : Input UInt8 Errno
  stdout : List Bytes

/-- How a call ends; the number is the one that the reader's `write` returns. -/
inductive Answer where
  | returns (n : Nat)
  | interrupted
  | fails

/-- What the writer does next, with its variables `xfrs` and `bytes`. -/
inductive Writer where
  | semget
  | initSemAvailable
  | initSemInUse
  | shmget
  | shmat
  | reserve (xfrs bytes : Int)
  | read (xfrs bytes : Int)
  | release (xfrs bytes : Int)
  | test (xfrs bytes : Int)
  | reserveLast (xfrs bytes : Int)
  | semctl (xfrs bytes : Int)
  | shmdt (xfrs bytes : Int)
  | shmctl (xfrs bytes : Int)
  /-- Behind `"Sent %d bytes (%d xfrs)\n"`. -/
  | sent (xfrs bytes : Int)

inductive Reader where
  | semget
  | shmget
  | shmat
  | reserve (xfrs bytes : Int)
  | test (xfrs bytes : Int)
  | write (xfrs bytes : Int)
  | release (xfrs bytes : Int)
  /-- Behind a `write` that stored a part of the block. -/
  | torn
  | shmdt (xfrs bytes : Int)
  | releaseLast (xfrs bytes : Int)
  /-- Behind `"Received %d bytes (%d xfrs)\n"`. -/
  | received (xfrs bytes : Int)

/-- The end of a step: the shared state, what is next, and the message of `errExit` or
    `fatal` if the process ends here. -/
abbrev Next (π : Type) := Option (Shared × π × Option String)

/-- `reserveSem`, which repeats an interrupted `semop`: it waits while the semaphore is 0
    and fails if the set is gone. -/
def reserveSem {π : Type} (sem : Nat × Nat → Nat) (take : Nat × Nat → Nat × Nat) (here next : π)
    (s : Shared) : Answer → Next π
  | .fails => some (s, here, some "reserveSem")
  | .interrupted => some (s, here, none)
  | .returns _ =>
    match s.sems with
    | none => some (s, here, some "reserveSem")
    | some v => if 0 < sem v then some ({ s with sems := some (take v) }, next, none) else none

def releaseSem {π : Type} (give : Nat × Nat → Nat × Nat) (here next : π) (s : Shared) :
    Answer → Next π
  | .returns _ =>
    match s.sems with
    | none => some (s, here, some "releaseSem")
    | some v => some ({ s with sems := some (give v) }, next, none)
  | _ => some (s, here, some "releaseSem")

/-- A call that succeeds or ends the process, and changes the shared state so. -/
def simpleCall {π : Type} (text : String) (change : Shared → Shared) (here next : π)
    (s : Shared) : Answer → Next π
  | .returns _ => some (change s, next, none)
  | _ => some (s, here, some text)

def reserveWrite {π : Type} : π → π → Shared → Answer → Next π :=
  reserveSem Prod.fst fun v => (v.1 - 1, v.2)

def reserveRead {π : Type} : π → π → Shared → Answer → Next π :=
  reserveSem Prod.snd fun v => (v.1, v.2 - 1)

def releaseWrite {π : Type} : π → π → Shared → Answer → Next π :=
  releaseSem fun v => (v.1 + 1, v.2)

def releaseRead {π : Type} : π → π → Shared → Answer → Next π :=
  releaseSem fun v => (v.1, v.2 + 1)

/-- The next step of the writer, compiled with a buffer of `bufSize` bytes. -/
def writerStep (bufSize : Nat) (s : Shared) : Writer → Answer → Next Writer
  | .semget => simpleCall "semget" (fun s => { s with sems := some (s.sems.getD (0, 0)) })
      .semget .initSemAvailable s
  | .initSemAvailable => simpleCall "initSemAvailable"
      (fun s => { s with sems := s.sems.map fun v => (1, v.2) }) .initSemAvailable .initSemInUse s
  | .initSemInUse => simpleCall "initSemInUse"
      (fun s => { s with sems := s.sems.map fun v => (v.1, 0) }) .initSemInUse .shmget s
  | .shmget => simpleCall "shmget" (fun s => if s.segment then s
      else { s with segment := true, cnt := 0, buf := List.replicate bufSize 0 }) .shmget .shmat s
  | .shmat => simpleCall "shmat" id .shmat (.reserve 0 0) s
  | .reserve xfrs bytes => reserveWrite (.reserve xfrs bytes) (.read xfrs bytes) s
  | .read xfrs bytes => fun _ =>
    match s.stdin.read bufSize with
    | (.error _, stdin) => some ({ s with stdin, cnt := -1 }, .read xfrs bytes, some "read")
    | (.ok block, stdin) =>
      some ({ s with stdin, cnt := block.length, buf := block ++ s.buf.drop block.length },
        .release xfrs bytes, none)
  | .release xfrs bytes => releaseRead (.release xfrs bytes) (.test xfrs bytes) s
  | .test xfrs bytes => fun _ =>
    some (s, if s.cnt = 0 then .reserveLast xfrs bytes
      else .reserve (wrapInt (xfrs + 1)) (wrapInt (bytes + s.cnt)), none)
  | .reserveLast xfrs bytes => reserveWrite (.reserveLast xfrs bytes) (.semctl xfrs bytes) s
  | .semctl xfrs bytes => simpleCall "semctl" (fun s => { s with sems := none })
      (.semctl xfrs bytes) (.shmdt xfrs bytes) s
  | .shmdt xfrs bytes => simpleCall "shmdt" id (.shmdt xfrs bytes) (.shmctl xfrs bytes) s
  | .shmctl xfrs bytes => simpleCall "shmctl" (fun s => { s with segment := false })
      (.shmctl xfrs bytes) (.sent xfrs bytes) s
  | .sent _ _ => fun _ => none

/-- The next step of the reader. -/
def readerStep (s : Shared) : Reader → Answer → Next Reader
  | .semget => fun answer =>
    if s.sems.isNone then some (s, .semget, some "semget")
    else simpleCall "semget" id .semget .shmget s answer
  | .shmget => fun answer =>
    if !s.segment then some (s, .shmget, some "shmget")
    else simpleCall "shmget" id .shmget .shmat s answer
  | .shmat => simpleCall "shmat" id .shmat (.reserve 0 0) s
  | .reserve xfrs bytes => reserveRead (.reserve xfrs bytes) (.test xfrs bytes) s
  | .test xfrs bytes => fun _ =>
    some (s, if s.cnt = 0 then .shmdt xfrs bytes
      else .write xfrs (wrapInt (bytes + s.cnt)), none)
  | .write xfrs bytes => fun
    | .returns n =>
      if (n : Int) < s.cnt then
        some ({ s with stdout := s.stdout ++ [s.buf.take n] }, .torn, some "partial/failed write")
      else
        some ({ s with stdout := s.stdout ++ [s.buf.take s.cnt.toNat] }, .release xfrs bytes, none)
    | _ => some (s, .write xfrs bytes, some "partial/failed write")
  | .release xfrs bytes =>
    releaseWrite (.release xfrs bytes) (.reserve (wrapInt (xfrs + 1)) bytes) s
  | .torn => fun _ => none
  | .shmdt xfrs bytes => simpleCall "shmdt" id (.shmdt xfrs bytes) (.releaseLast xfrs bytes) s
  | .releaseLast xfrs bytes => releaseWrite (.releaseLast xfrs bytes) (.received xfrs bytes) s
  | .received _ _ => fun _ => none

inductive Role where
  | writer
  | reader
deriving DecidableEq

/-- A process: what it does next, and the message it has ended with, if it has. -/
inductive Proc where
  | writer (next : Writer) (error : Option String)
  | reader (next : Reader) (error : Option String)

def call (bufSize : Nat) (_ : Role) (s : Shared) : Proc → Answer → Option (Shared × Proc)
  | .writer next none, answer =>
    (writerStep bufSize s next answer).map fun r => (r.1, .writer r.2.1 r.2.2)
  | .reader next none, answer =>
    (readerStep s next answer).map fun r => (r.1, .reader r.2.1 r.2.2)
  | .writer _ (some _), _ => none
  | .reader _ (some _), _ => none

def start (stdin : Input UInt8 Errno) : Config Shared Role Proc where
  shared := ⟨none, false, 0, [], stdin, []⟩
  proc
    | .writer => .writer .semget none
    | .reader => .reader .semget none

/-! ### The calls -/

section Calls

variable {π : Type} {here next after : π} {s s' : Shared} {answer : Answer} {error : Option String}

theorem reserveSem_cases {sem : Nat × Nat → Nat} {take : Nat × Nat → Nat × Nat}
    (h : reserveSem sem take here next s answer = some (s', after, error)) :
    (s' = s ∧ after = here) ∨
      ∃ v, s.sems = some v ∧ 0 < sem v ∧ s' = { s with sems := some (take v) } ∧ after = next := by
  cases answer with
  | fails =>
    cases h
    exact .inl ⟨rfl, rfl⟩
  | interrupted =>
    cases h
    exact .inl ⟨rfl, rfl⟩
  | returns n =>
    unfold reserveSem at h
    cases hsems : s.sems with
    | none =>
      simp only [hsems] at h
      cases h
      exact .inl ⟨rfl, rfl⟩
    | some v =>
      simp only [hsems] at h
      split at h
      · rename_i hpos
        cases h
        exact .inr ⟨v, rfl, hpos, rfl, rfl⟩
      · cases h

theorem releaseSem_cases {give : Nat × Nat → Nat × Nat}
    (h : releaseSem give here next s answer = some (s', after, error)) :
    (s' = s ∧ after = here) ∨
      ∃ v, s.sems = some v ∧ s' = { s with sems := some (give v) } ∧ after = next := by
  cases answer with
  | fails =>
    cases h
    exact .inl ⟨rfl, rfl⟩
  | interrupted =>
    cases h
    exact .inl ⟨rfl, rfl⟩
  | returns n =>
    unfold releaseSem at h
    cases hsems : s.sems with
    | none =>
      simp only [hsems] at h
      cases h
      exact .inl ⟨rfl, rfl⟩
    | some v =>
      simp only [hsems] at h
      cases h
      exact .inr ⟨v, rfl, rfl, rfl⟩

theorem simpleCall_cases {text : String} {change : Shared → Shared}
    (h : simpleCall text change here next s answer = some (s', after, error)) :
    (s' = s ∧ after = here) ∨ (s' = change s ∧ after = next) := by
  cases answer with
  | fails =>
    cases h
    exact .inl ⟨rfl, rfl⟩
  | interrupted =>
    cases h
    exact .inl ⟨rfl, rfl⟩
  | returns n =>
    cases h
    exact .inr ⟨rfl, rfl⟩

/-- The writer waits as long as `WRITE_SEM` is 0. -/
theorem reserveWrite_of_zero {v : Nat} (hsems : s.sems = some (0, v))
    (h : reserveWrite here next s answer = some (s', after, error)) : s' = s ∧ after = here := by
  rcases reserveSem_cases h with hstays | ⟨v', heq, hpos, -⟩
  · exact hstays
  · rw [hsems] at heq
    cases heq
    exact absurd hpos (Nat.lt_irrefl 0)

end Calls

end LinuxPractice.Tlpi.ShmXfr
