import LinuxPractice.Chap5.GetNum
import LinuxPractice.CLib.Stdio
import LinuxPractice.Kernel.Descriptors

/-!
# `five-four/dup1-using-fcntl.c`: duplicating a descriptor given as a number

The number is cast to `int` before it is tested, and the test for a range error looks
at a variable `errorno` that nothing but its initialisation assigns.  So a number that
is no `int` is never refused: the descriptor it is congruent to is duplicated.
-/

namespace LinuxPractice.Chap5.Dup1

open LinuxPractice.CLib LinuxPractice.Kernel

inductive Out where
  /-- Prints `"strtol() returned %ld\n"`. -/
  | returned (val : Int)
  /-- Prints `"Further characters after number: %s\n\n"`. -/
  | further (endptr : Bytes)
  /-- Prints `"duplicated fd %d on fd %d\n"`. -/
  | duplicated (oldFd : Int) (newFd : Nat)
deriving DecidableEq

inductive Exit where
  | success
  | usageErr
  | perror (text : String)
  /-- Prints `"No digits were found\n"`. -/
  | noDigits
  | errExit (text : String)
deriving DecidableEq

/-- A system call on a descriptor; `newFd` is the answer of `fcntl`, `none` its failure. -/
inductive Call where
  | fcntl (oldFd : Int) (newFd : Option Nat)
  | close (fd : Nat)
deriving DecidableEq

structure Run where
  out : List Out
  calls : List Call
  fds : FdTable
  exit : Exit

/-- The part of `main` behind the conversion, which answered `res`. -/
def duplicate (a : Bytes) (res : StrtolResult) (fds : FdTable) (closeErr : Option Errno) : Run :=
  let errorno := 0
  let oldFd := wrapInt res.value
  -- the `int` widened to `long`
  let val := oldFd
  if (errorno = ERANGE ∧ (val = LONG_MAX ∨ val = LONG_MIN)) ∨ (errorno ≠ 0 ∧ val = 0) then
    ⟨[], [], fds, .perror "strol"⟩
  else if res.rest = a then ⟨[], [], fds, .noDigits⟩
  else
    let out := .returned val :: if res.rest ≠ [] then [.further res.rest] else []
    match fds.dupFd oldFd 3 with
    | none => ⟨out, [.fcntl oldFd none], fds, .errExit "fcntl"⟩
    | some (newFd, fds) =>
      let out := out ++ [.duplicated oldFd newFd]
      let calls := [.fcntl oldFd (some newFd), .close newFd]
      match fds.close newFd with
      | none => ⟨out, calls, fds, .errExit "close"⟩
      | some fds => ⟨out, calls, fds, if closeErr.isSome then .errExit "close" else .success⟩

/-- `main` with the open descriptors and the failure of `close`, which frees the
    descriptor all the same. -/
def main (argv : List Bytes) (fds : FdTable) (closeErr : Option Errno) : Run :=
  match argv with
  | _ :: a :: _ =>
    if a = bytes "--help" then ⟨[], [], fds, .usageErr⟩
    else duplicate a (strtol 10 a) fds closeErr
  | _ => ⟨[], [], fds, .usageErr⟩

/-! ### What is asked of a run -/

/-- The numeral of `a` is an `int`. -/
def FitsInt (a : Bytes) : Prop := ∃ v rest, Numeral a v rest ∧ INT_MIN ≤ v ∧ v ≤ INT_MAX

/-- The program ends with `EXIT_FAILURE`, and no descriptor was duplicated or closed. -/
def Run.Refuses (r : Run) : Prop :=
  r.exit ≠ .success ∧ (∀ oldFd newFd, .fcntl oldFd (some newFd) ∉ r.calls) ∧
    ∀ fd, .close fd ∉ r.calls

/-- The descriptor given to `fcntl` is the integer that `a` denotes, and an argument that
    denotes none, or none that is an `int`, is refused. -/
structure UsesDenoted (a : Bytes) (r : Run) : Prop where
  fcntl_arg : ∀ oldFd newFd, .fcntl oldFd newFd ∈ r.calls → ∃ rest, Numeral a oldFd rest
  refuses : ¬ FitsInt a → r.Refuses

/-- The same of the descriptors that `fcntl` does duplicate. -/
structure DuplicatesDenoted (a : Bytes) (r : Run) : Prop where
  duplicated : ∀ oldFd newFd, .fcntl oldFd (some newFd) ∈ r.calls → ∃ rest, Numeral a oldFd rest
  refuses : ¬ FitsInt a → r.Refuses

theorem UsesDenoted.duplicatesDenoted {a : Bytes} {r : Run} (h : UsesDenoted a r) :
    DuplicatesDenoted a r := by
  constructor
  · intro oldFd newFd hmem
    exact h.fcntl_arg oldFd (some newFd) hmem
  · exact h.refuses

/-! ### The calls of a run -/

theorem not_numeral_help : ¬ ∃ v rest, Numeral (bytes "--help") v rest := by
  rintro ⟨v, rest, hnum⟩
  have hscan := scanNumeral_of_numeral hnum
  rw [show scanNumeral (bytes "--help") = none by decide] at hscan
  cases hscan

/-- The descriptor that `fcntl` is given for a numeral with the value `v`. -/
def castFd (v : Int) : Int := wrapInt (saturate v []).value

theorem wrapInt_saturate (v : Int) (rest : Bytes) :
    wrapInt (saturate v rest).value = castFd v := by
  unfold castFd saturate
  split
  · rfl
  · split <;> rfl

theorem castFd_eq {v : Int} (hlo : INT_MIN ≤ v) (hhi : v ≤ INT_MAX) : castFd v = v := by
  have hlong : saturate v [] = ⟨v, [], false⟩ := by
    apply saturate_of_mem
    · exact le_trans (by decide) hlo
    · exact le_trans hhi (by decide)
  rw [castFd, hlong, wrapInt_of_mem hlo hhi]

section Main

variable {a rest : Bytes} {v : Int} (prog : Bytes) (more : List Bytes) (fds : FdTable)
  (closeErr : Option Errno)

theorem main_of_no_numeral (h : ¬ ∃ v rest, Numeral a v rest) :
    (main (prog :: a :: more) fds closeErr).calls = [] ∧
      (main (prog :: a :: more) fds closeErr).exit ≠ .success := by
  unfold main
  by_cases hhelp : a = bytes "--help"
  · simp [if_pos hhelp]
  · simp [if_neg hhelp, duplicate, strtol_of_not_numeral h, ERANGE]

/-- With a numeral the program reaches `fcntl`, whatever the number is. -/
theorem main_of_numeral (h : Numeral a v rest) :
    let r := main (prog :: a :: more) fds closeErr
    match fds.dupFd (castFd v) 3 with
    | none => r.calls = [.fcntl (castFd v) none] ∧ r.exit = .errExit "fcntl"
    | some (newFd, _) => r.calls = [.fcntl (castFd v) (some newFd), .close newFd] := by
  have hhelp : a ≠ bytes "--help" := by
    rintro rfl
    exact not_numeral_help ⟨v, rest, h⟩
  have hrest : (saturate v rest).rest ≠ a := by
    rw [rest_saturate]
    exact rest_ne_of_numeral h
  have herrno : ¬ ((0 = ERANGE ∧ (castFd v = LONG_MAX ∨ castFd v = LONG_MIN)) ∨
      (0 ≠ 0 ∧ castFd v = 0)) := by
    simp [ERANGE]
  simp only [main, if_neg hhelp, duplicate, strtol_of_numeral h, wrapInt_saturate, if_neg herrno,
    if_neg hrest]
  cases hdup : fds.dupFd (castFd v) 3 with
  | none => exact ⟨rfl, rfl⟩
  | some r =>
    rcases r with ⟨newFd, fds'⟩
    simp only [FdTable.close_of_dupFd hdup]

/-- The one descriptor that `fcntl` is given. -/
theorem fcntl_mem_calls_iff (h : Numeral a v rest) {oldFd : Int} {newFd : Option Nat} :
    .fcntl oldFd newFd ∈ (main (prog :: a :: more) fds closeErr).calls ↔
      oldFd = castFd v ∧ newFd = (fds.dupFd (castFd v) 3).map Prod.fst := by
  have hcalls := main_of_numeral prog more fds closeErr h
  cases hdup : fds.dupFd (castFd v) 3 with
  | none =>
    simp only [hdup] at hcalls
    simp [hcalls.1]
  | some r =>
    simp only [hdup] at hcalls
    simp [hcalls]

theorem main_refuses (h : Numeral a v rest) (hdup : fds.dupFd (castFd v) 3 = none) :
    (main (prog :: a :: more) fds closeErr).Refuses := by
  have hcalls := main_of_numeral prog more fds closeErr h
  simp only [hdup] at hcalls
  refine ⟨?_, ?_, ?_⟩
  · rw [hcalls.2]
    exact nofun
  · simp [hcalls.1]
  · simp [hcalls.1]

theorem usesDenoted_of_no_numeral (h : ¬ ∃ v rest, Numeral a v rest) :
    UsesDenoted a (main (prog :: a :: more) fds closeErr) := by
  rcases main_of_no_numeral prog more fds closeErr h with ⟨hcalls, hexit⟩
  constructor
  · intro oldFd newFd hmem
    rw [hcalls] at hmem
    cases hmem
  · intro _
    refine ⟨hexit, ?_, ?_⟩
    · simp [hcalls]
    · simp [hcalls]

theorem usesDenoted_of_mem (h : Numeral a v rest) (hlo : INT_MIN ≤ v) (hhi : v ≤ INT_MAX) :
    UsesDenoted a (main (prog :: a :: more) fds closeErr) := by
  constructor
  · intro oldFd newFd hmem
    rw [((fcntl_mem_calls_iff prog more fds closeErr h).mp hmem).1, castFd_eq hlo hhi]
    exact ⟨rest, h⟩
  · intro hout
    exact absurd ⟨v, rest, h, hlo, hhi⟩ hout

theorem duplicatesDenoted_of_dup_fails (h : Numeral a v rest)
    (hdup : fds.dupFd (castFd v) 3 = none) :
    DuplicatesDenoted a (main (prog :: a :: more) fds closeErr) := by
  have hrefuses := main_refuses prog more fds closeErr h hdup
  constructor
  · intro oldFd newFd hmem
    exact absurd hmem (hrefuses.2.1 oldFd newFd)
  · intro _
    exact hrefuses

theorem usesDenoted_main_iff (a : Bytes) :
    UsesDenoted a (main (prog :: a :: more) fds closeErr) ↔
      ∀ v rest, Numeral a v rest → INT_MIN ≤ v ∧ v ≤ INT_MAX := by
  constructor
  · intro h v rest hnum
    have hmem := (fcntl_mem_calls_iff prog more fds closeErr hnum).mpr ⟨rfl, rfl⟩
    rcases h.fcntl_arg _ _ hmem with ⟨rest', hnum'⟩
    rw [(numeral_unique hnum hnum').1]
    exact wrapInt_mem _
  · intro h
    by_cases hnum : ∃ v rest, Numeral a v rest
    · rcases hnum with ⟨v, rest, hnum⟩
      obtain ⟨hlo, hhi⟩ := h v rest hnum
      exact usesDenoted_of_mem prog more fds closeErr hnum hlo hhi
    · exact usesDenoted_of_no_numeral prog more fds closeErr hnum

theorem duplicatesDenoted_main_iff (a : Bytes) :
    DuplicatesDenoted a (main (prog :: a :: more) fds closeErr) ↔
      ∀ v rest, Numeral a v rest →
        (INT_MIN ≤ v ∧ v ≤ INT_MAX) ∨ fds.dupFd (castFd v) 3 = none := by
  constructor
  · intro h v rest hnum
    by_cases hin : INT_MIN ≤ v ∧ v ≤ INT_MAX
    · exact .inl hin
    · right
      have hout : ¬ FitsInt a := by
        rintro ⟨v', rest', hnum', hin'⟩
        rw [(numeral_unique hnum hnum').1] at hin
        exact hin hin'
      cases hdup : fds.dupFd (castFd v) 3 with
      | none => rfl
      | some r =>
        have hmem := (fcntl_mem_calls_iff prog more fds closeErr hnum).mpr ⟨rfl, rfl⟩
        rw [hdup] at hmem
        exact absurd hmem ((h.refuses hout).2.1 _ _)
  · intro h
    by_cases hnum : ∃ v rest, Numeral a v rest
    · rcases hnum with ⟨v, rest, hnum⟩
      rcases h v rest hnum with ⟨hlo, hhi⟩ | hdup
      · exact (usesDenoted_of_mem prog more fds closeErr hnum hlo hhi).duplicatesDenoted
      · exact duplicatesDenoted_of_dup_fails prog more fds closeErr hnum hdup
    · exact (usesDenoted_of_no_numeral prog more fds closeErr hnum).duplicatesDenoted

/-- For every argument and every table: `fcntl` is given the denoted descriptor exactly
    if that integer is an `int` or there is none, and no other one is duplicated exactly
    if, besides, the descriptor that the cast makes of it cannot be. -/
theorem main_uses_denoted_iff (a : Bytes) :
    (UsesDenoted a (main (prog :: a :: more) fds closeErr) ↔
        ∀ v rest, Numeral a v rest → INT_MIN ≤ v ∧ v ≤ INT_MAX) ∧
      (DuplicatesDenoted a (main (prog :: a :: more) fds closeErr) ↔
        ∀ v rest, Numeral a v rest →
          (INT_MIN ≤ v ∧ v ≤ INT_MAX) ∨ fds.dupFd (castFd v) 3 = none) := by
  constructor
  · exact usesDenoted_main_iff prog more fds closeErr a
  · exact duplicatesDenoted_main_iff prog more fds closeErr a

end Main

/-- Descriptors 0, 1 and 2 are open. -/
def stdFds : FdTable := ⟨fun fd => if fd < 3 then some fd else none, 1024⟩

/-- `2 ^ 32` is no `int`, and descriptor 0 is duplicated for it. -/
theorem main_uses_denoted_wrapped :
    let r := main [bytes "dup1", bytes "4294967296"] stdFds none
    ¬ UsesDenoted (bytes "4294967296") r ∧ ¬ DuplicatesDenoted (bytes "4294967296") r := by
  intro r
  have hout : ¬ FitsInt (bytes "4294967296") := by
    rintro ⟨v, rest, hnum, -, hhi⟩
    have hscan := scanNumeral_of_numeral hnum
    rw [show scanNumeral (bytes "4294967296") = some (4294967296, []) by decide] at hscan
    cases hscan
    revert hhi
    decide
  have hexit : r.exit = .success := by decide +kernel
  have hnot : ¬ DuplicatesDenoted (bytes "4294967296") r :=
    fun h => (h.refuses hout).1 hexit
  exact ⟨fun h => hnot h.duplicatesDenoted, hnot⟩

end LinuxPractice.Chap5.Dup1
