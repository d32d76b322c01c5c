import LinuxPractice.CLib.Stdio
import LinuxPractice.Kernel.Transfer

/-!
# `thr-one/copy.c`: copying in blocks

The loop hands each block that `read` delivers to `write` and stops at the first one
that is not written in full.  `copy_sync.c` differs in the flag `O_SYNC` only.  The
target is opened with `O_TRUNC` before the source is read, which matters if both names
lead to the same file.
-/

namespace LinuxPractice.Chap13

open LinuxPractice.CLib LinuxPractice.Kernel

/-- How a run ends with `EXIT_FAILURE`. -/
inductive Stop where
  | usageErr
  | errExit (text : Bytes)
  | fatal (text : String)
deriving DecidableEq

/-- The loop and the test behind it: what is in the target then, and how the run ends if
    the loop is not left at the end of the source. -/
def transferLoop (bufSize : Nat) (input : Input UInt8 Errno) (output : Output UInt8 Errno) :
    Bytes × Option Stop :=
  match _hread : input.read bufSize with
  | (.error _, _) => (output.written, some (.errExit (bytes "read")))
  | (.ok [], _) => (output.written, none)
  | (.ok (b :: block), input') =>
    match output.write (b :: block) with
    | (.ok numWritten, output') =>
      if numWritten = (b :: block).length then transferLoop bufSize input' output'
      else
        (output'.written, some (.fatal "write() returned error or partial write occurred"))
    | (.error _, output') =>
      (output'.written, some (.fatal "write() returned error or partial write occurred"))
termination_by input.size
decreasing_by exact Input.size_lt_of_read_ok _hread (List.cons_ne_nil b block)

/-- The arguments, the old file, whether the new file is the same one, and the answers
    of the system calls. -/
structure Env where
  argv : List Bytes
  src : Bytes
  sameFile : Bool
  openSrcErr : Option Errno
  openTgtErr : Option Errno
  reads : List (Except Errno Nat)
  writes : List (Except Errno Nat)
  closeSrcErr : Option Errno
  closeTgtErr : Option Errno

/-- The content of the new file, if it was opened, and how the run ends: `none` is
    `exit(EXIT_SUCCESS)`. -/
structure Run where
  target : Option Bytes
  stop : Option Stop

/-- What the loop finds in the source, behind the truncation of the target. -/
def Env.unread (env : Env) : Bytes := if env.sameFile then [] else env.src

/-- `main` from the loop on. -/
def copyOpened (bufSize : Nat) (env : Env) : Run :=
  match transferLoop bufSize ⟨env.unread, env.reads⟩ ⟨[], env.writes⟩ with
  | (target, some why) => ⟨some target, some why⟩
  | (target, none) =>
    if env.closeSrcErr.isSome then ⟨some target, some (.errExit (bytes "close input"))⟩
    else if env.closeTgtErr.isSome then ⟨some target, some (.errExit (bytes "close output"))⟩
    else ⟨some target, none⟩

/-- `main` for the buffer size that the program was compiled with. -/
def main (bufSize : Nat) (env : Env) : Run :=
  match env.argv with
  | [_, old, new] =>
    if old = bytes "--help" then ⟨none, some .usageErr⟩
    else if env.openSrcErr.isSome then ⟨none, some (.errExit (bytes "opening file " ++ old))⟩
    else if env.openTgtErr.isSome then ⟨none, some (.errExit (bytes "opening file " ++ new))⟩
    else copyOpened bufSize env
  | _ => ⟨none, some .usageErr⟩

/-! ### The loop -/

variable {bufSize : Nat}

/-- Written and unread bytes stay the same together, up to those of a block that was
    not written in full. -/
theorem transferLoop_prefix (hpos : 0 < bufSize) (input : Input UInt8 Errno)
    (output : Output UInt8 Errno) :
    ∃ rest, output.written ++ input.data = (transferLoop bufSize input output).1 ++ rest ∧
      ((transferLoop bufSize input output).2 = none → rest = []) := by
  fun_induction transferLoop bufSize input output with
  | case1 input output e input' hread =>
    exact ⟨input.data, rfl, nofun⟩
  | case2 input output input' hread =>
    obtain ⟨hdata, -, hnil, -⟩ := Input.of_read_ok hread
    rcases hnil rfl with hzero | hend
    · omega
    · exact ⟨[], by rw [hend], fun _ => rfl⟩
  | case3 input output b block input' hread output' hwrite ih =>
    obtain ⟨hwritten, -, -⟩ := Output.of_write_ok hwrite
    rcases ih with ⟨rest, heq, hend⟩
    refine ⟨rest, ?_, hend⟩
    rw [← heq, hwritten, (Input.of_read_ok hread).1, List.take_length, List.append_assoc]
  | case4 input output b block input' hread numWritten output' hwrite hshort =>
    obtain ⟨hwritten, -, -⟩ := Output.of_write_ok hwrite
    refine ⟨(b :: block).drop numWritten ++ input'.data, ?_, nofun⟩
    rw [hwritten, (Input.of_read_ok hread).1, List.append_assoc, ← List.append_assoc (List.take _ _),
      List.take_append_drop]
  | case5 input output b block input' hread e output' hwrite =>
    exact ⟨input.data, by rw [(Output.of_write_error hwrite).1], nofun⟩

theorem transferLoop_ends (input : Input UInt8 Errno) (output : Output UInt8 Errno)
    (hin : input.Sound) (hout : output.Full bufSize) :
    (transferLoop bufSize input output).2 = none := by
  fun_induction transferLoop bufSize input output with
  | case1 input output e input' hread => exact absurd hread hin.read_ne_error
  | case2 => rfl
  | case3 input output b block input' hread output' hwrite ih =>
    obtain ⟨output'', heq, hfull⟩ := hout.of_write (Input.of_read_ok hread).2.1
    rw [hwrite] at heq
    cases heq
    exact ih (hin.of_read_ok hread) hfull
  | case4 input output b block input' hread numWritten output' hwrite hshort =>
    obtain ⟨output'', heq, -⟩ := hout.of_write (Input.of_read_ok hread).2.1
    rw [hwrite] at heq
    cases heq
    exact absurd rfl hshort
  | case5 input output b block input' hread e output' hwrite =>
    obtain ⟨output'', heq, -⟩ := hout.of_write (Input.of_read_ok hread).2.1
    rw [hwrite] at heq
    cases heq

/-! ### The program -/

/-- The arguments are right, and no call fails or writes less than it is given. -/
structure Env.Undisturbed (bufSize : Nat) (env : Env) : Prop where
  argv : ∃ prog old new, env.argv = [prog, old, new] ∧ old ≠ bytes "--help"
  openSrc : env.openSrcErr = none
  openTgt : env.openTgtErr = none
  reads : ∀ answer ∈ env.reads, ∃ k, answer = .ok k
  writes : ∀ answer ∈ env.writes, ∃ k, answer = .ok k ∧ bufSize ≤ k
  closeSrc : env.closeSrcErr = none
  closeTgt : env.closeTgtErr = none

theorem main_cases (bufSize : Nat) (env : Env) :
    ((main bufSize env).target = none ∧ (main bufSize env).stop ≠ none) ∨
      main bufSize env = copyOpened bufSize env := by
  unfold main
  split
  · split
    · exact .inl ⟨rfl, nofun⟩
    · split
      · exact .inl ⟨rfl, nofun⟩
      · split
        · exact .inl ⟨rfl, nofun⟩
        · exact .inr rfl
  · exact .inl ⟨rfl, nofun⟩

theorem copyOpened_prefix (hpos : 0 < bufSize) (env : Env) :
    ∃ target rest, (copyOpened bufSize env).target = some target ∧ env.unread = target ++ rest ∧
      ((copyOpened bufSize env).stop = none → rest = []) := by
  rcases transferLoop_prefix hpos ⟨env.unread, env.reads⟩ ⟨[], env.writes⟩ with ⟨rest, heq, hend⟩
  unfold copyOpened
  split
  · rename_i target why hloop
    rw [hloop] at heq
    exact ⟨target, rest, rfl, heq, nofun⟩
  · rename_i target hloop
    rw [hloop] at heq hend
    obtain rfl := hend rfl
    refine ⟨target, [], ?_, heq, fun _ => rfl⟩
    split
    · rfl
    · split <;> rfl

theorem main_of_undisturbed {env : Env} (h : env.Undisturbed bufSize) :
    (main bufSize env).stop = none := by
  rcases h.argv with ⟨prog, old, new, hargv, hhelp⟩
  have hloop := transferLoop_ends ⟨env.unread, env.reads⟩ ⟨[], env.writes⟩ h.reads h.writes
  obtain ⟨⟨target, stop⟩, hrun⟩ :
      ∃ r, transferLoop bufSize ⟨env.unread, env.reads⟩ ⟨[], env.writes⟩ = r := ⟨_, rfl⟩
  rw [hrun] at hloop
  obtain rfl : stop = none := hloop
  simp [main, hargv, hhelp, h.openSrc, h.openTgt, copyOpened, hrun, h.closeSrc, h.closeTgt]

theorem unread_eq_src_iff (env : Env) :
    env.unread = env.src ↔ env.sameFile = false ∨ env.src = [] := by
  unfold Env.unread
  cases env.sameFile with
  | false => simp
  | true => simp [eq_comm]

/-- For every source, every way in which the calls cut the transfer into blocks, and
    every failure: the target is never more than a beginning of the source, a run that
    succeeds has copied it exactly if the two names do not lead to one file that has
    something in it, and without a failure or a short write the run succeeds. -/
theorem main_copies_blocks (hpos : 0 < bufSize) (env : Env) :
    (∀ target, (main bufSize env).target = some target → target <+: env.src) ∧
      ((main bufSize env).stop = none →
        ((main bufSize env).target = some env.src ↔ env.sameFile = false ∨ env.src = [])) ∧
      (env.Undisturbed bufSize → (main bufSize env).stop = none) := by
  refine ⟨?_, ?_, main_of_undisturbed⟩
  · intro target htarget
    rcases main_cases bufSize env with ⟨hnone, -⟩ | hmain
    · rw [hnone] at htarget
      cases htarget
    · rcases copyOpened_prefix hpos env with ⟨target', rest, htarget', hunread, -⟩
      rw [hmain, htarget'] at htarget
      cases htarget
      unfold Env.unread at hunread
      split at hunread
      · rw [(List.append_eq_nil_iff.mp hunread.symm).1]
        exact List.nil_prefix
      · exact ⟨rest, hunread.symm⟩
  · intro hstop
    rcases main_cases bufSize env with ⟨-, hfails⟩ | hmain
    · exact absurd hstop hfails
    · rcases copyOpened_prefix hpos env with ⟨target, rest, htarget, hunread, hend⟩
      rw [hmain] at hstop
      rw [hend hstop, List.append_nil] at hunread
      rw [hmain, htarget, ← hunread, Option.some.injEq]
      exact unread_eq_src_iff env

/-- Three bytes, of which the first `read` delivers two. -/
def threeBytes : Env where
  argv := [bytes "copy", bytes "old", bytes "new"]
  src := [97, 98, 99]
  sameFile := false
  openSrcErr := none
  openTgtErr := none
  reads := [.ok 2]
  writes := []
  closeSrcErr := none
  closeTgtErr := none

theorem main_copies_blocks_three : (main 1024 threeBytes).target = some [97, 98, 99] := by
  obtain ⟨-, hcopied, hends⟩ := main_copies_blocks (show 0 < 1024 by decide) threeBytes
  have hundisturbed : threeBytes.Undisturbed 1024 := by
    refine ⟨⟨_, _, _, rfl, by decide⟩, rfl, rfl, ?_, ?_, rfl, rfl⟩
    · intro answer hmem
      exact ⟨2, List.mem_singleton.mp hmem⟩
    · intro answer hmem
      cases hmem
  exact (hcopied (hends hundisturbed)).mpr (.inl rfl)

end LinuxPractice.Chap13
