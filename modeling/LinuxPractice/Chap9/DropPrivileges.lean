import LinuxPractice.CLib.Stdio
import LinuxPractice.Kernel.Credentials

/-!
# `irrevocablyDropAllPrivileges.c`

The program, installed set-user-ID, reads a file with the rights of its owner,
gives them up with `setuid(getuid())` and tries to open the file again.  Its IDs are
state of the model, and the answers of its other system calls are input.
-/

namespace LinuxPractice.Chap9

open LinuxPractice.CLib LinuxPractice.Kernel

/-- The failures of the system calls, in the order in which they are made. -/
structure Calls where
  firstOpen : Option Errno
  lseekCur : Option Errno
  lseekEnd : Option Errno
  lseekBack : Option Errno
  read : Option Errno
  write : Option Errno
  secondOpen : Option Errno
  close : Option Errno

/-- The IDs that the program prints (`getuid()` and `geteuid()`), those it ends with,
    whether `setuid` has succeeded, and whether it exits with status 0. -/
structure Run where
  printed : List (Uid × Uid)
  creds : Creds
  dropped : Bool
  success : Bool

def main (calls : Calls) (c : Creds) : Run :=
  let printed := [(c.real, c.effective)]
  if calls.firstOpen.isSome ∨ calls.lseekCur.isSome ∨ calls.lseekEnd.isSome ∨
      calls.lseekBack.isSome ∨ calls.read.isSome ∨ calls.write.isSome then
    ⟨printed, c, false, false⟩
  else
    match c.setuid c.real.val with
    | .error _ => ⟨printed, c, false, false⟩
    | .ok c =>
      let printed := printed ++ [(c.real, c.effective)]
      if calls.secondOpen.isSome then ⟨printed, c, true, false⟩
      else
        let printed := printed ++ [(c.real, c.effective)]
        ⟨printed, c, true, calls.close.isNone⟩

/-- The IDs with which a set-user-ID program of owner `o` starts for a caller `u`. -/
def start (u o : Uid) : Creds := ⟨u, o, o⟩

variable {u o : Uid}

theorem setuid_start (u o : Uid) :
    (start u o).setuid u.val = .ok (if o = Uid.root then ⟨u, u, u⟩ else ⟨u, u, o⟩) := by
  simp only [start, Creds.setuid, Uid.ofArg_val, Creds.Privileged]
  split <;> simp

theorem creds_main {calls : Calls} (h : (main calls (start u o)).dropped = true) :
    (main calls (start u o)).creds = if o = Uid.root then ⟨u, u, u⟩ else ⟨u, u, o⟩ := by
  have hset : (start u o).setuid (start u o).real.val = _ := setuid_start u o
  unfold main at h ⊢
  simp only [hset] at h ⊢
  split
  · rename_i hfail
    rw [if_pos hfail] at h
    cases h
  · split <;> rfl

/-- For every caller and every other owner: no sequence of calls behind the drop
    reaches another effective ID, exactly if the owner is root. -/
theorem main_irrevocable_iff (h : o ≠ u) :
    (∀ calls, (main calls (start u o)).dropped = true → ∀ credCalls,
        ((main calls (start u o)).creds.run credCalls).effective = u) ↔
      o = Uid.root := by
  constructor
  · intro hkeeps
    by_contra hroot
    -- all calls succeed, and the saved ID is taken back
    have hdropped : (main ⟨none, none, none, none, none, none, none, none⟩
        (start u o)).dropped = true := by
      have hset : (start u o).setuid (start u o).real.val = _ := setuid_start u o
      simp [main, hset]
    have heff := hkeeps _ hdropped [.seteuid o.val]
    rw [creds_main hdropped, if_neg hroot] at heff
    have hback : (⟨u, u, o⟩ : Creds).run [.seteuid o.val] = ⟨u, o, o⟩ :=
      Creds.step_seteuid_saved ⟨u, u, o⟩
    rw [hback] at heff
    exact h heff
  · rintro rfl calls hdropped credCalls
    rw [creds_main hdropped, if_pos rfl]
    have hwithin : (⟨u, u, u⟩ : Creds).Within {u} := ⟨rfl, rfl, rfl⟩
    exact (Creds.within_run hwithin h credCalls).effective

theorem main_irrevocable_root :
    Uid.root ≠ ⟨1000, by decide⟩ ∧
      ∀ calls, (main calls (start ⟨1000, by decide⟩ Uid.root)).dropped = true → ∀ credCalls,
        ((main calls (start ⟨1000, by decide⟩ Uid.root)).creds.run credCalls).effective =
          ⟨1000, by decide⟩ :=
  ⟨by decide, (main_irrevocable_iff (by decide)).mpr rfl⟩

/-- Owned by user 1001, the program can take its rights back. -/
theorem main_irrevocable_other_owner :
    ¬ ∀ calls, (main calls (start ⟨1000, by decide⟩ ⟨1001, by decide⟩)).dropped = true →
      ∀ credCalls, ((main calls (start ⟨1000, by decide⟩ ⟨1001, by decide⟩)).creds.run
        credCalls).effective = ⟨1000, by decide⟩ := by
  intro hkeeps
  have heff := hkeeps ⟨none, none, none, none, none, none, none, none⟩ (by decide) [.seteuid 1001]
  revert heff
  decide

end LinuxPractice.Chap9
