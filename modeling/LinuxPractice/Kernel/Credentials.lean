import Mathlib.Data.Set.Basic
import Mathlib.Tactic.Common

/-!
# User IDs of a process

Real, effective and saved set-user-ID, and the calls that change them.  A process
is privileged if its effective ID is 0.  A call either sets IDs or fails and leaves
all of them alone; `-1` as an argument leaves one ID alone in the calls that take
several.
-/

namespace LinuxPractice.Kernel

/-- The value `(uid_t) -1`, which is no user ID. -/
def noUid : UInt32 := 4294967295

structure Uid where
  val : UInt32
  ne_noUid : val ≠ noUid
deriving DecidableEq

namespace Uid

def root : Uid := ⟨0, by decide⟩

/-- The ID that an argument of type `uid_t` stands for. -/
def ofArg (a : UInt32) : Option Uid := if h : a = noUid then none else some ⟨a, h⟩

theorem ofArg_val (uid : Uid) : ofArg uid.val = some uid := by
  simp [ofArg, uid.ne_noUid]

end Uid

structure Creds where
  real : Uid
  effective : Uid
  saved : Uid
deriving DecidableEq

inductive CredError where
  | EINVAL
  | EPERM
deriving DecidableEq

namespace Creds

def Privileged (c : Creds) : Prop := c.effective = Uid.root

instance (c : Creds) : Decidable c.Privileged := inferInstanceAs (Decidable (_ = _))

def Has (c : Creds) (uid : Uid) : Prop := uid = c.real ∨ uid = c.effective ∨ uid = c.saved

instance (c : Creds) (uid : Uid) : Decidable (c.Has uid) := inferInstanceAs (Decidable (_ ∨ _))

/-- A privileged process sets all three IDs, another one its effective ID, to the
    real or the saved one. -/
def setuid (c : Creds) (a : UInt32) : Except CredError Creds :=
  match Uid.ofArg a with
  | none => .error .EINVAL
  | some uid =>
    if c.Privileged then .ok ⟨uid, uid, uid⟩
    else if uid = c.real ∨ uid = c.saved then .ok { c with effective := uid }
    else .error .EPERM

/-- Sets each ID that is given; without privilege, to one of the three current IDs. -/
def setresuid (c : Creds) (r e s : UInt32) : Except CredError Creds :=
  let ruid := Uid.ofArg r
  let euid := Uid.ofArg e
  let suid := Uid.ofArg s
  if c.Privileged ∨
      (∀ uid ∈ ruid, c.Has uid) ∧ (∀ uid ∈ euid, c.Has uid) ∧ (∀ uid ∈ suid, c.Has uid) then
    .ok ⟨ruid.getD c.real, euid.getD c.effective, suid.getD c.saved⟩
  else .error .EPERM

/-- The library function: `setresuid(-1, euid, -1)`. -/
def seteuid (c : Creds) (e : UInt32) : Except CredError Creds :=
  if e = noUid then .error .EINVAL else c.setresuid noUid e noUid

/-- The saved ID follows the effective one if the real ID is given or the effective ID
    is set to something else than the real ID was. -/
def setreuid (c : Creds) (r e : UInt32) : Except CredError Creds :=
  let ruid := Uid.ofArg r
  let euid := Uid.ofArg e
  if (∀ uid ∈ ruid, c.Privileged ∨ uid = c.real ∨ uid = c.effective) ∧
      (∀ uid ∈ euid, c.Privileged ∨ c.Has uid) then
    let effective := euid.getD c.effective
    .ok ⟨ruid.getD c.real, effective,
      if ruid.isSome ∨ (∃ uid ∈ euid, uid ≠ c.real) then effective else c.saved⟩
  else .error .EPERM

end Creds

inductive CredCall where
  | setuid (uid : UInt32)
  | seteuid (euid : UInt32)
  | setreuid (ruid euid : UInt32)
  | setresuid (ruid euid suid : UInt32)

namespace Creds

def answer (c : Creds) : CredCall → Except CredError Creds
  | .setuid uid => c.setuid uid
  | .seteuid euid => c.seteuid euid
  | .setreuid ruid euid => c.setreuid ruid euid
  | .setresuid ruid euid suid => c.setresuid ruid euid suid

/-- The IDs behind a call, whether or not it fails. -/
def step (c : Creds) (call : CredCall) : Creds :=
  match c.answer call with
  | .ok c' => c'
  | .error _ => c

def run (c : Creds) (calls : List CredCall) : Creds := calls.foldl step c

/-- Any process may make its saved ID the effective one. -/
theorem step_seteuid_saved (c : Creds) :
    c.step (.seteuid c.saved.val) = { c with effective := c.saved } := by
  have hhas : c.Has c.saved := .inr (.inr rfl)
  have hnone : Uid.ofArg noUid = none := by simp [Uid.ofArg]
  simp [step, answer, seteuid, c.saved.ne_noUid, setresuid, Uid.ofArg_val, hnone, hhas]

/-! ### What a process without privilege can reach -/

structure Within (c : Creds) (S : Set Uid) : Prop where
  real : c.real ∈ S
  effective : c.effective ∈ S
  saved : c.saved ∈ S

variable {c c' : Creds} {S : Set Uid}

theorem Within.of_has (h : c.Within S) {uid : Uid} (hhas : c.Has uid) : uid ∈ S := by
  rcases hhas with rfl | rfl | rfl
  · exact h.real
  · exact h.effective
  · exact h.saved

theorem Within.not_privileged (h : c.Within S) (hroot : Uid.root ∉ S) : ¬ c.Privileged := by
  intro hpriv
  have heff := h.effective
  rw [show c.effective = Uid.root from hpriv] at heff
  exact hroot heff

theorem getD_mem {o : Option Uid} {uid : Uid} (ho : ∀ u ∈ o, u ∈ S) (hd : uid ∈ S) :
    o.getD uid ∈ S := by
  cases o with
  | none => exact hd
  | some u => exact ho u rfl

theorem within_setuid {a : UInt32} (h : c.Within S) (hroot : Uid.root ∉ S)
    (heq : c.setuid a = .ok c') : c'.Within S := by
  unfold setuid at heq
  split at heq
  · cases heq
  · rename_i uid _
    rw [if_neg (h.not_privileged hroot)] at heq
    split at heq
    · rename_i hid
      cases heq
      refine ⟨h.real, ?_, h.saved⟩
      rcases hid with rfl | rfl
      · exact h.real
      · exact h.saved
    · cases heq

theorem within_setresuid {r e s : UInt32} (h : c.Within S) (hroot : Uid.root ∉ S)
    (heq : c.setresuid r e s = .ok c') : c'.Within S := by
  simp only [setresuid] at heq
  split at heq
  · rename_i hids
    obtain ⟨hr, he, hs⟩ := hids.resolve_left (h.not_privileged hroot)
    cases heq
    constructor
    · exact getD_mem (fun u hu => h.of_has (hr u hu)) h.real
    · exact getD_mem (fun u hu => h.of_has (he u hu)) h.effective
    · exact getD_mem (fun u hu => h.of_has (hs u hu)) h.saved
  · cases heq

theorem within_setreuid {r e : UInt32} (h : c.Within S) (hroot : Uid.root ∉ S)
    (heq : c.setreuid r e = .ok c') : c'.Within S := by
  simp only [setreuid] at heq
  split at heq
  · rename_i hids
    have heff : (Uid.ofArg e).getD c.effective ∈ S := by
      apply getD_mem _ h.effective
      intro u hu
      exact h.of_has ((hids.2 u hu).resolve_left (h.not_privileged hroot))
    cases heq
    constructor
    · apply getD_mem _ h.real
      intro u hu
      rcases (hids.1 u hu).resolve_left (h.not_privileged hroot) with rfl | rfl
      · exact h.real
      · exact h.effective
    · exact heff
    · simp only
      split
      · exact heff
      · exact h.saved
  · cases heq

theorem within_step (h : c.Within S) (hroot : Uid.root ∉ S) (call : CredCall) :
    (c.step call).Within S := by
  unfold step
  cases hans : c.answer call with
  | error err => exact h
  | ok c' =>
    cases call with
    | setuid uid => exact within_setuid h hroot hans
    | seteuid euid =>
      simp only [answer, seteuid] at hans
      split at hans
      · cases hans
      · exact within_setresuid h hroot hans
    | setreuid ruid euid => exact within_setreuid h hroot hans
    | setresuid ruid euid suid => exact within_setresuid h hroot hans

/-- Any sequence of calls: a set of IDs without 0 is never left. -/
theorem within_run (h : c.Within S) (hroot : Uid.root ∉ S) (calls : List CredCall) :
    (c.run calls).Within S := by
  induction calls generalizing c with
  | nil => exact h
  | cons call calls ih => exact ih (within_step h hroot call)

end Creds

end LinuxPractice.Kernel
