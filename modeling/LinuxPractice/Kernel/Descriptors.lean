import LinuxPractice.Kernel.File
import Mathlib.Logic.Function.Basic

/-!
# Descriptors and open file descriptions

A descriptor of a process refers to an open file description, which holds the offset
and the status flags of an open file.  `dup` and `fcntl(F_DUPFD)` make a further
descriptor refer to the same description, so what one of them does to the offset the
other sees.
-/

namespace LinuxPractice.Kernel

/-- The descriptors of a process: `get` names the description that a descriptor refers
    to, and new descriptors are below `limit`. -/
@[ext]
structure FdTable where
  get : Nat → Option Nat
  limit : Nat

namespace FdTable

/-- The description of the descriptor that an `int` argument names; `none` is `EBADF`. -/
def find (t : FdTable) (fd : Int) : Option Nat := if 0 ≤ fd then t.get fd.toNat else none

def set (t : FdTable) (fd : Nat) (d : Option Nat) : FdTable :=
  { t with get := Function.update t.get fd d }

/-- The lowest descriptor from `min` on that is not open. -/
def lowestFree (t : FdTable) (min : Nat) : Option Nat :=
  (List.range' min (t.limit - min)).find? fun fd => (t.get fd).isNone

/-- `fcntl(fd, F_DUPFD, min)`. -/
def dupFd (t : FdTable) (fd : Int) (min : Nat) : Option (Nat × FdTable) := do
  let d ← t.find fd
  let new ← t.lowestFree min
  return (new, t.set new (some d))

def dup (t : FdTable) (fd : Int) : Option (Nat × FdTable) := t.dupFd fd 0

def close (t : FdTable) (fd : Int) : Option FdTable := do
  let _ ← t.find fd
  return t.set fd.toNat none

variable {t t' : FdTable} {fd : Int} {min new : Nat}

@[simp] theorem get_set_self (t : FdTable) (fd : Nat) (d : Option Nat) :
    (t.set fd d).get fd = d := Function.update_self ..

theorem get_set_of_ne (d : Option Nat) {fd fd' : Nat} (h : fd' ≠ fd) :
    (t.set fd d).get fd' = t.get fd' := Function.update_of_ne h ..

@[simp] theorem find_natCast (t : FdTable) (fd : Nat) : t.find fd = t.get fd := by
  simp [find]

theorem get_of_lowestFree (h : t.lowestFree min = some new) :
    min ≤ new ∧ t.get new = none := by
  have hfree := List.find?_some h
  have hmem := List.mem_range'_1.mp (List.mem_of_find?_eq_some h)
  exact ⟨hmem.1, by simpa using hfree⟩

/-- All that duplicating a descriptor can do. -/
theorem dupFd_cases (h : t.dupFd fd min = some (new, t')) :
    ∃ d, t.find fd = some d ∧ min ≤ new ∧ t.get new = none ∧ t' = t.set new (some d) := by
  unfold dupFd at h
  cases hfind : t.find fd with
  | none => simp [hfind] at h
  | some d =>
    cases hfree : t.lowestFree min with
    | none => simp [hfind, hfree] at h
    | some fd' =>
      obtain ⟨rfl, rfl⟩ : fd' = new ∧ t.set fd' (some d) = t' := by simpa [hfind, hfree] using h
      obtain ⟨hle, hget⟩ := get_of_lowestFree hfree
      exact ⟨d, rfl, hle, hget, rfl⟩

/-- Closing the duplicate brings the table back. -/
theorem close_of_dupFd (h : t.dupFd fd min = some (new, t')) : t'.close new = some t := by
  rcases dupFd_cases h with ⟨d, -, -, hget, rfl⟩
  have hback : (t.set new (some d)).set new none = t := by
    apply FdTable.ext
    · simp only [set, Function.update_idem]
      rw [← hget, Function.update_eq_self]
    · rfl
  simp [close, hback]

end FdTable

/-! ### Offsets -/

/-- The largest `off_t`. -/
def OFF_MAX : Nat := 9223372036854775807

/-- An open file description of a regular file, and the length of the file. -/
structure OpenFile where
  offset : Nat
  size : Nat
  flags : Nat

/-- Descriptors and descriptions; those from `next` on are not in use. -/
structure System where
  fds : FdTable
  files : Nat → OpenFile
  next : Nat

namespace System

/-- `open` of a regular file of length `size`, with a description of its own. -/
def openFile (s : System) (size flags : Nat) : Option (Nat × System) := do
  let fd ← s.fds.lowestFree 0
  return (fd, ⟨s.fds.set fd (some s.next), Function.update s.files s.next ⟨0, size, flags⟩,
    s.next + 1⟩)

def dup (s : System) (fd : Nat) : Option (Nat × System) := do
  let (new, fds) ← s.fds.dup fd
  return (new, { s with fds })

/-- The descriptor's description. -/
def file (s : System) (fd : Nat) : Option OpenFile := (s.fds.get fd).map s.files

/-- `lseek` fails for a descriptor that is not open and for an offset that is negative or
    not an `off_t`. -/
def lseek (s : System) (fd : Nat) (offset : Int) (whence : Whence) : Option (Nat × System) := do
  let d ← s.fds.get fd
  let new ← Kernel.lseek (s.files d).size (s.files d).offset offset whence
  if new ≤ OFF_MAX then
    return (new, { s with files := Function.update s.files d { s.files d with offset := new } })
  else none

/-- Two descriptors that refer to one description, whose offset and size are these. -/
structure Shares (s : System) (fd fd' offset size : Nat) : Prop where
  same : s.fds.get fd' = s.fds.get fd
  exists_file : ∃ d, s.fds.get fd = some d ∧ (s.files d).offset = offset ∧ (s.files d).size = size

variable {s s' : System} {fd fd' offset size : Nat}

/-- Asking for the offset changes nothing. -/
theorem lseek_stays {new : Nat} (h : s.lseek fd 0 .SEEK_CUR = some (new, s')) : s' = s := by
  unfold lseek at h
  cases hget : s.fds.get fd with
  | none => simp [hget] at h
  | some d =>
    have hstay : Kernel.lseek (s.files d).size (s.files d).offset 0 .SEEK_CUR =
        some (s.files d).offset := lseek_cur (s.files d).size (s.files d).offset 0
    simp only [hget, Option.bind_eq_bind, Option.bind_some, hstay, Function.update_eq_self] at h
    split at h
    · cases h
      rfl
    · cases h

/-- A file that was opened and duplicated is at offset 0 for both descriptors. -/
theorem shares_of_dup {flags : Nat} {s₁ : System} (hopen : s.openFile size flags = some (fd, s₁))
    (hdup : s₁.dup fd = some (fd', s')) : s'.Shares fd fd' 0 size := by
  unfold openFile at hopen
  unfold dup at hdup
  cases hfree : s.fds.lowestFree 0 with
  | none => simp [hfree] at hopen
  | some new =>
    obtain ⟨rfl, rfl⟩ : new = fd ∧ _ = s₁ := by simpa [hfree] using hopen
    cases hdup' : (s.fds.set new (some s.next)).dup new with
    | none => simp [hdup'] at hdup
    | some r =>
      rcases r with ⟨new', fds⟩
      obtain ⟨rfl, rfl⟩ : new' = fd' ∧ _ = s' := by simpa [hdup'] using hdup
      rcases FdTable.dupFd_cases hdup' with ⟨d, hfind, -, hget, rfl⟩
      obtain rfl : s.next = d := by simpa using hfind
      have hne : new ≠ new' := by
        rintro rfl
        simp at hget
      have hold : ((s.fds.set new (some s.next)).set new' (some s.next)).get new = some s.next := by
        rw [FdTable.get_set_of_ne _ hne, FdTable.get_set_self]
      constructor
      · rw [hold]
        exact FdTable.get_set_self ..
      · exact ⟨s.next, hold, by simp, by simp⟩

/-- A seek through one descriptor moves the offset that the other reports. -/
theorem lseek_shares (h : s.Shares fd fd' offset size) {off : Int} {whence : Whence} {new : Nat}
    (hnew : Kernel.lseek size offset off whence = some new) (hmax : new ≤ OFF_MAX) :
    ∃ s', s.lseek fd off whence = some (new, s') ∧ s'.Shares fd fd' new size ∧
      s'.lseek fd' 0 .SEEK_CUR = some (new, s') := by
  rcases h with ⟨hsame, d, hget, rfl, rfl⟩
  refine ⟨{ s with files := Function.update s.files d { s.files d with offset := new } },
    ?_, ?_, ?_⟩
  · simp [lseek, hget, hnew, hmax]
  · exact ⟨hsame, d, hget, by simp, by simp⟩
  · have hstay : Kernel.lseek (s.files d).size new 0 .SEEK_CUR = some new :=
      lseek_cur (s.files d).size new 0
    simp [lseek, hsame, hget, hstay, hmax]

theorem lseek_fails (h : s.Shares fd fd' offset size) {off : Int} {whence : Whence} {new : Nat}
    (hnew : Kernel.lseek size offset off whence = some new) (hmax : OFF_MAX < new) :
    s.lseek fd off whence = none := by
  rcases h with ⟨-, d, hget, rfl, rfl⟩
  simp [lseek, hget, hnew, Nat.not_le.mpr hmax]

end System

end LinuxPractice.Kernel
