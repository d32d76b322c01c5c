import LinuxPractice.CLib.Stdio
import LinuxPractice.Kernel.Interleave

/-!
# `bad_exclusive_open.c`: who created the file

Each instance looks whether the file is there, and if it is not, opens it with `O_CREAT`
and reports that it has created the file exclusively, which "may not be true": between
the two calls another instance may have created it.  Instances run in any number, on one
file that is not there at the start, and their calls interleave.
-/

namespace LinuxPractice.Chap5.ExclusiveOpen

open LinuxPractice.CLib LinuxPractice.Kernel

inductive Out where
  /-- Prints `"[PID %ld] File \"%s\" already exists\n"`. -/
  | alreadyExists
  /-- Prints `"[PID %ld] File \"%s\" doesn't exist yet\n"`. -/
  | notYet
  /-- Prints `"[PID %ld] Done sleeping\n"`. -/
  | doneSleeping
  /-- Prints `"[PID %ld] Created file \"%s\" exclusively\n"`. -/
  | created
deriving DecidableEq

inductive Exit where
  | success
  | usageErr
  | errExit (text : String)
deriving DecidableEq

/-- An instance: the call it makes next, `none` behind the last one, and what it has
    printed. -/
inductive Stage where
  | open1
  | open2 (out : List Out)
  | exited (out : List Out) (exit : Exit)
deriving DecidableEq

def Stage.out : Stage → List Out
  | .open1 => []
  | .open2 out => out
  | .exited out _ => out

/-- The file: absent, or made by an instance.  The name of the instance is only recorded
    here; none of them reads it. -/
abbrev File (ι : Type) := Option ι

def ENOENT : Nat := 2

/-- How the system answers `open`: as the file is there or not, or with a failure that
    has nothing to do with that. -/
inductive Answer where
  | asIs
  | fails (errno : Errno) (ne_enoent : errno.val ≠ ENOENT)

variable {ι : Type}

/-- The number in `errno` behind `open` without `O_CREAT`, or `none` if it succeeds. -/
def openErrno (file : File ι) : Answer → Option Nat
  | .fails errno _ => some errno.val
  | .asIs => if file.isSome then none else some ENOENT

/-- The next call of the instance `i`, which was started with `extra i` behind the name
    of the file. -/
def call (path : Bytes) (extra : ι → List Bytes) (i : ι) (file : File ι) :
    Stage → Answer → Option (File ι × Stage)
  | .open1, answer =>
    if path = bytes "--help" then some (file, .exited [] .usageErr)
    else
      match openErrno file answer with
      | none => some (file, .exited [.alreadyExists] .success)
      | some errno =>
        if errno ≠ ENOENT then some (file, .exited [] (.errExit "open"))
        else some (file, .open2 (.notYet :: if extra i = [] then [] else [.doneSleeping]))
  | .open2 out, .fails _ _ => some (file, .exited out (.errExit "open"))
  | .open2 out, .asIs => some (some (file.getD i), .exited (out ++ [.created]) .success)
  | .exited _ _, _ => none

def start : Config (File ι) ι Stage := ⟨none, fun _ => .open1⟩

/-- The instance says that it has created the file. -/
def Stage.Claims (stage : Stage) : Prop := .created ∈ stage.out

def Stage.Succeeded (stage : Stage) : Prop := ∃ out, stage = .exited out .success

variable {path : Bytes} {extra : ι → List Bytes} {i : ι} {file file' : File ι}
  {stage stage' : Stage} {answer : Answer}

theorem openErrno_eq_none (h : openErrno file answer = none) : file.isSome := by
  cases answer with
  | asIs =>
    cases file with
    | none => cases h
    | some j => rfl
  | fails errno hne => cases h

theorem openErrno_eq_enoent (h : openErrno file answer = some ENOENT) : file = none := by
  cases answer with
  | asIs => simpa [openErrno] using h
  | fails errno hne => exact absurd (Option.some.inj h) hne

/-- All that a call can do. -/
theorem call_cases (h : call path extra i file stage answer = some (file', stage')) :
    (stage = .open1 ∧ file' = file ∧ ∃ exit, exit ≠ .success ∧ stage' = .exited [] exit) ∨
      (stage = .open1 ∧ file' = file ∧ file.isSome ∧
        stage' = .exited [.alreadyExists] .success) ∨
      (stage = .open1 ∧ file = none ∧ file' = none ∧ ∃ slept, stage' = .open2 (.notYet :: slept) ∧
        (slept = [] ∨ slept = [.doneSleeping])) ∨
      (∃ out, stage = .open2 out ∧ file' = file ∧ stage' = .exited out (.errExit "open")) ∨
      (∃ out, stage = .open2 out ∧ file' = some (file.getD i) ∧
        stage' = .exited (out ++ [.created]) .success) := by
  unfold call at h
  split at h
  · split at h
    · cases h
      exact .inl ⟨rfl, rfl, _, Exit.noConfusion, rfl⟩
    · split at h
      · rename_i herrno
        cases h
        exact .inr (.inl ⟨rfl, rfl, openErrno_eq_none herrno, rfl⟩)
      · split at h
        · cases h
          exact .inl ⟨rfl, rfl, _, Exit.noConfusion, rfl⟩
        · rename_i errno herrno heq
          obtain rfl : errno = ENOENT := not_not.mp heq
          obtain rfl := openErrno_eq_enoent herrno
          cases h
          refine .inr (.inr (.inl ⟨rfl, rfl, rfl, _, rfl, ?_⟩))
          split
          · exact .inl rfl
          · exact .inr rfl
  · cases h
    exact .inr (.inr (.inr (.inl ⟨_, rfl, rfl, rfl⟩)))
  · cases h
    exact .inr (.inr (.inr (.inr ⟨_, rfl, rfl, rfl⟩)))
  · cases h

/-! ### Every run -/

/-- What the instance `i` may have said about the file: if it made the file, it claims
    so; if it claims that or found the file, there is one; it claims nothing without
    having looked, and says one or the other before it succeeds. -/
structure Truthful (i : ι) (file : File ι) (stage : Stage) : Prop where
  creator : file = some i → stage.Claims
  claimed : stage.Claims → file.isSome
  found : .alreadyExists ∈ stage.out → file.isSome
  looked : ∀ out, stage = .open2 out → .notYet ∈ out
  claims_looked : stage.Claims → .notYet ∈ stage.out
  reported : stage.Succeeded → stage.Claims ∨ .alreadyExists ∈ stage.out

theorem truthful_own (h : Truthful i file stage)
    (hcall : call path extra i file stage answer = some (file', stage')) :
    Truthful i file' stage' := by
  rcases call_cases hcall with ⟨rfl, rfl, exit, hexit, rfl⟩ | ⟨rfl, rfl, hsome, rfl⟩ |
    ⟨rfl, rfl, rfl, slept, rfl, hslept⟩ | ⟨out, rfl, rfl, rfl⟩ | ⟨out, rfl, rfl, rfl⟩
  · constructor
    · intro hfile
      cases h.creator hfile
    all_goals simp_all [Stage.Claims, Stage.out, Stage.Succeeded]
  · constructor
    · intro hfile
      cases h.creator hfile
    all_goals simp [Stage.Claims, Stage.out, hsome]
  · rcases hslept with rfl | rfl
    · constructor <;> simp [Stage.Claims, Stage.out, Stage.Succeeded]
    · constructor <;> simp [Stage.Claims, Stage.out, Stage.Succeeded]
  · exact ⟨h.creator, h.claimed, h.found, nofun, h.claims_looked, nofun⟩
  · have hlooked := h.looked out rfl
    constructor <;> simp [Stage.Claims, Stage.out, hlooked]

theorem truthful_others (hcall : call path extra i file stage answer = some (file', stage'))
    {j : ι} {other : Stage} (hne : j ≠ i) (h : Truthful j file other) :
    Truthful j file' other := by
  rcases call_cases hcall with ⟨-, rfl, -⟩ | ⟨-, rfl, -⟩ | ⟨-, rfl, rfl, -⟩ | ⟨out, -, rfl, -⟩ |
    ⟨out, -, rfl, -⟩
  · exact h
  · exact h
  · exact h
  · exact h
  · refine ⟨?_, fun _ => rfl, fun _ => rfl, h.looked, h.claims_looked, h.reported⟩
    intro hfile
    cases file with
    | none => exact absurd (Option.some.inj hfile).symm hne
    | some k => exact h.creator hfile

variable [DecidableEq ι] {c : Config (File ι) ι Stage}

theorem truthful_of_reachable (h : Reachable (call path extra) start c) (i : ι) :
    Truthful i c.shared (c.proc i) := by
  apply h.each Truthful
  · intro i
    constructor <;> simp [start, Stage.Claims, Stage.out, Stage.Succeeded]
  · exact truthful_own
  · intro i file stage answer file' stage' _ hcall j other hne hj
    exact truthful_others hcall hne hj

/-! ### The instances that claim the file -/

/-- What an instance has printed before its second `open`. -/
def lookedOut (extra : ι → List Bytes) (i : ι) : List Out :=
  .notYet :: if extra i = [] then [] else [.doneSleeping]

/-- All instances of `S` look, then one of them creates the file and the others of `S`
    open it, then the rest look. -/
theorem exists_reachable_claims [Fintype ι] (hpath : path ≠ bytes "--help")
    (extra : ι → List Bytes) {S : Finset ι} {j : ι} (hj : j ∈ S) :
    ∃ c, Reachable (call path extra) start c ∧ c.shared = some j ∧ ∀ i, c.proc i =
      if i ∈ S then .exited (lookedOut extra i ++ [.created]) .success
      else .exited [.alreadyExists] .success := by
  have hstart : Reachable (call path extra) start start := .start
  have hlook := hstart.sweep S (fun i => .open2 (lookedOut extra i)) (by
    intro i _
    exact ⟨.asIs, if_neg hpath⟩)
  have hown : call path extra j none
      (if j ∈ S then .open2 (lookedOut extra j) else .open1) .asIs =
      some (some j, .exited (lookedOut extra j ++ [.created]) .success) := by
    simp [hj, call]
  have hcreate := hlook.of_call hown
  have hopen := hcreate.sweep (S.erase j)
    (fun i => .exited (lookedOut extra i ++ [.created]) .success) (by
      intro i hi
      obtain ⟨hne, hmem⟩ := Finset.mem_erase.mp hi
      refine ⟨.asIs, ?_⟩
      simp [Function.update_of_ne hne, hmem, call])
  have hrest := hopen.sweep Sᶜ (fun _ => .exited [.alreadyExists] .success) (by
    intro i hi
    have hmem : i ∉ S := Finset.mem_compl.mp hi
    have hne : i ≠ j := fun heq => hmem (heq ▸ hj)
    refine ⟨.asIs, ?_⟩
    simp [hmem, Function.update_of_ne hne, call, hpath, openErrno])
  refine ⟨_, hrest, rfl, ?_⟩
  intro i
  by_cases hmem : i ∈ S
  · by_cases hne : i = j
    · subst hne
      simp [hmem]
    · simp [hmem, hne]
  · simp [hmem]

/-- When all instances have succeeded, any set of them may have claimed to be the one
    that created the file, as long as it is not empty. -/
theorem claimants_iff [Fintype ι] [Nonempty ι] (hpath : path ≠ bytes "--help")
    (extra : ι → List Bytes) (S : Finset ι) :
    (∃ c, Reachable (call path extra) start c ∧ (∀ i, (c.proc i).Succeeded) ∧
      ∀ i, (c.proc i).Claims ↔ i ∈ S) ↔ S.Nonempty := by
  constructor
  · rintro ⟨c, hreach, hdone, hclaims⟩
    obtain ⟨i⟩ := ‹Nonempty ι›
    have htruthful := truthful_of_reachable hreach
    rcases (htruthful i).reported (hdone i) with hclaim | hfound
    · exact ⟨i, (hclaims i).mp hclaim⟩
    · obtain ⟨j, hj⟩ := Option.isSome_iff_exists.mp ((htruthful i).found hfound)
      exact ⟨j, (hclaims j).mp ((htruthful j).creator hj)⟩
  · rintro ⟨j, hj⟩
    rcases exists_reachable_claims hpath extra hj with ⟨c, hreach, -, hproc⟩
    refine ⟨c, hreach, ?_, ?_⟩
    · intro i
      rw [hproc i]
      split
      · exact ⟨_, rfl⟩
      · exact ⟨_, rfl⟩
    · intro i
      rw [hproc i]
      split
      · rename_i hmem
        simp [Stage.Claims, Stage.out, hmem]
      · rename_i hmem
        simp [Stage.Claims, Stage.out, hmem]

theorem claimants_both :
    ∃ c, Reachable (call (bytes "lock") fun _ : Bool => []) start c ∧
      (∀ i, (c.proc i).Succeeded) ∧ ∀ i, (c.proc i).Claims ↔ i ∈ Finset.univ :=
  (claimants_iff (by decide) _ Finset.univ).mpr ⟨true, Finset.mem_univ true⟩

/-- In every run, with every failure: the instance that made the file claims it, and
    whoever claims it had looked before and is right that there is one, as is whoever
    found it. -/
theorem reachable_claims_true (h : Reachable (call path extra) start c) :
    (∀ j, c.shared = some j → (c.proc j).Claims) ∧
      ∀ i, ((c.proc i).Claims → c.shared.isSome ∧ .notYet ∈ (c.proc i).out) ∧
        (.alreadyExists ∈ (c.proc i).out → c.shared.isSome) := by
  have htruthful := truthful_of_reachable h
  constructor
  · intro j hj
    exact (htruthful j).creator hj
  · intro i
    constructor
    · intro hclaims
      exact ⟨(htruthful i).claimed hclaims, (htruthful i).claims_looked hclaims⟩
    · exact (htruthful i).found

theorem reachable_claims_true_both :
    ∃ c, Reachable (call (bytes "lock") fun _ : Bool => []) start c ∧ c.shared = some false ∧
      (c.proc false).Claims ∧ (c.proc true).Claims := by
  rcases exists_reachable_claims (show bytes "lock" ≠ bytes "--help" by decide)
    (fun _ : Bool => []) (Finset.mem_univ false) with ⟨c, hreach, hfile, hproc⟩
  refine ⟨c, hreach, hfile, (reachable_claims_true hreach).1 false hfile, ?_⟩
  rw [hproc true]
  simp [Stage.Claims, Stage.out]

end LinuxPractice.Chap5.ExclusiveOpen
