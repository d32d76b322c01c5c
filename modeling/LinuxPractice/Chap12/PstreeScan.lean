import LinuxPractice.Chap12.PstreeFields

/-!
# The end of the scan in `pstree_implementation.c`

Behind the scan loop the program takes a nonzero `errno` for an error of `readdir`.
A failing `stat` or `fopen` leaves its number there, and the next `getInt` of a
later entry wipes it out, so the order of the entries decides.
-/

namespace LinuxPractice.Chap12.Pstree

open LinuxPractice.CLib LinuxPractice.Tlpi

/-! ### One status file -/

def Field.isNumeric : Field → Bool
  | .pid _ => true
  | .ppid _ => true
  | _ => false

/-- A field that `getInt` accepts if it is given it. -/
def Field.accepted : Field → Bool
  | .pid value => (getInt value GN_ANY_BASE "pid").isOk
  | .ppid value => (getInt value GN_ANY_BASE "ppid").isOk
  | _ => true

theorem applyField_accepted {fld : Field} (h : fld.accepted = true) (v : Vars) :
    ∃ w out, applyField v fld = some (w, out) ∧
      w.errno = if fld.isNumeric then 0 else v.errno := by
  cases fld with
  | noToken => exact ⟨v, _, rfl, rfl⟩
  | other => exact ⟨v, _, rfl, rfl⟩
  | name value => exact ⟨v, _, rfl, rfl⟩
  | pid value =>
    cases hget : getInt value GN_ANY_BASE "pid" with
    | error texts => simp [Field.accepted, hget, Except.isOk, Except.toBool] at h
    | ok pid =>
      refine ⟨{ v with pid, errno := 0 }, [.pidLine value pid], ?_, rfl⟩
      simp only [applyField, hget]
  | ppid value =>
    cases hget : getInt value GN_ANY_BASE "ppid" with
    | error texts => simp [Field.accepted, hget, Except.isOk, Except.toBool] at h
    | ok ppid =>
      refine ⟨{ v with ppid, errno := 0 }, [.ppidLine value ppid], ?_, rfl⟩
      simp only [applyField, hget]

/-- A status file whose numeric fields are accepted is read to its end, and `errno`
    is 0 behind it if it has one. -/
theorem fieldLoop_accepted {chunks : List Bytes}
    (h : ∀ chunk ∈ chunks, (field (lineString chunk)).accepted = true) (v : Vars) :
    ∃ w out, fieldLoop chunks v = some (w, out) ∧
      w.errno = if chunks.any fun chunk => (field (lineString chunk)).isNumeric then 0
        else v.errno := by
  induction chunks generalizing v with
  | nil => exact ⟨v, [], rfl, rfl⟩
  | cons chunk chunks ih =>
    rcases applyField_accepted (h chunk (by simp)) v with ⟨w, out, happly, herrno⟩
    obtain ⟨w', out', hloop, herrno'⟩ := ih (fun c hc => h c (by simp [hc])) w
    refine ⟨w', out ++ out', ?_, ?_⟩
    · simp only [fieldLoop, happly, hloop]
      rfl
    · rw [herrno', herrno, List.any_cons]
      cases (field (lineString chunk)).isNumeric <;> simp

/-! ### One entry -/

inductive Outcome where
  /-- Nothing fails, and no file is opened. -/
  | skipped
  /-- One of the two `stat`s or `fopen` fails. -/
  | failed (errno : Errno)
  | opened (st : Stream)

def outcome (e : Entry) : Outcome :=
  if e.d_name = bytes "." ∨ e.d_name = bytes ".." then .skipped
  else
    let proc_dirname := snprintf PATHNAME_BUF_SIZE (bytes "/proc/" ++ e.d_name)
    let pathname := snprintf PATHNAME_BUF_SIZE (proc_dirname ++ bytes "/status")
    match e.stat proc_dirname with
    | .error errno => .failed errno
    | .ok .directory =>
      match e.stat pathname with
      | .error errno => .failed errno
      | .ok .regular =>
        match e.fopen pathname with
        | .error errno => .failed errno
        | .ok st => .opened st
      | .ok _ => .skipped
    | .ok _ => .skipped

/-- A status file that is read without a failure and has only numeric fields that
    `getInt` accepts. -/
def Readable (e : Entry) : Prop :=
  ∀ st, outcome e = .opened st → st.fgetsErr = none ∧ st.fcloseErr = none ∧
    ∀ chunk ∈ st.lines 127, (field (lineString chunk)).accepted = true

def Fails (e : Entry) : Prop := ∃ errno, outcome e = .failed errno

/-- The entry's status file has a numeric field. -/
def Clears (e : Entry) : Prop :=
  ∃ st, outcome e = .opened st ∧
    (st.lines 127).any fun chunk => (field (lineString chunk)).isNumeric

theorem readfdata_errno {st : Stream} (hfgets : st.fgetsErr = none) (hfclose : st.fcloseErr = none)
    (h : ∀ chunk ∈ st.lines 127, (field (lineString chunk)).accepted = true)
    (stale : CharArray 128) (errno : Nat) :
    (readfdata (.ok st) stale errno).2 = none ∧
      (readfdata (.ok st) stale errno).1.vars.errno =
        if (st.lines 127).any fun chunk => (field (lineString chunk)).isNumeric then 0
        else errno := by
  have hfollows := readfdata_follows st stale errno
  rcases fieldLoop_accepted h ⟨-1, -1, errno⟩ with ⟨w, out, hloop, herrno⟩
  simp only [hloop] at hfollows
  rcases hfollows hfclose with ⟨hstop, hvars, -⟩
  refine ⟨hstop, ?_⟩
  have hlast : st.lastErr 127 = none := by simp [Stream.lastErr, hfgets]
  rw [hvars, hlast]
  exact herrno

theorem visit_outcome (childPid : Int) (e : Entry) (s : ScanState) :
    match outcome e with
    | .skipped => visit childPid e s = (s, none)
    | .failed errno =>
      (visit childPid e s).2 = none ∧ (visit childPid e s).1.errno = errno.val
    | .opened st =>
      (visit childPid e s).2 = (readfdata (.ok st) e.stale s.errno).2 ∧
        (visit childPid e s).1.errno = (readfdata (.ok st) e.stale s.errno).1.vars.errno := by
  by_cases hdot : e.d_name = bytes "." ∨ e.d_name = bytes ".."
  · simp only [outcome, visit, if_pos hdot]
  · simp only [outcome, visit, if_neg hdot]
    cases e.stat (snprintf PATHNAME_BUF_SIZE (bytes "/proc/" ++ e.d_name)) with
    | error errno => exact ⟨rfl, rfl⟩
    | ok type =>
      cases type with
      | regular => rfl
      | other => rfl
      | directory =>
        obtain ⟨path, hpath⟩ : ∃ path, snprintf PATHNAME_BUF_SIZE
            (snprintf PATHNAME_BUF_SIZE (bytes "/proc/" ++ e.d_name) ++ bytes "/status") = path :=
          ⟨_, rfl⟩
        simp only [hpath]
        cases e.stat path with
        | error errno => exact ⟨rfl, rfl⟩
        | ok type =>
          cases type with
          | directory => rfl
          | other => rfl
          | regular =>
            cases e.fopen path with
            | error errno => exact ⟨rfl, rfl⟩
            | ok st =>
              obtain ⟨⟨f, stop⟩, hrun⟩ : ∃ r, readfdata (.ok st) e.stale s.errno = r := ⟨_, rfl⟩
              simp only [hrun]
              cases stop <;> exact ⟨rfl, rfl⟩

/-- A step of the scan: a failing entry leaves a nonzero `errno`, a numeric field
    clears it, and nothing else changes it. -/
theorem visit_errno (childPid : Int) {e : Entry} (h : Readable e) (s : ScanState) :
    (visit childPid e s).2 = none ∧
      ((visit childPid e s).1.errno = 0 ↔ ¬ Fails e ∧ (Clears e ∨ s.errno = 0)) := by
  have hvisit := visit_outcome childPid e s
  cases hout : outcome e with
  | skipped =>
    simp only [hout] at hvisit
    rw [hvisit]
    simp [Fails, Clears, hout]
  | failed errno =>
    simp only [hout] at hvisit
    rcases hvisit with ⟨hstop, herrno⟩
    refine ⟨hstop, ?_⟩
    rw [herrno]
    simp [Fails, Clears, hout, errno.ne_zero]
  | opened st =>
    simp only [hout] at hvisit
    rcases hvisit with ⟨hstop, herrno⟩
    rcases h st hout with ⟨hfgets, hfclose, haccepted⟩
    rcases readfdata_errno hfgets hfclose haccepted e.stale s.errno with ⟨hread, hvars⟩
    refine ⟨hstop.trans hread, ?_⟩
    rw [herrno, hvars]
    have hclears : Clears e ↔
        ((st.lines 127).any fun chunk => (field (lineString chunk)).isNumeric) = true := by
      simp [Clears, hout]
    have hfails : ¬ Fails e := by simp [Fails, hout]
    rw [hclears]
    split <;> simp_all

/-! ### The whole scan -/

/-- Every entry that fails is followed by one that clears `errno`. -/
def FailuresCleared (es : List Entry) : Prop :=
  ∀ before e after, es = before ++ e :: after → Fails e → ∃ e' ∈ after, Clears e'

theorem failuresCleared_cons (e : Entry) (es : List Entry) :
    FailuresCleared (e :: es) ↔ (Fails e → ∃ e' ∈ es, Clears e') ∧ FailuresCleared es := by
  constructor
  · intro h
    refine ⟨h [] e es rfl, ?_⟩
    intro before e' after heq
    exact h (e :: before) e' after (by rw [heq]; rfl)
  · rintro ⟨hhead, htail⟩ before e' after heq
    cases before with
    | nil =>
      obtain ⟨rfl, rfl⟩ : e = e' ∧ es = after := by simpa using heq
      exact hhead
    | cons b before =>
      obtain ⟨-, heq'⟩ : e = b ∧ es = before ++ e' :: after := by simpa using heq
      exact htail before e' after heq'

theorem scan_errno (childPid : Int) {es : List Entry} (h : ∀ e ∈ es, Readable e)
    (s : ScanState) :
    (scan childPid es s).2 = none ∧
      ((scan childPid es s).1.errno = 0 ↔
        (s.errno = 0 ∨ ∃ e ∈ es, Clears e) ∧ FailuresCleared es) := by
  induction es generalizing s with
  | nil => simp [scan, FailuresCleared]
  | cons e es ih =>
    rcases visit_errno childPid (h e (by simp)) s with ⟨hstop, herrno⟩
    have hscan : scan childPid (e :: es) s = scan childPid es (visit childPid e s).1 := by
      rw [scan]
      split <;> rename_i hvisit <;> simp_all
    obtain ⟨hstop', herrno'⟩ := ih (fun e' he' => h e' (by simp [he'])) (visit childPid e s).1
    rw [hscan]
    refine ⟨hstop', ?_⟩
    have hexcl : Clears e → ¬ Fails e := by
      rintro ⟨st, hopened, -⟩ ⟨errno, hfailed⟩
      rw [hopened] at hfailed
      cases hfailed
    rw [herrno', herrno, failuresCleared_cons, List.exists_mem_cons_iff]
    by_cases hfails : Fails e
    · have hkeeps : ¬ Clears e := fun hclears => hexcl hclears hfails
      simp only [hfails, hkeeps, not_true_eq_false, false_and, false_or, true_implies]
      constructor
      · rintro ⟨hclears, htail⟩
        exact ⟨.inr hclears, hclears, htail⟩
      · rintro ⟨-, hclears, htail⟩
        exact ⟨hclears, htail⟩
    · simp only [hfails, not_false_eq_true, true_and, false_implies]
      rw [or_comm (a := Clears e), or_assoc]

/-- For every directory and every pattern of failures, with status files that `getInt`
    accepts: the program takes the error exit for `readdir` just if `readdir` failed,
    and else succeeds, exactly if `readdir` failed or a numeric field comes behind
    every entry that fails. -/
theorem main_readdir_exit_iff (env : Env) (hopendir : env.opendirErr = none)
    (hfork : ∀ errno, env.fork ≠ .failed errno) (hclosedir : env.closedirErr = none)
    (hentries : ∀ e ∈ env.entries, Readable e) :
    (((main env).stop = some (.errExit "readdir") ↔ env.readdirErr.isSome) ∧
        (env.readdirErr = none → (main env).stop = none)) ↔
      (env.readdirErr.isSome ∨ FailuresCleared env.entries) := by
  obtain ⟨childPid, out, hmain⟩ : ∃ childPid out, main env = scanProc env childPid out := by
    cases hf : env.fork with
    | failed errno => exact absurd hf (hfork errno)
    | child => exact ⟨0, _, by simp only [main, hopendir, hf]; rfl⟩
    | parent childPid => exact ⟨childPid, _, by simp only [main, hopendir, hf]; rfl⟩
  rcases scan_errno childPid hentries ⟨0, 0, out⟩ with ⟨hstop, herrno⟩
  obtain ⟨⟨s, stop⟩, hscan⟩ : ∃ r, scan childPid env.entries ⟨0, 0, out⟩ = r := ⟨_, rfl⟩
  rw [hscan] at hstop herrno
  obtain rfl : stop = none := hstop
  simp only [true_or, true_and] at herrno
  rw [hmain]
  simp only [scanProc, hscan, hclosedir]
  cases env.readdirErr with
  | some e => simp [e.ne_zero]
  | none =>
    rw [← herrno]
    by_cases hzero : s.errno = 0 <;> simp [hzero]

/-- The entry of a process that is gone when its directory is looked at. -/
def vanished : Entry :=
  ⟨bytes "7", fun _ => .error ⟨2, by decide⟩, fun _ => .error ⟨2, by decide⟩,
    .zeros 128⟩

def running : Entry where
  d_name := bytes "8"
  stat path := .ok (if path = bytes "/proc/8" then .directory else .regular)
  fopen _ := .ok ⟨bytes "Name:\tinit\nPid:\t8\nPPid:\t1\n", none, none⟩
  stale := .zeros 128

theorem main_readdir_exit_running :
    ((main ⟨none, .child, [vanished, running], none, none⟩).stop = some (.errExit "readdir") ↔
        (none : Option Errno).isSome) ∧
      ((none : Option Errno) = none →
        (main ⟨none, .child, [vanished, running], none, none⟩).stop = none) := by
  have hvanished : outcome vanished = .failed ⟨2, by decide⟩ := rfl
  have hrunning : outcome running =
      .opened ⟨bytes "Name:\tinit\nPid:\t8\nPPid:\t1\n", none, none⟩ := rfl
  refine (main_readdir_exit_iff ⟨none, .child, [vanished, running], none, none⟩ rfl
    (by simp) rfl ?_).mpr (.inr ?_)
  · intro e he st hopened
    obtain rfl | rfl : e = vanished ∨ e = running := by simpa using he
    · rw [hvanished] at hopened
      cases hopened
    · rw [hrunning] at hopened
      cases hopened
      exact ⟨rfl, rfl, by decide +kernel⟩
  · rw [failuresCleared_cons, failuresCleared_cons]
    refine ⟨fun _ => ⟨running, by simp, _, hrunning, by decide +kernel⟩, ?_, ?_⟩
    · rintro ⟨errno, hfailed⟩
      rw [hrunning] at hfailed
      cases hfailed
    · intro before e after heq
      simp at heq

/-- One process that vanishes before `stat`, and the program reports an error of
    `readdir`. -/
theorem main_readdir_exit_vanished :
    ¬ (((main ⟨none, .child, [vanished], none, none⟩).stop = some (.errExit "readdir") ↔
        (none : Option Errno).isSome) ∧
      ((none : Option Errno) = none →
        (main ⟨none, .child, [vanished], none, none⟩).stop = none)) := by
  have hstop : (main ⟨none, .child, [vanished], none, none⟩).stop = some (.errExit "readdir") := by
    decide +kernel
  rw [hstop]
  simp

end LinuxPractice.Chap12.Pstree
