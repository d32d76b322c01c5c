import LinuxPractice.Chap12.UserProcsOwner

/-!
# The scan of `/proc` in `p_id_cmdn_si.c`

`main` over a directory whose status files are the kernel's and whose processes
vanish at any point: `stat` fails, `fopen` fails, or `fgets` fails after some lines.
One entry does not touch the output of another unless it ends the program, and
`Benign` says which entries do not.
-/

namespace LinuxPractice.Chap12.UserProcs

open LinuxPractice.CLib LinuxPractice.Tlpi

/-- An entry of `/proc`.  A stream that `fopen` opens has the text of a status file,
    and `fgets` may fail on it. -/
structure ProcEntry where
  d_name : Bytes
  stat : Except Errno FileType
  fopen : Except Errno (StatusText × Option (Nat × Errno))
  stale : CharArray 128

def ProcEntry.entry (e : ProcEntry) : Entry where
  d_name := e.d_name
  stat _ := e.stat
  fopen _ :=
    match e.fopen with
    | .error errno => .error errno
    | .ok (t, fgetsErr) => .ok ⟨t.text, fgetsErr, none⟩
  stale := e.stale

/-- A run over these entries in which the directory calls succeed. -/
def procEnv (prog arg : Bytes) (getpwnam : Bytes → Option UInt32) (entries : List ProcEntry) :
    Env where
  argv := [prog, arg]
  getpwnam
  opendirErr := none
  entries := entries.map ProcEntry.entry
  readdirErr := none
  closedirErr := none

/-! ### One entry -/

/-- An entry that does not end the program: its path fits `pathname`, no name that
    is read has a forged uid that `getInt` rejects, and no uid beyond the range of
    `int` is reached. -/
def Benign (e : ProcEntry) : Prop :=
  e.d_name = bytes "." ∨ e.d_name = bytes ".." ∨
    e.d_name.length ≤ 86 ∧ ∀ t fgetsErr, e.stat = .ok .regular → e.fopen = .ok (t, fgetsErr) →
      (0 < t.keysRead fgetsErr → nameEffect t.name ≠ .rejected) ∧
      (t.keysRead fgetsErr = 3 → nameEffect t.name = .harmless → (t.ruid : Int) ≤ INT_MAX)

def entryOut (uid : UInt32) (e : ProcEntry) : List Out :=
  if e.d_name = bytes "." ∨ e.d_name = bytes ".." ∨ 86 < e.d_name.length then []
  else
    match e.stat with
    | .error errno => [.statFailed errno]
    | .ok .regular =>
      match e.fopen with
      | .error errno => [.fopenFailed errno]
      | .ok (t, fgetsErr) => statusOut t uid (t.keysRead fgetsErr)
    | .ok _ => []

theorem keysEnd_eq_stop (t : StatusText) (uid : UInt32) {keys : Nat} (hkeys : keys ≤ 3) :
    keysEnd t uid keys = .stop ↔
      ¬ ((0 < keys → nameEffect t.name ≠ .rejected) ∧
        (keys = 3 → nameEffect t.name = .harmless → (t.ruid : Int) ≤ INT_MAX)) := by
  unfold keysEnd
  by_cases hzero : keys = 0
  · simp [hzero]
  · have hpos : 0 < keys := by omega
    cases heff : nameEffect t.name with
    | harmless =>
      by_cases hthree : keys = 3
      · by_cases hle : (t.ruid : Int) ≤ INT_MAX
        · simp only [hthree, hle]
          split_ifs <;> simp_all
        · simp [hthree, hle]
      · simp [hzero, show keys < 3 by omega, hthree]
    | taken => simp [hzero]
    | rejected => simp [hzero, hpos]

theorem length_pathname (d_name : Bytes) :
    100 < (snprintf 256 (bytes "/proc/" ++ d_name ++ bytes "/status")).length + 1 ↔
      86 < d_name.length := by
  have hdir : (bytes "/proc/").length = 6 := by decide
  have hfile : (bytes "/status").length = 7 := by decide
  simp only [snprintf, List.length_take, List.length_append, hdir, hfile]
  omega

theorem visit_fits (uid : UInt32) (e : Entry)
    (hdot : ¬ (e.d_name = bytes "." ∨ e.d_name = bytes "..")) (hlong : ¬ 86 < e.d_name.length) :
    let pathname := snprintf 256 (bytes "/proc/" ++ e.d_name ++ bytes "/status")
    visit uid e =
      match e.stat pathname with
      | .error errno => ([.statFailed errno], none)
      | .ok .regular =>
        let r := readfdata (e.fopen pathname) e.stale uid
        (r.1.out, r.2)
      | .ok _ => ([], none) := by
  have hfits := mt (length_pathname e.d_name).mp hlong
  exact (if_neg hdot).trans (if_neg hfits)

theorem visit_entry (uid : UInt32) (e : ProcEntry) :
    (visit uid e.entry).1 = entryOut uid e ∧ ((visit uid e.entry).2 = none ↔ Benign e) := by
  by_cases hdot : e.d_name = bytes "." ∨ e.d_name = bytes ".."
  · have hvisit : visit uid e.entry = ([], none) := if_pos hdot
    simp only [hvisit, entryOut, Benign]
    simp [hdot, ← or_assoc]
  rcases not_or.mp hdot with ⟨hone, htwo⟩
  by_cases hlong : 86 < e.d_name.length
  · have hvisit : visit uid e.entry = ([], some .undefined) := by
      rw [visit, if_neg (show ¬ (e.entry.d_name = _ ∨ e.entry.d_name = _) from hdot)]
      exact if_pos ((length_pathname e.d_name).mpr hlong)
    simp only [hvisit, entryOut, Benign]
    simp [hone, htwo, hlong]
  have hfits : e.d_name.length ≤ 86 := by omega
  have hvisit := visit_fits uid e.entry hdot hlong
  simp only [ProcEntry.entry] at hvisit
  simp only [ProcEntry.entry, hvisit, entryOut, Benign, hone, htwo, hlong, hfits, false_or,
    or_self, if_false, true_and]
  cases hstat : e.stat with
  | error errno => simp
  | ok type =>
    cases type with
    | regular =>
      cases hopen : e.fopen with
      | error errno => simp [readfdata]
      | ok stream =>
        rcases stream with ⟨t, fgetsErr⟩
        rcases readfdata_status uid t fgetsErr none e.stale with ⟨hout, hstop⟩
        refine ⟨hout, ?_⟩
        rw [keysEnd_eq_stop t uid (t.keysRead_le fgetsErr)] at hstop
        simp only [Option.isSome_none, Bool.false_eq_true, or_false] at hstop
        rw [← Option.not_isSome_iff_eq_none, hstop, not_not]
        constructor
        · rintro h t' fgetsErr' - heq
          obtain ⟨rfl, rfl⟩ : t = t' ∧ fgetsErr = fgetsErr' := by simpa using heq
          exact h
        · exact fun h => h t fgetsErr rfl rfl
    | directory => simp
    | other => simp

/-! ### The whole scan -/

theorem scan_of_forall (uid : UInt32) {es : List Entry} (h : ∀ e ∈ es, (visit uid e).2 = none) :
    scan uid es = (es.map fun e => (visit uid e).1, none) := by
  induction es with
  | nil => rfl
  | cons e es ih =>
    have he := h e (by simp)
    rw [scan, ih fun e' he' => h e' (by simp [he'])]
    split
    · rename_i hvisit
      simp [hvisit] at he
    · rename_i hvisit
      simp [hvisit]

/-- A scan that does not stop has visited every entry, and none has stopped it. -/
theorem visit_of_scan (uid : UInt32) {es : List Entry} (h : (scan uid es).2 = none) :
    ∀ e ∈ es, (visit uid e).2 = none := by
  induction es with
  | nil => simp
  | cons e es ih =>
    rw [scan] at h
    split at h
    · cases h
    · rename_i out hvisit
      intro e' he'
      rcases List.mem_cons.mp he' with rfl | he'
      · rw [hvisit]
      · exact ih h e' he'

theorem visit_of_scan_getElem (uid : UInt32) {es : List Entry} {i : Nat} {out : List Out}
    (h : (scan uid es).1[i]? = some out) : ∃ e, es[i]? = some e ∧ (visit uid e).1 = out := by
  induction es generalizing i with
  | nil => simp [scan] at h
  | cons e es ih =>
    rw [scan] at h
    split at h
    · rename_i out' why hvisit
      cases i with
      | zero => exact ⟨e, rfl, by rw [hvisit]; simpa using h⟩
      | succ i => simp at h
    · rename_i out' hvisit
      cases i with
      | zero => exact ⟨e, rfl, by rw [hvisit]; simpa using h⟩
      | succ i => exact ih (by simpa using h)

theorem main_procEnv {prog arg : Bytes} (harg : arg ≠ bytes "--help")
    (getpwnam : Bytes → Option UInt32) (entries : List ProcEntry) :
    main (procEnv prog arg getpwnam entries) =
      match scan (userIdFromName getpwnam arg) (entries.map ProcEntry.entry) with
      | (outs, some why) => ⟨outs, [], exitOf why⟩
      | (outs, none) => ⟨outs, [.endOfDirStream], .success⟩ :=
  if_neg harg

theorem exitOf_ne_success (why : Stop) : exitOf why ≠ .success := by
  cases why <;> simp [exitOf]

/-- Every entry is visited, the program succeeds, and an entry gets the output that
    it gets alone, whatever the buffer holds then. -/
def Isolated (run : List ProcEntry → Run) (entries : List ProcEntry) : Prop :=
  (run entries).exit = .success ∧ (run entries).outs.length = entries.length ∧
    ∀ (i : Nat) (e : ProcEntry), entries[i]? = some e → ∀ stale : CharArray 128,
      (run entries).outs[i]? = (run [{ e with stale }]).outs[0]?

theorem scan_entries_of_benign (uid : UInt32) {entries : List ProcEntry}
    (h : ∀ e ∈ entries, Benign e) :
    scan uid (entries.map ProcEntry.entry) = (entries.map (entryOut uid), none) := by
  rw [scan_of_forall, List.map_map]
  · congr 1
    exact List.map_congr_left fun e _ => (visit_entry uid e).1
  · intro e' he'
    rcases List.mem_map.mp he' with ⟨e, he, rfl⟩
    exact (visit_entry uid e).2.mpr (h e he)

/-- For every sequence of entries and every pattern of vanishing processes: the scan
    is isolated exactly if no entry ends the program. -/
theorem main_isolated_iff (prog : Bytes) {arg : Bytes} (harg : arg ≠ bytes "--help")
    (getpwnam : Bytes → Option UInt32) (entries : List ProcEntry) :
    Isolated (fun es => main (procEnv prog arg getpwnam es)) entries ↔
      ∀ e ∈ entries, Benign e := by
  constructor
  · rintro ⟨hexit, -, -⟩ e he
    simp only [main_procEnv harg] at hexit
    have hscan : (scan (userIdFromName getpwnam arg) (entries.map ProcEntry.entry)).2 = none := by
      split at hexit
      · exact absurd hexit (exitOf_ne_success _)
      · rename_i hscan
        rw [hscan]
    exact (visit_entry _ e).2.mp (visit_of_scan _ hscan _ (List.mem_map_of_mem he))
  · intro h
    have hrun : ∀ es : List ProcEntry, (∀ e ∈ es, Benign e) →
        main (procEnv prog arg getpwnam es) =
          ⟨es.map (entryOut (userIdFromName getpwnam arg)), [.endOfDirStream], .success⟩ := by
      intro es hes
      rw [main_procEnv harg, scan_entries_of_benign _ hes]
    simp only [Isolated, hrun entries h]
    refine ⟨trivial, by simp, ?_⟩
    intro i e hi stale
    have hbenign : Benign e := h e (List.mem_of_getElem? hi)
    -- neither `Benign` nor `entryOut` looks at the stale bytes
    have halone : ∀ e' ∈ [{ e with stale }], Benign e' := by simpa [Benign] using hbenign
    rw [hrun _ halone]
    simp [hi, entryOut]

def entryOf (t : StatusText) : ProcEntry :=
  ⟨bytes "7", .ok .regular, .ok (t, none), .zeros 128⟩

theorem main_isolated_bash :
    Isolated (fun es => main (procEnv (bytes "p") (bytes "1000") (fun _ => none) es))
      [entryOf bashStatus] := by
  refine (main_isolated_iff (bytes "p") (by decide) (fun _ => none) _).mpr ?_
  intro e he
  obtain rfl := List.mem_singleton.mp he
  refine .inr (.inr ⟨by decide, ?_⟩)
  rintro t fgetsErr - heq
  obtain ⟨rfl, rfl⟩ : _ = t ∧ none = fgetsErr := by simpa [entryOf] using heq
  exact ⟨fun _ => by decide +kernel, fun _ _ => by decide⟩

/-- A process of user 3000000000 ends the scan with `EXIT_FAILURE`. -/
theorem main_isolated_large_uid :
    ¬ Isolated (fun es => main (procEnv (bytes "p") (bytes "1000") (fun _ => none) es))
      [entryOf (shortStatus (bytes "bash") 3000000000 (by decide) (by decide) (by decide))] := by
  rintro ⟨hexit, -⟩
  revert hexit
  decide +kernel

end LinuxPractice.Chap12.UserProcs
