import LinuxPractice.Chap12.UserProcsScan
import LinuxPractice.Chap12.Pstree

/-!
# The paths of the two `/proc` programs

For one directory entry both programs build the path of its status file and give it
to `readfdata` if `stat` says that it is a regular file.  `p_id_cmdn_si.c` does so in
one step, into `pathname[100]` with the size of `dirname[256]`; `pstree_implementation.c`
builds the path of the directory first.  `calls` lists what they do with their arrays
on the way, and `visit` is shown to follow it.
-/

namespace LinuxPractice.Chap12

open LinuxPractice.CLib

/-- A call that `main` makes for an entry.  `stored` is the string that `snprintf` puts,
    with a NUL behind it, into an array of `capacity` bytes. -/
inductive Call where
  | snprintf (capacity : Nat) (stored : Bytes)
  | readfdata (path : Bytes)

/-- All bytes that the call stores lie inside the array. -/
def Call.Fits : Call → Prop
  | .snprintf capacity stored => stored.length + 1 ≤ capacity
  | .readfdata _ => True

def statusPath (d_name : Bytes) : Bytes := bytes "/proc/" ++ d_name ++ bytes "/status"

/-- The calls stay inside their arrays, and a path is passed on only if it is that of the
    entry's status file. -/
def PathExact (d_name : Bytes) (calls : List Call) : Prop :=
  (∀ call ∈ calls, call.Fits) ∧ ∀ path, .readfdata path ∈ calls → path = statusPath d_name

theorem length_statusPath (d_name : Bytes) : (statusPath d_name).length = 13 + d_name.length := by
  have hdir : (bytes "/proc/").length = 6 := by decide
  have hfile : (bytes "/status").length = 7 := by decide
  simp only [statusPath, List.length_append, hdir, hfile]
  omega

/-! ### `p_id_cmdn_si.c` -/

namespace UserProcs

/-- The calls for the entry `d_name`, with the answers of `stat`.  Behind a store outside
    the array nothing is defined, and the list ends. -/
def calls (stat : Bytes → Except Errno FileType) (d_name : Bytes) : List Call :=
  if d_name = bytes "." ∨ d_name = bytes ".." then []
  else
    let pathname := snprintf 256 (bytes "/proc/" ++ d_name ++ bytes "/status")
    .snprintf 100 pathname ::
      if 100 < pathname.length + 1 then []
      else
        match stat pathname with
        | .ok .regular => [.readfdata pathname]
        | _ => []

variable {stat : Bytes → Except Errno FileType} {d_name path : Bytes}

theorem calls_of_long (h : 86 < d_name.length) :
    calls stat d_name =
      [.snprintf 100 (snprintf 256 (bytes "/proc/" ++ d_name ++ bytes "/status"))] := by
  have hdot : ¬ (d_name = bytes "." ∨ d_name = bytes "..") := by
    rintro (rfl | rfl) <;> revert h <;> decide
  rw [calls, if_neg hdot]
  exact congrArg _ (if_pos ((length_pathname d_name).mpr h))

theorem snprintf_statusPath (h : d_name.length ≤ 86) :
    snprintf 256 (bytes "/proc/" ++ d_name ++ bytes "/status") = statusPath d_name := by
  have hlen := length_statusPath d_name
  exact snprintf_eq (show (statusPath d_name).length < 256 by omega)

theorem calls_of_short (hdot : ¬ (d_name = bytes "." ∨ d_name = bytes ".."))
    (h : d_name.length ≤ 86) :
    calls stat d_name = .snprintf 100 (statusPath d_name) ::
      match stat (statusPath d_name) with
      | .ok .regular => [.readfdata (statusPath d_name)]
      | _ => [] := by
  have hlen := length_statusPath d_name
  simp only [calls, if_neg hdot, snprintf_statusPath h]
  rw [if_neg (by omega)]

theorem not_fits_of_long (h : 86 < d_name.length) :
    ¬ (Call.snprintf 100
        (snprintf 256 (bytes "/proc/" ++ d_name ++ bytes "/status"))).Fits := by
  have hout := (length_pathname d_name).mpr h
  exact Nat.not_le.mpr hout

/-- The one store leaves the array for names of more than 86 bytes, whatever `stat`
    answers; for the others the path is exact. -/
theorem pathExact_iff : PathExact d_name (calls stat d_name) ↔ d_name.length ≤ 86 := by
  constructor
  · rintro ⟨hfits, -⟩
    by_contra hlong
    have hlong' : 86 < d_name.length := Nat.not_le.mp hlong
    rw [calls_of_long hlong'] at hfits
    exact not_fits_of_long hlong' (hfits _ (by simp))
  · intro hshort
    by_cases hdot : d_name = bytes "." ∨ d_name = bytes ".."
    · rw [calls, if_pos hdot]
      simp [PathExact]
    · have hlen := length_statusPath d_name
      have hstore : (Call.snprintf 100 (statusPath d_name)).Fits := by
        simp only [Call.Fits]
        omega
      rw [calls_of_short hdot hshort]
      constructor
      · intro call hcall
        rcases List.mem_cons.mp hcall with rfl | hcall
        · exact hstore
        · split at hcall
          · obtain rfl := List.mem_singleton.mp hcall
            trivial
          · cases hcall
      · intro path hpath
        rcases List.mem_cons.mp hpath with h | hpath
        · cases h
        · split at hpath
          · cases List.mem_singleton.mp hpath
            rfl
          · cases hpath

/-- A store outside the array makes the entry undefined. -/
theorem visit_of_not_fits {uid : UInt32} {e : Entry}
    (h : ∃ call ∈ calls e.stat e.d_name, ¬ call.Fits) : visit uid e = ([], some .undefined) := by
  have hlong : 86 < e.d_name.length := by
    by_contra hshort
    rcases h with ⟨call, hmem, hcall⟩
    exact hcall ((pathExact_iff.mpr (Nat.not_lt.mp hshort)).1 call hmem)
  have hdot : ¬ (e.d_name = bytes "." ∨ e.d_name = bytes "..") := by
    rintro (heq | heq) <;> rw [heq] at hlong <;> revert hlong <;> decide
  rw [visit, if_neg hdot]
  exact if_pos ((length_pathname e.d_name).mpr hlong)

/-- The path in the list is the one whose file the entry is read from. -/
theorem visit_of_readfdata_mem {uid : UInt32} {e : Entry}
    (h : .readfdata path ∈ calls e.stat e.d_name) :
    let r := readfdata (e.fopen path) e.stale uid
    visit uid e = (r.1.out, r.2) := by
  have hdot : ¬ (e.d_name = bytes "." ∨ e.d_name = bytes "..") := by
    intro hdot
    rw [calls, if_pos hdot] at h
    cases h
  have hshort : ¬ 86 < e.d_name.length := by
    intro hlong
    rw [calls_of_long hlong] at h
    cases List.mem_singleton.mp h
  have hvisit := visit_fits uid e hdot hshort
  rw [calls_of_short hdot (Nat.not_lt.mp hshort)] at h
  simp only [snprintf_statusPath (Nat.not_lt.mp hshort)] at hvisit
  rcases List.mem_cons.mp h with h | h
  · cases h
  · split at h
    · rename_i hstat
      cases List.mem_singleton.mp h
      rw [hvisit, hstat]
    · cases h

/-- Without such a path the entry's files are not opened. -/
theorem visit_of_readfdata_notMem {uid : UInt32} {e : Entry}
    (h : ∀ path, .readfdata path ∉ calls e.stat e.d_name)
    (fopen : Bytes → Except Errno Stream) : visit uid { e with fopen } = visit uid e := by
  by_cases hdot : e.d_name = bytes "." ∨ e.d_name = bytes ".."
  · simp only [visit, if_pos hdot]
  · by_cases hlong : 86 < e.d_name.length
    · have hout := (length_pathname e.d_name).mpr hlong
      simp only [visit, if_neg hdot, if_pos hout]
    · have hfits := mt (length_pathname e.d_name).mp hlong
      simp only [visit, if_neg hdot, if_neg hfits]
      split
      · rfl
      · rename_i hstat
        rw [snprintf_statusPath (Nat.not_lt.mp hlong)] at hstat
        refine absurd ?_ (h (statusPath e.d_name))
        rw [calls_of_short hdot (Nat.not_lt.mp hlong), hstat]
        simp
      · rfl

end UserProcs

/-! ### `pstree_implementation.c` -/

namespace Pstree

/-- The calls for the entry `d_name`, with the answers of the `stat` for the directory
    and of the one for the file. -/
def calls (statDir statFile : Bytes → Except Errno FileType) (d_name : Bytes) : List Call :=
  if d_name = bytes "." ∨ d_name = bytes ".." then []
  else
    let proc_dirname := snprintf PATHNAME_BUF_SIZE (bytes "/proc/" ++ d_name)
    .snprintf PATHNAME_BUF_SIZE proc_dirname ::
      match statDir proc_dirname with
      | .ok .directory =>
        let pathname := snprintf PATHNAME_BUF_SIZE (proc_dirname ++ bytes "/status")
        .snprintf PATHNAME_BUF_SIZE pathname ::
          match statFile pathname with
          | .ok .regular => [.readfdata pathname]
          | _ => []
      | _ => []

/-- The path of the second step, cut off twice. -/
def pathname (d_name : Bytes) : Bytes :=
  snprintf PATHNAME_BUF_SIZE
    (snprintf PATHNAME_BUF_SIZE (bytes "/proc/" ++ d_name) ++ bytes "/status")

theorem pathname_def (d_name : Bytes) :
    pathname d_name = snprintf PATHNAME_BUF_SIZE
      (snprintf PATHNAME_BUF_SIZE (bytes "/proc/" ++ d_name) ++ bytes "/status") := rfl

variable {statDir statFile : Bytes → Except Errno FileType} {d_name path : Bytes}

theorem fits_snprintf (out : Bytes) :
    (Call.snprintf PATHNAME_BUF_SIZE (snprintf PATHNAME_BUF_SIZE out)).Fits := by
  simp only [Call.Fits, snprintf, PATHNAME_BUF_SIZE, List.length_take]
  omega

/-- Both arrays have the size that `snprintf` is given. -/
theorem fits_calls : ∀ call ∈ calls statDir statFile d_name, call.Fits := by
  intro call hcall
  unfold calls at hcall
  split at hcall
  · cases hcall
  · rcases List.mem_cons.mp hcall with rfl | hcall
    · exact fits_snprintf _
    · split at hcall
      · rcases List.mem_cons.mp hcall with rfl | hcall
        · exact fits_snprintf _
        · split at hcall
          · obtain rfl := List.mem_singleton.mp hcall
            trivial
          · cases hcall
      · cases hcall

theorem readfdata_mem_calls_iff :
    .readfdata path ∈ calls statDir statFile d_name ↔
      ¬ (d_name = bytes "." ∨ d_name = bytes "..") ∧ path = pathname d_name ∧
        statDir (snprintf PATHNAME_BUF_SIZE (bytes "/proc/" ++ d_name)) = .ok .directory ∧
        statFile (pathname d_name) = .ok .regular := by
  unfold calls
  split
  · simp_all
  · rename_i hdot
    simp only [List.mem_cons, reduceCtorEq, false_or, ← pathname_def]
    split
    · rename_i hdir
      simp only [List.mem_cons, reduceCtorEq, false_or]
      split
      · rename_i hfile
        simp [hdot, hdir, hfile]
      · rename_i hfile
        constructor
        · intro h
          cases h
        · rintro ⟨-, -, -, h⟩
          exact absurd h hfile
    · rename_i hdir
      constructor
      · intro h
        cases h
      · rintro ⟨-, -, h, -⟩
        exact absurd h hdir

/-- The path is exact as long as the whole of it is shorter than the array. -/
theorem pathname_eq_iff : pathname d_name = statusPath d_name ↔ d_name.length ≤ 242 := by
  have hlen := length_statusPath d_name
  constructor
  · intro heq
    have hle : (pathname d_name).length ≤ 255 := by
      simp only [pathname, snprintf, PATHNAME_BUF_SIZE, List.length_take]
      omega
    rw [heq] at hle
    omega
  · intro hshort
    have hdir : (bytes "/proc/" ++ d_name).length < PATHNAME_BUF_SIZE := by
      rw [List.length_append, show (bytes "/proc/").length = 6 by decide, PATHNAME_BUF_SIZE]
      omega
    have hfile : (statusPath d_name).length < PATHNAME_BUF_SIZE := by
      rw [PATHNAME_BUF_SIZE]
      omega
    rw [pathname, snprintf_eq hdir]
    exact snprintf_eq hfile

theorem pathExact_iff :
    (∀ statDir statFile, PathExact d_name (calls statDir statFile d_name)) ↔
      d_name.length ≤ 242 := by
  constructor
  · intro h
    by_cases hdot : d_name = bytes "." ∨ d_name = bytes ".."
    · rcases hdot with rfl | rfl <;> decide
    · -- the directory and the file are there under the names that were cut off
      have hpath := (h (fun _ => .ok .directory) (fun _ => .ok .regular)).2 (pathname d_name)
        (readfdata_mem_calls_iff.mpr ⟨hdot, rfl, rfl, rfl⟩)
      exact pathname_eq_iff.mp hpath
  · intro hshort statDir statFile
    refine ⟨fits_calls, ?_⟩
    intro path hpath
    rcases readfdata_mem_calls_iff.mp hpath with ⟨-, rfl, -, -⟩
    exact pathname_eq_iff.mpr hshort

/-- The path in the list is the one that the entry prints and reads. -/
theorem visit_of_readfdata_mem {childPid : Int} {e : Entry}
    (h : .readfdata path ∈ calls e.stat e.stat e.d_name) (s : ScanState) :
    (visit childPid e s).2 = (readfdata (e.fopen path) e.stale s.errno).2 ∧
      .path path ∈ (visit childPid e s).1.out := by
  rcases readfdata_mem_calls_iff.mp h with ⟨hdot, rfl, hdir, hfile⟩
  obtain ⟨⟨f, stop⟩, hrun⟩ :
      ∃ r, readfdata (e.fopen (pathname e.d_name)) e.stale s.errno = r := ⟨_, rfl⟩
  simp only [visit, if_neg hdot, hdir, ← pathname_def, hfile, hrun]
  cases stop with
  | none => simp
  | some why => simp

theorem visit_of_readfdata_notMem {childPid : Int} {e : Entry}
    (h : ∀ path, .readfdata path ∉ calls e.stat e.stat e.d_name)
    (fopen : Bytes → Except Errno Stream) (s : ScanState) :
    visit childPid { e with fopen } s = visit childPid e s := by
  by_cases hdot : e.d_name = bytes "." ∨ e.d_name = bytes ".."
  · simp only [visit, if_pos hdot]
  · simp only [visit, if_neg hdot, ← pathname_def]
    split
    · rfl
    · rename_i hdir
      split
      · rfl
      · rename_i hfile
        exact absurd (readfdata_mem_calls_iff.mpr ⟨hdot, rfl, hdir, hfile⟩) (h _)
      · rfl
    · rfl

end Pstree

/-! ### Both programs -/

/-- Both programs stay inside their arrays and read the entry's own status file exactly
    for names of at most 86 bytes; in `pstree_implementation.c` alone 242 would do. -/
theorem calls_pathExact_iff (stat statDir statFile : Bytes → Except Errno FileType)
    (d_name : Bytes) :
    (PathExact d_name (UserProcs.calls stat d_name) ∧
        PathExact d_name (Pstree.calls statDir statFile d_name) ↔ d_name.length ≤ 86) ∧
      ((∀ statDir statFile, PathExact d_name (Pstree.calls statDir statFile d_name)) ↔
        d_name.length ≤ 242) := by
  refine ⟨?_, Pstree.pathExact_iff⟩
  constructor
  · rintro ⟨huser, -⟩
    exact UserProcs.pathExact_iff.mp huser
  · intro hshort
    exact ⟨UserProcs.pathExact_iff.mpr hshort, Pstree.pathExact_iff.mpr (by omega) statDir statFile⟩

/-- A name of 87 bytes, for which `stat` would answer that there is no such file. -/
theorem calls_pathExact_long :
    let d_name : Bytes := List.replicate 87 97
    let stat : Bytes → Except Errno FileType := fun _ => .error ⟨2, by decide⟩
    ¬ (PathExact d_name (UserProcs.calls stat d_name) ∧
      PathExact d_name (Pstree.calls stat stat d_name)) := by
  intro d_name stat h
  have hlen := UserProcs.pathExact_iff.mp h.1
  simp [d_name] at hlen

end LinuxPractice.Chap12
