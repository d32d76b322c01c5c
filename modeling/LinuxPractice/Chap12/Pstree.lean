import LinuxPractice.Chap12.LineLoop

/-!
# `twelve-two/pstree_implementation.c`: parents of processes

The program walks over `/proc` and reads pid and parent pid from every status
file.  It tells the end of the directory stream from an error of `readdir` by
`errno`, which it clears once, before the scan; so the model carries `errno`
through every call: a failing call stores its number, `getNum` stores 0 before it
converts, and the other calls leave it alone.
-/

namespace LinuxPractice.Chap12.Pstree

open LinuxPractice.CLib LinuxPractice.Tlpi

/-! ### `readfdata` -/

/-- The variables `pid` and `ppid`, and `errno`. -/
structure Vars where
  pid : Int
  ppid : Int
  errno : Nat

abbrev Step := Except (Jump (Frame Vars)) (Frame Vars)

/-- The branch for a numeric field: `name` is the variable it fills, which `assign`
    stores, and `line` what it prints. -/
def numBranch (key name : String) (assign : Vars → Int → Vars) (line : Bytes → Int → Out)
    (f : Frame Vars) : Step := do
  let s ← f.text
  if s = bytes key then
    let f ← f.strtok f.saveptr colon
    let f ← f.trimToken
    let value ← f.getIntToken GN_ANY_BASE name
    let token ← f.text
    return { f with vars := assign { f.vars with errno := 0 } value,
                    out := f.out ++ [line token value] }
  else return f

def pidBranch : Frame Vars → Step :=
  numBranch "Pid" "pid" (fun v pid => { v with pid }) .pidLine

def ppidBranch : Frame Vars → Step :=
  numBranch "PPid" "ppid" (fun v ppid => { v with ppid }) .ppidLine

def nameBranch (f : Frame Vars) : Step := do
  let s ← f.text
  if s = bytes "Name" then
    let f ← f.strtok f.saveptr colon
    let f ← f.trimToken
    let token ← f.text
    return { f with out := f.out ++ [.nameLine token] }
  else return f

def lineBody (f : Frame Vars) : Step := do
  let f ← f.strtok 0 colon
  let f ← pidBranch f
  let f ← ppidBranch f
  nameBranch f

/-- `readfdata` with the answer of its `fopen`, the indeterminate bytes of `line` and
    the value of `errno`. -/
def readfdata (fopen : Except Errno Stream) (stale : CharArray 128) (errno : Nat) :
    Frame Vars × Option Stop :=
  let f : Frame Vars := ⟨stale, 0, 0, ⟨-1, -1, errno⟩, [], []⟩
  match fopen with
  | .error e => ({ f with out := [.fopenFailed e], vars := { f.vars with errno := e.val } }, none)
  | .ok fst =>
    match lineLoop (fun _ => true) lineBody (fst.lines 127) f with
    | (f, some why) => (f, some why)
    | (f, none) =>
      let f := match fst.lastErr 127 with
        | none => f
        | some e => { f with vars := { f.vars with errno := e.val } }
      match fst.fcloseErr with
      | some e => ({ f with vars := { f.vars with errno := e.val } }, some (.errExit "close"))
      | none => ({ f with out := f.out ++ [.childPid] }, none)

/-! ### `main` -/

def PATHNAME_BUF_SIZE : Nat := 256

structure ScanState where
  dircount : Nat
  errno : Nat
  out : List Out

/-- The loop body of `main` for one entry, in the process that `fork` answered
    `childPid`. -/
def visit (childPid : Int) (e : Entry) (s : ScanState) : ScanState × Option Stop :=
  if e.d_name = bytes "." ∨ e.d_name = bytes ".." then (s, none)
  else
    let proc_dirname := snprintf PATHNAME_BUF_SIZE (bytes "/proc/" ++ e.d_name)
    match e.stat proc_dirname with
    | .error err =>
      ({ s with errno := err.val, out := s.out ++ [.statDirFailed proc_dirname err] }, none)
    | .ok .directory =>
      let pathname := snprintf PATHNAME_BUF_SIZE (proc_dirname ++ bytes "/status")
      match e.stat pathname with
      | .error err =>
        ({ s with errno := err.val, out := s.out ++ [.statPathFailed pathname err] }, none)
      | .ok .regular =>
        let printed := s.out ++ [.path pathname] ++
          if s.dircount = 20 then [.forked childPid] else []
        let (f, stop) := readfdata (e.fopen pathname) e.stale s.errno
        match stop with
        | some why => (⟨s.dircount, f.vars.errno, printed ++ f.out⟩, some why)
        | none => (⟨s.dircount + 1, f.vars.errno, printed ++ f.out ++ [.emptyLine]⟩, none)
      | .ok _ => (s, none)
    | .ok _ => (s, none)

def scan (childPid : Int) : List Entry → ScanState → ScanState × Option Stop
  | [], s => (s, none)
  | e :: es, s =>
    match visit childPid e s with
    | (s, some why) => (s, some why)
    | (s, none) => scan childPid es s

inductive Fork where
  | failed (errno : Errno)
  | child
  | parent (childPid : Int)

structure Env where
  opendirErr : Option Errno
  fork : Fork
  entries : List Entry
  readdirErr : Option Errno
  closedirErr : Option Errno

/-- What a run prints, and how it ends: `none` is `exit(EXIT_SUCCESS)`. -/
structure Run where
  out : List Out
  stop : Option Stop

/-- The scan and the code behind it, which parent and child both run. -/
def scanProc (env : Env) (childPid : Int) (out : List Out) : Run :=
  match scan childPid env.entries ⟨0, 0, out⟩ with
  | (s, some why) => ⟨s.out, some why⟩
  | (s, none) =>
    -- at the end of the stream `readdir` leaves `errno` unchanged
    let errno := match env.readdirErr with
      | some e => e.val
      | none => s.errno
    if errno = 0 then
      let out := s.out ++ [.endOfDirStream]
      if env.closedirErr.isSome then ⟨out, some (.errExit "closedir")⟩ else ⟨out, none⟩
    else ⟨s.out, some (.errExit "readdir")⟩

/-- The parent's `waitpid` is left out: its status pointer is indeterminate, its answer
    is not used, and `errno` is cleared behind it. -/
def main (env : Env) : Run :=
  if env.opendirErr.isSome then ⟨[], some (.errExit "opendir")⟩
  else
    match env.fork with
    | .failed _ => ⟨[], some (.errExit "fork")⟩
    | .child => scanProc env 0 [.inside true, .childPid]
    | .parent childPid => scanProc env childPid [.inside false]

end LinuxPractice.Chap12.Pstree
