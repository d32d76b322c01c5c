import LinuxPractice.Chap12.LineLoop

/-!
# `twelve-one/p_id_cmdn_si.c`: the processes of a user

The program turns its argument into a user ID, walks over `/proc`, and prints the
pid and the name of every process whose status file has that real user ID.  What
`stat`, `fopen`, `fgets` and the directory calls answer is input of the model: an
`Entry` carries the answers for one directory entry, so a process can vanish
between any two of them.
-/

namespace LinuxPractice.Chap12.UserProcs

open LinuxPractice.CLib LinuxPractice.Tlpi

/-! ### `userIdFromName` -/

/-- The value `-1` of type `uid_t`. -/
def uidError : UInt32 := 4294967295

/-- The conversion of a `long` to `uid_t`. -/
def uidOfLong (v : Int) : UInt32 := UInt32.ofNat (v % 2 ^ 32).toNat

/-- The uid of a user name; a numeric string stands for itself. -/
def userIdFromName (getpwnam : Bytes → Option UInt32) (name : Bytes) : UInt32 :=
  if name = [] then uidError
  else
    let res := strtol 10 name
    if res.rest = [] then uidOfLong res.value
    else
      match getpwnam name with
      | none => uidError
      | some pw_uid => pw_uid

/-! ### `readfdata` -/

/-- The variables `pid`, `name` (an offset into `line`, or NULL) and `realuid`. -/
structure Vars where
  pid : Int
  name : Option Nat
  realuid : Int

/-- The loop condition `!(pid != -1 && name != NULL && realuid != -1)`. -/
def Vars.again (v : Vars) : Bool :=
  !(decide (v.pid ≠ -1) && v.name.isSome && decide (v.realuid ≠ -1))

abbrev Step := Except (Jump (Frame Vars)) (Frame Vars)

def pidBranch (f : Frame Vars) : Step := do
  let s ← f.text
  if s = bytes "Pid" then
    let f ← f.strtok f.saveptr colon
    let f ← f.trimToken
    let pid ← f.getIntToken GN_GT_0 "pid"
    return { f with vars := { f.vars with pid } }
  else return f

def nameBranch (f : Frame Vars) : Step := do
  let s ← f.text
  if s = bytes "Name" then
    let f ← f.strtok f.saveptr colon
    let f ← f.trimToken
    return { f with vars := { f.vars with name := some f.token } }
  else return f

/-- The comparison with `uid` and the record.  `name` is printed as the bytes that
    `line` holds now. -/
def printRecord (uid : UInt32) (f : Frame Vars) : Step :=
  match f.vars.name with
  | none => .ok f
  | some name =>
    if (uid.toNat : Int) = f.vars.realuid ∧ f.vars.pid ≠ -1 then
      match f.line.cstr name with
      | none => .error (.stop .undefined f)
      | some s => .error (.brk { f with out := f.out ++ [.record f.vars.pid s] })
    else .ok f

def uidBranch (uid : UInt32) (f : Frame Vars) : Step := do
  let s ← f.text
  if s = bytes "Uid" then
    let f ← f.strtok f.saveptr colon
    let f ← f.strtok f.token tab
    let f ← f.trimToken
    let realuid ← f.getIntToken GN_ANY_BASE "realuid"
    printRecord uid { f with vars := { f.vars with realuid } }
  else return f

/-- The loop body: three tests in a row on the one variable `token`. -/
def lineBody (uid : UInt32) (f : Frame Vars) : Step := do
  let f ← f.strtok 0 colon
  let f ← pidBranch f
  let f ← nameBranch f
  uidBranch uid f

/-- `readfdata` with the answer of its `fopen` and the indeterminate bytes of
    `line`; the frame it ends with, and the reason if the program ends in it. -/
def readfdata (fopen : Except Errno Stream) (stale : CharArray 128) (uid : UInt32) :
    Frame Vars × Option Stop :=
  let f : Frame Vars := ⟨stale, 0, 0, ⟨-1, none, -1⟩, [], []⟩
  match fopen with
  | .error errno => ({ f with out := [.fopenFailed errno] }, none)
  | .ok fst =>
    match lineLoop Vars.again (lineBody uid) (fst.lines 127) f with
    | (f, some why) => (f, some why)
    | (f, none) => (f, if fst.fcloseErr.isSome then some (.errExit "close") else none)

/-! ### `main` -/

/-- The loop body of `main` for one entry: what it prints, and the reason if the
    program ends in it. -/
def visit (uid : UInt32) (e : Entry) : List Out × Option Stop :=
  if e.d_name = bytes "." ∨ e.d_name = bytes ".." then ([], none)
  else
    -- the size argument is that of `dirname[256]`, the array is `pathname[100]`
    let pathname := snprintf 256 (bytes "/proc/" ++ e.d_name ++ bytes "/status")
    if 100 < pathname.length + 1 then ([], some .undefined)
    else
      match e.stat pathname with
      | .error errno => ([.statFailed errno], none)
      | .ok .regular =>
        let (f, stop) := readfdata (e.fopen pathname) e.stale uid
        (f.out, stop)
      | .ok _ => ([], none)

/-- The scan loop up to the end of the directory stream: what each visited entry
    printed. -/
def scan (uid : UInt32) : List Entry → List (List Out) × Option Stop
  | [] => ([], none)
  | e :: es =>
    match visit uid e with
    | (out, some why) => ([out], some why)
    | (out, none) => (out :: (scan uid es).1, (scan uid es).2)

structure Env where
  argv : List Bytes
  getpwnam : Bytes → Option UInt32
  opendirErr : Option Errno
  entries : List Entry
  readdirErr : Option Errno
  closedirErr : Option Errno

inductive Exit where
  | success
  | failure
  | undefined
deriving DecidableEq

/-- What a run prints for each entry it visits and behind the scan, and how it
    ends. -/
structure Run where
  outs : List (List Out)
  last : List Out
  exit : Exit

def exitOf : Stop → Exit
  | .undefined => .undefined
  | .gnFail _ => .failure
  | .errExit _ => .failure

def main (env : Env) : Run :=
  match env.argv with
  | [_, arg] =>
    if arg = bytes "--help" then ⟨[], [], .failure⟩
    else
      let uid := userIdFromName env.getpwnam arg
      if env.opendirErr.isSome then ⟨[], [], .failure⟩
      else
        match scan uid env.entries with
        | (outs, some why) => ⟨outs, [], exitOf why⟩
        | (outs, none) =>
          -- `errno` is 0 before every `readdir`, so it tells an error from the end
          match env.readdirErr with
          | some _ => ⟨outs, [], .failure⟩
          | none =>
            if env.closedirErr.isSome then ⟨outs, [.endOfDirStream], .failure⟩
            else ⟨outs, [.endOfDirStream], .success⟩
  | _ => ⟨[], [], .failure⟩

end LinuxPractice.Chap12.UserProcs
