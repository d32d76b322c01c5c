import LinuxPractice.Chap12.PstreeScan

/-!
# Parent and child in `pstree_implementation.c`

The directory stream is opened before `fork`, and both processes scan it.  Each has its
own buffer, which `readdir` fills with `getdents` when it is used up; but the position in
the directory belongs to the open file description, and that one they share.  The parent
waits for the child, so it goes on where the child's last `getdents` ended.
-/

namespace LinuxPractice.Chap12.Pstree

open LinuxPractice.CLib

/-- One answer of `getdents`; without entries it is the end of the directory. -/
abbrev Dents := Except Errno (List Entry)

/-- How a process leaves the scan loop. -/
structure Scanned where
  state : ScanState
  /-- Why the program ended inside the loop body. -/
  stop : Option Stop
  readdirErr : Option Errno
  /-- The entries that `readdir` returned. -/
  visited : List Entry
  /-- The entries that `getdents` delivered and `readdir` did not return. -/
  unread : List Entry
  /-- The answers to the calls of `getdents` that come later. -/
  rest : List Dents

def Scanned.push (e : Entry) (r : Scanned) : Scanned := { r with visited := e :: r.visited }

/-- The scan loop, with what is left in the buffer of the stream. -/
def scanStream (childPid : Int) : List Entry → List Dents → ScanState → Scanned
  | e :: buffer, dents, s =>
    match visit childPid e s with
    | (s, some why) => ⟨s, some why, none, [e], buffer, dents⟩
    | (s, none) => (scanStream childPid buffer dents s).push e
  | [], [], s => ⟨s, none, none, [], [], []⟩
  | [], .error e :: dents, s => ⟨s, none, some e, [], [], dents⟩
  | [], .ok [] :: dents, s => ⟨s, none, none, [], [], dents⟩
  | [], .ok (e :: es) :: dents, s => scanStream childPid (e :: es) dents s
termination_by buffer dents => (dents.length, buffer.length)

/-- The code behind the scan loop. -/
def Scanned.finish (r : Scanned) (closedirErr : Option Errno) : Run :=
  match r.stop with
  | some why => ⟨r.state.out, some why⟩
  | none =>
    let errno := match r.readdirErr with
      | some e => e.val
      | none => r.state.errno
    if errno = 0 then
      let out := r.state.out ++ [.endOfDirStream]
      if closedirErr.isSome then ⟨out, some (.errExit "closedir")⟩ else ⟨out, none⟩
    else ⟨r.state.out, some (.errExit "readdir")⟩

/-- The two processes behind a `fork` that answered `childPid` to the parent. -/
structure Forked where
  child : Scanned
  parent : Scanned

def forked (dents : List Dents) (childPid : Int) : Forked :=
  let child := scanStream 0 [] dents ⟨0, 0, [.inside true, .childPid]⟩
  -- `waitpid` comes back when the child has ended, also if it cannot store the status
  ⟨child, scanStream childPid [] child.rest ⟨0, 0, [.inside false]⟩⟩

/-! ### The scan of one process -/

def entriesOf (dents : List Dents) : List Entry :=
  dents.flatMap fun d => match d with
    | .ok es => es
    | .error _ => []

theorem scan_push {childPid : Int} {e : Entry} {s t : ScanState} (h : visit childPid e s = (t, none))
    (es : List Entry) : scan childPid (e :: es) s = scan childPid es t := by
  rw [scan, h]

/-- The loop runs over the entries it visits as over a directory of its own, takes them
    from the front of the stream, and leaves a part of its buffer unread only if the
    program ends in the middle. -/
theorem scanStream_spec (childPid : Int) (buffer : List Entry) (dents : List Dents)
    (s : ScanState) :
    let r := scanStream childPid buffer dents s
    scan childPid r.visited s = (r.state, r.stop) ∧
      buffer ++ entriesOf dents = r.visited ++ r.unread ++ entriesOf r.rest ∧
      (r.stop = none → r.unread = []) := by
  fun_induction scanStream childPid buffer dents s with
  | case1 e buffer dents s t why hvisit =>
    refine ⟨?_, rfl, ?_⟩
    · rw [scan, hvisit]
    · intro h
      cases h
  | case2 e buffer dents s t hvisit ih =>
    rcases ih with ⟨hscan, hsplit, hunread⟩
    refine ⟨?_, ?_, hunread⟩
    · rw [Scanned.push, scan_push hvisit]
      exact hscan
    · simp only [Scanned.push, List.cons_append, hsplit]
  | case3 s => exact ⟨rfl, rfl, fun _ => rfl⟩
  | case4 e dents s => exact ⟨rfl, rfl, fun _ => rfl⟩
  | case5 dents s => exact ⟨rfl, rfl, fun _ => rfl⟩
  | case6 e es dents s ih =>
    rcases ih with ⟨hscan, hsplit, hunread⟩
    exact ⟨hscan, hsplit, hunread⟩

/-- A stream that only the end of the directory ends is read to that end. -/
theorem scanStream_rest_eq_nil (childPid : Int) {dents : List Dents}
    (hdents : ∀ d ∈ dents, ∃ e es, d = .ok (e :: es)) (buffer : List Entry) (s : ScanState)
    (hstop : (scanStream childPid buffer dents s).stop = none) :
    (scanStream childPid buffer dents s).rest = [] ∧
      (scanStream childPid buffer dents s).readdirErr = none := by
  fun_induction scanStream childPid buffer dents s with
  | case1 e buffer dents s t why hvisit => cases hstop
  | case2 e buffer dents s t hvisit ih => exact ih hdents hstop
  | case3 s => exact ⟨rfl, rfl⟩
  | case4 e dents s =>
    obtain ⟨e', es', heq⟩ := hdents (.error e) (by simp)
    cases heq
  | case5 dents s =>
    obtain ⟨e', es', heq⟩ := hdents (.ok []) (by simp)
    cases heq
  | case6 e es dents s ih => exact ih (fun d hd => hdents d (by simp [hd])) hstop

theorem finish_eq_scanProc {r : Scanned} {childPid : Int} {out : List Out}
    (hscan : scan childPid r.visited ⟨0, 0, out⟩ = (r.state, r.stop)) (fork : Fork)
    (closedirErr : Option Errno) :
    r.finish closedirErr =
      scanProc ⟨none, fork, r.visited, r.readdirErr, closedirErr⟩ childPid out := by
  simp only [Scanned.finish, scanProc, hscan]
  cases r.stop <;> rfl

/-! ### Both processes -/

end LinuxPractice.Chap12.Pstree
