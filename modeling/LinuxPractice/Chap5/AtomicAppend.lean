import LinuxPractice.CLib.Bytes
import LinuxPractice.Kernel.File
import LinuxPractice.Kernel.Interleave

/-!
# `five-three/atomic-append.c`: instances that append to one file

Each instance opens the file and writes its buffer once: with `O_APPEND`, or, if its
last argument starts with `x`, at the offset that `lseek` found before.  Instances run
in any number and their system calls interleave.  The shared state is the content of the
file (an absent file is empty until `O_CREAT` makes it), with a record of the bytes that
were overwritten, which no instance reads.
-/

namespace LinuxPractice.Chap5

open LinuxPractice.CLib LinuxPractice.Kernel

def BUF_SIZE : Nat := 1000000

/-- The arguments behind the file name, and the bytes of `buf`, which the program never
    sets. -/
structure Instance where
  args : List Bytes
  buf : Nat → UInt8

/-- An open file: its `O_APPEND` flag and its offset. -/
structure Fd where
  append : Bool
  offset : Nat

/-- The system call that an instance makes next: `open`, the one behind it, `write` at
    the offset found, `close`, or none. -/
inductive Stage where
  | start
  | opened (fd : Fd)
  | seeked (fd : Fd)
  | written (numWrites : Nat)
  | exited (numWrites : Option Nat) (success : Bool)

/-- The number of bytes that an instance has printed as written. -/
def Stage.reported : Stage → Option Nat
  | .written numWrites => some numWrites
  | .exited numWrites _ => numWrites
  | _ => none

/-- How a system call ends; the number is the one that `write` returns. -/
inductive Answer where
  | fails
  | returns (numWrites : Nat)

namespace Instance

/-- `*argv[argc-1] == 'x'`. -/
def seekMode (path : Bytes) (p : Instance) : Bool :=
  (p.args.getLastD path).head? == some 120

/-- `argc < 3`, or the file name is `--help`. -/
def Misused (path : Bytes) (p : Instance) : Prop := p.args = [] ∨ path = bytes "--help"

instance (path : Bytes) (p : Instance) : Decidable (p.Misused path) :=
  inferInstanceAs (Decidable (_ ∨ _))

def block (p : Instance) (numWrites : Nat) : Bytes := (List.range numWrites).map p.buf

/-- `write` of `BUF_SIZE` bytes, for a file of length `size`: what comes next, and the
    offset and bytes that are stored. -/
def write (p : Instance) (size : Nat) (fd : Fd) : Answer → Option (Stage × Option (Nat × Bytes))
  | .fails => some (.exited none false, none)
  | .returns numWrites =>
    if numWrites ≤ BUF_SIZE then
      some (.written numWrites, some (if fd.append then size else fd.offset, p.block numWrites))
    else none

/-- The next system call of `main`, answered as for `write`. -/
def main (path : Bytes) (p : Instance) (size : Nat) :
    Stage → Answer → Option (Stage × Option (Nat × Bytes))
  | .start, answer =>
    if p.Misused path then some (.exited none false, none)
    else match answer with
      | .fails => some (.exited none false, none)
      | .returns _ => some (.opened ⟨!p.seekMode path, 0⟩, none)
  | .opened fd, answer =>
    if p.seekMode path then
      match answer, lseek size fd.offset 0 .SEEK_END with
      | .returns _, some fileOffset => some (.seeked { fd with offset := fileOffset }, none)
      | _, _ => some (.exited none false, none)
    else p.write size fd answer
  | .seeked fd, answer => p.write size fd answer
  | .written numWrites, .fails => some (.exited (some numWrites) false, none)
  | .written numWrites, .returns _ => some (.exited (some numWrites) true, none)
  | .exited _ _, _ => none

end Instance

/-- The file, and for each byte that was overwritten the instance that did it and the
    position. -/
structure Shared (ι : Type) where
  file : Bytes
  overwrites : List (ι × Nat)

variable {ι : Type}

def Shared.store (s : Shared ι) (i : ι) : Option (Nat × Bytes) → Shared ι
  | none => s
  | some (off, data) =>
    { file := writeAt s.file off data
      overwrites := s.overwrites ++
        (List.range' off (overwritten s.file off data)).map fun position => (i, position) }

def call (path : Bytes) (inst : ι → Instance) (i : ι) (s : Shared ι) (stage : Stage)
    (answer : Answer) : Option (Shared ι × Stage) :=
  ((inst i).main path s.file.length stage answer).map fun r => (s.store i r.2, r.1)

def start (content : Bytes) : Config (Shared ι) ι Stage := ⟨⟨content, []⟩, fun _ => .start⟩

/-! ### One instance -/

/-- The descriptor of an instance fits its mode, and its offset lies in the file: the
    offset that `lseek` found goes stale, but never behind the end. -/
def Stage.Valid (seek : Bool) (size : Nat) : Stage → Prop
  | .opened fd => fd.append = !seek
  | .seeked fd => seek = true ∧ fd.append = false ∧ fd.offset ≤ size
  | _ => True

variable {path : Bytes} {p : Instance} {size : Nat} {stage stage' : Stage} {answer : Answer}
  {stored : Option (Nat × Bytes)}

theorem Stage.Valid.mono {seek : Bool} {size' : Nat} (h : stage.Valid seek size)
    (hle : size ≤ size') : stage.Valid seek size' := by
  cases stage with
  | seeked fd => exact ⟨h.1, h.2.1, h.2.2.trans hle⟩
  | _ => exact h

theorem Instance.write_cases {fd : Fd} (h : p.write size fd answer = some (stage', stored)) :
    (stage' = .exited none false ∧ stored = none) ∨
      ∃ numWrites, stage' = .written numWrites ∧
        stored = some (if fd.append then size else fd.offset, p.block numWrites) := by
  cases answer with
  | fails =>
    cases h
    exact Or.inl ⟨rfl, rfl⟩
  | returns numWrites =>
    simp only [Instance.write] at h
    split at h
    · cases h
      exact Or.inr ⟨numWrites, rfl, rfl⟩
    · cases h

/-- A call either stores nothing and leaves the report, or it is the one `write`: the
    instance reports what it stores, and without `x` it stores at the end. -/
theorem Instance.main_cases (hvalid : stage.Valid (p.seekMode path) size)
    (h : p.main path size stage answer = some (stage', stored)) :
    (stored = none ∧ stage'.reported = stage.reported ∧ stage'.Valid (p.seekMode path) size) ∨
      ∃ off numWrites, stored = some (off, p.block numWrites) ∧ stage' = .written numWrites ∧
        stage.reported = none ∧ off ≤ size ∧ (p.seekMode path = false → off = size) := by
  cases stage with
  | start =>
    left
    simp only [Instance.main] at h
    split at h
    · cases h
      exact ⟨rfl, rfl, trivial⟩
    · cases answer <;> cases h <;> exact ⟨rfl, rfl, by simp [Stage.Valid]⟩
  | opened fd =>
    simp only [Instance.main] at h
    split at h
    · rename_i hseek
      left
      split at h
      · rename_i fileOffset hlseek
        cases h
        have hend : fileOffset = size := by simpa [lseek] using hlseek.symm
        have hvalid : fd.append = false := by simpa [Stage.Valid, hseek] using hvalid
        exact ⟨rfl, rfl, hseek, hvalid, Nat.le_of_eq hend⟩
      · cases h
        exact ⟨rfl, rfl, trivial⟩
    · rename_i hseek
      have happend : fd.append = true := by simpa [Stage.Valid, hseek] using hvalid
      rcases Instance.write_cases h with ⟨rfl, rfl⟩ | ⟨numWrites, rfl, rfl⟩
      · exact Or.inl ⟨rfl, rfl, trivial⟩
      · refine Or.inr ⟨size, numWrites, ?_, rfl, rfl, Nat.le_refl size, fun _ => rfl⟩
        rw [if_pos happend]
  | seeked fd =>
    obtain ⟨hseek, happend, hoffset⟩ := hvalid
    rcases Instance.write_cases h with ⟨rfl, rfl⟩ | ⟨numWrites, rfl, rfl⟩
    · exact Or.inl ⟨rfl, rfl, trivial⟩
    · refine Or.inr ⟨fd.offset, numWrites, ?_, rfl, rfl, hoffset, fun hnot => ?_⟩
      · simp [happend]
      · simp [hseek] at hnot
  | written numWrites =>
    left
    cases answer <;> cases h <;> exact ⟨rfl, rfl, trivial⟩
  | exited numWrites success => cases h

/-! ### The shared file -/

variable {inst : ι → Instance} {i : ι} {s s' : Shared ι}

theorem length_store_add (s : Shared ι) (i : ι) {off : Nat} (hoff : off ≤ s.file.length)
    (data : Bytes) :
    (s.store i (some (off, data))).file.length + (s.store i (some (off, data))).overwrites.length =
      s.file.length + s.overwrites.length + data.length := by
  have hlen := length_writeAt_add hoff data
  simp only [Shared.store, List.length_append, List.length_map, List.length_range']
  omega

theorem file_store_end (s : Shared ι) (i : ι) (data : Bytes) :
    (s.store i (some (s.file.length, data))).file = s.file ++ data := writeAt_length _ _

theorem overwrites_store_end (s : Shared ι) (i : ι) (data : Bytes) :
    (s.store i (some (s.file.length, data))).overwrites = s.overwrites := by
  simp [Shared.store, overwritten]

theorem call_cases (hvalid : stage.Valid ((inst i).seekMode path) s.file.length)
    (h : call path inst i s stage answer = some (s', stage')) :
    (s' = s ∧ stage'.reported = stage.reported ∧
        stage'.Valid ((inst i).seekMode path) s.file.length) ∨
      ∃ off numWrites, s' = s.store i (some (off, (inst i).block numWrites)) ∧
        stage' = .written numWrites ∧ stage.reported = none ∧ off ≤ s.file.length ∧
        ((inst i).seekMode path = false → off = s.file.length) := by
  obtain ⟨⟨stage', stored⟩, hmain, heq⟩ := Option.map_eq_some_iff.mp h
  cases heq
  rcases Instance.main_cases hvalid hmain with ⟨rfl, hrest⟩ | ⟨off, numWrites, rfl, hrest⟩
  · exact Or.inl ⟨rfl, hrest⟩
  · exact Or.inr ⟨off, numWrites, rfl, hrest⟩

theorem length_le_of_call (hvalid : stage.Valid ((inst i).seekMode path) s.file.length)
    (h : call path inst i s stage answer = some (s', stage')) :
    s.file.length ≤ s'.file.length := by
  rcases call_cases hvalid h with ⟨rfl, -⟩ | ⟨off, numWrites, rfl, -, -, hoff, -⟩
  · exact Nat.le_refl _
  · exact length_le_writeAt hoff _

theorem account_of_call (hvalid : stage.Valid ((inst i).seekMode path) s.file.length)
    (h : call path inst i s stage answer = some (s', stage')) :
    s'.file.length + s'.overwrites.length + stage.reported.getD 0 =
      s.file.length + s.overwrites.length + stage'.reported.getD 0 := by
  rcases call_cases hvalid h with ⟨rfl, hreported, -⟩ | ⟨off, numWrites, rfl, rfl, hnone, hoff, -⟩
  · rw [hreported]
  · rw [length_store_add s i hoff, hnone]
    simp [Instance.block, Stage.reported]

def blocks (inst : ι → Instance) (proc : ι → Stage) (order : List ι) : Bytes :=
  order.flatMap fun i => (inst i).block ((proc i).reported.getD 0)

theorem blocks_congr {proc proc' : ι → Stage} {order : List ι}
    (h : ∀ i ∈ order, (proc' i).reported = (proc i).reported) :
    blocks inst proc' order = blocks inst proc order :=
  List.flatMap_congr fun i hi => by rw [h i hi]

/-! ### All interleavings -/

variable [DecidableEq ι] {content : Bytes} {c : Config (Shared ι) ι Stage}

theorem valid_of_reachable (h : Reachable (call path inst) (start content) c) (i : ι) :
    (c.proc i).Valid ((inst i).seekMode path) c.shared.file.length := by
  refine h.assertion (fun i s stage => stage.Valid ((inst i).seekMode path) s.file.length)
    (fun _ => trivial) ?_ ?_ i
  · intro i s stage answer s' stage' hvalid hcall
    rcases call_cases hvalid hcall with ⟨rfl, -, hvalid'⟩ | ⟨off, numWrites, -, rfl, -⟩
    · exact hvalid'
    · trivial
  · intro i s stage answer s' stage' hvalid hcall j other hother
    exact hother.mono (length_le_of_call hvalid hcall)

theorem conserved_of_reachable [Fintype ι] (h : Reachable (call path inst) (start content) c) :
    c.shared.file.length + c.shared.overwrites.length =
      content.length + ∑ i, (c.proc i).reported.getD 0 := by
  have hsum := Reachable.conserved (fun s => s.file.length + s.overwrites.length)
    (fun stage => stage.reported.getD 0) valid_of_reachable account_of_call h
  simpa [start, Stage.reported] using hsum

theorem seekMode_of_overwrites (h : Reachable (call path inst) (start content) c) :
    ∀ e ∈ c.shared.overwrites, (inst e.1).seekMode path = true := by
  induction h with
  | start => simp [start]
  | @step c c' i answer hreach hstep ih =>
    obtain ⟨s, stage, hcall, rfl⟩ := Config.step_eq_some hstep
    rcases call_cases (valid_of_reachable hreach i) hcall with
      ⟨rfl, -⟩ | ⟨off, numWrites, rfl, -, -, -, hend⟩
    · exact ih
    · intro e he
      cases hseek : (inst i).seekMode path with
      | false =>
        rw [hend hseek, overwrites_store_end] at he
        exact ih e he
      | true =>
        rcases List.mem_append.mp he with he | he
        · exact ih e he
        · obtain ⟨position, -, rfl⟩ := List.mem_map.mp he
          exact hseek

/-- Without `x` the file is the old content and the blocks of the instances, in the order
    in which they wrote. -/
theorem file_of_reachable (h : Reachable (call path inst) (start content) c)
    (happend : ∀ i, (inst i).seekMode path = false) :
    ∃ order : List ι, order.Nodup ∧ (∀ i, i ∈ order ↔ (c.proc i).reported.isSome) ∧
      c.shared.file = content ++ blocks inst c.proc order := by
  induction h with
  | start => exact ⟨[], List.nodup_nil, by simp [start, Stage.reported], by simp [start, blocks]⟩
  | @step c c' i answer hreach hstep ih =>
    obtain ⟨s, stage, hcall, rfl⟩ := Config.step_eq_some hstep
    obtain ⟨order, hnodup, hmem, hfile⟩ := ih
    rcases call_cases (valid_of_reachable hreach i) hcall with
      ⟨rfl, hreported, -⟩ | ⟨off, numWrites, rfl, rfl, hnone, -, hend⟩
    · have hsame : ∀ j, (Function.update c.proc i stage j).reported = (c.proc j).reported := by
        intro j
        by_cases hj : j = i
        · rw [hj, Function.update_self, hreported]
        · rw [Function.update_of_ne hj]
      refine ⟨order, hnodup, ?_, ?_⟩
      · intro j
        rw [hmem, hsame]
      · rw [blocks_congr fun j _ => hsame j]
        exact hfile
    · -- `i` writes behind the blocks of the instances that wrote before
      have hnew : i ∉ order := by simp [hmem, hnone]
      have hothers : ∀ j ∈ order, (Function.update c.proc i (.written numWrites) j).reported =
          (c.proc j).reported := by
        intro j hj
        rw [Function.update_of_ne (ne_of_mem_of_not_mem hj hnew)]
      refine ⟨order ++ [i], ?_, ?_, ?_⟩
      · rw [← List.concat_eq_append]
        exact hnodup.concat hnew
      · intro j
        by_cases hj : j = i
        · simp [hj, Stage.reported]
        · simp [hj, hmem]
      · have hblocks : blocks inst (Function.update c.proc i (.written numWrites)) (order ++ [i]) =
            blocks inst c.proc order ++ (inst i).block numWrites := by
          rw [← blocks_congr hothers]
          simp [blocks, Stage.reported]
        rw [hend (happend i), file_store_end, hfile, hblocks, List.append_assoc]

/-- For every family of instances, every content and every interleaving of their calls. -/
theorem reachable_conserves [Fintype ι] (h : Reachable (call path inst) (start content) c) :
    c.shared.file.length + c.shared.overwrites.length =
        content.length + ∑ i, (c.proc i).reported.getD 0 ∧
      (∀ e ∈ c.shared.overwrites, (inst e.1).seekMode path = true) ∧
      ((∀ i, (inst i).seekMode path = false) →
        c.shared.file.length = content.length + ∑ i, (c.proc i).reported.getD 0 ∧
        ∃ order : List ι, order.Nodup ∧ (∀ i, i ∈ order ↔ (c.proc i).reported.isSome) ∧
          c.shared.file = content ++ blocks inst c.proc order) := by
  have hsum := conserved_of_reachable h
  have hseek := seekMode_of_overwrites h
  refine ⟨hsum, hseek, ?_⟩
  intro happend
  have hnone : c.shared.overwrites = [] := by
    apply List.eq_nil_iff_forall_not_mem.mpr
    intro e he
    have hboth := hseek e he
    rw [happend] at hboth
    cases hboth
  rw [hnone] at hsum
  exact ⟨hsum, file_of_reachable h happend⟩

def pair (i : Fin 2) : Instance := ⟨if i = 0 then [[49], [120]] else [[49]], fun _ => 97⟩

/-- The first instance finds the end, the second appends two bytes, and the first
    overwrites one of them. -/
def staleRun : Option (Config (Shared (Fin 2)) (Fin 2) Stage) :=
  (start [98]).run (call [102] pair)
    [(0, .returns 0), (0, .returns 0), (1, .returns 0), (1, .returns 2), (0, .returns 1),
      (0, .returns 0), (1, .returns 0)]

theorem reachable_conserves_stale : ∃ c, Reachable (call [102] pair) (start [98]) c ∧
    c.shared.overwrites = [(0, 1)] ∧ c.shared.file.length + c.shared.overwrites.length =
      1 + ∑ i, (c.proc i).reported.getD 0 := by
  have hends : staleRun.isSome := by decide
  have hlost : staleRun.map (fun c => c.shared.overwrites) = some [(0, 1)] := by decide
  obtain ⟨c, hrun⟩ := Option.isSome_iff_exists.mp hends
  have hreach : Reachable (call [102] pair) (start [98]) c := Reachable.start.of_run hrun
  rw [hrun] at hlost
  exact ⟨c, hreach, Option.some.inj hlost, (reachable_conserves hreach).1⟩

end LinuxPractice.Chap5
