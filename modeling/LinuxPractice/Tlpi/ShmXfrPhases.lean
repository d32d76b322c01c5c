import LinuxPractice.Tlpi.ShmXfr

/-!
# The phases of a transfer through shared memory

At any time the segment belongs to one of the two processes, or is on its way from one to
the other.  A phase says what is in it, which values the semaphores have and where the
processes can be; a step of either process leads from a phase to a phase.
-/

namespace LinuxPractice.Tlpi.ShmXfr

open LinuxPractice.CLib LinuxPractice.Kernel

/-! ### Whose turn it is -/

/-- The values of `xfrs` and `bytes` for what was written out so far. -/
def Shared.xfrs (s : Shared) : Int := wrapInt s.stdout.length

def Shared.bytes (s : Shared) : Int := wrapInt s.stdout.flatten.length

/-- The block in the segment. -/
def Shared.block (s : Shared) : Bytes := s.buf.take s.cnt.toNat

/-- The block in the segment is read and not yet written out; an empty one tells that
    the input is at its end. -/
structure Loaded (input : Bytes) (s : Shared) : Prop where
  length_block : (s.block.length : Int) = s.cnt
  data : s.stdout.flatten ++ s.block ++ s.stdin.data = input
  eof : s.cnt = 0 → s.stdin.data = []

/-- The reader waits for a block. -/
inductive Waiting (s : Shared) : Reader → Prop
  | semget : s.stdout = [] → Waiting s .semget
  | shmget : s.stdout = [] → Waiting s .shmget
  | shmat : s.stdout = [] → Waiting s .shmat
  | reserve : Waiting s (.reserve s.xfrs s.bytes)

/-- The writer sets things up, or it is its turn to fill the segment. -/
inductive Filling (s : Shared) : Writer → Prop
  | semget : s.sems = none → s.segment = false → s.stdout = [] → Filling s .semget
  | initSemAvailable : s.sems = some (0, 0) → s.stdout = [] → Filling s .initSemAvailable
  | initSemInUse : s.sems = some (1, 0) → s.stdout = [] → Filling s .initSemInUse
  | shmget : s.sems = some (1, 0) → s.stdout = [] → Filling s .shmget
  | shmat : s.sems = some (1, 0) → s.stdout = [] → Filling s .shmat
  | reserve : s.sems = some (1, 0) → Filling s (.reserve s.xfrs s.bytes)
  | read : s.sems = some (0, 0) → Filling s (.read s.xfrs s.bytes)
  /-- The reader has been faster: the block that the writer asks about is gone. -/
  | test {xfrs bytes : Int} : s.sems = some (1, 0) → s.cnt ≠ 0 → wrapInt (xfrs + 1) = s.xfrs →
      wrapInt (bytes + s.cnt) = s.bytes → Filling s (.test xfrs bytes)

/-- The writer has handed the segment over, and the block in it is not written out. -/
inductive Offered (s : Shared) : Writer → Prop
  | test : Offered s (.test s.xfrs s.bytes)
  | reserve : s.cnt ≠ 0 →
      Offered s (.reserve (wrapInt (s.xfrs + 1)) (wrapInt (s.bytes + s.cnt)))
  | reserveLast : s.cnt = 0 → Offered s (.reserveLast s.xfrs s.bytes)

/-- The writer has handed the segment over, and the block in it is written out. -/
inductive Delivered (s : Shared) : Writer → Prop
  | test {xfrs bytes : Int} : s.cnt ≠ 0 → wrapInt (xfrs + 1) = s.xfrs →
      wrapInt (bytes + s.cnt) = s.bytes → Delivered s (.test xfrs bytes)
  | reserve : Delivered s (.reserve s.xfrs s.bytes)

/-- The writer has handed the segment over to a reader that does not give it back. -/
inductive Blocked : Writer → Prop
  | test {xfrs bytes : Int} : Blocked (.test xfrs bytes)
  | reserve {xfrs bytes : Int} : Blocked (.reserve xfrs bytes)
  | reserveLast {xfrs bytes : Int} : Blocked (.reserveLast xfrs bytes)

/-- The writer knows, or is about to know, that the reader has ended. -/
inductive Closing (s : Shared) : Writer → Prop
  | test : s.sems = some (1, 0) → s.cnt = 0 → Closing s (.test s.xfrs s.bytes)
  | reserveLast : s.sems = some (1, 0) → Closing s (.reserveLast s.xfrs s.bytes)
  | semctl : Closing s (.semctl s.xfrs s.bytes)
  | shmdt : Closing s (.shmdt s.xfrs s.bytes)
  | shmctl : Closing s (.shmctl s.xfrs s.bytes)
  | sent : Closing s (.sent s.xfrs s.bytes)

/-- The phases of a transfer of `input`. -/
inductive Phase (input : Bytes) (s : Shared) : Writer → Reader → Prop
  | filling {w : Writer} {r : Reader} : s.stdout.flatten ++ s.stdin.data = input → Filling s w →
      Waiting s r → Phase input s w r
  | loaded {r : Reader} : Loaded input s → s.sems = some (0, 0) → Waiting s r →
      Phase input s (.release s.xfrs s.bytes) r
  | offered {w : Writer} {r : Reader} : Loaded input s → s.sems = some (0, 1) → Offered s w →
      Waiting s r → Phase input s w r
  | testing {w : Writer} : Loaded input s → s.sems = some (0, 0) → Offered s w →
      Phase input s w (.test s.xfrs s.bytes)
  | writing {w : Writer} : Loaded input s → s.sems = some (0, 0) → s.cnt ≠ 0 → Offered s w →
      Phase input s w (.write s.xfrs (wrapInt (s.bytes + s.cnt)))
  | delivered {w : Writer} {xfrs : Int} : s.stdout.flatten ++ s.stdin.data = input →
      s.sems = some (0, 0) → Delivered s w → wrapInt (xfrs + 1) = s.xfrs →
      Phase input s w (.release xfrs s.bytes)
  | torn {w : Writer} : s.stdout.flatten <+: input → s.sems = some (0, 0) → Blocked w →
      Phase input s w .torn
  | detaching {w : Writer} : s.stdout.flatten = input → s.sems = some (0, 0) → s.cnt = 0 →
      Offered s w → Phase input s w (.shmdt s.xfrs s.bytes)
  | leaving {w : Writer} : s.stdout.flatten = input → s.sems = some (0, 0) → s.cnt = 0 →
      Offered s w → Phase input s w (.releaseLast s.xfrs s.bytes)
  | closing {w : Writer} : s.stdout.flatten = input → Closing s w →
      Phase input s w (.received s.xfrs s.bytes)

variable {input : Bytes} {s s' : Shared} {w w' : Writer} {r r' : Reader} {answer : Answer}
  {error : Option String}

theorem xfrs_congr (hout : s'.stdout = s.stdout) : s'.xfrs = s.xfrs := by
  rw [Shared.xfrs, hout, Shared.xfrs]

theorem bytes_congr (hout : s'.stdout = s.stdout) : s'.bytes = s.bytes := by
  rw [Shared.bytes, hout, Shared.bytes]

theorem Waiting.congr (h : Waiting s r) (hout : s'.stdout = s.stdout) : Waiting s' r := by
  have hxfrs := xfrs_congr hout
  have hbytes := bytes_congr hout
  cases h with
  | semget hnil => exact .semget (hout.trans hnil)
  | shmget hnil => exact .shmget (hout.trans hnil)
  | shmat hnil => exact .shmat (hout.trans hnil)
  | reserve =>
    rw [← hxfrs, ← hbytes]
    exact .reserve

theorem Offered.congr (h : Offered s w) (hout : s'.stdout = s.stdout) (hcnt : s'.cnt = s.cnt) :
    Offered s' w := by
  have hxfrs := xfrs_congr hout
  have hbytes := bytes_congr hout
  cases h with
  | test =>
    rw [← hxfrs, ← hbytes]
    exact .test
  | reserve hne =>
    rw [← hxfrs, ← hbytes, ← hcnt]
    exact .reserve (hcnt ▸ hne)
  | reserveLast hzero =>
    rw [← hxfrs, ← hbytes]
    exact .reserveLast (hcnt.trans hzero)

/-- Nothing was written out before the loop. -/
theorem counts_of_nil (h : s.stdout = []) : s.xfrs = 0 ∧ s.bytes = 0 := by
  rw [Shared.xfrs, Shared.bytes, h]
  exact ⟨rfl, rfl⟩

theorem Waiting.of_nil (h : s.stdout = []) : Waiting s (.reserve 0 0) := by
  have hreserve : Waiting s (.reserve s.xfrs s.bytes) := .reserve
  rwa [(counts_of_nil h).1, (counts_of_nil h).2] at hreserve

theorem Filling.of_nil (h : s.stdout = []) (hsems : s.sems = some (1, 0)) :
    Filling s (.reserve 0 0) := by
  have hreserve : Filling s (.reserve s.xfrs s.bytes) := .reserve hsems
  rwa [(counts_of_nil h).1, (counts_of_nil h).2] at hreserve

/-! ### The steps of the writer -/

variable {bufSize : Nat}

/-- A writer that has handed the segment over cannot go beyond its `reserveSem`. -/
theorem Offered.step (h : Offered s w) (hsems : ∃ v, s.sems = some (0, v))
    (hstep : writerStep bufSize s w answer = some (s', w', error)) : s' = s ∧ Offered s w' := by
  rcases hsems with ⟨v, hsems⟩
  cases h with
  | test =>
    cases hstep
    refine ⟨rfl, ?_⟩
    split
    · exact .reserveLast ‹_›
    · exact .reserve ‹_›
  | reserve hne =>
    obtain ⟨rfl, rfl⟩ := reserveWrite_of_zero hsems hstep
    exact ⟨rfl, .reserve hne⟩
  | reserveLast hzero =>
    obtain ⟨rfl, rfl⟩ := reserveWrite_of_zero hsems hstep
    exact ⟨rfl, .reserveLast hzero⟩

theorem Delivered.step (h : Delivered s w) (hsems : s.sems = some (0, 0))
    (hstep : writerStep bufSize s w answer = some (s', w', error)) : s' = s ∧ Delivered s w' := by
  cases h with
  | test hne hxfrs hbytes =>
    cases hstep
    refine ⟨rfl, ?_⟩
    rw [if_neg hne, hxfrs, hbytes]
    exact .reserve
  | reserve =>
    obtain ⟨rfl, rfl⟩ := reserveWrite_of_zero hsems hstep
    exact ⟨rfl, .reserve⟩

theorem Offered.blocked (h : Offered s w) : Blocked w := by
  cases h with
  | test => exact .test
  | reserve => exact .reserve
  | reserveLast => exact .reserveLast

theorem Blocked.step (h : Blocked w) (hsems : s.sems = some (0, 0))
    (hstep : writerStep bufSize s w answer = some (s', w', error)) : s' = s ∧ Blocked w' := by
  cases h with
  | test =>
    cases hstep
    refine ⟨rfl, ?_⟩
    split
    · exact .reserveLast
    · exact .reserve
  | reserve =>
    obtain ⟨rfl, rfl⟩ := reserveWrite_of_zero hsems hstep
    exact ⟨rfl, .reserve⟩
  | reserveLast =>
    obtain ⟨rfl, rfl⟩ := reserveWrite_of_zero hsems hstep
    exact ⟨rfl, .reserveLast⟩

theorem Closing.step (h : Closing s w)
    (hstep : writerStep bufSize s w answer = some (s', w', error)) :
    s'.stdout = s.stdout ∧ Closing s' w' := by
  cases h with
  | test hsems hzero =>
    cases hstep
    rw [if_pos hzero]
    exact ⟨rfl, .reserveLast hsems⟩
  | reserveLast hsems =>
    rcases reserveSem_cases hstep with ⟨rfl, rfl⟩ | ⟨v, -, -, rfl, rfl⟩
    · exact ⟨rfl, .reserveLast hsems⟩
    · exact ⟨rfl, .semctl⟩
  | semctl =>
    simp only [writerStep] at hstep
    rcases simpleCall_cases hstep with ⟨rfl, rfl⟩ | ⟨rfl, rfl⟩
    · exact ⟨rfl, .semctl⟩
    · exact ⟨rfl, .shmdt⟩
  | shmdt =>
    simp only [writerStep] at hstep
    rcases simpleCall_cases hstep with ⟨rfl, rfl⟩ | ⟨rfl, rfl⟩
    · exact ⟨rfl, .shmdt⟩
    · exact ⟨rfl, .shmctl⟩
  | shmctl =>
    simp only [writerStep] at hstep
    rcases simpleCall_cases hstep with ⟨rfl, rfl⟩ | ⟨rfl, rfl⟩
    · exact ⟨rfl, .shmctl⟩
    · exact ⟨rfl, .sent⟩
  | sent => cases hstep

/-- The writer's turn ends with a block in the segment. -/
theorem loaded_of_read {block : Bytes} {stdin : Input UInt8 Errno} (hpos : 0 < bufSize)
    (hdata : s.stdout.flatten ++ s.stdin.data = input)
    (hread : s.stdin.read bufSize = (.ok block, stdin)) :
    Loaded input { s with stdin, cnt := block.length, buf := block ++ s.buf.drop block.length } := by
  obtain ⟨happend, -, hnil, -⟩ := Input.of_read_ok hread
  have hblock : Shared.block
      { s with stdin, cnt := block.length, buf := block ++ s.buf.drop block.length } = block := by
    simp [Shared.block]
  constructor
  · rw [hblock]
  · rw [hblock, List.append_assoc, ← happend]
    exact hdata
  · intro hzero
    have hempty : block = [] := List.length_eq_zero_iff.mp (Int.ofNat_inj.mp hzero)
    subst hempty
    rcases hnil rfl with hzero' | hend
    · omega
    · simpa [hend] using happend.symm

theorem Filling.step (hpos : 0 < bufSize) (h : Filling s w)
    (hdata : s.stdout.flatten ++ s.stdin.data = input) (hwait : Waiting s r)
    (hstep : writerStep bufSize s w answer = some (s', w', error)) : Phase input s' w' r := by
  cases h with
  | semget hsems hseg hnil =>
    simp only [writerStep] at hstep
    rcases simpleCall_cases hstep with ⟨rfl, rfl⟩ | ⟨rfl, rfl⟩
    · exact .filling hdata (.semget hsems hseg hnil) hwait
    · refine .filling hdata (.initSemAvailable ?_ hnil) (hwait.congr rfl)
      simp [hsems]
  | initSemAvailable hsems hnil =>
    simp only [writerStep] at hstep
    rcases simpleCall_cases hstep with ⟨rfl, rfl⟩ | ⟨rfl, rfl⟩
    · exact .filling hdata (.initSemAvailable hsems hnil) hwait
    · refine .filling hdata (.initSemInUse ?_ hnil) (hwait.congr rfl)
      simp [hsems]
  | initSemInUse hsems hnil =>
    simp only [writerStep] at hstep
    rcases simpleCall_cases hstep with ⟨rfl, rfl⟩ | ⟨rfl, rfl⟩
    · exact .filling hdata (.initSemInUse hsems hnil) hwait
    · refine .filling hdata (.shmget ?_ hnil) (hwait.congr rfl)
      simp [hsems]
  | shmget hsems hnil =>
    simp only [writerStep] at hstep
    rcases simpleCall_cases hstep with ⟨rfl, rfl⟩ | ⟨rfl, rfl⟩
    · exact .filling hdata (.shmget hsems hnil) hwait
    · split
      · exact .filling hdata (.shmat hsems hnil) hwait
      · exact .filling hdata (.shmat hsems hnil) (hwait.congr rfl)
  | shmat hsems hnil =>
    simp only [writerStep] at hstep
    rcases simpleCall_cases hstep with ⟨rfl, rfl⟩ | ⟨rfl, rfl⟩
    · exact .filling hdata (.shmat hsems hnil) hwait
    · exact .filling hdata (.of_nil hnil hsems) hwait
  | reserve hsems =>
    rcases reserveSem_cases hstep with ⟨rfl, rfl⟩ | ⟨v, heq, -, rfl, rfl⟩
    · exact .filling hdata (.reserve hsems) hwait
    · rw [hsems] at heq
      cases heq
      exact .filling hdata (.read rfl) (hwait.congr rfl)
  | read hsems =>
    simp only [writerStep] at hstep
    split at hstep
    · rename_i hread
      cases hstep
      have hstdin := (Input.of_read_error hread).1
      exact .filling (by rw [hstdin]; exact hdata) (.read hsems) (hwait.congr rfl)
    · rename_i hread
      cases hstep
      exact .loaded (loaded_of_read hpos hdata hread) hsems (hwait.congr rfl)
  | test hsems hne hxfrs hbytes =>
    cases hstep
    rw [if_neg hne, hxfrs, hbytes]
    exact .filling hdata (.reserve hsems) hwait

theorem Phase.writer (hpos : 0 < bufSize) (h : Phase input s w r)
    (hstep : writerStep bufSize s w answer = some (s', w', error)) : Phase input s' w' r := by
  cases h with
  | filling hdata hfilling hwait => exact hfilling.step hpos hdata hwait hstep
  | loaded hloaded hsems hwait =>
    rcases releaseSem_cases hstep with ⟨rfl, rfl⟩ | ⟨v, heq, rfl, rfl⟩
    · exact .loaded hloaded hsems hwait
    · rw [hsems] at heq
      cases heq
      exact .offered ⟨hloaded.length_block, hloaded.data, hloaded.eof⟩ rfl .test (hwait.congr rfl)
  | offered hloaded hsems hoffered hwait =>
    obtain ⟨rfl, hoffered'⟩ := hoffered.step ⟨1, hsems⟩ hstep
    exact .offered hloaded hsems hoffered' hwait
  | testing hloaded hsems hoffered =>
    obtain ⟨rfl, hoffered'⟩ := hoffered.step ⟨0, hsems⟩ hstep
    exact .testing hloaded hsems hoffered'
  | writing hloaded hsems hne hoffered =>
    obtain ⟨rfl, hoffered'⟩ := hoffered.step ⟨0, hsems⟩ hstep
    exact .writing hloaded hsems hne hoffered'
  | delivered hdata hsems hdelivered hxfrs =>
    obtain ⟨rfl, hdelivered'⟩ := hdelivered.step hsems hstep
    exact .delivered hdata hsems hdelivered' hxfrs
  | torn hprefix hsems hblocked =>
    obtain ⟨rfl, hblocked'⟩ := hblocked.step hsems hstep
    exact .torn hprefix hsems hblocked'
  | detaching hout hsems hzero hoffered =>
    obtain ⟨rfl, hoffered'⟩ := hoffered.step ⟨0, hsems⟩ hstep
    exact .detaching hout hsems hzero hoffered'
  | leaving hout hsems hzero hoffered =>
    obtain ⟨rfl, hoffered'⟩ := hoffered.step ⟨0, hsems⟩ hstep
    exact .leaving hout hsems hzero hoffered'
  | closing hout hclosing =>
    obtain ⟨hstdout, hclosing'⟩ := hclosing.step hstep
    rw [← xfrs_congr hstdout, ← bytes_congr hstdout]
    exact .closing (by rw [hstdout]; exact hout) hclosing'

/-! ### The steps of the reader -/

theorem Waiting.step (h : Waiting s r) (hstep : readerStep s r answer = some (s', r', error)) :
    (s' = s ∧ Waiting s r') ∨
      ∃ v, s.sems = some v ∧ 0 < v.2 ∧ s' = { s with sems := some (v.1, v.2 - 1) } ∧
        r' = .test s.xfrs s.bytes := by
  cases h with
  | semget hnil =>
    simp only [readerStep] at hstep
    split at hstep
    · cases hstep
      exact .inl ⟨rfl, .semget hnil⟩
    · rcases simpleCall_cases hstep with ⟨rfl, rfl⟩ | ⟨rfl, rfl⟩
      · exact .inl ⟨rfl, .semget hnil⟩
      · exact .inl ⟨rfl, .shmget hnil⟩
  | shmget hnil =>
    simp only [readerStep] at hstep
    split at hstep
    · cases hstep
      exact .inl ⟨rfl, .shmget hnil⟩
    · rcases simpleCall_cases hstep with ⟨rfl, rfl⟩ | ⟨rfl, rfl⟩
      · exact .inl ⟨rfl, .shmget hnil⟩
      · exact .inl ⟨rfl, .shmat hnil⟩
  | shmat hnil =>
    rcases simpleCall_cases hstep with ⟨rfl, rfl⟩ | ⟨rfl, rfl⟩
    · exact .inl ⟨rfl, .shmat hnil⟩
    · exact .inl ⟨rfl, .of_nil hnil⟩
  | reserve =>
    rcases reserveSem_cases hstep with ⟨rfl, rfl⟩ | ⟨v, hsems, hpos, rfl, rfl⟩
    · exact .inl ⟨rfl, .reserve⟩
    · exact .inr ⟨v, hsems, hpos, rfl, rfl⟩

/-- The reader waits as long as `READ_SEM` is 0. -/
theorem Waiting.step_of_zero (h : Waiting s r) (hsems : ∀ v, s.sems = some v → v.2 = 0)
    (hstep : readerStep s r answer = some (s', r', error)) : s' = s ∧ Waiting s r' := by
  rcases h.step hstep with hstays | ⟨v, heq, hpos, -⟩
  · exact hstays
  · have hzero := hsems v heq
    omega

theorem Filling.read_sem (h : Filling s w) : ∀ v, s.sems = some v → v.2 = 0 := by
  intro v heq
  cases h <;> simp_all <;> simp [← heq]

theorem Delivered.filling (h : Delivered s w) (hsems : s'.sems = some (1, 0))
    (hout : s'.stdout = s.stdout) (hcnt : s'.cnt = s.cnt) : Filling s' w := by
  have hxfrs := xfrs_congr hout
  have hbytes := bytes_congr hout
  cases h with
  | test hne hx hb => exact .test hsems (hcnt ▸ hne) (hx.trans hxfrs.symm) (by rw [hcnt, hb, hbytes])
  | reserve =>
    rw [← hxfrs, ← hbytes]
    exact .reserve hsems

theorem Offered.closing (h : Offered s w) (hzero : s.cnt = 0) (hsems : s'.sems = some (1, 0))
    (hout : s'.stdout = s.stdout) (hcnt : s'.cnt = s.cnt) : Closing s' w := by
  have hxfrs := xfrs_congr hout
  have hbytes := bytes_congr hout
  cases h with
  | test =>
    rw [← hxfrs, ← hbytes]
    exact .test hsems (hcnt.trans hzero)
  | reserve hne => exact absurd hzero hne
  | reserveLast =>
    rw [← hxfrs, ← hbytes]
    exact .reserveLast hsems

/-- A block that is written out in full counts. -/
theorem counts_append (s : Shared) (block : Bytes) :
    Shared.xfrs { s with stdout := s.stdout ++ [block] } = wrapInt (s.xfrs + 1) ∧
      Shared.bytes { s with stdout := s.stdout ++ [block] } = wrapInt (s.bytes + block.length) := by
  simp only [Shared.xfrs, Shared.bytes, wrapInt, List.length_append, List.length_singleton,
    List.flatten_append, List.flatten_singleton, Nat.cast_add, Nat.cast_one, Int.bmod_add_bmod]
  exact ⟨trivial, trivial⟩

theorem Offered.delivered (h : Offered s w) (hne : s.cnt ≠ 0)
    (hlen : (s.block.length : Int) = s.cnt) :
    Delivered { s with stdout := s.stdout ++ [s.block] } w := by
  obtain ⟨hxfrs, hbytes⟩ := counts_append s s.block
  rw [hlen] at hbytes
  cases h with
  | test => exact .test hne hxfrs.symm hbytes.symm
  | reserve =>
    rw [← hxfrs, ← hbytes]
    exact .reserve
  | reserveLast hzero => exact absurd hzero hne

/-- A part of the block that is written out continues what was written before. -/
theorem Loaded.torn (h : Loaded input s) {n : Nat} (hlt : (n : Int) < s.cnt) :
    (s.stdout ++ [s.buf.take n]).flatten <+: input := by
  have htake : s.buf.take n = s.block.take n := by
    rw [Shared.block, List.take_take, Nat.min_eq_left (by omega)]
  refine ⟨s.block.drop n ++ s.stdin.data, ?_⟩
  rw [List.flatten_append, List.flatten_singleton, htake, List.append_assoc,
    ← List.append_assoc (List.take n _), List.take_append_drop, ← List.append_assoc]
  exact h.data

theorem Phase.write (hloaded : Loaded input s) (hsems : s.sems = some (0, 0)) (hne : s.cnt ≠ 0)
    (hoffered : Offered s w)
    (hstep : readerStep s (.write s.xfrs (wrapInt (s.bytes + s.cnt))) answer =
      some (s', r', error)) : Phase input s' w r' := by
  cases answer with
  | fails =>
    cases hstep
    exact .writing hloaded hsems hne hoffered
  | interrupted =>
    cases hstep
    exact .writing hloaded hsems hne hoffered
  | returns n =>
    simp only [readerStep] at hstep
    split at hstep
    · rename_i hlt
      cases hstep
      exact .torn (hloaded.torn hlt) hsems hoffered.blocked
    · cases hstep
      obtain ⟨hxfrs, hbytes⟩ := counts_append s s.block
      rw [hloaded.length_block] at hbytes
      rw [← hbytes]
      refine .delivered ?_ hsems (hoffered.delivered hne hloaded.length_block) hxfrs.symm
      rw [List.flatten_append, List.flatten_singleton]
      exact hloaded.data

theorem Phase.reader (h : Phase input s w r)
    (hstep : readerStep s r answer = some (s', r', error)) : Phase input s' w r' := by
  cases h with
  | filling hdata hfilling hwait =>
    obtain ⟨rfl, hwait'⟩ := hwait.step_of_zero hfilling.read_sem hstep
    exact .filling hdata hfilling hwait'
  | loaded hloaded hsems hwait =>
    obtain ⟨rfl, hwait'⟩ := hwait.step_of_zero (by simp [hsems]) hstep
    exact .loaded hloaded hsems hwait'
  | offered hloaded hsems hoffered hwait =>
    rcases hwait.step hstep with ⟨rfl, hwait'⟩ | ⟨v, heq, -, rfl, rfl⟩
    · exact .offered hloaded hsems hoffered hwait'
    · rw [hsems] at heq
      cases heq
      exact .testing ⟨hloaded.length_block, hloaded.data, hloaded.eof⟩ rfl (hoffered.congr rfl rfl)
  | testing hloaded hsems hoffered =>
    cases hstep
    split
    · rename_i hzero
      have hnil : s.block = [] := by
        apply List.length_eq_zero_iff.mp
        exact Int.ofNat_inj.mp (hloaded.length_block.trans hzero)
      refine .detaching ?_ hsems hzero hoffered
      simpa [hnil, hloaded.eof hzero] using hloaded.data
    · rename_i hne
      exact .writing hloaded hsems hne hoffered
  | writing hloaded hsems hne hoffered => exact .write hloaded hsems hne hoffered hstep
  | delivered hdata hsems hdelivered hxfrs =>
    rcases releaseSem_cases hstep with ⟨rfl, rfl⟩ | ⟨v, heq, rfl, rfl⟩
    · exact .delivered hdata hsems hdelivered hxfrs
    · rw [hsems] at heq
      cases heq
      rw [hxfrs]
      exact .filling hdata (hdelivered.filling rfl rfl rfl) .reserve
  | torn hprefix hsems hblocked => cases hstep
  | detaching hout hsems hzero hoffered =>
    rcases simpleCall_cases hstep with ⟨rfl, rfl⟩ | ⟨rfl, rfl⟩
    · exact .detaching hout hsems hzero hoffered
    · exact .leaving hout hsems hzero hoffered
  | leaving hout hsems hzero hoffered =>
    rcases releaseSem_cases hstep with ⟨rfl, rfl⟩ | ⟨v, heq, rfl, rfl⟩
    · exact .leaving hout hsems hzero hoffered
    · rw [hsems] at heq
      cases heq
      exact .closing hout (hoffered.closing hzero rfl rfl rfl)
  | closing hout hclosing => cases hstep

end LinuxPractice.Tlpi.ShmXfr
