import LinuxPractice.CLib.Stdio
import LinuxPractice.Kernel.File

/-!
# `four-two/cp-holes.c`: copying a file

The program takes the length of the source for the size of its buffer, reads up to
so many bytes, and writes the whole buffer.  It neither looks at the number of bytes
that `read` delivered, nor at the number that `write` stored, nor does it truncate
the target.  Source and target are different files.
-/

namespace LinuxPractice.Chap4

open LinuxPractice.CLib LinuxPractice.Kernel

/-- Where a byte of the target or of the buffer comes from; the program does not have
    this and nothing reads it. -/
inductive Origin where
  /-- It was in the target before. -/
  | old
  /-- The last `read` put it into the buffer. -/
  | read
  /-- The last `read` did not fill its place in the buffer. -/
  | stale
deriving DecidableEq, Inhabited

structure Cell where
  byte : UInt8
  origin : Origin
deriving DecidableEq, Inhabited

/-- The unread part of the source, the buffer, the target and its offset. -/
structure Copy where
  unread : Bytes
  buffer : List Cell
  target : List Cell
  offset : Nat

/-- One round of the loop, in which `read` delivers `count.1` bytes and `write` stores
    `count.2` of the `buffer.length` bytes it is given. -/
def transfer (s : Copy) (count : Nat × Nat) : Copy :=
  let buffer := (s.unread.take count.1).map (⟨·, .read⟩) ++
    (s.buffer.drop count.1).map fun cell => { cell with origin := .stale }
  { unread := s.unread.drop count.1
    buffer
    target := writeAt s.target s.offset (buffer.take count.2)
    offset := s.offset + count.2 }

/-- What ends the loop other than the end of the source. -/
inductive LoopError where
  | read (errno : Errno)
  | write (errno : Errno)
deriving DecidableEq

def readSum (counts : List (Nat × Nat)) : Nat := (counts.map Prod.fst).sum

def writeSum (counts : List (Nat × Nat)) : Nat := (counts.map Prod.snd).sum

@[simp] theorem readSum_nil : readSum [] = 0 := rfl

@[simp] theorem readSum_cons (count : Nat × Nat) (counts : List (Nat × Nat)) :
    readSum (count :: counts) = count.1 + readSum counts := List.sum_cons

@[simp] theorem writeSum_nil : writeSum [] = 0 := rfl

@[simp] theorem writeSum_cons (count : Nat × Nat) (counts : List (Nat × Nat)) :
    writeSum (count :: counts) = count.2 + writeSum counts := List.sum_cons

/-- The answers of the system calls for a source of length `size`: the failures of the
    calls outside the loop, and the counts of the rounds that `read` and `write`
    complete.  Without a failure `read` delivers 0 at the end of the source only. -/
structure Answers (size : Nat) where
  openSrc : Option Errno
  openTgt : Option Errno
  seekCur : Option Errno
  seekEnd : Option Errno
  seekRestore : Option Errno
  counts : List (Nat × Nat)
  loopErr : Option LoopError
  closeSrc : Option Errno
  closeTgt : Option Errno
  read_pos : ∀ count ∈ counts, 0 < count.1
  read_le : readSum counts ≤ size
  read_eof : loopErr = none → readSum counts = size
  write_le : ∀ count ∈ counts, count.2 ≤ size

/-- The target behind a run, and whether the exit status is `EXIT_SUCCESS`. -/
structure Run where
  target : List Cell
  success : Bool

/-- The target as `open` with `O_CREAT` and without `O_TRUNC` finds or makes it. -/
def openTarget (old : Option Bytes) : List Cell := (old.getD []).map (⟨·, .old⟩)

/-- `char buffer[tgtEnd]` with its indeterminate bytes. -/
def newBuffer (indeterminate : Nat → UInt8) (tgtEnd : Nat) : List Cell :=
  (List.range tgtEnd).map fun i => ⟨indeterminate i, .stale⟩

def main (src : Bytes) (old : Option Bytes) (indeterminate : Nat → UInt8)
    (a : Answers src.length) : Run :=
  let failed : Run := ⟨openTarget old, false⟩
  if a.openSrc.isSome ∨ a.openTgt.isSome ∨ a.seekCur.isSome ∨ a.seekEnd.isSome ∨
      a.seekRestore.isSome then failed
  else
    match lseek src.length 0 0 .SEEK_CUR with
    | none => failed
    | some tgtCurOffset =>
      match lseek src.length tgtCurOffset 0 .SEEK_END with
      | none => failed
      | some tgtEnd =>
        match lseek src.length tgtEnd ((tgtCurOffset : Int) - tgtEnd) .SEEK_END with
        | none => failed
        | some tgtCurOffset =>
          let s := a.counts.foldl transfer
            ⟨src.drop tgtCurOffset, newBuffer indeterminate tgtEnd, openTarget old, 0⟩
          ⟨s.target, a.loopErr.isNone && a.closeSrc.isNone && a.closeTgt.isNone⟩

/-! ### One round of the loop -/

structure Copy.Fits (s : Copy) (counts : List (Nat × Nat)) : Prop where
  read : readSum counts ≤ s.unread.length
  buffer : s.unread.length ≤ s.buffer.length
  write : ∀ count ∈ counts, count.2 ≤ s.buffer.length
  offset : s.offset ≤ s.target.length

variable {s : Copy} {count : Nat × Nat} {counts : List (Nat × Nat)}

namespace Copy.Fits

theorem count_le (h : s.Fits (count :: counts)) : count.1 ≤ s.unread.length := by
  have hread := h.read
  rw [readSum_cons] at hread
  omega

theorem length_buffer (h : s.Fits (count :: counts)) :
    (transfer s count).buffer.length = s.buffer.length := by
  have hle := h.count_le
  have hbuffer := h.buffer
  simp only [transfer, List.length_append, List.length_map, List.length_take, List.length_drop]
  omega

theorem length_written (h : s.Fits (count :: counts)) :
    ((transfer s count).buffer.take count.2).length = count.2 := by
  rw [List.length_take, h.length_buffer]
  exact Nat.min_eq_left (h.write count List.mem_cons_self)

theorem transfer (h : s.Fits (count :: counts)) : (transfer s count).Fits counts := by
  have hread := h.read
  rw [readSum_cons] at hread
  constructor
  · simp only [Chap4.transfer, List.length_drop]
    omega
  · rw [h.length_buffer]
    have hbuffer := h.buffer
    simp only [Chap4.transfer, List.length_drop]
    omega
  · intro c hc
    rw [h.length_buffer]
    exact h.write c (List.mem_cons_of_mem _ hc)
  · have hgrow := add_length_le_writeAt h.offset ((Chap4.transfer s count).buffer.take count.2)
    rw [h.length_written] at hgrow
    exact hgrow

theorem take_target (h : s.Fits (count :: counts)) :
    (Chap4.transfer s count).target.take (Chap4.transfer s count).offset =
      s.target.take s.offset ++ (Chap4.transfer s count).buffer.take count.2 := by
  have htake := take_writeAt_add h.offset ((Chap4.transfer s count).buffer.take count.2)
  rw [h.length_written] at htake
  exact htake

theorem drop_target (h : s.Fits (count :: counts)) (n : Nat) :
    (Chap4.transfer s count).target.drop ((Chap4.transfer s count).offset + n) =
      s.target.drop (s.offset + count.2 + n) := by
  have hdrop := drop_writeAt_add h.offset ((Chap4.transfer s count).buffer.take count.2) n
  rw [h.length_written] at hdrop
  exact hdrop

theorem written_eq (h : s.Fits (count :: counts)) (hle : count.2 ≤ count.1) :
    (Chap4.transfer s count).buffer.take count.2 = (s.unread.take count.2).map (⟨·, .read⟩) := by
  have hcount := h.count_le
  simp only [Chap4.transfer]
  rw [List.take_append_of_le_length (by simp; omega), ← List.map_take, List.take_take,
    Nat.min_eq_left hle]

/-- A round that stores more writes a byte that `read` did not fill. -/
theorem stale_mem_written (h : s.Fits (count :: counts)) (hlt : count.1 < count.2) :
    ∃ cell ∈ (Chap4.transfer s count).buffer.take count.2, cell.origin = .stale := by
  have hcount := h.count_le
  have hwrite := h.write count List.mem_cons_self
  have hindex : count.1 < s.buffer.length := by omega
  refine ⟨{ s.buffer[count.1] with origin := .stale }, ?_, rfl⟩
  rw [List.mem_take_iff_getElem]
  refine ⟨count.1, ?_, ?_⟩
  · rw [h.length_buffer]
    omega
  · simp only [Chap4.transfer]
    rw [List.getElem_append_right (by simp)]
    simp [Nat.min_eq_left hcount]

end Copy.Fits

/-! ### The whole loop -/

/-- What the loop stores as long as no `write` stores more than the `read` before it
    delivered: the front of each block, one behind the other. -/
def stored : Bytes → List (Nat × Nat) → Bytes
  | _, [] => []
  | unread, count :: counts => unread.take count.2 ++ stored (unread.drop count.1) counts

theorem stored_eq (heq : ∀ count ∈ counts, count.2 = count.1) :
    ∀ unread : Bytes, stored unread counts = unread.take (readSum counts) := by
  induction counts with
  | nil => simp [stored]
  | cons count counts ih =>
    intro unread
    rw [stored, ih (fun c hc => heq c (by simp [hc])), heq count (by simp), readSum_cons,
      List.take_add]

theorem length_stored (hle : ∀ count ∈ counts, count.2 ≤ count.1) :
    ∀ unread : Bytes, readSum counts ≤ unread.length →
      (stored unread counts).length = writeSum counts := by
  induction counts with
  | nil => simp [stored]
  | cons count counts ih =>
    intro unread hsum
    have hcount := hle count (by simp)
    rw [readSum_cons] at hsum
    have hrest := ih (fun c hc => hle c (by simp [hc])) (unread.drop count.1)
      (by rw [List.length_drop]; omega)
    rw [stored, List.length_append, hrest, writeSum_cons, List.length_take]
    omega

theorem writeSum_le_readSum (hle : ∀ count ∈ counts, count.2 ≤ count.1) :
    writeSum counts ≤ readSum counts := by
  induction counts with
  | nil => exact Nat.le_refl 0
  | cons count counts ih =>
    rw [writeSum_cons, readSum_cons]
    exact Nat.add_le_add (hle count (by simp)) (ih fun c hc => hle c (by simp [hc]))

theorem writeSum_eq_readSum_iff (hle : ∀ count ∈ counts, count.2 ≤ count.1) :
    writeSum counts = readSum counts ↔ ∀ count ∈ counts, count.2 = count.1 := by
  induction counts with
  | nil => simp
  | cons count counts ih =>
    have hcount := hle count (by simp)
    have hrest := writeSum_le_readSum fun c hc => hle c (List.mem_cons_of_mem count hc)
    rw [writeSum_cons, readSum_cons, List.forall_mem_cons, ← ih fun c hc => hle c (by simp [hc])]
    omega

theorem target_foldl (h : s.Fits counts) (hle : ∀ count ∈ counts, count.2 ≤ count.1) :
    (counts.foldl transfer s).target =
      s.target.take s.offset ++ (stored s.unread counts).map (⟨·, .read⟩) ++
        s.target.drop (s.offset + writeSum counts) := by
  induction counts generalizing s with
  | nil => simp [stored]
  | cons count counts ih =>
    rw [List.foldl_cons, ih h.transfer (fun c hc => hle c (by simp [hc])), h.take_target,
      h.drop_target, h.written_eq (hle count (by simp)), writeSum_cons]
    simp [stored, transfer, Nat.add_assoc]

theorem take_target_foldl (h : s.Fits counts) :
    (counts.foldl transfer s).target.take s.offset = s.target.take s.offset := by
  induction counts generalizing s with
  | nil => rfl
  | cons count counts ih =>
    have hoff : s.offset ≤ (transfer s count).offset := Nat.le_add_right _ _
    rw [List.foldl_cons, ← Nat.min_eq_left hoff, ← List.take_take, ih h.transfer, h.take_target,
      Nat.min_eq_left hoff]
    rw [List.take_append_of_le_length (by simp [h.offset]), List.take_take, Nat.min_self]

/-- A byte that `read` did not fill stays in the target. -/
theorem stale_mem_foldl (h : s.Fits counts) (hlt : ∃ count ∈ counts, count.1 < count.2) :
    ∃ cell ∈ (counts.foldl transfer s).target, cell.origin = .stale := by
  induction counts generalizing s with
  | nil => simp at hlt
  | cons count counts ih =>
    rw [List.foldl_cons]
    by_cases hhead : count.1 < count.2
    · obtain ⟨cell, hcell, horigin⟩ := h.stale_mem_written hhead
      refine ⟨cell, ?_, horigin⟩
      apply List.mem_of_mem_take (i := (transfer s count).offset)
      rw [take_target_foldl h.transfer, h.take_target]
      exact List.mem_append_right _ hcell
    · apply ih h.transfer
      obtain ⟨c, hc, hlt⟩ := hlt
      rcases List.mem_cons.mp hc with rfl | hc
      · exact absurd hlt hhead
      · exact ⟨c, hc, hlt⟩

/-! ### The program -/

variable {src : Bytes} {old : Option Bytes} {indeterminate : Nat → UInt8} {a : Answers src.length}

/-- The calls of `lseek` find the length of the source and go back to its start. -/
theorem main_success (h : (main src old indeterminate a).success = true) :
    a.loopErr = none ∧ (main src old indeterminate a).target = (a.counts.foldl transfer
      ⟨src, newBuffer indeterminate src.length, openTarget old, 0⟩).target := by
  have hcur : lseek src.length 0 0 .SEEK_CUR = some 0 := rfl
  have hend : lseek src.length 0 0 .SEEK_END = some src.length := by simp [lseek]
  have hrestore :
      lseek src.length src.length (((0 : Nat) : Int) - src.length) .SEEK_END = some 0 := by
    simp [lseek]
  unfold main at h ⊢
  simp only [hcur, hend, hrestore] at h ⊢
  split at h
  · cases h
  · rename_i hcalls
    rw [if_neg hcalls]
    simp only [Bool.and_eq_true, Option.isNone_iff_eq_none] at h
    exact ⟨h.1.1, by rw [List.drop_zero]⟩

theorem fits_start (old : Option Bytes) (indeterminate : Nat → UInt8) (a : Answers src.length) :
    Copy.Fits ⟨src, newBuffer indeterminate src.length, openTarget old, 0⟩ a.counts := by
  constructor
  · exact a.read_le
  · simp [newBuffer]
  · simpa [newBuffer] using a.write_le
  · exact Nat.zero_le _

/-- The target is a copy of the source, without a byte that `read` did not put into the
    buffer. -/
def Copied (src : Bytes) (target : List Cell) : Prop :=
  target.map Cell.byte = src ∧ ∀ cell ∈ target, cell.origin ≠ .stale

instance (src : Bytes) (target : List Cell) : Decidable (Copied src target) :=
  inferInstanceAs (Decidable (_ ∧ _))

theorem not_copied_of_lt (h : (main src old indeterminate a).success = true)
    (hlt : ∃ count ∈ a.counts, count.1 < count.2) :
    ¬ Copied src (main src old indeterminate a).target := by
  intro hcopied
  obtain ⟨cell, hcell, horigin⟩ := stale_mem_foldl (fits_start old indeterminate a) hlt
  rw [← (main_success h).2] at hcell
  exact hcopied.2 cell hcell horigin

theorem copied_iff_of_le (h : (main src old indeterminate a).success = true)
    (hle : ∀ count ∈ a.counts, count.2 ≤ count.1) :
    Copied src (main src old indeterminate a).target ↔
      stored src a.counts ++ (old.getD []).drop (writeSum a.counts) = src := by
  have htarget := (main_success h).2
  rw [target_foldl (fits_start old indeterminate a) hle] at htarget
  simp only [List.take_zero, List.nil_append, Nat.zero_add, openTarget, ← List.map_drop] at htarget
  have hbytes : (main src old indeterminate a).target.map Cell.byte =
      stored src a.counts ++ (old.getD []).drop (writeSum a.counts) := by
    rw [htarget]
    simp [Function.comp_def]
  rw [Copied, hbytes, and_iff_left]
  intro cell hcell
  rw [htarget, List.mem_append, List.mem_map, List.mem_map] at hcell
  rcases hcell with ⟨b, _, rfl⟩ | ⟨b, _, rfl⟩
  · exact Origin.noConfusion
  · exact Origin.noConfusion

/-- For every source, old target, buffer and sequence of counts: a run that succeeds has
    copied the source exactly if each `write` stores what `read` delivered and the old
    target is not longer, or if the old target has the length of the source and already
    holds what short writes leave out. -/
theorem main_copies_iff (h : (main src old indeterminate a).success = true) :
    Copied src (main src old indeterminate a).target ↔
      ((∀ count ∈ a.counts, count.2 = count.1) ∧ (old.getD []).length ≤ src.length) ∨
      ((∀ count ∈ a.counts, count.2 ≤ count.1) ∧ (old.getD []).length = src.length ∧
        stored src a.counts ++ (old.getD []).drop (writeSum a.counts) = src) := by
  have hread : readSum a.counts = src.length := a.read_eof (main_success h).1
  by_cases hle : ∀ count ∈ a.counts, count.2 ≤ count.1
  · have hsum := writeSum_le_readSum hle
    rw [copied_iff_of_le h hle]
    constructor
    · intro heq
      have hlen := congrArg List.length heq
      rw [List.length_append, List.length_drop, length_stored hle src a.read_le] at hlen
      by_cases hshort : writeSum a.counts = readSum a.counts
      · exact Or.inl ⟨(writeSum_eq_readSum_iff hle).mp hshort, by omega⟩
      · exact Or.inr ⟨hle, by omega, heq⟩
    · rintro (⟨hagree, hlen⟩ | ⟨-, -, heq⟩)
      · rw [(writeSum_eq_readSum_iff hle).mpr hagree, stored_eq hagree, hread, List.take_length,
          List.drop_eq_nil_of_le hlen, List.append_nil]
      · exact heq
  · have hlt : ∃ count ∈ a.counts, count.1 < count.2 := by simpa using hle
    apply iff_of_false (not_copied_of_lt h hlt)
    rintro (⟨hagree, -⟩ | ⟨hle', -⟩)
    · exact hle fun count hcount => Nat.le_of_eq (hagree count hcount)
    · exact hle hle'

def Answers.ofCounts {size : Nat} (counts : List (Nat × Nat)) (hpos : ∀ count ∈ counts, 0 < count.1)
    (hread : readSum counts = size) (hwrite : ∀ count ∈ counts, count.2 ≤ size) : Answers size :=
  ⟨none, none, none, none, none, counts, none, none, none, hpos, Nat.le_of_eq hread, fun _ => hread,
    hwrite⟩

/-- A source of three bytes, read in two blocks, over a target of one byte. -/
theorem main_copies_two_blocks :
    Copied [97, 98, 99] (main [97, 98, 99] (some [120]) (fun _ => 0)
      (.ofCounts [(2, 2), (1, 1)] (by decide) (by decide) (by decide))).target := by
  refine (main_copies_iff ?_).mpr (Or.inl ⟨?_, ?_⟩)
  · decide
  · decide
  · decide

/-- A longer target keeps its last byte. -/
theorem main_copies_longer_target :
    (main [97] (some [98, 99]) (fun _ => 0)
        (.ofCounts [(1, 1)] (by decide) (by decide) (by decide))).success = true ∧
      ¬ Copied [97] (main [97] (some [98, 99]) (fun _ => 0)
        (.ofCounts [(1, 1)] (by decide) (by decide) (by decide))).target := by
  decide

end LinuxPractice.Chap4
