import LinuxPractice.CLib.CharArray
import LinuxPractice.Kernel.File
import LinuxPractice.Tlpi.GetNum

/-!
# `seek_io.c`: reading, writing and seeking by commands

The arguments are commands for one open file: `r` and `R` show bytes at the offset, `w`
writes a string there, `s` sets the offset.  The commands are written over the operations
of a file, once for a file as the list of its bytes and once for a record of what was
written where, so that what the program does to a file can be read off the record: the
last write of a byte counts, and what was never written is 0.
-/

namespace LinuxPractice.Tlpi.SeekIo

open LinuxPractice.CLib LinuxPractice.Kernel

inductive Exit where
  | success
  | usage
  | open
  | getLong (e : GnFail)
  | malloc
  | read
  | write
  | lseek
  | close
  /-- Prints `"Argument must start with [rRws]: %s\n"`. -/
  | argument (arg : Bytes)
deriving DecidableEq

/-- What the system answers to the calls of a command: whether `malloc` finds memory, and how
    many bytes besides the first `read` or `write` transfers at most; `none` is a failure. -/
structure Answer where
  malloc : Bool
  transfer : Option Nat

/-- The operations of an open file. -/
structure FileOps (φ : Type) where
  /-- The bytes that a `read` of so many transfers at most, and the file behind it. -/
  read : Nat → φ → Bytes × φ
  write : Bytes → φ → φ
  lseek : Int → φ → Option φ

def PTRDIFF_MAX : Nat := 2 ^ 63 - 1

def isprint (c : UInt8) : Bool := decide (32 ≤ c) && decide (c ≤ 126)

def hexDigit (d : UInt8) : UInt8 := if d < 10 then 48 + d else 87 + d

/-- What `r` and `R` print for a byte. -/
def shown (hex : Bool) (c : UInt8) : Bytes :=
  if hex then [hexDigit (c / 16), hexDigit (c % 16), 32]
  else [if isprint c then c else 63]

/-- The text of an argument in a message of `getLong`. -/
def argName (arg : Bytes) : String := String.ofList (arg.map fun c => Char.ofNat c.toNat)

section Commands

variable {φ : Type} (ops : FileOps φ)

/-- The commands `r` and `R`. -/
def showBytes (a : Answer) (arg length : Bytes) (hex : Bool) (f : φ) : Except Exit (Bytes × φ) :=
  match getLong length GN_ANY_BASE (argName arg) with
  | .error e => .error (.getLong e)
  | .ok len =>
    if a.malloc = false ∨ PTRDIFF_MAX < sizeT len then .error .malloc
    else
      match a.transfer with
      | none => .error .read
      | some more =>
        let (buf, f') := ops.read (min (sizeT len) (more + 1)) f
        if buf = [] then .ok (arg ++ bytes ": end-of-file\n", f')
        else .ok (arg ++ bytes ": " ++ buf.flatMap (shown hex) ++ bytes "\n", f')

/-- The command `w`. -/
def writeString (a : Answer) (arg string : Bytes) (f : φ) : Except Exit (Bytes × φ) :=
  match a.transfer with
  | none => .error .write
  | some more =>
    let written := string.take (more + 1)
    .ok (arg ++ bytes ": wrote " ++ decimal written.length ++ bytes " bytes\n", ops.write written f)

/-- The command `s`. -/
def seek (arg number : Bytes) (f : φ) : Except Exit (Bytes × φ) :=
  match getLong number GN_ANY_BASE (argName arg) with
  | .error e => .error (.getLong e)
  | .ok offset =>
    match ops.lseek offset f with
    | none => .error .lseek
    | some f' => .ok (arg ++ bytes ": seek succeeded\n", f')

def command (a : Answer) (arg : Bytes) (f : φ) : Except Exit (Bytes × φ) :=
  match arg with
  | [] => .error (.argument arg)
  | c :: rest =>
    if c = 114 then showBytes ops a arg rest false f
    else if c = 82 then showBytes ops a arg rest true f
    else if c = 119 then writeString ops a arg rest f
    else if c = 115 then seek ops arg rest f
    else .error (.argument arg)

/-- The loop over the arguments: what is printed, the file at the end and how the loop ends. -/
def commands (f : φ) : List (Answer × Bytes) → Bytes × φ × Exit
  | [] => ([], f, .success)
  | (a, arg) :: args =>
    match command ops a arg f with
    | .error e => ([], f, e)
    | .ok (out, f') =>
      let rest := commands f' args
      (out ++ rest.1, rest.2)

/-- The program, for what the calls answer: the file that is opened, `none` if that fails, the
    answers for each command, and whether `close` succeeds.  It gives the output, the file at
    the end, and how the program ends. -/
def main (opened : Option φ) (answers : Nat → Answer) (closed : Bool) (argv : List Bytes) :
    Bytes × Option φ × Exit :=
  if argv.length < 3 ∨ argv[1]? = some (bytes "--help") then ([], opened, .usage)
  else
    match opened with
    | none => ([], none, .open)
    | some f =>
      let r := commands ops f ((argv.drop 2).mapIdx fun i arg => (answers i, arg))
      (r.1, some r.2.1, if r.2.2 = .success ∧ closed = false then .close else r.2.2)

end Commands

/-- A regular file and the offset of its descriptor. -/
structure OpenFile where
  content : Bytes
  offset : Nat

def fileOps : FileOps OpenFile where
  read := fun n f =>
    let buf := (f.content.drop f.offset).take n
    (buf, { f with offset := f.offset + buf.length })
  write := fun data f => ⟨writeAt f.content f.offset data, f.offset + data.length⟩
  lseek := fun offset f =>
    (Kernel.lseek f.content.length f.offset offset .SEEK_SET).map fun off =>
      { f with offset := off }

/-! ### The record of the writes -/

/-- What was in the file, what has been written where, the last first, and the offset. -/
structure Record where
  original : Bytes
  writes : List (Nat × Bytes)
  offset : Nat

namespace Record

/-- The byte at `p`: of the last write there, or the original one; 0 behind the end. -/
def byte (r : Record) (p : Nat) : UInt8 :=
  match r.writes.find? fun w => decide (w.1 ≤ p ∧ p < w.1 + w.2.length) with
  | some w => w.2.getD (p - w.1) 0
  | none => r.original.getD p 0

/-- The end of the last byte. -/
def size (r : Record) : Nat :=
  r.writes.foldr (fun w n => if w.2 = [] then n else max n (w.1 + w.2.length)) r.original.length

/-- The file that the writes make. -/
def file (r : Record) : OpenFile :=
  ⟨r.writes.foldr (fun w content => writeAt content w.1 w.2) r.original, r.offset⟩

theorem getD_file (r : Record) (p : Nat) : r.file.content.getD p 0 = r.byte p := by
  obtain ⟨original, writes, offset⟩ := r
  induction writes with
  | nil => rfl
  | cons w writes ih =>
    have hwrite := getD_writeAt (Record.file ⟨original, writes, offset⟩).content w.2 w.1 p
    change (writeAt _ w.1 w.2).getD p 0 = _
    refine hwrite.trans ?_
    unfold byte
    by_cases hin : w.1 ≤ p ∧ p < w.1 + w.2.length
    · rw [if_pos hin, List.find?_cons_of_pos (by simpa using hin)]
      rfl
    · rw [if_neg hin, List.find?_cons_of_neg (by simpa using hin)]
      exact ih

theorem length_file (r : Record) : r.file.content.length = r.size := by
  obtain ⟨original, writes, offset⟩ := r
  induction writes with
  | nil => rfl
  | cons w writes ih =>
    have hlen : (Record.file ⟨original, writes, offset⟩).content.length =
        Record.size ⟨original, writes, offset⟩ := ih
    change (writeAt (Record.file ⟨original, writes, offset⟩).content w.1 w.2).length =
      if w.2 = [] then Record.size ⟨original, writes, offset⟩
      else max (Record.size ⟨original, writes, offset⟩) (w.1 + w.2.length)
    by_cases hdata : w.2 = []
    · rw [if_pos hdata, writeAt, if_pos hdata, hlen]
    · rw [if_neg hdata, length_writeAt hdata, hlen]

end Record

def recordOps : FileOps Record where
  read := fun n r =>
    let count := min n (r.size - r.offset)
    ((List.range count).map fun j => r.byte (r.offset + j), { r with offset := r.offset + count })
  write := fun data r =>
    { r with writes := (r.offset, data) :: r.writes, offset := r.offset + data.length }
  lseek := fun offset r => if offset < 0 then none else some { r with offset := offset.toNat }

/-- A map of files that the operations respect. -/
structure Respects {φ ψ : Type} (ops : FileOps φ) (ops' : FileOps ψ) (view : φ → ψ) : Prop where
  read : ∀ n f, ops'.read n (view f) = ((ops.read n f).1, view (ops.read n f).2)
  write : ∀ data f, ops'.write data (view f) = view (ops.write data f)
  lseek : ∀ offset f, ops'.lseek offset (view f) = (ops.lseek offset f).map view

namespace Respects

variable {φ ψ : Type} {ops : FileOps φ} {ops' : FileOps ψ} {view : φ → ψ}

theorem command (h : Respects ops ops' view) (a : Answer) (arg : Bytes) (f : φ) :
    SeekIo.command ops' a arg (view f) =
      (SeekIo.command ops a arg f).map fun r => (r.1, view r.2) := by
  have hshow : ∀ arg rest hex, showBytes ops' a arg rest hex (view f) =
      (showBytes ops a arg rest hex f).map fun r => (r.1, view r.2) := by
    intro arg rest hex
    unfold showBytes
    cases getLong rest GN_ANY_BASE (argName arg) with
    | error e => rfl
    | ok len =>
      simp only
      split
      · rfl
      · cases a.transfer with
        | none => rfl
        | some more =>
          simp only [h.read]
          split
          · rfl
          · rfl
  cases arg with
  | nil => rfl
  | cons c rest =>
    unfold SeekIo.command
    simp only
    split
    · exact hshow _ _ _
    · split
      · exact hshow _ _ _
      · split
        · unfold writeString
          cases a.transfer with
          | none => rfl
          | some more =>
            simp only [h.write]
            rfl
        · split
          · unfold seek
            cases getLong rest GN_ANY_BASE (argName (c :: rest)) with
            | error e => rfl
            | ok offset =>
              simp only [h.lseek]
              cases ops.lseek offset f with
              | none => rfl
              | some f' => rfl
          · rfl

theorem commands (h : Respects ops ops' view) (args : List (Answer × Bytes)) (f : φ) :
    SeekIo.commands ops' (view f) args =
      ((SeekIo.commands ops f args).1, view (SeekIo.commands ops f args).2.1,
        (SeekIo.commands ops f args).2.2) := by
  induction args generalizing f with
  | nil => rfl
  | cons one args ih =>
    obtain ⟨a, arg⟩ := one
    unfold SeekIo.commands
    rw [h.command a arg f]
    cases SeekIo.command ops a arg f with
    | error e => rfl
    | ok r =>
      simp only [Except.map]
      rw [ih r.2]

/-- The program does to both the same. -/
theorem main (h : Respects ops ops' view) (opened : Option φ) (answers : Nat → Answer)
    (closed : Bool) (argv : List Bytes) :
    SeekIo.main ops' (opened.map view) answers closed argv =
      ((SeekIo.main ops opened answers closed argv).1,
        (SeekIo.main ops opened answers closed argv).2.1.map view,
        (SeekIo.main ops opened answers closed argv).2.2) := by
  unfold SeekIo.main
  split
  · rfl
  · cases opened with
    | none => rfl
    | some f =>
      simp only [Option.map_some]
      rw [h.commands]

end Respects

theorem file_read (n : Nat) (r : Record) :
    fileOps.read n r.file = ((recordOps.read n r).1, (recordOps.read n r).2.file) := by
  have hlen : ((r.file.content.drop r.offset).take n).length = min n (r.size - r.offset) := by
    rw [List.length_take, List.length_drop, r.length_file]
  have hbytes : (r.file.content.drop r.offset).take n =
      (List.range (min n (r.size - r.offset))).map fun j => r.byte (r.offset + j) := by
    apply List.ext_getElem
    · rw [List.length_map, List.length_range, hlen]
    · intro j hj hj'
      rw [hlen] at hj
      have hend : r.offset + j < r.file.content.length := by
        rw [r.length_file]
        omega
      rw [List.getElem_map, List.getElem_range, List.getElem_take, List.getElem_drop,
        ← r.getD_file, List.getD_eq_getElem _ _ hend]
  change ((r.file.content.drop r.offset).take n,
    (⟨r.file.content, r.offset + ((r.file.content.drop r.offset).take n).length⟩ : OpenFile)) = _
  rw [hlen, hbytes]
  rfl

theorem file_lseek (offset : Int) (r : Record) :
    fileOps.lseek offset r.file = (recordOps.lseek offset r).map Record.file := by
  simp only [recordOps, fileOps, Kernel.lseek, Int.zero_add]
  split
  · rfl
  · rfl

theorem respects_record : Respects recordOps fileOps Record.file :=
  ⟨file_read, fun _ _ => rfl, file_lseek⟩

set_option maxRecDepth 4000 in
example : (main fileOps (some ⟨bytes "ab", 0⟩) (fun _ => ⟨true, some 9⟩) true
    [bytes "seek_io", bytes "f", bytes "s4", bytes "wZ", bytes "s1", bytes "R9"]).1 =
    bytes "s4: seek succeeded\nwZ: wrote 1 bytes\ns1: seek succeeded\nR9: 62 00 00 5a \n" := by
  decide

end LinuxPractice.Tlpi.SeekIo
