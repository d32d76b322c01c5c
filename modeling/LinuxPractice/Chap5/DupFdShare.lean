import LinuxPractice.Chap5.GetNum
import LinuxPractice.CLib.Stdio
import LinuxPractice.Kernel.Descriptors

/-!
# `five-five/dup-fd-share.c`: duplicates share the offset

The program opens a file, duplicates the descriptor and takes commands: `soffset`
seeks "to byte offset from the start of the file", as its header says, and prints the
offset of both descriptors.  They always agree; but the seek is relative to where the
commands before have left the offset, so the offsets are the sums of the arguments.
-/

namespace LinuxPractice.Chap5.DupFdShare

open LinuxPractice.CLib LinuxPractice.Kernel

inductive Out where
  /-- Prints "On first executing the command" and both offsets. -/
  | firstOffsets (fileOffset dupFileOffset : Nat)
  /-- Prints "On first executing the command" and both sets of flags. -/
  | firstFlags (fileStatusFlags dupFileStatusFlags : Nat)
  | num (out : NumOut)
  /-- Prints "After changing offset of original file with lseek" and both offsets. -/
  | offsets (fileOffset dupFileOffset : Int)
deriving DecidableEq

/-- How a run ends with `EXIT_FAILURE`. -/
inductive Stop where
  | usageErr
  | errExit (text : String)
  | getNum (fail : NumFail)
  /-- Prints `"Argument must start with [s]: %s\n"`. -/
  | cmdLineErr (arg : Bytes)
deriving DecidableEq

/-! ### The command loop -/

/-- The loop body for one argument. -/
def command (fd dupFd : Nat) (arg : Bytes) (s : System) : List Out × Except Stop System :=
  match arg with
  | 115 :: nptr =>
    match getNum nptr 10 with
    | .error fail => ([], .error (.getNum fail))
    | .ok (offsetVal, printed) =>
      match s.lseek fd offsetVal .SEEK_CUR with
      | none => (printed.map .num, .error (.errExit "lseek"))
      | some (fileOffset, s) =>
        -- the `lseek` among the arguments of `printf` is printed whatever it answers
        match s.lseek dupFd 0 .SEEK_CUR with
        | none => (printed.map .num ++ [.offsets fileOffset (-1)], .ok s)
        | some (dupFileOffset, s) =>
          (printed.map .num ++ [.offsets fileOffset dupFileOffset], .ok s)
  | _ => ([], .error (.cmdLineErr arg))

def commands (fd dupFd : Nat) : List Bytes → System → List Out × Except Stop System
  | [], s => ([], .ok s)
  | arg :: args, s =>
    match command fd dupFd arg s with
    | (out, .error why) => (out, .error why)
    | (out, .ok s) => (out ++ (commands fd dupFd args s).1, (commands fd dupFd args s).2)

/-! ### `main` -/

/-- The arguments, the system that the program starts in, and what the file system
    answers: the length of the file and the flags that `F_GETFL` reports for it. -/
structure Env where
  argv : List Bytes
  sys : System
  openErr : Option Errno
  size : Nat
  flags : Nat
  closeErr : Option Errno
  closeDupErr : Option Errno

def orExit {α : Type} (text : String) : Option α → Except Stop α
  | none => .error (.errExit text)
  | some a => .ok a

/-- `main` up to the offsets that it prints first: the two descriptors. -/
def setup (env : Env) : Except Stop (Nat × Nat × List Out × System) := do
  let (fd, s) ← orExit "open"
    (if env.openErr.isSome then none else env.sys.openFile env.size env.flags)
  let (fileOffset, s) ← orExit "lseek" (s.lseek fd 0 .SEEK_CUR)
  let (dupFd, s) ← orExit "dup" (s.dup fd)
  let (dupFileOffset, s) ← orExit "lseek" (s.lseek dupFd 0 .SEEK_CUR)
  return (fd, dupFd, [.firstOffsets fileOffset dupFileOffset], s)

/-- The status flags, which both calls of `F_GETFL` ask for with `fd`. -/
def statusFlags (fd : Nat) (s : System) : Except Stop Out := do
  let fileStatusFlags ← orExit "fcntl" ((s.file fd).map OpenFile.flags)
  let dupFileStatusFlags ← orExit "fcntl" ((s.file fd).map OpenFile.flags)
  return .firstFlags fileStatusFlags dupFileStatusFlags

/-- What a run prints, and how it ends: `none` is `exit(EXIT_SUCCESS)`. -/
structure Run where
  out : List Out
  stop : Option Stop

def main (env : Env) : Run :=
  match env.argv with
  | _ :: filename :: args =>
    if filename = bytes "--help" then ⟨[], some .usageErr⟩
    else
      match setup env with
      | .error why => ⟨[], some why⟩
      | .ok (fd, dupFd, out, s) =>
        match statusFlags fd s with
        | .error why => ⟨out, some why⟩
        | .ok flags =>
          match commands fd dupFd args s with
          | (more, .error why) => ⟨out ++ flags :: more, some why⟩
          | (more, .ok _) =>
            if env.closeErr.isSome ∨ env.closeDupErr.isSome then
              ⟨out ++ flags :: more, some (.errExit "close")⟩
            else ⟨out ++ flags :: more, none⟩
  | _ => ⟨[], some .usageErr⟩

/-! ### Seek commands -/

/-- The argument `s<n>` for a decimal numeral `n` that is an `off_t`. -/
structure SeekArg where
  digits : Bytes
  digits_ne_nil : digits ≠ []
  isdigit_of_mem : ∀ c ∈ digits, isdigit c = true
  value_le : digitsValue 10 digits ≤ OFF_MAX

namespace SeekArg

def text (n : SeekArg) : Bytes := 115 :: n.digits

def value (n : SeekArg) : Nat := digitsValue 10 n.digits

theorem numeral (n : SeekArg) : Numeral n.digits n.value [] :=
  ⟨[], .none, n.digits, by simp [Sign.text], by simp [Blank], n.digits_ne_nil, n.isdigit_of_mem,
    by simp, rfl⟩

theorem getNum_digits (n : SeekArg) :
    ∃ printed, getNum n.digits 10 = .ok ((n.value : Int), printed) := by
  have hle := n.value_le
  have hfits : FitsLong n.digits n.value [] := by
    refine ⟨n.numeral, ?_, ?_⟩
    · simp only [LONG_MIN]
      omega
    · simp only [LONG_MAX, value]
      simp only [OFF_MAX] at hle
      omega
  exact ⟨_, getNumWith_of_fits hfits⟩

end SeekArg

/-- The offsets that are printed behind the commands. -/
def reports (out : List Out) : List (Int × Int) :=
  out.filterMap fun
    | .offsets fileOffset dupFileOffset => some (fileOffset, dupFileOffset)
    | _ => none

theorem reports_append (out out' : List Out) : reports (out ++ out') = reports out ++ reports out' :=
  List.filterMap_append

theorem reports_num (printed : List NumOut) : reports (printed.map .num) = [] := by
  induction printed with
  | nil => rfl
  | cons o printed ih => exact ih

variable {fd dupFd offset size : Nat} {s : System}

/-- The same offset for both descriptors. -/
def both (offset : Nat) : Int × Int := (offset, offset)

/-- One command: the argument is added to the offset. -/
theorem command_seek (h : s.Shares fd dupFd offset size) (n : SeekArg)
    (hmax : offset + n.value ≤ OFF_MAX) :
    ∃ out s', command fd dupFd n.text s = (out, .ok s') ∧
      reports out = [both (offset + n.value)] ∧ s'.Shares fd dupFd (offset + n.value) size := by
  rcases n.getNum_digits with ⟨printed, hnum⟩
  have hseek := lseek_cur size offset n.value
  rcases System.lseek_shares h hseek hmax with ⟨s', hlseek, hshares, hdup⟩
  refine ⟨printed.map .num ++ [.offsets (offset + n.value : Nat) (offset + n.value : Nat)],
    s', ?_, ?_, hshares⟩
  · simp only [command, SeekArg.text, hnum, hlseek, hdup]
  · rw [reports_append, reports_num]
    rfl

/-- A sum that is no `off_t` ends the program, though the argument itself is one. -/
theorem command_seek_overflow (h : s.Shares fd dupFd offset size) (n : SeekArg)
    (hmax : OFF_MAX < offset + n.value) :
    ∃ out, command fd dupFd n.text s = (out, .error (.errExit "lseek")) ∧ reports out = [] := by
  rcases n.getNum_digits with ⟨printed, hnum⟩
  have hseek := lseek_cur size offset n.value
  refine ⟨printed.map .num, ?_, reports_num printed⟩
  simp only [command, SeekArg.text, hnum, System.lseek_fails h hseek hmax]

/-- The offsets behind each command, up to the one that exceeds `off_t`. -/
def offsetsFrom (offset : Nat) : List Nat → List Nat
  | [] => []
  | n :: ns => if offset + n ≤ OFF_MAX then (offset + n) :: offsetsFrom (offset + n) ns else []

/-- All commands: both descriptors report the running sums. -/
theorem reports_commands (ns : List SeekArg) (h : s.Shares fd dupFd offset size) :
    reports (commands fd dupFd (ns.map SeekArg.text) s).1 =
      (offsetsFrom offset (ns.map SeekArg.value)).map both := by
  induction ns generalizing offset s with
  | nil => rfl
  | cons n ns ih =>
    simp only [List.map_cons, commands, offsetsFrom]
    by_cases hmax : offset + n.value ≤ OFF_MAX
    · rcases command_seek h n hmax with ⟨out, s', hcommand, hout, hshares⟩
      rw [if_pos hmax, hcommand]
      simp only [reports_append, hout, ih hshares, List.map_cons, List.singleton_append]
    · rcases command_seek_overflow h n (Nat.not_le.mp hmax) with ⟨out, hcommand, hout⟩
      rw [if_neg hmax, hcommand]
      exact hout

theorem offsetsFrom_eq_self_iff {ns : List Nat} (hmax : ∀ n ∈ ns, n ≤ OFF_MAX) (offset : Nat) :
    offsetsFrom offset ns = ns ↔ ns = [] ∨ offset = 0 ∧ ∀ n ∈ ns.dropLast, n = 0 := by
  induction ns generalizing offset with
  | nil => simp [offsetsFrom]
  | cons n ns ih =>
    have hn : n ≤ OFF_MAX := hmax n (by simp)
    have ih' := ih fun m hm => hmax m (by simp [hm])
    simp only [reduceCtorEq, false_or]
    by_cases hzero : offset = 0
    · subst hzero
      simp only [offsetsFrom, Nat.zero_add, if_pos hn, List.cons.injEq, true_and, ih']
      cases ns with
      | nil => simp
      | cons m ns => simp
    · simp only [hzero, false_and, iff_false, offsetsFrom]
      split
      · intro heq
        have := (List.cons.inj heq).1
        omega
      · exact nofun

/-! ### The whole run -/

theorem of_orExit_bind {α β : Type} {text : String} {x : Option α} {next : α → Except Stop β}
    {b : β} (h : orExit text x >>= next = .ok b) : ∃ a, x = some a ∧ next a = .ok b := by
  cases x with
  | none => cases h
  | some a => exact ⟨a, rfl, h⟩

theorem setup_shares {env : Env} {out : List Out} (h : setup env = .ok (fd, dupFd, out, s)) :
    s.Shares fd dupFd 0 env.size ∧ reports out = [] := by
  unfold setup at h
  rcases of_orExit_bind h with ⟨⟨fd', s₁⟩, hopen, h⟩
  rcases of_orExit_bind h with ⟨⟨fileOffset, s₂⟩, hstay, h⟩
  rcases of_orExit_bind h with ⟨⟨dupFd', s₃⟩, hdup, h⟩
  rcases of_orExit_bind h with ⟨⟨dupFileOffset, s₄⟩, hstay', h⟩
  obtain ⟨rfl, rfl, rfl, rfl⟩ : fd' = fd ∧ dupFd' = dupFd ∧ _ = out ∧ s₄ = s := by
    simpa [pure, Except.pure] using h
  obtain rfl := System.lseek_stays hstay
  obtain rfl := System.lseek_stays hstay'
  refine ⟨?_, rfl⟩
  split at hopen
  · cases hopen
  · exact System.shares_of_dup hopen hdup

/-- The flags of a descriptor that is open are there. -/
theorem statusFlags_of_shares (h : s.Shares fd dupFd offset size) :
    ∃ flags, statusFlags fd s = .ok (.firstFlags flags flags) := by
  rcases h.exists_file with ⟨d, hget, -, -⟩
  refine ⟨(s.files d).flags, ?_⟩
  simp only [statusFlags, System.file, hget, Option.map_some]
  rfl

/-- What a run on seek commands reports, from the offset 0 of the file just opened. -/
theorem reports_main {env : Env} {prog filename : Bytes} (ns : List SeekArg)
    (hargv : env.argv = prog :: filename :: ns.map SeekArg.text)
    (hname : filename ≠ bytes "--help") (hsetup : ∃ r, setup env = .ok r) :
    reports (main env).out = (offsetsFrom 0 (ns.map SeekArg.value)).map both := by
  rcases hsetup with ⟨⟨fd, dupFd, out, s⟩, hsetup⟩
  rcases setup_shares hsetup with ⟨hshares, hout⟩
  rcases statusFlags_of_shares hshares with ⟨flags, hflags⟩
  have hcommands := reports_commands ns hshares
  obtain ⟨⟨more, r⟩, hrun⟩ : ∃ r, commands fd dupFd (ns.map SeekArg.text) s = r := ⟨_, rfl⟩
  rw [hrun] at hcommands
  have hmore : reports (out ++ .firstFlags flags flags :: more) =
      (offsetsFrom 0 (ns.map SeekArg.value)).map both := by
    rw [reports_append, hout, List.nil_append]
    exact hcommands
  simp only [main, hargv, if_neg hname, hsetup, hflags, hrun]
  cases r with
  | error why => exact hmore
  | ok s' =>
    simp only
    split
    · exact hmore
    · exact hmore

theorem both_injective : Function.Injective both := by
  intro o o' heq
  exact Int.ofNat.inj (Prod.mk.inj heq).1

/-- For every list of seek commands: both descriptors always report the same offset, and
    it is the argument for every command exactly if all arguments but the last are 0. -/
theorem main_seeks_iff {env : Env} {prog filename : Bytes} (ns : List SeekArg)
    (hargv : env.argv = prog :: filename :: ns.map SeekArg.text)
    (hname : filename ≠ bytes "--help") (hsetup : ∃ r, setup env = .ok r) :
    (reports (main env).out = ns.map (fun n => ((n.value : Int), (n.value : Int))) ↔
        ∀ n ∈ ns.dropLast, n.value = 0) ∧
      ∀ r ∈ reports (main env).out, r.1 = r.2 := by
  have hmax : ∀ n ∈ ns.map SeekArg.value, n ≤ OFF_MAX := by
    intro n hn
    rcases List.mem_map.mp hn with ⟨m, -, rfl⟩
    exact m.value_le
  have hwanted : ns.map (fun n => ((n.value : Int), (n.value : Int))) =
      (ns.map SeekArg.value).map both := by
    rw [List.map_map]
    rfl
  rw [reports_main ns hargv hname hsetup]
  constructor
  · rw [hwanted, (List.map_injective_iff.mpr both_injective).eq_iff,
      offsetsFrom_eq_self_iff hmax, ← List.map_dropLast]
    constructor
    · rintro (hnil | ⟨-, hzero⟩) n hn
      · rw [List.map_eq_nil_iff.mp hnil] at hn
        cases hn
      · exact hzero _ (List.mem_map_of_mem hn)
    · intro hzero
      refine .inr ⟨rfl, ?_⟩
      intro m hm
      rcases List.mem_map.mp hm with ⟨n, hn, rfl⟩
      exact hzero n hn
  · intro r hr
    rcases List.mem_map.mp hr with ⟨o, -, rfl⟩
    rfl

/-! ### Two runs -/

/-- A run on an empty file, with three descriptors open before. -/
def runEnv (args : List Bytes) : Env where
  argv := bytes "dup-fd-share" :: bytes "tfile" :: args
  sys := ⟨⟨fun fd => if fd < 3 then some 0 else none, 1024⟩, fun _ => ⟨0, 0, 2⟩, 1⟩
  openErr := none
  size := 0
  flags := 2
  closeErr := none
  closeDupErr := none

def seekTen : SeekArg := ⟨bytes "10", by decide, by decide, by decide⟩

def seekZero : SeekArg := ⟨bytes "0", by decide, by decide, by decide⟩

theorem main_seeks_zero_ten :
    (∃ r, setup (runEnv [seekZero.text, seekTen.text]) = .ok r) ∧
      (reports (main (runEnv [seekZero.text, seekTen.text])).out = [(0, 0), (10, 10)] ↔
        ∀ n ∈ [seekZero], n.value = 0) := by
  have hsetup : ∃ r, setup (runEnv [seekZero.text, seekTen.text]) = .ok r := ⟨_, rfl⟩
  exact ⟨hsetup, (main_seeks_iff [seekZero, seekTen] rfl (by decide) hsetup).1⟩

/-- `s10` twice leaves the offset at 20, not at 10. -/
theorem main_seeks_ten_ten :
    ¬ reports (main (runEnv [seekTen.text, seekTen.text])).out = [(10, 10), (10, 10)] := by
  decide +kernel

end LinuxPractice.Chap5.DupFdShare
