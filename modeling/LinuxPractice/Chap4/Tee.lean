import LinuxPractice.CLib.CharArray
import LinuxPractice.CLib.Getopt
import LinuxPractice.CLib.Stdio
import LinuxPractice.Kernel.File
import LinuxPractice.Kernel.Transfer

/-!
# `four-one/tee-practice.c`: standard input to a file and to standard output

The file is the last element of `argv`, as `getopt` leaves it, and `-a` opens it with
`O_APPEND`.  One `read` of at most `MAX_READ` bytes follows, and both `write`s send
`MAX_READ` bytes of the buffer, whatever `read` delivered.
`tee-practice-minimal-reproducible.c` has no option and is otherwise the same.
-/

namespace LinuxPractice.Chap4.Tee

open LinuxPractice.CLib LinuxPractice.Kernel

def MAX_READ : Nat := 20

def O_RDWR : Nat := 0o2
def O_CREAT : Nat := 0o100
def O_APPEND : Nat := 0o2000

/-- One `printf` to standard output. -/
inductive Out where
  /-- Prints `"; optopt =%3d (%c)"`. -/
  | optopt (c : UInt8)
  /-- Prints `"\n"`. -/
  | newline
  /-- Prints `"numRead: %ld\n"`. -/
  | numRead (n : Nat)
  /-- Prints `"fileFd: %ld\n"`. -/
  | fileFd (fd : Nat)
deriving DecidableEq

inductive Exit where
  | success
  | usageErr (text : String)
  /-- `usageError` with the option that `getopt` did not know. -/
  | usageError (progName : Bytes) (msg : String) (opt : UInt8)
  | errExit (text : String)
deriving DecidableEq

/-- The command line, the environment variable that `getopt` looks at, the content of the
    files, and the answers of the system calls. -/
structure Env where
  prog : Bytes
  args : List Bytes
  posixlyCorrect : Bool
  content : Bytes → Bytes
  openAnswer : Except Errno Nat
  stdin : Input UInt8 Errno
  /-- The indeterminate bytes of `buffer`. -/
  stale : CharArray 30
  writeStdout : Except Errno Nat
  writeFile : Except Errno Nat

/-- What a run does: its `printf`s, the arguments of `open`, the bytes that it wrote to
    standard output, and the content of the file behind it. -/
structure Run where
  printed : List Out
  opened : Option (Bytes × Nat)
  stdout : Bytes
  file : Option Bytes
  exit : Exit

/-- The buffer behind `buffer[numRead] = '\0'`. -/
def buffer (stale : CharArray 30) (block : Bytes) : Bytes :=
  (block ++ stale.bytes.drop block.length).set block.length 0

/-- `main` from `open` on; `report` is what it prints for `numRead` and `fileFd`. -/
def copyOnce (env : Env) (report : Nat → Nat → List Out) (path : Bytes) (flags : Nat)
    (printed : List Out) : Run :=
  match env.openAnswer with
  | .error _ => ⟨printed, some (path, flags), [], none, .errExit "open"⟩
  | .ok fileFd =>
    let old := env.content path
    match (env.stdin.read MAX_READ).1 with
    | .error _ => ⟨printed, some (path, flags), [], some old, .errExit "read"⟩
    | .ok block =>
      let printed := printed ++ report block.length fileFd
      let data := (buffer env.stale block).take MAX_READ
      match env.writeStdout with
      | .error _ => ⟨printed, some (path, flags), [], some old, .errExit "write"⟩
      | .ok numWritten =>
        let stdout := data.take numWritten
        match env.writeFile with
        | .error _ => ⟨printed, some (path, flags), stdout, some old, .errExit "write"⟩
        | .ok numWritten =>
          let offset := if flags &&& O_APPEND ≠ 0 then old.length else 0
          ⟨printed, some (path, flags), stdout,
            some (writeAt old offset (data.take numWritten)), .success⟩

/-- The variables of the option loop: `openFlags` and what was printed. -/
abbrev Vars := Nat × List Out

def optionBody (prog : Bytes) (v : Vars) : Opt → Except (Exit × List Out) Vars
  | .letter _ => .ok (O_APPEND, v.2 ++ [.newline])
  | .unknown c => .error (.usageError prog "Unrecognized option" c, v.2 ++ [.optopt c, .newline])

/-- The letters of the option string. -/
def letters : Bytes := bytes "a"

/-- The option loop and what comes behind it. -/
def parsed (env : Env) : Run :=
  match Getopt.forOptions env.posixlyCorrect letters (optionBody env.prog)
      (.start (env.prog :: env.args)) (0, []) with
  | .error (exit, printed) => ⟨printed, none, [], none, exit⟩
  | .ok (argv, openFlags, printed) =>
    copyOnce env (fun n fd => [.numRead n, .fileFd fd]) (argv.getLast?.getD [])
      (openFlags ||| (O_RDWR ||| O_CREAT)) printed

def main (env : Env) : Run :=
  match env.args with
  | [] => ⟨[], none, [], none, .usageErr "t-practice: missing filename argument\n"⟩
  | arg :: rest =>
    if 1 < rest.length ∨ arg = bytes "--help" then
      ⟨[], none, [], none, .usageErr "Usage error\nDid you supply the filename?\n"⟩
    else parsed env

/-- `main` of `tee-practice-minimal-reproducible.c`. -/
def Minimal.main (env : Env) : Run :=
  match env.args with
  | [arg] =>
    if arg = bytes "--help" then
      ⟨[], none, [], none, .usageErr "Usage error\nDid you supply the filename?\n"⟩
    else copyOnce env (fun n _ => [.numRead n]) arg (O_RDWR ||| O_CREAT) []
  | _ => ⟨[], none, [], none, .usageErr "Usage error\nDid you supply the filename?\n"⟩

/-! ### Which file is opened -/

/-- The file for a command line: `getopt` moves an operand behind an option or the mark
    that follows it, and else the last argument stays in its place. -/
def target (posix : Bool) : List Bytes → Bytes
  | [x, y] => if posix = false ∧ isOperand x = true ∧ isOperand y = false then x else y
  | args => args.getLast?.getD []

/-- The command lines that `main` accepts. -/
structure Accepted (posix : Bool) (args : List Bytes) : Prop where
  count : args.length = 1 ∨ args.length = 2
  noHelp : args.head? ≠ some (bytes "--help")
  known : ∀ c ∈ optionChars posix args, c ∈ letters

theorem getLast?_arranged {posix : Bool} {args : List Bytes}
    (h : args.length = 1 ∨ args.length = 2) (prog : Bytes) :
    (prog :: arranged posix args).getLast?.getD [] = target posix args := by
  match args, h with
  | [x], _ =>
    cases posix with
    | true => rfl
    | false =>
      by_cases hmark : x = endMark
      · subst hmark
        rfl
      · cases hx : isOperand x <;>
          simp [arranged, options, beforeMark, fromMark, target, hmark, hx]
  | [x, y], _ =>
    cases posix with
    | true => rfl
    | false =>
      by_cases hmark : x = endMark
      · subst hmark
        simp [arranged, options, beforeMark, fromMark, target, Getopt.isOperand_endMark]
      · by_cases hmark' : y = endMark
        · subst hmark'
          cases hx : isOperand x <;>
            simp [arranged, options, beforeMark, fromMark, target, hmark, hx,
              Getopt.isOperand_endMark]
        · cases hx : isOperand x <;> cases hy : isOperand y <;>
            simp [arranged, options, beforeMark, fromMark, target, hmark, hmark', hx, hy]

theorem foldlM_known {prog : Bytes} {cs : Bytes} (h : ∀ c ∈ cs, c ∈ letters) (v : Vars) :
    (Getopt.optsOf letters cs).foldlM (optionBody prog) v =
      .ok (if cs = [] then v.1 else O_APPEND, v.2 ++ List.replicate cs.length .newline) := by
  induction cs generalizing v with
  | nil => simp [Getopt.optsOf]; rfl
  | cons c cs ih =>
    have hc : c ∈ letters := h c (by simp)
    rw [Getopt.optsOf, List.map_cons, List.foldlM_cons, if_pos hc]
    refine (ih (fun d hd => h d (by simp [hd])) (O_APPEND, v.2 ++ [.newline])).trans ?_
    by_cases hcs : cs = [] <;> simp [hcs, List.replicate_succ]

theorem foldlM_unknown {prog : Bytes} {cs : Bytes} (h : ¬ ∀ c ∈ cs, c ∈ letters) (v : Vars) :
    ∃ c printed, c ∉ letters ∧ (Getopt.optsOf letters cs).foldlM (optionBody prog) v =
      .error (.usageError prog "Unrecognized option" c, printed) := by
  induction cs generalizing v with
  | nil => simp at h
  | cons c cs ih =>
    rw [Getopt.optsOf, List.map_cons, List.foldlM_cons]
    by_cases hc : c ∈ letters
    · rw [if_pos hc]
      exact ih (by simpa [hc] using h) (O_APPEND, v.2 ++ [.newline])
    · rw [if_neg hc]
      exact ⟨c, _, hc, rfl⟩

/-- The flags for the letters of the options. -/
def flagsFor (cs : Bytes) : Nat := (if cs = [] then 0 else O_APPEND) ||| (O_RDWR ||| O_CREAT)

theorem parsed_known {env : Env} (hcount : env.args.length = 1 ∨ env.args.length = 2)
    (h : ∀ c ∈ optionChars env.posixlyCorrect env.args, c ∈ letters) :
    ∃ printed, parsed env = copyOnce env (fun n fd => [.numRead n, .fileFd fd])
      (target env.posixlyCorrect env.args)
      (flagsFor (optionChars env.posixlyCorrect env.args)) printed := by
  rw [parsed, Getopt.forOptions_start, foldlM_known h]
  refine ⟨List.replicate (optionChars env.posixlyCorrect env.args).length .newline, ?_⟩
  rw [← getLast?_arranged hcount env.prog]
  rfl

theorem parsed_unknown {env : Env}
    (h : ¬ ∀ c ∈ optionChars env.posixlyCorrect env.args, c ∈ letters) :
    ∃ c printed, parsed env =
      ⟨printed, none, [], none, .usageError env.prog "Unrecognized option" c⟩ := by
  rcases foldlM_unknown h (0, []) with ⟨c, printed, -, hfold⟩
  rw [parsed, Getopt.forOptions_start, hfold]
  exact ⟨c, printed, rfl⟩

theorem copyOnce_opened (env : Env) (report : Nat → Nat → List Out) (path : Bytes) (flags : Nat)
    (printed : List Out) : (copyOnce env report path flags printed).opened = some (path, flags) := by
  unfold copyOnce
  split
  · rfl
  · split
    · rfl
    · split
      · rfl
      · split <;> rfl

theorem main_accepted {env : Env} (h : Accepted env.posixlyCorrect env.args) :
    ∃ printed, main env = copyOnce env (fun n fd => [.numRead n, .fileFd fd])
      (target env.posixlyCorrect env.args)
      (flagsFor (optionChars env.posixlyCorrect env.args)) printed := by
  rcases h with ⟨hcount, hhelp, hknown⟩
  obtain ⟨printed, hparsed⟩ := parsed_known hcount hknown
  refine ⟨printed, ?_⟩
  rw [← hparsed, main]
  split
  · rename_i hargs
    simp [hargs] at hcount
  · rename_i arg rest hargs
    apply if_neg
    rintro (hmany | rfl)
    · rw [hargs, List.length_cons] at hcount
      omega
    · simp [hargs] at hhelp

theorem main_refused {env : Env} (h : ¬ Accepted env.posixlyCorrect env.args) :
    ∃ printed exit, main env = ⟨printed, none, [], none, exit⟩ ∧ exit ≠ .success := by
  rw [main]
  split
  · exact ⟨_, _, rfl, by simp⟩
  · rename_i arg rest hargs
    split
    · exact ⟨_, _, rfl, by simp⟩
    · rename_i hcheck
      rw [not_or] at hcheck
      have hunknown : ¬ ∀ c ∈ optionChars env.posixlyCorrect env.args, c ∈ letters := by
        intro hknown
        refine h ⟨?_, ?_, hknown⟩
        · rw [hargs, List.length_cons]
          omega
        · simpa [hargs] using hcheck.2
      obtain ⟨c, printed, hparsed⟩ := parsed_unknown hunknown
      exact ⟨_, _, hparsed, by simp⟩

/-- For every command line: the program calls `open` just if it has one or two arguments,
    the first is not `--help`, and all options are letters `a`; the file is the one that
    `getopt` leaves at the end, and `O_APPEND` is set just if there is an option.  In all
    other cases nothing is opened or written. -/
theorem main_opens_target (env : Env) :
    (∀ path flags, (main env).opened = some (path, flags) ↔
      Accepted env.posixlyCorrect env.args ∧ path = target env.posixlyCorrect env.args ∧
        flags = flagsFor (optionChars env.posixlyCorrect env.args)) ∧
      ((main env).opened = none →
        (main env).stdout = [] ∧ (main env).file = none ∧ (main env).exit ≠ .success) := by
  by_cases h : Accepted env.posixlyCorrect env.args
  · obtain ⟨printed, hmain⟩ := main_accepted h
    rw [hmain, copyOnce_opened]
    refine ⟨?_, ?_⟩
    · intro path flags
      simp [h, eq_comm]
    · intro hnone
      cases hnone
  · obtain ⟨printed, exit, hmain, hexit⟩ := main_refused h
    rw [hmain]
    refine ⟨?_, fun _ => ⟨rfl, rfl, hexit⟩⟩
    intro path flags
    simp [h]

theorem copyOnce_report (env : Env) (report report' : Nat → Nat → List Out) (path : Bytes)
    (flags : Nat) (printed printed' : List Out) :
    (copyOnce env report path flags printed).stdout =
        (copyOnce env report' path flags printed').stdout ∧
      (copyOnce env report path flags printed).file =
        (copyOnce env report' path flags printed').file ∧
      (copyOnce env report path flags printed).exit =
        (copyOnce env report' path flags printed').exit := by
  unfold copyOnce
  split
  · exact ⟨rfl, rfl, rfl⟩
  · split
    · exact ⟨rfl, rfl, rfl⟩
    · split
      · exact ⟨rfl, rfl, rfl⟩
      · split <;> exact ⟨rfl, rfl, rfl⟩

/-- On one argument that is no option both programs do the same. -/
theorem minimal_agrees {env : Env} {arg : Bytes} (hargs : env.args = [arg])
    (hop : isOperand arg = true) :
    (Minimal.main env).stdout = (main env).stdout ∧ (Minimal.main env).file = (main env).file ∧
      (Minimal.main env).exit = (main env).exit := by
  have hhelp : arg ≠ bytes "--help" := by
    rintro rfl
    cases hop
  have hchars : ∀ posix, optionChars posix [arg] = [] := by
    intro posix
    by_cases hmark : arg = endMark <;>
      cases posix <;> simp [optionChars, options, beforeMark, hmark, hop]
  have haccepted : Accepted env.posixlyCorrect env.args := by
    rw [hargs]
    refine ⟨.inl rfl, by simpa using hhelp, ?_⟩
    rw [hchars]
    simp
  obtain ⟨printed, hmain⟩ := main_accepted haccepted
  have hminimal : Minimal.main env =
      copyOnce env (fun n _ => [.numRead n]) arg (O_RDWR ||| O_CREAT) [] := by
    rw [Minimal.main, hargs]
    exact if_neg hhelp
  rw [hmain, hminimal, hargs, hchars]
  exact copyOnce_report env _ _ _ _ _ _

/-! ### What is written -/

theorem length_buffer {stale : CharArray 30} {block : Bytes} (h : block.length ≤ MAX_READ) :
    (buffer stale block).length = 30 := by
  have hmax : MAX_READ = 20 := rfl
  simp [buffer, stale.length_bytes]
  omega

/-- The bytes sent are a NUL-free text only if `read` has delivered all of them. -/
theorem take_buffer_eq_iff {stale : CharArray 30} {block rest : Bytes}
    (hblock : block.length ≤ MAX_READ) (hnul : 0 ∉ block ++ rest) :
    (buffer stale block).take MAX_READ = block ++ rest ↔
      rest = [] ∧ block.length = MAX_READ := by
  have hmax : MAX_READ = 20 := rfl
  constructor
  · intro h
    have hlen := congrArg List.length h
    rw [List.length_take, length_buffer hblock, List.length_append] at hlen
    have hfull : block.length = MAX_READ := by
      by_contra hne
      -- the NUL stored behind the block is among the bytes sent
      apply hnul
      rw [← h]
      apply List.mem_of_getElem? (i := block.length)
      rw [List.getElem?_take_of_lt (by omega), buffer, List.getElem?_set_self]
      simp [stale.length_bytes]
      omega
    refine ⟨?_, hfull⟩
    apply List.eq_nil_of_length_eq_zero
    omega
  · rintro ⟨rfl, hfull⟩
    rw [List.append_nil, buffer, List.take_set_of_le (by omega), ← hfull, List.take_left]

/-- The answers of a run that ends with success, and what it has written then. -/
theorem of_copyOnce_success {env : Env} {report : Nat → Nat → List Out} {path : Bytes}
    {flags : Nat} {printed : List Out}
    (h : (copyOnce env report path flags printed).exit = .success) :
    ∃ block n m, (env.stdin.read MAX_READ).1 = .ok block ∧ env.writeStdout = .ok n ∧
      env.writeFile = .ok m ∧
      (copyOnce env report path flags printed).stdout =
        ((buffer env.stale block).take MAX_READ).take n ∧
      (copyOnce env report path flags printed).file =
        some (writeAt (env.content path)
          (if flags &&& O_APPEND ≠ 0 then (env.content path).length else 0)
          (((buffer env.stale block).take MAX_READ).take m)) := by
  unfold copyOnce at h ⊢
  split at h
  · cases h
  · split at h
    · cases h
    · rename_i block hread
      split at h
      · cases h
      · rename_i n hstdout
        split at h
        · cases h
        · rename_i m hfile
          exact ⟨block, n, m, hread, hstdout, hfile, rfl, rfl⟩

/-- The `write`s take all that they are given. -/
structure Env.FullWrites (env : Env) : Prop where
  stdout : ∀ n, env.writeStdout = .ok n → MAX_READ ≤ n
  file : ∀ m, env.writeFile = .ok m → MAX_READ ≤ m

theorem writeAt_zero_eq_iff (old data : Bytes) :
    writeAt old 0 data = data ↔ old.length ≤ data.length := by
  rw [writeAt_eq (Nat.zero_le _), List.take_zero, List.nil_append, Nat.zero_add,
    List.append_right_eq_self, List.drop_eq_nil_iff]

theorem flagsFor_append_iff (cs : Bytes) : flagsFor cs &&& O_APPEND ≠ 0 ↔ cs ≠ [] := by
  by_cases h : cs = []
  · simp only [flagsFor, h, if_pos]
    decide
  · simp only [flagsFor, if_neg h]
    simp only [ne_eq, h, not_false_eq_true, iff_true]
    decide

/-- In every successful run on a text without NULs, with writes that are not cut short:
    the text arrives on standard output and in the file, instead of or behind its old
    content, exactly if it has `MAX_READ` bytes, `read` delivers them at once, and the old
    content is kept or not longer than that. -/
theorem main_tees_iff (env : Env) (hexit : (main env).exit = .success)
    (hnul : 0 ∉ env.stdin.data) (hwrites : env.FullWrites) :
    ((main env).stdout = env.stdin.data ∧
        (main env).file = some (
          if optionChars env.posixlyCorrect env.args = [] then env.stdin.data
          else env.content (target env.posixlyCorrect env.args) ++ env.stdin.data)) ↔
      env.stdin.data.length = MAX_READ ∧ (env.stdin.read MAX_READ).1 = .ok env.stdin.data ∧
        (optionChars env.posixlyCorrect env.args = [] →
          (env.content (target env.posixlyCorrect env.args)).length ≤ MAX_READ) := by
  have haccepted : Accepted env.posixlyCorrect env.args := by
    by_contra h
    obtain ⟨printed, exit, hmain, hfails⟩ := main_refused h
    rw [hmain] at hexit
    exact hfails hexit
  obtain ⟨printed, hmain⟩ := main_accepted haccepted
  rw [hmain] at hexit ⊢
  obtain ⟨block, n, m, hread, hn, hm, hstdout, hfile⟩ := of_copyOnce_success hexit
  obtain ⟨⟨answer, rest⟩, hcall⟩ : ∃ r, env.stdin.read MAX_READ = r := ⟨_, rfl⟩
  obtain rfl : answer = .ok block := by rw [← hread, hcall]
  obtain ⟨hdata, hblock, -⟩ := Input.of_read_ok hcall
  rw [hdata] at hnul
  have hsent := @take_buffer_eq_iff env.stale block rest.data hblock hnul
  have hlen : ((buffer env.stale block).take MAX_READ).length = MAX_READ := by
    rw [List.length_take, length_buffer hblock]
    rfl
  rw [List.take_of_length_le (by rw [hlen]; exact hwrites.stdout n hn)] at hstdout
  rw [List.take_of_length_le (by rw [hlen]; exact hwrites.file m hm)] at hfile
  rw [hstdout, hfile, hdata, hread, hsent]
  by_cases hchars : optionChars env.posixlyCorrect env.args = []
  · have hflags : ¬ flagsFor (optionChars env.posixlyCorrect env.args) &&& O_APPEND ≠ 0 := by
      rw [flagsFor_append_iff, not_not]
      exact hchars
    rw [if_neg hflags, if_pos hchars, Option.some_inj]
    constructor
    · rintro ⟨⟨hrest, hfull⟩, hcontent⟩
      rw [hsent.mpr ⟨hrest, hfull⟩, writeAt_zero_eq_iff, hrest, List.append_nil, hfull] at hcontent
      rw [hrest, List.append_nil]
      exact ⟨hfull, rfl, fun _ => hcontent⟩
    · rintro ⟨hfull, hall, hold⟩
      have hrest : rest.data = [] := List.append_right_eq_self.mp (Except.ok.inj hall).symm
      rw [hrest, List.append_nil] at hfull
      refine ⟨⟨hrest, hfull⟩, ?_⟩
      rw [hsent.mpr ⟨hrest, hfull⟩, writeAt_zero_eq_iff, hrest, List.append_nil, hfull]
      exact hold hchars
  · have hflags : flagsFor (optionChars env.posixlyCorrect env.args) &&& O_APPEND ≠ 0 :=
      (flagsFor_append_iff _).mpr hchars
    rw [if_pos hflags, if_neg hchars, Option.some_inj, writeAt_length]
    constructor
    · rintro ⟨⟨hrest, hfull⟩, -⟩
      rw [hrest, List.append_nil]
      exact ⟨hfull, rfl, fun h => absurd h hchars⟩
    · rintro ⟨hfull, hall, -⟩
      have hrest : rest.data = [] := List.append_right_eq_self.mp (Except.ok.inj hall).symm
      rw [hrest, List.append_nil] at hfull
      exact ⟨⟨hrest, hfull⟩, by rw [hsent.mpr ⟨hrest, hfull⟩]⟩

/-- Twenty letters behind the old content of `tfile`, with the option behind the file. -/
def twenty : Env where
  prog := bytes "tee_practice"
  args := [bytes "tfile", bytes "-a"]
  posixlyCorrect := false
  content _ := bytes "old"
  openAnswer := .ok 3
  stdin := ⟨bytes "abcdefghijklmnopqrst", []⟩
  stale := .zeros 30
  writeStdout := .ok 20
  writeFile := .ok 20

theorem main_tees_twenty :
    (main twenty).file = some (bytes "oldabcdefghijklmnopqrst") := by
  have hexit : (main twenty).exit = .success := by
    obtain ⟨printed, hmain⟩ := @main_accepted twenty
      ⟨.inr rfl, by decide, by decide⟩
    rw [hmain]
    rfl
  have hwrites : twenty.FullWrites :=
    ⟨fun n h => by cases h; decide, fun m h => by cases h; decide⟩
  exact ((main_tees_iff twenty hexit (by decide) hwrites).mpr
    ⟨rfl, rfl, fun h => absurd h (by decide)⟩).2

end LinuxPractice.Chap4.Tee
