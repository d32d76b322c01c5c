import LinuxPractice.CLib.Stdio
import LinuxPractice.Chap12.Trim
import LinuxPractice.Tlpi.GetNum

/-!
# The line loop of the two `/proc` programs

Both `readfdata` functions read a status file line by line into `char line[128]`,
cut the line with `strtok_r`, trim tokens in place and convert them with
`getInt`.  `Frame` holds the variables of that loop: `token` and `saveptr` are
offsets into `line`, and `vars` are the variables of the particular program.

A loop body that runs to its end answers `.ok`; `continue`, `break`, `exit()` and
undefined behaviour leave it as `Jump`s that carry the state reached.
-/

namespace LinuxPractice.Chap12

open LinuxPractice.CLib LinuxPractice.Tlpi

/-- How a program ends before its last statement. -/
inductive Stop where
  /-- The behaviour is undefined: an access outside an array object. -/
  | undefined
  /-- `gnFail` printed its texts and called `exit(EXIT_FAILURE)`. -/
  | gnFail (texts : GnFail)
  /-- `errExit(text)` printed its text and called `exit(EXIT_FAILURE)`. -/
  | errExit (text : String)
deriving DecidableEq

/-- One `printf` of the programs to standard output. -/
inductive Out where
  /-- Prints `"No token\n"`. -/
  | noToken
  /-- Prints `"%s \n"` with `strerror(errno)`, after a failing `fopen`. -/
  | fopenFailed (errno : Errno)
  /-- Prints `"%s @ stat\n"` with `strerror(errno)` (`p_id_cmdn_si.c`). -/
  | statFailed (errno : Errno)
  /-- Prints `"\n\nEnd of dir strean\n\n"`. -/
  | endOfDirStream
  /-- Prints `"Pid: %ld\nName: %s\n"` and `"\n\n"` (`p_id_cmdn_si.c`). -/
  | record (pid : Int) (name : Bytes)
  /-- Prints `"Pid: string %s or integer %ld\n"` (`pstree_implementation.c`). -/
  | pidLine (token : Bytes) (pid : Int)
  /-- Prints `"PPid: string %s or integer %ld\n"` (`pstree_implementation.c`). -/
  | ppidLine (token : Bytes) (ppid : Int)
  /-- Prints `"Name: %s\n"` (`pstree_implementation.c`). -/
  | nameLine (token : Bytes)
  /-- Prints `"Child Pid: %ld\n"` with `getpid()` (`pstree_implementation.c`). -/
  | childPid
  /-- Prints `"Inside child\n"` or `"Inside parent\n"` (`pstree_implementation.c`). -/
  | inside (child : Bool)
  /-- Prints `"Child Pid: %ld\n"` with the answer of `fork` (`pstree_implementation.c`). -/
  | forked (pid : Int)
  /-- Prints `"stat proc_dirname: %s \tError: %s\n"` (`pstree_implementation.c`). -/
  | statDirFailed (path : Bytes) (errno : Errno)
  /-- Prints `"stat pathname: %s \tError: %s\n"` (`pstree_implementation.c`). -/
  | statPathFailed (path : Bytes) (errno : Errno)
  /-- Prints `"%s\n"` with the path of a status file (`pstree_implementation.c`). -/
  | path (path : Bytes)
  /-- Prints `"\n"` (`pstree_implementation.c`). -/
  | emptyLine
deriving DecidableEq

inductive Jump (σ : Type) where
  | cont (s : σ)
  | brk (s : σ)
  | stop (why : Stop) (s : σ)

/-- The variables of the line loop.  `trims` lists the arguments of the calls of
    `trim` made so far; the programs do not have it and nothing reads it. -/
structure Frame (ν : Type) where
  line : CharArray 128
  token : Nat
  saveptr : Nat
  vars : ν
  out : List Out
  trims : List (CharArray 128 × Nat)

def stateOf {σ : Type} : Except (Jump σ) σ → σ
  | .ok s => s
  | .error (.cont s) => s
  | .error (.brk s) => s
  | .error (.stop _ s) => s

namespace Frame

variable {ν : Type}

/-- The call `fgets(line, sizeof line, fst)` that delivers `chunk`. -/
def fgets (f : Frame ν) (chunk : Bytes) : Frame ν :=
  { f with line := f.line.putLine chunk }

/-- The assignment `token = strtok_r(p, delim, &saveptr)` and its NULL test: without a
    token the loop prints "No token" and continues. -/
def strtok (f : Frame ν) (p : Nat) (delim : Bytes) : Except (Jump (Frame ν)) (Frame ν) :=
  match f.line.strtok_r p delim with
  | none => .error (.stop .undefined f)
  | some (line, some token, saveptr) => .ok { f with line, token, saveptr }
  | some (line, none, saveptr) =>
    .error (.cont { f with line, saveptr, out := f.out ++ [.noToken] })

/-- The string that `token` points to, as `strcmp`, `getInt` and `%s` read it. -/
def text (f : Frame ν) : Except (Jump (Frame ν)) Bytes :=
  match f.line.cstr f.token with
  | none => .error (.stop .undefined f)
  | some s => .ok s

def trimToken (f : Frame ν) : Except (Jump (Frame ν)) (Frame ν) :=
  match trim f.line f.token with
  | none => .error (.stop .undefined { f with trims := f.trims ++ [(f.line, f.token)] })
  | some run =>
    .ok { f with line := run.trace.array, trims := f.trims ++ [(f.line, f.token)] }

def getIntToken (f : Frame ν) (flags : Nat) (name : String) : Except (Jump (Frame ν)) Int := do
  let s ← f.text
  match getInt s flags name with
  | .error texts => .error (.stop (.gnFail texts) f)
  | .ok v => .ok v

end Frame

/-- The loop `while (again && fgets(line, sizeof line, fst) != NULL) body` on the
    strings that `fgets` delivers. -/
def lineLoop {ν : Type} (again : ν → Bool)
    (body : Frame ν → Except (Jump (Frame ν)) (Frame ν)) :
    List Bytes → Frame ν → Frame ν × Option Stop
  | [], f => (f, none)
  | chunk :: chunks, f =>
    if again f.vars then
      match body (f.fgets chunk) with
      | .ok f => lineLoop again body chunks f
      | .error (.cont f) => lineLoop again body chunks f
      | .error (.brk f) => (f, none)
      | .error (.stop why f) => (f, some why)
    else (f, none)

theorem lineLoop_cons_next {ν : Type} {again : ν → Bool}
    {body : Frame ν → Except (Jump (Frame ν)) (Frame ν)} {chunk : Bytes} {f g : Frame ν}
    (hagain : again f.vars = true)
    (h : body (f.fgets chunk) = .ok g ∨ body (f.fgets chunk) = .error (.cont g))
    (chunks : List Bytes) :
    lineLoop again body (chunk :: chunks) f = lineLoop again body chunks g := by
  rcases h with h | h <;> simp only [lineLoop, if_pos hagain, h]

theorem lineLoop_cons_stop {ν : Type} {again : ν → Bool}
    {body : Frame ν → Except (Jump (Frame ν)) (Frame ν)} {chunk : Bytes} {f g : Frame ν}
    {why : Stop} (hagain : again f.vars = true)
    (h : body (f.fgets chunk) = .error (.stop why g)) (chunks : List Bytes) :
    lineLoop again body (chunk :: chunks) f = (g, some why) := by
  simp only [lineLoop, if_pos hagain, h]

/-- The invariant rule of the loop: what every pass of the body keeps, whichever way the
    pass ends, holds behind the loop. -/
theorem lineLoop_inv {ν : Type} {again : ν → Bool}
    {body : Frame ν → Except (Jump (Frame ν)) (Frame ν)} {P : Frame ν → Prop}
    {chunks : List Bytes}
    (hbody : ∀ chunk ∈ chunks, ∀ f, P f → P (stateOf (body (f.fgets chunk)))) :
    ∀ f, P f → P (lineLoop again body chunks f).1 := by
  induction chunks with
  | nil =>
    intro f hf
    exact hf
  | cons chunk chunks ih =>
    intro f hf
    have ih' := ih fun c hc => hbody c (by simp [hc])
    have hpass := hbody chunk (by simp) f hf
    unfold lineLoop
    split
    · cases hend : body (f.fgets chunk) with
      | ok g =>
        rw [hend] at hpass
        exact ih' g hpass
      | error jump =>
        rw [hend] at hpass
        cases jump with
        | cont g => exact ih' g hpass
        | brk g => exact hpass
        | stop why g => exact hpass
    · exact hf

/-! ### Directory entries -/

/-- The `S_IFMT` part of `st_mode`, as far as the programs tell the types apart. -/
inductive FileType where
  | regular
  | directory
  | other
deriving DecidableEq

/-- A directory entry, with what the calls made for it answer: `stat` and `fopen`
    for the path they are given, and the indeterminate bytes of `line`. -/
structure Entry where
  d_name : Bytes
  stat : Bytes → Except Errno FileType
  fopen : Bytes → Except Errno Stream
  stale : CharArray 128

/-! ### Keys and values of a line -/

def colon : Bytes := [58]

def tab : Bytes := [9]

/-- The C string that a delivered chunk is: its bytes before the first NUL. -/
def lineString (chunk : Bytes) : Bytes := chunk.takeWhile (· != 0)

theorem Frame.cstr_fgets {ν : Type} (f : Frame ν) {chunk : Bytes} (h : chunk.length ≤ 127) :
    (f.fgets chunk).line.cstr 0 = some (lineString chunk) := CharArray.cstr_putLine f.line h

theorem lineString_append {s : Bytes} (h : (0 : UInt8) ∉ s) (t : Bytes) :
    lineString (s ++ t) = s ++ lineString t := by
  apply List.takeWhile_append_of_pos
  intro c hc
  simp only [bne_iff_ne]
  rintro rfl
  exact h hc

theorem lineString_eq {s : Bytes} (h : (0 : UInt8) ∉ s) : lineString s = s := by
  simpa [lineString] using lineString_append h []

theorem nextToken_key {key : Bytes} (hne : key ≠ []) (hkey : ∀ c ∈ key, c ∉ colon)
    (value : Bytes) : nextToken colon (key ++ 58 :: value) = some (key, value) := by
  have h : nextToken colon ([] ++ key ++ 58 :: value) = some (key, value) :=
    nextToken_append (by simp) hne hkey (by simp [colon]) value
  exact h

theorem nextToken_value {value : Bytes} (hne : value ≠ []) (hvalue : (58 : UInt8) ∉ value) :
    nextToken colon value = some (value, []) := by
  have hmem : ∀ c ∈ value, c ∉ colon := by
    intro c hc hcolon
    obtain rfl : c = 58 := by simpa [colon] using hcolon
    exact hvalue hc
  have h : nextToken colon ([] ++ value) = some (value, []) :=
    nextToken_last (by simp) hne hmem
  exact h

theorem strspn_colon_of_head {c : UInt8} (h : c ∉ colon) (s : Bytes) :
    strspn (c :: s) colon = 0 := by
  have hspn : strspn ([] ++ c :: s) colon = ([] : Bytes).length :=
    strspn_append (by simp) (by simpa using h)
  exact hspn

/-- A line with a numeral behind blanks: key and value are cut apart, and `trim` leaves
    the numeral. -/
theorem cut_numeral {key blanks : Bytes} (hne : key ≠ []) (hkey : ∀ c ∈ key, c ∉ colon ∧ c ≠ 0)
    (hblank : Blank blanks) (n : Nat) :
    let value := blanks ++ decimal n ++ [newline]
    nextToken colon (lineString (key ++ 58 :: value)) = some (key, value) ∧
      nextToken colon value = some (value, []) ∧ strip value = decimal n := by
  intro value
  have hcolon : (58 : UInt8) ∉ value := by
    have hblanks : (58 : UInt8) ∉ blanks := fun h => absurd (hblank _ h) (by decide)
    have hdigits : (58 : UInt8) ∉ decimal n := notMem_decimal (by decide)
    simp [value, hblanks, hdigits, show (58 : UInt8) ≠ newline by decide]
  have hnul : (0 : UInt8) ∉ key ++ 58 :: value := by
    have hkeyNul : (0 : UInt8) ∉ key := fun h => (hkey 0 h).2 rfl
    have hblanks : (0 : UInt8) ∉ blanks := fun h => absurd (hblank _ h) (by decide)
    have hdigits : (0 : UInt8) ∉ decimal n := notMem_decimal (by decide)
    simp [value, hkeyNul, hblanks, hdigits, show (0 : UInt8) ≠ newline by decide]
  refine ⟨?_, ?_, ?_⟩
  · rw [lineString_eq hnul]
    exact nextToken_key hne (fun c hc => (hkey c hc).1) value
  · exact nextToken_value (by simp [value]) hcolon
  · exact strip_decimal n hblank (by decide)

/-- A call of `trim` on a token behind the start of the line that does what it
    should: see `TrimOk`. -/
def SafeCall (call : CharArray 128 × Nat) : Prop :=
  ∃ tok run, call.1.cstr call.2 = some tok ∧ 0 < call.2 ∧ trim call.1 call.2 = some run ∧
    TrimOk call.1 call.2 tok run

/-- A call of `trim` whose first loop runs past the start of the token, whether or
    not the call is undefined afterwards. -/
def Overruns (call : CharArray 128 × Nat) : Prop :=
  ∀ run, trim call.1 call.2 = some run → run.tail < 0

/-! ### What a token leaves behind -/

/-- A token of the line was cut off with the delimiter ":": the token and the rest of
    the line are C strings of `line`, and the byte before the token is a delimiter or
    the NUL that replaced one, so no blank. -/
structure AfterToken {ν : Type} (f : Frame ν) (tok rest : Bytes) : Prop where
  cstr_token : f.line.cstr f.token = some tok
  cstr_save : f.line.cstr f.saveptr = some rest
  le_save : f.token + tok.length ≤ f.saveptr
  nul : rest = [] ∨ f.token + tok.length < f.saveptr ∧ f.line.load (f.saveptr - 1) = some 0
  before : 0 < f.token → ∃ c, f.line.load (f.token - 1) = some c ∧ isspace c = false

namespace Frame

variable {ν : Type}

theorem strtok_of_none {f : Frame ν} {p : Nat} {delim s : Bytes}
    (hs : f.line.cstr p = some s) (h : nextToken delim s = none) :
    ∃ saveptr, f.strtok p delim =
      .error (.cont { f with saveptr, out := f.out ++ [.noToken] }) := by
  refine ⟨p + s.length, ?_⟩
  rw [strtok, CharArray.strtok_r_of_none hs h]

theorem strtok_of_some {f : Frame ν} {p : Nat} {delim s tok rest : Bytes}
    (hs : f.line.cstr p = some s) (h : nextToken delim s = some (tok, rest)) :
    ∃ line saveptr, f.strtok p delim =
        .ok { f with line, token := p + strspn s delim, saveptr } ∧
      CharArray.TokenAt f.line p delim tok rest line (p + strspn s delim) saveptr := by
  rcases CharArray.strtok_r_of_some hs h with ⟨b, save, heq, hat⟩
  exact ⟨b, save, by rw [strtok, heq], hat⟩

/-- The byte that ends a token is a NUL, so the next string starts behind one. -/
theorem nul_of_tokenAt {a b : CharArray 128} {p token save : Nat} {delim tok rest : Bytes}
    (h : CharArray.TokenAt a p delim tok rest b token save) :
    rest = [] ∨ token + tok.length < save ∧ b.load (save - 1) = some 0 := by
  rcases h.save_eq with hnil | hsave
  · exact .inl hnil
  · refine .inr ⟨by omega, ?_⟩
    rw [hsave, Nat.add_sub_cancel]
    exact CharArray.load_end_of_cstr h.cstr_token

theorem strtok_line {f : Frame ν} {s tok rest : Bytes} (hs : f.line.cstr 0 = some s)
    (h : nextToken colon s = some (tok, rest)) :
    ∃ line saveptr, f.strtok 0 colon =
        .ok { f with line, token := strspn s colon, saveptr } ∧
      (rest = [] ∨ saveptr = strspn s colon + tok.length + 1) ∧
      AfterToken { f with line, token := strspn s colon, saveptr } tok rest := by
  rcases strtok_of_some (f := f) hs h with ⟨line, saveptr, heq, hat⟩
  rw [Nat.zero_add] at heq hat
  refine ⟨line, saveptr, heq, hat.save_eq, hat.cstr_token, hat.cstr_save, hat.le_save,
    nul_of_tokenAt hat, ?_⟩
  intro hpos
  rcases hat.before with h0 | ⟨-, d, hd, hload⟩
  · simp only at hpos
    omega
  · refine ⟨d, hload, ?_⟩
    obtain rfl : d = 58 := by simpa [colon] using hd
    decide

/-- A further token stands behind a NUL or a skipped delimiter. -/
theorem load_before_next {f : Frame ν} {tok rest tok' rest' : Bytes} {line : CharArray 128}
    {saveptr : Nat} (hf : AfterToken f tok rest) (h : nextToken colon rest = some (tok', rest'))
    (hat : CharArray.TokenAt f.line f.saveptr colon tok' rest' line
      (f.saveptr + strspn rest colon) saveptr) :
    0 < f.saveptr ∧
      ∃ c, line.load (f.saveptr + strspn rest colon - 1) = some c ∧ (c = 0 ∨ c = 58) := by
  have hne : rest ≠ [] := by
    rintro rfl
    simp [nextToken, strspn] at h
  rcases hf.nul.resolve_left hne with ⟨hpos, hnul⟩
  refine ⟨by omega, ?_⟩
  rcases hat.before with h0 | ⟨-, d, hd, hload⟩
  · refine ⟨0, ?_, .inl rfl⟩
    rw [h0, hat.load_eq _ (by omega), hnul]
  · exact ⟨d, hload, .inr (by simpa [colon] using hd)⟩

theorem afterToken_next {f : Frame ν} {tok rest tok' rest' : Bytes} {line : CharArray 128}
    {saveptr : Nat} (hf : AfterToken f tok rest) (h : nextToken colon rest = some (tok', rest'))
    (hat : CharArray.TokenAt f.line f.saveptr colon tok' rest' line
      (f.saveptr + strspn rest colon) saveptr) :
    AfterToken { f with line, token := f.saveptr + strspn rest colon, saveptr } tok' rest' := by
  refine ⟨hat.cstr_token, hat.cstr_save, hat.le_save, nul_of_tokenAt hat, ?_⟩
  intro _
  rcases (load_before_next hf h hat).2 with ⟨c, hc, rfl | rfl⟩
  · exact ⟨0, hc, by decide⟩
  · exact ⟨58, hc, by decide⟩

theorem strtok_next {f : Frame ν} {tok rest tok' rest' : Bytes} (hf : AfterToken f tok rest)
    (h : nextToken colon rest = some (tok', rest')) :
    ∃ line saveptr, f.strtok f.saveptr colon =
        .ok { f with line, token := f.saveptr + strspn rest colon, saveptr } ∧
      0 < f.saveptr ∧ (rest' = [] ∨ saveptr = f.saveptr + strspn rest colon + tok'.length + 1) ∧
      AfterToken { f with line, token := f.saveptr + strspn rest colon, saveptr } tok' rest' := by
  rcases strtok_of_some hf.cstr_save h with ⟨line, saveptr, heq, hat⟩
  exact ⟨line, saveptr, heq, (load_before_next hf h hat).1, hat.save_eq, afterToken_next hf h hat⟩

/-- Trimming the token in place leaves the rest of the line alone. -/
theorem trimToken_of_after {f : Frame ν} {tok rest : Bytes} (hf : AfterToken f tok rest)
    (hpos : 0 < f.token) :
    ∃ run, trim f.line f.token = some run ∧ TrimOk f.line f.token tok run ∧
      f.trimToken =
        .ok { f with line := run.trace.array, trims := f.trims ++ [(f.line, f.token)] } ∧
      AfterToken { f with line := run.trace.array, trims := f.trims ++ [(f.line, f.token)] }
        (strip tok) rest := by
  rcases trim_spec (by decide) hf.cstr_token hpos (.inr (hf.before hpos)) with ⟨run, hrun, hok⟩
  refine ⟨run, hrun, hok, by rw [trimToken, hrun], hok.cstr_eq, ?_, ?_, ?_, ?_⟩
  · rw [← hf.cstr_save]
    exact CharArray.cstr_congr fun i hi => hok.load_eq i (.inr (hf.le_save.trans hi))
  · exact (Nat.add_le_add_left (length_strip_le tok) _).trans hf.le_save
  · rcases hf.nul with hnil | ⟨hsave, hnul⟩
    · exact .inl hnil
    · refine .inr ⟨(Nat.add_le_add_left (length_strip_le tok) _).trans_lt hsave, ?_⟩
      rw [← hnul]
      exact hok.load_eq (f.saveptr - 1) (.inr (by omega))
  · intro _
    rcases hf.before hpos with ⟨c, hc, hcs⟩
    refine ⟨c, ?_, hcs⟩
    rw [← hc]
    exact hok.load_eq (f.token - 1) (.inl (by omega))

theorem text_of_cstr {f : Frame ν} {s : Bytes} (h : f.line.cstr f.token = some s) :
    f.text = .ok s := by
  rw [text, h]

theorem getIntToken_of_cstr {f : Frame ν} {s : Bytes} (h : f.line.cstr f.token = some s)
    (flags : Nat) (name : String) :
    f.getIntToken flags name =
      match getInt s flags name with
      | .error texts => .error (.stop (.gnFail texts) f)
      | .ok v => .ok v := by
  rw [getIntToken, text_of_cstr h]
  rfl

theorem field_of_some {f : Frame ν} {tok rest tok' rest' : Bytes} (hf : AfterToken f tok rest)
    (h : nextToken colon rest = some (tok', rest')) :
    ∃ f₁ line saveptr call, f.strtok f.saveptr colon = .ok f₁ ∧
      f₁.trimToken = .ok { f with line, token := f.saveptr + strspn rest colon, saveptr,
                                  trims := f.trims ++ [call] } ∧
      SafeCall call ∧
      (rest' = [] ∨ saveptr = f.saveptr + strspn rest colon + tok'.length + 1) ∧
      AfterToken { f with line, token := f.saveptr + strspn rest colon, saveptr,
                          trims := f.trims ++ [call] } (strip tok') rest' := by
  rcases strtok_next hf h with ⟨line, saveptr, heq, hpos, hsave, hafter⟩
  have htoken : 0 < f.saveptr + strspn rest colon := by omega
  rcases trimToken_of_after hafter htoken with ⟨run, hrun, hok, htrim, hafter'⟩
  exact ⟨_, _, _, _, heq, htrim, ⟨tok', run, hafter.cstr_token, htoken, hrun, hok⟩, hsave, hafter'⟩

end Frame

end LinuxPractice.Chap12
