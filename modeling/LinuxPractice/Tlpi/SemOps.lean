import LinuxPractice.CLib.Numeral

/-!
# `svsem_op.c`: operations on a semaphore set, as text

An argument lists operations, separated by commas: the number of a semaphore, a sign, a
number, and flags.  `parseOps` converts the numbers with `strtol` and stores them in the
fields of a `struct sembuf`, which are 16 bits wide.
-/

namespace LinuxPractice.Tlpi.SemOps

open LinuxPractice.CLib

def MAX_SEMOPS : Nat := 1000

def IPC_NOWAIT : Nat := 0o4000
def SEM_UNDO : Nat := 0x1000

structure Sembuf where
  sem_num : Nat
  sem_op : Int
  sem_flg : Nat
deriving DecidableEq

/-- How `parseOps` ends the program; all of its messages also show the argument. -/
inductive ParseError where
  /-- Prints `"Too many operations (maximum=%d): \"%s\"\n"`. -/
  | tooMany
  /-- Prints `"Trailing comma or empty argument: \"%s\""`. -/
  | emptyOperation
  /-- Prints `"Expected initial digit: \"%s\"\n"`. -/
  | initialDigit
  /-- Prints `"Expected '+', '-', or '=' in \"%s\"\n"`. -/
  | sign
  /-- Prints `"Expected digit after '%c' in \"%s\"\n"`. -/
  | digitAfter (sign : UInt8)
  /-- Prints `"Expected \"=0\" in \"%s\"\n"`. -/
  | equalsZero
  /-- Prints `"Bad trailing character (%c) in \"%s\"\n"`. -/
  | trailing (c : UInt8)
deriving DecidableEq

/-- The conversion to `unsigned short`. -/
def wrapUShort (v : Int) : Nat := (v % 65536).toNat

def flagBit (c : UInt8) : Nat :=
  if c = 110 then IPC_NOWAIT else if c = 117 then SEM_UNDO else 0

def isFlag (c : UInt8) : Bool := c == 110 || c == 117

/-- `sem_flg` for the flags of an operation. -/
def semFlg (flags : Bytes) : Nat := flags.foldl (fun flg c => flg ||| flagBit c) 0

/-- `sem_op` for the sign of an operation and the value of `strtol`, before the check of
    `=0`. -/
def semOp (sign : UInt8) (value : Int) : Int :=
  if sign = 45 then wrapShort (-wrapShort value) else wrapShort value

/-- The body of the loop up to the search for a comma. -/
def parseOp (remaining : Bytes) : Except ParseError Sembuf :=
  match remaining with
  | [] => .error .emptyOperation
  | c :: _ =>
    if isdigit c = false then .error .initialDigit
    else
      let num := strtol 10 remaining
      match num.rest with
      | [] => .error .sign
      | sign :: text =>
        if sign ∉ bytes "+-=" then .error .sign
        else if text.head?.any isdigit = false then .error (.digitAfter sign)
        else
          let value := strtol 10 text
          if sign = 61 ∧ semOp sign value.value ≠ 0 then .error .equalsZero
          else
            let sop : Sembuf := ⟨wrapUShort num.value, semOp sign value.value,
              semFlg (value.rest.takeWhile isFlag)⟩
            match value.rest.dropWhile isFlag with
            | [] => .ok sop
            | c :: _ => if c = 44 then .ok sop else .error (.trailing c)

/-- What `strchr(remaining, ',') + 1` points to. -/
def afterComma : Bytes → Option Bytes
  | [] => none
  | c :: cs => if c = 44 then some cs else afterComma cs

theorem length_afterComma_lt {s rest : Bytes} (h : afterComma s = some rest) :
    rest.length < s.length := by
  induction s with
  | nil => cases h
  | cons c cs ih =>
    unfold afterComma at h
    split at h
    · cases h
      exact Nat.lt_succ_self _
    · exact Nat.lt_succ_of_lt (ih h)

def parseLoop (numOps : Nat) (remaining : Bytes) : Except ParseError (List Sembuf) :=
  if MAX_SEMOPS ≤ numOps then .error .tooMany
  else
    match parseOp remaining with
    | .error e => .error e
    | .ok sop =>
      match _hcomma : afterComma remaining with
      | none => .ok [sop]
      | some rest =>
        match parseLoop (numOps + 1) rest with
        | .error e => .error e
        | .ok sops => .ok (sop :: sops)
termination_by remaining.length
decreasing_by exact length_afterComma_lt _hcomma

def parseOps (arg : Bytes) : Except ParseError (List Sembuf) := parseLoop 0 arg

/-! ### The texts that are accepted -/

/-- The value that `strtol` gives a numeral. -/
def longValue (digits : Bytes) : Int := (saturate (digitsValue 10 digits) []).value

/-- The text of one operation. -/
structure OpText where
  num : Bytes
  sign : UInt8
  value : Bytes
  flags : Bytes
  num_ne : num ≠ []
  num_digits : ∀ c ∈ num, isdigit c = true
  sign_mem : sign ∈ bytes "+-="
  value_ne : value ≠ []
  value_digits : ∀ c ∈ value, isdigit c = true
  flags_mem : ∀ c ∈ flags, isFlag c = true
  equals_zero : sign = 61 → semOp sign (longValue value) = 0

namespace OpText

def text (o : OpText) : Bytes := o.num ++ o.sign :: (o.value ++ o.flags)

def sembuf (o : OpText) : Sembuf :=
  ⟨wrapUShort (longValue o.num), semOp o.sign (longValue o.value), semFlg o.flags⟩

end OpText

/-- Texts separated by commas. -/
def commaJoin : List Bytes → Bytes
  | [] => []
  | [t] => t
  | t :: ts => t ++ 44 :: commaJoin ts

theorem strtol_digits_append {digits rest : Bytes} (hne : digits ≠ [])
    (hdigits : ∀ c ∈ digits, isdigit c = true) (hrest : ∀ c ∈ rest.head?, isdigit c = false) :
    (strtol 10 (digits ++ rest)).value = longValue digits ∧
      (strtol 10 (digits ++ rest)).rest = rest := by
  have hnumeral : Numeral (digits ++ rest) (digitsValue 10 digits) rest :=
    ⟨[], .none, digits, rfl, by simp [Blank], hne, hdigits, hrest, rfl⟩
  rw [strtol_of_numeral hnumeral, longValue]
  refine ⟨?_, rest_saturate _ _⟩
  unfold saturate
  split
  · rfl
  · split <;> rfl

/-- The end of an operation. -/
def EndsOp (tail : Bytes) : Prop := tail = [] ∨ ∃ rest, tail = 44 :: rest

theorem isdigit_of_flag {c : UInt8} (h : isFlag c = true) : isdigit c = false := by
  simp only [isFlag, Bool.or_eq_true, beq_iff_eq] at h
  rcases h with rfl | rfl <;> decide

theorem isdigit_of_sign {c : UInt8} (h : c ∈ bytes "+-=") : isdigit c = false := by
  have hall : ∀ c ∈ bytes "+-=", isdigit c = false := by decide
  exact hall c h

theorem head?_flags_append {flags tail : Bytes} (hflags : ∀ c ∈ flags, isFlag c = true)
    (htail : EndsOp tail) : ∀ c ∈ (flags ++ tail).head?, isdigit c = false := by
  intro c hc
  cases flags with
  | nil =>
    rcases htail with rfl | ⟨rest, rfl⟩
    · cases hc
    · cases hc
      decide
  | cons d ds =>
    cases hc
    exact isdigit_of_flag (hflags c (by simp))

theorem span_flags {flags tail : Bytes} (hflags : ∀ c ∈ flags, isFlag c = true)
    (htail : EndsOp tail) :
    (flags ++ tail).takeWhile isFlag = flags ∧ (flags ++ tail).dropWhile isFlag = tail := by
  have hhead : tail.takeWhile isFlag = [] ∧ tail.dropWhile isFlag = tail := by
    rcases htail with rfl | ⟨rest, rfl⟩
    · exact ⟨rfl, rfl⟩
    · exact ⟨rfl, rfl⟩
  rw [List.takeWhile_append_of_pos hflags, List.dropWhile_append_of_pos hflags, hhead.1, hhead.2,
    List.append_nil]
  exact ⟨rfl, rfl⟩

/-- Behind the numerals of an operation. -/
def parseFlags (num : Bytes) (sign : UInt8) (value flags : Bytes) : Except ParseError Sembuf :=
  if sign = 61 ∧ semOp sign (longValue value) ≠ 0 then .error .equalsZero
  else
    let sop : Sembuf := ⟨wrapUShort (longValue num), semOp sign (longValue value),
      semFlg (flags.takeWhile isFlag)⟩
    match flags.dropWhile isFlag with
    | [] => .ok sop
    | c :: _ => if c = 44 then .ok sop else .error (.trailing c)

theorem parseOp_numerals {num value flags : Bytes} {sign : UInt8} (hnum : num ≠ [])
    (hnums : ∀ c ∈ num, isdigit c = true) (hsign : sign ∈ bytes "+-=") (hvalue : value ≠ [])
    (hvalues : ∀ c ∈ value, isdigit c = true) (hflags : ∀ c ∈ flags.head?, isdigit c = false) :
    parseOp (num ++ sign :: (value ++ flags)) = parseFlags num sign value flags := by
  have hread := @strtol_digits_append num (sign :: (value ++ flags)) hnum hnums (by
    intro c hc
    cases hc
    exact isdigit_of_sign hsign)
  have hread' := strtol_digits_append hvalue hvalues hflags
  have hfirst : (value ++ flags).head?.any isdigit = true := by
    obtain ⟨c, cs, rfl⟩ := List.exists_cons_of_ne_nil hvalue
    exact hvalues c (by simp)
  unfold parseOp
  split
  · rename_i hnil
    exact absurd (List.append_eq_nil_iff.mp hnil).1 hnum
  · rename_i c cs hcons
    have hc : isdigit c = true := by
      obtain ⟨d, ds, rfl⟩ := List.exists_cons_of_ne_nil hnum
      rw [List.cons_append, List.cons.injEq] at hcons
      exact hcons.1 ▸ hnums d (by simp)
    rw [if_neg (by simp [hc])]
    simp only [hread.1, hread.2, hread'.1, hread'.2]
    rw [if_neg (not_not_intro hsign), if_neg (by rw [hfirst]; decide)]
    rfl

/-- The text of an operation is parsed to its meaning. -/
theorem parseOp_text (o : OpText) {tail : Bytes} (htail : EndsOp tail) :
    parseOp (o.text ++ tail) = .ok o.sembuf := by
  have htext : o.text ++ tail = o.num ++ (o.sign :: (o.value ++ (o.flags ++ tail))) := by
    simp [OpText.text]
  have hzero : ¬ (o.sign = 61 ∧ semOp o.sign (longValue o.value) ≠ 0) :=
    fun h => h.2 (o.equals_zero h.1)
  obtain ⟨htake, hdrop⟩ := span_flags o.flags_mem htail
  rw [htext, parseOp_numerals o.num_ne o.num_digits o.sign_mem o.value_ne o.value_digits
    (head?_flags_append o.flags_mem htail), parseFlags, if_neg hzero]
  simp only [htake, hdrop]
  rcases htail with rfl | ⟨rest, rfl⟩
  · rfl
  · rfl

/-- A text that starts with a digit starts with a numeral. -/
theorem exists_digits {s : Bytes} (h : s.head?.any isdigit = true) :
    ∃ digits rest : Bytes, s = digits ++ rest ∧ digits ≠ [] ∧
      (∀ d ∈ digits, isdigit d = true) ∧ (∀ d ∈ rest.head?, isdigit d = false) := by
  refine ⟨s.takeWhile isdigit, s.dropWhile isdigit, List.takeWhile_append_dropWhile.symm,
    ?_, ?_, ?_⟩
  · cases s with
    | nil => cases h
    | cons c cs =>
      have hc : isdigit c = true := h
      simp [hc]
  · intro d hd
    exact List.mem_takeWhile_imp hd
  · intro d hd
    have hhead := List.head?_dropWhile_not isdigit s
    rw [Option.mem_def.mp hd] at hhead
    exact hhead

/-- What is parsed starts with the numerals of an operation. -/
theorem exists_numerals_of_parseOp {s : Bytes} {sop : Sembuf} (h : parseOp s = .ok sop) :
    ∃ (num value flags : Bytes) (sign : UInt8), s = num ++ sign :: (value ++ flags) ∧
      num ≠ [] ∧ (∀ c ∈ num, isdigit c = true) ∧ sign ∈ bytes "+-=" ∧
      value ≠ [] ∧ (∀ c ∈ value, isdigit c = true) ∧
      (∀ c ∈ flags.head?, isdigit c = false) := by
  cases s with
  | nil => cases h
  | cons c cs =>
    rw [parseOp] at h
    split at h
    · cases h
    · rename_i hc
      obtain ⟨num, behind, hs, hnum, hnums, hbehind⟩ :=
        @exists_digits (c :: cs) (by simpa using hc)
      rw [hs] at h ⊢
      simp only [(strtol_digits_append hnum hnums hbehind).2] at h
      cases behind with
      | nil => cases h
      | cons sign text =>
        simp only at h
        split at h
        · cases h
        · rename_i hsign
          split at h
          · cases h
          · rename_i hfirst
            obtain ⟨value, flags, rfl, hvalue, hvalues, hflags⟩ :=
              @exists_digits text (by simpa using hfirst)
            exact ⟨num, value, flags, sign, rfl, hnum, hnums, not_not.mp hsign, hvalue,
              hvalues, hflags⟩

/-- Only the text of an operation is parsed. -/
theorem exists_text_of_parseOp {s : Bytes} {sop : Sembuf} (h : parseOp s = .ok sop) :
    ∃ (o : OpText) (tail : Bytes), s = o.text ++ tail ∧ EndsOp tail ∧ sop = o.sembuf := by
  obtain ⟨num, value, flags, sign, rfl, hnum, hnums, hsign, hvalue, hvalues, hflags⟩ :=
    exists_numerals_of_parseOp h
  rw [parseOp_numerals hnum hnums hsign hvalue hvalues hflags, parseFlags] at h
  split at h
  · cases h
  · rename_i hzero
    have hequals : sign = 61 → semOp sign (longValue value) = 0 :=
      fun heq => by_contra fun hne => hzero ⟨heq, hne⟩
    let o : OpText := ⟨num, sign, value, flags.takeWhile isFlag, hnum, hnums, hsign, hvalue,
      hvalues, fun c hc => List.mem_takeWhile_imp hc, hequals⟩
    have htext : num ++ sign :: (value ++ flags) = o.text ++ flags.dropWhile isFlag := by
      simp [o, OpText.text, List.takeWhile_append_dropWhile]
    refine ⟨o, flags.dropWhile isFlag, htext, ?_⟩
    simp only at h
    split at h
    · rename_i hend
      cases h
      exact ⟨.inl hend, rfl⟩
    · rename_i c rest hend
      split at h
      · rename_i hcomma
        cases h
        exact ⟨.inr ⟨rest, by rw [hend, hcomma]⟩, rfl⟩
      · cases h

/-! ### The list of operations -/

theorem isFlag_comma_ne {c : UInt8} (h : isFlag c = true) : c ≠ 44 := by
  rintro rfl
  revert h
  decide

theorem isdigit_comma_ne {c : UInt8} (h : isdigit c = true) : c ≠ 44 := by
  rintro rfl
  revert h
  decide

theorem OpText.comma_notMem (o : OpText) : 44 ∉ o.text := by
  intro hmem
  simp only [OpText.text, List.mem_append, List.mem_cons] at hmem
  rcases hmem with hnum | hsign | hvalue | hflags
  · exact isdigit_comma_ne (o.num_digits 44 hnum) rfl
  · have hsign' := o.sign_mem
    rw [← hsign] at hsign'
    revert hsign'
    decide
  · exact isdigit_comma_ne (o.value_digits 44 hvalue) rfl
  · exact isFlag_comma_ne (o.flags_mem 44 hflags) rfl

theorem afterComma_append {s tail : Bytes} (h : 44 ∉ s) :
    afterComma (s ++ tail) = afterComma tail := by
  induction s with
  | nil => rfl
  | cons c cs ih =>
    rw [List.mem_cons, not_or] at h
    rw [List.cons_append, afterComma, if_neg (Ne.symm h.1), ih h.2]

/-- One round of the loop, at the text of an operation. -/
theorem parseLoop_text {k : Nat} (hk : k < MAX_SEMOPS) (o : OpText) {tail : Bytes}
    (htail : EndsOp tail) :
    parseLoop k (o.text ++ tail) =
      match afterComma tail with
      | none => .ok [o.sembuf]
      | some rest =>
        match parseLoop (k + 1) rest with
        | .error e => .error e
        | .ok sops => .ok (o.sembuf :: sops) := by
  rw [parseLoop, if_neg (by omega), parseOp_text o htail]
  simp only
  rw [afterComma_append o.comma_notMem]
  cases afterComma tail with
  | none => rfl
  | some rest => rfl

theorem parseLoop_commaJoin {ops : List OpText} :
    ∀ {k : Nat}, ops ≠ [] → k + ops.length ≤ MAX_SEMOPS →
      parseLoop k (commaJoin (ops.map OpText.text)) = .ok (ops.map OpText.sembuf) := by
  induction ops with
  | nil => exact fun h _ => absurd rfl h
  | cons o ops ih =>
    intro k _ hk
    rw [List.length_cons] at hk
    cases ops with
    | nil =>
      have htext : commaJoin ([o].map OpText.text) = o.text ++ [] := by
        rw [List.append_nil]
        rfl
      rw [htext, parseLoop_text (by omega) o (.inl rfl)]
      rfl
    | cons o' ops =>
      have hrest := @ih (k + 1) (by simp) (by omega)
      have htext : commaJoin ((o :: o' :: ops).map OpText.text) =
          o.text ++ 44 :: commaJoin ((o' :: ops).map OpText.text) := rfl
      rw [htext, parseLoop_text (by omega) o (.inr ⟨_, rfl⟩)]
      have hcomma : afterComma (44 :: commaJoin ((o' :: ops).map OpText.text)) =
          some (commaJoin ((o' :: ops).map OpText.text)) := by
        rw [afterComma, if_pos rfl]
      rw [hcomma]
      simp only [hrest]
      rfl

theorem exists_commaJoin_of_parseLoop {k : Nat} {s : Bytes} {sops : List Sembuf}
    (h : parseLoop k s = .ok sops) :
    ∃ ops : List OpText, ops ≠ [] ∧ k + ops.length ≤ MAX_SEMOPS ∧
      s = commaJoin (ops.map OpText.text) ∧ sops = ops.map OpText.sembuf := by
  induction hn : s.length using Nat.strong_induction_on generalizing k s sops with
  | _ n ih =>
  by_cases hk : k < MAX_SEMOPS
  · have hop : ∃ sop, parseOp s = .ok sop := by
      rw [parseLoop, if_neg (by omega)] at h
      cases hop : parseOp s with
      | error e =>
        rw [hop] at h
        cases h
      | ok sop => exact ⟨sop, rfl⟩
    obtain ⟨sop, hop⟩ := hop
    obtain ⟨o, tail, rfl, htail, rfl⟩ := exists_text_of_parseOp hop
    rw [parseLoop_text hk o htail] at h
    rcases htail with rfl | ⟨rest, rfl⟩
    · cases h
      refine ⟨[o], by simp, ?_, by simp [commaJoin], rfl⟩
      simp only [List.length_singleton]
      omega
    · have hcomma : afterComma (44 :: rest) = some rest := by
        rw [afterComma, if_pos rfl]
      rw [hcomma] at h
      simp only at h
      split at h
      · cases h
      · rename_i sops' hsops
        cases h
        have hlt : rest.length < n := by
          rw [← hn, List.length_append, List.length_cons]
          omega
        obtain ⟨ops, hne, hlen, hrest, rfl⟩ := ih rest.length hlt hsops rfl
        obtain ⟨o', ops, rfl⟩ := List.exists_cons_of_ne_nil hne
        refine ⟨o :: o' :: ops, by simp, ?_, ?_, rfl⟩
        · rw [List.length_cons]
          omega
        · rw [hrest]
          rfl
  · rw [parseLoop, if_pos (by omega)] at h
    cases h

/-- `parseOps` accepts the lists of at most `MAX_SEMOPS` operations and nothing else, and
    answers the operations of the list in their order. -/
theorem parseOps_accepts_iff (arg : Bytes) (sops : List Sembuf) :
    parseOps arg = .ok sops ↔
      ∃ ops : List OpText, ops ≠ [] ∧ ops.length ≤ MAX_SEMOPS ∧
        arg = commaJoin (ops.map OpText.text) ∧ sops = ops.map OpText.sembuf := by
  constructor
  · intro h
    simpa only [Nat.zero_add] using exists_commaJoin_of_parseLoop h
  · rintro ⟨ops, hne, hlen, rfl, rfl⟩
    exact parseLoop_commaJoin hne (by omega)

/-! ### Operations that mean what they say -/

namespace OpText

/-- The number of the semaphore, as it is written. -/
def semaphore (o : OpText) : Nat := digitsValue 10 o.num

/-- The number behind the sign. -/
def amount (o : OpText) : Nat := digitsValue 10 o.value

/-- The operation that is written. -/
def written (o : OpText) : Sembuf where
  sem_num := o.semaphore
  sem_op := if o.sign = 45 then -(o.amount : Int) else o.amount
  sem_flg := (if 110 ∈ o.flags then IPC_NOWAIT else 0) ||| (if 117 ∈ o.flags then SEM_UNDO else 0)

/-- The numbers fit in the fields of a `struct sembuf`. -/
def InRange (o : OpText) : Prop :=
  o.semaphore < 65536 ∧ o.amount ≤ (if o.sign = 45 then 32768 else 32767)

end OpText

theorem longValue_eq (digits : Bytes) :
    longValue digits = min (digitsValue 10 digits : Int) LONG_MAX := by
  unfold longValue saturate
  split
  · rename_i hlt
    exact (min_eq_right (le_of_lt hlt)).symm
  · rename_i hle
    rw [if_neg (by simp only [LONG_MIN]; omega)]
    exact (min_eq_left (not_lt.mp hle)).symm

theorem wrapUShort_longValue_eq_iff (digits : Bytes) :
    wrapUShort (longValue digits) = digitsValue 10 digits ↔ digitsValue 10 digits < 65536 := by
  rw [longValue_eq, wrapUShort]
  simp only [LONG_MAX]
  omega

theorem wrapShort_mem (v : Int) : -32768 ≤ wrapShort v ∧ wrapShort v ≤ 32767 := by
  have hlo := @Int.le_bmod v 65536 (by decide)
  have hhi := @Int.bmod_lt v 65536 (by decide)
  rw [wrapShort]
  omega

/-- A subtraction: the value is negated in 16 bits. -/
theorem semOp_minus_eq_iff (n : Nat) :
    semOp 45 (min (n : Int) LONG_MAX) = -(n : Int) ↔ n ≤ 32768 := by
  rw [semOp, if_pos rfl]
  constructor
  · intro h
    have hmem := wrapShort_mem (-wrapShort (min (n : Int) LONG_MAX))
    omega
  · intro hn
    rw [min_eq_left (by simp only [LONG_MAX]; omega)]
    by_cases hmin : n = 32768
    · subst hmin
      decide
    · rw [(wrapShort_eq_iff n).mpr (by omega), (wrapShort_eq_iff (-n)).mpr (by omega)]

theorem semOp_eq_iff {sign : UInt8} (hsign : sign ≠ 45) (n : Nat) :
    semOp sign (min (n : Int) LONG_MAX) = n ↔ n ≤ 32767 := by
  rw [semOp, if_neg hsign]
  constructor
  · intro h
    have hmem := wrapShort_mem (min (n : Int) LONG_MAX)
    omega
  · intro hn
    rw [min_eq_left (by simp only [LONG_MAX]; omega), (wrapShort_eq_iff n).mpr (by omega)]

/-- The flags accumulate: only which of the letters occur matters. -/
theorem semFlg_eq {flags : Bytes} (h : ∀ c ∈ flags, isFlag c = true) :
    semFlg flags =
      (if 110 ∈ flags then IPC_NOWAIT else 0) ||| (if 117 ∈ flags then SEM_UNDO else 0) := by
  induction flags using List.reverseRecOn with
  | nil => rfl
  | append_singleton flags c ih =>
    have hflags := ih fun d hd => h d (by simp [hd])
    have hstep : semFlg (flags ++ [c]) = semFlg flags ||| flagBit c := by
      simp [semFlg]
    have hc : c = 110 ∨ c = 117 := by
      have hflag := h c (by simp)
      simpa [isFlag] using hflag
    rw [hstep, hflags]
    rcases hc with rfl | rfl
    · by_cases hn : 110 ∈ flags <;> by_cases hu : 117 ∈ flags <;> simp [hn, hu] <;> decide
    · by_cases hn : 110 ∈ flags <;> by_cases hu : 117 ∈ flags <;> simp [hn, hu] <;> decide

theorem sembuf_eq_written_iff (o : OpText) : o.sembuf = o.written ↔ o.InRange := by
  have hnum := wrapUShort_longValue_eq_iff o.num
  have hop : semOp o.sign (longValue o.value) = o.written.sem_op ↔
      o.amount ≤ (if o.sign = 45 then 32768 else 32767) := by
    rw [longValue_eq, OpText.written]
    by_cases hsign : o.sign = 45
    · simp only [hsign, if_true]
      exact semOp_minus_eq_iff o.amount
    · simp only [if_neg hsign]
      exact semOp_eq_iff hsign o.amount
  constructor
  · intro h
    exact ⟨hnum.mp (congrArg Sembuf.sem_num h), hop.mp (congrArg Sembuf.sem_op h)⟩
  · rintro ⟨hsemaphore, hamount⟩
    rw [OpText.sembuf, hnum.mpr hsemaphore, hop.mpr hamount, semFlg_eq o.flags_mem]
    rfl

-- The check for `=0` looks at 16 bits of the number.
example : parseOp (bytes "0=65536") = .ok ⟨0, 0, 0⟩ := by decide

end LinuxPractice.Tlpi.SemOps
