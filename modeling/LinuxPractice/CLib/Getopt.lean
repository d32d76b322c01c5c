import LinuxPractice.CLib.Bytes
import Mathlib.Data.List.Rotate

/-!
# `getopt`

`getopt` of the GNU C library for options without arguments.  It steps over operands,
keeps them as a block of `argv`, and moves that block behind the options that follow;
with `POSIXLY_CORRECT` set it moves nothing and stops at the first operand.  The state is
that of the C function: the indices of the block, and the part of an element whose
letters are still to come.
-/

namespace LinuxPractice.CLib

/-- An answer other than -1: a letter of the option string, or '?' with the letter that is
    left in `optopt`. -/
inductive Opt where
  | letter (c : UInt8)
  | unknown (c : UInt8)
deriving DecidableEq

structure Getopt where
  argv : List Bytes
  optind : Nat
  firstNonopt : Nat
  lastNonopt : Nat
  /-- What is left of the element that is being read; empty between elements. -/
  nextchar : Bytes

/-- An element that starts with '-' and goes on: its first letter and the rest. -/
def optionText : Bytes → Option (UInt8 × Bytes)
  | dash :: c :: rest => if dash = 45 then some (c, rest) else none
  | _ => none

def isOperand (arg : Bytes) : Bool := (optionText arg).isNone

/-- The element that ends the options. -/
def endMark : Bytes := [45, 45]

namespace Getopt

def start (argv : List Bytes) : Getopt := ⟨argv, 1, 1, 1, []⟩

/-- Moves the block of operands behind the options that were read since. -/
def exchange (s : Getopt) : Getopt :=
  { s with
    argv := s.argv.take s.firstNonopt ++
      ((s.argv.drop s.firstNonopt).take (s.optind - s.firstNonopt)).rotate
        (s.lastNonopt - s.firstNonopt) ++ s.argv.drop s.optind
    firstNonopt := s.firstNonopt + (s.optind - s.lastNonopt)
    lastNonopt := s.optind }

/-- The block never reaches beyond the next element. -/
def clamp (s : Getopt) : Getopt :=
  { s with
    lastNonopt := min s.lastNonopt s.optind
    firstNonopt := min s.firstNonopt s.optind }

/-- Exchanges if options were read behind the block, and extends it by the operands that
    come next. -/
def permute (s : Getopt) : Getopt :=
  let s :=
    if s.firstNonopt ≠ s.lastNonopt ∧ s.lastNonopt ≠ s.optind then s.exchange
    else if s.lastNonopt ≠ s.optind then { s with firstNonopt := s.optind }
    else s
  let optind := s.optind + ((s.argv.drop s.optind).takeWhile isOperand).length
  { s with optind, lastNonopt := optind }

/-- Behind `--` all elements are operands. -/
def endOptions (s : Getopt) : Getopt :=
  if s.argv[s.optind]? = some endMark then
    let s := { s with optind := s.optind + 1 }
    let s :=
      if s.firstNonopt ≠ s.lastNonopt ∧ s.lastNonopt ≠ s.optind then s.exchange
      else if s.firstNonopt = s.lastNonopt then { s with firstNonopt := s.optind }
      else s
    { s with lastNonopt := s.argv.length, optind := s.argv.length }
  else s

def optionChar (letters : Bytes) (c : UInt8) (rest : Bytes) (s : Getopt) : Opt × Getopt :=
  (if c ∈ letters then .letter c else .unknown c,
    { s with nextchar := rest, optind := if rest = [] then s.optind + 1 else s.optind })

/-- Advances to the next element that is read. -/
def advance (posix : Bool) (s : Getopt) : Getopt :=
  (if posix then s.clamp else s.clamp.permute).endOptions

/-- The answer at the start of an element; `none` is -1. -/
def readElement (letters : Bytes) (s : Getopt) : Option Opt × Getopt :=
  match s.argv[s.optind]? with
  | none =>
    (none, { s with optind := if s.firstNonopt ≠ s.lastNonopt then s.firstNonopt else s.optind })
  | some arg =>
    match optionText arg with
    | some (c, rest) =>
      let r := optionChar letters c rest s
      (some r.1, r.2)
    -- an operand that was not stepped over, without permuting
    | none => (none, s)

def getopt (posix : Bool) (letters : Bytes) (s : Getopt) : Option Opt × Getopt :=
  match s.nextchar with
  | c :: rest =>
    let r := optionChar letters c rest s
    (some r.1, r.2)
  | [] => readElement letters (s.advance posix)

/-! ### Every answer uses up a letter -/

/-- The bytes of the elements to come. -/
def left (s : Getopt) : Nat :=
  s.nextchar.length +
    ((s.argv.drop (if s.nextchar = [] then s.optind else s.optind + 1)).map List.length).sum

variable {s s' : Getopt} {posix : Bool} {letters : Bytes} {opt : Opt}

theorem drop_exchange (h : s.firstNonopt ≤ s.optind) :
    s.exchange.argv.drop s.optind = s.argv.drop s.optind := by
  by_cases hlen : s.optind ≤ s.argv.length
  · apply List.drop_left'
    simp
    omega
  · have hsame : s.exchange.argv.length = s.argv.length := by
      simp [exchange]
      omega
    rw [List.drop_eq_nil_of_le (by omega), List.drop_eq_nil_of_le (by omega)]

theorem drop_permute (h : s.firstNonopt ≤ s.optind) :
    s.permute.argv.drop s.permute.optind = (s.argv.drop s.optind).dropWhile isOperand := by
  have hskip : ∀ t : Getopt, t.optind = s.optind →
      t.argv.drop s.optind = s.argv.drop s.optind →
      t.argv.drop (t.optind + ((t.argv.drop t.optind).takeWhile isOperand).length) =
        (s.argv.drop s.optind).dropWhile isOperand := by
    intro t hind hdrop
    rw [hind, ← List.drop_drop, hdrop]
    obtain ⟨args, hargs⟩ : ∃ args, s.argv.drop s.optind = args := ⟨_, rfl⟩
    rw [hargs]
    calc args.drop (args.takeWhile isOperand).length
        = (args.takeWhile isOperand ++ args.dropWhile isOperand).drop
            (args.takeWhile isOperand).length := by rw [List.takeWhile_append_dropWhile]
      _ = args.dropWhile isOperand := List.drop_left
  unfold permute
  apply hskip
  · split
    · rfl
    · split <;> rfl
  · split
    · exact drop_exchange h
    · split <;> rfl

theorem sum_length_dropWhile_le (p : Bytes → Bool) (args : List Bytes) :
    ((args.dropWhile p).map List.length).sum ≤ (args.map List.length).sum := by
  obtain ⟨front, hfront⟩ := List.dropWhile_suffix p (l := args)
  conv_rhs => rw [← hfront]
  simp

theorem length_of_optionText {arg rest : Bytes} {c : UInt8} (h : optionText arg = some (c, rest)) :
    arg.length = rest.length + 2 := by
  unfold optionText at h
  split at h
  · split at h
    · cases h
      rfl
    · cases h
  · cases h

theorem left_optionChar (c : UInt8) (rest : Bytes) :
    (optionChar letters c rest s).2.left =
      rest.length + ((s.argv.drop (s.optind + 1)).map List.length).sum := by
  by_cases hrest : rest = []
  · simp [optionChar, left, hrest]
  · simp [optionChar, left, hrest]

/-- An element that is read, and what follows it. -/
theorem of_readElement (h : readElement letters s = (some opt, s')) :
    ∃ arg c rest, s.argv.drop s.optind = arg :: s.argv.drop (s.optind + 1) ∧
      optionText arg = some (c, rest) ∧ s' = (optionChar letters c rest s).2 := by
  unfold readElement at h
  split at h
  · cases h
  · rename_i arg harg
    split at h
    · rename_i c rest htext
      cases h
      refine ⟨arg, c, rest, ?_, htext, rfl⟩
      rw [List.drop_eq_getElem?_toList_append, harg]
      rfl
    · cases h

theorem sum_length_advance_le (s : Getopt) (posix : Bool) :
    (((s.advance posix).argv.drop (s.advance posix).optind).map List.length).sum ≤
      ((s.argv.drop s.optind).map List.length).sum := by
  obtain ⟨t, ht⟩ : ∃ t, (if posix then s.clamp else s.clamp.permute) = t := ⟨_, rfl⟩
  have hle : ((t.argv.drop t.optind).map List.length).sum ≤
      ((s.argv.drop s.optind).map List.length).sum := by
    rw [← ht]
    split
    · exact Nat.le_refl _
    · rw [drop_permute (Nat.min_le_right _ _)]
      exact sum_length_dropWhile_le _ _
  simp only [advance, ht]
  by_cases hmark : t.argv[t.optind]? = some endMark
  · -- behind the mark there is nothing left to read
    have hend : t.endOptions.argv.drop t.endOptions.optind = [] := by
      simp [endOptions, hmark]
    simp [hend]
  · rwa [endOptions, if_neg hmark]

theorem left_lt_of_getopt (h : s.getopt posix letters = (some opt, s')) : s'.left < s.left := by
  unfold getopt at h
  split at h
  · rename_i c rest hnext
    cases h
    rw [left_optionChar]
    simp [left, hnext]
  · rename_i hnext
    obtain ⟨arg, c, rest, hdrop, htext, hread⟩ := of_readElement h
    have hle := sum_length_advance_le s posix
    rw [hdrop, List.map_cons, List.sum_cons, length_of_optionText htext] at hle
    have hleft : s.left = ((s.argv.drop s.optind).map List.length).sum := by
      simp [left, hnext]
    rw [hleft, hread, left_optionChar]
    omega

/-! ### The loop over the options -/

/-- The loop `while ((opt = getopt(argc, argv, letters)) != -1)`, whose body changes `x` or
    leaves the program; it ends with the elements of `argv` in their new order. -/
def forOptions {σ ε : Type} (posix : Bool) (letters : Bytes) (body : σ → Opt → Except ε σ)
    (s : Getopt) (x : σ) : Except ε (List Bytes × σ) :=
  match _hopt : s.getopt posix letters with
  | (none, s') => .ok (s'.argv, x)
  | (some opt, s') =>
    match body x opt with
    | .error e => .error e
    | .ok x' => forOptions posix letters body s' x'
termination_by s.left
decreasing_by exact left_lt_of_getopt _hopt

section Loop

variable {σ ε : Type} {body : σ → Opt → Except ε σ}

theorem forOptions_none (h : s.getopt posix letters = (none, s')) (x : σ) :
    forOptions posix letters body s x = .ok (s'.argv, x) := by
  rw [forOptions]
  split <;> rename_i heq <;> rw [h] at heq <;> cases heq
  rfl

theorem forOptions_some (h : s.getopt posix letters = (some opt, s')) (x : σ) :
    forOptions posix letters body s x = body x opt >>= forOptions posix letters body s' := by
  rw [forOptions]
  split <;> rename_i heq <;> rw [h] at heq <;> cases heq
  cases body x opt <;> rfl

theorem forOptions_congr {t : Getopt} (h : s.getopt posix letters = t.getopt posix letters)
    (x : σ) : forOptions posix letters body s x = forOptions posix letters body t x := by
  obtain ⟨⟨opt, s'⟩, hopt⟩ : ∃ r, s.getopt posix letters = r := ⟨_, rfl⟩
  cases opt with
  | none => rw [forOptions_none hopt, forOptions_none (h.symm.trans hopt)]
  | some opt => rw [forOptions_some hopt, forOptions_some (h.symm.trans hopt)]

/-- The answers for the letters of an element. -/
def optsOf (letters cs : Bytes) : List Opt :=
  cs.map fun c => if c ∈ letters then .letter c else .unknown c

/-- An element whose letters are being read is read to its end. -/
theorem forOptions_nextchar (cs : Bytes) (hcs : cs ≠ []) (x : σ) :
    forOptions posix letters body { s with nextchar := cs } x =
      (optsOf letters cs).foldlM body x >>=
        forOptions posix letters body { s with nextchar := [], optind := s.optind + 1 } := by
  induction cs generalizing x with
  | nil => exact absurd rfl hcs
  | cons c rest ih =>
    have hopt : getopt posix letters { s with nextchar := c :: rest } =
        (some (if c ∈ letters then .letter c else .unknown c),
          { s with nextchar := rest, optind := if rest = [] then s.optind + 1 else s.optind }) :=
      rfl
    rw [forOptions_some hopt, optsOf, List.map_cons, List.foldlM_cons, bind_assoc]
    congr 1
    funext x'
    by_cases hrest : rest = []
    · subst hrest
      rfl
    · rw [if_neg hrest]
      exact ih hrest x'

end Loop

end Getopt

/-! ### What the loop reads -/

/-- The elements before the mark `--`. -/
def beforeMark (args : List Bytes) : List Bytes := args.takeWhile (· ≠ endMark)

def fromMark (args : List Bytes) : List Bytes := args.dropWhile (· ≠ endMark)

/-- The options among the elements behind `argv[0]`: those before the mark, and without
    permuting those before the first operand. -/
def options (posix : Bool) (args : List Bytes) : List Bytes :=
  if posix then (beforeMark args).takeWhile fun arg => !isOperand arg
  else (beforeMark args).filter fun arg => !isOperand arg

/-- The order in which the loop leaves the elements. -/
def arranged (posix : Bool) (args : List Bytes) : List Bytes :=
  if posix then args
  else
    options posix args ++ (fromMark args).take 1 ++
      ((beforeMark args).filter isOperand ++ (fromMark args).drop 1)

/-- All letters of the options. -/
def optionChars (posix : Bool) (args : List Bytes) : Bytes :=
  (options posix args).flatMap fun arg => arg.drop 1

namespace Getopt

variable {letters : Bytes}

/-- The state between two elements: options, operands that were stepped over, options that
    were read behind them, and the elements to come. -/
def layout (prog : Bytes) (done ops fresh rest : List Bytes) : Getopt where
  argv := prog :: (done ++ ops ++ fresh ++ rest)
  optind := 1 + done.length + ops.length + fresh.length
  firstNonopt := 1 + done.length
  lastNonopt := 1 + done.length + ops.length
  nextchar := []

theorem clamp_layout (prog : Bytes) (done ops fresh rest : List Bytes) :
    (layout prog done ops fresh rest).clamp = layout prog done ops fresh rest := by
  simp [clamp, layout]
  omega

theorem exchange_layout (prog : Bytes) (done ops fresh rest : List Bytes) :
    (layout prog done ops fresh rest).exchange = layout prog (done ++ fresh) ops [] rest := by
  have hfront : (prog :: (done ++ ops ++ fresh ++ rest)).take (1 + done.length) =
      prog :: done := by
    rw [Nat.add_comm, List.take_succ_cons, List.append_assoc, List.append_assoc, List.take_left]
  have hback : (prog :: (done ++ ops ++ fresh ++ rest)).drop (1 + done.length) =
      ops ++ fresh ++ rest := by
    rw [Nat.add_comm, List.drop_succ_cons, List.append_assoc, List.append_assoc, List.drop_left,
      List.append_assoc]
  have hrest : (prog :: (done ++ ops ++ fresh ++ rest)).drop
      (1 + done.length + ops.length + fresh.length) = rest := by
    have hlen : 1 + done.length + ops.length + fresh.length =
        (prog :: (done ++ ops ++ fresh)).length := by
      simp
      omega
    rw [hlen]
    exact List.drop_left
  have hmove : ((ops ++ fresh ++ rest).take
      (1 + done.length + ops.length + fresh.length - (1 + done.length))).rotate
        (1 + done.length + ops.length - (1 + done.length)) = fresh ++ ops := by
    have htake : 1 + done.length + ops.length + fresh.length - (1 + done.length) =
        (ops ++ fresh).length := by
      simp
      omega
    have hcount : 1 + done.length + ops.length - (1 + done.length) = ops.length := by omega
    rw [htake, hcount, List.take_left, List.rotate_append_length_eq]
  simp only [exchange, layout, hfront, hback, hrest, hmove]
  simp
  omega

theorem drop_layout (prog : Bytes) (done ops fresh rest : List Bytes) :
    (layout prog done ops fresh rest).argv.drop (layout prog done ops fresh rest).optind =
      rest := by
  have hlen : (layout prog done ops fresh rest).optind =
      (prog :: (done ++ ops ++ fresh)).length := by
    simp [layout]
    omega
  rw [hlen]
  exact List.drop_left

theorem permute_layout (prog : Bytes) (done ops fresh rest : List Bytes) :
    (layout prog done ops fresh rest).permute =
      layout prog (done ++ fresh) (ops ++ rest.takeWhile isOperand) []
        (rest.dropWhile isOperand) := by
  obtain ⟨t, ht⟩ : ∃ t, (if (layout prog done ops fresh rest).firstNonopt ≠
        (layout prog done ops fresh rest).lastNonopt ∧
        (layout prog done ops fresh rest).lastNonopt ≠ (layout prog done ops fresh rest).optind
      then (layout prog done ops fresh rest).exchange
      else if (layout prog done ops fresh rest).lastNonopt ≠
          (layout prog done ops fresh rest).optind then
        { layout prog done ops fresh rest with
          firstNonopt := (layout prog done ops fresh rest).optind }
      else layout prog done ops fresh rest) = t := ⟨_, rfl⟩
  -- the end of the block is set only behind the operands that come next
  have hmoved : t = { layout prog (done ++ fresh) ops [] rest with lastNonopt := t.lastNonopt } := by
    rw [← ht, exchange_layout]
    by_cases hfresh : fresh = []
    · simp [layout, hfresh]
    · by_cases hops : ops = []
      · simp [layout, hfresh, hops, Nat.add_assoc]
      · simp [layout, hfresh, hops]
  unfold permute
  simp only [ht]
  rw [hmoved]
  simp only [drop_layout]
  simp [layout, Nat.add_assoc]

theorem getElem?_layout (prog : Bytes) (done ops fresh rest : List Bytes) :
    (layout prog done ops fresh rest).argv[(layout prog done ops fresh rest).optind]? =
      rest.head? := by
  rw [← List.head?_drop, drop_layout]

theorem advance_layout (prog : Bytes) (done ops fresh rest : List Bytes) :
    (layout prog done ops fresh rest).advance false =
      (layout prog (done ++ fresh) (ops ++ rest.takeWhile isOperand) []
        (rest.dropWhile isOperand)).endOptions := by
  rw [advance, clamp_layout, permute_layout]
  rfl

/-- Operands are stepped over before anything else is looked at. -/
theorem getopt_operand {arg : Bytes} (h : isOperand arg = true) (prog : Bytes)
    (done ops fresh rest : List Bytes) :
    (layout prog done ops fresh (arg :: rest)).getopt false letters =
      (layout prog (done ++ fresh) (ops ++ [arg]) [] rest).getopt false letters := by
  have hsame : (layout prog done ops fresh (arg :: rest)).advance false =
      (layout prog (done ++ fresh) (ops ++ [arg]) [] rest).advance false := by
    rw [advance_layout, advance_layout, List.takeWhile_cons_of_pos h,
      List.dropWhile_cons_of_pos h, List.append_nil, List.append_assoc]
    rfl
  exact congrArg (readElement letters) hsame

theorem getopt_end (prog : Bytes) (done ops fresh : List Bytes) :
    ∃ s', (layout prog done ops fresh []).getopt false letters = (none, s') ∧
      s'.argv = prog :: (done ++ fresh ++ ops) := by
  have hend : (layout prog done ops fresh []).advance false =
      layout prog (done ++ fresh) ops [] [] := by
    rw [advance_layout, endOptions, getElem?_layout]
    simp
  have hopt : (layout prog done ops fresh []).getopt false letters =
      readElement letters (layout prog (done ++ fresh) ops [] []) :=
    congrArg (readElement letters) hend
  rw [hopt, readElement, getElem?_layout]
  exact ⟨_, rfl, by simp [layout]⟩

theorem isOperand_endMark : isOperand endMark = false := rfl

theorem getopt_mark (prog : Bytes) (done ops fresh rest : List Bytes) :
    ∃ s', (layout prog done ops fresh (endMark :: rest)).getopt false letters = (none, s') ∧
      s'.argv = prog :: (done ++ fresh ++ [endMark] ++ (ops ++ rest)) := by
  obtain ⟨t, ht⟩ : ∃ t, (layout prog (done ++ fresh) ops [] (endMark :: rest)).endOptions = t :=
    ⟨_, rfl⟩
  have hadvance : (layout prog done ops fresh (endMark :: rest)).advance false = t := by
    rw [advance_layout, ← ht]
    simp [isOperand_endMark]
  have hnext : { layout prog (done ++ fresh) ops [] (endMark :: rest) with
      optind := (layout prog (done ++ fresh) ops [] (endMark :: rest)).optind + 1 } =
        layout prog (done ++ fresh) ops [endMark] rest := by
    simp [layout]
  rw [endOptions, getElem?_layout, List.head?_cons, if_pos rfl] at ht
  simp only [hnext, exchange_layout] at ht
  have hargv : t.argv = prog :: (done ++ fresh ++ [endMark] ++ (ops ++ rest)) ∧
      t.optind = t.argv.length := by
    rw [← ht]
    by_cases hops : ops = []
    · simp [layout, hops]
    · simp [layout, hops]
  have hopt : (layout prog done ops fresh (endMark :: rest)).getopt false letters =
      readElement letters t := congrArg (readElement letters) hadvance
  rw [hopt, readElement, List.getElem?_eq_none (by rw [hargv.2])]
  exact ⟨_, rfl, hargv.1⟩

/-- An option is read as if its letters were already being read. -/
theorem readElement_option {s : Getopt} {arg : Bytes} (harg : s.argv[s.optind]? = some arg)
    (h : isOperand arg = false) (posix : Bool) :
    readElement letters s = getopt posix letters { s with nextchar := arg.drop 1 } := by
  rw [readElement, harg]
  match arg, h with
  | dash :: c :: cs, h =>
    have hdash : dash = 45 := by
      by_contra hne
      simp [isOperand, optionText, hne] at h
    simp only [optionText, hdash, if_pos]
    rfl

theorem getopt_option {arg : Bytes} (h : isOperand arg = false) (hmark : arg ≠ endMark)
    (prog : Bytes) (done ops fresh rest : List Bytes) :
    (layout prog done ops fresh (arg :: rest)).getopt false letters =
      getopt false letters { layout prog (done ++ fresh) ops [] (arg :: rest) with
        nextchar := arg.drop 1 } := by
  have hadvance : (layout prog done ops fresh (arg :: rest)).advance false =
      layout prog (done ++ fresh) ops [] (arg :: rest) := by
    rw [advance_layout, endOptions, getElem?_layout]
    simp [h, hmark]
  have hopt : (layout prog done ops fresh (arg :: rest)).getopt false letters =
      readElement letters (layout prog (done ++ fresh) ops [] (arg :: rest)) :=
    congrArg (readElement letters) hadvance
  rw [hopt]
  exact readElement_option (getElem?_layout _ _ _ _ _) h false

theorem drop_one_ne_nil {arg : Bytes} (h : isOperand arg = false) : arg.drop 1 ≠ [] := by
  match arg, h with
  | dash :: c :: cs, h => simp

/-! ### Without permuting -/

/-- The state between two elements if nothing is moved. -/
def stay (prog : Bytes) (done rest : List Bytes) : Getopt :=
  ⟨prog :: (done ++ rest), 1 + done.length, 1, 1, []⟩

theorem getElem?_stay (prog : Bytes) (done rest : List Bytes) :
    (stay prog done rest).argv[(stay prog done rest).optind]? = rest.head? := by
  rw [← List.head?_drop, stay, Nat.add_comm 1, List.drop_succ_cons, List.drop_left]

theorem getopt_stay (prog : Bytes) (done rest : List Bytes) :
    (stay prog done rest).getopt true letters =
      readElement letters (stay prog done rest).endOptions := by
  have hclamp : (stay prog done rest).clamp = stay prog done rest := by
    simp [clamp, stay]
  exact congrArg (fun s => readElement letters s.endOptions) hclamp

theorem getopt_stay_end (prog : Bytes) (done rest : List Bytes)
    (h : ∀ arg ∈ rest.head?, arg = endMark ∨ isOperand arg = true) :
    ∃ s', (stay prog done rest).getopt true letters = (none, s') ∧
      s'.argv = prog :: (done ++ rest) := by
  rw [getopt_stay]
  cases rest with
  | nil =>
    rw [endOptions, getElem?_stay, List.head?_nil, if_neg (by simp), readElement, getElem?_stay]
    exact ⟨_, rfl, rfl⟩
  | cons arg rest =>
    by_cases hmark : arg = endMark
    · subst hmark
      obtain ⟨t, ht⟩ : ∃ t, (stay prog done (endMark :: rest)).endOptions = t := ⟨_, rfl⟩
      have hargv : t.argv = prog :: (done ++ endMark :: rest) ∧ t.optind = t.argv.length := by
        rw [← ht, endOptions, getElem?_stay]
        simp [stay]
      rw [ht, readElement, List.getElem?_eq_none (by rw [hargv.2])]
      exact ⟨_, rfl, hargv.1⟩
    · have hop : isOperand arg = true := (h arg rfl).resolve_left hmark
      have htext : optionText arg = none := Option.isNone_iff_eq_none.mp hop
      rw [endOptions, getElem?_stay, List.head?_cons, if_neg (by simpa using hmark), readElement,
        getElem?_stay]
      simp only [List.head?_cons, htext]
      exact ⟨_, rfl, rfl⟩

variable {σ ε : Type} {body : σ → Opt → Except ε σ}

theorem forOptions_layout (prog : Bytes) (done ops fresh rest : List Bytes) (x : σ) :
    forOptions false letters body (layout prog done ops fresh rest) x =
      (optsOf letters (optionChars false rest)).foldlM body x >>= fun x' =>
        .ok (prog :: (done ++ fresh ++ (options false rest ++ (fromMark rest).take 1) ++
          (ops ++ ((beforeMark rest).filter isOperand ++ (fromMark rest).drop 1))), x') := by
  induction rest generalizing done ops fresh x with
  | nil =>
    obtain ⟨s', hopt, hargv⟩ := @getopt_end letters prog done ops fresh
    rw [forOptions_none hopt, hargv]
    simp [options, beforeMark, fromMark, optionChars, optsOf]
  | cons arg rest ih =>
    by_cases hmark : arg = endMark
    · subst hmark
      obtain ⟨s', hopt, hargv⟩ := @getopt_mark letters prog done ops fresh rest
      rw [forOptions_none hopt, hargv]
      simp [options, beforeMark, fromMark, optionChars, optsOf]
    · cases hop : isOperand arg with
      | true =>
        rw [forOptions_congr (getopt_operand hop prog done ops fresh rest), ih]
        simp [options, beforeMark, fromMark, optionChars, hmark, hop]
      | false =>
        rw [forOptions_congr (getopt_option hop hmark prog done ops fresh rest),
          forOptions_nextchar _ (drop_one_ne_nil hop)]
        have hnext : { layout prog (done ++ fresh) ops [] (arg :: rest) with
            nextchar := [], optind :=
              (layout prog (done ++ fresh) ops [] (arg :: rest)).optind + 1 } =
              layout prog (done ++ fresh) ops [arg] rest := by
          simp [layout]
        rw [hnext]
        have hchars : optsOf letters (optionChars false (arg :: rest)) =
            optsOf letters (arg.drop 1) ++ optsOf letters (optionChars false rest) := by
          simp [optsOf, optionChars, options, beforeMark, hmark, hop]
        rw [hchars, List.foldlM_append, bind_assoc]
        congr 1
        funext x'
        rw [ih]
        simp [options, beforeMark, fromMark, hmark, hop]

theorem forOptions_stay (prog : Bytes) (done rest : List Bytes) (x : σ) :
    forOptions true letters body (stay prog done rest) x =
      (optsOf letters (optionChars true rest)).foldlM body x >>= fun x' =>
        .ok (prog :: (done ++ rest), x') := by
  induction rest generalizing done x with
  | nil =>
    obtain ⟨s', hopt, hargv⟩ := @getopt_stay_end letters prog done [] (by simp)
    rw [forOptions_none hopt, hargv]
    rfl
  | cons arg rest ih =>
    by_cases hstop : arg = endMark ∨ isOperand arg = true
    · obtain ⟨s', hopt, hargv⟩ := @getopt_stay_end letters prog done (arg :: rest) (by simpa)
      rw [forOptions_none hopt, hargv]
      have hnone : options true (arg :: rest) = [] := by
        rcases hstop with rfl | hop
        · rfl
        · by_cases hmark : arg = endMark <;> simp [options, beforeMark, hmark, hop]
      rw [optionChars, hnone]
      rfl
    · rw [not_or, Bool.not_eq_true] at hstop
      rcases hstop with ⟨hmark, hop⟩
      have hopt : (stay prog done (arg :: rest)).getopt true letters =
          getopt true letters { stay prog done (arg :: rest) with nextchar := arg.drop 1 } := by
        rw [getopt_stay, endOptions, getElem?_stay, List.head?_cons, if_neg (by simpa using hmark)]
        exact readElement_option (getElem?_stay _ _ _) hop true
      rw [forOptions_congr hopt, forOptions_nextchar _ (drop_one_ne_nil hop)]
      have hnext : { stay prog done (arg :: rest) with
          nextchar := [], optind := (stay prog done (arg :: rest)).optind + 1 } =
            stay prog (done ++ [arg]) rest := by
        simp [stay, Nat.add_assoc]
      have hchars : optsOf letters (optionChars true (arg :: rest)) =
          optsOf letters (arg.drop 1) ++ optsOf letters (optionChars true rest) := by
        simp [optsOf, optionChars, options, beforeMark, hmark, hop]
      rw [hnext, hchars, List.foldlM_append, bind_assoc]
      congr 1
      funext x'
      rw [ih, List.append_assoc]
      rfl

/-- The loop over the options of any command line: its body gets the letters of the
    options one by one, and behind it stand first the options, then the operands. -/
theorem forOptions_start (posix : Bool) (prog : Bytes) (args : List Bytes) (x : σ) :
    forOptions posix letters body (start (prog :: args)) x =
      (optsOf letters (optionChars posix args)).foldlM body x >>= fun x' =>
        .ok (prog :: arranged posix args, x') := by
  cases posix with
  | false =>
    have hstart : start (prog :: args) = layout prog [] [] [] args := rfl
    rw [hstart, forOptions_layout]
    simp [arranged]
  | true => exact forOptions_stay prog [] args x

end Getopt

end LinuxPractice.CLib
