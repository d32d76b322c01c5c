import LinuxPractice.Chap12.UserProcs

/-!
# One line of a status file in `p_id_cmdn_si.c`

The loop body on a line, for every line: which branch takes it, which values the
branch reads, and which calls of `trim` it makes.  The three tests on `token`
follow each other, so the value of a `Name` line can be taken for the key `Uid`;
the value of a `Pid` line cannot, since `getInt` accepted it.
-/

namespace LinuxPractice.Chap12.UserProcs

open LinuxPractice.CLib LinuxPractice.Tlpi

variable (uid : UInt32) {f : Frame Vars} {tok rest : Bytes}

/-! ### The three tests -/

theorem pidBranch_skip (h : f.line.cstr f.token = some tok) (hne : tok ≠ bytes "Pid") :
    pidBranch f = .ok f := by
  simp only [pidBranch, Frame.text_of_cstr h, bind, Except.bind, if_neg hne]
  rfl

theorem nameBranch_skip (h : f.line.cstr f.token = some tok) (hne : tok ≠ bytes "Name") :
    nameBranch f = .ok f := by
  simp only [nameBranch, Frame.text_of_cstr h, bind, Except.bind, if_neg hne]
  rfl

theorem uidBranch_skip (h : f.line.cstr f.token = some tok) (hne : tok ≠ bytes "Uid") :
    uidBranch uid f = .ok f := by
  simp only [uidBranch, Frame.text_of_cstr h, bind, Except.bind, if_neg hne]
  rfl

theorem pidBranch_field {tok' rest' : Bytes} (hf : AfterToken f (bytes "Pid") rest)
    (h : nextToken colon rest = some (tok', rest')) :
    ∃ line saveptr call, SafeCall call ∧
      line.cstr (f.saveptr + strspn rest colon) = some (strip tok') ∧
      pidBranch f =
        match getInt (strip tok') GN_GT_0 "pid" with
        | .error texts => .error (.stop (.gnFail texts)
            { f with line, token := f.saveptr + strspn rest colon, saveptr,
                     trims := f.trims ++ [call] })
        | .ok pid => .ok { f with line, token := f.saveptr + strspn rest colon, saveptr,
                                  trims := f.trims ++ [call], vars := { f.vars with pid } } := by
  rcases Frame.field_of_some hf h with ⟨f₁, line, saveptr, call, hcut, htrim, hsafe, -, hafter⟩
  refine ⟨line, saveptr, call, hsafe, hafter.cstr_token, ?_⟩
  simp only [pidBranch, Frame.text_of_cstr hf.cstr_token, bind, Except.bind, if_true, hcut, htrim,
    Frame.getIntToken_of_cstr hafter.cstr_token]
  cases getInt (strip tok') GN_GT_0 "pid" <;> rfl

theorem nameBranch_field {tok' rest' : Bytes} (hf : AfterToken f (bytes "Name") rest)
    (h : nextToken colon rest = some (tok', rest')) :
    ∃ line saveptr call, SafeCall call ∧
      nameBranch f =
        .ok { f with line, token := f.saveptr + strspn rest colon, saveptr,
                     trims := f.trims ++ [call],
                     vars := { f.vars with name := some (f.saveptr + strspn rest colon) } } ∧
      (rest' = [] ∨ saveptr = f.saveptr + strspn rest colon + tok'.length + 1) ∧
      AfterToken { f with line, token := f.saveptr + strspn rest colon, saveptr,
                          trims := f.trims ++ [call],
                          vars := { f.vars with name := some (f.saveptr + strspn rest colon) } }
        (strip tok') rest' := by
  rcases Frame.field_of_some hf h with ⟨f₁, line, saveptr, call, hcut, htrim, hsafe, hsave, hafter⟩
  refine ⟨line, saveptr, call, hsafe, ?_, hsave,
    ⟨hafter.cstr_token, hafter.cstr_save, hafter.le_save, hafter.nul, hafter.before⟩⟩
  simp only [nameBranch, Frame.text_of_cstr hf.cstr_token, bind, Except.bind, if_true, hcut, htrim]
  rfl

/-! ### The value of the `Uid` branch

Behind the key, the first colon token of the rest is cut again at tabs.  A tab
that this second call skips stays in the line before the token, and `isspace` is
true of it. -/

/-- The tab token that the `Uid` branch reads from the rest of a line, and whether
    a tab stands before it. -/
def uidValue (rest : Bytes) : Option (Bool × Bytes) :=
  match nextToken colon rest with
  | none => none
  | some (tok, _) =>
    match nextToken tab tok with
    | none => none
    | some (value, _) => some (decide (tok.head? = some 9), value)

theorem uidValue_eq_none :
    uidValue rest = none ↔ nextToken colon rest = none ∨
      ∃ tok rest', nextToken colon rest = some (tok, rest') ∧ nextToken tab tok = none := by
  unfold uidValue
  cases nextToken colon rest with
  | none => simp
  | some cut =>
    rcases cut with ⟨tok, rest'⟩
    cases htab : nextToken tab tok with
    | none => simp [htab]
    | some cut' => simp [htab]

theorem uidValue_eq_some {tabbed : Bool} {value : Bytes} :
    uidValue rest = some (tabbed, value) ↔
      ∃ tok rest' rest'', nextToken colon rest = some (tok, rest') ∧
        nextToken tab tok = some (value, rest'') ∧ decide (tok.head? = some 9) = tabbed := by
  unfold uidValue
  cases nextToken colon rest with
  | none => simp
  | some cut =>
    rcases cut with ⟨tok, rest'⟩
    cases htab : nextToken tab tok with
    | none => simp [htab]
    | some cut' => simp [htab, Prod.ext_iff, and_comm]

/-- The value that makes the first loop of `trim` run out of the token. -/
def BlankAfterTab (rest : Bytes) : Prop := ∃ value, uidValue rest = some (true, value) ∧ Blank value

theorem strspn_tab (tok : Bytes) : 0 < strspn tok tab ↔ tok.head? = some 9 := by
  cases tok with
  | nil => simp [strspn]
  | cons c cs => simp [strspn, tab, List.takeWhile_cons]; split <;> simp_all

theorem uidBranch_noToken (hf : AfterToken f (bytes "Uid") rest) (h : uidValue rest = none) :
    ∃ line token saveptr, uidBranch uid f =
      .error (.cont { f with line, token, saveptr, out := f.out ++ [.noToken] }) := by
  rcases uidValue_eq_none.mp h with hcolon | ⟨tok, rest', hcolon, htab⟩
  · rcases Frame.strtok_of_none hf.cstr_save hcolon with ⟨saveptr, hcut⟩
    refine ⟨f.line, f.token, saveptr, ?_⟩
    simp only [uidBranch, Frame.text_of_cstr hf.cstr_token, bind, Except.bind, if_true, hcut]
  · rcases Frame.strtok_next hf hcolon with ⟨line, saveptr, hcut, -, -, hafter⟩
    rcases Frame.strtok_of_none hafter.cstr_token htab with ⟨saveptr', hcut'⟩
    refine ⟨line, f.saveptr + strspn rest colon, saveptr', ?_⟩
    simp only [uidBranch, Frame.text_of_cstr hf.cstr_token, bind, Except.bind, if_true, hcut, hcut']

/-- The state in which the branch calls `trim`: the value stands at `token`, behind
    a skipped tab or behind a byte that is no blank. -/
theorem uidBranch_cut (hf : AfterToken f (bytes "Uid") rest) {tabbed : Bool} {value : Bytes}
    (h : uidValue rest = some (tabbed, value)) :
    ∃ f₁ f₂ : Frame Vars, f.strtok f.saveptr colon = .ok f₁ ∧ f₁.strtok f₁.token tab = .ok f₂ ∧
      (∃ line token saveptr, f₂ = { f with line, token, saveptr }) ∧
      (∀ tok rest', nextToken colon rest = some (tok, rest') →
        f₂.token = f.saveptr + strspn rest colon + strspn tok tab) ∧
      f₂.line.cstr f₂.token = some value ∧ value ≠ [] ∧ 0 < f₂.token ∧
      (tabbed = true → f₂.line.load (f₂.token - 1) = some 9) ∧
      (tabbed = false → ∃ c, f₂.line.load (f₂.token - 1) = some c ∧ isspace c = false) := by
  rcases uidValue_eq_some.mp h with ⟨tok, rest', rest'', hcolon, htab, rfl⟩
  rcases Frame.strtok_next hf hcolon with ⟨line, saveptr, hcut, hpos, -, hafter⟩
  rcases Frame.strtok_of_some hafter.cstr_token htab with ⟨line', saveptr', hcut', hat⟩
  rcases exists_cut_of_nextToken htab with ⟨-, -, -, -, hne, -⟩
  refine ⟨_, _, hcut, hcut', ⟨_, _, _, rfl⟩, ?_, hat.cstr_token, hne, by simp only; omega, ?_, ?_⟩
  · rintro tok₁ rest₁ heq
    obtain ⟨rfl, -⟩ : tok = tok₁ ∧ rest' = rest₁ := by simpa [hcolon] using heq
    rfl
  · intro htabbed
    have hskip : 0 < strspn tok tab := (strspn_tab tok).mpr (of_decide_eq_true htabbed)
    rcases hat.before with hsame | ⟨-, d, hd, hload⟩
    · omega
    · obtain rfl : d = 9 := by simpa [tab] using hd
      exact hload
  · intro htabbed
    have hskip : strspn tok tab = 0 := by
      have := mt (strspn_tab tok).mp (of_decide_eq_false htabbed)
      omega
    have hbefore := hafter.before (by simp only; omega)
    have hload := hat.load_eq (f.saveptr + strspn rest colon - 1) (by simp only; omega)
    simp only [hskip, Nat.add_zero] at hload hbefore ⊢
    rwa [hload]

theorem uidBranch_value (hf : AfterToken f (bytes "Uid") rest) {tabbed : Bool} {value : Bytes}
    (h : uidValue rest = some (tabbed, value)) (hok : tabbed = true → ¬ Blank value) :
    ∃ line token saveptr call, SafeCall call ∧ line.cstr token = some (strip value) ∧
      (∀ tok rest', nextToken colon rest = some (tok, rest') →
        token = f.saveptr + strspn rest colon + strspn tok tab) ∧
      uidBranch uid f =
        match getInt (strip value) GN_ANY_BASE "realuid" with
        | .error texts => .error (.stop (.gnFail texts)
            { f with line, token, saveptr, trims := f.trims ++ [call] })
        | .ok realuid => printRecord uid
            { f with line, token, saveptr, trims := f.trims ++ [call],
                     vars := { f.vars with realuid } } := by
  obtain ⟨f₁, f₂, hcut, hcut', ⟨line, token, saveptr, rfl⟩, htoken, hstr, -, hpos, -, hbefore⟩ :=
    uidBranch_cut hf h
  obtain ⟨run, hrun, htrim⟩ := trim_spec (by decide) hstr hpos (by
    cases tabbed with
    | true => exact .inl (hok rfl)
    | false => exact .inr (hbefore rfl))
  refine ⟨run.trace.array, token, saveptr, (line, token), ⟨value, run, hstr, hpos, hrun, htrim⟩,
    htrim.cstr_eq, htoken, ?_⟩
  have htrimToken : ({ f with line, token, saveptr } : Frame Vars).trimToken =
      .ok { f with line := run.trace.array, token, saveptr,
                   trims := f.trims ++ [(line, token)] } := by
    simp only [Frame.trimToken, hrun]
  simp only [uidBranch, Frame.text_of_cstr hf.cstr_token, bind, Except.bind, if_true, hcut, hcut',
    htrimToken]
  rw [Frame.getIntToken_of_cstr htrim.cstr_eq]
  cases getInt (strip value) GN_ANY_BASE "realuid" <;> rfl

/-- A blank value behind a tab ends the program: `trim` leaves its array, or it
    hands `getInt` an empty string. -/
theorem uidBranch_blank (hf : AfterToken f (bytes "Uid") rest) (h : BlankAfterTab rest) :
    ∃ why line token saveptr call, Overruns call ∧
      uidBranch uid f = .error (.stop why
        { f with line, token, saveptr, trims := f.trims ++ [call] }) := by
  rcases h with ⟨value, hvalue, hblank⟩
  obtain ⟨f₁, f₂, hcut, hcut', ⟨line, token, saveptr, rfl⟩, -, hstr, hne, hpos, hload, -⟩ :=
    uidBranch_cut hf hvalue
  have hover : ∀ run, trim line token = some run →
      run.tail < 0 ∧ run.trace.array.cstr token = some [] :=
    fun run hrun => trim_overrun (by decide) hstr hne hblank hpos (hload rfl) (by decide) hrun
  have hunsafe : Overruns (line, token) := fun run hrun => (hover run hrun).1
  cases hrun : trim line token with
  | none =>
    refine ⟨.undefined, line, token, saveptr, (line, token), hunsafe, ?_⟩
    have htrimToken : ({ f with line, token, saveptr } : Frame Vars).trimToken =
        .error (.stop .undefined
          { f with line, token, saveptr, trims := f.trims ++ [(line, token)] }) := by
      simp only [Frame.trimToken, hrun]
    simp only [uidBranch, Frame.text_of_cstr hf.cstr_token, bind, Except.bind, if_true, hcut,
      hcut', htrimToken]
  | some run =>
    refine ⟨.gnFail ⟨"getInt", "null or empty string", [], "realuid"⟩, run.trace.array, token,
      saveptr, (line, token), hunsafe, ?_⟩
    have htrimToken : ({ f with line, token, saveptr } : Frame Vars).trimToken =
        .ok { f with line := run.trace.array, token, saveptr,
                     trims := f.trims ++ [(line, token)] } := by
      simp only [Frame.trimToken, hrun]
    simp only [uidBranch, Frame.text_of_cstr hf.cstr_token, bind, Except.bind, if_true, hcut,
      hcut', htrimToken]
    rw [Frame.getIntToken_of_cstr (hover run hrun).2]
    rfl

/-! ### The loop body, line by line -/

variable {s : Bytes}

theorem lineBody_noToken (hs : f.line.cstr 0 = some s) (h : nextToken colon s = none) :
    ∃ saveptr, lineBody uid f = .error (.cont { f with saveptr, out := f.out ++ [.noToken] }) := by
  rcases Frame.strtok_of_none hs h with ⟨saveptr, hcut⟩
  refine ⟨saveptr, ?_⟩
  simp only [lineBody, bind, Except.bind, hcut]

theorem lineBody_other (hs : f.line.cstr 0 = some s) (h : nextToken colon s = some (tok, rest))
    (hpid : tok ≠ bytes "Pid") (hname : tok ≠ bytes "Name") (huid : tok ≠ bytes "Uid") :
    ∃ line token saveptr, lineBody uid f = .ok { f with line, token, saveptr } := by
  rcases Frame.strtok_line hs h with ⟨line, saveptr, hcut, -, hafter⟩
  refine ⟨line, strspn s colon, saveptr, ?_⟩
  simp only [lineBody, bind, Except.bind, hcut, pidBranch_skip hafter.cstr_token hpid,
    nameBranch_skip hafter.cstr_token hname, uidBranch_skip uid hafter.cstr_token huid]

/-- What `getInt` accepts is no key. -/
theorem ne_key_of_getInt {pid : Int} (h : getInt tok GN_GT_0 "pid" = .ok pid) :
    tok ≠ bytes "Name" ∧ tok ≠ bytes "Uid" := by
  constructor
  · exact ne_of_getInt h (by decide)
  · exact ne_of_getInt h (by decide)

/-- A `Pid` line sets `pid`; the two tests behind it fail. -/
theorem lineBody_pid {tok' rest' : Bytes} (hs : f.line.cstr 0 = some s)
    (h : nextToken colon s = some (bytes "Pid", rest))
    (h' : nextToken colon rest = some (tok', rest')) :
    ∃ line token saveptr call, SafeCall call ∧
      lineBody uid f =
        match getInt (strip tok') GN_GT_0 "pid" with
        | .error texts => .error (.stop (.gnFail texts)
            { f with line, token, saveptr, trims := f.trims ++ [call] })
        | .ok pid => .ok { f with line, token, saveptr, trims := f.trims ++ [call],
                                  vars := { f.vars with pid } } := by
  rcases Frame.strtok_line hs h with ⟨line, saveptr, hcut, -, hafter⟩
  rcases pidBranch_field hafter h' with ⟨line', saveptr', call, hsafe, hstr, hbranch⟩
  refine ⟨line', saveptr + strspn rest colon, saveptr', call, hsafe, ?_⟩
  simp only [lineBody, bind, Except.bind, hcut, hbranch]
  cases hpid : getInt (strip tok') GN_GT_0 "pid" with
  | error texts => rfl
  | ok pid =>
    rcases ne_key_of_getInt hpid with ⟨hname, huid⟩
    let f₂ : Frame Vars :=
      { f with line := line', token := saveptr + strspn rest colon, saveptr := saveptr',
               trims := f.trims ++ [call], vars := { f.vars with pid } }
    have hskip : nameBranch f₂ = .ok f₂ := nameBranch_skip hstr hname
    have hskip' : uidBranch uid f₂ = .ok f₂ := uidBranch_skip uid hstr huid
    simp only [f₂] at hskip hskip'
    simp only [hskip, hskip']

theorem lineBody_pid_noToken (hs : f.line.cstr 0 = some s)
    (h : nextToken colon s = some (bytes "Pid", rest)) (h' : nextToken colon rest = none) :
    ∃ line token saveptr, lineBody uid f =
      .error (.cont { f with line, token, saveptr, out := f.out ++ [.noToken] }) := by
  rcases Frame.strtok_line hs h with ⟨line, saveptr, hcut, -, hafter⟩
  rcases Frame.strtok_of_none hafter.cstr_save h' with ⟨saveptr', hcut'⟩
  refine ⟨line, strspn s colon, saveptr', ?_⟩
  simp only [lineBody, pidBranch, bind, Except.bind, hcut,
    Frame.text_of_cstr hafter.cstr_token, if_true, hcut']

theorem lineBody_name_noToken (hs : f.line.cstr 0 = some s)
    (h : nextToken colon s = some (bytes "Name", rest)) (h' : nextToken colon rest = none) :
    ∃ line token saveptr, lineBody uid f =
      .error (.cont { f with line, token, saveptr, out := f.out ++ [.noToken] }) := by
  rcases Frame.strtok_line hs h with ⟨line, saveptr, hcut, -, hafter⟩
  rcases Frame.strtok_of_none hafter.cstr_save h' with ⟨saveptr', hcut'⟩
  refine ⟨line, strspn s colon, saveptr', ?_⟩
  simp only [lineBody, nameBranch, bind, Except.bind, hcut,
    pidBranch_skip hafter.cstr_token (by decide), Frame.text_of_cstr hafter.cstr_token, if_true,
    hcut']

/-- A `Name` line sets `name` to the offset of its value; the value itself then
    goes through the test for `Uid`. -/
theorem lineBody_name {tok' rest' : Bytes} (hs : f.line.cstr 0 = some s)
    (h : nextToken colon s = some (bytes "Name", rest))
    (h' : nextToken colon rest = some (tok', rest')) :
    ∃ line saveptr call, SafeCall call ∧
      lineBody uid f =
        uidBranch uid
          { f with line, token := strspn s colon + 5 + strspn rest colon, saveptr,
                   trims := f.trims ++ [call],
                   vars := { f.vars with
                     name := some (strspn s colon + 5 + strspn rest colon) } } ∧
      (rest' = [] ∨ saveptr = strspn s colon + 5 + strspn rest colon + tok'.length + 1) ∧
      AfterToken
          { f with line, token := strspn s colon + 5 + strspn rest colon, saveptr,
                   trims := f.trims ++ [call],
                   vars := { f.vars with
                     name := some (strspn s colon + 5 + strspn rest colon) } }
        (strip tok') rest' := by
  rcases Frame.strtok_line hs h with ⟨line, saveptr, hcut, hsave, hafter⟩
  have hne : rest ≠ [] := by
    rintro rfl
    simp [nextToken, strspn] at h'
  obtain rfl : saveptr = strspn s colon + 4 + 1 := hsave.resolve_left hne
  rcases nameBranch_field hafter h' with ⟨line', saveptr', call, hsafe, hbranch, hsave', hafter'⟩
  refine ⟨line', saveptr', call, hsafe, ?_, hsave', hafter'⟩
  simp only [lineBody, bind, Except.bind, hcut, pidBranch_skip hafter.cstr_token (by decide),
    hbranch]

theorem lineBody_uid (hs : f.line.cstr 0 = some s)
    (h : nextToken colon s = some (bytes "Uid", rest)) :
    ∃ line saveptr,
      lineBody uid f = uidBranch uid { f with line, token := strspn s colon, saveptr } ∧
      (rest = [] ∨ saveptr = strspn s colon + 4) ∧
      AfterToken { f with line, token := strspn s colon, saveptr } (bytes "Uid") rest := by
  rcases Frame.strtok_line hs h with ⟨line, saveptr, hcut, hsave, hafter⟩
  refine ⟨line, saveptr, ?_, hsave, hafter⟩
  simp only [lineBody, bind, Except.bind, hcut, pidBranch_skip hafter.cstr_token (by decide),
    nameBranch_skip hafter.cstr_token (by decide)]

end LinuxPractice.Chap12.UserProcs
