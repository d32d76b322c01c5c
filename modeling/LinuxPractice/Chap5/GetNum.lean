import LinuxPractice.CLib.Numeral

/-!
# The copies of `getNum`

`dup2-using-fcntl.c` and `dup-fd-share.c` each have a `getNum` of their own around
`strtol`; `lib/getnum.c` repeats the text of the second.  The copies differ in the
text for `perror` and in the test before the notice about further characters: the
second prints it when there are none.
-/

namespace LinuxPractice.Chap5

open LinuxPractice.CLib

def ERANGE : Nat := 34

/-- One `printf` of `getNum`. -/
inductive NumOut where
  /-- Prints `"strtol returned %ld\n"`. -/
  | returned (val : Int)
  /-- Prints `"Further characters after number: %s\n\n"`. -/
  | further (endptr : Bytes)
deriving DecidableEq

/-- The message before `exit(EXIT_FAILURE)`. -/
inductive NumFail where
  | perror (text : String) (errno : Nat)
  /-- Prints `"No digits were found\n"`. -/
  | noDigits
deriving DecidableEq

abbrev NumResult := Except NumFail (Int × List NumOut)

/-- The text that the copies share: `text` is the argument of `perror`, `notice` the test
    on `*endptr`.  `endptr == str` holds if nothing was taken off the string. -/
def getNumWith (text : String) (notice : Bytes → Bool) (nptr : Bytes) (base : Nat) : NumResult :=
  let res := strtol base nptr
  let errno := if res.erange then ERANGE else 0
  if (errno = ERANGE ∧ (res.value = LONG_MAX ∨ res.value = LONG_MIN)) ∨
      (errno ≠ 0 ∧ res.value = 0) then .error (.perror text errno)
  else if res.rest = nptr then .error .noDigits
  else
    .ok (res.value,
      .returned res.value :: if notice res.rest then [.further res.rest] else [])

/-- The copy of `dup2-using-fcntl.c`: `*endptr != '\0'`. -/
def Dup2.getNum : Bytes → Nat → NumResult :=
  getNumWith "strtol" fun endptr => decide (endptr ≠ [])

/-- The copy of `dup-fd-share.c` and `lib/getnum.c`: `*endptr == '\0'`. -/
def DupFdShare.getNum : Bytes → Nat → NumResult :=
  getNumWith "strol" fun endptr => decide (endptr = [])

/-! ### What is asked of `getNum` -/

/-- The numeral of `s` is one that a `long` can hold. -/
def FitsLong (s : Bytes) (v : Int) (rest : Bytes) : Prop :=
  Numeral s v rest ∧ LONG_MIN ≤ v ∧ v ≤ LONG_MAX

/-- With base 10, on the string `s`: the number is returned if there is one that fits,
    otherwise the program ends, and the notice is printed if something is left over. -/
structure MeetsSpec (getNum : Bytes → Nat → NumResult) (s : Bytes) : Prop where
  returns : ∀ v, (∃ out, getNum s 10 = .ok (v, out)) ↔ ∃ rest, FitsLong s v rest
  exits : (∃ fail, getNum s 10 = .error fail) ↔ ¬ ∃ v rest, FitsLong s v rest
  notice : ∀ v out, getNum s 10 = .ok (v, out) →
    ((∃ endptr, .further endptr ∈ out) ↔ ∃ rest, FitsLong s v rest ∧ rest ≠ [])

/-! ### One call -/

variable {text : String} {notice : Bytes → Bool} {s rest : Bytes} {v : Int}

theorem getNumWith_of_fits (h : FitsLong s v rest) :
    getNumWith text notice s 10 =
      .ok (v, .returned v :: if notice rest then [.further rest] else []) := by
  rcases h with ⟨hnum, hlo, hhi⟩
  have hstrtol : strtol 10 s = ⟨v, rest, false⟩ := by
    rw [strtol_of_numeral hnum, saturate_of_mem hlo hhi]
  have herrno : ¬ ((0 = ERANGE ∧ (v = LONG_MAX ∨ v = LONG_MIN)) ∨ (0 ≠ 0 ∧ v = 0)) := by
    simp [ERANGE]
  simp only [getNumWith, hstrtol, Bool.false_eq_true, if_false, if_neg herrno,
    if_neg (rest_ne_of_numeral hnum)]

/-- A number out of range is an error, whichever end it exceeds. -/
theorem getNumWith_of_erange (hnum : Numeral s v rest)
    (hout : ¬ (LONG_MIN ≤ v ∧ v ≤ LONG_MAX)) :
    getNumWith text notice s 10 = .error (.perror text ERANGE) := by
  have hrange : (strtol 10 s).erange = true ∧
      ((strtol 10 s).value = LONG_MAX ∨ (strtol 10 s).value = LONG_MIN) := by
    rw [strtol_of_numeral hnum, saturate]
    split
    · exact ⟨rfl, .inl rfl⟩
    · rw [if_pos (by omega)]
      exact ⟨rfl, .inr rfl⟩
  simp only [getNumWith, hrange.1, if_true]
  exact if_pos (.inl ⟨trivial, hrange.2⟩)

theorem getNumWith_of_no_numeral (h : ¬ ∃ v rest, Numeral s v rest) :
    getNumWith text notice s 10 = .error .noDigits := by
  simp [getNumWith, strtol_of_not_numeral h, ERANGE]

theorem getNumWith_of_not_fits (text : String) (notice : Bytes → Bool)
    (h : ¬ ∃ v rest, FitsLong s v rest) : ∃ fail, getNumWith text notice s 10 = .error fail := by
  by_cases hnum : ∃ v rest, Numeral s v rest
  · rcases hnum with ⟨v, rest, hnum⟩
    have hout : ¬ (LONG_MIN ≤ v ∧ v ≤ LONG_MAX) := fun hin => h ⟨v, rest, hnum, hin⟩
    exact ⟨_, getNumWith_of_erange hnum hout⟩
  · exact ⟨_, getNumWith_of_no_numeral hnum⟩

/-- Every copy returns what it should and ends when it should; the test for the notice
    does not matter for that. -/
theorem getNumWith_returns (text : String) (notice : Bytes → Bool) (s : Bytes) :
    (∀ v, (∃ out, getNumWith text notice s 10 = .ok (v, out)) ↔ ∃ rest, FitsLong s v rest) ∧
      ((∃ fail, getNumWith text notice s 10 = .error fail) ↔ ¬ ∃ v rest, FitsLong s v rest) := by
  by_cases h : ∃ v rest, FitsLong s v rest
  · rcases h with ⟨v, rest, hfits⟩
    rw [getNumWith_of_fits hfits]
    constructor
    · intro w
      constructor
      · rintro ⟨out, heq⟩
        cases heq
        exact ⟨rest, hfits⟩
      · rintro ⟨rest', hfits'⟩
        rw [(numeral_unique hfits'.1 hfits.1).1]
        exact ⟨_, rfl⟩
    · constructor
      · rintro ⟨fail, heq⟩
        cases heq
      · intro hno
        exact absurd ⟨v, rest, hfits⟩ hno
  · rcases getNumWith_of_not_fits text notice h with ⟨fail, heq⟩
    rw [heq]
    constructor
    · intro w
      constructor
      · rintro ⟨out, hok⟩
        cases hok
      · rintro ⟨rest, hfits⟩
        exact absurd ⟨w, rest, hfits⟩ h
    · exact ⟨fun _ => h, fun _ => ⟨fail, rfl⟩⟩

/-- The notice is right on the strings whose rest the test takes for what it is. -/
theorem meetsSpec_getNumWith_iff :
    MeetsSpec (getNumWith text notice) s ↔
      ∀ v rest, FitsLong s v rest → (notice rest = true ↔ rest ≠ []) := by
  have hfurther : ∀ {v : Int} {rest : Bytes},
      (∃ endptr, NumOut.further endptr ∈
        NumOut.returned v :: if notice rest then [.further rest] else []) ↔ notice rest = true := by
    intro v rest
    cases notice rest <;> simp
  constructor
  · intro h v rest hfits
    have hnotice := h.notice v _ (getNumWith_of_fits hfits)
    rw [hfurther] at hnotice
    rw [hnotice]
    constructor
    · rintro ⟨rest', hfits', hne⟩
      rwa [(numeral_unique hfits.1 hfits'.1).2]
    · intro hne
      exact ⟨rest, hfits, hne⟩
  · intro h
    obtain ⟨hreturns, hexits⟩ := getNumWith_returns text notice s
    refine ⟨hreturns, hexits, ?_⟩
    intro v out hok
    rcases (hreturns v).mp ⟨out, hok⟩ with ⟨rest, hfits⟩
    rw [getNumWith_of_fits hfits] at hok
    obtain ⟨-, rfl⟩ := Prod.mk.inj (Except.ok.inj hok)
    rw [hfurther, h v rest hfits]
    constructor
    · intro hne
      exact ⟨rest, hfits, hne⟩
    · rintro ⟨rest', hfits', hne⟩
      rwa [(numeral_unique hfits.1 hfits'.1).2]

/-! ### The copies -/

theorem Dup2.getNum_meetsSpec (s : Bytes) : MeetsSpec Dup2.getNum s := by
  apply meetsSpec_getNumWith_iff.mpr
  intro v rest _
  simp

/-- The test is the wrong way round, so the notice is wrong on every number. -/
theorem DupFdShare.getNum_meetsSpec_iff (s : Bytes) :
    MeetsSpec DupFdShare.getNum s ↔ ¬ ∃ v rest, FitsLong s v rest := by
  rw [DupFdShare.getNum, meetsSpec_getNumWith_iff]
  constructor
  · rintro h ⟨v, rest, hfits⟩
    have hnotice := h v rest hfits
    simp only [decide_eq_true_eq] at hnotice
    by_cases hrest : rest = []
    · exact hnotice.mp hrest hrest
    · exact hrest (hnotice.mpr hrest)
  · intro h v rest hfits
    exact absurd ⟨v, rest, hfits⟩ h

/-- On every string the copies agree on the number, and both meet the specification
    exactly where they end the program: where a number is returned, the notice of the
    second is wrong. -/
theorem getNum_copies_iff (s : Bytes) :
    (MeetsSpec Dup2.getNum s ∧ MeetsSpec DupFdShare.getNum s ↔
        ¬ ∃ v rest, Numeral s v rest ∧ LONG_MIN ≤ v ∧ v ≤ LONG_MAX) ∧
      ∀ v, (∃ out, Dup2.getNum s 10 = .ok (v, out)) ↔
        ∃ out, DupFdShare.getNum s 10 = .ok (v, out) := by
  constructor
  · constructor
    · rintro ⟨-, hshare⟩
      exact (DupFdShare.getNum_meetsSpec_iff s).mp hshare
    · intro h
      exact ⟨Dup2.getNum_meetsSpec s, (DupFdShare.getNum_meetsSpec_iff s).mpr h⟩
  · intro v
    have hdup2 := (getNumWith_returns "strtol" (fun endptr => decide (endptr ≠ [])) s).1 v
    have hshare := (getNumWith_returns "strol" (fun endptr => decide (endptr = [])) s).1 v
    exact hdup2.trans hshare.symm

/-- On `"7"` the second copy reports further characters. -/
theorem getNum_copies_seven :
    ¬ (MeetsSpec Dup2.getNum (bytes "7") ∧ MeetsSpec DupFdShare.getNum (bytes "7")) := by
  rintro ⟨-, hshare⟩
  have hnum : Numeral (bytes "7") 7 [] := numeral_of_scanNumeral (by decide)
  apply (DupFdShare.getNum_meetsSpec_iff _).mp hshare
  exact ⟨7, [], hnum, by decide, by decide⟩

end LinuxPractice.Chap5
