import LinuxPractice.CLib.Strtol

/-!
# Decimal numerals at the start of a string

`Numeral s v rest` says what a string denotes, without `strtol`: behind blanks and a
sign it goes on with digits, as many as there are, whose value with that sign is the
integer `v`; `rest` is what stands behind the last digit.  `strtol` with base 10
answers this integer, saturated, and this rest.
-/

namespace LinuxPractice.CLib

inductive Sign where
  | none
  | plus
  | minus
deriving DecidableEq

def Sign.text : Sign → Bytes
  | .none => []
  | .plus => [43]
  | .minus => [45]

def Sign.apply : Sign → Nat → Int
  | .minus, n => -n
  | _, n => n

/-- The longest decimal-numeral prefix of `s` denotes `v`, and `rest` follows it. -/
def Numeral (s : Bytes) (v : Int) (rest : Bytes) : Prop :=
  ∃ (blanks : Bytes) (sign : Sign) (digits : Bytes),
    s = blanks ++ (sign.text ++ (digits ++ rest)) ∧ Blank blanks ∧ digits ≠ [] ∧
      (∀ c ∈ digits, isdigit c = true) ∧ (∀ c ∈ rest.head?, isdigit c = false) ∧
      v = sign.apply (digitsValue 10 digits)

/-- The numeral as `strtol` looks for it. -/
def scanNumeral (s : Bytes) : Option (Int × Bytes) :=
  let signed := strtolSign (s.dropWhile isspace)
  let digits := signed.2.takeWhile isdigit
  if digits = [] then none
  else
    let value : Int := digitsValue 10 digits
    some (if signed.1 then -value else value, signed.2.dropWhile isdigit)

/-! ### The scan finds the numeral -/

theorem isDigitOf_ten_eq (c : UInt8) : isDigitOf 10 c = isdigit c := by
  cases hdigit : isdigit c with
  | true => exact isDigitOf_ten hdigit
  | false =>
    simp only [isDigitOf, digitVal, hdigit, Bool.false_eq_true, if_false, UInt8.le_iff_toNat_le]
    split
    · rename_i d hd
      apply decide_eq_false
      split at hd
      · rename_i hlower
        have hlo : 97 ≤ c.toNat := hlower.1
        cases hd
        omega
      · split at hd
        · rename_i hupper
          have hlo : 65 ≤ c.toNat := hupper.1
          cases hd
          omega
        · cases hd
    · rfl

/-- The sign is what `strtol` takes off. -/
theorem exists_sign (s : Bytes) :
    ∃ sign : Sign, s = sign.text ++ (strtolSign s).2 ∧
      ∀ n : Nat, (if (strtolSign s).1 then -(n : Int) else n) = sign.apply n := by
  cases s with
  | nil => exact ⟨.none, rfl, fun n => rfl⟩
  | cons c cs =>
    by_cases hminus : c = 45
    · subst hminus
      exact ⟨.minus, rfl, fun n => rfl⟩
    · by_cases hplus : c = 43
      · subst hplus
        exact ⟨.plus, rfl, fun n => rfl⟩
      · have hnone : strtolSign (c :: cs) = (false, c :: cs) := by
          rw [strtolSign, if_neg hminus, if_neg hplus]
        rw [hnone]
        exact ⟨.none, rfl, fun n => rfl⟩

theorem strtolSign_text (sign : Sign) {digits : Bytes} (hne : digits ≠ [])
    (hdigits : ∀ c ∈ digits, isdigit c = true) (rest : Bytes) :
    (strtolSign (sign.text ++ (digits ++ rest))).2 = digits ++ rest ∧
      ∀ n : Nat, (if (strtolSign (sign.text ++ (digits ++ rest))).1 then -(n : Int) else n) =
        sign.apply n := by
  cases sign with
  | plus => exact ⟨rfl, fun n => rfl⟩
  | minus => exact ⟨rfl, fun n => rfl⟩
  | none =>
    obtain ⟨c, cs, rfl⟩ := List.exists_cons_of_ne_nil hne
    have hsign : strtolSign ((c :: cs) ++ rest) = (false, (c :: cs) ++ rest) :=
      strtolSign_of_isdigit (hdigits c (by simp)) (cs ++ rest)
    change (strtolSign ((c :: cs) ++ rest)).2 = _ ∧ _
    rw [hsign]
    refine ⟨rfl, fun n => ?_⟩
    change (if (strtolSign ((c :: cs) ++ rest)).1 then _ else _) = _
    rw [hsign]
    rfl

/-- The blanks end at the sign or the first digit. -/
theorem dropWhile_blanks {blanks : Bytes} (hblanks : Blank blanks) (sign : Sign) {digits : Bytes}
    (hne : digits ≠ []) (hdigits : ∀ c ∈ digits, isdigit c = true) (rest : Bytes) :
    (blanks ++ (sign.text ++ (digits ++ rest))).dropWhile isspace =
      sign.text ++ (digits ++ rest) := by
  rw [dropWhile_append_of_blank hblanks]
  cases sign with
  | plus => rfl
  | minus => rfl
  | none =>
    obtain ⟨c, cs, rfl⟩ := List.exists_cons_of_ne_nil hne
    apply List.dropWhile_cons_of_neg
    simp [isspace_of_isdigit (hdigits c (by simp))]

theorem span_digits {digits rest : Bytes} (hdigits : ∀ c ∈ digits, isdigit c = true)
    (hrest : ∀ c ∈ rest.head?, isdigit c = false) :
    (digits ++ rest).takeWhile isdigit = digits ∧ (digits ++ rest).dropWhile isdigit = rest := by
  have hstop : rest.takeWhile isdigit = [] ∧ rest.dropWhile isdigit = rest := by
    cases rest with
    | nil => exact ⟨rfl, rfl⟩
    | cons c cs => simp [hrest c (by simp)]
  constructor
  · rw [List.takeWhile_append_of_pos hdigits, hstop.1, List.append_nil]
  · rw [List.dropWhile_append_of_pos hdigits, hstop.2]

theorem scanNumeral_of_numeral {s rest : Bytes} {v : Int} (h : Numeral s v rest) :
    scanNumeral s = some (v, rest) := by
  rcases h with ⟨blanks, sign, digits, rfl, hblanks, hne, hdigits, hrest, rfl⟩
  obtain ⟨htext, hvalue⟩ := strtolSign_text sign hne hdigits rest
  obtain ⟨htake, hdrop⟩ := span_digits hdigits hrest
  simp only [scanNumeral, dropWhile_blanks hblanks sign hne hdigits, htext, htake, hdrop,
    if_neg hne, hvalue]

theorem numeral_of_scanNumeral {s rest : Bytes} {v : Int} (h : scanNumeral s = some (v, rest)) :
    Numeral s v rest := by
  unfold scanNumeral at h
  rcases exists_sign (s.dropWhile isspace) with ⟨sign, htext, hvalue⟩
  by_cases hne : (strtolSign (s.dropWhile isspace)).2.takeWhile isdigit = []
  · rw [if_pos hne] at h
    cases h
  · rw [if_neg hne] at h
    obtain ⟨rfl, rfl⟩ := Prod.mk.inj (Option.some.inj h)
    refine ⟨s.takeWhile isspace, sign, _, ?_, ?_, hne, ?_, ?_, hvalue _⟩
    · rw [List.takeWhile_append_dropWhile, ← htext, List.takeWhile_append_dropWhile]
    · intro c hc
      exact List.mem_takeWhile_imp hc
    · intro c hc
      exact List.mem_takeWhile_imp hc
    · intro c hc
      have := List.head?_dropWhile_not isdigit (strtolSign (s.dropWhile isspace)).2
      rw [Option.mem_def.mp hc] at this
      simpa using this

/-- A string denotes one integer, and the numeral ends at one place. -/
theorem numeral_unique {s rest rest' : Bytes} {v v' : Int} (h : Numeral s v rest)
    (h' : Numeral s v' rest') : v = v' ∧ rest = rest' := by
  have heq := (scanNumeral_of_numeral h).symm.trans (scanNumeral_of_numeral h')
  exact Prod.mk.inj (Option.some.inj heq)

theorem rest_ne_of_numeral {s rest : Bytes} {v : Int} (h : Numeral s v rest) : rest ≠ s := by
  rcases h with ⟨blanks, sign, digits, rfl, -, hne, -⟩
  intro heq
  have hlen := congrArg List.length heq
  have hpos := List.length_pos_iff.mpr hne
  simp only [List.length_append] at hlen
  omega

/-! ### What `strtol` answers -/

theorem strtol_ten (s : Bytes) :
    strtol 10 s =
      match scanNumeral s with
      | none => ⟨0, s, false⟩
      | some (v, rest) => saturate v rest := by
  have hdigit : isDigitOf 10 = isdigit := funext isDigitOf_ten_eq
  have hbase : ∀ t, strtolBase 10 t = (10, t) := by
    intro t
    simp [strtolBase]
  simp only [strtol, scanNumeral, hbase, hdigit]
  split <;> rfl

theorem strtol_of_numeral {s rest : Bytes} {v : Int} (h : Numeral s v rest) :
    strtol 10 s = saturate v rest := by
  rw [strtol_ten, scanNumeral_of_numeral h]

theorem strtol_of_not_numeral {s : Bytes} (h : ¬ ∃ v rest, Numeral s v rest) :
    strtol 10 s = ⟨0, s, false⟩ := by
  rw [strtol_ten]
  cases hscan : scanNumeral s with
  | none => rfl
  | some res => exact absurd ⟨res.1, res.2, numeral_of_scanNumeral hscan⟩ h

end LinuxPractice.CLib
