import LinuxPractice.CLib.Bytes

/-!
# `strtol`

`strtol` skips whitespace, takes an optional sign, settles the base, and converts
the longest run of digits of that base; the value saturates at the range of
`long` and `errno` becomes `ERANGE` then.  Without a digit nothing is converted
and `endptr` is the start of the string.
-/

namespace LinuxPractice.CLib

def LONG_MAX : Int := 2 ^ 63 - 1
def LONG_MIN : Int := -2 ^ 63
def INT_MAX : Int := 2 ^ 31 - 1
def INT_MIN : Int := -2 ^ 31

/-- The value that an `int` takes for `v`, in a conversion or behind an overflow: `v`
    modulo `2 ^ 32`, in the range of `int`. -/
def wrapInt (v : Int) : Int := v.bmod (2 ^ 32)

/-- The same for `short`. -/
def wrapShort (v : Int) : Int := v.bmod 65536

def digitVal (c : UInt8) : Option Nat :=
  if isdigit c then some (c.toNat - 48)
  else if 97 ≤ c ∧ c ≤ 122 then some (c.toNat - 87)
  else if 65 ≤ c ∧ c ≤ 90 then some (c.toNat - 55)
  else none

def isDigitOf (base : Nat) (c : UInt8) : Bool :=
  match digitVal c with
  | some d => decide (d < base)
  | none => false

def digitsValue (base : Nat) (s : Bytes) : Nat :=
  s.foldl (fun v c => v * base + (digitVal c).getD 0) 0

/-- The result of `strtol`: the value, the string at `endptr`, and whether `errno`
    was set to `ERANGE`. -/
structure StrtolResult where
  value : Int
  rest : Bytes
  erange : Bool
deriving DecidableEq

def saturate (v : Int) (rest : Bytes) : StrtolResult :=
  if LONG_MAX < v then ⟨LONG_MAX, rest, true⟩
  else if v < LONG_MIN then ⟨LONG_MIN, rest, true⟩
  else ⟨v, rest, false⟩

/-- A `0x` that a hexadecimal digit follows is a prefix; alone it is the digit 0. -/
def hasHexPrefix : Bytes → Bool
  | z :: x :: c :: _ => z == 48 && (x == 120 || x == 88) && isDigitOf 16 c
  | _ => false

/-- The base in effect and the digits' start, for the text behind the sign. -/
def strtolBase (base : Nat) (s : Bytes) : Nat × Bytes :=
  if (base = 0 ∨ base = 16) ∧ hasHexPrefix s then (16, s.drop 2)
  else if base = 0 then
    if s.head? = some 48 then (8, s) else (10, s)
  else (base, s)

/-- The optional sign: whether it is a minus, and the text behind it. -/
def strtolSign : Bytes → Bool × Bytes
  | c :: cs => if c = 45 then (true, cs) else if c = 43 then (false, cs) else (false, c :: cs)
  | [] => (false, [])

def strtol (base : Nat) (s : Bytes) : StrtolResult :=
  let signed := strtolSign (s.dropWhile isspace)
  let based := strtolBase base signed.2
  let digits := based.2.takeWhile (isDigitOf based.1)
  if digits = [] then ⟨0, s, false⟩
  else
    let value : Int := digitsValue based.1 digits
    saturate (if signed.1 then -value else value) (based.2.dropWhile (isDigitOf based.1))

/-! ### Values of type `int` -/

theorem wrapInt_mem (v : Int) : INT_MIN ≤ wrapInt v ∧ wrapInt v ≤ INT_MAX := by
  have hlo := @Int.le_bmod v (2 ^ 32) (by decide)
  have hhi := @Int.bmod_lt v (2 ^ 32) (by decide)
  simp only [wrapInt, INT_MIN, INT_MAX]
  omega

theorem wrapInt_of_mem {v : Int} (hlo : INT_MIN ≤ v) (hhi : v ≤ INT_MAX) : wrapInt v = v := by
  simp only [INT_MIN, INT_MAX] at hlo hhi
  apply Int.bmod_eq_of_le
  · omega
  · omega

/-- The sum of two positive `int`s that overflows ends on a negative number. -/
theorem wrapInt_of_overflow {v : Int} (hlo : INT_MAX < v) (hhi : v ≤ INT_MAX + INT_MAX + 1) :
    wrapInt v = v - 2 ^ 32 := by
  simp only [INT_MAX] at hlo hhi
  have hmod : v % (2 ^ 32 : Nat) = v := Int.emod_eq_of_lt (by omega) (by omega)
  rw [wrapInt, Int.bmod, hmod, if_neg (by omega)]
  rfl

theorem wrapShort_eq_iff (v : Int) : wrapShort v = v ↔ -32768 ≤ v ∧ v ≤ 32767 := by
  have hlo := @Int.le_bmod v 65536 (by decide)
  have hhi := @Int.bmod_lt v 65536 (by decide)
  constructor
  · intro h
    rw [wrapShort] at h
    omega
  · rintro ⟨hlo', hhi'⟩
    apply Int.bmod_eq_of_le
    · omega
    · omega

/-! ### Decimal numerals -/

theorem digitVal_ofNat {d : Nat} (h : d < 10) : digitVal (UInt8.ofNat (48 + d)) = some d := by
  interval_cases d <;> decide

theorem isDigitOf_ten {c : UInt8} (h : isdigit c = true) : isDigitOf 10 c = true := by
  simp only [isDigitOf, digitVal, h, if_true, decide_eq_true_eq]
  simp only [isdigit, Bool.and_eq_true, decide_eq_true_eq, UInt8.le_iff_toNat_le] at h
  have := h.2
  simp at this
  omega

theorem digitsValue_decimal (n : Nat) : digitsValue 10 (decimal n) = n := by
  unfold decimal
  split
  · rename_i hn
    subst hn
    decide
  · have hfold : ∀ (ds : List Nat), (∀ d ∈ ds, d < 10) →
        digitsValue 10 (ds.reverse.map fun d => UInt8.ofNat (48 + d)) = Nat.ofDigits 10 ds := by
      intro ds hds
      unfold digitsValue
      rw [List.foldl_map, List.foldl_reverse]
      induction ds with
      | nil => rfl
      | cons d ds ih =>
        rw [List.foldr_cons, ih fun b hb => hds b (by simp [hb]), Nat.ofDigits_cons,
          digitVal_ofNat (hds d (by simp))]
        simp
        omega
    rw [hfold _ fun d hd => Nat.digits_lt_base (by omega) hd, Nat.ofDigits_digits]

theorem strtolSign_of_isdigit {c : UInt8} (h : isdigit c = true) (cs : Bytes) :
    strtolSign (c :: cs) = (false, c :: cs) := by
  have h45 : c ≠ 45 := by rintro rfl; revert h; decide
  have h43 : c ≠ 43 := by rintro rfl; revert h; decide
  simp [strtolSign, h45, h43]

theorem strtol_digits {base : Nat} {s : Bytes} (hne : s ≠ [])
    (hdigits : ∀ c ∈ s, isdigit c = true)
    (hbase : base = 10 ∨ base = 0 ∧ s.head? ≠ some 48) :
    strtol base s = saturate (digitsValue 10 s) [] := by
  cases s with
  | nil => exact absurd rfl hne
  | cons c cs =>
    have hc : isdigit c = true := hdigits c (by simp)
    have hspace : (c :: cs).dropWhile isspace = c :: cs := by
      rw [List.dropWhile_cons_of_neg (by simp [isspace_of_isdigit hc])]
    have hall : ∀ b ∈ c :: cs, isDigitOf 10 b = true := fun b hb => isDigitOf_ten (hdigits b hb)
    have hten : strtolBase base (c :: cs) = (10, c :: cs) := by
      rcases hbase with rfl | ⟨rfl, hhead⟩
      · simp [strtolBase]
      · have hhex : hasHexPrefix (c :: cs) = false := by
          have : c ≠ 48 := by simpa using hhead
          unfold hasHexPrefix
          split <;> simp_all
        simp only [strtolBase, hhex, hhead]
        simp
    simp only [strtol, hspace, strtolSign_of_isdigit hc, hten,
      List.takeWhile_eq_self_iff.mpr hall, List.dropWhile_eq_nil_iff.mpr hall]
    simp

theorem strtol_neg_digits {s : Bytes} (hne : s ≠ []) (hdigits : ∀ c ∈ s, isdigit c = true) :
    strtol 10 (45 :: s) = saturate (-digitsValue 10 s) [] := by
  have hspace : (45 :: s).dropWhile isspace = 45 :: s := by
    rw [List.dropWhile_cons_of_neg (by decide)]
  have hall : ∀ b ∈ s, isDigitOf 10 b = true := fun b hb => isDigitOf_ten (hdigits b hb)
  have hbase : strtolBase 10 s = (10, s) := by simp [strtolBase]
  simp only [strtol, hspace, strtolSign, if_true, hbase, List.takeWhile_eq_self_iff.mpr hall,
    List.dropWhile_eq_nil_iff.mpr hall, if_neg hne]

theorem rest_saturate (v : Int) (rest : Bytes) : (saturate v rest).rest = rest := by
  unfold saturate
  split
  · rfl
  · split <;> rfl

theorem saturate_of_mem {v : Int} (hlo : LONG_MIN ≤ v) (hhi : v ≤ LONG_MAX) (rest : Bytes) :
    saturate v rest = ⟨v, rest, false⟩ := by
  rw [saturate, if_neg (by omega), if_neg (by omega)]

theorem head?_decimal_ne {n : Nat} (h : n ≠ 0) : (decimal n).head? ≠ some 48 := by
  have hne : Nat.digits 10 n ≠ [] := Nat.digits_ne_nil_iff_ne_zero.mpr h
  have hlast := Nat.getLast_digit_ne_zero 10 h
  have hlt : (Nat.digits 10 n).getLast hne < 10 :=
    Nat.digits_lt_base (by omega) (List.getLast_mem hne)
  simp only [decimal, h, if_false, List.head?_map, List.head?_reverse,
    List.getLast?_eq_some_getLast hne, Option.map_some, ne_eq, Option.some.injEq]
  generalize (Nat.digits 10 n).getLast hne = d at hlast hlt
  intro heq
  have := digitVal_ofNat hlt
  rw [heq] at this
  have h0 : digitVal 48 = some 0 := by decide
  rw [h0] at this
  exact hlast (Option.some.inj this).symm

theorem strtol_decimal {base n : Nat} (hbase : base = 10 ∨ base = 0) (hn : (n : Int) ≤ LONG_MAX) :
    strtol base (decimal n) = ⟨n, [], false⟩ := by
  by_cases h : n = 0
  · subst h
    rcases hbase with rfl | rfl <;> decide
  · rw [strtol_digits (decimal_ne_nil n) (fun c => isdigit_of_mem_decimal)
      (hbase.imp id fun hb => ⟨hb, head?_decimal_ne h⟩), digitsValue_decimal]
    exact saturate_of_mem (by unfold LONG_MIN; omega) hn []

end LinuxPractice.CLib
