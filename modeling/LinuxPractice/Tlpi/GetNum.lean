import LinuxPractice.CLib.Strtol

/-!
# `get_num.c`: `getNum`, `getLong` and `getInt`

The numeric-argument functions of the TLPI library.  A failing conversion calls
`gnFail`, which prints the function's name, the message, the offending text and
the caller's name for the argument, and ends the program; here it is the error of
an `Except` that carries the four texts.
-/

namespace LinuxPractice.Tlpi

open LinuxPractice.CLib

/-! ### Flags (`get_num.h`) -/

def GN_NONNEG : Nat := 0o1
def GN_GT_0 : Nat := 0o2
def GN_ANY_BASE : Nat := 0o100
def GN_BASE_8 : Nat := 0o200
def GN_BASE_16 : Nat := 0o400

/-- The texts that `gnFail` prints before it exits with `EXIT_FAILURE`. -/
structure GnFail where
  fname : String
  msg : String
  arg : Bytes
  name : String
deriving DecidableEq

def gnBase (flags : Nat) : Nat :=
  if flags &&& GN_ANY_BASE ≠ 0 then 0
  else if flags &&& GN_BASE_8 ≠ 0 then 8
  else if flags &&& GN_BASE_16 ≠ 0 then 16
  else 10

def getNum (fname : String) (arg : Bytes) (flags : Nat) (name : String) : Except GnFail Int :=
  if arg = [] then .error ⟨fname, "null or empty string", arg, name⟩
  else
    let res := strtol (gnBase flags) arg
    if res.erange then .error ⟨fname, "strtol() failed", arg, name⟩
    else if res.rest ≠ [] then .error ⟨fname, "nonnumeric characters", arg, name⟩
    else if flags &&& GN_NONNEG ≠ 0 ∧ res.value < 0 then
      .error ⟨fname, "negative value not allowed", arg, name⟩
    else if flags &&& GN_GT_0 ≠ 0 ∧ res.value ≤ 0 then
      .error ⟨fname, "value must be > 0", arg, name⟩
    else .ok res.value

def getLong (arg : Bytes) (flags : Nat) (name : String) : Except GnFail Int :=
  getNum "getLong" arg flags name

def getInt (arg : Bytes) (flags : Nat) (name : String) : Except GnFail Int :=
  match getNum "getInt" arg flags name with
  | .error e => .error e
  | .ok res =>
    if res > INT_MAX ∨ res < INT_MIN then .error ⟨"getInt", "integer out of range", arg, name⟩
    else .ok res

/-! ### Accepted values -/

theorem getInt_mem {arg : Bytes} {flags : Nat} {name : String} {v : Int}
    (h : getInt arg flags name = .ok v) : INT_MIN ≤ v ∧ v ≤ INT_MAX := by
  unfold getInt at h
  split at h
  · cases h
  · split at h
    · cases h
    · obtain rfl := Except.ok.inj h
      omega

/-- A check that was passed. -/
theorem of_guard {ε α : Type} {p : Prop} [Decidable p] {e : ε} {x : Except ε α} {v : α}
    (h : (if p then .error e else x) = .ok v) : ¬ p ∧ x = .ok v := by
  split at h
  · cases h
  · rename_i hp
    exact ⟨hp, h⟩

theorem getNum_pos {fname : String} {arg : Bytes} {flags : Nat} {name : String} {v : Int}
    (h : getNum fname arg flags name = .ok v) (hflags : flags &&& GN_GT_0 ≠ 0) : 0 < v := by
  obtain ⟨-, h⟩ := of_guard h
  obtain ⟨-, h⟩ := of_guard h
  obtain ⟨-, h⟩ := of_guard h
  obtain ⟨-, h⟩ := of_guard h
  obtain ⟨hgt, h⟩ := of_guard h
  obtain rfl := Except.ok.inj h
  exact Int.not_le.mp fun hle => hgt ⟨hflags, hle⟩

theorem getInt_pos {arg : Bytes} {flags : Nat} {name : String} {v : Int}
    (h : getInt arg flags name = .ok v) (hflags : flags &&& GN_GT_0 ≠ 0) : 0 < v := by
  unfold getInt at h
  split at h
  · cases h
  · rename_i hnum
    split at h
    · cases h
    · obtain rfl := Except.ok.inj h
      exact getNum_pos hnum hflags

theorem ne_of_getInt {arg arg' : Bytes} {flags : Nat} {name : String} {v : Int}
    (h : getInt arg flags name = .ok v) (hrejects : (getInt arg' flags name).isOk = false) :
    arg ≠ arg' := by
  rintro rfl
  rw [h] at hrejects
  cases hrejects

theorem getNum_decimal {fname name : String} {flags n : Nat}
    (hflags : flags = GN_ANY_BASE ∨ flags = GN_GT_0 ∧ 0 < n) (hn : (n : Int) ≤ LONG_MAX) :
    getNum fname (decimal n) flags name = .ok n := by
  have hbase : gnBase flags = 10 ∨ gnBase flags = 0 := by
    rcases hflags with rfl | ⟨rfl, -⟩
    · exact .inr rfl
    · exact .inl rfl
  have hnonneg : flags &&& GN_NONNEG = 0 := by
    rcases hflags with rfl | ⟨rfl, -⟩ <;> rfl
  have hgt : ¬ (flags &&& GN_GT_0 ≠ 0 ∧ (n : Int) ≤ 0) := by
    rcases hflags with rfl | ⟨rfl, hpos⟩
    · simp [GN_ANY_BASE, GN_GT_0]
    · omega
  simp only [getNum, decimal_ne_nil, if_false, strtol_decimal hbase hn, if_neg hgt]
  simp [hnonneg]

theorem getInt_decimal {name : String} {flags n : Nat}
    (hflags : flags = GN_ANY_BASE ∨ flags = GN_GT_0 ∧ 0 < n) (hn : (n : Int) ≤ INT_MAX) :
    getInt (decimal n) flags name = .ok n := by
  have hlong : (n : Int) ≤ LONG_MAX := by unfold INT_MAX at hn; unfold LONG_MAX; omega
  have hin : ¬ ((n : Int) > INT_MAX ∨ (n : Int) < INT_MIN) := by unfold INT_MIN; omega
  simp only [getInt, getNum_decimal hflags hlong, if_neg hin]

theorem getInt_decimal_large {name : String} {n : Nat} (hlo : INT_MAX < (n : Int))
    (hhi : (n : Int) ≤ LONG_MAX) :
    getInt (decimal n) GN_ANY_BASE name =
      .error ⟨"getInt", "integer out of range", decimal n, name⟩ := by
  have hout : (n : Int) > INT_MAX ∨ (n : Int) < INT_MIN := .inl hlo
  simp only [getInt, getNum_decimal (.inl rfl) hhi, if_pos hout]

end LinuxPractice.Tlpi
