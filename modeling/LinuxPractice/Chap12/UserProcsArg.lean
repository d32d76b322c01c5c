import LinuxPractice.Chap12.UserProcsScan

/-!
# From the argument to the listed processes

The argument of `p_id_cmdn_si.c` goes through `strtol`, the conversion to `uid_t`,
the password database and the comparison with a status file's uid.  `wantedOwner`
is the owner that the argument names; `Misread` are the arguments for which the
conversions select another one.
-/

namespace LinuxPractice.Chap12.UserProcs

open LinuxPractice.CLib LinuxPractice.Tlpi

/-- The value of a decimal numeral: digits, with an optional minus before them. -/
def numeral : Bytes → Option Int
  | [] => none
  | c :: cs =>
    if c = 45 then
      if cs ≠ [] ∧ ∀ d ∈ cs, isdigit d = true then some (-digitsValue 10 cs) else none
    else if ∀ d ∈ c :: cs, isdigit d = true then some (digitsValue 10 (c :: cs))
    else none

/-- The owner that an argument stands for: a uid by its numeral, or else a user by
    the login name. -/
def wantedOwner (getpwnam : Bytes → Option UInt32) (arg : Bytes) : Option Nat :=
  if arg = [] then none
  else
    match numeral arg with
    | some n => if 0 ≤ n ∧ n ≤ 2 ^ 32 - 2 then some n.toNat else none
    | none => (getpwnam arg).map UInt32.toNat

/-- `strtol` takes the whole argument, what it returns is modulo `2 ^ 32` a uid that
    status files can show, and the argument is a numeral outside the range of uids,
    or no numeral and not that user's login name either. -/
def Misread (getpwnam : Bytes → Option UInt32) (arg : Bytes) : Prop :=
  arg ≠ [] ∧ (strtol 10 arg).rest = [] ∧ (strtol 10 arg).value % 2 ^ 32 ≤ INT_MAX ∧
    match numeral arg with
    | some n => n < 0 ∨ 2 ^ 32 ≤ n
    | none => (getpwnam arg).map UInt32.toNat ≠ some ((strtol 10 arg).value % 2 ^ 32).toNat

/-! ### The conversions -/

theorem strtol_numeral {arg : Bytes} {n : Int} (h : numeral arg = some n) :
    strtol 10 arg = saturate n [] := by
  cases arg with
  | nil => cases h
  | cons c cs =>
    simp only [numeral] at h
    split at h
    · rename_i hc
      subst hc
      split at h
      · rename_i hdigits
        rw [← Option.some.inj h]
        exact strtol_neg_digits hdigits.1 hdigits.2
      · cases h
    · split at h
      · rename_i hdigits
        rw [← Option.some.inj h]
        exact strtol_digits (by simp) hdigits (.inl rfl)
      · cases h

theorem toNat_uidOfLong (v : Int) : ((uidOfLong v).toNat : Int) = v % 2 ^ 32 := by
  have hlo : 0 ≤ v % 2 ^ 32 := Int.emod_nonneg v (by decide)
  have hhi : v % 2 ^ 32 < 2 ^ 32 := Int.emod_lt_of_pos v (by decide)
  have hlt : (v % 2 ^ 32).toNat < 2 ^ 32 := by omega
  rw [uidOfLong, UInt32.toNat_ofNat_of_lt' hlt]
  omega

variable (getpwnam : Bytes → Option UInt32) (arg : Bytes)

/-- The searched uid is the wanted one or one that no status file shows, unless the
    argument is misread. -/
theorem userIdFromName_iff :
    (((userIdFromName getpwnam arg).toNat : Int) ≤ INT_MAX →
        wantedOwner getpwnam arg = some (userIdFromName getpwnam arg).toNat) ↔
      ¬ Misread getpwnam arg := by
  have herror : ¬ ((uidError.toNat : Int) ≤ INT_MAX) := by decide
  by_cases hempty : arg = []
  · simp [userIdFromName, Misread, hempty, herror]
  by_cases hrest : (strtol 10 arg).rest = []
  · have huid : userIdFromName getpwnam arg = uidOfLong (strtol 10 arg).value := by
      simp [userIdFromName, hempty, hrest]
    have hnat := toNat_uidOfLong (strtol 10 arg).value
    have hnat' : (uidOfLong (strtol 10 arg).value).toNat =
        ((strtol 10 arg).value % 2 ^ 32).toNat := by omega
    rw [huid, hnat]
    cases hnum : numeral arg with
    | none =>
      simp only [wantedOwner, Misread, if_neg hempty, hnum, hrest, hnat']
      tauto
    | some n =>
      by_cases hout : n < 0 ∨ 2 ^ 32 ≤ n
      · have hnot : ¬ (0 ≤ n ∧ n ≤ 2 ^ 32 - 2) := by omega
        simp only [wantedOwner, Misread, if_neg hempty, hnum, if_neg hnot, hrest, hout]
        simp [hempty]
      · -- a uid, or the `-1` that no file shows
        have hvalue : (strtol 10 arg).value = n := by
          rw [strtol_numeral hnum, saturate_of_mem (by unfold LONG_MIN; omega)
            (by unfold LONG_MAX; omega)]
        have hmod : n % 2 ^ 32 = n := Int.emod_eq_of_lt (by omega) (by omega)
        rw [hvalue, hmod] at hnat'
        have hread : ¬ Misread getpwnam arg := by
          rintro ⟨-, -, -, h⟩
          simp only [hnum] at h
          exact hout h
        simp only [hread, not_false_eq_true, iff_true, hvalue, hmod]
        intro hle
        have hin : 0 ≤ n ∧ n ≤ 2 ^ 32 - 2 := by
          unfold INT_MAX at hle
          omega
        simp only [wantedOwner, if_neg hempty, hnum, if_pos hin, hnat']
  · -- the argument is no numeral, and its login name decides
    have hnum : numeral arg = none := by
      cases hnum : numeral arg with
      | none => rfl
      | some n =>
        rw [strtol_numeral hnum, rest_saturate] at hrest
        exact absurd rfl hrest
    have hread : ¬ Misread getpwnam arg := fun h => hrest h.2.1
    simp only [hread, not_false_eq_true, iff_true]
    cases hpw : getpwnam arg with
    | none => simp [userIdFromName, hempty, hrest, hpw, herror]
    | some pw_uid => simp [userIdFromName, wantedOwner, hempty, hrest, hpw, hnum]

/-! ### The listed processes -/

/-- Whatever processes there are, every record that the program prints for this
    argument belongs to the wanted owner; without one it prints no record. -/
def ListsOnlyWanted (prog : Bytes) (getpwnam : Bytes → Option UInt32) (arg : Bytes) : Prop :=
  ∀ (entries : List ProcEntry) (i : Nat) (out : List Out) (pid : Int) (name : Bytes),
    (main (procEnv prog arg getpwnam entries)).outs[i]? = some out → .record pid name ∈ out →
    ∃ e t fgetsErr, entries[i]? = some e ∧ e.fopen = .ok (t, fgetsErr) ∧
      wantedOwner getpwnam arg = some t.ruid

theorem record_mem_entryOut {uid : UInt32} {e : ProcEntry} {pid : Int} {name : Bytes}
    (h : .record pid name ∈ entryOut uid e) :
    ∃ t fgetsErr, e.fopen = .ok (t, fgetsErr) ∧ uid.toNat = t.ruid ∧ (t.ruid : Int) ≤ INT_MAX := by
  unfold entryOut at h
  split at h
  · cases h
  · split at h
    · simp at h
    · split at h
      · simp at h
      · rename_i t fgetsErr hopen
        rcases (record_mem_statusOut _ _).mp h with ⟨-, -, hle, huid, -, -⟩
        exact ⟨t, fgetsErr, hopen, huid, hle⟩
    · cases h

/-- A process that the program lists when it searches for `uid`. -/
theorem exists_listed {prog : Bytes} (harg : arg ≠ bytes "--help")
    (hle : ((userIdFromName getpwnam arg).toNat : Int) ≤ INT_MAX) :
    ∃ t out, t.ruid = (userIdFromName getpwnam arg).toNat ∧
      (main (procEnv prog arg getpwnam [entryOf t])).outs[0]? = some out ∧
      ∃ pid name, .record pid name ∈ out := by
  have hruid : (userIdFromName getpwnam arg).toNat ≤ 2 ^ 32 - 2 := by
    unfold INT_MAX at hle
    omega
  let t := shortStatus (bytes "a") (userIdFromName getpwnam arg).toNat (by decide) (by decide) hruid
  have hname : nameEffect t.name = .harmless :=
    show nameEffect (bytes "a") = .harmless by decide
  have hbenign : Benign (entryOf t) := by
    refine .inr (.inr ⟨show (bytes "7").length ≤ 86 by decide, ?_⟩)
    rintro t' fgetsErr - heq
    obtain ⟨rfl, rfl⟩ : t = t' ∧ none = fgetsErr := by simpa [entryOf] using heq
    exact ⟨fun _ h => NameEffect.noConfusion (hname.symm.trans h), fun _ _ => hle⟩
  refine ⟨t, entryOut (userIdFromName getpwnam arg) (entryOf t), rfl, ?_, t.pid,
    decimal t.ruid, ?_⟩
  · have hscan := scan_entries_of_benign (userIdFromName getpwnam arg)
      (List.forall_mem_singleton.mpr hbenign)
    rw [main_procEnv harg, hscan]
    rfl
  · have hout : entryOut (userIdFromName getpwnam arg) (entryOf t) =
        statusOut t (userIdFromName getpwnam arg) 3 := rfl
    rw [hout, record_mem_statusOut]
    exact ⟨le_rfl, hname, hle, rfl, rfl, rfl⟩

/-- For every argument and every password database, only processes of the wanted
    owner are listed exactly if the argument is not misread. -/
theorem main_lists_wanted_iff (prog : Bytes) :
    ListsOnlyWanted prog getpwnam arg ↔ ¬ Misread getpwnam arg := by
  by_cases harg : arg = bytes "--help"
  · -- the program prints its usage instead
    subst harg
    have hrest : (strtol 10 (bytes "--help")).rest ≠ [] := by decide
    have hread : ¬ Misread getpwnam (bytes "--help") := fun h => hrest h.2.1
    simp only [hread, not_false_eq_true, iff_true]
    intro entries i out pid name hout
    simp [main, procEnv] at hout
  rw [← userIdFromName_iff]
  constructor
  · intro hlists hle
    rcases exists_listed getpwnam arg harg hle with ⟨t, out, hruid, hout, pid, name, hmem⟩
    rcases hlists [entryOf t] 0 out pid name hout hmem with ⟨e, t', fgetsErr, he, hopen, hwanted⟩
    obtain rfl : entryOf t = e := by simpa using he
    obtain ⟨rfl, -⟩ : t = t' ∧ none = fgetsErr := by simpa [entryOf] using hopen
    rw [hwanted, hruid]
  · intro hwanted entries i out pid name hout hmem
    have hscan : (scan (userIdFromName getpwnam arg)
        (entries.map ProcEntry.entry)).1[i]? = some out := by
      rw [main_procEnv harg] at hout
      split at hout <;> rename_i hscan <;> rw [hscan] <;> exact hout
    rcases visit_of_scan_getElem _ hscan with ⟨e', he', rfl⟩
    rw [List.getElem?_map] at he'
    rcases Option.map_eq_some_iff.mp he' with ⟨e, he, rfl⟩
    rw [(visit_entry _ e).1] at hmem
    rcases record_mem_entryOut hmem with ⟨t, fgetsErr, hopen, huid, hle⟩
    refine ⟨e, t, fgetsErr, he, hopen, ?_⟩
    rw [← huid]
    exact hwanted (by rw [huid]; exact hle)

/-- The argument `4294967296` lists the processes of root. -/
theorem main_lists_wanted_overflow :
    ¬ ListsOnlyWanted (bytes "p") (fun _ => none) (bytes "4294967296") := by
  intro hlists
  obtain ⟨e, t, fgetsErr, -, -, hwanted⟩ :=
    hlists [entryOf (shortStatus (bytes "init") 0 (by decide) (by decide) (by decide))] 0
      [.record 7 (bytes "0")] 7 (bytes "0") (by decide +kernel) (by simp)
  have hnone : wantedOwner (fun _ => none) (bytes "4294967296") = none := by decide +kernel
  rw [hnone] at hwanted
  cases hwanted

end LinuxPractice.Chap12.UserProcs
