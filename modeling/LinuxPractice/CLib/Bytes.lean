import Mathlib.Data.List.DropRight
import Mathlib.Data.Nat.Digits.Lemmas
import Mathlib.Tactic.IntervalCases

/-!
# Byte strings

C strings are lists of bytes without their terminating NUL.  This module fixes
the byte type, the C-locale `isspace` class, whitespace stripping and the
decimal numerals that `%d`-style formatting writes.  Nothing here knows about a
particular program.
-/

namespace LinuxPractice.CLib

abbrev Bytes := List UInt8

/-- The bytes of an ASCII string literal. -/
def bytes (s : String) : Bytes := s.toList.map fun c => UInt8.ofNat c.toNat

/-- A property of all bytes of a string is decided along the string. -/
instance (priority := 1100) decidableForallMem (s : Bytes) (P : UInt8 → Prop) [DecidablePred P] :
    Decidable (∀ c ∈ s, P c) := List.decidableBAll P s

/-- `isspace` in the C locale: blank, `\t`, `\n`, `\v`, `\f` and `\r`.  Bytes from
    128 on are negative `char`s; glibc's class table answers 0 for them. -/
def isspace (c : UInt8) : Bool := c == 32 || (decide (9 ≤ c) && decide (c ≤ 13))

/-! ### Stripping -/

def strip (s : Bytes) : Bytes := (s.dropWhile isspace).rdropWhile isspace

/-- Every byte is whitespace (the empty string included). -/
def Blank (s : Bytes) : Prop := ∀ c ∈ s, isspace c = true

instance (s : Bytes) : Decidable (Blank s) := List.decidableBAll _ s

theorem strip_of_blank {s : Bytes} (h : Blank s) : strip s = [] := by
  have hdrop : s.dropWhile isspace = [] := List.dropWhile_eq_nil_iff.mpr h
  simp [strip, hdrop]

theorem length_strip_le (s : Bytes) : (strip s).length ≤ s.length :=
  (List.rdropWhile_prefix isspace _).length_le.trans (List.dropWhile_suffix isspace).length_le

theorem dropWhile_append_of_blank {lead : Bytes} (h : Blank lead) (s : Bytes) :
    (lead ++ s).dropWhile isspace = s.dropWhile isspace := by
  have hdrop : lead.dropWhile isspace = [] := List.dropWhile_eq_nil_iff.mpr h
  rw [List.dropWhile_append, hdrop]
  rfl

theorem rdropWhile_append_of_blank {trail : Bytes} (h : Blank trail) (s : Bytes) :
    (s ++ trail).rdropWhile isspace = s.rdropWhile isspace := by
  unfold List.rdropWhile
  rw [List.reverse_append, dropWhile_append_of_blank]
  intro c hc
  exact h c (by simpa using hc)

/-- Surrounding whitespace around a core whose ends are not whitespace is
    exactly what `strip` removes. -/
theorem strip_append_append {lead core trail : Bytes} (hlead : Blank lead)
    (htrail : Blank trail) (hhead : ∀ c ∈ core.head?, isspace c = false)
    (hlast : ∀ c ∈ core.getLast?, isspace c = false) :
    strip (lead ++ core ++ trail) = core := by
  cases core with
  | nil =>
    apply strip_of_blank
    intro c hc
    simp only [List.append_nil, List.mem_append] at hc
    exact hc.elim (hlead c) (htrail c)
  | cons c cs =>
    have hc : isspace c = false := hhead c (by simp)
    have hself : (c :: cs).rdropWhile isspace = c :: cs := by
      rw [List.rdropWhile_eq_self_iff]
      intro hne
      have := hlast _ (List.getLast_mem_getLast? hne)
      simp [this]
    unfold strip
    rw [List.append_assoc, dropWhile_append_of_blank hlead, List.cons_append,
      List.dropWhile_cons_of_neg (by simp [hc]), ← List.cons_append,
      rdropWhile_append_of_blank htrail, hself]

/-- A string that is not blank splits into leading whitespace, its stripped
    core and trailing whitespace; the core's ends are not whitespace. -/
theorem exists_strip_append {s : Bytes} (h : ¬ Blank s) :
    ∃ lead trail, s = lead ++ strip s ++ trail ∧ Blank lead ∧ Blank trail ∧
      (∃ c ∈ (strip s).head?, isspace c = false) ∧
      (∃ c ∈ (strip s).getLast?, isspace c = false) := by
  have hdrop : s.dropWhile isspace ≠ [] := by
    intro hnil
    exact h (List.dropWhile_eq_nil_iff.mp hnil)
  have hhead : isspace ((s.dropWhile isspace).head hdrop) = false :=
    List.head_dropWhile_not isspace hdrop
  have hstrip : strip s ≠ [] := by
    intro hnil
    have hall := List.rdropWhile_eq_nil_iff.mp hnil
    have := hall _ (List.head_mem hdrop)
    simp [hhead] at this
  have hsplit : s.dropWhile isspace = strip s ++ (s.dropWhile isspace).rtakeWhile isspace :=
    List.rdropWhile_append_rtakeWhile.symm
  refine ⟨s.takeWhile isspace, (s.dropWhile isspace).rtakeWhile isspace, ?_, ?_, ?_, ?_, ?_⟩
  · rw [List.append_assoc, ← hsplit, List.takeWhile_append_dropWhile]
  · exact fun c hc => List.mem_takeWhile_imp hc
  · exact fun c hc => List.mem_rtakeWhile_imp hc
  · refine ⟨(strip s).head hstrip, List.head_mem_head? hstrip, ?_⟩
    have heq : (strip s).head hstrip = (s.dropWhile isspace).head hdrop := by
      conv_rhs => rw! [hsplit]
      rw [List.head_append_of_ne_nil]
    rw [heq, hhead]
  · refine ⟨(strip s).getLast hstrip, List.getLast_mem_getLast? hstrip, ?_⟩
    have := List.rdropWhile_last_not isspace _ hstrip
    exact Bool.eq_false_iff.mpr this

theorem mem_strip {s : Bytes} {c : UInt8} (h : c ∈ s) (hc : isspace c = false) : c ∈ strip s := by
  have hspace : ∀ t : Bytes, Blank t → c ∉ t := by
    intro t ht hmem
    rw [ht c hmem] at hc
    cases hc
  have hblank : ¬ Blank s := fun hs => hspace s hs h
  rcases exists_strip_append hblank with ⟨lead, trail, happ, hlead, htrail, -, -⟩
  rw [happ] at h
  simpa [hspace lead hlead, hspace trail htrail] using h

theorem mem_of_mem_strip {s : Bytes} {c : UInt8} (h : c ∈ strip s) : c ∈ s :=
  (List.dropWhile_suffix isspace).subset ((List.rdropWhile_prefix isspace _).subset h)

theorem strip_surround {lead trail : Bytes} (hlead : Blank lead) (htrail : Blank trail)
    (s : Bytes) : strip (lead ++ s ++ trail) = strip s := by
  by_cases hs : Blank s
  · rw [strip_of_blank hs]
    apply strip_of_blank
    intro c hc
    simp only [List.mem_append] at hc
    rcases hc with (h | h) | h
    · exact hlead c h
    · exact hs c h
    · exact htrail c h
  · obtain ⟨lead', trail', happ, hlead', htrail', ⟨c, hc, hcs⟩, ⟨d, hd, hds⟩⟩ :=
      exists_strip_append hs
    have hout : lead ++ s ++ trail = (lead ++ lead') ++ strip s ++ (trail' ++ trail) := by
      conv_lhs => rw [happ]
      simp only [List.append_assoc]
    rw [hout]
    apply strip_append_append
    · exact List.forall_mem_append.mpr ⟨hlead, hlead'⟩
    · exact List.forall_mem_append.mpr ⟨htrail', htrail⟩
    · intro b hb
      rw [Option.mem_unique hb hc, hcs]
    · intro b hb
      rw [Option.mem_unique hb hd, hds]

/-! ### Decimal numerals -/

/-- The decimal numeral of `n` without leading zeros. -/
def decimal (n : Nat) : Bytes :=
  if n = 0 then [48] else (Nat.digits 10 n).reverse.map fun d => UInt8.ofNat (48 + d)

def isdigit (c : UInt8) : Bool := decide (48 ≤ c) && decide (c ≤ 57)

theorem isdigit_ofNat {d : Nat} (h : d < 10) : isdigit (UInt8.ofNat (48 + d)) = true := by
  interval_cases d <;> decide

theorem isdigit_of_mem_decimal {n : Nat} {c : UInt8} (h : c ∈ decimal n) :
    isdigit c = true := by
  unfold decimal at h
  split at h
  · rw [List.mem_singleton] at h
    subst h
    decide
  · obtain ⟨d, hd, rfl⟩ := List.mem_map.mp h
    have hlt : d < 10 := Nat.digits_lt_base (by omega) (List.mem_reverse.mp hd)
    exact isdigit_ofNat hlt

theorem decimal_ne_nil (n : Nat) : decimal n ≠ [] := by
  unfold decimal
  split
  · simp
  · rename_i hn
    simpa using Nat.digits_ne_nil_iff_ne_zero.mpr hn

theorem length_decimal_le {n k : Nat} (hk : 0 < k) (h : n < 10 ^ k) :
    (decimal n).length ≤ k := by
  unfold decimal
  split
  · exact hk
  · simpa using (Nat.digits_length_le_iff (by omega) n).mpr h

theorem isspace_of_isdigit {c : UInt8} (h : isdigit c = true) : isspace c = false := by
  simp only [isdigit, Bool.and_eq_true, decide_eq_true_eq] at h
  obtain ⟨hlo, hhi⟩ := h
  rw [UInt8.le_iff_toNat_le] at hlo hhi
  simp only [isspace, Bool.or_eq_false_iff, beq_eq_false_iff_ne, Bool.and_eq_false_iff,
    decide_eq_false_iff_not]
  constructor
  · rintro rfl
    simp at hlo
  · right
    rw [UInt8.le_iff_toNat_le]
    simp at hlo ⊢
    omega

theorem notMem_decimal {n : Nat} {c : UInt8} (h : isdigit c = false) : c ∉ decimal n := by
  intro hc
  rw [isdigit_of_mem_decimal hc] at h
  cases h

theorem strip_decimal (n : Nat) {lead trail : Bytes} (hlead : Blank lead) (htrail : Blank trail) :
    strip (lead ++ decimal n ++ trail) = decimal n :=
  strip_append_append hlead htrail
    (fun _ hc => isspace_of_isdigit (isdigit_of_mem_decimal (List.mem_of_mem_head? hc)))
    (fun _ hc => isspace_of_isdigit (isdigit_of_mem_decimal (List.mem_of_mem_getLast? hc)))

end LinuxPractice.CLib
