import Mathlib.Data.List.Basic
import Mathlib.Tactic.Common

/-!
# Reading and writing in parts

A call of `read` or `write` transfers as much as the system likes: it may fail, or stop
short of what it was asked for.  How the calls on a descriptor end is a list of answers,
taken one by one; behind its end every call is carried out in full.  Since a number that
no call could answer stands for the nearest one that it could, every list is possible,
and what holds for all lists holds for every behaviour of the system.
-/

namespace LinuxPractice.Kernel

variable {α ε : Type}

/-! ### `read` -/

/-- What is left to read, and the answers of the calls to come. -/
structure Input (α ε : Type) where
  data : List α
  answers : List (Except ε Nat)

namespace Input

/-- `read` of at most `n` bytes: it delivers at least one, except at the end. -/
def read (n : Nat) (s : Input α ε) : Except ε (List α) × Input α ε :=
  match s.answers with
  | [] => (.ok (s.data.take n), ⟨s.data.drop n, []⟩)
  | .error e :: answers => (.error e, ⟨s.data, answers⟩)
  | .ok k :: answers =>
    (.ok (s.data.take (min n (max 1 k))), ⟨s.data.drop (min n (max 1 k)), answers⟩)

/-- No call fails. -/
def Sound (s : Input α ε) : Prop := ∀ answer ∈ s.answers, ∃ k, answer = .ok k

/-- The calls fail in one way only. -/
def FailsBy (P : ε → Prop) (s : Input α ε) : Prop := ∀ e, .error e ∈ s.answers → P e

/-- A bound for the calls of a loop that ends with the data. -/
def size (s : Input α ε) : Nat := s.data.length + s.answers.length

variable {n : Nat} {s s' : Input α ε} {block : List α} {e : ε}

theorem of_read_error (h : s.read n = (.error e, s')) :
    s'.data = s.data ∧ s.answers = .error e :: s'.answers := by
  unfold read at h
  split at h
  · cases h
  · rename_i answers hanswers
    cases h
    exact ⟨rfl, hanswers⟩
  · cases h

/-- What a successful call can do. -/
theorem of_read_ok (h : s.read n = (.ok block, s')) :
    s.data = block ++ s'.data ∧ block.length ≤ n ∧ (block = [] → n = 0 ∨ s.data = []) ∧
      s'.answers = s.answers.tail := by
  unfold read at h
  split at h
  · rename_i hanswers
    cases h
    refine ⟨(List.take_append_drop n s.data).symm, List.length_take_le n _, ?_, ?_⟩
    · exact List.take_eq_nil_iff.mp
    · rw [hanswers]
      rfl
  · cases h
  · rename_i k answers hanswers
    cases h
    refine ⟨(List.take_append_drop _ s.data).symm, ?_, ?_, ?_⟩
    · exact Nat.le_trans (List.length_take_le _ _) (Nat.min_le_left _ _)
    · intro hnil
      rcases List.take_eq_nil_iff.mp hnil with hzero | hend
      · left
        omega
      · exact .inr hend
    · rw [hanswers]
      rfl

theorem size_lt_of_read_error (h : s.read n = (.error e, s')) : s'.size < s.size := by
  obtain ⟨hdata, hanswers⟩ := of_read_error h
  simp [size, hdata, hanswers]

theorem size_lt_of_read_ok (h : s.read n = (.ok block, s')) (hne : block ≠ []) :
    s'.size < s.size := by
  obtain ⟨hdata, -, -, hanswers⟩ := of_read_ok h
  have hpos := List.length_pos_iff.mpr hne
  simp only [size, hdata, hanswers, List.length_append, List.length_tail]
  omega

theorem Sound.of_read_ok (hs : s.Sound) (h : s.read n = (.ok block, s')) : s'.Sound := by
  intro answer hmem
  rw [(Input.of_read_ok h).2.2.2] at hmem
  exact hs answer (List.mem_of_mem_tail hmem)

theorem Sound.read_ne_error (hs : s.Sound) : s.read n ≠ (.error e, s') := by
  intro h
  obtain ⟨k, heq⟩ := hs (.error e) (by simp [(of_read_error h).2])
  cases heq

theorem FailsBy.of_read {P : ε → Prop} (hs : s.FailsBy P) {answer : Except ε (List α)}
    (h : s.read n = (answer, s')) : s'.FailsBy P := by
  intro e hmem
  cases answer with
  | error e' =>
    apply hs e
    rw [(of_read_error h).2]
    exact List.mem_cons_of_mem _ hmem
  | ok block =>
    rw [(of_read_ok h).2.2.2] at hmem
    exact hs e (List.mem_of_mem_tail hmem)

theorem FailsBy.of_read_error {P : ε → Prop} (hs : s.FailsBy P)
    (h : s.read n = (.error e, s')) : P e := by
  apply hs e
  rw [(Input.of_read_error h).2]
  exact List.mem_cons_self

end Input

/-! ### `write` -/

/-- What was written through the descriptor, and the answers of the calls to come. -/
structure Output (α ε : Type) where
  written : List α
  answers : List (Except ε Nat)

namespace Output

def write (block : List α) (s : Output α ε) : Except ε Nat × Output α ε :=
  match s.answers with
  | [] => (.ok block.length, ⟨s.written ++ block, []⟩)
  | .error e :: answers => (.error e, ⟨s.written, answers⟩)
  | .ok k :: answers => (.ok (min k block.length), ⟨s.written ++ block.take k, answers⟩)

/-- Every call writes all that it is given, up to `n` bytes. -/
def Full (n : Nat) (s : Output α ε) : Prop := ∀ answer ∈ s.answers, ∃ k, answer = .ok k ∧ n ≤ k

variable {s s' : Output α ε} {block : List α} {e : ε} {k : Nat}

theorem of_write_error (h : s.write block = (.error e, s')) :
    s'.written = s.written ∧ s.answers = .error e :: s'.answers := by
  unfold write at h
  split at h
  · cases h
  · rename_i answers hanswers
    cases h
    exact ⟨rfl, hanswers⟩
  · cases h

theorem of_write_ok (h : s.write block = (.ok k, s')) :
    s'.written = s.written ++ block.take k ∧ k ≤ block.length ∧
      s'.answers = s.answers.tail := by
  unfold write at h
  split at h
  · rename_i hanswers
    cases h
    exact ⟨by simp, Nat.le_refl _, by simp [hanswers]⟩
  · cases h
  · rename_i k' answers hanswers
    cases h
    refine ⟨?_, Nat.min_le_right _ _, by simp [hanswers]⟩
    rw [List.take_eq_take_min]

theorem Full.of_write {n : Nat} (hs : s.Full n) (hlen : block.length ≤ n) :
    ∃ s', s.write block = (.ok block.length, s') ∧ s'.Full n := by
  cases hanswers : s.answers with
  | nil =>
    refine ⟨⟨s.written ++ block, []⟩, ?_, ?_⟩
    · simp only [write, hanswers]
    · intro answer hmem
      cases hmem
  | cons answer answers =>
    obtain ⟨k, rfl, hk⟩ := hs answer (by simp [hanswers])
    refine ⟨⟨s.written ++ block.take k, answers⟩, ?_, ?_⟩
    · simp only [write, hanswers, Nat.min_eq_right (Nat.le_trans hlen hk)]
    · intro answer hmem
      exact hs answer (by simp [hanswers, hmem])

end Output

end LinuxPractice.Kernel
