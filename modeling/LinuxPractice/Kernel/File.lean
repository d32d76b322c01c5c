import Mathlib.Data.List.Basic
import Mathlib.Data.List.GetD
import Mathlib.Tactic.Common

/-!
# Contents and offsets of files

A regular file is the list of its bytes, over any type of bytes, and an open file
has an offset.  `writeAt` is the effect of `write` at an offset: it overwrites what
is there, extends the file, and fills a gap between end and offset with default
bytes.
-/

namespace LinuxPractice.Kernel

inductive Whence where
  | SEEK_SET
  | SEEK_CUR
  | SEEK_END
deriving DecidableEq

/-- The offset that `lseek` sets, for a file of length `size` and the offset `cur`;
    `none` is the failure for a negative one. -/
def lseek (size cur : Nat) (offset : Int) (whence : Whence) : Option Nat :=
  let base : Int := match whence with
    | .SEEK_SET => 0
    | .SEEK_CUR => cur
    | .SEEK_END => size
  if base + offset < 0 then none else some (base + offset).toNat

theorem lseek_cur (size cur n : Nat) : lseek size cur n .SEEK_CUR = some (cur + n) := by
  have hnonneg : ¬ (cur : Int) + n < 0 := by omega
  have hsum : ((cur : Int) + n).toNat = cur + n := by omega
  simp only [lseek, if_neg hnonneg, hsum]

variable {α : Type} [Inhabited α]

def writeAt (file : List α) (off : Nat) (data : List α) : List α :=
  if data = [] then file
  else
    file.take off ++ List.replicate (off - file.length) default ++ data ++
      file.drop (off + data.length)

/-- The number of bytes of the file that a write overwrites. -/
def overwritten (file : List α) (off : Nat) (data : List α) : Nat :=
  min data.length (file.length - off)

variable {file data : List α} {off : Nat}

theorem writeAt_eq (h : off ≤ file.length) (data : List α) :
    writeAt file off data = file.take off ++ data ++ file.drop (off + data.length) := by
  unfold writeAt
  split
  · rename_i hnil
    simp [hnil]
  · have hgap : off - file.length = 0 := by omega
    simp [hgap]

theorem writeAt_length (file data : List α) : writeAt file file.length data = file ++ data := by
  rw [writeAt_eq (Nat.le_refl _), List.take_length, List.drop_eq_nil_of_le (by omega),
    List.append_nil]

/-- A write makes a file as long as the end of what it writes. -/
theorem length_writeAt (hdata : data ≠ []) :
    (writeAt file off data).length = max file.length (off + data.length) := by
  have hpos := List.length_pos_iff.mpr hdata
  rw [writeAt, if_neg hdata]
  simp only [List.length_append, List.length_take, List.length_replicate, List.length_drop]
  omega

theorem getD_pad (file : List α) {off p : Nat} (h : p < off) :
    (file.take off ++ List.replicate (off - file.length) default).getD p default =
      file.getD p default := by
  by_cases hp : p < file.length
  · rw [List.getD_append _ _ _ _ (by rw [List.length_take]; omega), List.getD_eq_getElem?_getD,
      List.getElem?_take_of_lt h, ← List.getD_eq_getElem?_getD]
  · have hend : file.getD p default = default := List.getD_eq_default _ _ (by omega)
    rw [hend, List.getD_append_right _ _ _ _ (by rw [List.length_take]; omega),
      List.getD_eq_getElem?_getD, List.getElem?_replicate]
    split
    · rfl
    · rfl

/-- A byte behind a write: one that was written, or the old one, where bytes behind the end
    count as the default. -/
theorem getD_writeAt (file data : List α) (off p : Nat) :
    (writeAt file off data).getD p default =
      if off ≤ p ∧ p < off + data.length then data.getD (p - off) default
      else file.getD p default := by
  by_cases hdata : data = []
  · subst hdata
    rw [if_neg (by rw [List.length_nil]; omega), writeAt, if_pos rfl]
  · have hpad : (file.take off ++ List.replicate (off - file.length) default).length = off := by
      rw [List.length_append, List.length_take, List.length_replicate]
      omega
    rw [writeAt, if_neg hdata, List.append_assoc]
    by_cases hlt : p < off
    · rw [List.getD_append _ _ _ _ (by rw [hpad]; exact hlt), getD_pad file hlt,
        if_neg (by omega)]
    · rw [List.getD_append_right _ _ _ _ (by rw [hpad]; omega), hpad]
      by_cases hin : p < off + data.length
      · rw [List.getD_append _ _ _ _ (by omega), if_pos ⟨Nat.not_lt.mp hlt, hin⟩]
      · rw [List.getD_append_right _ _ _ _ (by omega), if_neg (by omega),
          List.getD_eq_getElem?_getD, List.getElem?_drop, List.getD_eq_getElem?_getD]
        congr 2
        omega

theorem take_writeAt_add (h : off ≤ file.length) (data : List α) :
    (writeAt file off data).take (off + data.length) = file.take off ++ data := by
  have hlen : (file.take off ++ data).length = off + data.length := by
    simp
    omega
  rw [writeAt_eq h, ← hlen, List.take_left]

theorem drop_writeAt_add (h : off ≤ file.length) (data : List α) (n : Nat) :
    (writeAt file off data).drop (off + data.length + n) = file.drop (off + data.length + n) := by
  have hlen : (file.take off ++ data).length = off + data.length := by
    simp
    omega
  rw [writeAt_eq h, ← hlen, ← List.drop_drop, List.drop_left, hlen, List.drop_drop]

theorem add_length_le_writeAt (h : off ≤ file.length) (data : List α) :
    off + data.length ≤ (writeAt file off data).length := by
  rw [writeAt_eq h]
  simp
  omega

theorem length_le_writeAt (h : off ≤ file.length) (data : List α) :
    file.length ≤ (writeAt file off data).length := by
  rw [writeAt_eq h]
  simp
  omega

/-- Length and overwritten bytes together grow by the length of what is written. -/
theorem length_writeAt_add (h : off ≤ file.length) (data : List α) :
    (writeAt file off data).length + overwritten file off data = file.length + data.length := by
  rw [writeAt_eq h, overwritten]
  simp
  omega

end LinuxPractice.Kernel
