import LinuxPractice.CLib.Bytes

/-!
# Pathnames

A pathname lies at or beneath a directory if it is that of the directory, or goes on with a
slash.  A component of a pathname has no slash.
-/

namespace LinuxPractice.CLib

/-- The byte `/`. -/
def slash : UInt8 := 47

/-- `"%s/%s"`. -/
def subpath (dir name : Bytes) : Bytes := dir ++ slash :: name

def Beneath (dir path : Bytes) : Prop := path = dir ∨ ∃ rest, path = subpath dir rest

/-- The comparison `strncmp(dir, path, len) == 0`, with `/` or the end behind `len` bytes. -/
def isBeneath (dir path : Bytes) : Bool :=
  dir.isPrefixOf path &&
    ((path.drop dir.length).head? == some slash || (path.drop dir.length).head? == none)

/-- The pathname behind a rename of `top` to `top'`. -/
def rebase (top top' path : Bytes) : Bytes :=
  if isBeneath top path then top' ++ path.drop top.length else path

variable {dir sub path name : Bytes}

theorem length_subpath : (subpath dir name).length = dir.length + name.length + 1 := by
  simp only [subpath, List.length_append, List.length_cons]
  omega

theorem Beneath.refl (path : Bytes) : Beneath path path := .inl rfl

theorem beneath_subpath (dir name : Bytes) : Beneath dir (subpath dir name) := .inr ⟨name, rfl⟩

theorem Beneath.trans (h : Beneath dir sub) (h' : Beneath sub path) : Beneath dir path := by
  rcases h with rfl | ⟨rest, rfl⟩
  · exact h'
  · rcases h' with rfl | ⟨rest', rfl⟩
    · exact beneath_subpath dir rest
    · refine .inr ⟨subpath rest rest', ?_⟩
      simp only [subpath, List.append_assoc, List.cons_append]

theorem Beneath.length_le (h : Beneath dir path) : dir.length ≤ path.length := by
  rcases h with rfl | ⟨rest, rfl⟩
  · exact Nat.le_refl _
  · rw [length_subpath]
    omega

theorem Beneath.eq_of_length_le (h : Beneath dir path) (hle : path.length ≤ dir.length) :
    path = dir := by
  rcases h with rfl | ⟨rest, rfl⟩
  · rfl
  · rw [length_subpath] at hle
    omega

theorem Beneath.append_drop (h : Beneath dir path) : dir ++ path.drop dir.length = path := by
  rcases h with rfl | ⟨rest, rfl⟩
  · simp
  · simp [subpath]

theorem isBeneath_iff : isBeneath dir path = true ↔ Beneath dir path := by
  constructor
  · intro h
    simp only [isBeneath, Bool.and_eq_true, Bool.or_eq_true, beq_iff_eq,
      List.isPrefixOf_iff_prefix] at h
    obtain ⟨⟨rest, rfl⟩, hrest⟩ := h
    rw [List.drop_left] at hrest
    rcases hrest with hrest | hrest
    · obtain ⟨tail, rfl⟩ := List.head?_eq_some_iff.mp hrest
      exact .inr ⟨tail, rfl⟩
    · rw [List.head?_eq_none_iff.mp hrest, List.append_nil]
      exact .refl dir
  · rintro (rfl | ⟨rest, rfl⟩)
    · simp [isBeneath]
    · simp [isBeneath, subpath]

/-- What lies above a subdirectory lies above its parent. -/
theorem beneath_subpath_iff (hname : slash ∉ name) :
    Beneath sub (subpath dir name) ↔ sub = subpath dir name ∨ Beneath sub dir := by
  constructor
  · rintro (h | ⟨rest, h⟩)
    · exact .inl h.symm
    · right
      obtain ⟨tail, hdir, htail⟩ | ⟨tail, hdir, htail⟩ := List.append_eq_append_iff.mp h
      · cases tail with
        | nil =>
          rw [List.append_nil] at hdir
          exact .inl hdir.symm
        | cons c tail =>
          rw [List.cons_append, List.cons.injEq] at htail
          exact absurd (by rw [htail.2]; simp) hname
      · cases tail with
        | nil =>
          rw [List.append_nil] at hdir
          exact .inl hdir
        | cons c tail =>
          rw [List.cons_append, List.cons.injEq] at htail
          exact .inr ⟨tail, by rw [hdir, ← htail.1, subpath]⟩
  · rintro (rfl | h)
    · exact .refl _
    · exact h.trans (beneath_subpath dir name)

theorem beneath_of_subpath_eq {dir' name' : Bytes} (hname : slash ∉ name)
    (h : subpath dir name = subpath dir' name') : Beneath dir' dir := by
  have hbeneath : Beneath dir' (subpath dir name) := by
    rw [h]
    exact beneath_subpath dir' name'
  rcases (beneath_subpath_iff hname).mp hbeneath with heq | hdir
  · have hlen := congrArg List.length (heq.trans h)
    rw [length_subpath] at hlen
    omega
  · exact hdir

/-- The last component of a pathname is found in one way. -/
theorem subpath_inj {dir' name' : Bytes} (hname : slash ∉ name) (hname' : slash ∉ name')
    (h : subpath dir name = subpath dir' name') : dir = dir' ∧ name = name' := by
  have hdir : dir = dir' := by
    apply (beneath_of_subpath_eq hname h).eq_of_length_le
    exact (beneath_of_subpath_eq hname' h.symm).length_le
  subst hdir
  exact ⟨rfl, (List.cons.inj (List.append_cancel_left h)).2⟩

end LinuxPractice.CLib
