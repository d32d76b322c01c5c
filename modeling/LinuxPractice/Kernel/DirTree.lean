import LinuxPractice.CLib.Pathname
import Mathlib.Logic.Function.Basic

/-!
# Trees of directories

A directory is the root of a tree, with a pathname of its own, or has a name in a parent.
The pathname of a directory follows from this: a rename changes one entry, and the
pathnames of all directories beneath it.
-/

namespace LinuxPractice.Kernel

open LinuxPractice.CLib

variable {ι : Type}

inductive Dir (ι : Type) where
  | root (path : Bytes)
  | child (parent : ι) (name : Bytes)

inductive PathOf (node : ι → Option (Dir ι)) : ι → Bytes → Prop
  | root {w : ι} {path : Bytes} : node w = some (.root path) → PathOf node w path
  | child {w parent : ι} {name path : Bytes} : node w = some (.child parent name) →
      PathOf node parent path → PathOf node w (subpath path name)

/-- The second directory is the first one or lies in it. -/
inductive Under (node : ι → Option (Dir ι)) (v : ι) : ι → Prop
  | refl : Under node v v
  | child {w parent : ι} {name : Bytes} : node w = some (.child parent name) →
      Under node v parent → Under node v w

/-- Every directory hangs on a root; the names in one parent are different, and no root lies
    in another tree. -/
structure DirTree (ι : Type) where
  node : ι → Option (Dir ι)
  path : ∀ w, node w ≠ none → ∃ path, PathOf node w path
  name : ∀ w parent name, node w = some (.child parent name) → slash ∉ name
  sibling : ∀ w v parent name, node w = some (.child parent name) →
    node v = some (.child parent name) → w = v
  root : ∀ w v path path', node w = some (.root path) → node v = some (.root path') →
    Beneath path' path → w = v

section Node

variable {node node' : ι → Option (Dir ι)} {v w x : ι} {path path' : Bytes}

theorem PathOf.ne_none (h : PathOf node w path) : node w ≠ none := by
  cases h with
  | root hnode =>
    rw [hnode]
    exact Option.some_ne_none _
  | child hnode _ =>
    rw [hnode]
    exact Option.some_ne_none _

theorem PathOf.inv (h : PathOf node w path) :
    node w = some (.root path) ∨ ∃ parent name above, node w = some (.child parent name) ∧
      PathOf node parent above ∧ path = subpath above name := by
  cases h with
  | root hnode => exact .inl hnode
  | child hnode hparent => exact .inr ⟨_, _, _, hnode, hparent, rfl⟩

theorem PathOf.unique (h : PathOf node w path) (h' : PathOf node w path') : path = path' := by
  induction h generalizing path' with
  | root hnode =>
    cases h' with
    | root hnode' =>
      rw [hnode] at hnode'
      cases hnode'
      rfl
    | child hnode' _ =>
      rw [hnode] at hnode'
      cases hnode'
  | child hnode _ ih =>
    cases h' with
    | root hnode' =>
      rw [hnode] at hnode'
      cases hnode'
    | child hnode' hparent' =>
      rw [hnode] at hnode'
      cases hnode'
      rw [ih hparent']

/-- Every directory lies beneath a root. -/
theorem PathOf.exists_root (h : PathOf node w path) :
    ∃ r top, node r = some (.root top) ∧ Beneath top path := by
  induction h with
  | root hnode => exact ⟨_, _, hnode, .refl _⟩
  | child _ _ ih =>
    obtain ⟨r, top, hr, hbeneath⟩ := ih
    exact ⟨r, top, hr, hbeneath.trans (beneath_subpath _ _)⟩

theorem Under.beneath (h : Under node v w) (hv : PathOf node v path) (hw : PathOf node w path') :
    Beneath path path' := by
  induction h generalizing path' with
  | refl =>
    rw [hv.unique hw]
    exact .refl _
  | child hnode _ ih =>
    cases hw with
    | root hnode' =>
      rw [hnode] at hnode'
      cases hnode'
    | child hnode' hparent =>
      rw [hnode] at hnode'
      cases hnode'
      exact (ih hparent).trans (beneath_subpath _ _)

theorem Under.eq_of_length_le (h : Under node v w) (hv : PathOf node v path)
    (hw : PathOf node w path') (hle : path'.length ≤ path.length) : v = w := by
  cases h with
  | refl => rfl
  | child hnode hunder =>
    cases hw with
    | root hnode' =>
      rw [hnode] at hnode'
      cases hnode'
    | child hnode' hparent =>
      rw [hnode] at hnode'
      cases hnode'
      have hlen := (hunder.beneath hv hparent).length_le
      rw [length_subpath] at hle
      omega

/-- The pathnames of the directories that a change does not touch. -/
theorem PathOf.of_not_under (hsame : ∀ x, ¬ Under node w x → node' x = node x)
    (h : PathOf node x path) (hx : ¬ Under node w x) : PathOf node' x path := by
  induction h with
  | root hnode => exact .root (by rw [hsame _ hx, hnode])
  | child hnode _ ih =>
    have hparent : ¬ Under node w _ := fun hunder => hx (.child hnode hunder)
    exact .child (by rw [hsame _ hx, hnode]) (ih hparent)

/-- The pathnames in a directory that is moved as a whole. -/
theorem PathOf.of_under {top top' : Bytes} (hsame : ∀ x, x ≠ w → node' x = node x)
    (htop : PathOf node w top) (htop' : PathOf node' w top') (hunder : Under node w x)
    (h : PathOf node x path) : PathOf node' x (top' ++ path.drop top.length) := by
  induction hunder generalizing path with
  | refl =>
    rw [h.unique htop, List.drop_length, List.append_nil]
    exact htop'
  | @child x parent name hnode hunder ih =>
    by_cases hxw : x = w
    · subst hxw
      rw [h.unique htop, List.drop_length, List.append_nil]
      exact htop'
    · cases h with
      | root hnode' =>
        rw [hnode] at hnode'
        cases hnode'
      | @child _ _ _ path hnode' hparent =>
        rw [hnode] at hnode'
        cases hnode'
        have hlen := (hunder.beneath htop hparent).length_le
        have hpath : top' ++ (subpath path name).drop top.length =
            subpath (top' ++ path.drop top.length) name := by
          rw [subpath, subpath, List.drop_append_of_le_length hlen, List.append_assoc]
        rw [hpath]
        exact .child (by rw [hsame _ hxw, hnode]) (ih hparent)

end Node

/-! ### Pathnames and directories -/

namespace DirTree

variable {t t' : DirTree ι} {v w x : ι} {path path' : Bytes}

/-- No directory in a tree has the pathname of a root, or of what lies above it. -/
theorem not_beneath_root {parent : ι} {name top : Bytes}
    (hw : t.node w = some (.root top)) (hv : t.node v = some (.child parent name))
    (hpath : PathOf t.node v path) : ¬ Beneath path top := by
  intro hbeneath
  cases hpath with
  | root hnode =>
    rw [hv] at hnode
    cases hnode
  | child hnode hparent =>
    obtain ⟨r, top', hr, habove⟩ := hparent.exists_root
    have hroot := t.root w r top top' hw hr ((habove.trans (beneath_subpath _ _)).trans hbeneath)
    subst hroot
    rw [hw] at hr
    cases hr
    have hlen := habove.length_le
    have hlen' := hbeneath.length_le
    rw [length_subpath] at hlen'
    omega

/-- What lies beneath a directory by its pathname lies in the directory. -/
theorem under_of_beneath (hv : PathOf t.node v path) (hw : PathOf t.node w path')
    (h : Beneath path path') : Under t.node v w := by
  induction hw generalizing v path with
  | root hnode =>
    cases hv with
    | root hnode' =>
      rw [t.root _ _ _ _ hnode hnode' h]
      exact .refl
    | child hnode' hparent => exact absurd h (not_beneath_root hnode hnode' (.child hnode' hparent))
  | @child w parent name path' hnode hparent ih =>
    rcases (beneath_subpath_iff (t.name _ _ _ hnode)).mp h with rfl | h
    · rcases hv.inv with hnode' | ⟨parent', name', above, hnode', hparent', heq⟩
      · exact absurd (Beneath.refl _) (not_beneath_root hnode' hnode (.child hnode hparent))
      · -- the parents have one pathname, and the directories one name in it
        obtain ⟨rfl, rfl⟩ := subpath_inj (t.name _ _ _ hnode) (t.name _ _ _ hnode') heq
        have hsame := (ih hparent' (.refl _)).eq_of_length_le hparent' hparent (Nat.le_refl _)
        subst hsame
        rw [t.sibling _ _ _ _ hnode hnode']
        exact .refl
    · exact .child hnode (ih hv h)

theorem beneath_iff_under (hv : PathOf t.node v path) (hw : PathOf t.node w path') :
    Beneath path path' ↔ Under t.node v w :=
  ⟨under_of_beneath hv hw, fun h => h.beneath hv hw⟩

theorem pathOf_inj (hv : PathOf t.node v path) (hw : PathOf t.node w path) : v = w :=
  (under_of_beneath hv hw (.refl path)).eq_of_length_le hv hw (Nat.le_refl _)

/-! ### Removal -/

open Classical in
/-- The tree without a directory and all that lies in it. -/
noncomputable def prune (t : DirTree ι) (w : ι) : DirTree ι where
  node := fun x => if Under t.node w x then none else t.node x
  path := by
    intro x hx
    have hunder : ¬ Under t.node w x := fun hunder => hx (if_pos hunder)
    rw [if_neg hunder] at hx
    obtain ⟨path, hpath⟩ := t.path x hx
    exact ⟨path, hpath.of_not_under (fun y hy => if_neg hy) hunder⟩
  name := by
    intro x parent name hx
    split at hx
    · cases hx
    · exact t.name x parent name hx
  sibling := by
    intro x y parent name hx hy
    split at hx
    · cases hx
    · split at hy
      · cases hy
      · exact t.sibling x y parent name hx hy
  root := by
    intro x y path path' hx hy
    split at hx
    · cases hx
    · split at hy
      · cases hy
      · exact t.root x y path path' hx hy

theorem prune_of_under (h : Under t.node w x) : (t.prune w).node x = none := if_pos h

theorem prune_of_not_under (h : ¬ Under t.node w x) : (t.prune w).node x = t.node x := if_neg h

theorem pathOf_prune (hw : PathOf t.node w path) :
    PathOf (t.prune w).node x path' ↔ PathOf t.node x path' ∧ ¬ Beneath path path' := by
  constructor
  · intro h
    have hunder : ¬ Under t.node w x := fun hunder => h.ne_none (prune_of_under hunder)
    have hsome : t.node x ≠ none := by
      rw [← prune_of_not_under hunder]
      exact h.ne_none
    obtain ⟨path'', hpath⟩ := t.path x hsome
    obtain rfl := (hpath.of_not_under (fun y hy => if_neg hy) hunder).unique h
    exact ⟨hpath, fun hbeneath => hunder (under_of_beneath hw hpath hbeneath)⟩
  · rintro ⟨hpath, hbeneath⟩
    have hunder : ¬ Under t.node w x := fun hunder => hbeneath (hunder.beneath hw hpath)
    exact hpath.of_not_under (fun y hy => if_neg hy) hunder

/-! ### Renames -/

/-- A rename changes the entry of one directory; the pathnames beneath it change with it, and
    all others stay. -/
theorem pathOf_rename {top top' : Bytes} (hsame : ∀ y, y ≠ w → t'.node y = t.node y)
    (hw : PathOf t.node w top) (hw' : PathOf t'.node w top') :
    PathOf t'.node x path' ↔ ∃ path, PathOf t.node x path ∧ path' = rebase top top' path := by
  have hforward : ∀ {path}, PathOf t.node x path → PathOf t'.node x (rebase top top' path) := by
    intro path hx
    by_cases hbeneath : Beneath top path
    · rw [rebase, if_pos (isBeneath_iff.mpr hbeneath)]
      exact PathOf.of_under hsame hw hw' (under_of_beneath hw hx hbeneath) hx
    · rw [rebase, if_neg (fun h => hbeneath (isBeneath_iff.mp h))]
      refine hx.of_not_under (fun y hy => hsame y ?_) fun hunder => hbeneath (hunder.beneath hw hx)
      rintro rfl
      exact hy .refl
  constructor
  · intro hx'
    have hsome : t.node x ≠ none := by
      by_cases hxw : x = w
      · rw [hxw]
        exact hw.ne_none
      · rw [← hsame x hxw]
        exact hx'.ne_none
    obtain ⟨path, hx⟩ := t.path x hsome
    exact ⟨path, hx, hx'.unique (hforward hx)⟩
  · rintro ⟨path, hx, rfl⟩
    exact hforward hx

end DirTree

end LinuxPractice.Kernel
