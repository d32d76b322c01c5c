import LinuxPractice.Tlpi.GetNum
import Mathlib.Logic.Function.Basic

/-!
# `seven-one/free_and_sbrk.c`: freeing every step-th block

The program allocates a number of blocks and frees the blocks `min` to `max` in steps
of `step`.  Step and minimum are only checked to be positive, and the loop variable is
an `int`: when the last index plus `step` exceeds `INT_MAX` it wraps to a negative
number, below `max`, and the loop goes on outside the array.  The addresses that
`sbrk` reports are not modelled.
-/

namespace LinuxPractice.Chap7

open LinuxPractice.CLib LinuxPractice.Tlpi

def BLK_PTR_ARR_LEN : Int := 100000

inductive Out where
  /-- Prints `"Initial program break: %10p\n"`. -/
  | initialBreak
  /-- Prints `"Allocating %d*%d bytes\n"`. -/
  | allocating (noOfBlocks blockSize : Int)
  /-- Prints `"program break after call to malloc for block number %d: %10p\n"`. -/
  | blockBreak (i : Nat)
  /-- Prints `"Program break after allocating all the blocks is %10p\n"`. -/
  | allocatedBreak
  /-- Prints `"Freeing blocks from %d to %d in steps of %d\n"`. -/
  | freeing (freeMin freeMax freeStep : Int)
  /-- Prints `"Program break after freeing blocks is %10p\n"`. -/
  | freedBreak
deriving DecidableEq

inductive Exit where
  | success
  | usageErr
  | gnFail (texts : GnFail)
  | cmdLineErr (text : String)
  | errExit (text : String)
  /-- The behaviour is undefined: an index outside the array, an indeterminate pointer,
      or a block that is not allocated. -/
  | undefined
  /-- The loop has not ended yet. -/
  | running
deriving DecidableEq

/-! ### The arguments -/

structure Config where
  noOfBlocks : Int
  blockSize : Int
  freeStep : Int
  freeMin : Int
  freeMax : Int

def intArg (arg : Bytes) (flags : Nat) (name : String) : Except Exit Int :=
  match getInt arg flags name with
  | .error texts => .error (.gnFail texts)
  | .ok v => .ok v

/-- An argument that may be missing. -/
def optArg (arg : Option Bytes) (name : String) (default : Int) : Except Exit Int :=
  match arg with
  | none => .ok default
  | some arg => intArg arg GN_GT_0 name

/-- The checks of `main`. -/
def checks (argv : List Bytes) : Except Exit Config :=
  match argv with
  | _ :: blocks :: size :: opts =>
    if blocks = bytes "--help" then .error .usageErr
    else do
      let noOfBlocks ← intArg blocks GN_GT_0 "num-allocs"
      if noOfBlocks > BLK_PTR_ARR_LEN then .error (.cmdLineErr "num-allocs > 100000\n")
      else
        let blockSize ← intArg size (GN_GT_0 ||| GN_ANY_BASE) "block-size"
        let freeStep ← optArg opts[0]? "step" 1
        let freeMin ← optArg opts[1]? "min" 1
        let freeMax ← optArg opts[2]? "max" noOfBlocks
        if freeMax > noOfBlocks then .error (.cmdLineErr "freeMax > numAllocs\n")
        else return ⟨noOfBlocks, blockSize, freeStep, freeMin, freeMax⟩
  | _ => .error .usageErr

/-! ### The two loops -/

/-- The array `ptr`, whose elements are indeterminate at first, and the blocks that are
    allocated; a block is named by the call of `malloc` that returned it. -/
structure Memory where
  ptr : Int → Option Nat
  live : Nat → Bool

def Memory.start : Memory := ⟨fun _ => none, fun _ => false⟩

/-- The assignment `ptr[i] = malloc(blockSize)` of a block. -/
def Memory.alloc (m : Memory) (i : Nat) : Memory :=
  ⟨Function.update m.ptr i (some i), Function.update m.live i true⟩

/-- The call `free(ptr[j])`; `none` if it is undefined. -/
def Memory.free (m : Memory) (j : Int) : Option Memory :=
  if 0 ≤ j ∧ j < BLK_PTR_ARR_LEN then
    match m.ptr j with
    | none => none
    | some b => if m.live b then some { m with live := Function.update m.live b false } else none
  else none

/-- The allocation loop, with `count` blocks to go; `malloc i` tells whether the call
    for block `i` succeeds.  An error is the number of the block that it fails for. -/
def allocLoop (malloc : Nat → Bool) : (count i : Nat) → Memory → Except Nat Memory
  | 0, _, m => .ok m
  | count + 1, i, m =>
    if malloc i then allocLoop malloc count (i + 1) (m.alloc i) else .error i

/-- The loop `for (int j = ...; j < freeMax; j = j + freeStep) free(ptr[j]);` for `fuel`
    tests of its condition: the indices passed to `free`, and how it ends. -/
def freeLoop (freeMax freeStep : Int) : (fuel : Nat) → Int → Memory → List Int × Exit
  | 0, _, _ => ([], .running)
  | fuel + 1, j, m =>
    if j < freeMax then
      match m.free j with
      | none => ([j], .undefined)
      | some m =>
        let rest := freeLoop freeMax freeStep fuel (wrapInt (j + freeStep)) m
        (j :: rest.1, rest.2)
    else ([], .success)

/-- A run: what it prints, the indices passed to `free`, and how it ends. -/
structure Run where
  out : List Out
  freed : List Int
  exit : Exit

def main (argv : List Bytes) (malloc : Nat → Bool) (fuel : Nat) : Run :=
  match checks argv with
  | .error why => ⟨[], [], why⟩
  | .ok c =>
    let out := [.initialBreak, .allocating c.noOfBlocks c.blockSize]
    match allocLoop malloc c.noOfBlocks.toNat 0 .start with
    | .error i => ⟨out ++ (List.range i).map .blockBreak, [], .errExit "malloc"⟩
    | .ok m =>
      let out := out ++ (List.range c.noOfBlocks.toNat).map .blockBreak ++
        [.allocatedBreak, .freeing c.freeMin c.freeMax c.freeStep]
      let (freed, exit) := freeLoop c.freeMax c.freeStep fuel (wrapInt (c.freeMin - 1)) m
      ⟨if exit = .success then out ++ [.freedBreak] else out, freed, exit⟩

/-! ### What the checks promise -/

structure Config.Valid (c : Config) : Prop where
  blocks_pos : 1 ≤ c.noOfBlocks
  blocks_le : c.noOfBlocks ≤ BLK_PTR_ARR_LEN
  step_pos : 1 ≤ c.freeStep
  step_le : c.freeStep ≤ INT_MAX
  min_pos : 1 ≤ c.freeMin
  min_le : c.freeMin ≤ INT_MAX
  max_le : c.freeMax ≤ c.noOfBlocks

theorem bind_eq_ok {α β : Type} {x : Except Exit α} {next : α → Except Exit β} {b : β}
    (h : x >>= next = .ok b) : ∃ a, x = .ok a ∧ next a = .ok b := by
  cases x with
  | error why => cases h
  | ok a => exact ⟨a, rfl, h⟩

theorem intArg_mem {arg : Bytes} {name : String} {v : Int}
    (h : intArg arg GN_GT_0 name = .ok v) : 1 ≤ v ∧ v ≤ INT_MAX := by
  unfold intArg at h
  split at h
  · cases h
  · rename_i w hget
    obtain rfl := Except.ok.inj h
    exact ⟨getInt_pos hget (by decide), (getInt_mem hget).2⟩

theorem optArg_mem {arg : Option Bytes} {name : String} {v : Int}
    (h : optArg arg name 1 = .ok v) : 1 ≤ v ∧ v ≤ INT_MAX := by
  cases arg with
  | none =>
    obtain rfl := Except.ok.inj h
    decide
  | some arg => exact intArg_mem h

theorem valid_of_checks {argv : List Bytes} {c : Config} (h : checks argv = .ok c) : c.Valid := by
  unfold checks at h
  split at h
  · obtain ⟨-, h⟩ := of_guard h
    rcases bind_eq_ok h with ⟨n, hn, h⟩
    obtain ⟨hlen, h⟩ := of_guard h
    rcases bind_eq_ok h with ⟨size, -, h⟩
    rcases bind_eq_ok h with ⟨step, hstep, h⟩
    rcases bind_eq_ok h with ⟨min, hmin, h⟩
    rcases bind_eq_ok h with ⟨max, -, h⟩
    obtain ⟨hmax, h⟩ := of_guard h
    obtain rfl := Except.ok.inj h
    obtain ⟨hnpos, -⟩ := intArg_mem hn
    obtain ⟨hsteppos, hstepmax⟩ := optArg_mem hstep
    obtain ⟨hminpos, hminmax⟩ := optArg_mem hmin
    exact ⟨hnpos, Int.not_lt.mp hlen, hsteppos, hstepmax, hminpos, hminmax, Int.not_lt.mp hmax⟩
  · cases h

/-! ### The allocation loop -/

/-- Every element of `ptr` from `lo` to `n` points to a block of its own that is
    allocated. -/
def Memory.Ready (m : Memory) (lo n : Int) : Prop :=
  ∀ i : Nat, lo ≤ i → (i : Int) < n → m.ptr i = some i ∧ m.live i = true

theorem Memory.Ready.mono {m : Memory} {lo lo' n : Int} (h : m.Ready lo n) (hle : lo ≤ lo') :
    m.Ready lo' n := by
  intro i hi hn
  exact h i (hle.trans hi) hn

theorem Memory.ready_alloc {m : Memory} {i : Nat} (h : m.Ready 0 i) :
    (m.alloc i).Ready 0 (i + 1 : Nat) := by
  intro k hk hlt
  by_cases hki : k = i
  · subst hki
    exact ⟨Function.update_self .., Function.update_self ..⟩
  · have hlt' : (k : Int) < i := by omega
    have hne : (k : Int) ≠ i := by omega
    rcases h k hk hlt' with ⟨hptr, hlive⟩
    constructor
    · exact (Function.update_of_ne hne ..).trans hptr
    · exact (Function.update_of_ne hki ..).trans hlive

/-- If no `malloc` fails, every block of the loop is there behind it. -/
theorem allocLoop_ready {malloc : Nat → Bool} {count i : Nat} {m : Memory}
    (hmalloc : ∀ k, k < i + count → malloc k = true) (h : m.Ready 0 i) :
    ∃ m', allocLoop malloc count i m = .ok m' ∧ m'.Ready 0 (i + count : Nat) := by
  induction count generalizing i m with
  | zero => exact ⟨m, rfl, h⟩
  | succ count ih =>
    have hnext : ∀ k, k < i + 1 + count → malloc k = true := by
      intro k hk
      exact hmalloc k (by omega)
    rcases ih hnext (Memory.ready_alloc h) with ⟨m', hloop, hready⟩
    refine ⟨m', ?_, ?_⟩
    · rw [allocLoop, if_pos (hmalloc i (by omega))]
      exact hloop
    · rw [show i + (count + 1) = i + 1 + count by omega]
      exact hready

/-! ### The free loop -/

/-- Freeing a block leaves the blocks behind it. -/
theorem Memory.free_of_ready {m : Memory} {j n : Int} (h : m.Ready j n) (hpos : 0 ≤ j)
    (hlt : j < n) (hn : n ≤ BLK_PTR_ARR_LEN) : ∃ m', m.free j = some m' ∧ m'.Ready (j + 1) n := by
  obtain ⟨k, rfl⟩ := Int.eq_ofNat_of_zero_le hpos
  rcases h k (le_refl _) hlt with ⟨hptr, hlive⟩
  refine ⟨{ m with live := Function.update m.live k false }, ?_, ?_⟩
  · rw [free, if_pos ⟨hpos, by omega⟩, hptr]
    exact if_pos hlive
  · intro i hi hin
    have hne : i ≠ k := by omega
    rcases h i (by omega) hin with ⟨hptr', hlive'⟩
    exact ⟨hptr', (Function.update_of_ne hne ..).trans hlive'⟩

/-- The indices from `lo` on, in steps, that are below `max`. -/
def Steps (lo step max j : Int) : Prop := ∃ k : Nat, j = lo + k * step ∧ j < max

theorem steps_cons {lo step max j : Int} (hlt : lo < max) :
    Steps lo step max j ↔ j = lo ∨ Steps (lo + step) step max j := by
  constructor
  · rintro ⟨k, rfl, hk⟩
    cases k with
    | zero => exact .inl (by simp)
    | succ k =>
      have hnext : lo + ((k + 1 : Nat) : Int) * step = lo + step + k * step := by
        push_cast
        ring
      rw [hnext] at hk ⊢
      exact .inr ⟨k, rfl, hk⟩
  · rintro (rfl | ⟨k, rfl, hk⟩)
    · exact ⟨0, by simp, hlt⟩
    · refine ⟨k + 1, ?_, hk⟩
      push_cast
      ring

theorem le_of_steps {lo step max j : Int} (hstep : 1 ≤ step) (h : Steps lo step max j) :
    lo ≤ j := by
  rcases h with ⟨k, rfl, -⟩
  have hmul : 0 ≤ (k : Int) * step := Int.mul_nonneg (Int.natCast_nonneg k) (by omega)
  omega

theorem not_steps {lo step max : Int} (hstep : 1 ≤ step) (hend : ¬ lo < max) (j : Int) :
    ¬ Steps lo step max j := by
  intro h
  have hle := le_of_steps hstep h
  rcases h with ⟨k, -, hlt⟩
  omega

/-- No index of the loop plus the step exceeds `INT_MAX`. -/
def NoWrap (lo step max : Int) : Prop := ∀ j, Steps lo step max j → j + step ≤ INT_MAX

section FreeLoop

variable {max step n : Int}

/-- Without an overflow the loop ends, and frees the blocks of its steps once each. -/
theorem freeLoop_done (hstep : 1 ≤ step) (hmax : max ≤ n) (hn : n ≤ BLK_PTR_ARR_LEN) :
    ∀ (rounds : Nat) {j : Int} {m : Memory}, max - j ≤ rounds → 0 ≤ j → m.Ready j n →
      NoWrap j step max →
      ∃ fuel freed, freeLoop max step fuel j m = (freed, .success) ∧
        (∀ i, i ∈ freed ↔ Steps j step max i) ∧ freed.Nodup := by
  intro rounds
  induction rounds with
  | zero =>
    intro j m hrounds hpos hready hwrap
    have hend : ¬ j < max := by omega
    refine ⟨1, [], if_neg hend, ?_, List.nodup_nil⟩
    intro i
    simp [not_steps hstep hend]
  | succ rounds ih =>
    intro j m hrounds hpos hready hwrap
    by_cases hlt : j < max
    · rcases Memory.free_of_ready hready hpos (by omega) hn with ⟨m', hfree, hready'⟩
      have hnext : j + step ≤ INT_MAX := hwrap j ((steps_cons hlt).mpr (.inl rfl))
      have hint : wrapInt (j + step) = j + step := by
        apply wrapInt_of_mem
        · simp only [INT_MIN]
          omega
        · exact hnext
      have hwrap' : NoWrap (j + step) step max := by
        intro i hi
        exact hwrap i ((steps_cons hlt).mpr (.inr hi))
      rcases ih (j := j + step) (m := m') (by omega) (by omega) (hready'.mono (by omega)) hwrap'
        with ⟨fuel, freed, hloop, hmem, hnodup⟩
      refine ⟨fuel + 1, j :: freed, ?_, ?_, ?_⟩
      · simp only [freeLoop, if_pos hlt, hfree, hint, hloop]
      · intro i
        rw [List.mem_cons, hmem, steps_cons hlt]
      · refine List.nodup_cons.mpr ⟨?_, hnodup⟩
        intro hj
        have hle := le_of_steps hstep ((hmem j).mp hj)
        omega
    · refine ⟨1, [], if_neg hlt, ?_, List.nodup_nil⟩
      intro i
      simp [not_steps hstep hlt]

/-- A loop that goes on ends only if its rest does. -/
theorem freeLoop_ne_success {j : Int} {m : Memory} {fuel : Nat} (hlt : j < max)
    (hrest : ∀ m' fuel', m.free j = some m' →
      (freeLoop max step fuel' (wrapInt (j + step)) m').2 ≠ .success) :
    (freeLoop max step fuel j m).2 ≠ .success := by
  intro hexit
  cases fuel with
  | zero => cases hexit
  | succ fuel =>
    simp only [freeLoop, if_pos hlt] at hexit
    cases hfree : m.free j with
    | none =>
      rw [hfree] at hexit
      cases hexit
    | some m' =>
      rw [hfree] at hexit
      exact hrest m' fuel hfree hexit

/-- With an overflow it does not end: the index behind the overflow is negative. -/
theorem freeLoop_wraps (hstep : 1 ≤ step) (hstepmax : step ≤ INT_MAX) (hmax : max ≤ n)
    (hn : n ≤ BLK_PTR_ARR_LEN) :
    ∀ (k : Nat) {j : Int} (m : Memory) (fuel : Nat), 0 ≤ j → j + k * step < max →
      INT_MAX < j + k * step + step → (freeLoop max step fuel j m).2 ≠ .success := by
  simp only [BLK_PTR_ARR_LEN] at hn
  intro k
  induction k with
  | zero =>
    intro j m fuel hpos hlt hover
    simp only [Nat.cast_zero, Int.zero_mul, Int.add_zero] at hlt hover
    have hneg : wrapInt (j + step) < 0 := by
      rw [wrapInt_of_overflow hover (by simp only [INT_MAX] at *; omega)]
      simp only [INT_MAX] at hstepmax
      omega
    apply freeLoop_ne_success hlt
    intro m' fuel' _
    apply freeLoop_ne_success (by omega)
    intro m'' fuel'' hfree
    have hout : m'.free (wrapInt (j + step)) = none := if_neg (by omega)
    rw [hout] at hfree
    cases hfree
  | succ k ih =>
    intro j m fuel hpos hlt hover
    have hnext : j + ((k + 1 : Nat) : Int) * step = j + step + k * step := by
      push_cast
      ring
    rw [hnext] at hlt hover
    have hmul : 0 ≤ (k : Int) * step := Int.mul_nonneg (Int.natCast_nonneg k) (by omega)
    have hint : wrapInt (j + step) = j + step := by
      apply wrapInt_of_mem
      · simp only [INT_MIN]
        omega
      · simp only [INT_MAX]
        omega
    apply freeLoop_ne_success (by omega)
    intro m' fuel' _
    rw [hint]
    exact ih m' fuel' (by omega) hlt hover

end FreeLoop

/-- The last index decides. -/
theorem noWrap_iff {min max step : Int} (hstep : 1 ≤ step) :
    NoWrap (min - 1) step max ↔
      max < min ∨ min - 1 + ((max - min) / step + 1) * step ≤ INT_MAX := by
  have hlast : ((max - min) / step + 1) * step = (max - min) / step * step + step := by ring
  constructor
  · intro h
    by_cases hempty : max < min
    · exact .inl hempty
    · right
      have hle : (max - min) / step * step ≤ max - min := Int.ediv_mul_le _ (by omega)
      obtain ⟨k, hk⟩ := Int.eq_ofNat_of_zero_le
        (Int.ediv_nonneg (show 0 ≤ max - min by omega) (show 0 ≤ step by omega))
      rw [hk] at hle hlast ⊢
      have hover := h (min - 1 + k * step) ⟨k, rfl, by omega⟩
      omega
  · rintro (hempty | hover) j hj
    · exact absurd hj (not_steps hstep (by omega) j)
    · rcases hj with ⟨k, rfl, hlt⟩
      have hk : (k : Int) ≤ (max - min) / step := Int.le_ediv_of_mul_le (by omega) (by omega)
      have hmul : (k : Int) * step ≤ (max - min) / step * step :=
        Int.mul_le_mul_of_nonneg_right hk (by omega)
      omega

/-! ### The whole run -/

/-- The run ends, the indices passed to `free` are those of the steps from `min` to
    `max`, each was allocated, and none is freed twice. -/
structure FreesSteps (c : Config) (r : Run) : Prop where
  ends : r.exit = .success
  mem_freed_iff : ∀ j, j ∈ r.freed ↔
    ∃ k : Nat, j = c.freeMin - 1 + k * c.freeStep ∧ j < c.freeMax
  allocated : ∀ j ∈ r.freed, 0 ≤ j ∧ j < c.noOfBlocks
  once : r.freed.Nodup

/-- A run whose arguments pass the checks comes to the free loop with all blocks there. -/
theorem main_freeLoop {argv : List Bytes} {c : Config} {malloc : Nat → Bool}
    (h : checks argv = .ok c) (hmalloc : ∀ i : Nat, (i : Int) < c.noOfBlocks → malloc i = true) :
    ∃ m : Memory, m.Ready 0 c.noOfBlocks ∧ ∀ fuel,
      ((main argv malloc fuel).freed, (main argv malloc fuel).exit) =
        freeLoop c.freeMax c.freeStep fuel (c.freeMin - 1) m := by
  have hvalid := valid_of_checks h
  have hblocks : ((c.noOfBlocks.toNat : Nat) : Int) = c.noOfBlocks :=
    Int.toNat_of_nonneg (by have := hvalid.blocks_pos; omega)
  have hstart : Memory.start.Ready 0 (0 : Nat) := by
    intro i hi hlt
    omega
  have hall : ∀ k, k < 0 + c.noOfBlocks.toNat → malloc k = true := by
    intro k hk
    exact hmalloc k (by omega)
  rcases allocLoop_ready hall hstart with ⟨m, halloc, hready⟩
  rw [Nat.zero_add, hblocks] at hready
  have hmin : wrapInt (c.freeMin - 1) = c.freeMin - 1 := by
    have hpos := hvalid.min_pos
    have hle := hvalid.min_le
    apply wrapInt_of_mem
    · simp only [INT_MIN]
      omega
    · omega
  refine ⟨m, hready, ?_⟩
  intro fuel
  simp only [main, h, halloc, hmin]

/-- After a step whose successor is beyond `INT_MAX`, the loop goes on below the array. -/
theorem main_wraps {argv : List Bytes} {c : Config} {malloc : Nat → Bool}
    (h : checks argv = .ok c) (hmalloc : ∀ i : Nat, (i : Int) < c.noOfBlocks → malloc i = true)
    {j : Int} (hstep : Steps (c.freeMin - 1) c.freeStep c.freeMax j)
    (hover : INT_MAX < j + c.freeStep) :
    ¬ ∃ fuel, FreesSteps c (main argv malloc fuel) := by
  rintro ⟨fuel, hfrees⟩
  have hvalid := valid_of_checks h
  have hmin := hvalid.min_pos
  rcases main_freeLoop h hmalloc with ⟨m, -, hrun⟩
  rcases hstep with ⟨k, rfl, hlt⟩
  have hend := freeLoop_wraps hvalid.step_pos hvalid.step_le hvalid.max_le hvalid.blocks_le k m
    fuel (show 0 ≤ c.freeMin - 1 by omega) hlt hover
  rw [← hrun fuel] at hend
  exact hend hfrees.ends

/-- For all arguments that pass the checks: the loop frees the blocks of its steps, each
    once, and ends, exactly if it has no step to make or the index behind its last one
    is still an `int`. -/
theorem main_frees_iff {argv : List Bytes} {c : Config} {malloc : Nat → Bool}
    (h : checks argv = .ok c) (hmalloc : ∀ i : Nat, (i : Int) < c.noOfBlocks → malloc i = true) :
    (∃ fuel, FreesSteps c (main argv malloc fuel)) ↔
      c.freeMax < c.freeMin ∨
        c.freeMin - 1 + ((c.freeMax - c.freeMin) / c.freeStep + 1) * c.freeStep ≤ INT_MAX := by
  have hvalid := valid_of_checks h
  have hmin := hvalid.min_pos
  rcases main_freeLoop h hmalloc with ⟨m, hready, hrun⟩
  rw [← noWrap_iff hvalid.step_pos]
  constructor
  · intro hfrees j hstep
    by_contra hover
    exact main_wraps h hmalloc hstep (by omega) hfrees
  · intro hwrap
    obtain ⟨fuel, freed, hloop, hmem, hnodup⟩ := freeLoop_done hvalid.step_pos hvalid.max_le
      hvalid.blocks_le (c.freeMax - (c.freeMin - 1)).toNat (show _ ≤ _ by omega)
      (show 0 ≤ c.freeMin - 1 by omega) (hready.mono (by omega)) hwrap
    obtain ⟨hfreed, hexit⟩ := Prod.mk.inj ((hrun fuel).trans hloop)
    refine ⟨fuel, hexit, ?_, ?_, ?_⟩
    · intro j
      rw [hfreed]
      exact hmem j
    · intro j hj
      rw [hfreed] at hj
      have hstep := (hmem j).mp hj
      have hle := le_of_steps hvalid.step_pos hstep
      have hmax := hvalid.max_le
      rcases hstep with ⟨k, -, hlt⟩
      omega
    · rw [hfreed]
      exact hnodup

theorem main_frees_defaults :
    let argv := [bytes "free_and_sbrk", bytes "10", bytes "1024"]
    checks argv = .ok ⟨10, 1024, 1, 1, 10⟩ ∧
      ((∃ fuel, FreesSteps ⟨10, 1024, 1, 1, 10⟩ (main argv (fun _ => true) fuel)) ↔
        (10 : Int) < 1 ∨ (1 : Int) - 1 + ((10 - 1) / 1 + 1) * 1 ≤ INT_MAX) :=
  ⟨rfl, main_frees_iff rfl fun _ _ => rfl⟩

/-- Two blocks of which the second is freed, with the largest step. -/
theorem main_frees_wrapped :
    let argv := [bytes "free_and_sbrk", bytes "2", bytes "16", bytes "2147483647", bytes "2",
      bytes "2"]
    checks argv = .ok ⟨2, 16, 2147483647, 2, 2⟩ ∧
      ¬ ∃ fuel, FreesSteps ⟨2, 16, 2147483647, 2, 2⟩ (main argv (fun _ => true) fuel) := by
  intro argv
  have hchecks : checks argv = .ok ⟨2, 16, 2147483647, 2, 2⟩ := rfl
  refine ⟨hchecks, ?_⟩
  apply main_wraps hchecks fun _ _ => rfl
  · exact ⟨0, rfl, by decide⟩
  · decide

end LinuxPractice.Chap7
