import LinuxPractice.Chap12.UserProcsFields

/-!
# The calls of `trim` in `p_id_cmdn_si.c`

Every call of `trim` that `readfdata` makes, on any file: the calls of the `Pid`
and `Name` branches are safe, the call of the `Uid` branch is safe unless its
token is blank and stands behind a tab.
-/

namespace LinuxPractice.Chap12.UserProcs

open LinuxPractice.CLib LinuxPractice.Tlpi

/-- A line whose `Uid` value is blank and stands behind a tab, be it the value of the
    key `Uid` or of a name that was taken for this key. -/
def BlankUid (s : Bytes) : Prop :=
  ∃ tok rest, nextToken colon s = some (tok, rest) ∧
    (tok = bytes "Uid" ∧ BlankAfterTab rest ∨
      tok = bytes "Name" ∧ ∃ tok' rest', nextToken colon rest = some (tok', rest') ∧
        strip tok' = bytes "Uid" ∧ BlankAfterTab rest')

/-- The loop went from `f` to `g` with these calls of `trim`. -/
def Adds (f g : Frame Vars) (calls : List (CharArray 128 × Nat)) : Prop :=
  g.trims = f.trims ++ calls

variable (uid : UInt32) {f : Frame Vars} {rest s : Bytes}

theorem trims_printRecord (f : Frame Vars) :
    (stateOf (printRecord uid f)).trims = f.trims := by
  unfold printRecord
  split
  · rfl
  · split
    · split <;> rfl
    · rfl

theorem adds_uidBranch (hf : AfterToken f (bytes "Uid") rest) (h : ¬ BlankAfterTab rest) :
    ∃ calls, Adds f (stateOf (uidBranch uid f)) calls ∧ ∀ call ∈ calls, SafeCall call := by
  cases hvalue : uidValue rest with
  | none =>
    rcases uidBranch_noToken uid hf hvalue with ⟨line, token, saveptr, heq⟩
    exact ⟨[], by simp [Adds, heq, stateOf], by simp⟩
  | some v =>
    rcases v with ⟨tabbed, value⟩
    have hok : tabbed = true → ¬ Blank value := by
      rintro rfl hblank
      exact h ⟨value, hvalue, hblank⟩
    rcases uidBranch_value uid hf hvalue hok with ⟨line, token, saveptr, call, hsafe, -, -, heq⟩
    refine ⟨[call], ?_, by simpa using hsafe⟩
    rw [heq]
    cases getInt (strip value) GN_ANY_BASE "realuid" with
    | error texts => rfl
    | ok realuid => exact trims_printRecord uid _

theorem adds_lineBody (hs : f.line.cstr 0 = some s) (h : ¬ BlankUid s) :
    ∃ calls, Adds f (stateOf (lineBody uid f)) calls ∧ ∀ call ∈ calls, SafeCall call := by
  cases hcut : nextToken colon s with
  | none =>
    rcases lineBody_noToken uid hs hcut with ⟨saveptr, heq⟩
    exact ⟨[], by simp [Adds, heq, stateOf], by simp⟩
  | some cut =>
    rcases cut with ⟨tok, rest⟩
    by_cases hpid : tok = bytes "Pid"
    · subst hpid
      cases hcut' : nextToken colon rest with
      | none =>
        rcases lineBody_pid_noToken uid hs hcut hcut' with ⟨line, token, saveptr, heq⟩
        exact ⟨[], by simp [Adds, heq, stateOf], by simp⟩
      | some cut' =>
        rcases lineBody_pid uid hs hcut hcut' with ⟨line, token, saveptr, call, hsafe, heq⟩
        refine ⟨[call], ?_, by simpa using hsafe⟩
        rw [heq]
        cases getInt (strip cut'.1) GN_GT_0 "pid" <;> rfl
    by_cases hname : tok = bytes "Name"
    · subst hname
      cases hcut' : nextToken colon rest with
      | none =>
        rcases lineBody_name_noToken uid hs hcut hcut' with ⟨line, token, saveptr, heq⟩
        exact ⟨[], by simp [Adds, heq, stateOf], by simp⟩
      | some cut' =>
        rcases cut' with ⟨tok', rest'⟩
        rcases lineBody_name uid hs hcut hcut' with ⟨line, saveptr, call, hsafe, heq, -, hafter⟩
        by_cases hkey : strip tok' = bytes "Uid"
        · -- the name is taken for the key `Uid`
          rw [hkey] at hafter
          obtain ⟨calls, hadds, hcalls⟩ := adds_uidBranch uid hafter fun hblank =>
            h ⟨_, _, hcut, .inr ⟨rfl, _, _, hcut', hkey, hblank⟩⟩
          refine ⟨call :: calls, ?_, ?_⟩
          · rw [heq]
            exact hadds.trans (by simp)
          · simpa using ⟨hsafe, fun a b hab => hcalls (a, b) hab⟩
        · rw [uidBranch_skip uid hafter.cstr_token hkey] at heq
          exact ⟨[call], by rw [heq]; rfl, by simpa using hsafe⟩
    by_cases huid : tok = bytes "Uid"
    · subst huid
      rcases lineBody_uid uid hs hcut with ⟨line, saveptr, heq, -, hafter⟩
      obtain ⟨calls, hadds, hcalls⟩ := adds_uidBranch uid hafter fun hblank =>
        h ⟨_, _, hcut, .inl ⟨rfl, hblank⟩⟩
      exact ⟨calls, by rw [heq]; exact hadds, hcalls⟩
    · rcases lineBody_other uid hs hcut hpid hname huid with ⟨line, token, saveptr, heq⟩
      exact ⟨[], by simp [Adds, heq, stateOf], by simp⟩

/-- A line with one: the last call overruns its token, and the program ends. -/
theorem adds_lineBody_blank (hs : f.line.cstr 0 = some s) (h : BlankUid s) :
    ∃ why g calls call, lineBody uid f = .error (.stop why g) ∧ Adds f g (calls ++ [call]) ∧
      Overruns call := by
  rcases h with ⟨tok, rest, hcut, ⟨rfl, hblank⟩ | ⟨rfl, tok', rest', hcut', hkey, hblank⟩⟩
  · rcases lineBody_uid uid hs hcut with ⟨line, saveptr, heq, -, hafter⟩
    rcases uidBranch_blank uid hafter hblank with ⟨why, line', token, saveptr', call, hover, hstop⟩
    exact ⟨why, _, [], call, heq.trans hstop, rfl, hover⟩
  · rcases lineBody_name uid hs hcut hcut' with ⟨line, saveptr, call, -, heq, -, hafter⟩
    rw [hkey] at hafter
    rcases uidBranch_blank uid hafter hblank with ⟨why, line', token, saveptr', call', hover, hstop⟩
    exact ⟨why, _, [call], call', heq.trans hstop, by simp [Adds], hover⟩

/-! ### All calls of a run -/

/-- A call of `trim` that does what field extraction needs: its accesses stay in
    `line`, the first loop ends with `0 ≤ l`, `memmove` gets a length between 1 and
    that of the token with its NUL, and the token loses the blanks around it. -/
def ExtractsField (call : CharArray 128 × Nat) : Prop :=
  ∃ tok run, call.1.cstr call.2 = some tok ∧ trim call.1 call.2 = some run ∧
    (∀ i ∈ run.trace.reads, i < 128) ∧ (∀ i ∈ run.trace.writes, i < 128) ∧
    0 ≤ run.tail ∧ 1 ≤ run.len + 1 ∧ run.len + 1 ≤ tok.length + 1 ∧
    run.trace.array.cstr call.2 = some (strip tok)

theorem extractsField_of_safeCall {call : CharArray 128 × Nat} (h : SafeCall call) :
    ExtractsField call := by
  rcases h with ⟨tok, run, hstr, -, hrun, hok⟩
  have hin := CharArray.add_length_lt_of_cstr hstr
  have hlen := hok.len_eq
  have hstrip := length_strip_le tok
  refine ⟨tok, run, hstr, hrun, ?_, ?_, hok.tail_nonneg, by omega, by omega, hok.cstr_eq⟩
  · intro i hi
    have := hok.reads_mem i hi
    omega
  · intro i hi
    have := hok.writes_mem i hi
    omega

theorem not_extractsField_of_overruns {call : CharArray 128 × Nat} (h : Overruns call) :
    ¬ ExtractsField call := by
  rintro ⟨tok, run, -, hrun, -, -, htail, -⟩
  have := h run hrun
  omega

theorem calls_lineBody (hs : f.line.cstr 0 = some s) :
    ∃ calls, Adds f (stateOf (lineBody uid f)) calls ∧
      ((∀ call ∈ calls, ExtractsField call) ↔ ¬ BlankUid s) := by
  by_cases hblank : BlankUid s
  · rcases adds_lineBody_blank uid hs hblank with ⟨why, g, calls, call, heq, hadds, hover⟩
    refine ⟨calls ++ [call], by rwa [heq], ?_⟩
    simp only [hblank, not_true_eq_false, iff_false]
    exact fun hall => not_extractsField_of_overruns hover (hall call (by simp))
  · rcases adds_lineBody uid hs hblank with ⟨calls, hadds, hcalls⟩
    refine ⟨calls, hadds, ?_⟩
    simp only [hblank, not_false_eq_true, iff_true]
    exact fun call hcall => extractsField_of_safeCall (hcalls call hcall)

/-- The whole loop: the calls it makes are good exactly if no line it reads has a
    blank `Uid` value. -/
theorem calls_lineLoop {chunks : List Bytes} (hlen : ∀ chunk ∈ chunks, chunk.length ≤ 127) :
    ∀ f : Frame Vars, ∃ calls,
      (lineLoop Vars.again (lineBody uid) chunks f).1.trims = f.trims ++ calls ∧
      ((∀ call ∈ calls, ExtractsField call) ↔
        ∀ chunk ∈ linesRead uid chunks f.vars, ¬ BlankUid (lineString chunk)) := by
  induction chunks with
  | nil =>
    intro f
    exact ⟨[], by simp [lineLoop], by simp [linesRead]⟩
  | cons chunk chunks ih =>
    intro f
    by_cases hagain : f.vars.again = true
    · have hline := f.cstr_fgets (hlen chunk (by simp))
      have hstep : Follows (f.fgets chunk) (fieldLine uid (lineString chunk) f.vars)
          (lineBody uid (f.fgets chunk)) := lineBody_follows uid hline
      rcases calls_lineBody uid hline with ⟨calls, hadds, hcalls⟩
      have ih' := ih fun c hc => hlen c (by simp [hc])
      simp only [linesRead, lineLoop, if_pos hagain]
      obtain ⟨⟨v, last⟩, hfield⟩ :
          ∃ r, fieldLine uid (lineString chunk) f.vars = r := ⟨_, rfl⟩
      rw [hfield] at hstep ⊢
      -- a line that goes on adds its calls to those of the lines behind it
      have hgo : ∀ g : Frame Vars, g.trims = f.trims ++ calls → ∃ calls',
          (lineLoop Vars.again (lineBody uid) chunks g).1.trims = f.trims ++ calls' ∧
          ((∀ call ∈ calls', ExtractsField call) ↔
            ∀ c ∈ chunk :: linesRead uid chunks g.vars, ¬ BlankUid (lineString c)) := by
        intro g hg
        rcases ih' g with ⟨calls', htrims, hiff⟩
        refine ⟨calls ++ calls', by rw [htrims, hg, List.append_assoc], ?_⟩
        rw [List.forall_mem_append, List.forall_mem_cons, hiff, hcalls]
      -- a line that ends the loop adds only its own
      have hlast : (∀ call ∈ calls, ExtractsField call) ↔
          ∀ c ∈ [chunk], ¬ BlankUid (lineString c) := by
        rw [List.forall_mem_singleton, hcalls]
      cases last with
      | next =>
        rcases hstep with ⟨g, heq, rfl, -⟩
        rw [heq] at hadds ⊢
        exact hgo g hadds
      | noToken =>
        rcases hstep with ⟨g, heq, rfl, -⟩
        rw [heq] at hadds ⊢
        exact hgo g hadds
      | record k value =>
        rcases hstep with ⟨g, name, heq, -⟩
        rw [heq, printed] at hadds ⊢
        cases hcstr : g.line.cstr name with
        | none =>
          rw [hcstr] at hadds
          exact ⟨calls, hadds, hlast⟩
        | some t =>
          rw [hcstr] at hadds
          exact ⟨calls, hadds, hlast⟩
      | stop =>
        rcases hstep with ⟨why, g, heq, -⟩
        rw [heq] at hadds ⊢
        exact ⟨calls, hadds, hlast⟩
    · simp only [linesRead, lineLoop, if_neg hagain]
      exact ⟨[], by simp, by simp⟩

/-- On every stream, the calls of `trim` that `readfdata` makes extract their fields
    exactly if none of the lines it reads has a blank `Uid` value behind a tab. -/
theorem readfdata_trims_iff (fst : Stream) (stale : CharArray 128) :
    (∀ call ∈ (readfdata (.ok fst) stale uid).1.trims, ExtractsField call) ↔
      ∀ chunk ∈ linesRead uid (fst.lines 127) ⟨-1, none, -1⟩, ¬ BlankUid (lineString chunk) := by
  obtain ⟨calls, htrims, hiff⟩ := calls_lineLoop uid
    (fun _ => fst.length_le_of_mem_lines (by decide)) ⟨stale, 0, 0, ⟨-1, none, -1⟩, [], []⟩
  have heq : (readfdata (.ok fst) stale uid).1.trims = calls := by
    rw [List.nil_append] at htrims
    rw [← htrims, readfdata]
    split <;> rename_i h <;> simp [h]
  rw [heq, hiff]

/-- The file of a process that calls itself `Uid:\t\t `. -/
theorem readfdata_trims_blank_name :
    ¬ ∀ call ∈ (readfdata
        (.ok ⟨bytes "Name:\tUid:\t\t \nPid:\t7\nUid:\t5\t5\t5\t5\n", none, none⟩)
        (.zeros 128) 5).1.trims, ExtractsField call := by
  intro hall
  have hnone : ((readfdata
      (.ok ⟨bytes "Name:\tUid:\t\t \nPid:\t7\nUid:\t5\t5\t5\t5\n", none, none⟩)
      (.zeros 128) 5).1.trims.any fun call =>
        (trim call.1 call.2).isNone) = true := by decide +kernel
  rcases List.any_eq_true.mp hnone with ⟨call, hmem, hcall⟩
  rcases hall call hmem with ⟨tok, run, -, hrun, -⟩
  simp [hrun] at hcall

end LinuxPractice.Chap12.UserProcs
