import LinuxPractice.Chap12.PstreeFields

/-!
# The calls of `trim` in `pstree_implementation.c`

`trim` walks left without a bound, and here it is only ever given a further token of
a line that was cut at ":".  Such a token is not empty and stands behind a NUL or a
skipped ":", neither of which is blank, so every call stays next to its token.  The
branches keep that there is a line cut so far (`AfterToken`); which of them run, and
what `getInt` answers, does not matter.
-/

namespace LinuxPractice.Chap12.Pstree

open LinuxPractice.CLib LinuxPractice.Tlpi

/-- What a call of `trim` on a token of `line` should be and do: `k` is the offset of
    the token and `n` its length. -/
def TrimsToken (call : CharArray 128 × Nat) : Prop :=
  ∃ tok run, call.1.cstr call.2 = some tok ∧ trim call.1 call.2 = some run ∧
    let k := call.2
    let n := tok.length
    1 ≤ k ∧ 1 ≤ n ∧ (call.1.load (k - 1) = some 0 ∨ call.1.load (k - 1) = some 58) ∧
    (∀ i ∈ run.trace.reads, k - 1 ≤ i ∧ i ≤ k + n) ∧
    (∀ i ∈ run.trace.writes, k ≤ i ∧ i ≤ k + n) ∧
    (0 ≤ run.tail ∧ run.tail ≤ n) ∧ (0 ≤ run.len ∧ run.len ≤ n) ∧
    run.trace.array.cstr k = some (strip tok) ∧
    (Blank tok → run.trace.array.cstr k = some [])

/-- All calls of `trim` made so far are of this kind. -/
def AllTrim (f : Frame Vars) : Prop := ∀ call ∈ f.trims, TrimsToken call

/-- A step keeps the calls good however it ends, and leaves a cut line if it goes on. -/
def Safe : Step → Prop
  | .ok g => AllTrim g ∧ ∃ tok rest, AfterToken g tok rest
  | .error jump => AllTrim (stateOf (.error jump))

theorem Safe.bind {r : Step} {next : Frame Vars → Step} (h : Safe r)
    (hnext : ∀ g tok rest, AllTrim g → AfterToken g tok rest → Safe (next g)) :
    Safe (r >>= next) := by
  cases r with
  | error jump => exact h
  | ok g =>
    rcases h with ⟨hall, tok, rest, hafter⟩
    exact hnext g tok rest hall hafter

theorem Safe.allTrim {r : Step} (h : Safe r) : AllTrim (stateOf r) := by
  cases r with
  | error jump => exact h
  | ok g => exact h.1

variable {f : Frame Vars} {tok rest : Bytes}

/-! ### One call -/

theorem trimsToken_of_trimOk {a : CharArray 128} {k : Nat} {run : TrimRun 128} {c : UInt8}
    (hstr : a.cstr k = some tok) (hpos : 0 < k) (hne : tok ≠ [])
    (hload : a.load (k - 1) = some c) (hc : c = 0 ∨ c = 58) (hrun : trim a k = some run)
    (hok : TrimOk a k tok run) : TrimsToken (a, k) := by
  have hlen := hok.len_eq
  have hstrip := length_strip_le tok
  refine ⟨tok, run, hstr, hrun, hpos, List.length_pos_iff.mpr hne, ?_, hok.reads_mem,
    hok.writes_mem, ⟨hok.tail_nonneg, hok.tail_le⟩, ⟨by omega, by omega⟩, hok.cstr_eq, ?_⟩
  · rcases hc with rfl | rfl
    · exact .inl hload
    · exact .inr hload
  · intro hblank
    rw [hok.cstr_eq, strip_of_blank hblank]

/-- The two calls that fetch a value, `strtok_r` and `trim`, behind a token of the line. -/
theorem safe_value (hall : AllTrim f) (hf : AfterToken f tok rest) :
    Safe (f.strtok f.saveptr colon >>= Frame.trimToken) := by
  cases hcut : nextToken colon rest with
  | none =>
    rcases Frame.strtok_of_none hf.cstr_save hcut with ⟨saveptr, heq⟩
    rw [heq]
    exact hall
  | some cut =>
    rcases cut with ⟨tok', rest'⟩
    rcases Frame.strtok_of_some hf.cstr_save hcut with ⟨line, saveptr, heq, hat⟩
    rcases Frame.load_before_next hf hcut hat with ⟨hpos, c, hload, hc⟩
    rcases exists_cut_of_nextToken hcut with ⟨skip, after, -, -, hne, -⟩
    have hafter := Frame.afterToken_next hf hcut hat
    have htoken : 0 < f.saveptr + strspn rest colon := by omega
    rcases Frame.trimToken_of_after hafter htoken with ⟨run, hrun, hok, htrim, hafter'⟩
    rw [heq]
    change Safe (Frame.trimToken _)
    rw [htrim]
    refine ⟨?_, _, _, hafter'⟩
    intro call hcall
    rcases List.mem_append.mp hcall with h | h
    · exact hall call h
    · obtain rfl := List.mem_singleton.mp h
      exact trimsToken_of_trimOk hat.cstr_token htoken hne hload hc hrun hok

/-! ### The branches -/

theorem safe_numBranch (key name : String) (assign : Vars → Int → Vars)
    (line : Bytes → Int → Out) (hall : AllTrim f) (hf : AfterToken f tok rest) :
    Safe (numBranch key name assign line f) := by
  by_cases hkey : tok = bytes key
  · have hbranch : numBranch key name assign line f =
        f.strtok f.saveptr colon >>= Frame.trimToken >>= fun g => do
          let value ← g.getIntToken GN_ANY_BASE name
          let token ← g.text
          return { g with vars := assign { g.vars with errno := 0 } value,
                          out := g.out ++ [line token value] } := by
      rw [numBranch, Frame.text_of_cstr hf.cstr_token, bind_assoc]
      exact if_pos hkey
    rw [hbranch]
    apply (safe_value hall hf).bind
    intro g tok' rest' hall' hafter
    rw [Frame.getIntToken_of_cstr hafter.cstr_token]
    cases getInt tok' GN_ANY_BASE name with
    | error texts => exact hall'
    | ok value =>
      change Safe (g.text >>= _)
      rw [Frame.text_of_cstr hafter.cstr_token]
      exact ⟨hall', tok', rest', hafter.cstr_token, hafter.cstr_save, hafter.le_save, hafter.nul,
        hafter.before⟩
  · rw [numBranch_skip _ _ _ hf.cstr_token hkey]
    exact ⟨hall, tok, rest, hf⟩

theorem safe_nameBranch (hall : AllTrim f) (hf : AfterToken f tok rest) :
    Safe (nameBranch f) := by
  by_cases hkey : tok = bytes "Name"
  · have hbranch : nameBranch f =
        f.strtok f.saveptr colon >>= Frame.trimToken >>= fun g => do
          let token ← g.text
          return { g with out := g.out ++ [.nameLine token] } := by
      rw [nameBranch, Frame.text_of_cstr hf.cstr_token, bind_assoc]
      exact if_pos hkey
    rw [hbranch]
    apply (safe_value hall hf).bind
    intro g tok' rest' hall' hafter
    rw [Frame.text_of_cstr hafter.cstr_token]
    exact ⟨hall', tok', rest', hafter.cstr_token, hafter.cstr_save, hafter.le_save, hafter.nul,
      hafter.before⟩
  · rw [nameBranch_skip hf.cstr_token hkey]
    exact ⟨hall, tok, rest, hf⟩

/-! ### A line, and the whole file -/

theorem safe_lineBody {s : Bytes} (hall : AllTrim f) (hs : f.line.cstr 0 = some s) :
    Safe (lineBody f) := by
  have hfirst : Safe (f.strtok 0 colon) := by
    cases hcut : nextToken colon s with
    | none =>
      rcases Frame.strtok_of_none hs hcut with ⟨saveptr, heq⟩
      rw [heq]
      exact hall
    | some cut =>
      rcases Frame.strtok_line hs hcut with ⟨line, saveptr, heq, -, hafter⟩
      rw [heq]
      exact ⟨hall, _, _, hafter⟩
  apply hfirst.bind
  intro g tok rest hall hafter
  apply (safe_numBranch _ _ _ _ hall hafter).bind
  intro g tok rest hall hafter
  apply (safe_numBranch _ _ _ _ hall hafter).bind
  intro g tok rest hall hafter
  exact safe_nameBranch hall hafter

theorem allTrim_lineLoop {chunks : List Bytes} (hlen : ∀ chunk ∈ chunks, chunk.length ≤ 127)
    (hall : AllTrim f) : AllTrim (lineLoop (fun _ => true) lineBody chunks f).1 := by
  apply lineLoop_inv (P := AllTrim) _ f hall
  intro chunk hchunk g hg
  exact (safe_lineBody (f := g.fgets chunk) hg (g.cstr_fgets (hlen chunk hchunk))).allTrim

/-- On every file, with every failure of `fopen`, `fgets` and `fclose` and whatever
    stands in `line` before, each call of `trim` that `readfdata` makes is on a token
    behind a NUL or a ":", stays next to it, and strips it. -/
theorem readfdata_trims (fopen : Except Errno Stream) (stale : CharArray 128) (errno : Nat) :
    ∀ call ∈ (readfdata fopen stale errno).1.trims, TrimsToken call := by
  cases fopen with
  | error e =>
    intro call hcall
    cases hcall
  | ok fst =>
    have hloop : AllTrim (lineLoop (fun _ => true) lineBody (fst.lines 127)
        ⟨stale, 0, 0, ⟨-1, -1, errno⟩, [], []⟩).1 := by
      apply allTrim_lineLoop fun _ => fst.length_le_of_mem_lines (by decide)
      intro call hcall
      cases hcall
    have htrims : (readfdata (.ok fst) stale errno).1.trims =
        (lineLoop (fun _ => true) lineBody (fst.lines 127)
          ⟨stale, 0, 0, ⟨-1, -1, errno⟩, [], []⟩).1.trims := by
      simp only [readfdata]
      split
      · rename_i h
        rw [h]
      · rename_i h
        rw [h]
        cases fst.lastErr 127 <;> cases fst.fcloseErr <;> rfl
    rw [htrims]
    exact hloop

/-- The call for a blank name behind two colons, at offset 6. -/
theorem readfdata_trims_blank :
    let run := readfdata (.ok ⟨bytes "Name:: \nPid:\t7 \n", none, none⟩) (.zeros 128) 0
    ∃ call ∈ run.1.trims, call.2 = 6 ∧ TrimsToken call := by
  intro run
  have hoffset : run.1.trims.map Prod.snd = [6, 4] := by decide +kernel
  have hmem : 6 ∈ run.1.trims.map Prod.snd := by simp [hoffset]
  rcases List.mem_map.mp hmem with ⟨call, hcall, hsix⟩
  exact ⟨call, hcall, hsix, readfdata_trims _ _ _ call hcall⟩

end LinuxPractice.Chap12.Pstree
