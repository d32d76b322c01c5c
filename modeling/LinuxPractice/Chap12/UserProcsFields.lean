import LinuxPractice.Chap12.UserProcsLine

/-!
# The fields model of `p_id_cmdn_si.c`

The line loop of `readfdata` without its buffer: a line is a string, a token is a
string, and what is left of `line` are the offsets that `name` and the printed
value depend on.  `lineBody_follows` and `lineLoop_follows` say that the loop over
the buffer does what the model answers, whatever the buffer held before.
-/

namespace LinuxPractice.Chap12.UserProcs

open LinuxPractice.CLib LinuxPractice.Tlpi

/-- How a line leaves the loop body. -/
inductive LineEnd where
  | next
  /-- The loop prints "No token" and goes on. -/
  | noToken
  /-- The loop prints the record; the uid stands at offset `k` as `value`. -/
  | record (k : Nat) (value : Bytes)
  | stop
deriving DecidableEq

/-- The `Uid` branch on the rest of a line that starts at offset `p`. -/
def uidField (uid : UInt32) (p : Nat) (rest : Bytes) (v : Vars) : Vars × LineEnd :=
  match nextToken colon rest with
  | none => (v, .noToken)
  | some (tok, _) =>
    match nextToken tab tok with
    | none => (v, .noToken)
    | some (value, _) =>
      -- a blank value is rejected too, or `trim` has left the array before that
      match getInt (strip value) GN_ANY_BASE "realuid" with
      | .error _ => (v, .stop)
      | .ok realuid =>
        if v.name.isSome ∧ (uid.toNat : Int) = realuid ∧ v.pid ≠ -1 then
          ({ v with realuid }, .record (p + strspn rest colon + strspn tok tab) (strip value))
        else ({ v with realuid }, .next)

def fieldLine (uid : UInt32) (s : Bytes) (v : Vars) : Vars × LineEnd :=
  match nextToken colon s with
  | none => (v, .noToken)
  | some (tok, rest) =>
    if tok = bytes "Pid" then
      match nextToken colon rest with
      | none => (v, .noToken)
      | some (tok', _) =>
        match getInt (strip tok') GN_GT_0 "pid" with
        | .error _ => (v, .stop)
        | .ok pid => ({ v with pid }, .next)
    else if tok = bytes "Name" then
      match nextToken colon rest with
      | none => (v, .noToken)
      | some (tok', rest') =>
        let name := strspn s colon + 5 + strspn rest colon
        let v := { v with name := some name }
        -- the value of the line is tested against the key `Uid`
        if strip tok' = bytes "Uid" then uidField uid (name + tok'.length + 1) rest' v
        else (v, .next)
    else if tok = bytes "Uid" then uidField uid (strspn s colon + 4) rest v
    else (v, .next)

/-- A run of the loop: how often "No token" was printed, and the variables and the
    end of the last line. -/
structure FieldRun where
  noTokens : Nat
  vars : Vars
  last : LineEnd

def fieldLoop (uid : UInt32) : List Bytes → Vars → FieldRun
  | [], v => ⟨0, v, .next⟩
  | chunk :: chunks, v =>
    if v.again then
      match fieldLine uid (lineString chunk) v with
      | (v, .next) => fieldLoop uid chunks v
      | (v, .noToken) =>
        let r := fieldLoop uid chunks v
        { r with noTokens := r.noTokens + 1 }
      | (v, last) => ⟨0, v, last⟩
    else ⟨0, v, .next⟩

/-- The strings among these that the loop asks `fgets` for. -/
def linesRead (uid : UInt32) : List Bytes → Vars → List Bytes
  | [], _ => []
  | chunk :: chunks, v =>
    if v.again then
      match fieldLine uid (lineString chunk) v with
      | (v, .next) => chunk :: linesRead uid chunks v
      | (v, .noToken) => chunk :: linesRead uid chunks v
      | _ => [chunk]
    else []

/-! ### The loop over the buffer follows the model -/

def printed (g : Frame Vars) (name : Nat) : Step :=
  match g.line.cstr name with
  | none => .error (.stop .undefined g)
  | some s => .error (.brk { g with out := g.out ++ [.record g.vars.pid s] })

/-- The loop body, begun in `f`, did what the model answers. -/
def Follows (f : Frame Vars) : Vars × LineEnd → Step → Prop
  | (v, .next), r => ∃ g, r = .ok g ∧ g.vars = v ∧ g.out = f.out
  | (v, .noToken), r =>
    ∃ g, r = .error (.cont g) ∧ g.vars = v ∧ g.out = f.out ++ [.noToken]
  | (v, .record k value), r =>
    ∃ g name, r = printed g name ∧ v.name = some name ∧ g.vars = v ∧ g.out = f.out ∧
      g.line.cstr k = some value
  | (_, .stop), r => ∃ why g, r = .error (.stop why g) ∧ g.out = f.out

theorem Follows.congr {f f' : Frame Vars} {r : Vars × LineEnd} {step : Step}
    (h : Follows f' r step) (hout : f'.out = f.out) : Follows f r step := by
  rcases r with ⟨v, last⟩
  cases last <;> simpa only [Follows, hout] using h

variable (uid : UInt32) {f : Frame Vars} {rest s : Bytes}

theorem printRecord_eq (f : Frame Vars) :
    printRecord uid f =
      match f.vars.name with
      | none => .ok f
      | some name =>
        if (uid.toNat : Int) = f.vars.realuid ∧ f.vars.pid ≠ -1 then printed f name
        else .ok f := by
  cases hname : f.vars.name with
  | none => simp only [printRecord, hname]
  | some name =>
    unfold printRecord
    rw [hname]
    exact rfl

theorem uidField_of_none (p : Nat) (v : Vars) (h : uidValue rest = none) :
    uidField uid p rest v = (v, .noToken) := by
  rcases uidValue_eq_none.mp h with hcolon | ⟨tok, rest', hcolon, htab⟩
  · simp only [uidField, hcolon]
  · simp only [uidField, hcolon, htab]

theorem uidBranch_follows (hf : AfterToken f (bytes "Uid") rest) {p : Nat}
    (hp : rest = [] ∨ f.saveptr = p) :
    Follows f (uidField uid p rest f.vars) (uidBranch uid f) := by
  cases hvalue : uidValue rest with
  | none =>
    rcases uidBranch_noToken uid hf hvalue with ⟨line, token, saveptr, heq⟩
    rw [uidField_of_none uid p f.vars hvalue, heq]
    exact ⟨_, rfl, rfl, rfl⟩
  | some found =>
    rcases found with ⟨tabbed, value⟩
    rcases uidValue_eq_some.mp hvalue with ⟨tok, rest', rest'', hcut, htab, -⟩
    by_cases hblank : tabbed = true ∧ Blank value
    · rcases hblank with ⟨rfl, hblank⟩
      obtain ⟨why, line, token, saveptr, call, -, heq⟩ :=
        uidBranch_blank uid hf ⟨value, hvalue, hblank⟩
      simp only [uidField, hcut, htab, strip_of_blank hblank, heq]
      exact ⟨why, _, rfl, rfl⟩
    · obtain ⟨line, token, saveptr, call, -, hstr, htoken, heq⟩ :=
        uidBranch_value uid hf hvalue fun h hb => hblank ⟨h, hb⟩
      have hne : rest ≠ [] := by
        rintro rfl
        simp [nextToken, strspn] at hcut
      obtain rfl : f.saveptr = p := hp.resolve_left hne
      obtain rfl := htoken tok rest' hcut
      simp only [uidField, hcut, htab, heq]
      cases getInt (strip value) GN_ANY_BASE "realuid" with
      | error texts => exact ⟨_, _, rfl, rfl⟩
      | ok realuid =>
        simp only [printRecord_eq]
        cases hname : f.vars.name with
        | none => exact ⟨_, rfl, by simp, rfl⟩
        | some name =>
          by_cases hrec : (uid.toNat : Int) = realuid ∧ f.vars.pid ≠ -1
          · simp only [if_pos hrec, Option.isSome_some, true_and]
            exact ⟨_, name, rfl, rfl, by simp, rfl, hstr⟩
          · simp only [if_neg hrec, Option.isSome_some, true_and]
            exact ⟨_, rfl, by simp, rfl⟩

theorem lineBody_follows (hs : f.line.cstr 0 = some s) :
    Follows f (fieldLine uid s f.vars) (lineBody uid f) := by
  cases hcut : nextToken colon s with
  | none =>
    rcases lineBody_noToken uid hs hcut with ⟨saveptr, heq⟩
    simp only [fieldLine, hcut, heq]
    exact ⟨_, rfl, rfl, rfl⟩
  | some cut =>
    rcases cut with ⟨tok, rest⟩
    by_cases hpid : tok = bytes "Pid"
    · subst hpid
      cases hcut' : nextToken colon rest with
      | none =>
        rcases lineBody_pid_noToken uid hs hcut hcut' with ⟨line, token, saveptr, heq⟩
        simp only [fieldLine, hcut, hcut', if_true, heq]
        exact ⟨_, rfl, rfl, rfl⟩
      | some cut' =>
        rcases lineBody_pid uid hs hcut hcut' with ⟨line, token, saveptr, call, -, heq⟩
        simp only [fieldLine, hcut, hcut', if_true, heq]
        cases getInt (strip cut'.1) GN_GT_0 "pid" with
        | error texts => exact ⟨_, _, rfl, rfl⟩
        | ok pid => exact ⟨_, rfl, rfl, rfl⟩
    by_cases hname : tok = bytes "Name"
    · subst hname
      cases hcut' : nextToken colon rest with
      | none =>
        rcases lineBody_name_noToken uid hs hcut hcut' with ⟨line, token, saveptr, heq⟩
        simp only [fieldLine, hcut, if_neg hpid, hcut', if_true, heq]
        exact ⟨_, rfl, rfl, rfl⟩
      | some cut' =>
        rcases cut' with ⟨tok', rest'⟩
        rcases lineBody_name uid hs hcut hcut' with ⟨line, saveptr, call, -, heq, hsave, hafter⟩
        simp only [fieldLine, hcut, if_neg hpid, hcut', if_true, heq]
        by_cases hkey : strip tok' = bytes "Uid"
        · rw [hkey] at hafter
          simp only [if_pos hkey]
          exact (uidBranch_follows uid hafter hsave).congr rfl
        · rw [if_neg hkey, uidBranch_skip uid hafter.cstr_token hkey]
          exact ⟨_, rfl, rfl, rfl⟩
    by_cases huid : tok = bytes "Uid"
    · subst huid
      rcases lineBody_uid uid hs hcut with ⟨line, saveptr, heq, hsave, hafter⟩
      simp only [fieldLine, hcut, if_neg hpid, if_neg hname, if_true, heq]
      exact (uidBranch_follows uid hafter hsave).congr rfl
    · rcases lineBody_other uid hs hcut hpid hname huid with ⟨line, token, saveptr, heq⟩
      simp only [fieldLine, hcut, if_neg hpid, if_neg hname, if_neg huid, heq]
      exact ⟨_, rfl, rfl, rfl⟩

/-- The loop over the buffer, begun with the output `out`, ended with `g` and `why`
    as the run `r` of the model says. -/
def Ends (out : List Out) (r : FieldRun) (g : Frame Vars) (why : Option Stop) : Prop :=
  match r.last with
  | .record k value => r.vars.name = some k → why = none ∧
      g.out = out ++ List.replicate r.noTokens .noToken ++ [.record r.vars.pid value]
  | .stop => why.isSome ∧ g.out = out ++ List.replicate r.noTokens .noToken
  | _ => why = none ∧ g.out = out ++ List.replicate r.noTokens .noToken

theorem Ends.noToken {out : List Out} {r : FieldRun} {g : Frame Vars} {why : Option Stop}
    (h : Ends (out ++ [.noToken]) r g why) :
    Ends out { r with noTokens := r.noTokens + 1 } g why := by
  have hout : out ++ [.noToken] ++ List.replicate r.noTokens .noToken =
      out ++ List.replicate (r.noTokens + 1) .noToken := by
    rw [List.append_assoc, List.singleton_append, ← List.replicate_succ]
  simpa only [Ends, hout] using h

theorem lineLoop_follows {chunks : List Bytes} (hlen : ∀ chunk ∈ chunks, chunk.length ≤ 127) :
    ∀ f : Frame Vars, Ends f.out (fieldLoop uid chunks f.vars)
      (lineLoop Vars.again (lineBody uid) chunks f).1
      (lineLoop Vars.again (lineBody uid) chunks f).2 := by
  induction chunks with
  | nil =>
    intro f
    simp [fieldLoop, lineLoop, Ends]
  | cons chunk chunks ih =>
    intro f
    by_cases hagain : f.vars.again = true
    · have hline := f.cstr_fgets (hlen chunk (by simp))
      have hstep : Follows (f.fgets chunk) (fieldLine uid (lineString chunk) f.vars)
          (lineBody uid (f.fgets chunk)) := lineBody_follows uid hline
      have ih' := ih fun c hc => hlen c (by simp [hc])
      simp only [fieldLoop, lineLoop, if_pos hagain]
      -- one case for each end of the line
      obtain ⟨⟨v, last⟩, hfield⟩ :
          ∃ r, fieldLine uid (lineString chunk) f.vars = r := ⟨_, rfl⟩
      rw [hfield] at hstep ⊢
      cases last with
      | next =>
        rcases hstep with ⟨g, heq, rfl, hout⟩
        rw [heq]
        have hends := ih' g
        rw [hout] at hends
        exact hends
      | noToken =>
        rcases hstep with ⟨g, heq, rfl, hout⟩
        rw [heq]
        have hends := ih' g
        rw [hout] at hends
        exact hends.noToken
      | record k value =>
        rcases hstep with ⟨g, name, heq, hname, rfl, hout, hstr⟩
        intro hk
        obtain rfl : name = k := by simpa [hname] using hk
        rw [heq, printed, hstr]
        exact ⟨rfl, by simp [hout, Frame.fgets]⟩
      | stop =>
        rcases hstep with ⟨why, g, heq, hout⟩
        rw [heq]
        exact ⟨rfl, by simpa [Frame.fgets] using hout⟩
    · simp only [fieldLoop, lineLoop, if_neg hagain]
      exact ⟨rfl, by simp⟩

def fieldRun (uid : UInt32) (chunks : List Bytes) : FieldRun :=
  fieldLoop uid chunks ⟨-1, none, -1⟩

/-- Up to its `fclose`, `readfdata` on an open stream does what the model says. -/
theorem readfdata_follows (fst : Stream) (stale : CharArray 128) :
    ∃ g why, Ends [] (fieldRun uid (fst.lines 127)) g why ∧
      readfdata (.ok fst) stale uid =
        (g, why <|> if fst.fcloseErr.isSome then some (.errExit "close") else none) := by
  have hends := lineLoop_follows uid (fun _ => fst.length_le_of_mem_lines (by decide))
    ⟨stale, 0, 0, ⟨-1, none, -1⟩, [], []⟩
  refine ⟨_, _, hends, ?_⟩
  simp only [readfdata]
  split <;> rename_i heq <;> simp [heq]

end LinuxPractice.Chap12.UserProcs
