import LinuxPractice.Chap12.Pstree

/-!
# The fields model of `pstree_implementation.c`

As for `p_id_cmdn_si.c`, the line loop without its buffer.  Here the `Name` branch
is the last one, so a line is one field: a value that `getInt` accepts is no key,
and the value of a `Name` line is not tested again.
-/

namespace LinuxPractice.Chap12.Pstree

open LinuxPractice.CLib LinuxPractice.Tlpi

/-- A line as the loop body takes it, with the trimmed value. -/
inductive Field where
  | noToken
  | other
  | pid (value : Bytes)
  | ppid (value : Bytes)
  | name (value : Bytes)
deriving DecidableEq

def valueField (rest : Bytes) (mk : Bytes → Field) : Field :=
  match nextToken colon rest with
  | none => .noToken
  | some (value, _) => mk (strip value)

def field (s : Bytes) : Field :=
  match nextToken colon s with
  | none => .noToken
  | some (tok, rest) =>
    if tok = bytes "Pid" then valueField rest .pid
    else if tok = bytes "PPid" then valueField rest .ppid
    else if tok = bytes "Name" then valueField rest .name
    else .other

/-- What a field does to the variables and what it prints; `none` if `getInt` ends
    the program. -/
def applyField (v : Vars) : Field → Option (Vars × List Out)
  | .noToken => some (v, [.noToken])
  | .other => some (v, [])
  | .pid value =>
    match getInt value GN_ANY_BASE "pid" with
    | .error _ => none
    | .ok pid => some ({ v with pid, errno := 0 }, [.pidLine value pid])
  | .ppid value =>
    match getInt value GN_ANY_BASE "ppid" with
    | .error _ => none
    | .ok ppid => some ({ v with ppid, errno := 0 }, [.ppidLine value ppid])
  | .name value => some (v, [.nameLine value])

def fieldLoop : List Bytes → Vars → Option (Vars × List Out)
  | [], v => some (v, [])
  | chunk :: chunks, v =>
    match applyField v (field (lineString chunk)) with
    | none => none
    | some (w, out) => (fieldLoop chunks w).map fun r => (r.1, out ++ r.2)

/-! ### The branches -/

/-- The loop body, begun in `f`, did what the model answers. -/
def Follows (f : Frame Vars) : Option (Vars × List Out) → Step → Prop
  | none, r => ∃ why g, r = .error (.stop why g)
  | some (v, out), r =>
    ∃ g, (r = .ok g ∨ r = .error (.cont g)) ∧ g.vars = v ∧ g.out = f.out ++ out

variable {f : Frame Vars} {tok rest tok' rest' s : Bytes}

section NumBranch

variable {key : String} (name : String) (assign : Vars → Int → Vars) (line : Bytes → Int → Out)

theorem numBranch_skip (h : f.line.cstr f.token = some tok) (hne : tok ≠ bytes key) :
    numBranch key name assign line f = .ok f := by
  simp only [numBranch, Frame.text_of_cstr h, bind, Except.bind, if_neg hne]
  rfl

theorem numBranch_noToken (hf : AfterToken f (bytes key) rest) (h : nextToken colon rest = none) :
    ∃ g, numBranch key name assign line f = .error (.cont g) ∧ g.vars = f.vars ∧
      g.out = f.out ++ [.noToken] := by
  rcases Frame.strtok_of_none hf.cstr_save h with ⟨saveptr, hcut⟩
  refine ⟨{ f with saveptr, out := f.out ++ [.noToken] }, ?_, rfl, rfl⟩
  simp only [numBranch, Frame.text_of_cstr hf.cstr_token, bind, Except.bind, if_true, hcut]

theorem numBranch_field (hf : AfterToken f (bytes key) rest)
    (h : nextToken colon rest = some (tok', rest')) :
    match getInt (strip tok') GN_ANY_BASE name with
    | .error _ => ∃ why g, numBranch key name assign line f = .error (.stop why g)
    | .ok value => ∃ g, numBranch key name assign line f = .ok g ∧
        g.line.cstr g.token = some (strip tok') ∧
        g.vars = assign { f.vars with errno := 0 } value ∧
        g.out = f.out ++ [line (strip tok') value] := by
  rcases Frame.field_of_some hf h with ⟨f₁, buf, saveptr, call, hcut, htrim, -, -, hafter⟩
  let g : Frame Vars := { f with line := buf, token := f.saveptr + strspn rest colon, saveptr,
                                 trims := f.trims ++ [call] }
  have hget' : g.getIntToken GN_ANY_BASE name = _ := Frame.getIntToken_of_cstr hafter.cstr_token _ _
  have htext : g.text = .ok (strip tok') := Frame.text_of_cstr hafter.cstr_token
  simp only [g] at hget' htext
  cases hget : getInt (strip tok') GN_ANY_BASE name with
  | error texts =>
    refine ⟨.gnFail texts, g, ?_⟩
    simp only [numBranch, Frame.text_of_cstr hf.cstr_token, bind, Except.bind, if_true, hcut,
      htrim, hget', hget, g]
  | ok value =>
    refine ⟨{ g with vars := assign { g.vars with errno := 0 } value,
                     out := g.out ++ [line (strip tok') value] }, ?_, hafter.cstr_token, rfl, rfl⟩
    simp only [numBranch, Frame.text_of_cstr hf.cstr_token, bind, Except.bind, if_true, hcut,
      htrim, hget', hget, htext, g]
    rfl

end NumBranch

theorem nameBranch_skip (h : f.line.cstr f.token = some tok) (hne : tok ≠ bytes "Name") :
    nameBranch f = .ok f := by
  simp only [nameBranch, Frame.text_of_cstr h, bind, Except.bind, if_neg hne]
  rfl

theorem nameBranch_noToken (hf : AfterToken f (bytes "Name") rest)
    (h : nextToken colon rest = none) :
    ∃ g, nameBranch f = .error (.cont g) ∧ g.vars = f.vars ∧ g.out = f.out ++ [.noToken] := by
  rcases Frame.strtok_of_none hf.cstr_save h with ⟨saveptr, hcut⟩
  refine ⟨{ f with saveptr, out := f.out ++ [.noToken] }, ?_, rfl, rfl⟩
  simp only [nameBranch, Frame.text_of_cstr hf.cstr_token, bind, Except.bind, if_true, hcut]

theorem nameBranch_field (hf : AfterToken f (bytes "Name") rest)
    (h : nextToken colon rest = some (tok', rest')) :
    ∃ g, nameBranch f = .ok g ∧ g.vars = f.vars ∧ g.out = f.out ++ [.nameLine (strip tok')] := by
  rcases Frame.field_of_some hf h with ⟨f₁, buf, saveptr, call, hcut, htrim, -, -, hafter⟩
  refine ⟨{ f with line := buf, token := f.saveptr + strspn rest colon, saveptr,
                   trims := f.trims ++ [call], out := f.out ++ [.nameLine (strip tok')] },
    ?_, rfl, rfl⟩
  simp only [nameBranch, Frame.text_of_cstr hf.cstr_token, bind, Except.bind, if_true, hcut, htrim,
    Frame.text_of_cstr hafter.cstr_token]
  rfl

/-! ### The loop over the buffer follows the model -/

theorem ne_key_of_getInt {name : String} {v : Int} (h : getInt tok GN_ANY_BASE name = .ok v) :
    tok ≠ bytes "PPid" ∧ tok ≠ bytes "Name" := by
  constructor
  · exact ne_of_getInt h rfl
  · exact ne_of_getInt h rfl

theorem applyField_valueField (v : Vars) (rest : Bytes) (mk : Bytes → Field) :
    applyField v (valueField rest mk) =
      match nextToken colon rest with
      | none => some (v, [.noToken])
      | some (value, _) => applyField v (mk (strip value)) := by
  unfold valueField
  cases nextToken colon rest <;> rfl

theorem Follows.congr {f f' : Frame Vars} {r : Option (Vars × List Out)} {step : Step}
    (h : Follows f' r step) (hout : f'.out = f.out) : Follows f r step := by
  cases r with
  | none => exact h
  | some r =>
    rcases r with ⟨v, out⟩
    simpa only [Follows, hout] using h

/-- A line with a numeric key, once the branches before its own have passed it on. -/
theorem follows_num {key : String} (name : String) (assign : Vars → Int → Vars)
    (line : Bytes → Int → Out) (next : Frame Vars → Step) (hf : AfterToken f (bytes key) rest)
    (hnext : ∀ g v, g.line.cstr g.token = some v → v ≠ bytes "PPid" ∧ v ≠ bytes "Name" →
      next g = .ok g) :
    Follows f
      (match nextToken colon rest with
        | none => some (f.vars, [.noToken])
        | some (value, _) =>
          match getInt (strip value) GN_ANY_BASE name with
          | .error _ => none
          | .ok v => some (assign { f.vars with errno := 0 } v, [line (strip value) v]))
      (numBranch key name assign line f >>= next) := by
  cases hcut : nextToken colon rest with
  | none =>
    rcases numBranch_noToken name assign line hf hcut with ⟨g, hbranch, hvars, hout⟩
    exact ⟨g, .inr (by rw [hbranch]; rfl), hvars, hout⟩
  | some cut =>
    rcases cut with ⟨value, rest'⟩
    have hbranch := numBranch_field name assign line hf hcut
    cases hget : getInt (strip value) GN_ANY_BASE name with
    | error texts =>
      simp only [hget] at hbranch ⊢
      rcases hbranch with ⟨why, g, heq⟩
      exact ⟨why, g, by rw [heq]; rfl⟩
    | ok v =>
      simp only [hget] at hbranch ⊢
      rcases hbranch with ⟨g, heq, hstr, hvars, hout⟩
      refine ⟨g, .inl ?_, hvars, hout⟩
      rw [heq]
      exact hnext g _ hstr (ne_key_of_getInt hget)

theorem lineBody_follows (hs : f.line.cstr 0 = some s) :
    Follows f (applyField f.vars (field s)) (lineBody f) := by
  cases hcut : nextToken colon s with
  | none =>
    rcases Frame.strtok_of_none hs hcut with ⟨saveptr, heq⟩
    simp only [field, hcut, lineBody, bind, Except.bind, heq]
    exact ⟨_, .inr rfl, rfl, rfl⟩
  | some cut =>
    rcases cut with ⟨tok, rest⟩
    rcases Frame.strtok_line hs hcut with ⟨buf, saveptr, heq, -, hafter⟩
    have hbody : lineBody f =
        (pidBranch { f with line := buf, token := strspn s colon, saveptr } >>= fun g =>
          ppidBranch g >>= nameBranch) := by
      rw [lineBody, heq]
      rfl
    rw [hbody]
    by_cases hpid : tok = bytes "Pid"
    · subst hpid
      have hfield : field s = valueField rest .pid := by simp only [field, hcut, if_true]
      rw [hfield, applyField_valueField]
      apply (follows_num "pid" (fun v pid => { v with pid }) .pidLine
        (fun g => ppidBranch g >>= nameBranch) hafter _).congr rfl
      intro g v hstr hkey
      have hppid : ppidBranch g = .ok g := numBranch_skip _ _ _ hstr hkey.1
      rw [hppid]
      exact nameBranch_skip hstr hkey.2
    have hpass : pidBranch { f with line := buf, token := strspn s colon, saveptr } =
        .ok { f with line := buf, token := strspn s colon, saveptr } :=
      numBranch_skip _ _ _ hafter.cstr_token hpid
    rw [hpass]
    by_cases hppid : tok = bytes "PPid"
    · subst hppid
      have hfield : field s = valueField rest .ppid := by
        simp only [field, hcut, if_neg hpid, if_true]
      rw [hfield, applyField_valueField]
      apply (follows_num "ppid" (fun v ppid => { v with ppid }) .ppidLine nameBranch
        hafter _).congr rfl
      intro g v hstr hkey
      exact nameBranch_skip hstr hkey.2
    have hpass' : ppidBranch { f with line := buf, token := strspn s colon, saveptr } =
        .ok { f with line := buf, token := strspn s colon, saveptr } :=
      numBranch_skip _ _ _ hafter.cstr_token hppid
    simp only [field, hcut, if_neg hpid, if_neg hppid, bind, Except.bind, hpass']
    by_cases hname : tok = bytes "Name"
    · subst hname
      simp only [if_true, valueField]
      cases hcut' : nextToken colon rest with
      | none =>
        rcases nameBranch_noToken hafter hcut' with ⟨g, hbranch, hvars, hout⟩
        exact ⟨g, .inr hbranch, hvars, hout⟩
      | some cut' =>
        rcases nameBranch_field hafter hcut' with ⟨g, hbranch, hvars, hout⟩
        exact ⟨g, .inl hbranch, hvars, hout⟩
    · simp only [if_neg hname, nameBranch_skip hafter.cstr_token hname]
      exact ⟨_, .inl rfl, rfl, by simp⟩

theorem lineLoop_follows {chunks : List Bytes} (hlen : ∀ chunk ∈ chunks, chunk.length ≤ 127) :
    ∀ f : Frame Vars,
      match fieldLoop chunks f.vars with
      | none => (lineLoop (fun _ => true) lineBody chunks f).2.isSome
      | some (v, out) => (lineLoop (fun _ => true) lineBody chunks f).2 = none ∧
          (lineLoop (fun _ => true) lineBody chunks f).1.vars = v ∧
          (lineLoop (fun _ => true) lineBody chunks f).1.out = f.out ++ out := by
  induction chunks with
  | nil =>
    intro f
    simp [fieldLoop, lineLoop]
  | cons chunk chunks ih =>
    intro f
    have hstep : Follows (f.fgets chunk) (applyField f.vars (field (lineString chunk)))
        (lineBody (f.fgets chunk)) := lineBody_follows (f.cstr_fgets (hlen chunk (by simp)))
    have ih' := ih fun c hc => hlen c (by simp [hc])
    cases happly : applyField f.vars (field (lineString chunk)) with
    | none =>
      rw [happly] at hstep
      rcases hstep with ⟨why, g, heq⟩
      simp only [fieldLoop, happly]
      rw [lineLoop_cons_stop rfl heq]
      rfl
    | some r =>
      rcases r with ⟨w, out⟩
      rw [happly] at hstep
      rcases hstep with ⟨g, heq, hvars, hout⟩
      have hrest := ih' g
      rw [hvars] at hrest
      simp only [fieldLoop, happly]
      rw [lineLoop_cons_next rfl heq]
      cases hloop : fieldLoop chunks w with
      | none =>
        rw [hloop] at hrest
        exact hrest
      | some r =>
        rw [hloop] at hrest
        rcases hrest with ⟨hstop, hvars', hout'⟩
        refine ⟨hstop, hvars', ?_⟩
        rw [hout', hout]
        simp [Frame.fgets]

theorem readfdata_follows (fst : Stream) (stale : CharArray 128) (errno : Nat) :
    match fieldLoop (fst.lines 127) ⟨-1, -1, errno⟩ with
    | none => (readfdata (.ok fst) stale errno).2.isSome
    | some (v, out) => fst.fcloseErr = none →
        (readfdata (.ok fst) stale errno).2 = none ∧
        (readfdata (.ok fst) stale errno).1.vars =
          { v with errno := ((fst.lastErr 127).map Errno.val).getD v.errno } ∧
        (readfdata (.ok fst) stale errno).1.out = out ++ [.childPid] := by
  have hloop := lineLoop_follows (fun _ => fst.length_le_of_mem_lines (by decide))
    ⟨stale, 0, 0, ⟨-1, -1, errno⟩, [], []⟩
  obtain ⟨⟨g, why⟩, hrun⟩ : ∃ r, lineLoop (fun _ => true) lineBody (fst.lines 127)
    ⟨stale, 0, 0, ⟨-1, -1, errno⟩, [], []⟩ = r := ⟨_, rfl⟩
  rw [hrun] at hloop
  simp only [readfdata, hrun]
  cases hfield : fieldLoop (fst.lines 127) ⟨-1, -1, errno⟩ with
  | none =>
    rw [hfield] at hloop
    rcases Option.isSome_iff_exists.mp hloop with ⟨why, rfl⟩
    rfl
  | some r =>
    rcases r with ⟨v, out⟩
    rw [hfield] at hloop
    rcases hloop with ⟨rfl, hvars, hout⟩
    intro hclose
    simp only [List.nil_append] at hvars hout
    simp only [hclose]
    cases fst.lastErr 127 with
    | none => simp [hvars, hout]
    | some e => simp [hvars, hout]

theorem fieldLoop_append (chunks chunks' : List Bytes) (v : Vars) :
    fieldLoop (chunks ++ chunks') v =
      (fieldLoop chunks v).bind fun r =>
        (fieldLoop chunks' r.1).map fun r' => (r'.1, r.2 ++ r'.2) := by
  induction chunks generalizing v with
  | nil => simp [fieldLoop]
  | cons chunk chunks ih =>
    simp only [List.cons_append, fieldLoop]
    cases applyField v (field (lineString chunk)) with
    | none => rfl
    | some r =>
      simp only [ih]
      cases fieldLoop chunks r.1 with
      | none => rfl
      | some r' => simp [Function.comp_def]

end LinuxPractice.Chap12.Pstree
