import LinuxPractice.Chap12.StatusText

/-!
# Which processes `p_id_cmdn_si.c` lists

The run of `readfdata` on a status file of the kernel, cut off wherever `fgets`
fails.  Only the three key lines count (`fieldRun_lines`); of these the `Name` line
can end the program or take the place of the `Uid` line.
-/

namespace LinuxPractice.Chap12.UserProcs

open LinuxPractice.CLib LinuxPractice.Tlpi

variable (uid : UInt32) (v : Vars)

/-! ### Only the key lines count -/

theorem fieldLoop_of_not_again {v : Vars} (h : v.again = false) (chunks : List Bytes) :
    fieldLoop uid chunks v = ⟨0, v, .next⟩ := by
  cases chunks with
  | nil => rfl
  | cons chunk chunks => simp [fieldLoop, h]

theorem fieldLoop_cons {v w : Vars} {last : LineEnd} {chunk : Bytes} (hagain : v.again = true)
    (hline : fieldLine uid (lineString chunk) v = (w, last)) (chunks : List Bytes) :
    fieldLoop uid (chunk :: chunks) v =
      match last with
      | .next => fieldLoop uid chunks w
      | .noToken =>
        let r := fieldLoop uid chunks w
        { r with noTokens := r.noTokens + 1 }
      | last => ⟨0, w, last⟩ := by
  simp only [fieldLoop, hagain, if_true, hline]
  cases last <;> rfl

theorem fieldLoop_others (ls : List OtherLine) (chunks : List Bytes) :
    fieldLoop uid ((ls.map OtherLine.body).map (· ++ [newline]) ++ chunks) v =
      fieldLoop uid chunks v := by
  cases hagain : v.again with
  | false => rw [fieldLoop_of_not_again uid hagain, fieldLoop_of_not_again uid hagain]
  | true =>
    induction ls with
    | nil => rfl
    | cons l ls ih =>
      simp only [List.map_cons, List.cons_append, fieldLoop, hagain, if_true, fieldLine_other]
      exact ih

theorem fieldLoop_cons_congr (chunk : Bytes) {chunks chunks' : List Bytes}
    (h : ∀ v, fieldLoop uid chunks v = fieldLoop uid chunks' v) :
    fieldLoop uid (chunk :: chunks) v = fieldLoop uid (chunk :: chunks') v := by
  simp only [fieldLoop, h]

theorem fieldLoop_take_others (ls : List OtherLine) (key : Bytes) (chunks : List Bytes)
    (calls : Nat) :
    fieldLoop uid
        (((ls.map OtherLine.body).map (· ++ [newline]) ++ key :: chunks).take calls) v =
      if calls ≤ ls.length then ⟨0, v, .next⟩
      else fieldLoop uid (key :: chunks.take (calls - ls.length - 1)) v := by
  by_cases hle : calls ≤ ls.length
  · rw [if_pos hle, List.take_append_of_le_length (by simpa using hle), ← List.map_take,
      ← List.map_take]
    simpa [fieldLoop] using fieldLoop_others uid v (ls.take calls) []
  · obtain ⟨k, rfl⟩ : ∃ k, calls = ls.length + (k + 1) := ⟨calls - ls.length - 1, by omega⟩
    have hlen : ((ls.map OtherLine.body).map (· ++ [newline])).length = ls.length := by simp
    have htake : ls.length + (k + 1) - ls.length - 1 = k := by omega
    rw [if_neg hle, htake, ← hlen, List.take_length_add_append, fieldLoop_others,
      List.take_succ_cons]

namespace StatusText

def keyLines (t : StatusText) : List Bytes :=
  [nameBody t.name ++ [newline], pidBody t.pid ++ [newline],
    uidBody t.ruid t.euid t.suid t.fsuid ++ [newline]]

/-- How many of the key lines are among the first `calls` lines. -/
def keysIn (t : StatusText) (calls : Nat) : Nat :=
  if calls ≤ t.first.length then 0
  else if calls - t.first.length - 1 ≤ t.afterName.length then 1
  else if calls - t.first.length - 1 - t.afterName.length - 1 ≤ t.afterPid.length then 2
  else 3

/-- How many of the key lines `fgets` can deliver before it fails. -/
def keysRead (t : StatusText) : Option (Nat × Errno) → Nat
  | none => 3
  | some (calls, _) => t.keysIn calls

end StatusText

theorem fieldLoop_take (t : StatusText) (calls : Nat) :
    fieldLoop uid ((t.bodies.map (· ++ [newline])).take calls) v =
      fieldLoop uid (t.keyLines.take (t.keysIn calls)) v := by
  simp only [StatusText.bodies, List.map_append, List.map_cons]
  rw [fieldLoop_take_others]
  unfold StatusText.keysIn
  by_cases hname : calls ≤ t.first.length
  · simp [hname, fieldLoop]
  by_cases hpid : calls - t.first.length - 1 ≤ t.afterName.length
  · simp only [if_neg hname, if_pos hpid]
    refine fieldLoop_cons_congr uid v _ fun w => ?_
    rw [fieldLoop_take_others, if_pos hpid]
    rfl
  by_cases huid : calls - t.first.length - 1 - t.afterName.length - 1 ≤ t.afterPid.length
  · simp only [if_neg hname, if_neg hpid, if_pos huid]
    refine fieldLoop_cons_congr uid v _ fun w => ?_
    rw [fieldLoop_take_others, if_neg hpid]
    refine fieldLoop_cons_congr uid w _ fun w => ?_
    rw [fieldLoop_take_others, if_pos huid]
    rfl
  · simp only [if_neg hname, if_neg hpid, if_neg huid]
    refine fieldLoop_cons_congr uid v _ fun w => ?_
    rw [fieldLoop_take_others, if_neg hpid]
    refine fieldLoop_cons_congr uid w _ fun w => ?_
    rw [fieldLoop_take_others, if_neg huid]
    refine fieldLoop_cons_congr uid w _ fun w => ?_
    rw [← List.map_take, ← List.map_take]
    simpa [fieldLoop] using fieldLoop_others uid w (t.afterUid.take _) []

/-- The run on a status file is the run on the key lines delivered of it. -/
theorem fieldRun_lines (t : StatusText) (fgetsErr : Option (Nat × Errno))
    (fcloseErr : Option Errno) :
    fieldRun uid (Stream.lines 127 ⟨t.text, fgetsErr, fcloseErr⟩) =
      fieldRun uid (t.keyLines.take (t.keysRead fgetsErr)) := by
  cases fgetsErr with
  | some err => simp only [fieldRun, Stream.lines, t.fgetsLines_text, fieldLoop_take]; rfl
  | none =>
    -- without a failure, as if `fgets` failed behind the last line
    have hkeys : t.keysIn t.bodies.length = 3 := by
      simp only [StatusText.keysIn, StatusText.bodies, List.length_append, List.length_map,
        List.length_cons]
      repeat rw [if_neg (by omega)]
    have htake : t.bodies.map (· ++ [newline]) =
        (t.bodies.map (· ++ [newline])).take t.bodies.length := by
      rw [List.take_of_length_le (by simp)]
    simp only [fieldRun, Stream.lines, t.fgetsLines_text]
    rw [htake, fieldLoop_take, hkeys]
    rfl

/-! ### The run on the key lines -/

/-- What the test of a process name against the key `Uid` does. -/
inductive NameEffect where
  /-- No uid is taken from the name, or the `-1` that stands for none yet. -/
  | harmless
  | taken
  /-- `getInt` rejects the value behind the forged key. -/
  | rejected
deriving DecidableEq

def nameEffect (name : Bytes) : NameEffect :=
  match forgedUid name with
  | none => .harmless
  | some value =>
    match getInt value GN_ANY_BASE "realuid" with
    | .error _ => .rejected
    | .ok realuid => if realuid = -1 then .harmless else .taken

theorem fieldLine_nameEffect {name : Bytes} (hname : (0 : UInt8) ∉ name) (hpid : v.pid = -1)
    (hrealuid : v.realuid = -1) :
    ∃ w last, fieldLine uid (lineString (nameBody name ++ [newline])) v = (w, last) ∧
      match nameEffect name with
      | .harmless => w = { v with name := some 5 } ∧ (last = .next ∨ last = .noToken)
      | .taken => (∃ realuid, realuid ≠ -1 ∧ w = { v with name := some 5, realuid }) ∧
          last = .next
      | .rejected => last = .stop := by
  cases hforged : forgedUid name with
  | none =>
    rcases fieldLine_name_plain uid v hname hforged with ⟨last, hlast, heq⟩
    exact ⟨_, last, heq, by simpa [nameEffect, hforged] using hlast⟩
  | some value =>
    rw [fieldLine_name_forged uid v hname hpid hforged]
    cases hget : getInt value GN_ANY_BASE "realuid" with
    | error texts => exact ⟨_, _, rfl, by simp [nameEffect, hforged, hget]⟩
    | ok realuid =>
      refine ⟨_, _, rfl, ?_⟩
      by_cases hnone : realuid = -1
      · simp [nameEffect, hforged, hget, hnone, hrealuid]
      · simp only [nameEffect, hforged, hget, if_neg hnone]
        exact ⟨⟨realuid, hnone, rfl⟩, trivial⟩

theorem again_of_pid_eq {v : Vars} (h : v.pid = -1) : v.again = true := by
  simp [Vars.again, h]

variable (t : StatusText)

theorem fieldLoop_pid (chunks : List Bytes) (hpid : v.pid = -1) :
    fieldLoop uid ((pidBody t.pid ++ [newline]) :: chunks) v =
      fieldLoop uid chunks { v with pid := t.pid } := by
  simp only [fieldLoop, again_of_pid_eq hpid, if_true, fieldLine_pid uid v t.pid_pos t.pid_le]

theorem fieldLoop_uid (hname : v.name = some 5) (hpid : v.pid = t.pid) (hrealuid : v.realuid = -1) :
    let r := fieldLoop uid [uidBody t.ruid t.euid t.suid t.fsuid ++ [newline]] v
    r.vars.name = some 5 ∧ r.vars.pid = t.pid ∧
      r.last = if (t.ruid : Int) ≤ INT_MAX then
          if uid.toNat = t.ruid then .record 5 (decimal t.ruid) else .next
        else .stop := by
  have hagain : v.again = true := by simp [Vars.again, hrealuid]
  have hne : v.pid ≠ -1 := by omega
  simp only [fieldLoop, hagain, if_true, fieldLine_uid uid v _ _ _ _ t.ruid_le, hname, hpid]
  by_cases hle : (t.ruid : Int) ≤ INT_MAX
  · by_cases heq : uid.toNat = t.ruid
    · simp [hle, heq]
    · simp [hle, heq]
  · simp [hle, hname, hpid]

/-- The end of the run on the first `keys` key lines. -/
def keysEnd (t : StatusText) (uid : UInt32) (keys : Nat) : LineEnd :=
  if keys = 0 then .next
  else
    match nameEffect t.name with
    | .rejected => .stop
    | .taken => .next
    | .harmless =>
      if keys < 3 then .next
      else if (t.ruid : Int) ≤ INT_MAX then
        if uid.toNat = t.ruid then .record 5 (decimal t.ruid) else .next
      else .stop

theorem fieldLoop_behind_name {keys : Nat} (hkeys : keys ≤ 2) (hname : v.name = some 5)
    (hpid : v.pid = -1) :
    let r := fieldLoop uid ((t.keyLines.drop 1).take keys) v
    (v.realuid ≠ -1 → r.last = .next) ∧
      (v.realuid = -1 → keys < 2 → r.last = .next) ∧
      (v.realuid = -1 → keys = 2 → r.vars.name = some 5 ∧ r.vars.pid = t.pid ∧
        r.last = if (t.ruid : Int) ≤ INT_MAX then
            if uid.toNat = t.ruid then .record 5 (decimal t.ruid) else .next
          else .stop) := by
  have hpos := t.pid_pos
  obtain rfl | rfl | rfl : keys = 0 ∨ keys = 1 ∨ keys = 2 := by omega
  · simp [fieldLoop]
  · simp [StatusText.keyLines, fieldLoop_pid uid v t [] hpid, fieldLoop]
  · simp only [StatusText.keyLines, List.drop_one, List.tail_cons, List.take_succ_cons,
      List.take_zero, fieldLoop_pid uid v t _ hpid]
    refine ⟨?_, by simp, ?_⟩
    · -- all three fields are there, and the loop ends before the `Uid` line
      intro hrealuid
      rw [fieldLoop_of_not_again]
      simp [Vars.again, hname, hrealuid]
    · intro hrealuid _
      exact fieldLoop_uid uid { v with pid := t.pid } t hname rfl hrealuid

theorem fieldRun_keys {keys : Nat} (hkeys : keys ≤ 3) :
    let r := fieldRun uid (t.keyLines.take keys)
    r.last = keysEnd t uid keys ∧
      (∀ k value, r.last = .record k value → r.vars.name = some 5 ∧ r.vars.pid = t.pid) := by
  cases keys with
  | zero => simp [fieldRun, fieldLoop, keysEnd]
  | succ keys =>
    obtain ⟨w, last, hline, heffect⟩ :=
      fieldLine_nameEffect uid ⟨-1, none, -1⟩ t.name_mem.2 rfl rfl
    have hrun := fieldLoop_cons uid (again_of_pid_eq rfl) hline ((t.keyLines.drop 1).take keys)
    have hsplit : fieldRun uid (t.keyLines.take (keys + 1)) =
        fieldLoop uid ((nameBody t.name ++ [newline]) :: (t.keyLines.drop 1).take keys)
          ⟨-1, none, -1⟩ := rfl
    rw [hsplit, hrun]
    simp only [keysEnd, Nat.add_eq_zero_iff, one_ne_zero, and_false, if_false]
    cases heff : nameEffect t.name with
    | harmless =>
      simp only [heff] at heffect
      rcases heffect with ⟨rfl, hlast⟩
      obtain ⟨-, hnext, huid⟩ :=
        fieldLoop_behind_name uid ⟨-1, some 5, -1⟩ t (show keys ≤ 2 by omega) rfl rfl
      by_cases htwo : keys = 2
      · rcases huid rfl htwo with ⟨hname, hpid, hend⟩
        rw [if_neg (by omega)]
        rcases hlast with rfl | rfl
        · exact ⟨hend, fun _ _ _ => ⟨hname, hpid⟩⟩
        · exact ⟨hend, fun _ _ _ => ⟨hname, hpid⟩⟩
      · have hend := hnext rfl (by omega)
        rw [if_pos (by omega)]
        rcases hlast with rfl | rfl
        · exact ⟨hend, fun _ _ h => by rw [hend] at h; cases h⟩
        · exact ⟨hend, fun _ _ h => by simp only [hend] at h; cases h⟩
    | taken =>
      simp only [heff] at heffect
      rcases heffect with ⟨⟨realuid, hne, rfl⟩, rfl⟩
      have hend := (fieldLoop_behind_name uid ⟨-1, some 5, realuid⟩ t
        (show keys ≤ 2 by omega) rfl rfl).1 hne
      exact ⟨hend, fun _ _ h => by rw [hend] at h; cases h⟩
    | rejected =>
      simp only [heff] at heffect
      subst heffect
      exact ⟨rfl, fun _ _ h => by cases h⟩

theorem StatusText.keysRead_le (fgetsErr : Option (Nat × Errno)) : t.keysRead fgetsErr ≤ 3 := by
  unfold StatusText.keysRead StatusText.keysIn
  split
  · exact le_rfl
  · split
    · omega
    · split
      · omega
      · split <;> omega

theorem keysEnd_eq_record {keys k : Nat} {value : Bytes} :
    keysEnd t uid keys = .record k value ↔
      3 ≤ keys ∧ nameEffect t.name = .harmless ∧ (t.ruid : Int) ≤ INT_MAX ∧
        uid.toNat = t.ruid ∧ k = 5 ∧ value = decimal t.ruid := by
  unfold keysEnd
  constructor
  · intro h
    split at h
    · cases h
    · cases heff : nameEffect t.name <;> simp only [heff] at h
      · split_ifs at h with hkeys hle heq
        obtain ⟨rfl, rfl⟩ : 5 = k ∧ decimal t.ruid = value := by simpa using h
        exact ⟨by omega, rfl, hle, heq, rfl, rfl⟩
      all_goals cases h
  · rintro ⟨hkeys, heff, hle, heq, rfl, rfl⟩
    simp [heff, hle, heq, show keys ≠ 0 by omega, show ¬ keys < 3 by omega]

/-! ### What `readfdata` prints -/

/-- What `readfdata` prints for a status file of which `fgets` delivers `keys` key
    lines: nothing in it depends on the bytes that `line` held before. -/
def statusOut (t : StatusText) (uid : UInt32) (keys : Nat) : List Out :=
  List.replicate (fieldRun uid (t.keyLines.take keys)).noTokens .noToken ++
    match keysEnd t uid keys with
    | .record _ value => [.record t.pid value]
    | _ => []

theorem readfdata_status (fgetsErr : Option (Nat × Errno)) (fcloseErr : Option Errno)
    (stale : CharArray 128) :
    let r := readfdata (.ok ⟨t.text, fgetsErr, fcloseErr⟩) stale uid
    r.1.out = statusOut t uid (t.keysRead fgetsErr) ∧
      (r.2.isSome ↔ keysEnd t uid (t.keysRead fgetsErr) = .stop ∨ fcloseErr.isSome) := by
  rcases readfdata_follows uid ⟨t.text, fgetsErr, fcloseErr⟩ stale with ⟨g, why, hends, heq⟩
  rcases fieldRun_keys uid t (t.keysRead_le fgetsErr) with ⟨hlast, hvars⟩
  rw [fieldRun_lines] at hends
  simp only [heq, statusOut]
  unfold Ends at hends
  rw [hlast] at hends hvars
  cases hend : keysEnd t uid (t.keysRead fgetsErr) with
  | next =>
    simp only [hend] at hends
    rcases hends with ⟨rfl, hout⟩
    simp [hout]
  | noToken =>
    simp only [hend] at hends
    rcases hends with ⟨rfl, hout⟩
    simp [hout]
  | record k value =>
    rcases (keysEnd_eq_record uid t).mp hend with ⟨-, -, -, -, rfl, -⟩
    rcases hvars _ _ hend with ⟨hname, hpid⟩
    simp only [hend, hname, hpid, forall_const] at hends
    rcases hends with ⟨rfl, hout⟩
    simp [hout]
  | stop =>
    simp only [hend] at hends
    rcases hends with ⟨hwhy, hout⟩
    rcases Option.isSome_iff_exists.mp hwhy with ⟨why, rfl⟩
    simp [hout]

theorem record_mem_statusOut {keys : Nat} {pid : Int} {name : Bytes} :
    .record pid name ∈ statusOut t uid keys ↔
      3 ≤ keys ∧ nameEffect t.name = .harmless ∧ (t.ruid : Int) ≤ INT_MAX ∧
        uid.toNat = t.ruid ∧ pid = t.pid ∧ name = decimal t.ruid := by
  have hreplicate : ∀ n, Out.record pid name ∉ List.replicate n Out.noToken := by
    intro n h
    cases List.eq_of_mem_replicate h
  have hmem : .record pid name ∈ statusOut t uid keys ↔
      keysEnd t uid keys = .record 5 name ∧ pid = t.pid := by
    unfold statusOut
    rw [List.mem_append, or_iff_right (hreplicate _)]
    cases hend : keysEnd t uid keys with
    | record k value =>
      rcases (keysEnd_eq_record uid t).mp hend with ⟨-, -, -, -, rfl, -⟩
      simp [eq_comm, and_comm]
    | _ => simp
  rw [hmem, keysEnd_eq_record]
  constructor
  · rintro ⟨⟨hkeys, heff, hmax, huid, -, hname⟩, hpid⟩
    exact ⟨hkeys, heff, hmax, huid, hpid, hname⟩
  · rintro ⟨hkeys, heff, hmax, huid, hpid, hname⟩
    exact ⟨⟨hkeys, heff, hmax, huid, rfl, hname⟩, hpid⟩

/-- For every status file and every searched uid: the record is printed just for
    the owner's uid, exactly if the owner is not the one searched for or the name has
    no effect. -/
theorem readfdata_lists_owner_iff (hruid : (t.ruid : Int) ≤ INT_MAX) (fcloseErr : Option Errno)
    (stale : CharArray 128) :
    ((∃ pid name, .record pid name ∈
        (readfdata (.ok ⟨t.text, none, fcloseErr⟩) stale uid).1.out) ↔ t.ruid = uid.toNat) ↔
      (t.ruid = uid.toNat → nameEffect t.name = .harmless) := by
  have hprints : (∃ pid name, .record pid name ∈
      (readfdata (.ok ⟨t.text, none, fcloseErr⟩) stale uid).1.out) ↔
        nameEffect t.name = .harmless ∧ t.ruid = uid.toNat := by
    rw [(readfdata_status uid t none fcloseErr stale).1]
    simp only [record_mem_statusOut]
    constructor
    · rintro ⟨pid, name, -, heff, -, heq, -⟩
      exact ⟨heff, heq.symm⟩
    · rintro ⟨heff, heq⟩
      exact ⟨t.pid, decimal t.ruid, le_rfl, heff, hruid, heq.symm, rfl, rfl⟩
  rw [hprints]
  constructor
  · intro h hown
    exact (h.mpr hown).1
  · intro h
    exact ⟨fun hprinted => hprinted.2, fun hown => ⟨h hown, hown⟩⟩

theorem length_uidBody_lt {ruid : Nat} (hruid : ruid ≤ 2 ^ 32 - 2) :
    (uidBody ruid ruid ruid ruid).length + 1 < 128 := by
  have hdigits : (decimal ruid).length ≤ 10 := length_decimal_le (by decide) (by omega)
  have hkey : (bytes "Uid:\t").length = 5 := by decide
  simp only [uidBody, List.length_append, List.length_cons, hkey]
  omega

/-- The status file of process 7 with this name and owner, and only its key lines. -/
def shortStatus (name : Bytes) (ruid : Nat) (hname : newline ∉ name ∧ 0 ∉ name)
    (hshort : (nameBody name).length + 1 < 128) (hruid : ruid ≤ 2 ^ 32 - 2) : StatusText where
  first := []
  name
  afterName := []
  pid := 7
  afterPid := []
  ruid
  euid := ruid
  suid := ruid
  fsuid := ruid
  afterUid := []
  name_mem := hname
  name_short := hshort
  pid_pos := by decide
  pid_le := by decide
  pid_short := by decide
  ruid_le := hruid
  uid_short := length_uidBody_lt hruid

def bashStatus : StatusText := shortStatus (bytes "bash") 1000 (by decide) (by decide) (by decide)

def forgedStatus : StatusText :=
  shortStatus (bytes "Uid:5") 1000 (by decide) (by decide) (by decide)

theorem readfdata_lists_owner_bash :
    (∃ pid name, .record pid name ∈
      (readfdata (.ok ⟨bashStatus.text, none, none⟩) (.zeros 128) 1000).1.out) ↔
        1000 = (1000 : UInt32).toNat :=
  (readfdata_lists_owner_iff 1000 bashStatus (by decide) none (.zeros 128)).mpr
    fun _ => by decide +kernel

/-- A process that calls itself `Uid:5` is not listed for its owner. -/
theorem readfdata_lists_owner_forged :
    ¬ ((∃ pid name, .record pid name ∈
      (readfdata (.ok ⟨forgedStatus.text, none, none⟩) (.zeros 128) 1000).1.out) ↔
        1000 = (1000 : UInt32).toNat) := by
  have hout : (readfdata (.ok ⟨forgedStatus.text, none, none⟩) (.zeros 128) 1000).1.out = [] := by
    decide +kernel
  rw [hout]
  simp

/-- The printed record has the pid of the file, and as its name the real uid: `name`
    points to offset 5 of `line`, where the `Uid` line has put its value. -/
theorem readfdata_record_name_iff (fgetsErr : Option (Nat × Errno)) (fcloseErr : Option Errno)
    (stale : CharArray 128) {pid : Int} {name : Bytes}
    (h : .record pid name ∈
      (readfdata (.ok ⟨t.text, fgetsErr, fcloseErr⟩) stale uid).1.out) :
    (pid = t.pid ∧ name = strip t.name) ↔ strip t.name = decimal t.ruid := by
  rw [(readfdata_status uid t fgetsErr fcloseErr stale).1, record_mem_statusOut] at h
  rcases h with ⟨-, -, -, -, rfl, rfl⟩
  simp [eq_comm]

theorem readfdata_record_name_numeral :
    (7 = ((7 : Nat) : Int) ∧ bytes "1000" = strip (bytes "1000")) ↔
      strip (bytes "1000") = decimal 1000 :=
  readfdata_record_name_iff 1000
    (shortStatus (bytes "1000") 1000 (by decide) (by decide) (by decide)) none none (.zeros 128)
    (by decide +kernel)

/-- The name of a process `bash` of user 1000 is printed as `1000`. -/
theorem readfdata_record_name_bash :
    ¬ ∀ pid name, .record pid name ∈
      (readfdata (.ok ⟨bashStatus.text, none, none⟩) (.zeros 128) 1000).1.out →
      pid = 7 ∧ name = strip (bytes "bash") := by
  intro hall
  have hmem : Out.record 7 (bytes "1000") ∈
      (readfdata (.ok ⟨bashStatus.text, none, none⟩) (.zeros 128) 1000).1.out := by
    decide +kernel
  have hname := (hall _ _ hmem).2
  revert hname
  decide

end LinuxPractice.Chap12.UserProcs
