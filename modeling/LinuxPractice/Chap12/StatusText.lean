import LinuxPractice.Chap12.UserProcsFields

/-!
# Status files as the kernel writes them

A `StatusText` is the content of a `/proc/PID/status` file as `p_id_cmdn_si.c` is
meant to read it: a `Name` line, later a `Pid` line, later a `Uid` line, and lines
with other keys around them.  The name is any byte string without newline and NUL;
it may hold colons, tabs and blanks.
-/

namespace LinuxPractice.Chap12.UserProcs

open LinuxPractice.CLib LinuxPractice.Tlpi

/-- A line `key:value` that none of the three tests looks for. -/
structure OtherLine where
  key : Bytes
  value : Bytes
  key_ne_nil : key ≠ []
  key_mem : ∀ c ∈ key, c ∉ colon ∧ c ≠ newline ∧ c ≠ 0
  key_other : key ≠ bytes "Pid" ∧ key ≠ bytes "Name" ∧ key ≠ bytes "Uid"
  value_mem : newline ∉ value
  short : key.length + value.length + 2 < 128

def OtherLine.body (l : OtherLine) : Bytes := l.key ++ 58 :: l.value

def nameBody (name : Bytes) : Bytes := bytes "Name:\t" ++ name

def pidBody (pid : Nat) : Bytes := bytes "Pid:\t" ++ decimal pid

/-- Real, effective, saved set and file system uid. -/
def uidBody (ruid euid suid fsuid : Nat) : Bytes :=
  bytes "Uid:\t" ++ decimal ruid ++
    9 :: (decimal euid ++ 9 :: (decimal suid ++ 9 :: decimal fsuid))

structure StatusText where
  first : List OtherLine
  name : Bytes
  afterName : List OtherLine
  pid : Nat
  afterPid : List OtherLine
  ruid : Nat
  euid : Nat
  suid : Nat
  fsuid : Nat
  afterUid : List OtherLine
  name_mem : newline ∉ name ∧ 0 ∉ name
  name_short : (nameBody name).length + 1 < 128
  pid_pos : 0 < pid
  pid_le : (pid : Int) ≤ INT_MAX
  pid_short : (pidBody pid).length + 1 < 128
  ruid_le : ruid ≤ 2 ^ 32 - 2
  uid_short : (uidBody ruid euid suid fsuid).length + 1 < 128

namespace StatusText

def bodies (t : StatusText) : List Bytes :=
  t.first.map OtherLine.body ++ nameBody t.name ::
    (t.afterName.map OtherLine.body ++ pidBody t.pid ::
      (t.afterPid.map OtherLine.body ++ uidBody t.ruid t.euid t.suid t.fsuid ::
        t.afterUid.map OtherLine.body))

def text (t : StatusText) : Bytes := unlines t.bodies

end StatusText

/-! ### The lines fit the buffer -/

theorem OtherLine.body_fits (l : OtherLine) : newline ∉ l.body ∧ l.body.length < 127 := by
  have hkey : newline ∉ l.key := fun h => (l.key_mem _ h).2.1 rfl
  have hshort := l.short
  constructor
  · have hne : newline ≠ 58 := by decide
    simp [OtherLine.body, hkey, l.value_mem, hne]
  · simp [OtherLine.body]
    omega

theorem newline_notMem_uidBody (ruid euid suid fsuid : Nat) :
    newline ∉ uidBody ruid euid suid fsuid := by
  have hdigits : ∀ n, newline ∉ decimal n := fun n => notMem_decimal (by decide)
  have hkey : newline ∉ bytes "Uid:\t" := by decide
  have htab : newline ≠ 9 := by decide
  simp [uidBody, hdigits, hkey, htab]

theorem StatusText.bodies_fit (t : StatusText) :
    ∀ body ∈ t.bodies, newline ∉ body ∧ body.length < 127 := by
  have hother : ∀ ls : List OtherLine, ∀ body ∈ ls.map OtherLine.body,
      newline ∉ body ∧ body.length < 127 := by
    intro ls body hbody
    rcases List.mem_map.mp hbody with ⟨l, -, rfl⟩
    exact l.body_fits
  have hname : newline ∉ nameBody t.name := by
    have hkey : newline ∉ bytes "Name:\t" := by decide
    simp [nameBody, hkey, t.name_mem.1]
  have hpid : newline ∉ pidBody t.pid := by
    have hkey : newline ∉ bytes "Pid:\t" := by decide
    simp [pidBody, hkey, notMem_decimal (c := newline) (by decide)]
  have hnameShort := t.name_short
  have hpidShort := t.pid_short
  have huidShort := t.uid_short
  simp only [StatusText.bodies, List.forall_mem_append, List.forall_mem_cons]
  exact ⟨hother _, ⟨hname, by omega⟩, hother _, ⟨hpid, by omega⟩, hother _,
    ⟨newline_notMem_uidBody _ _ _ _, by omega⟩, hother _⟩

theorem StatusText.fgetsLines_text (t : StatusText) :
    fgetsLines 127 t.text = t.bodies.map (· ++ [newline]) :=
  fgetsLines_unlines t.bodies_fit

/-! ### The loop body on these lines -/

variable (uid : UInt32) (v : Vars)

theorem fieldLine_other (l : OtherLine) :
    fieldLine uid (lineString (l.body ++ [newline])) v = (v, .next) := by
  rcases l.key_other with ⟨hpid, hname, huid⟩
  have hkey : (0 : UInt8) ∉ l.key := fun h => (l.key_mem 0 h).2.2 rfl
  have hline : lineString (l.body ++ [newline]) =
      l.key ++ 58 :: lineString (l.value ++ [newline]) := by
    rw [OtherLine.body, List.append_assoc, lineString_append hkey]
    rfl
  rw [hline, fieldLine, nextToken_key l.key_ne_nil fun c hc => (l.key_mem c hc).1]
  simp only [if_neg hpid, if_neg hname, if_neg huid]

theorem fieldLine_pid {pid : Nat} (hpos : 0 < pid) (hle : (pid : Int) ≤ INT_MAX) :
    fieldLine uid (lineString (pidBody pid ++ [newline])) v = ({ v with pid }, .next) := by
  have hline : pidBody pid ++ [newline] = bytes "Pid" ++ 58 :: ([9] ++ decimal pid ++ [newline]) :=
    rfl
  obtain ⟨hkey, hvalue, hstrip⟩ :=
    cut_numeral (show bytes "Pid" ≠ [] by decide) (by decide) (show Blank [9] by decide) pid
  simp only [hline, fieldLine, hkey, if_true, hvalue, hstrip,
    getInt_decimal (.inr ⟨rfl, hpos⟩) hle]

theorem cut_uids (ruid : Nat) {ids : Bytes} (hids : (58 : UInt8) ∉ ids) :
    let value := 9 :: (decimal ruid ++ 9 :: ids)
    nextToken colon value = some (value, []) ∧ nextToken tab value = some (decimal ruid, ids) ∧
      strspn value colon = 0 ∧ strspn value tab = 1 := by
  intro value
  have hcolon : (58 : UInt8) ∉ decimal ruid := notMem_decimal (by decide)
  have htab : ∀ c ∈ decimal ruid, c ∉ tab := by
    intro c hc htab
    obtain rfl : c = 9 := by simpa [tab] using htab
    exact notMem_decimal (by decide) hc
  refine ⟨?_, ?_, ?_, ?_⟩
  · exact nextToken_value (by simp [value]) (by simp [value, hcolon, hids])
  · have hcut : nextToken tab ([9] ++ decimal ruid ++ 9 :: ids) = some (decimal ruid, ids) :=
      nextToken_append (by decide) (decimal_ne_nil ruid) htab (by decide) ids
    exact hcut
  · exact strspn_colon_of_head (by decide) _
  · have hskip : strspn ([9] ++ (decimal ruid ++ 9 :: ids)) tab = 1 := by
      apply strspn_append (by decide)
      rcases List.exists_cons_of_ne_nil (decimal_ne_nil ruid) with ⟨c, cs, hc⟩
      rw [hc] at htab ⊢
      simpa using htab c (by simp)
    exact hskip

/-- The real uid of a `Uid` line is converted if it is in the range of `int`; it
    then stands at offset 5 of the buffer. -/
theorem fieldLine_uid (ruid euid suid fsuid : Nat) (hruid : ruid ≤ 2 ^ 32 - 2) :
    fieldLine uid (lineString (uidBody ruid euid suid fsuid ++ [newline])) v =
      if (ruid : Int) ≤ INT_MAX then
        if v.name.isSome ∧ uid.toNat = ruid ∧ v.pid ≠ -1 then
          ({ v with realuid := ruid }, .record 5 (decimal ruid))
        else ({ v with realuid := ruid }, .next)
      else (v, .stop) := by
  obtain ⟨ids, hids⟩ : ∃ ids, ids =
    decimal euid ++ 9 :: (decimal suid ++ 9 :: decimal fsuid) ++ [newline] := ⟨_, rfl⟩
  have hidsColon : (58 : UInt8) ∉ ids := by
    have hdigits : ∀ n, (58 : UInt8) ∉ decimal n := fun n => notMem_decimal (by decide)
    simp [hids, hdigits, show (58 : UInt8) ≠ newline by decide]
  have hline : lineString (uidBody ruid euid suid fsuid ++ [newline]) =
      bytes "Uid" ++ 58 :: (9 :: (decimal ruid ++ 9 :: ids)) := by
    rw [lineString_eq]
    · simp [uidBody, hids, show bytes "Uid:\t" = bytes "Uid" ++ [58, 9] by decide]
    · have hdigits : ∀ n, (0 : UInt8) ∉ decimal n := fun n => notMem_decimal (by decide)
      simp [uidBody, hdigits, show (0 : UInt8) ∉ bytes "Uid:\t" by decide,
        show (0 : UInt8) ≠ newline by decide]
  rcases cut_uids ruid hidsColon with ⟨hrest, hvalue, hcolon, hspn⟩
  have hkey : strspn (bytes "Uid" ++ 58 :: (9 :: (decimal ruid ++ 9 :: ids))) colon = 0 :=
    strspn_colon_of_head (by decide) _
  have hstrip : strip (decimal ruid) = decimal ruid := by
    simpa using strip_decimal ruid (show Blank [] by decide) (show Blank [] by decide)
  rw [hline, fieldLine, nextToken_key (by decide) (by decide)]
  simp only [show bytes "Uid" ≠ bytes "Pid" by decide, show bytes "Uid" ≠ bytes "Name" by decide,
    if_false, if_true, uidField, hrest, hvalue, hstrip, hcolon, hspn, hkey]
  by_cases hle : (ruid : Int) ≤ INT_MAX
  · simp only [getInt_decimal (.inl rfl) hle, if_pos hle, Nat.cast_inj, Nat.add_zero,
      Nat.zero_add]
  · have hlong : (ruid : Int) ≤ LONG_MAX := by
      unfold LONG_MAX
      omega
    simp only [getInt_decimal_large (not_le.mp hle) hlong, if_neg hle]

/-! ### The name as a key

The value of a `Name` line goes through the test for `Uid`.  A name whose part
before its first colon is `Uid`, blanks around it aside, is taken for this key, and
what follows for the uids. -/

/-- The value that a process name puts behind a forged key `Uid`. -/
def forgedUid (name : Bytes) : Option Bytes :=
  match nextToken colon (9 :: (name ++ [newline])) with
  | none => none
  | some (tok, rest) =>
    if strip tok = bytes "Uid" then (uidValue rest).map fun v => strip v.2 else none

/-- A `Name` line leaves the variables to the `Uid` branch only if its value is the
    forged key. -/
theorem fieldLine_name {name : Bytes} (hname : (0 : UInt8) ∉ name) :
    ∃ tok rest p, nextToken colon (9 :: (name ++ [newline])) = some (tok, rest) ∧
      fieldLine uid (lineString (nameBody name ++ [newline])) v =
        if strip tok = bytes "Uid" then uidField uid p rest { v with name := some 5 }
        else ({ v with name := some 5 }, .next) := by
  have hline : lineString (nameBody name ++ [newline]) =
      bytes "Name" ++ 58 :: (9 :: (name ++ [newline])) := by
    rw [lineString_eq]
    · simp [nameBody, show bytes "Name:\t" = bytes "Name" ++ [58, 9] by decide]
    · have hkey : (0 : UInt8) ∉ bytes "Name:\t" := by decide
      have hnl : (0 : UInt8) ≠ newline := by decide
      simp [nameBody, hkey, hname, hnl]
  have hcolon : strspn (9 :: (name ++ [newline])) colon = 0 :=
    strspn_colon_of_head (by decide) _
  have hkey : strspn (bytes "Name" ++ 58 :: (9 :: (name ++ [newline]))) colon = 0 :=
    strspn_colon_of_head (by decide) _
  cases hcut : nextToken colon (9 :: (name ++ [newline])) with
  | none => simp [nextToken, hcolon] at hcut
  | some cut =>
    rcases cut with ⟨tok, rest⟩
    refine ⟨tok, rest, 5 + tok.length + 1, rfl, ?_⟩
    rw [hline, fieldLine, nextToken_key (by decide) (by decide)]
    simp only [show bytes "Name" ≠ bytes "Pid" by decide, if_false, if_true, hcut, hcolon, hkey]

variable {name : Bytes}

theorem fieldLine_name_plain (hname : (0 : UInt8) ∉ name) (h : forgedUid name = none) :
    ∃ last, (last = .next ∨ last = .noToken) ∧
      fieldLine uid (lineString (nameBody name ++ [newline])) v =
        ({ v with name := some 5 }, last) := by
  rcases fieldLine_name uid v hname with ⟨tok, rest, p, hcut, heq⟩
  rw [heq]
  by_cases hkey : strip tok = bytes "Uid"
  · -- the forged key has no value behind it
    have hnone : uidValue rest = none := by simpa [forgedUid, hcut, hkey] using h
    refine ⟨.noToken, .inr rfl, ?_⟩
    rw [if_pos hkey, uidField_of_none uid p _ hnone]
  · exact ⟨.next, .inl rfl, if_neg hkey⟩

/-- The `Uid` branch on a forged value, before the `Pid` line: the value becomes the
    real uid, and no record is printed. -/
theorem fieldLine_name_forged (hname : (0 : UInt8) ∉ name) (hpid : v.pid = -1) {value : Bytes}
    (h : forgedUid name = some value) :
    fieldLine uid (lineString (nameBody name ++ [newline])) v =
      match getInt value GN_ANY_BASE "realuid" with
      | .error _ => ({ v with name := some 5 }, .stop)
      | .ok realuid => ({ v with name := some 5, realuid }, .next) := by
  rcases fieldLine_name uid v hname with ⟨tok, rest, p, hcut, heq⟩
  rw [heq]
  simp only [forgedUid, hcut] at h
  split at h
  · rename_i hkey
    rw [if_pos hkey]
    rcases Option.map_eq_some_iff.mp h with ⟨⟨tabbed, field⟩, hvalue, rfl⟩
    rcases uidValue_eq_some.mp hvalue with ⟨tok', rest', rest'', hcolon, htab, -⟩
    simp only [uidField, hcolon, htab]
    cases getInt (strip field) GN_ANY_BASE "realuid" with
    | error texts => rfl
    | ok realuid => simp [hpid]
  · cases h

end LinuxPractice.Chap12.UserProcs
