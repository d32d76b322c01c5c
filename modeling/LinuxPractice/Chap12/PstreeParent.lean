import LinuxPractice.Chap12.PstreeFields

/-!
# The parent link that `pstree_implementation.c` recovers

The lines of a status file in any order, with lines of any length: `fgets` cuts a
long line into pieces, and each piece is taken for a line.  No piece is taken for a
`Pid` or `PPid` line, and the value of a `Name` line is not looked at again, so
`pid` and `ppid` are those of the file.
-/

namespace LinuxPractice.Chap12.Pstree

open LinuxPractice.CLib LinuxPractice.Tlpi

/-- A line of the status file of process `p` with parent `q`. -/
inductive StatusLine (p q : Nat) where
  | pid (blanks : Bytes) (blank : Blank blanks) (mem : newline ∉ blanks)
      (short : (bytes "Pid:" ++ blanks ++ decimal p).length + 1 < 128)
  | ppid (blanks : Bytes) (blank : Blank blanks) (mem : newline ∉ blanks)
      (short : (bytes "PPid:" ++ blanks ++ decimal q).length + 1 < 128)
  /-- Any name, colons and keys in it included. -/
  | name (value : Bytes) (mem : newline ∉ value ∧ 0 ∉ value)
      (short : (bytes "Name:" ++ value).length + 1 < 128)
  /-- Another key with a value of any length. -/
  | other (key value : Bytes) (key_ne_nil : key ≠ [])
      (key_mem : ∀ c ∈ key, c ∉ colon ∧ c ≠ newline ∧ c ≠ 0)
      (key_other : key ≠ bytes "Pid" ∧ key ≠ bytes "PPid" ∧ key ≠ bytes "Name")
      (key_short : key.length < 64) (value_mem : newline ∉ value ∧ 0 ∉ value ∧ 58 ∉ value)

namespace StatusLine

variable {p q : Nat}

def body : StatusLine p q → Bytes
  | .pid blanks _ _ _ => bytes "Pid:" ++ blanks ++ decimal p
  | .ppid blanks _ _ _ => bytes "PPid:" ++ blanks ++ decimal q
  | .name value _ _ => bytes "Name:" ++ value
  | .other key value _ _ _ _ _ => key ++ 58 :: value

def isPid : StatusLine p q → Bool
  | .pid .. => true
  | _ => false

def isPPid : StatusLine p q → Bool
  | .ppid .. => true
  | _ => false

def apply (v : Vars) : StatusLine p q → Vars
  | .pid .. => { v with pid := p, errno := 0 }
  | .ppid .. => { v with ppid := q, errno := 0 }
  | _ => v

theorem pid_apply (l : StatusLine p q) (v : Vars) :
    (l.apply v).pid = if l.isPid then (p : Int) else v.pid := by
  cases l <;> rfl

theorem ppid_apply (l : StatusLine p q) (v : Vars) :
    (l.apply v).ppid = if l.isPPid then (q : Int) else v.ppid := by
  cases l <;> rfl

theorem newline_notMem_body (l : StatusLine p q) : newline ∉ l.body := by
  have hdigits : ∀ n, newline ∉ decimal n := fun n => notMem_decimal (by decide)
  cases l with
  | pid blanks blank mem short =>
    simp [body, mem, hdigits, show newline ∉ bytes "Pid:" by decide]
  | ppid blanks blank mem short =>
    simp [body, mem, hdigits, show newline ∉ bytes "PPid:" by decide]
  | name value mem short =>
    simp [body, mem.1, show newline ∉ bytes "Name:" by decide]
  | other key value key_ne_nil key_mem key_other key_short value_mem =>
    have hkey : newline ∉ key := fun h => (key_mem _ h).2.1 rfl
    simp [body, hkey, value_mem.1, show newline ≠ 58 by decide]

end StatusLine

/-! ### One line -/

theorem field_pid {blanks : Bytes} (hblank : Blank blanks) (n : Nat) :
    field (lineString (bytes "Pid:" ++ blanks ++ decimal n ++ [newline])) = .pid (decimal n) := by
  obtain ⟨hkey, hvalue, hstrip⟩ :=
    cut_numeral (show bytes "Pid" ≠ [] by decide) (by decide) hblank n
  have hline : bytes "Pid:" ++ blanks ++ decimal n ++ [newline] =
      bytes "Pid" ++ 58 :: (blanks ++ decimal n ++ [newline]) := by
    simp [show bytes "Pid:" = bytes "Pid" ++ [58] by decide]
  rw [hline]
  simp only [field, hkey, if_true, valueField, hvalue, hstrip]

theorem field_ppid {blanks : Bytes} (hblank : Blank blanks) (n : Nat) :
    field (lineString (bytes "PPid:" ++ blanks ++ decimal n ++ [newline])) =
      .ppid (decimal n) := by
  obtain ⟨hkey, hvalue, hstrip⟩ :=
    cut_numeral (show bytes "PPid" ≠ [] by decide) (by decide) hblank n
  have hline : bytes "PPid:" ++ blanks ++ decimal n ++ [newline] =
      bytes "PPid" ++ 58 :: (blanks ++ decimal n ++ [newline]) := by
    simp [show bytes "PPid:" = bytes "PPid" ++ [58] by decide]
  rw [hline]
  simp only [field, hkey, show bytes "PPid" ≠ bytes "Pid" by decide, if_false, if_true, valueField,
    hvalue, hstrip]

/-- A `Name` line is a name or has no token, whatever its value is. -/
theorem field_name {value : Bytes} (hnul : (0 : UInt8) ∉ value) :
    field (lineString (bytes "Name:" ++ value ++ [newline])) = .noToken ∨
      ∃ token, field (lineString (bytes "Name:" ++ value ++ [newline])) = .name token := by
  have hline : lineString (bytes "Name:" ++ value ++ [newline]) =
      bytes "Name" ++ 58 :: (value ++ [newline]) := by
    rw [lineString_eq]
    · simp [show bytes "Name:" = bytes "Name" ++ [58] by decide]
    · simp [hnul, show (0 : UInt8) ∉ bytes "Name:" by decide,
        show (0 : UInt8) ≠ newline by decide]
  rw [hline, field, nextToken_key (by decide) (by decide)]
  simp only [show bytes "Name" ≠ bytes "Pid" by decide, show bytes "Name" ≠ bytes "PPid" by decide,
    if_false, if_true, valueField]
  cases nextToken colon (value ++ [newline]) with
  | none => exact .inl rfl
  | some cut => exact .inr ⟨_, rfl⟩

theorem field_other {key : Bytes} (hne : key ≠ [])
    (hmem : ∀ c ∈ key, c ∉ colon ∧ c ≠ newline ∧ c ≠ 0)
    (hkey : key ≠ bytes "Pid" ∧ key ≠ bytes "PPid" ∧ key ≠ bytes "Name") (value : Bytes) :
    field (lineString (key ++ 58 :: value)) = .other := by
  have hnul : (0 : UInt8) ∉ key := fun h => (hmem 0 h).2.2 rfl
  have hline : lineString (key ++ 58 :: value) = key ++ 58 :: lineString value := by
    rw [lineString_append hnul]
    rfl
  rw [hline, field, nextToken_key hne fun c hc => (hmem c hc).1]
  simp only [if_neg hkey.1, if_neg hkey.2.1, if_neg hkey.2.2]

/-- A further piece has no colon and is no key: it is too long or ends the line. -/
theorem field_piece {chunk : Bytes} (hne : chunk ≠ []) (hcolon : (58 : UInt8) ∉ chunk)
    (hnul : (0 : UInt8) ∉ chunk) (hlong : chunk.length = 127 ∨ newline ∈ chunk) :
    field (lineString chunk) = .other := by
  have hkey : ∀ key : Bytes, key.length < 127 → newline ∉ key → chunk ≠ key := by
    rintro key hlen hmem rfl
    rcases hlong with hfull | hnl
    · omega
    · exact hmem hnl
  rw [lineString_eq hnul, field, nextToken_value hne hcolon]
  simp only [if_neg (hkey (bytes "Pid") (by decide) (by decide)),
    if_neg (hkey (bytes "PPid") (by decide) (by decide)),
    if_neg (hkey (bytes "Name") (by decide) (by decide))]

theorem fieldLoop_of_other {chunks : List Bytes}
    (h : ∀ chunk ∈ chunks, field (lineString chunk) = .other) (v : Vars) :
    fieldLoop chunks v = some (v, []) := by
  induction chunks with
  | nil => rfl
  | cons chunk chunks ih =>
    simp only [fieldLoop, h chunk (by simp), applyField, ih fun c hc => h c (by simp [hc])]
    rfl

theorem field_pieces {key value : Bytes} (hne : key ≠ [])
    (hmem : ∀ c ∈ key, c ∉ colon ∧ c ≠ newline ∧ c ≠ 0)
    (hkey : key ≠ bytes "Pid" ∧ key ≠ bytes "PPid" ∧ key ≠ bytes "Name")
    (hshort : key.length < 64) (hvalue : newline ∉ value ∧ 0 ∉ value ∧ 58 ∉ value) :
    ∀ chunk ∈ fgetsLines 127 (key ++ 58 :: value ++ [newline]),
      field (lineString chunk) = .other := by
  have hbody : newline ∉ key ++ 58 :: value := by
    have hkeyNl : newline ∉ key := fun h => (hmem _ h).2.1 rfl
    simp [hkeyNl, hvalue.1, show newline ≠ 58 by decide]
  by_cases hlt : (key ++ 58 :: value).length < 127
  · intro chunk hchunk
    rw [fgetsLines_line hbody hlt, fgetsLines_nil] at hchunk
    obtain rfl := List.mem_singleton.mp hchunk
    rw [List.append_assoc]
    exact field_other hne hmem hkey _
  · -- the first piece ends in the value, the others come from it
    obtain ⟨k, hk⟩ : ∃ k, 127 = key.length + (k + 1) := ⟨126 - key.length, by omega⟩
    have htake : (key ++ 58 :: value).take 127 = key ++ 58 :: value.take k := by
      rw [hk, List.take_length_add_append, List.take_succ_cons]
    have hdrop : (key ++ 58 :: value).drop 127 = value.drop k := by
      rw [hk, List.drop_length_add_append, List.drop_succ_cons]
    intro chunk hchunk
    rw [fgetsLines_long (by decide) hbody (Nat.le_of_not_lt hlt), hdrop, htake] at hchunk
    rcases List.mem_cons.mp hchunk with rfl | hchunk
    · exact field_other hne hmem hkey _
    · have hdropNl : newline ∉ value.drop k := fun h => hvalue.1 (List.mem_of_mem_drop h)
      have hsub : ∀ c ∈ chunk, c ∈ value ∨ c = newline := by
        intro c hc
        have hmemText : c ∈ (fgetsLines 127 (value.drop k ++ [newline])).flatten :=
          List.mem_flatten.mpr ⟨chunk, hchunk, hc⟩
        rw [flatten_fgetsLines (by decide)] at hmemText
        rcases List.mem_append.mp hmemText with h | h
        · exact .inl (List.mem_of_mem_drop h)
        · exact .inr (List.mem_singleton.mp h)
      have hpos := (length_mem_fgetsLines (by decide) hchunk).1
      apply field_piece (List.length_pos_iff.mp hpos)
      · intro h
        rcases hsub _ h with h | h
        · exact hvalue.2.2 h
        · revert h
          decide
      · intro h
        rcases hsub _ h with h | h
        · exact hvalue.2.1 h
        · revert h
          decide
      · exact full_or_newline_mem (by decide) hdropNl hchunk

variable {p q : Nat}

theorem fieldLoop_line (hp : (p : Int) ≤ INT_MAX) (hq : (q : Int) ≤ INT_MAX)
    (l : StatusLine p q) (v : Vars) :
    ∃ out, fieldLoop (fgetsLines 127 (l.body ++ [newline])) v = some (l.apply v, out) := by
  -- a line that fits is one piece
  have hone : ∀ body : Bytes, newline ∉ body → body.length + 1 < 128 →
      fieldLoop (fgetsLines 127 (body ++ [newline])) v =
        (applyField v (field (lineString (body ++ [newline])))).map fun r => (r.1, r.2 ++ []) := by
    intro body hmem hlen
    rw [fgetsLines_line hmem (by omega), fgetsLines_nil]
    simp only [fieldLoop]
    cases applyField v (field (lineString (body ++ [newline]))) <;> rfl
  have hnl := l.newline_notMem_body
  cases l with
  | pid blanks blank mem short =>
    rw [hone _ hnl short]
    simp only [StatusLine.body, field_pid blank, applyField, getInt_decimal (.inl rfl) hp]
    exact ⟨_, rfl⟩
  | ppid blanks blank mem short =>
    rw [hone _ hnl short]
    simp only [StatusLine.body, field_ppid blank, applyField, getInt_decimal (.inl rfl) hq]
    exact ⟨_, rfl⟩
  | name value mem short =>
    rw [hone _ hnl short]
    rcases field_name mem.2 with h | ⟨token, h⟩ <;> simp only [StatusLine.body, h, applyField] <;>
      exact ⟨_, rfl⟩
  | other key value key_ne_nil key_mem key_other key_short value_mem =>
    exact ⟨[], fieldLoop_of_other
      (field_pieces key_ne_nil key_mem key_other key_short value_mem) v⟩

/-! ### The whole file -/

/-- Behind all lines, each variable has the value of its line if there was one. -/
theorem fieldLoop_lines (hp : (p : Int) ≤ INT_MAX) (hq : (q : Int) ≤ INT_MAX)
    (lines : List (StatusLine p q)) (v : Vars) :
    ∃ w out, fieldLoop (fgetsLines 127 (unlines (lines.map StatusLine.body))) v = some (w, out) ∧
      w.pid = (if lines.any StatusLine.isPid then (p : Int) else v.pid) ∧
      w.ppid = (if lines.any StatusLine.isPPid then (q : Int) else v.ppid) := by
  rw [fgetsLines_unlines_flatten (by decide) (by
    intro body hbody
    rcases List.mem_map.mp hbody with ⟨l, -, rfl⟩
    exact l.newline_notMem_body)]
  induction lines generalizing v with
  | nil => exact ⟨v, [], rfl, by simp, by simp⟩
  | cons l lines ih =>
    rcases fieldLoop_line hp hq l v with ⟨out, hline⟩
    rcases ih (l.apply v) with ⟨w, out', hloop, hpid, hppid⟩
    refine ⟨w, out ++ out', ?_, ?_, ?_⟩
    · rw [List.map_cons, List.map_cons, List.flatten_cons, fieldLoop_append, hline,
        Option.bind_some, hloop]
      rfl
    · rw [hpid, List.any_cons, StatusLine.pid_apply]
      cases l.isPid <;> simp
    · rw [hppid, List.any_cons, StatusLine.ppid_apply]
      cases l.isPPid <;> simp

/-- On every status file with a `Pid` and a `PPid` line, in any order, among lines of
    any length and whatever the name is, `readfdata` reads to the end and recovers
    both. -/
theorem readfdata_recovers_parent (hp : (p : Int) ≤ INT_MAX) (hq : (q : Int) ≤ INT_MAX)
    (lines : List (StatusLine p q)) (hpid : lines.any StatusLine.isPid)
    (hppid : lines.any StatusLine.isPPid) (stale : CharArray 128) (errno : Nat) :
    let r := readfdata (.ok ⟨unlines (lines.map StatusLine.body), none, none⟩) stale errno
    r.2 = none ∧ r.1.vars.pid = p ∧ r.1.vars.ppid = q ∧ r.1.out.getLast? = some .childPid := by
  rcases fieldLoop_lines hp hq lines ⟨-1, -1, errno⟩ with ⟨w, out, hloop, hwpid, hwppid⟩
  have hfollows := readfdata_follows ⟨unlines (lines.map StatusLine.body), none, none⟩ stale errno
  simp only [Stream.lines, hloop] at hfollows
  rcases hfollows trivial with ⟨hstop, hvars, hout⟩
  rw [if_pos hpid] at hwpid
  rw [if_pos hppid] at hwppid
  refine ⟨hstop, ?_, ?_, ?_⟩
  · rw [hvars]
    exact hwpid
  · rw [hvars]
    exact hwppid
  · rw [hout]
    simp

/-- A process that calls itself `PPid:\t1`, with a `Groups` line of more than two
    buffers before its numbers. -/
theorem readfdata_recovers_parent_groups :
    let lines : List (StatusLine 7 8) :=
      [.name (bytes "\tPPid:\t1") (by decide) (by decide),
        .other (bytes "Groups") (List.replicate 300 52) (by decide) (by decide) (by decide)
          (by decide) (by simp only [List.mem_replicate]; decide),
        .ppid (bytes "\t") (by decide) (by decide) (by decide),
        .pid (bytes " ") (by decide) (by decide) (by decide)]
    let r := readfdata (.ok ⟨unlines (lines.map StatusLine.body), none, none⟩)
      (.zeros 128) 0
    r.2 = none ∧ r.1.vars.pid = (7 : Nat) ∧ r.1.vars.ppid = (8 : Nat) ∧
      r.1.out.getLast? = some .childPid :=
  readfdata_recovers_parent (by decide) (by decide) _ rfl rfl _ 0

end LinuxPractice.Chap12.Pstree
