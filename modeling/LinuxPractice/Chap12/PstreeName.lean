import LinuxPractice.Chap12.PstreeScan

/-!
# The name that `pstree_implementation.c` shows

The value of the `Name` line is fetched with the delimiter that also ends the key,
so it ends at the first ":" of the name.  Names of kernel threads have colons:
`kworker/0:1` is shown as `kworker/0`.
-/

namespace LinuxPractice.Chap12.Pstree

open LinuxPractice.CLib LinuxPractice.Tlpi

/-! ### Status files with one name -/

def Field.isName : Field → Bool
  | .name _ => true
  | _ => false

/-- A line of which `fgets` makes no piece that is taken for a `Name` line, or that has
    a number `getInt` does not accept. -/
def Quiet (body : Bytes) : Prop :=
  newline ∉ body ∧ ∀ chunk ∈ fgetsLines 127 (body ++ [newline]),
    (field (lineString chunk)).isName = false ∧ (field (lineString chunk)).accepted = true

def nameBody (name : Bytes) : Bytes := bytes "Name:\t" ++ name

/-- A status file with one `Name` line among any other lines. -/
structure NamedStatus where
  before : List Bytes
  name : Bytes
  after : List Bytes
  name_mem : newline ∉ name ∧ 0 ∉ name
  name_short : (nameBody name ++ [newline]).length < 128
  quiet : ∀ body ∈ before ++ after, Quiet body

def NamedStatus.text (t : NamedStatus) : Bytes :=
  unlines (t.before ++ nameBody t.name :: t.after)

/-- The texts printed behind `Name: `. -/
def shownNames (out : List Out) : List Bytes :=
  out.filterMap fun
    | .nameLine token => some token
    | _ => none

/-- The names that `readfdata` shows for a status file. -/
def NamedStatus.shown (t : NamedStatus) (stale : CharArray 128) (errno : Nat) : List Bytes :=
  shownNames (readfdata (.ok ⟨t.text, none, none⟩) stale errno).1.out

/-! ### The other lines -/

theorem applyField_quiet {fld : Field} (hname : fld.isName = false) (hacc : fld.accepted = true)
    (v : Vars) : ∃ w out, applyField v fld = some (w, out) ∧ shownNames out = [] := by
  rcases applyField_accepted hacc v with ⟨w, out, happly, -⟩
  refine ⟨w, out, happly, ?_⟩
  cases fld with
  | noToken =>
    cases happly
    rfl
  | other =>
    cases happly
    rfl
  | name value => cases hname
  | pid value =>
    simp only [applyField] at happly
    split at happly <;> cases happly
    rfl
  | ppid value =>
    simp only [applyField] at happly
    split at happly <;> cases happly
    rfl

theorem fieldLoop_quiet {chunks : List Bytes}
    (h : ∀ chunk ∈ chunks, (field (lineString chunk)).isName = false ∧
      (field (lineString chunk)).accepted = true) (v : Vars) :
    ∃ w out, fieldLoop chunks v = some (w, out) ∧ shownNames out = [] := by
  induction chunks generalizing v with
  | nil => exact ⟨v, [], rfl, rfl⟩
  | cons chunk chunks ih =>
    obtain ⟨hname, hacc⟩ := h chunk (by simp)
    rcases applyField_quiet hname hacc v with ⟨w, out, happly, hout⟩
    obtain ⟨w', out', hloop, hout'⟩ := ih (fun c hc => h c (by simp [hc])) w
    refine ⟨w', out ++ out', ?_, ?_⟩
    · simp only [fieldLoop, happly, hloop]
      rfl
    · rw [shownNames, List.filterMap_append]
      exact List.append_eq_nil_iff.mpr ⟨hout, hout'⟩

/-! ### The `Name` line -/

/-- The part of a name before its first colon. -/
def beforeColon (name : Bytes) : Bytes := name.takeWhile (· != 58)

theorem colon_notMem_beforeColon (name : Bytes) : (58 : UInt8) ∉ beforeColon name := by
  intro h
  have := List.mem_takeWhile_imp h
  simp at this

theorem beforeColon_eq {name : Bytes} (h : (58 : UInt8) ∉ name) : beforeColon name = name := by
  apply List.takeWhile_eq_self_iff.mpr
  intro c hc
  simp only [bne_iff_ne]
  rintro rfl
  exact h hc

/-- A name with a colon goes on with it behind the part before. -/
theorem exists_beforeColon {name : Bytes} (h : (58 : UInt8) ∈ name) :
    ∃ rest, name = beforeColon name ++ 58 :: rest := by
  have hdrop : name.dropWhile (· != 58) ≠ [] := by
    intro hnil
    have := List.dropWhile_eq_nil_iff.mp hnil 58 h
    simp at this
  have hhead := List.head_dropWhile_not (· != 58) hdrop
  obtain ⟨c, rest, hcons⟩ := List.exists_cons_of_ne_nil hdrop
  obtain rfl : c = 58 := by simpa [hcons] using hhead
  refine ⟨rest, ?_⟩
  rw [← hcons, beforeColon, List.takeWhile_append_dropWhile]

/-- The token cut from the value, stripped. -/
theorem nextToken_name (name : Bytes) :
    ∃ tok rest, nextToken colon (9 :: (name ++ [newline])) = some (tok, rest) ∧
      strip tok = strip (beforeColon name) := by
  have htab : Blank [9] := by decide
  by_cases h : (58 : UInt8) ∈ name
  · rcases exists_beforeColon h with ⟨rest, happ⟩
    have hline : 9 :: (name ++ [newline]) =
        (9 :: beforeColon name) ++ 58 :: (rest ++ [newline]) := by
      conv_lhs => rw [happ]
      simp
    have hmem : ∀ c ∈ 9 :: beforeColon name, c ∉ colon := by
      intro c hc hcolon
      obtain rfl : c = 58 := by simpa [colon] using hcolon
      rcases List.mem_cons.mp hc with h9 | hc
      · revert h9
        decide
      · exact colon_notMem_beforeColon name hc
    refine ⟨9 :: beforeColon name, rest ++ [newline], ?_, ?_⟩
    · rw [hline]
      exact nextToken_key (by simp) hmem _
    · have := strip_surround htab (show Blank [] by decide) (beforeColon name)
      simpa using this
  · have hcolon : (58 : UInt8) ∉ 9 :: (name ++ [newline]) := by
      simp [h, newline]
    refine ⟨9 :: (name ++ [newline]), [], nextToken_value (by simp) hcolon, ?_⟩
    rw [beforeColon_eq h]
    have := strip_surround htab (show Blank [newline] by decide) name
    simpa using this

theorem field_nameBody {name : Bytes} (hnul : (0 : UInt8) ∉ name) :
    field (lineString (nameBody name ++ [newline])) = .name (strip (beforeColon name)) := by
  have hline : lineString (nameBody name ++ [newline]) =
      bytes "Name" ++ 58 :: (9 :: (name ++ [newline])) := by
    rw [lineString_eq]
    · simp [nameBody, show bytes "Name:\t" = bytes "Name" ++ [58, 9] by decide]
    · simp [nameBody, hnul, show (0 : UInt8) ∉ bytes "Name:\t" by decide,
        show (0 : UInt8) ≠ newline by decide]
  rcases nextToken_name name with ⟨tok, rest, hcut, hstrip⟩
  rw [hline, field, nextToken_key (by decide) (by decide)]
  simp only [show bytes "Name" ≠ bytes "Pid" by decide, show bytes "Name" ≠ bytes "PPid" by decide,
    if_false, if_true, valueField, hcut, hstrip]

/-! ### The whole file -/

theorem newline_notMem_nameBody {name : Bytes} (h : newline ∉ name) :
    newline ∉ nameBody name := by
  simp [nameBody, h, show newline ∉ bytes "Name:\t" by decide]

/-- The pieces of the file: those of the lines before, the `Name` line, those of the
    lines behind. -/
theorem NamedStatus.fgetsLines_text (t : NamedStatus) :
    ∃ pre post, fgetsLines 127 t.text = pre ++ (nameBody t.name ++ [newline]) :: post ∧
      ∀ chunk ∈ pre ++ post, (field (lineString chunk)).isName = false ∧
        (field (lineString chunk)).accepted = true := by
  let pieces : List Bytes → List Bytes := fun bodies =>
    (bodies.map fun body => fgetsLines 127 (body ++ [newline])).flatten
  have hname := newline_notMem_nameBody t.name_mem.1
  have hshort : (nameBody t.name).length < 127 := by
    have := t.name_short
    rw [List.length_append, List.length_singleton] at this
    omega
  have hmem : ∀ body ∈ t.before ++ nameBody t.name :: t.after, newline ∉ body := by
    intro body hbody
    rcases List.mem_append.mp hbody with h | h
    · exact (t.quiet body (by simp [h])).1
    · rcases List.mem_cons.mp h with rfl | h
      · exact hname
      · exact (t.quiet body (by simp [h])).1
  refine ⟨pieces t.before, pieces t.after, ?_, ?_⟩
  · rw [NamedStatus.text, fgetsLines_unlines_flatten (by decide) hmem, List.map_append,
      List.flatten_append, List.map_cons, List.flatten_cons, fgetsLines_line hname hshort,
      fgetsLines_nil]
    rfl
  · intro chunk hchunk
    rw [← List.flatten_append, ← List.map_append] at hchunk
    rcases List.mem_flatten.mp hchunk with ⟨calls, hcalls, hmem⟩
    rcases List.mem_map.mp hcalls with ⟨body, hbody, rfl⟩
    exact (t.quiet body hbody).2 chunk hmem

/-- One name is shown: the part of the file's name before its first colon, stripped. -/
theorem shown_eq (t : NamedStatus) (stale : CharArray 128) (errno : Nat) :
    t.shown stale errno = [strip (beforeColon t.name)] := by
  rcases t.fgetsLines_text with ⟨pre, post, hlines, hquiet⟩
  rcases List.forall_mem_append.mp hquiet with ⟨hquietPre, hquietPost⟩
  rcases fieldLoop_quiet hquietPre ⟨-1, -1, errno⟩ with ⟨w, out, hpre, hout⟩
  rcases fieldLoop_quiet hquietPost w with ⟨w', out', hpost, hout'⟩
  have hloop : fieldLoop (fgetsLines 127 t.text) ⟨-1, -1, errno⟩ =
      some (w', out ++ .nameLine (strip (beforeColon t.name)) :: out') := by
    rw [hlines, fieldLoop_append, hpre, Option.bind_some]
    simp only [fieldLoop, field_nameBody t.name_mem.2, applyField, hpost]
    rfl
  have hfollows := readfdata_follows ⟨t.text, none, none⟩ stale errno
  simp only [Stream.lines, hloop] at hfollows
  rcases hfollows trivial with ⟨-, -, hrun⟩
  rw [shownNames] at hout hout'
  rw [NamedStatus.shown, hrun, shownNames]
  simp [List.filterMap_append, hout, hout']

/-- On every status file, whatever its other lines are, the name is shown exactly if it
    has no colon, and two processes are shown under the same name exactly if their names
    agree before the first colon. -/
theorem readfdata_shows_name_iff (t t' : NamedStatus) (stale stale' : CharArray 128)
    (errno errno' : Nat) :
    (t.shown stale errno = [strip t.name] ↔ (58 : UInt8) ∉ t.name) ∧
      (t.shown stale errno = t'.shown stale' errno' ↔
        strip (beforeColon t.name) = strip (beforeColon t'.name)) := by
  rw [shown_eq, shown_eq]
  constructor
  · constructor
    · intro hshown hcolon
      have hmem : (58 : UInt8) ∈ strip t.name := mem_strip hcolon (by decide)
      rw [← List.singleton_inj.mp hshown] at hmem
      exact colon_notMem_beforeColon t.name (mem_of_mem_strip hmem)
    · intro hcolon
      rw [beforeColon_eq hcolon]
  · exact List.singleton_inj

/-! ### Two kernel threads -/

theorem quiet_numbers :
    ∀ body ∈ [] ++ [bytes "Pid:\t4", bytes "PPid:\t2"], Quiet body := by
  unfold Quiet
  decide +kernel

def threadStatus (name : Bytes) (name_mem : newline ∉ name ∧ 0 ∉ name)
    (name_short : (nameBody name ++ [newline]).length < 128) : NamedStatus where
  before := []
  name := name
  after := [bytes "Pid:\t4", bytes "PPid:\t2"]
  name_mem := name_mem
  name_short := name_short
  quiet := quiet_numbers

def kworker0 : NamedStatus := threadStatus (bytes "kworker/0:0") (by decide) (by decide)

def kworker1 : NamedStatus := threadStatus (bytes "kworker/0:1") (by decide) (by decide)

/-- Two threads with different names, both shown as `kworker/0`. -/
theorem readfdata_shows_name_kworker :
    kworker0.shown (.zeros 128) 0 ≠ [strip kworker0.name] ∧
      strip kworker0.name ≠ strip kworker1.name ∧
      kworker0.shown (.zeros 128) 0 = kworker1.shown (.zeros 128) 0 := by
  decide +kernel

end LinuxPractice.Chap12.Pstree
