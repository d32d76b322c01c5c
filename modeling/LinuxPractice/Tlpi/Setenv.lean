import LinuxPractice.CLib.Bytes
import Mathlib.Data.List.Basic
import Mathlib.Logic.Function.Basic

/-!
# `setenv.c`: the environment as an array of strings

`environ` points to an array of strings that a null pointer ends.  `unsetenv` removes a
variable by moving the pointers behind it one element back, and goes on at the same
place; `setenv` removes the variable and adds a new string.  An environment can define a
name several times and hold strings without a `=`.
-/

namespace LinuxPractice.Tlpi.Setenv

open LinuxPractice.CLib

/-- The pointers of an array; `none` is the null pointer. -/
abbrev Cells := List (Option Bytes)

inductive Errno where
  | EINVAL
  | ENOMEM
deriving DecidableEq

/-- `strncmp(entry, name, len) == 0 && entry[len] == '='`, for the length of `name`. -/
def defines (name entry : Bytes) : Bool :=
  decide (entry.take name.length = name) && decide (entry[name.length]? = some 61)

/-- The inner loop of `unsetenv`; `none` where it would leave the array. -/
def shiftBack (cells : Cells) (sp : Nat) : Option Cells :=
  match _hsp : cells[sp]? with
  | none => none
  | some none => some cells
  | some (some _) =>
    match cells[sp + 1]? with
    | none => none
    | some next => shiftBack (cells.set sp next) (sp + 1)
termination_by cells.length - sp
decreasing_by
  have hlt := (List.getElem?_eq_some_iff.mp _hsp).1
  simp only [List.length_set]
  omega

/-- The pointers that are not null. -/
def live (cells : Cells) : Nat := cells.countP Option.isSome

theorem shiftBack_nil (pre : Cells) : shiftBack (pre ++ []) pre.length = none := by
  rw [shiftBack]
  split
  · rfl
  · simp_all
  · simp_all

theorem shiftBack_null (pre rest : Cells) :
    shiftBack (pre ++ none :: rest) pre.length = some (pre ++ none :: rest) := by
  rw [shiftBack]
  split
  · simp_all
  · rfl
  · simp_all

theorem shiftBack_cons (pre rest : Cells) (x : Bytes) :
    shiftBack (pre ++ some x :: rest) pre.length =
      match rest with
      | [] => none
      | next :: rest => shiftBack ((pre ++ [next]) ++ next :: rest) (pre ++ [next]).length := by
  rw [shiftBack]
  split
  · simp_all
  · simp_all
  · cases rest with
    | nil => simp
    | cons next rest =>
      have hset : (pre ++ some x :: next :: rest).set pre.length next =
          (pre ++ [next]) ++ next :: rest := by
        simp
      simp [hset]

/-- A pointer that is overwritten is the only one that is lost. -/
theorem shiftBack_append {rest : Cells} : ∀ {pre cells' : Cells},
    shiftBack (pre ++ rest) pre.length = some cells' →
      ∃ rest', cells' = pre ++ rest' ∧
        live rest' + (if rest.head?.any Option.isSome then 1 else 0) = live rest := by
  induction rest with
  | nil =>
    intro pre cells' h
    rw [shiftBack_nil] at h
    cases h
  | cons cell rest ih =>
    intro pre cells' h
    cases cell with
    | none =>
      rw [shiftBack_null] at h
      cases h
      exact ⟨none :: rest, rfl, rfl⟩
    | some x =>
      rw [shiftBack_cons] at h
      cases rest with
      | nil => cases h
      | cons next rest =>
        obtain ⟨rest', rfl, hlive⟩ := ih h
        refine ⟨next :: rest', by simp, ?_⟩
        cases next with
        | none =>
          simp [live] at hlive ⊢
          omega
        | some y =>
          simp [live] at hlive ⊢
          omega

theorem live_drop_lt_of_shiftBack {cells cells' : Cells} {sp : Nat} {x : Bytes}
    (hsp : cells[sp]? = some (some x)) (h : shiftBack cells sp = some cells') :
    live (cells'.drop sp) < live (cells.drop sp) := by
  obtain ⟨hlt, hx⟩ := List.getElem?_eq_some_iff.mp hsp
  have hlen : (cells.take sp).length = sp := by
    rw [List.length_take]
    omega
  have hsplit : cells = cells.take sp ++ some x :: cells.drop (sp + 1) := by
    rw [← hx, List.getElem_cons_drop hlt, List.take_append_drop]
  have hshift : shiftBack (cells.take sp ++ some x :: cells.drop (sp + 1))
      (cells.take sp).length = some cells' := by
    rwa [← hsplit, hlen]
  obtain ⟨rest', rfl, hlive⟩ := shiftBack_append hshift
  have hdrop : cells.drop sp = some x :: cells.drop (sp + 1) := by
    rw [← hx, List.getElem_cons_drop hlt]
  have hdrop' : (cells.take sp ++ rest').drop sp = rest' := List.drop_left' hlen
  rw [hdrop', hdrop, ← hlive]
  simp

/-- The outer loop of `unsetenv`. -/
def unsetLoop (name : Bytes) (cells : Cells) (ep : Nat) : Option Cells :=
  match _hep : cells[ep]? with
  | none => none
  | some none => some cells
  | some (some entry) =>
    if defines name entry then
      match _hshift : shiftBack cells ep with
      | none => none
      | some cells' => unsetLoop name cells' ep
    else unsetLoop name cells (ep + 1)
termination_by live (cells.drop ep)
decreasing_by
  · exact live_drop_lt_of_shiftBack _hep _hshift
  · obtain ⟨hlt, hentry⟩ := List.getElem?_eq_some_iff.mp _hep
    rw [← List.getElem_cons_drop hlt, hentry]
    simp [live]

/-- `name[0] == '\0' || strchr(name, '=') != NULL`, for a `name` that is not null. -/
def badName (name : Bytes) : Prop := name = [] ∨ 61 ∈ name

instance (name : Bytes) : Decidable (badName name) := inferInstanceAs (Decidable (_ ∨ _))

/-- What a call returns, with `errno` for -1, and the environment behind it; `none` when it
    leaves the array. -/
abbrev Outcome := Option (Except Errno Unit × Cells)

def unsetenv (name : Option Bytes) (environ : Cells) : Outcome :=
  match name with
  | none => some (.error .EINVAL, environ)
  | some name =>
    if badName name then some (.error .EINVAL, environ)
    else (unsetLoop name environ 0).map fun environ' => (.ok (), environ')

/-- The entries in front of the null pointer. -/
def entries (environ : Cells) : List Bytes := (environ.takeWhile Option.isSome).filterMap id

/-- `getenv` of the C library: the value in the first entry that defines the name. -/
def getenv (name : Bytes) (environ : Cells) : Option Bytes :=
  ((entries environ).find? (defines name)).map (List.drop (name.length + 1))

/-- `putenv` of the C library for a string with a `=`: it replaces the entry that defines the
    name, or goes to the end of an array that is one element longer, if there is room for it. -/
def putenv (string : Bytes) (room : Bool) (environ : Cells) : Except Errno Unit × Cells :=
  let name := string.takeWhile (· ≠ 61)
  match (entries environ).findIdx? (defines name) with
  | some i => (.ok (), environ.set i (some string))
  | none =>
    if room then (.ok (), (entries environ).map some ++ [some string, none])
    else (.error .ENOMEM, environ)

/-- Whether there is memory for the string and for the longer array. -/
structure Memory where
  malloc : Bool
  putenv : Bool

def setenv (memory : Memory) (name value : Option Bytes) (overwrite : Int) (environ : Cells) :
    Outcome :=
  match name, value with
  | some name, some value =>
    if badName name then some (.error .EINVAL, environ)
    else if (getenv name environ).isSome ∧ overwrite = 0 then some (.ok (), environ)
    else
      (unsetenv (some name) environ).map fun removed =>
        if memory.malloc then putenv (name ++ 61 :: value) memory.putenv removed.2
        else (.error .ENOMEM, removed.2)
  | _, _ => some (.error .EINVAL, environ)

/-! ### The array as a list of entries -/

theorem entries_append (es : List Bytes) (junk : Cells) :
    entries (es.map some ++ none :: junk) = es := by
  have htake : (es.map some ++ none :: junk).takeWhile Option.isSome = es.map some := by
    rw [List.takeWhile_append_of_pos (by simp)]
    simp
  rw [entries, htake, List.filterMap_map]
  simp

theorem exists_entries {environ : Cells} (h : none ∈ environ) :
    ∃ junk, environ = (entries environ).map some ++ none :: junk := by
  induction environ with
  | nil => cases h
  | cons cell environ ih =>
    cases cell with
    | none => exact ⟨environ, rfl⟩
    | some x =>
      obtain ⟨junk, hjunk⟩ := ih (by simpa using h)
      refine ⟨junk, ?_⟩
      rw [hjunk, ← List.cons_append, ← List.map_cons, entries_append]

theorem shiftBack_entries {es : List Bytes} : ∀ (pre junk : Cells) (x : Bytes),
    shiftBack (pre ++ some x :: (es.map some ++ none :: junk)) pre.length =
      some (pre ++ (es.map some ++ none :: none :: junk)) := by
  induction es with
  | nil =>
    intro pre junk x
    rw [List.map_nil, List.nil_append, shiftBack_cons]
    simp only
    rw [shiftBack_null]
    simp
  | cons e es ih =>
    intro pre junk x
    rw [List.map_cons, List.cons_append, shiftBack_cons]
    simp only
    rw [ih]
    simp

theorem unsetLoop_null (name : Bytes) (pre rest : Cells) :
    unsetLoop name (pre ++ none :: rest) pre.length = some (pre ++ none :: rest) := by
  rw [unsetLoop]
  split
  · simp_all
  · rfl
  · simp_all

theorem unsetLoop_cons (name entry : Bytes) (pre rest : Cells) :
    unsetLoop name (pre ++ some entry :: rest) pre.length =
      if defines name entry then
        (shiftBack (pre ++ some entry :: rest) pre.length).bind fun cells' =>
          unsetLoop name cells' pre.length
      else unsetLoop name ((pre ++ [some entry]) ++ rest) (pre ++ [some entry]).length := by
  rw [unsetLoop]
  split
  · simp_all
  · simp_all
  · rename_i entry' hentry
    have heq : entry' = entry := by simp_all
    subst heq
    split
    · split
      · rename_i hshift
        rw [hshift]
        rfl
      · rename_i hshift
        rw [hshift]
        rfl
    · simp

theorem unsetLoop_entries (name : Bytes) {es : List Bytes} : ∀ (pre junk : Cells),
    ∃ junk', unsetLoop name (pre ++ (es.map some ++ none :: junk)) pre.length =
      some (pre ++ ((es.filter (fun e => !defines name e)).map some ++ none :: junk')) := by
  induction es with
  | nil =>
    intro pre junk
    exact ⟨junk, unsetLoop_null name pre junk⟩
  | cons e es ih =>
    intro pre junk
    rw [List.map_cons, List.cons_append, unsetLoop_cons]
    by_cases hdef : defines name e = true
    · rw [if_pos hdef, shiftBack_entries, Option.bind_some]
      obtain ⟨junk', hloop⟩ := ih pre (none :: junk)
      refine ⟨junk', ?_⟩
      rw [hloop, List.filter_cons_of_neg (by simp [hdef])]
    · rw [if_neg hdef]
      obtain ⟨junk', hloop⟩ := ih (pre ++ [some e]) junk
      refine ⟨junk', ?_⟩
      rw [hloop, List.filter_cons_of_pos (by simp [hdef])]
      simp

/-- `unsetenv` stays inside the array and removes all entries of a name. -/
theorem unsetenv_spec {name : Bytes} (hname : ¬ badName name) {environ : Cells}
    (h : none ∈ environ) :
    ∃ environ', unsetenv (some name) environ = some (.ok (), environ') ∧ none ∈ environ' ∧
      entries environ' = (entries environ).filter (fun e => !defines name e) := by
  obtain ⟨junk, hjunk⟩ := exists_entries h
  obtain ⟨junk', hloop⟩ := @unsetLoop_entries name (entries environ) [] junk
  rw [List.nil_append, ← hjunk] at hloop
  refine ⟨_, ?_, ?_, entries_append _ junk'⟩
  · simp only [unsetenv]
    rw [if_neg hname]
    simp only [List.length_nil] at hloop
    rw [hloop]
    rfl
  · simp

/-! ### What an entry defines -/

theorem defines_iff (name entry : Bytes) :
    defines name entry = true ↔ ∃ value, entry = name ++ 61 :: value := by
  rw [defines, Bool.and_eq_true, decide_eq_true_eq, decide_eq_true_eq]
  constructor
  · rintro ⟨htake, hnext⟩
    obtain ⟨hlt, hget⟩ := List.getElem?_eq_some_iff.mp hnext
    refine ⟨entry.drop (name.length + 1), ?_⟩
    calc entry = entry.take name.length ++ entry.drop name.length :=
          (List.take_append_drop _ _).symm
      _ = name ++ 61 :: entry.drop (name.length + 1) := by
          rw [htake, ← List.getElem_cons_drop hlt, hget]
  · rintro ⟨value, rfl⟩
    simp

/-- The name of an entry ends at its first `=`. -/
theorem name_of_defines {name entry : Bytes} (hname : 61 ∉ name) (h : defines name entry = true) :
    entry.takeWhile (· ≠ 61) = name := by
  obtain ⟨value, rfl⟩ := (defines_iff name entry).mp h
  rw [List.takeWhile_append_of_pos]
  · simp
  · intro c hc
    simp only [ne_eq, decide_eq_true_eq]
    rintro rfl
    exact hname hc

theorem defines_unique {m n entry : Bytes} (hm : ¬ badName m) (hn : ¬ badName n)
    (hdm : defines m entry = true) (hdn : defines n entry = true) : m = n := by
  rw [← name_of_defines (fun h => hm (.inr h)) hdm, ← name_of_defines (fun h => hn (.inr h)) hdn]

theorem defines_of_ne {m n entry : Bytes} (hm : ¬ badName m) (hn : ¬ badName n) (hne : m ≠ n)
    (hdm : defines m entry = true) : defines n entry = false := by
  cases hdn : defines n entry with
  | false => rfl
  | true => exact absurd (defines_unique hm hn hdm hdn) hne

/-- The string of a variable that is not there goes to the end. -/
theorem putenv_spec {name : Bytes} (hname : ¬ badName name) (value : Bytes) (room : Bool)
    {environ : Cells} (h : none ∈ environ)
    (habsent : ∀ e ∈ entries environ, defines name e = false) :
    ∃ environ', putenv (name ++ 61 :: value) room environ =
        (if room then .ok () else .error .ENOMEM, environ') ∧ none ∈ environ' ∧
      entries environ' = entries environ ++ (if room then [name ++ 61 :: value] else []) := by
  have htake : (name ++ 61 :: value).takeWhile (· ≠ 61) = name :=
    name_of_defines (fun hmem => hname (.inr hmem)) ((defines_iff _ _).mpr ⟨value, rfl⟩)
  have hfind : (entries environ).findIdx? (defines name) = none :=
    List.findIdx?_eq_none_iff.mpr habsent
  simp only [putenv, htake, hfind]
  cases room with
  | false => exact ⟨environ, rfl, h, by simp⟩
  | true =>
    refine ⟨_, rfl, by simp, ?_⟩
    have hsplit : (entries environ).map some ++ [some (name ++ 61 :: value), none] =
        (entries environ ++ [name ++ 61 :: value]).map some ++ [none] := by
      simp
    rw [if_pos rfl, hsplit, entries_append]

/-- A call that is not left early: the entries of the name are removed, and the new one, if
    there is memory for it, is the last. -/
theorem setenv_spec (memory : Memory) {name : Bytes} (hname : ¬ badName name) (value : Bytes)
    (overwrite : Int) {environ : Cells} (h : none ∈ environ)
    (hnew : ¬ ((getenv name environ).isSome ∧ overwrite = 0)) :
    ∃ environ', setenv memory (some name) (some value) overwrite environ =
        some (if memory.malloc && memory.putenv then .ok () else .error .ENOMEM, environ') ∧
      none ∈ environ' ∧
      entries environ' = (entries environ).filter (fun e => !defines name e) ++
        (if memory.malloc && memory.putenv then [name ++ 61 :: value] else []) := by
  obtain ⟨removed, hunset, hnull, hentries⟩ := unsetenv_spec hname h
  simp only [setenv]
  rw [if_neg hname, if_neg hnew, hunset, Option.map_some]
  cases hmalloc : memory.malloc with
  | false =>
    refine ⟨removed, rfl, hnull, ?_⟩
    rw [hentries]
    simp
  | true =>
    have habsent : ∀ e ∈ entries removed, defines name e = false := by
      intro e he
      rw [hentries] at he
      simpa using (List.mem_filter.mp he).2
    obtain ⟨environ', hput, hnull', hentries'⟩ :=
      putenv_spec hname value memory.putenv hnull habsent
    refine ⟨environ', ?_, hnull', ?_⟩
    · rw [if_pos rfl, hput]
      simp
    · rw [hentries', hentries]
      simp

/-! ### The environment as a map from names to values -/

/-- The names that variables can have. -/
abbrev Name := { name : Bytes // ¬ badName name }

abbrev Vars := Name → Option Bytes

def vars (environ : Cells) : Vars := fun name => getenv name.1 environ

inductive Call where
  | setenv (memory : Memory) (name value : Option Bytes) (overwrite : Int)
  | unsetenv (name : Option Bytes)

namespace Call

def run (environ : Cells) : Call → Outcome
  | setenv memory name value overwrite => Setenv.setenv memory name value overwrite environ
  | unsetenv name => Setenv.unsetenv name environ

/-- The same call on a map.  A `setenv` without memory forgets the old value. -/
def apply (v : Vars) : Call → Except Errno Unit × Vars
  | setenv memory (some name) (some value) overwrite =>
    if h : badName name then (.error .EINVAL, v)
    else if (v ⟨name, h⟩).isSome ∧ overwrite = 0 then (.ok (), v)
    else if memory.malloc && memory.putenv then
      (.ok (), Function.update v ⟨name, h⟩ (some value))
    else (.error .ENOMEM, Function.update v ⟨name, h⟩ none)
  | unsetenv (some name) =>
    if h : badName name then (.error .EINVAL, v)
    else (.ok (), Function.update v ⟨name, h⟩ none)
  | _ => (.error .EINVAL, v)

def name : Call → Option Bytes
  | setenv _ name _ _ => name
  | unsetenv name => name

/-- The entry defines the name of the call. -/
def touches (entry : Bytes) (call : Call) : Bool := call.name.any (defines · entry)

end Call

def runCalls (environ : Cells) : List Call → Option (List (Except Errno Unit) × Cells)
  | [] => some ([], environ)
  | call :: calls =>
    (call.run environ).bind fun r =>
      (runCalls r.2 calls).map fun rest => (r.1 :: rest.1, rest.2)

def applyCalls (v : Vars) : List Call → List (Except Errno Unit) × Vars
  | [] => ([], v)
  | call :: calls =>
    let r := call.apply v
    let rest := applyCalls r.2 calls
    (r.1 :: rest.1, rest.2)

theorem find?_removed (es : List Bytes) (name : Bytes) :
    (es.filter (fun e => !defines name e)).find? (defines name) = none := by
  rw [List.find?_eq_none]
  intro e he
  simpa using (List.mem_filter.mp he).2

theorem find?_removed_of_ne (es : List Bytes) {name other : Name} (hne : other ≠ name) :
    (es.filter (fun e => !defines name.1 e)).find? (defines other.1) =
      es.find? (defines other.1) := by
  rw [List.find?_filter]
  congr 1
  funext e
  cases hdef : defines other.1 e with
  | false => simp
  | true =>
    rw [defines_of_ne other.2 name.2 (fun h => hne (Subtype.ext h)) hdef]
    rfl

theorem vars_of_removed {environ environ' : Cells} (name : Name)
    (h : entries environ' = (entries environ).filter (fun e => !defines name.1 e)) :
    vars environ' = Function.update (vars environ) name none := by
  funext other
  simp only [vars, getenv, h]
  by_cases heq : other = name
  · subst heq
    rw [Function.update_self, find?_removed, Option.map_none]
  · rw [Function.update_of_ne heq, find?_removed_of_ne _ heq]
    rfl

theorem vars_of_replaced {environ environ' : Cells} (name : Name) (value : Bytes)
    (h : entries environ' =
      (entries environ).filter (fun e => !defines name.1 e) ++ [name.1 ++ 61 :: value]) :
    vars environ' = Function.update (vars environ) name (some value) := by
  funext other
  have hdef : defines name.1 (name.1 ++ 61 :: value) = true :=
    (defines_iff _ _).mpr ⟨value, rfl⟩
  simp only [vars, getenv, h, List.find?_append]
  by_cases heq : other = name
  · subst heq
    rw [Function.update_self, find?_removed, List.find?_cons_of_pos hdef]
    simp
  · have hother : defines other.1 (name.1 ++ 61 :: value) = false :=
      defines_of_ne name.2 other.2 (fun h => heq (Subtype.ext h.symm)) hdef
    rw [Function.update_of_ne heq, find?_removed_of_ne _ heq,
      List.find?_cons_of_neg (by simp [hother])]
    simp [vars, getenv]

/-- What a call can do to the entries. -/
inductive Effect (call : Call) (before : List Bytes) : List Bytes → Prop
  | none : Effect call before before
  | remove {name : Bytes} : call.name = some name → ¬ badName name →
      Effect call before (before.filter (fun e => !defines name e))
  | replace {name : Bytes} (value : Bytes) : call.name = some name → ¬ badName name →
      Effect call before (before.filter (fun e => !defines name e) ++ [name ++ 61 :: value])

/-- A call does to the variables what it does to a map. -/
def Refines (call : Call) (environ : Cells) : Prop :=
  ∃ environ', call.run environ = some ((call.apply (vars environ)).1, environ') ∧
    none ∈ environ' ∧ vars environ' = (call.apply (vars environ)).2 ∧
    Effect call (entries environ) (entries environ')

theorem refines_unsetenv (name : Option Bytes) {environ : Cells} (h : none ∈ environ) :
    Refines (.unsetenv name) environ := by
  cases name with
  | none => exact ⟨environ, rfl, h, rfl, .none⟩
  | some name =>
    by_cases hname : badName name
    · have happly : (Call.unsetenv (some name)).apply (vars environ) =
          (.error .EINVAL, vars environ) := by
        rw [Call.apply, dif_pos hname]
      refine ⟨environ, ?_, h, by rw [happly], .none⟩
      rw [happly, Call.run, unsetenv, if_pos hname]
    · obtain ⟨environ', hrun, hnull, hentries⟩ := unsetenv_spec hname h
      have happly : (Call.unsetenv (some name)).apply (vars environ) =
          (.ok (), Function.update (vars environ) ⟨name, hname⟩ none) := by
        rw [Call.apply, dif_neg hname]
      refine ⟨environ', ?_, hnull, ?_, ?_⟩
      · rw [happly]
        exact hrun
      · rw [happly]
        exact vars_of_removed ⟨name, hname⟩ hentries
      · rw [hentries]
        exact .remove rfl hname

theorem refines_setenv (memory : Memory) (name value : Option Bytes) (overwrite : Int)
    {environ : Cells} (h : none ∈ environ) :
    Refines (.setenv memory name value overwrite) environ := by
  cases name with
  | none => exact ⟨environ, rfl, h, rfl, .none⟩
  | some name =>
  cases value with
  | none => exact ⟨environ, rfl, h, rfl, .none⟩
  | some value =>
  by_cases hname : badName name
  · have happly : (Call.setenv memory (some name) (some value) overwrite).apply (vars environ) =
        (.error .EINVAL, vars environ) := by
      rw [Call.apply, dif_pos hname]
    refine ⟨environ, ?_, h, by rw [happly], .none⟩
    rw [happly, Call.run, setenv, if_pos hname]
  · by_cases hold : (vars environ ⟨name, hname⟩).isSome ∧ overwrite = 0
    · have happly : (Call.setenv memory (some name) (some value) overwrite).apply (vars environ) =
          (.ok (), vars environ) := by
        rw [Call.apply, dif_neg hname, if_pos hold]
      refine ⟨environ, ?_, h, by rw [happly], .none⟩
      have hold' : (getenv name environ).isSome ∧ overwrite = 0 := hold
      rw [happly, Call.run, setenv, if_neg hname, if_pos hold']
    · obtain ⟨environ', hrun, hnull, hentries⟩ :=
        setenv_spec memory hname value overwrite h hold
      have happly : (Call.setenv memory (some name) (some value) overwrite).apply (vars environ) =
          if memory.malloc && memory.putenv then
            (.ok (), Function.update (vars environ) ⟨name, hname⟩ (some value))
          else (.error .ENOMEM, Function.update (vars environ) ⟨name, hname⟩ none) := by
        rw [Call.apply, dif_neg hname, if_neg hold]
      cases hroom : memory.malloc && memory.putenv with
      | false =>
        rw [hroom] at hrun hentries happly
        simp only [Bool.false_eq_true, if_false, List.append_nil] at hrun hentries happly
        refine ⟨environ', ?_, hnull, ?_, ?_⟩
        · rw [happly]
          exact hrun
        · rw [happly]
          exact vars_of_removed ⟨name, hname⟩ hentries
        · rw [hentries]
          exact .remove rfl hname
      | true =>
        rw [hroom] at hrun hentries happly
        simp only [if_true] at hrun hentries happly
        refine ⟨environ', ?_, hnull, ?_, ?_⟩
        · rw [happly]
          exact hrun
        · rw [happly]
          exact vars_of_replaced ⟨name, hname⟩ value hentries
        · rw [hentries]
          exact .replace value rfl hname

theorem refines (call : Call) {environ : Cells} (h : none ∈ environ) : Refines call environ := by
  cases call with
  | setenv memory name value overwrite => exact refines_setenv memory name value overwrite h
  | unsetenv name => exact refines_unsetenv name h

/-! ### Runs -/

/-- Entries of other names stay, in their order. -/
theorem Effect.filter_touches {call : Call} {before after : List Bytes}
    (h : Effect call before after) (p : Bytes → Bool)
    (hp : ∀ e, call.touches e = true → p e = false) : after.filter p = before.filter p := by
  have hremove : ∀ {name : Bytes}, call.name = some name →
      (before.filter (fun e => !defines name e)).filter p = before.filter p := by
    intro name hname
    rw [List.filter_filter]
    apply List.filter_congr
    intro e _
    cases hdef : defines name e with
    | false => simp
    | true =>
      rw [hp e (by simp [Call.touches, hname, hdef])]
      rfl
  cases h with
  | none => rfl
  | remove hname _ => exact hremove hname
  | replace value hname _ =>
    rw [List.filter_append, hremove hname]
    simp only [List.filter_cons, List.filter_nil]
    rw [if_neg, List.append_nil]
    rw [hp _ (by simp [Call.touches, hname, defines_iff])]
    simp

/-- No call adds a second entry for a name. -/
theorem Effect.count_le {call : Call} {before after : List Bytes}
    (h : Effect call before after) (name : Name) :
    after.countP (defines name.1) ≤ max 1 (before.countP (defines name.1)) := by
  cases h with
  | none => exact le_max_right _ _
  | @remove m _ _ =>
    refine le_trans ?_ (le_max_right _ _)
    exact List.Sublist.countP_le List.filter_sublist
  | @replace m value _ hm =>
    rw [List.countP_append]
    by_cases heq : name.1 = m
    · subst heq
      have hzero : (before.filter (fun e => !defines name.1 e)).countP (defines name.1) = 0 := by
        rw [List.countP_eq_zero]
        intro e he
        simpa using (List.mem_filter.mp he).2
      rw [hzero, Nat.zero_add]
      exact le_trans List.countP_le_length (le_max_left _ _)
    · have hother : defines name.1 (m ++ 61 :: value) = false :=
        defines_of_ne hm name.2 (fun h => heq h.symm) ((defines_iff _ _).mpr ⟨value, rfl⟩)
      refine le_trans ?_ (le_max_right _ _)
      rw [List.countP_cons_of_neg (by simp [hother]), List.countP_nil, Nat.add_zero]
      exact List.Sublist.countP_le List.filter_sublist

/-- Calls of `setenv` and `unsetenv`, in any order and with or without memory, on an
    environment that defines names as often as it wants: they never leave the array, the
    answers and the variables behind them are those of a map, the entries of other names
    stay as they were, and no name gets a second entry. -/
theorem runCalls_refines (calls : List Call) {environ : Cells} (h : none ∈ environ) :
    ∃ environ', runCalls environ calls = some ((applyCalls (vars environ) calls).1, environ') ∧
      none ∈ environ' ∧ vars environ' = (applyCalls (vars environ) calls).2 ∧
      (∀ p : Bytes → Bool, (∀ e, ∀ call ∈ calls, call.touches e = true → p e = false) →
        (entries environ').filter p = (entries environ).filter p) ∧
      ∀ name : Name, (entries environ').countP (defines name.1) ≤
        max 1 ((entries environ).countP (defines name.1)) := by
  induction calls generalizing environ with
  | nil => exact ⟨environ, rfl, h, rfl, fun p _ => rfl, fun name => le_max_right _ _⟩
  | cons call calls ih =>
    obtain ⟨next, hrun, hnull, hvars, heffect⟩ := refines call h
    obtain ⟨environ', hruns, hnull', hvars', hfilter, hcount⟩ := ih hnull
    rw [hvars] at hruns hvars'
    refine ⟨environ', ?_, hnull', hvars', ?_, ?_⟩
    · rw [runCalls, hrun, Option.bind_some, hruns]
      rfl
    · intro p hp
      rw [hfilter p fun e call' hcall' => hp e call' (List.mem_cons_of_mem _ hcall')]
      exact heffect.filter_touches p fun e => hp e call List.mem_cons_self
    · intro name
      have hone := heffect.count_le name
      have hrest := hcount name
      omega

/-- The calls of the test program, without the last. -/
def testCalls : List Call :=
  [.unsetenv (some (bytes "TT")), .setenv ⟨true, true⟩ (some (bytes "xyz")) (some (bytes "one")) 1,
    .setenv ⟨true, true⟩ (some (bytes "xyz")) (some (bytes "two")) 0]

theorem runCalls_refines_test :
    ∃ environ', runCalls [some (bytes "TT=xxxxx"), none] testCalls =
        some ([.ok (), .ok (), .ok ()], environ') ∧
      getenv (bytes "xyz") environ' = some (bytes "one") ∧
      getenv (bytes "TT") environ' = none := by
  obtain ⟨environ', hrun, -, hvars, -⟩ :=
    @runCalls_refines testCalls [some (bytes "TT=xxxxx"), none] (by decide)
  refine ⟨environ', hrun, ?_, ?_⟩
  · exact congrFun hvars ⟨bytes "xyz", by decide⟩
  · exact congrFun hvars ⟨bytes "TT", by decide⟩

end LinuxPractice.Tlpi.Setenv
