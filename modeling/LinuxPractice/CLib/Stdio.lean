import LinuxPractice.CLib.Bytes

/-!
# Streams, `fgets` and `snprintf`

A text stream is seen through the strings that successive `fgets` calls deliver:
at most `m` bytes each, cut behind every newline (`m` is one less than the size
of the caller's buffer).  A failing call ends the sequence; `fgets` also drops the
bytes of an unfinished line then, so a failure is the number of calls that
succeed before it.
-/

namespace LinuxPractice.CLib

/-- What a failing call stores in `errno`. -/
structure Errno where
  val : Nat
  ne_zero : val ≠ 0
deriving DecidableEq

def newline : UInt8 := 10

/-- The bytes one `fgets` call takes from a text: at most `m`, up to a newline. -/
def fgetsChunk : (m : Nat) → Bytes → Bytes
  | 0, _ => []
  | _ + 1, [] => []
  | m + 1, c :: cs => if c = newline then [c] else c :: fgetsChunk m cs

def fgetsCalls (m : Nat) : (fuel : Nat) → Bytes → List Bytes
  | 0, _ => []
  | fuel + 1, text =>
    if text = [] then []
    else fgetsChunk m text :: fgetsCalls m fuel (text.drop (fgetsChunk m text).length)

/-- The strings that `fgets` delivers on `text` before it answers NULL. -/
def fgetsLines (m : Nat) (text : Bytes) : List Bytes := fgetsCalls m text.length text

/-- An open stream: its text, the call of `fgets` (counted from 0) that fails and
    the failure of `fclose`, if there are such. -/
structure Stream where
  text : Bytes
  fgetsErr : Option (Nat × Errno)
  fcloseErr : Option Errno
deriving DecidableEq

/-- What `fgets` delivers from a stream. -/
def Stream.lines (m : Nat) (st : Stream) : List Bytes :=
  match st.fgetsErr with
  | none => fgetsLines m st.text
  | some (calls, _) => (fgetsLines m st.text).take calls

/-- What the call of `fgets` that ends a loop over the stream stores in `errno`, if it
    fails and has not just reached the end of the file. -/
def Stream.lastErr (m : Nat) (st : Stream) : Option Errno :=
  match st.fgetsErr with
  | none => none
  | some (calls, errno) => if calls ≤ (fgetsLines m st.text).length then some errno else none

/-- The string that `snprintf` with size argument `size` stores for the formatted
    text `out`; a NUL follows it. -/
def snprintf (size : Nat) (out : Bytes) : Bytes := out.take (size - 1)

theorem snprintf_eq {size : Nat} {out : Bytes} (h : out.length < size) : snprintf size out = out := by
  apply List.take_of_length_le
  omega

theorem length_snprintf_lt {size : Nat} (hsize : 0 < size) (out : Bytes) :
    (snprintf size out).length < size := by
  rw [snprintf, List.length_take]
  omega

/-! ### One call -/

theorem length_fgetsChunk_le (m : Nat) (text : Bytes) : (fgetsChunk m text).length ≤ m := by
  induction m generalizing text with
  | zero => simp [fgetsChunk]
  | succ m ih =>
    cases text with
    | nil => simp [fgetsChunk]
    | cons c cs =>
      unfold fgetsChunk
      split
      · simp
      · simpa using ih cs

theorem length_fgetsChunk_pos {m : Nat} (hm : 0 < m) {text : Bytes} (h : text ≠ []) :
    0 < (fgetsChunk m text).length := by
  obtain ⟨m, rfl⟩ : ∃ k, m = k + 1 := ⟨m - 1, by omega⟩
  cases text with
  | nil => exact absurd rfl h
  | cons c cs =>
    unfold fgetsChunk
    split <;> simp

/-- A line that fits is delivered whole; of a longer one the first `m` bytes are. -/
theorem fgetsChunk_line (m : Nat) {body : Bytes} (hbody : newline ∉ body) (more : Bytes) :
    fgetsChunk m (body ++ newline :: more) =
      if body.length < m then body ++ [newline] else body.take m := by
  induction m generalizing body with
  | zero => simp [fgetsChunk]
  | succ m ih =>
    cases body with
    | nil => simp [fgetsChunk]
    | cons c cs =>
      obtain ⟨hc, hcs⟩ := not_or.mp (by simpa using hbody)
      rw [List.cons_append, fgetsChunk, if_neg (Ne.symm hc), ih hcs]
      by_cases hlt : cs.length < m
      · rw [if_pos hlt, if_pos (by simpa using hlt)]
        rfl
      · rw [if_neg hlt, if_neg (by simpa using hlt), List.take_succ_cons]

theorem fgetsChunk_append_drop (m : Nat) (text : Bytes) :
    fgetsChunk m text ++ text.drop (fgetsChunk m text).length = text := by
  induction m generalizing text with
  | zero => simp [fgetsChunk]
  | succ m ih =>
    cases text with
    | nil => simp [fgetsChunk]
    | cons c cs =>
      unfold fgetsChunk
      split
      · simp
      · simpa using ih cs

/-! ### All calls -/

theorem fgetsCalls_eq {m : Nat} (hm : 0 < m) :
    ∀ {fuel : Nat} {text : Bytes}, text.length ≤ fuel →
      fgetsCalls m fuel text = fgetsLines m text := by
  intro fuel
  induction fuel using Nat.strong_induction_on with
  | _ fuel ih =>
    intro text htext
    cases text with
    | nil => cases fuel <;> simp [fgetsLines, fgetsCalls]
    | cons c cs =>
      obtain ⟨fuel, rfl⟩ : ∃ k, fuel = k + 1 := ⟨fuel - 1, by simp at htext; omega⟩
      have hpos := length_fgetsChunk_pos hm (List.cons_ne_nil c cs)
      have hrest : ((c :: cs).drop (fgetsChunk m (c :: cs)).length).length ≤ cs.length := by
        rw [List.length_drop, List.length_cons]
        omega
      simp only [List.length_cons] at htext
      rw [fgetsLines, List.length_cons, fgetsCalls, fgetsCalls, if_neg (by simp),
        if_neg (by simp)]
      rw [ih fuel (by omega) (by omega), ih cs.length (by omega) hrest]

theorem fgetsLines_nil (m : Nat) : fgetsLines m [] = [] := rfl

theorem fgetsLines_cons {m : Nat} (hm : 0 < m) {text : Bytes} (h : text ≠ []) :
    fgetsLines m text =
      fgetsChunk m text :: fgetsLines m (text.drop (fgetsChunk m text).length) := by
  have hpos := length_fgetsChunk_pos hm h
  obtain ⟨k, hk⟩ : ∃ k, text.length = k + 1 :=
    ⟨text.length - 1, by have := List.length_pos_iff.mpr h; omega⟩
  rw [fgetsLines, hk, fgetsCalls, if_neg h, fgetsCalls_eq hm]
  rw [List.length_drop]
  omega

theorem length_mem_fgetsLines {m : Nat} (hm : 0 < m) {text chunk : Bytes}
    (h : chunk ∈ fgetsLines m text) : 0 < chunk.length ∧ chunk.length ≤ m := by
  induction hlen : text.length using Nat.strong_induction_on generalizing text with
  | _ k ih =>
    by_cases hnil : text = []
    · simp [hnil, fgetsLines_nil] at h
    · rw [fgetsLines_cons hm hnil] at h
      have hpos := length_fgetsChunk_pos hm hnil
      rcases List.mem_cons.mp h with rfl | h
      · exact ⟨hpos, length_fgetsChunk_le m text⟩
      · have htext := List.length_pos_iff.mpr hnil
        exact ih _ (by rw [← hlen, List.length_drop]; omega) h rfl

theorem flatten_fgetsLines {m : Nat} (hm : 0 < m) (text : Bytes) :
    (fgetsLines m text).flatten = text := by
  induction hlen : text.length using Nat.strong_induction_on generalizing text with
  | _ k ih =>
    by_cases hnil : text = []
    · rw [hnil, fgetsLines_nil]
      rfl
    · have hpos := length_fgetsChunk_pos hm hnil
      have htext := List.length_pos_iff.mpr hnil
      rw [fgetsLines_cons hm hnil, List.flatten_cons,
        ih _ (by rw [← hlen, List.length_drop]; omega) _ rfl, fgetsChunk_append_drop]

theorem Stream.length_le_of_mem_lines {m : Nat} (hm : 0 < m) (st : Stream) {chunk : Bytes}
    (h : chunk ∈ st.lines m) : chunk.length ≤ m := by
  unfold Stream.lines at h
  split at h
  · exact (length_mem_fgetsLines hm h).2
  · exact (length_mem_fgetsLines hm (List.mem_of_mem_take h)).2

theorem fgetsLines_line {m : Nat} {body : Bytes} (hbody : newline ∉ body) (hlen : body.length < m)
    (more : Bytes) :
    fgetsLines m (body ++ newline :: more) = (body ++ [newline]) :: fgetsLines m more := by
  rw [fgetsLines_cons (by omega) (by simp), fgetsChunk_line m hbody, if_pos hlen]
  congr 2
  simp [List.drop_append]

theorem fgetsLines_long {m : Nat} (hm : 0 < m) {body : Bytes} (hbody : newline ∉ body)
    (hlen : m ≤ body.length) (more : Bytes) :
    fgetsLines m (body ++ newline :: more) =
      body.take m :: fgetsLines m (body.drop m ++ newline :: more) := by
  have htake : (body.take m).length = m := by rw [List.length_take]; omega
  rw [fgetsLines_cons hm (by simp), fgetsChunk_line m hbody, if_neg (by omega), htake,
    List.drop_append_of_le_length hlen]

/-- The text of some lines, given without their newlines. -/
def unlines (bodies : List Bytes) : Bytes := (bodies.map (· ++ [newline])).flatten

theorem unlines_cons (body : Bytes) (bodies : List Bytes) :
    unlines (body :: bodies) = body ++ newline :: unlines bodies := by
  simp [unlines]

theorem fgetsLines_unlines {m : Nat} {bodies : List Bytes}
    (h : ∀ body ∈ bodies, newline ∉ body ∧ body.length < m) :
    fgetsLines m (unlines bodies) = bodies.map (· ++ [newline]) := by
  induction bodies with
  | nil => rfl
  | cons body bodies ih =>
    obtain ⟨hbody, hlen⟩ := h body (by simp)
    rw [unlines_cons, fgetsLines_line hbody hlen, ih fun b hb => h b (by simp [hb]), List.map_cons]

/-- Lines are read one after the other: the calls on a line followed by more text
    are the calls on the line, then the calls on the rest. -/
theorem fgetsLines_append {m : Nat} (hm : 0 < m) {body : Bytes} (hbody : newline ∉ body)
    (more : Bytes) :
    fgetsLines m (body ++ newline :: more) =
      fgetsLines m (body ++ [newline]) ++ fgetsLines m more := by
  induction hlen : body.length using Nat.strong_induction_on generalizing body with
  | _ k ih =>
    by_cases hlt : body.length < m
    · rw [fgetsLines_line hbody hlt, fgetsLines_line hbody hlt, fgetsLines_nil]
      rfl
    · have hmem : newline ∉ body.drop m := fun h => hbody (List.mem_of_mem_drop h)
      have hle : m ≤ body.length := Nat.le_of_not_lt hlt
      rw [fgetsLines_long hm hbody hle, fgetsLines_long hm hbody hle,
        ih _ (by rw [← hlen, List.length_drop]; omega) hmem rfl]
      rfl

theorem fgetsLines_unlines_flatten {m : Nat} (hm : 0 < m) {bodies : List Bytes}
    (h : ∀ body ∈ bodies, newline ∉ body) :
    fgetsLines m (unlines bodies) =
      (bodies.map fun body => fgetsLines m (body ++ [newline])).flatten := by
  induction bodies with
  | nil => rfl
  | cons body bodies ih =>
    rw [unlines_cons, fgetsLines_append hm (h body (by simp)), ih fun b hb => h b (by simp [hb]),
      List.map_cons, List.flatten_cons]

/-- What is delivered of a line fills the buffer or holds the newline. -/
theorem full_or_newline_mem {m : Nat} (hm : 0 < m) {body chunk : Bytes} (hbody : newline ∉ body)
    (h : chunk ∈ fgetsLines m (body ++ [newline])) : chunk.length = m ∨ newline ∈ chunk := by
  induction hlen : body.length using Nat.strong_induction_on generalizing body with
  | _ k ih =>
    by_cases hlt : body.length < m
    · rw [fgetsLines_line hbody hlt, fgetsLines_nil] at h
      obtain rfl := List.mem_singleton.mp h
      exact .inr (by simp)
    · have hmem : newline ∉ body.drop m := fun h => hbody (List.mem_of_mem_drop h)
      have hle : m ≤ body.length := Nat.le_of_not_lt hlt
      rw [fgetsLines_long hm hbody hle] at h
      rcases List.mem_cons.mp h with rfl | h
      · left
        rw [List.length_take]
        omega
      · exact ih _ (by rw [← hlen, List.length_drop]; omega) hmem h rfl

end LinuxPractice.CLib
