import LinuxPractice.CLib.Bytes

/-!
# Character arrays and the `<string.h>` functions over them

A `CharArray n` is an array object `char a[n]`; pointers into it are offsets.
Every access is checked: an operation answers `none` where the C program would
leave the array, that is where its behaviour is undefined.  `strtok_r` follows
its documented algorithm (`strspn`, `strcspn`, one NUL stored over the
delimiter) and `nextToken` states what it computes on plain strings.
-/

namespace LinuxPractice.CLib

/-- An array object `char a[n]`. -/
structure CharArray (n : Nat) where
  bytes : Bytes
  length_bytes : bytes.length = n
deriving DecidableEq

def CharArray.zeros (n : Nat) : CharArray n := ⟨List.replicate n 0, List.length_replicate⟩

/-- The conversion of a signed value to `size_t`. -/
def sizeT (x : Int) : Nat := (x % 2 ^ 64).toNat

/-- The bytes before the first NUL; `none` when no NUL follows. -/
def takeString : Bytes → Option Bytes
  | [] => none
  | c :: cs => if c = 0 then some [] else (takeString cs).map (c :: ·)

theorem takeString_append {s : Bytes} (h : 0 ∉ s) (post : Bytes) :
    takeString (s ++ 0 :: post) = some s := by
  induction s with
  | nil => simp [takeString]
  | cons c cs ih =>
    obtain ⟨hc, hcs⟩ := not_or.mp (by simpa using h)
    simp [takeString, ih hcs, Ne.symm hc]

theorem exists_append_of_takeString {m s : Bytes} (h : takeString m = some s) :
    0 ∉ s ∧ ∃ post, m = s ++ 0 :: post := by
  induction m generalizing s with
  | nil => simp [takeString] at h
  | cons c cs ih =>
    unfold takeString at h
    split at h
    · rename_i hc
      obtain rfl : [] = s := by simpa using h
      exact ⟨by simp, cs, by simp [hc]⟩
    · rename_i hc
      obtain ⟨t, ht, rfl⟩ := Option.map_eq_some_iff.mp h
      obtain ⟨hmem, post, rfl⟩ := ih ht
      exact ⟨by simp [hmem, Ne.symm hc], post, rfl⟩

/-- `strspn`: the length of the longest prefix made of bytes of `delim`. -/
def strspn (s delim : Bytes) : Nat := (s.takeWhile fun c => decide (c ∈ delim)).length

/-- `strcspn`: the length of the longest prefix without bytes of `delim`. -/
def strcspn (s delim : Bytes) : Nat := (s.takeWhile fun c => decide (c ∉ delim)).length

namespace CharArray

variable {n : Nat}

@[ext] theorem ext {a b : CharArray n} (h : a.bytes = b.bytes) : a = b := by
  cases a
  cases b
  simp_all

/-! ### Checked accesses -/

def load (a : CharArray n) (i : Nat) : Option UInt8 := a.bytes[i]?

def store (a : CharArray n) (i : Nat) (c : UInt8) : Option (CharArray n) :=
  if i < n then some ⟨a.bytes.set i c, by simp [a.length_bytes]⟩ else none

/-- The C string that starts at offset `p`: what `strlen`, `strcmp`, `strtol` and
    `%s` read through a pointer. -/
def cstr (a : CharArray n) (p : Nat) : Option Bytes := takeString (a.bytes.drop p)

def memmove (a : CharArray n) (dst src len : Nat) : Option (CharArray n) :=
  if h : dst + len ≤ n ∧ src + len ≤ n then
    some ⟨a.bytes.take dst ++ (a.bytes.drop src).take len ++ a.bytes.drop (dst + len), by
      have := a.length_bytes
      simp only [List.length_append, List.length_take, List.length_drop]
      omega⟩
  else none

/-- What `fgets` leaves in an array of `n + 1` bytes when it delivers `chunk`: the
    chunk, a NUL, and the old bytes behind it. -/
def putLine (a : CharArray (n + 1)) (chunk : Bytes) : CharArray (n + 1) :=
  ⟨chunk.take n ++ 0 :: a.bytes.drop (chunk.length + 1), by
    have := a.length_bytes
    simp only [List.length_append, List.length_take, List.length_cons, List.length_drop]
    omega⟩

/-- `strtok_r(s, delim, &save)` with `s` the offset of the string (the caller
    passes the saved offset for a NULL `s`): the array, the token if there is
    one, and the new saved offset. -/
def strtok_r (a : CharArray n) (s : Nat) (delim : Bytes) :
    Option (CharArray n × Option Nat × Nat) := do
  let str ← a.cstr s
  let skip := strspn str delim
  if skip = str.length then return (a, none, s + skip)
  let len := strcspn (str.drop skip) delim
  -- `*end == '\0'`: the token ends the string and nothing is stored
  if skip + len = str.length then return (a, some (s + skip), s + skip + len)
  let a ← a.store (s + skip + len) 0
  return (a, some (s + skip), s + skip + len + 1)

/-! ### C strings and frames -/

theorem cstr_eq_some_of_drop {a : CharArray n} {p : Nat} {s : Bytes} (post : Bytes)
    (h : a.bytes.drop p = s ++ 0 :: post) (hs : 0 ∉ s) : a.cstr p = some s := by
  rw [cstr, h, takeString_append hs]

theorem exists_drop_of_cstr {a : CharArray n} {p : Nat} {s : Bytes}
    (h : a.cstr p = some s) : 0 ∉ s ∧ ∃ post, a.bytes.drop p = s ++ 0 :: post :=
  exists_append_of_takeString h

theorem add_length_lt_of_cstr {a : CharArray n} {p : Nat} {s : Bytes}
    (h : a.cstr p = some s) : p + s.length < n := by
  obtain ⟨-, post, hpost⟩ := exists_drop_of_cstr h
  have hlen := congrArg List.length hpost
  simp only [List.length_drop, a.length_bytes, List.length_append, List.length_cons] at hlen
  omega

theorem load_of_cstr {a : CharArray n} {p : Nat} {s : Bytes} (h : a.cstr p = some s) (i : Nat)
    (hi : i < s.length) : a.load (p + i) = s[i]? := by
  obtain ⟨-, post, hpost⟩ := exists_drop_of_cstr h
  rw [load, ← List.getElem?_drop, hpost, List.getElem?_append_left hi]

theorem load_end_of_cstr {a : CharArray n} {p : Nat} {s : Bytes} (h : a.cstr p = some s) :
    a.load (p + s.length) = some 0 := by
  obtain ⟨-, post, hpost⟩ := exists_drop_of_cstr h
  rw [load, ← List.getElem?_drop, hpost]
  simp

theorem cstr_of_load {a : CharArray n} {p : Nat} {s : Bytes} (hs : 0 ∉ s)
    (hload : ∀ i, i < s.length → a.load (p + i) = s[i]?)
    (hend : a.load (p + s.length) = some 0) : a.cstr p = some s := by
  apply cstr_eq_some_of_drop (a.bytes.drop (p + s.length + 1)) _ hs
  apply List.ext_getElem?
  intro i
  rw [List.getElem?_drop]
  rcases Nat.lt_trichotomy i s.length with hi | rfl | hi
  · rw [List.getElem?_append_left hi]
    exact hload i hi
  · rw [List.getElem?_append_right (by omega), Nat.sub_self]
    exact hend
  · rw [List.getElem?_append_right (by omega)]
    obtain ⟨j, hj⟩ : ∃ j, i - s.length = j + 1 := ⟨i - s.length - 1, by omega⟩
    rw [hj, List.getElem?_cons_succ, List.getElem?_drop]
    congr 1
    omega

theorem cstr_add {a : CharArray n} {p : Nat} {s t : Bytes} (h : a.cstr p = some (s ++ t)) :
    a.cstr (p + s.length) = some t := by
  obtain ⟨hmem, post, hpost⟩ := exists_drop_of_cstr h
  apply cstr_eq_some_of_drop post _ (fun ht => hmem (List.mem_append_right s ht))
  rw [← List.drop_drop, hpost, List.append_assoc, List.drop_left]

theorem cstr_congr {a b : CharArray n} {p : Nat} (h : ∀ i, p ≤ i → b.load i = a.load i) :
    b.cstr p = a.cstr p := by
  have hdrop : b.bytes.drop p = a.bytes.drop p := by
    apply List.ext_getElem?
    intro i
    rw [List.getElem?_drop, List.getElem?_drop]
    exact h (p + i) (by omega)
  rw [cstr, cstr, hdrop]

theorem load_store {a b : CharArray n} {i : Nat} {c : UInt8} (h : a.store i c = some b)
    (j : Nat) : b.load j = if j = i then some c else a.load j := by
  unfold store at h
  split at h
  · rename_i hi
    obtain rfl := Option.some.inj h
    have hlen := a.length_bytes
    by_cases hj : j = i
    · subst hj
      simp [load, hlen, hi]
    · simp [load, hj, List.getElem?_set_ne (Ne.symm hj)]
  · cases h

theorem add_le_of_memmove {a b : CharArray n} {dst src len : Nat}
    (h : a.memmove dst src len = some b) : dst + len ≤ n := by
  unfold memmove at h
  split at h
  · rename_i hin
    exact hin.1
  · cases h

theorem load_memmove {a b : CharArray n} {dst src len : Nat}
    (h : a.memmove dst src len = some b) (i : Nat) :
    b.load i = if dst ≤ i ∧ i < dst + len then a.load (src + (i - dst)) else a.load i := by
  unfold memmove at h
  split at h
  · rename_i hin
    obtain rfl := Option.some.inj h
    have hlen := a.length_bytes
    have hmid : ((a.bytes.drop src).take len).length = len := by simp; omega
    simp only [load]
    rcases Nat.lt_or_ge i dst with hi | hi
    · rw [if_neg (by omega), List.append_assoc,
        List.getElem?_append_left (by simp; omega), List.getElem?_take_of_lt hi]
    · rw [List.append_assoc, List.getElem?_append_right (by simp; omega)]
      have htake : (a.bytes.take dst).length = dst := by simp; omega
      rw [htake]
      by_cases hmem : i < dst + len
      · rw [if_pos ⟨hi, hmem⟩, List.getElem?_append_left (by omega),
          List.getElem?_take_of_lt (by omega), List.getElem?_drop]
      · rw [if_neg (by omega), List.getElem?_append_right (by omega), hmid, List.getElem?_drop]
        congr 1
        omega
  · cases h

theorem cstr_memmove {a b : CharArray n} {dst src : Nat} {s : Bytes} (hs : a.cstr src = some s)
    (h : a.memmove dst src (s.length + 1) = some b) : b.cstr dst = some s := by
  apply cstr_of_load
  · exact (exists_drop_of_cstr hs).1
  · intro i hi
    rw [load_memmove h, if_pos (by omega), Nat.add_sub_cancel_left]
    exact load_of_cstr hs i hi
  · rw [load_memmove h, if_pos (by omega), Nat.add_sub_cancel_left]
    exact load_end_of_cstr hs

theorem bytes_putLine (a : CharArray (n + 1)) {chunk : Bytes} (hlen : chunk.length ≤ n) :
    (a.putLine chunk).bytes = chunk ++ 0 :: a.bytes.drop (chunk.length + 1) := by
  have htake : chunk.take n = chunk := List.take_of_length_le hlen
  simp only [putLine, htake]

/-- The line that `fgets` stored is the C string at offset 0, up to its first NUL. -/
theorem cstr_putLine (a : CharArray (n + 1)) {chunk : Bytes} (hlen : chunk.length ≤ n) :
    (a.putLine chunk).cstr 0 = some (chunk.takeWhile (· != 0)) := by
  have hmem : (0 : UInt8) ∉ chunk.takeWhile (· != 0) := by
    intro h
    simpa using List.mem_takeWhile_imp h
  obtain ⟨post, hpost⟩ : ∃ post, chunk ++ 0 :: a.bytes.drop (chunk.length + 1) =
      chunk.takeWhile (· != 0) ++ 0 :: post := by
    cases hdrop : chunk.dropWhile (· != 0) with
    | nil =>
      have hall : chunk.takeWhile (· != 0) = chunk :=
        List.takeWhile_eq_self_iff.mpr (List.dropWhile_eq_nil_iff.mp hdrop)
      exact ⟨_, by rw [hall]⟩
    | cons c cs =>
      have hc : c = 0 := by
        have := List.head_dropWhile_not (· != 0) (l := chunk) (by simp [hdrop])
        simpa [hdrop] using this
      have hsplit : chunk = chunk.takeWhile (· != 0) ++ 0 :: cs := by
        conv_lhs => rw [← List.takeWhile_append_dropWhile (p := (· != 0)) (l := chunk), hdrop, hc]
      refine ⟨cs ++ 0 :: a.bytes.drop (chunk.length + 1), ?_⟩
      generalize a.bytes.drop (chunk.length + 1) = old
      conv_lhs => rw [hsplit]
      simp
  apply cstr_eq_some_of_drop post _ hmem
  rw [bytes_putLine a hlen, List.drop_zero, hpost]

end CharArray

/-! ### Tokens

`nextToken delim s` is the first token of the string `s` and the string left
behind it; `strtok_r` finds the same two strings in the array. -/

theorem strspn_append {delim skip t : Bytes} (hskip : ∀ c ∈ skip, c ∈ delim)
    (ht : ∀ c ∈ t.head?, c ∉ delim) : strspn (skip ++ t) delim = skip.length := by
  unfold strspn
  rw [List.takeWhile_append_of_pos (by simpa using hskip), List.length_append]
  cases t with
  | nil => simp
  | cons c cs => simp [ht c (by simp)]

theorem strcspn_append {delim tok t : Bytes} (htok : ∀ c ∈ tok, c ∉ delim)
    (ht : ∀ c ∈ t.head?, c ∈ delim) : strcspn (tok ++ t) delim = tok.length := by
  unfold strcspn
  rw [List.takeWhile_append_of_pos (by simpa using htok), List.length_append]
  cases t with
  | nil => simp
  | cons c cs => simp [ht c (by simp)]

/-- A string cut as `strtok_r` cuts it: skipped delimiters, the token, and what
    stands behind the token.  The token is empty only when nothing follows the
    delimiters. -/
structure Cut (delim skip tok after : Bytes) : Prop where
  skip_mem : ∀ c ∈ skip, c ∈ delim
  tok_notMem : ∀ c ∈ tok, c ∉ delim
  after_head : ∀ c ∈ after.head?, c ∈ delim
  after_eq : tok = [] → after = []

theorem exists_cut (delim s : Bytes) :
    ∃ skip tok after, s = skip ++ tok ++ after ∧ Cut delim skip tok after := by
  induction s with
  | nil => exact ⟨[], [], [], rfl, by simp, by simp, by simp, by simp⟩
  | cons c s ih =>
    obtain ⟨skip, tok, after, rfl, hcut⟩ := ih
    by_cases hc : c ∈ delim
    · by_cases hskip : skip = [] ∧ tok ≠ []
      · obtain ⟨rfl, htok⟩ := hskip
        exact ⟨[c], tok, after, rfl, by simpa using hc, hcut.tok_notMem, hcut.after_head,
          hcut.after_eq⟩
      · exact ⟨c :: skip, tok, after, rfl, by simpa [hc] using hcut.skip_mem, hcut.tok_notMem,
          hcut.after_head, hcut.after_eq⟩
    · cases skip with
      | nil =>
        exact ⟨[], c :: tok, after, rfl, by simp, by simpa [hc] using hcut.tok_notMem,
          hcut.after_head, by simp⟩
      | cons d ds =>
        refine ⟨[], [c], d :: ds ++ tok ++ after, rfl, by simp, by simpa using hc, ?_, by simp⟩
        simpa using hcut.skip_mem d (by simp)

variable {delim skip tok after : Bytes}

theorem Cut.head_notMem (hcut : Cut delim skip tok after) :
    ∀ c ∈ (tok ++ after).head?, c ∉ delim := by
  cases tok with
  | nil => simp [hcut.after_eq rfl]
  | cons c cs => simpa using hcut.tok_notMem c (by simp)

theorem Cut.strspn_eq (hcut : Cut delim skip tok after) :
    strspn (skip ++ tok ++ after) delim = skip.length := by
  rw [List.append_assoc]
  exact strspn_append hcut.skip_mem hcut.head_notMem

theorem Cut.strcspn_eq (hcut : Cut delim skip tok after) :
    strcspn ((skip ++ tok ++ after).drop skip.length) delim = tok.length := by
  rw [List.append_assoc, List.drop_left]
  exact strcspn_append hcut.tok_notMem hcut.after_head

/-- The first token of `s` and what follows the delimiter that ends it. -/
def nextToken (delim s : Bytes) : Option (Bytes × Bytes) :=
  let r := s.drop (strspn s delim)
  if r = [] then none else some (r.take (strcspn r delim), r.drop (strcspn r delim + 1))

theorem Cut.nextToken_eq (hcut : Cut delim skip tok after) :
    nextToken delim (skip ++ tok ++ after) =
      if tok = [] then none else some (tok, after.tail) := by
  have hr : (skip ++ tok ++ after).drop skip.length = tok ++ after := by
    rw [List.append_assoc, List.drop_left]
  have hlen := hcut.strcspn_eq
  rw [hr] at hlen
  simp only [nextToken, hcut.strspn_eq, hr, hlen, List.append_eq_nil_iff, List.take_left]
  by_cases htok : tok = []
  · simp [htok, hcut.after_eq htok]
  · rw [if_neg (by simp [htok]), if_neg htok, ← List.drop_drop, List.drop_left, List.drop_one]

theorem nextToken_append {d : UInt8} (hskip : ∀ c ∈ skip, c ∈ delim) (hne : tok ≠ [])
    (htok : ∀ c ∈ tok, c ∉ delim) (hd : d ∈ delim) (rest : Bytes) :
    nextToken delim (skip ++ tok ++ d :: rest) = some (tok, rest) := by
  have hcut : Cut delim skip tok (d :: rest) :=
    ⟨hskip, htok, by simpa using hd, fun h => absurd h hne⟩
  rw [hcut.nextToken_eq, if_neg hne, List.tail_cons]

theorem nextToken_last (hskip : ∀ c ∈ skip, c ∈ delim) (hne : tok ≠ [])
    (htok : ∀ c ∈ tok, c ∉ delim) : nextToken delim (skip ++ tok) = some (tok, []) := by
  have hcut : Cut delim skip tok [] := ⟨hskip, htok, by simp, fun h => absurd h hne⟩
  have := hcut.nextToken_eq
  rwa [List.append_nil, if_neg hne] at this

theorem exists_cut_of_nextToken {s rest : Bytes} (h : nextToken delim s = some (tok, rest)) :
    ∃ skip after, s = skip ++ tok ++ after ∧ Cut delim skip tok after ∧ tok ≠ [] ∧
      rest = after.tail := by
  obtain ⟨skip, tok', after, rfl, hcut⟩ := exists_cut delim s
  rw [hcut.nextToken_eq] at h
  split at h
  · cases h
  · rename_i hne
    obtain ⟨rfl, rfl⟩ : tok' = tok ∧ after.tail = rest := by simpa using h
    exact ⟨skip, after, rfl, hcut, hne, rfl⟩

namespace CharArray

variable {n : Nat}

/-- What a successful `strtok_r` at offset `p` establishes: the token and the
    rest of the string stand at `token` and `save`, the only byte changed is the
    one that ends the token, and a token that does not start at `p` has a skipped
    delimiter before it. -/
structure TokenAt (a : CharArray n) (p : Nat) (delim tok rest : Bytes) (b : CharArray n)
    (token save : Nat) : Prop where
  cstr_token : b.cstr token = some tok
  cstr_save : b.cstr save = some rest
  le_save : token + tok.length ≤ save
  save_eq : rest = [] ∨ save = token + tok.length + 1
  load_eq : ∀ i, i ≠ token + tok.length → b.load i = a.load i
  before : token = p ∨ p < token ∧ ∃ d ∈ delim, b.load (token - 1) = some d

theorem strtok_r_of_none {a : CharArray n} {p : Nat} {s : Bytes}
    (hs : a.cstr p = some s) (h : nextToken delim s = none) :
    a.strtok_r p delim = some (a, none, p + s.length) := by
  obtain ⟨skip, tok, after, rfl, hcut⟩ := exists_cut delim s
  rw [hcut.nextToken_eq] at h
  obtain rfl : tok = [] := by
    by_contra hne
    simp [hne] at h
  obtain rfl := hcut.after_eq rfl
  have hskip := hcut.strspn_eq
  simp only [List.append_nil] at hs hskip ⊢
  simp [strtok_r, hs, hskip]

/-- The byte before a token is the byte before the string or a skipped delimiter. -/
theorem load_before_token {a : CharArray n} {p : Nat} {s : Bytes}
    (hs : a.cstr p = some (skip ++ s)) (hskip : ∀ c ∈ skip, c ∈ delim) :
    p + skip.length = p ∨
      p < p + skip.length ∧ ∃ d ∈ delim, a.load (p + skip.length - 1) = some d := by
  cases skip using List.reverseRecOn with
  | nil => exact .inl rfl
  | append_singleton ds d =>
    right
    have hload := load_of_cstr hs ds.length (by simp)
    refine ⟨by simp, d, hskip d (by simp), ?_⟩
    rw [List.length_append, List.length_singleton, ← Nat.add_assoc, Nat.add_sub_cancel, hload]
    simp

theorem strtok_r_of_cut {a : CharArray n} {p : Nat}
    (hs : a.cstr p = some (skip ++ tok ++ after)) (hcut : Cut delim skip tok after)
    (hne : tok ≠ []) :
    a.strtok_r p delim =
      if after = [] then some (a, some (p + skip.length), p + skip.length + tok.length)
      else (a.store (p + skip.length + tok.length) 0).map fun b =>
        (b, some (p + skip.length), p + skip.length + tok.length + 1) := by
  have hpos : 0 < tok.length := List.length_pos_iff.mpr hne
  have hlen : (skip ++ tok ++ after).length = skip.length + tok.length + after.length := by
    simp [Nat.add_assoc]
  simp only [strtok_r, hs, Option.bind_eq_bind, Option.bind_some, hcut.strspn_eq,
    hcut.strcspn_eq, hlen]
  rw [if_neg (by omega)]
  by_cases hafter : after = []
  · simp [hafter]
  · have : after.length ≠ 0 := by simpa using hafter
    rw [if_neg (by omega), if_neg hafter]
    cases a.store (p + skip.length + tok.length) 0 <;> rfl

theorem strtok_r_of_some {a : CharArray n} {p : Nat} {s rest : Bytes}
    (hs : a.cstr p = some s) (h : nextToken delim s = some (tok, rest)) :
    ∃ b save, a.strtok_r p delim = some (b, some (p + strspn s delim), save) ∧
      TokenAt a p delim tok rest b (p + strspn s delim) save := by
  obtain ⟨skip, after, rfl, hcut, hne, rfl⟩ := exists_cut_of_nextToken h
  have hbefore := load_before_token (List.append_assoc _ _ _ ▸ hs) hcut.skip_mem
  have htoken : a.cstr (p + skip.length) = some (tok ++ after) :=
    cstr_add (List.append_assoc _ _ _ ▸ hs)
  have hnul : 0 ∉ tok ++ after := (exists_drop_of_cstr htoken).1
  rw [hcut.strspn_eq, strtok_r_of_cut hs hcut hne]
  cases after with
  | nil =>
    -- the token ends the string: the array is unchanged
    rw [List.append_nil] at htoken
    refine ⟨a, p + skip.length + tok.length, rfl, htoken, ?_, le_rfl, .inl rfl,
      fun _ _ => rfl, hbefore⟩
    exact cstr_add (t := []) (by simpa using htoken)
  | cons d rest =>
    -- the delimiter behind the token is overwritten
    have hlt : p + skip.length + tok.length < n := by
      have := add_length_lt_of_cstr hs
      simp only [List.length_append, List.length_cons] at this
      omega
    obtain ⟨b, hb⟩ : ∃ b, a.store (p + skip.length + tok.length) 0 = some b :=
      ⟨_, if_pos hlt⟩
    have hload : ∀ i, i ≠ p + skip.length + tok.length → b.load i = a.load i := by
      intro i hi
      rw [load_store hb, if_neg hi]
    refine ⟨b, p + skip.length + tok.length + 1, by simp [hb], ?_, ?_, by omega, .inr rfl,
      hload, ?_⟩
    · apply cstr_of_load
      · exact fun h => hnul (List.mem_append_left _ h)
      · intro i hi
        rw [hload _ (by omega), load_of_cstr htoken i (by simp; omega),
          List.getElem?_append_left hi]
      · rw [load_store hb, if_pos rfl]
    · have hrest : a.cstr (p + skip.length + tok.length + 1) = some rest := by
        have := cstr_add (s := tok ++ [d]) (t := rest) (by simpa using htoken)
        simpa [Nat.add_assoc] using this
      rw [List.tail_cons, ← hrest]
      exact cstr_congr fun i hi => hload i (by omega)
    · have hpos : 0 < tok.length := List.length_pos_iff.mpr hne
      rwa [hload _ (by omega)]

end CharArray

/-! ### Traced accesses

The same accesses with the list of offsets read and written so far, for results
about where a function reaches. -/

structure Trace (n : Nat) where
  array : CharArray n
  reads : List Nat
  writes : List Nat

namespace Trace

variable {n : Nat}

def load (t : Trace n) (i : Nat) : Option (UInt8 × Trace n) :=
  (t.array.load i).map fun c => (c, { t with reads := i :: t.reads })

def store (t : Trace n) (i : Nat) (c : UInt8) : Option (Trace n) :=
  (t.array.store i c).map fun a => { t with array := a, writes := i :: t.writes }

def memmove (t : Trace n) (dst src len : Nat) : Option (Trace n) :=
  (t.array.memmove dst src len).map fun a =>
    ⟨a, List.range' src len ++ t.reads, List.range' dst len ++ t.writes⟩

end Trace

end LinuxPractice.CLib
