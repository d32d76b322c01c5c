import LinuxPractice.CLib.CharArray

/-!
# `trim` of the two `/proc` programs

`p_id_cmdn_si.c` and `pstree_implementation.c` share this in-place trim:

    char * p = s;
    int l = strlen(p);
    while(isspace(p[l - 1])) p[--l] = 0;
    while(* p && isspace(* p)) ++p, --l;
    memmove(s, p, l + 1);

The first loop has no lower bound on `l`, so on a blank token it walks left of
`s`.  `trim_spec` is the behaviour on every token the walk cannot leave, and
`trim_overrun` what happens on the others.
-/

namespace LinuxPractice.Chap12

open LinuxPractice.CLib

variable {n : Nat}

/-- `while(isspace(p[l - 1])) p[--l] = 0;` where `e` is the offset of `p[l]`.  At
    `e = 0` the loop reads before the array. -/
def trimTail (t : Trace n) : Nat → Option (Trace n × Nat)
  | 0 => none
  | e + 1 => do
    let (c, t) ← t.load e
    if isspace c then
      let t ← t.store e 0
      trimTail t e
    else return (t, e + 1)

/-- `while(* p && isspace(* p)) ++p, --l;` over the `fuel` bytes that the array
    has from `p` on. -/
def trimLead (t : Trace n) (p : Nat) : (fuel : Nat) → Option (Trace n × Nat)
  | 0 => none
  | fuel + 1 => do
    let (c, t) ← t.load p
    if c ≠ 0 ∧ isspace c then trimLead t (p + 1) fuel
    else return (t, p)

/-- One call of `trim`: its accesses, the value of `l` where the first loop ends,
    and the value of `l` that `memmove(s, p, l + 1)` uses. -/
structure TrimRun (n : Nat) where
  trace : Trace n
  tail : Int
  len : Int

def trim (a : CharArray n) (s : Nat) : Option (TrimRun n) := do
  let str ← a.cstr s
  let t : Trace n := ⟨a, List.range' s (str.length + 1), []⟩
  let (t, e) ← trimTail t (s + str.length)
  let tail : Int := (e : Int) - s
  let (t, p) ← trimLead t s (n - s)
  let len : Int := tail - ((p : Int) - s)
  let t ← t.memmove s p (sizeT (len + 1))
  return ⟨t, tail, len⟩

/-! ### The two loops -/

theorem mem_or_of_mem_cons {accesses : List Nat} {e i : Nat} {p q : Prop}
    (h : i ∈ e :: accesses ∨ p) (he : i = e → q) (hp : p → q) : i ∈ accesses ∨ q := by
  rcases h with h | h
  · rcases List.mem_cons.mp h with h | h
    · exact .inr (he h)
    · exact .inl h
  · exact .inr (hp h)

/-- The first loop clears the blanks of `[lo, e)` and stops below them at the
    first byte that is not one. -/
theorem trimTail_eq {lo : Nat} {c : UInt8} (hc : isspace c = false) :
    ∀ {e : Nat} (t : Trace n), lo + 1 ≤ e → t.array.load lo = some c →
      (∀ i, lo < i → i < e → ∃ b, t.array.load i = some b ∧ isspace b = true) →
      ∃ t', trimTail t e = some (t', lo + 1) ∧
        (∀ i, t'.array.load i = if lo < i ∧ i < e then some 0 else t.array.load i) ∧
        (∀ i ∈ t'.reads, i ∈ t.reads ∨ lo ≤ i ∧ i < e) ∧
        (∀ i ∈ t'.writes, i ∈ t.writes ∨ lo < i ∧ i < e) := by
  intro e
  induction e with
  | zero =>
    intro t he
    omega
  | succ e ih =>
    intro t he hload hblank
    rcases Nat.lt_or_ge lo e with hlt | hge
    · rcases hblank e hlt (by omega) with ⟨b, hb, hbs⟩
      have hen : e < n := by
        have := (List.getElem?_eq_some_iff.mp hb).1
        rwa [t.array.length_bytes] at this
      obtain ⟨a, ha⟩ : ∃ a, t.array.store e 0 = some a := ⟨_, if_pos hen⟩
      have hla : ∀ i, a.load i = if i = e then some 0 else t.array.load i :=
        fun i => CharArray.load_store ha i
      obtain ⟨t', htrim, hload', hreads, hwrites⟩ :=
        ih ⟨a, e :: t.reads, e :: t.writes⟩ (by omega)
          (by rw [hla, if_neg (by omega), hload])
          (by
            intro i hi hie
            rw [hla, if_neg (by omega)]
            exact hblank i hi (by omega))
      refine ⟨t', ?_, ?_, ?_, ?_⟩
      · simp [trimTail, Trace.load, Trace.store, hb, hbs, ha, htrim]
      · intro i
        rw [hload', hla]
        by_cases hie : i = e
        · simp [hie, hlt]
        · have : (lo < i ∧ i < e) ↔ (lo < i ∧ i < e + 1) := by omega
          simp [hie, this]
      · intro i hi
        exact mem_or_of_mem_cons (hreads i hi) (by omega) (by omega)
      · intro i hi
        exact mem_or_of_mem_cons (hwrites i hi) (by omega) (by omega)
    · obtain rfl : lo = e := by omega
      refine ⟨⟨t.array, lo :: t.reads, t.writes⟩, ?_, ?_, ?_, ?_⟩
      · simp [trimTail, Trace.load, hload, hc]
      · intro i
        rw [if_neg (by omega)]
      · intro i hi
        rcases List.mem_cons.mp hi with rfl | h
        · exact .inr (by omega)
        · exact .inl h
      · exact fun i hi => .inl hi

/-- Wherever the first loop stops, the byte below is no blank and the bytes it
    passed are cleared. -/
theorem trimTail_inv :
    ∀ {e : Nat} {t t' : Trace n} {e' : Nat}, trimTail t e = some (t', e') →
      0 < e' ∧ e' ≤ e ∧ (∃ c, t.array.load (e' - 1) = some c ∧ isspace c = false) ∧
        (∀ i, e' ≤ i → i < e → t'.array.load i = some 0) ∧
        ∀ i, e ≤ i → t'.array.load i = t.array.load i := by
  intro e
  induction e with
  | zero =>
    intro t t' e' h
    simp [trimTail] at h
  | succ e ih =>
    intro t t' e' h
    cases hc : t.array.load e with
    | none => simp [trimTail, Trace.load, hc] at h
    | some c =>
      cases hs : isspace c with
      | false =>
        obtain ⟨rfl, rfl⟩ : ⟨t.array, e :: t.reads, t.writes⟩ = t' ∧ e + 1 = e' := by
          simpa [trimTail, Trace.load, hc, hs] using h
        exact ⟨by omega, le_rfl, ⟨c, hc, hs⟩, fun i hi hie => by omega, fun i hi => rfl⟩
      | true =>
        cases ha : t.array.store e 0 with
        | none => simp [trimTail, Trace.load, Trace.store, hc, hs, ha] at h
        | some a =>
          have hla : ∀ i, a.load i = if i = e then some 0 else t.array.load i :=
            fun i => CharArray.load_store ha i
          have hrec : trimTail ⟨a, e :: t.reads, e :: t.writes⟩ e = some (t', e') := by
            simpa [trimTail, Trace.load, Trace.store, hc, hs, ha] using h
          rcases ih hrec with ⟨hpos, hle, ⟨b, hb, hbs⟩, hzero, hframe⟩
          refine ⟨hpos, by omega, ⟨b, ?_, hbs⟩, ?_, ?_⟩
          · rw [hla, if_neg (by omega)] at hb
            exact hb
          · intro i hi hie
            rcases Nat.lt_or_ge i e with hlt | hge
            · exact hzero i hi hlt
            · rw [hframe i hge, hla, if_pos (by omega)]
          · intro i hi
            rw [hframe i (by omega), hla, if_neg (by omega)]

theorem trimLead_eq {lead core : Bytes} (hlead : Blank lead)
    (hcore : ∀ c ∈ core.head?, isspace c = false) :
    ∀ (t : Trace n) {p fuel : Nat}, n ≤ p + fuel → t.array.cstr p = some (lead ++ core) →
      ∃ t', trimLead t p fuel = some (t', p + lead.length) ∧ t'.array = t.array ∧
        (∀ i ∈ t'.reads, i ∈ t.reads ∨ p ≤ i ∧ i ≤ p + lead.length) ∧ t'.writes = t.writes := by
  induction lead with
  | nil =>
    intro t p fuel hfuel hstr
    have hlt := CharArray.add_length_lt_of_cstr hstr
    obtain ⟨fuel, rfl⟩ : ∃ f, fuel = f + 1 := ⟨fuel - 1, by omega⟩
    obtain ⟨c, hc, hstop⟩ : ∃ c, t.array.load p = some c ∧ ¬ (c ≠ 0 ∧ isspace c = true) := by
      cases core with
      | nil => exact ⟨0, CharArray.load_end_of_cstr hstr, by simp⟩
      | cons c cs =>
        refine ⟨c, ?_, by simp [hcore c (by simp)]⟩
        simpa using CharArray.load_of_cstr hstr 0 (by simp)
    refine ⟨⟨t.array, p :: t.reads, t.writes⟩, ?_, rfl, ?_, rfl⟩
    · simp only [trimLead, Trace.load, hc, Option.map_some, Option.bind_eq_bind,
        Option.bind_some, if_neg hstop]
      rfl
    · intro i hi
      rcases List.mem_cons.mp hi with rfl | h
      · exact .inr (by simp)
      · exact .inl h
  | cons c lead ih =>
    intro t p fuel hfuel hstr
    have hlt := CharArray.add_length_lt_of_cstr hstr
    obtain ⟨fuel, rfl⟩ : ∃ f, fuel = f + 1 := ⟨fuel - 1, by omega⟩
    have hc : t.array.load p = some c := by
      simpa using CharArray.load_of_cstr hstr 0 (by simp)
    have hgo : c ≠ 0 ∧ isspace c = true := by
      refine ⟨?_, hlead c (by simp)⟩
      rintro rfl
      exact (CharArray.exists_drop_of_cstr hstr).1 (by simp)
    have hnext : t.array.cstr (p + 1) = some (lead ++ core) :=
      CharArray.cstr_add (s := [c]) hstr
    obtain ⟨t', htrim, harr, hreads, hwrites⟩ :=
      ih (fun b hb => hlead b (by simp [hb])) ⟨t.array, p :: t.reads, t.writes⟩
        (show n ≤ p + 1 + fuel by omega) hnext
    refine ⟨t', ?_, harr, ?_, hwrites⟩
    · simp only [trimLead, Trace.load, hc, Option.map_some, Option.bind_eq_bind,
        Option.bind_some, if_pos hgo, htrim, List.length_cons]
      congr 2
      omega
    · intro i hi
      rw [List.length_cons]
      exact mem_or_of_mem_cons (hreads i hi) (by omega) (by omega)

/-! ### The whole call -/

theorem trim_eq {a : CharArray n} {k e p : Nat} {str : Bytes} {t₁ t₂ : Trace n} {tail len : Int}
    (hstr : a.cstr k = some str)
    (htail : trimTail ⟨a, List.range' k (str.length + 1), []⟩ (k + str.length) = some (t₁, e))
    (hlead : trimLead t₁ k (n - k) = some (t₂, p))
    (he : (e : Int) - k = tail) (hp : tail - ((p : Int) - k) = len) :
    trim a k = (t₂.memmove k p (sizeT (len + 1))).map fun t => ⟨t, tail, len⟩ := by
  simp only [trim, hstr, htail, hlead, Option.bind_eq_bind, Option.bind_some, he, hp]
  cases t₂.memmove k p (sizeT (len + 1)) <;> rfl

/-- What a call of `trim` on the token `tok` at offset `k` should do: stay next to
    the token, end both loops with `l` inside it, and leave the stripped token. -/
structure TrimOk (a : CharArray n) (k : Nat) (tok : Bytes) (r : TrimRun n) : Prop where
  cstr_eq : r.trace.array.cstr k = some (strip tok)
  load_eq : ∀ i, i < k ∨ k + tok.length ≤ i → r.trace.array.load i = a.load i
  tail_nonneg : 0 ≤ r.tail
  tail_le : r.tail ≤ tok.length
  len_eq : r.len = (strip tok).length
  reads_mem : ∀ i ∈ r.trace.reads, k - 1 ≤ i ∧ i ≤ k + tok.length
  writes_mem : ∀ i ∈ r.trace.writes, k ≤ i ∧ i ≤ k + tok.length

/-- Below the trailing blanks of the token stands a byte `c` that ends the first
    loop: the last byte of its core, or the byte before a blank token. -/
theorem exists_tail_stop {a : CharArray n} {k : Nat} {tok : Bytes} (hstr : a.cstr k = some tok)
    (hk : 0 < k)
    (hok : ¬ Blank tok ∨ ∃ c, a.load (k - 1) = some c ∧ isspace c = false) :
    ∃ lead trail c lo, tok = lead ++ strip tok ++ trail ∧ Blank lead ∧ Blank trail ∧
      (∀ b ∈ (strip tok).head?, isspace b = false) ∧
      lo + 1 = k + (lead ++ strip tok).length ∧ a.load lo = some c ∧ isspace c = false := by
  by_cases hblank : Blank tok
  · rcases hok.resolve_left (not_not.mpr hblank) with ⟨c, hc, hcs⟩
    have hnil := strip_of_blank hblank
    exact ⟨[], tok, c, k - 1, by simp [hnil], by simp [Blank], hblank, by simp [hnil],
      by simp [hnil]; omega, hc, hcs⟩
  · obtain ⟨lead, trail, happ, hlead, htrail, ⟨h, hh, hhs⟩, ⟨c, hc, hcs⟩⟩ :=
      exists_strip_append hblank
    rcases List.getLast?_eq_some_iff.mp hc with ⟨init, hinit⟩
    refine ⟨lead, trail, c, k + (lead ++ init).length, happ, hlead, htrail, ?_, ?_, ?_, hcs⟩
    · intro b hb
      rw [Option.mem_def.mp hh] at hb
      rwa [← Option.some.inj hb]
    · rw [hinit]
      simp
      omega
    · rw [CharArray.load_of_cstr hstr _ (by rw [happ, hinit]; simp), happ, hinit]
      simp

theorem trimTail_token {a : CharArray n} {k lo : Nat} {front trail : Bytes} {c : UInt8}
    (hstr : a.cstr k = some (front ++ trail)) (htrail : Blank trail)
    (hlo : lo + 1 = k + front.length) (hc : a.load lo = some c) (hcs : isspace c = false)
    (reads : List Nat) :
    ∃ t, trimTail ⟨a, reads, []⟩ (k + (front ++ trail).length) = some (t, lo + 1) ∧
      t.array.cstr k = some front ∧
      (∀ i, i < k + front.length ∨ k + (front ++ trail).length ≤ i →
        t.array.load i = a.load i) ∧
      (∀ i ∈ t.reads, i ∈ reads ∨ lo ≤ i ∧ i < k + (front ++ trail).length) ∧
      ∀ i ∈ t.writes, k ≤ i ∧ i < k + (front ++ trail).length := by
  have hlen : (front ++ trail).length = front.length + trail.length := List.length_append
  have hblank : ∀ i, lo < i → i < k + (front ++ trail).length →
      ∃ b, a.load i = some b ∧ isspace b = true := by
    intro i hi hie
    obtain ⟨j, rfl⟩ : ∃ j, i = k + (front.length + j) := ⟨i - k - front.length, by omega⟩
    have hj : j < trail.length := by omega
    refine ⟨trail[j], ?_, htrail _ (List.getElem_mem hj)⟩
    rw [CharArray.load_of_cstr hstr _ (by omega), List.getElem?_append_right (by omega),
      Nat.add_sub_cancel_left, List.getElem?_eq_getElem hj]
  obtain ⟨t, htail, hload, hreads, hwrites⟩ :=
    trimTail_eq hcs ⟨a, reads, []⟩ (show lo + 1 ≤ k + (front ++ trail).length by omega) hc hblank
  have hframe : ∀ i, i < k + front.length ∨ k + (front ++ trail).length ≤ i →
      t.array.load i = a.load i := by
    intro i hi
    rw [hload, if_neg (by omega)]
  refine ⟨t, htail, ?_, hframe, hreads, ?_⟩
  · apply CharArray.cstr_of_load
    · intro h
      exact (CharArray.exists_drop_of_cstr hstr).1 (List.mem_append_left _ h)
    · intro i hi
      rw [hframe _ (.inl (by omega)), CharArray.load_of_cstr hstr i (by omega),
        List.getElem?_append_left hi]
    · -- the NUL is the one of the token, or stands over its first trailing blank
      cases trail with
      | nil =>
        rw [hframe _ (.inr (by simp))]
        simpa using CharArray.load_end_of_cstr hstr
      | cons b trail => rw [hload, if_pos ⟨by omega, by simp⟩]
  · intro i hi
    rcases hwrites i hi with h | h
    · cases h
    · omega

theorem trim_spec (hn : n < 2 ^ 64) {a : CharArray n} {k : Nat} {tok : Bytes}
    (hstr : a.cstr k = some tok) (hk : 0 < k)
    (hok : ¬ Blank tok ∨ ∃ c, a.load (k - 1) = some c ∧ isspace c = false) :
    ∃ r, trim a k = some r ∧ TrimOk a k tok r := by
  obtain ⟨lead, trail, c, lo, happ, hlead, htrail, hhead, hlo, hc, hcs⟩ :=
    exists_tail_stop hstr hk hok
  have hin := CharArray.add_length_lt_of_cstr hstr
  obtain ⟨core, hcore⟩ : ∃ core, strip tok = core := ⟨_, rfl⟩
  rw [hcore] at happ hhead hlo
  have hlen : tok.length = lead.length + core.length + trail.length := by
    rw [happ]
    simp [Nat.add_assoc]
  obtain ⟨t₁, htail, hstr₁, hframe₁, hreads₁, hwrites₁⟩ :=
    trimTail_token (happ ▸ hstr) htrail hlo hc hcs (List.range' k (tok.length + 1))
  rw [← happ] at htail hframe₁ hreads₁ hwrites₁
  rw [List.length_append] at hlo hframe₁
  -- `p` ends at the core
  obtain ⟨t₂, hleadrun, harr₂, hreads₂, hwrites₂⟩ :=
    trimLead_eq hlead hhead t₁ (show n ≤ k + (n - k) by omega) hstr₁
  have hsize : sizeT ((core.length : Int) + 1) = core.length + 1 := by
    unfold sizeT
    omega
  obtain ⟨b, hb⟩ : ∃ b, t₂.array.memmove k (k + lead.length) (core.length + 1) = some b :=
    ⟨_, dif_pos ⟨by omega, by omega⟩⟩
  refine ⟨⟨⟨b, List.range' (k + lead.length) (core.length + 1) ++ t₂.reads,
    List.range' k (core.length + 1) ++ t₂.writes⟩, lead.length + core.length, core.length⟩,
    ?_, ?_, ?_, by simp only; omega, by simp only; omega, by rw [hcore], ?_, ?_⟩
  · have he : ((lo + 1 : Nat) : Int) - k = lead.length + core.length := by omega
    have hp : (lead.length + core.length : Int) - ((k + lead.length : Nat) - k) = core.length := by
      omega
    rw [trim_eq hstr htail hleadrun he hp, hsize, Trace.memmove, hb]
    rfl
  · rw [hcore]
    apply CharArray.cstr_memmove _ hb
    rw [harr₂]
    exact CharArray.cstr_add hstr₁
  · intro i hi
    have hload₁ : t₁.array.load i = a.load i := hframe₁ i (by omega)
    rw [CharArray.load_memmove hb, harr₂]
    split
    · -- only a token without blanks reaches its NUL, and then nothing moves
      have hsame : k + lead.length + (i - k) = i := by omega
      rw [hsame, hload₁]
    · exact hload₁
  · intro i hi
    rcases List.mem_append.mp hi with h | h
    · rw [List.mem_range'_1] at h
      omega
    · rcases hreads₂ i h with h | h
      · rcases hreads₁ i h with h | h
        · rw [List.mem_range'_1] at h
          omega
        · omega
      · omega
  · intro i hi
    rcases List.mem_append.mp hi with h | h
    · rw [List.mem_range'_1] at h
      omega
    · rw [hwrites₂] at h
      have hmem := hwrites₁ i h
      omega

/-- A blank token behind a blank: the first loop runs past the token's start and
    `l` ends negative.  If `memmove` is not already undefined, the token is empty. -/
theorem trim_overrun (hn : n < 2 ^ 63) {a : CharArray n} {k : Nat} {tok : Bytes} {c : UInt8}
    (hstr : a.cstr k = some tok) (hne : tok ≠ []) (hblank : Blank tok) (hk : 0 < k)
    (hc : a.load (k - 1) = some c) (hcs : isspace c = true) {r : TrimRun n}
    (h : trim a k = some r) : r.tail < 0 ∧ r.trace.array.cstr k = some [] := by
  have hin := CharArray.add_length_lt_of_cstr hstr
  have hpos : 0 < tok.length := List.length_pos_iff.mpr hne
  cases htail : trimTail ⟨a, List.range' k (tok.length + 1), []⟩ (k + tok.length) with
  | none => simp [trim, hstr, htail] at h
  | some res =>
    rcases res with ⟨t₁, e⟩
    rcases trimTail_inv htail with ⟨hepos, hele, ⟨b, hb, hbs⟩, hzero, -⟩
    -- every byte of `[k - 1, k + tok.length)` is blank, so the loop stops below it
    have he : e < k := by
      by_contra hge
      have hblank' : isspace b = true := by
        rcases Nat.eq_or_lt_of_le (Nat.not_lt.mp hge) with heq | hlt
        · rw [← heq, hc] at hb
          rwa [← Option.some.inj hb]
        · obtain ⟨j, hj⟩ : ∃ j, e - 1 = k + j := ⟨e - 1 - k, by omega⟩
          have hjlt : j < tok.length := by omega
          rw [hj, CharArray.load_of_cstr hstr j hjlt, List.getElem?_eq_getElem hjlt] at hb
          rw [← Option.some.inj hb]
          exact hblank _ (List.getElem_mem hjlt)
      simp [hbs] at hblank'
    have hk0 : t₁.array.cstr k = some ([] ++ []) :=
      CharArray.cstr_of_load (by simp) (by simp) (hzero k (by omega) (by omega))
    obtain ⟨t₂, hlead, harr, -, -⟩ :=
      trimLead_eq (show Blank [] by simp [Blank]) (by simp) t₁
        (show n ≤ k + (n - k) by omega) hk0
    rw [trim_eq hstr htail hlead rfl rfl] at h
    rcases Option.map_eq_some_iff.mp h with ⟨t₃, hmove, rfl⟩
    rcases Option.map_eq_some_iff.mp hmove with ⟨d, hd, rfl⟩
    refine ⟨by simp only; omega, ?_⟩
    -- a `memmove` that stays inside the array moves nothing
    have hzero' :
        sizeT ((e : Int) - k - (((k + ([] : Bytes).length : Nat) : Int) - k) + 1) = 0 := by
      have hle := CharArray.add_le_of_memmove hd
      unfold sizeT at hle ⊢
      simp only [List.length_nil] at hle ⊢
      omega
    rw [hzero'] at hd
    apply CharArray.cstr_of_load (by simp) (by simp)
    rw [CharArray.load_memmove hd, if_neg (by omega), harr]
    exact hzero k (by omega) (by omega)

end LinuxPractice.Chap12
