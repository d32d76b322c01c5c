import LinuxPractice.Tlpi.ReadLine

/-!
# `rdwrn.c`: `readn` and `writen`

`readn` and `writen` go on until all bytes are transferred.  They restart after a signal;
`readn` stops at the end of the input, and `writen` gives up if nothing is written.
-/

namespace LinuxPractice.Tlpi

open LinuxPractice.CLib LinuxPractice.Kernel

/-- The loop of `readn`; `buf` holds the bytes read so far. -/
def readnLoop (n : Nat) (s : Input UInt8 Errno) (buf : Bytes) :
    Except Errno Bytes × Input UInt8 Errno :=
  if buf.length < n then
    match _hread : s.read (n - buf.length) with
    | (.ok [], s') => (.ok buf, s')
    | (.error e, s') => if e.val = EINTR then readnLoop n s' buf else (.error e, s')
    | (.ok (c :: block), s') => readnLoop n s' (buf ++ c :: block)
  else (.ok buf, s)
termination_by s.size
decreasing_by
  · exact Input.size_lt_of_read_error _hread
  · exact Input.size_lt_of_read_ok _hread (List.cons_ne_nil c block)

def readn (n : Nat) (s : Input UInt8 Errno) : Except Errno Bytes × Input UInt8 Errno :=
  readnLoop n s []

/-- The loop of `writen`, which has `buf` left to write; a `write` that writes nothing ends
    it without an error number of its own. -/
def writenLoop (buf : Bytes) (s : Output UInt8 Errno) :
    Except (Option Errno) Unit × Output UInt8 Errno :=
  if buf = [] then (.ok (), s)
  else
    match _hwrite : s.write buf with
    | (.error e, s') =>
      if e.val = EINTR then writenLoop buf s' else (.error (some e), s')
    | (.ok numWritten, s') =>
      if numWritten = 0 then (.error none, s') else writenLoop (buf.drop numWritten) s'
termination_by buf.length + s.answers.length
decreasing_by
  · have hanswers := (Output.of_write_error _hwrite).2
    rw [hanswers, List.length_cons]
    omega
  · have hanswers := (Output.of_write_ok _hwrite).2.2
    have hlen : 0 < buf.length := List.length_pos_iff.mpr (by assumption)
    rw [hanswers, List.length_drop, List.length_tail]
    omega

/-- On success the number of bytes is returned. -/
def writen (buf : Bytes) (s : Output UInt8 Errno) : Except (Option Errno) Nat × Output UInt8 Errno :=
  let r := writenLoop buf s
  (r.1.map fun _ => buf.length, r.2)

theorem readnLoop_spec {n : Nat} (s : Input UInt8 Errno) (hs : s.FailsBy fun e => e.val = EINTR)
    (buf : Bytes) :
    (readnLoop n s buf).1 = .ok (buf ++ s.data.take (n - buf.length)) ∧
      (readnLoop n s buf).2.data = s.data.drop (n - buf.length) ∧
      (readnLoop n s buf).2.FailsBy fun e => e.val = EINTR := by
  fun_induction readnLoop n s buf with
  | case1 s buf hlt s' hread =>
    obtain ⟨hdata, -, hend, -⟩ := Input.of_read_ok hread
    have hnil : s.data = [] := (hend rfl).resolve_left (by omega)
    refine ⟨by simp [hnil], ?_, hs.of_read hread⟩
    rw [hnil] at hdata ⊢
    simpa using hdata.symm
  | case2 s buf hlt e s' hread heintr ih =>
    rw [← (Input.of_read_error hread).1]
    exact ih (hs.of_read hread)
  | case3 s buf hlt e s' hread hother => exact absurd (hs.of_read_error hread) hother
  | case4 s buf hlt c block s' hread ih =>
    obtain ⟨hdata, hlen, -⟩ := Input.of_read_ok hread
    have hsplit : n - buf.length =
        (c :: block).length + (n - (buf ++ c :: block).length) := by
      rw [List.length_append]
      omega
    rw [hdata, hsplit, List.take_length_add_append, List.drop_length_add_append]
    simpa using ih (hs.of_read hread)
  | case5 s buf hge =>
    have hzero : n - buf.length = 0 := by omega
    simpa [hzero] using hs

theorem readn_spec (n : Nat) {s : Input UInt8 Errno} (hs : s.FailsBy fun e => e.val = EINTR) :
    (readn n s).1 = .ok (s.data.take n) ∧ (readn n s).2.data = s.data.drop n ∧
      (readn n s).2.FailsBy fun e => e.val = EINTR :=
  readnLoop_spec s hs []

/-- Every call of `write` writes something or is interrupted. -/
def Advances (s : Output UInt8 Errno) : Prop :=
  ∀ answer ∈ s.answers, (∃ k, answer = .ok k ∧ k ≠ 0) ∨ ∃ e, answer = .error e ∧ e.val = EINTR

theorem Advances.of_write_error {s s' : Output UInt8 Errno} {block : Bytes} {e : Errno}
    (hs : Advances s) (h : s.write block = (.error e, s')) : e.val = EINTR ∧ Advances s' := by
  have hanswers := (Output.of_write_error h).2
  refine ⟨?_, fun answer hmem => hs answer (by simp [hanswers, hmem])⟩
  rcases hs (.error e) (by simp [hanswers]) with ⟨k, heq, -⟩ | ⟨e', heq, heintr⟩
  · cases heq
  · cases heq
    exact heintr

theorem Advances.of_write_ok {s s' : Output UInt8 Errno} {block : Bytes} {k : Nat}
    (hs : Advances s) (hblock : block ≠ []) (h : s.write block = (.ok k, s')) :
    k ≠ 0 ∧ Advances s' := by
  have hpos : 0 < block.length := List.length_pos_iff.mpr hblock
  refine ⟨?_, ?_⟩
  · unfold Output.write at h
    split at h
    · cases h
      omega
    · cases h
    · rename_i k' answers hanswers
      cases h
      rcases hs (.ok k') (by simp [hanswers]) with ⟨k, heq, hne⟩ | ⟨e, heq, -⟩
      · cases heq
        omega
      · cases heq
  · intro answer hmem
    rw [(Output.of_write_ok h).2.2] at hmem
    exact hs answer (List.mem_of_mem_tail hmem)

/-- What is written is the beginning of the buffer, and all of it on success. -/
theorem writenLoop_prefix (buf : Bytes) (s : Output UInt8 Errno) :
    ∃ rest, (writenLoop buf s).2.written ++ rest = s.written ++ buf ∧
      ((writenLoop buf s).1 = .ok () → rest = []) := by
  fun_induction writenLoop buf s with
  | case1 s => exact ⟨[], rfl, fun _ => rfl⟩
  | case2 buf s hne e s' hwrite heintr ih =>
    rw [← (Output.of_write_error hwrite).1]
    exact ih
  | case3 buf s hne e s' hwrite hother =>
    refine ⟨buf, by rw [(Output.of_write_error hwrite).1], ?_⟩
    intro h
    cases h
  | case4 buf s hne s' hwrite =>
    refine ⟨buf, by rw [(Output.of_write_ok hwrite).1]; simp, ?_⟩
    intro h
    cases h
  | case5 buf s hne k s' hwrite hpos ih =>
    rcases ih with ⟨rest, heq, hend⟩
    refine ⟨rest, ?_, hend⟩
    rw [heq, (Output.of_write_ok hwrite).1, List.append_assoc, List.take_append_drop]

theorem writenLoop_ok (buf : Bytes) (s : Output UInt8 Errno) (hs : Advances s) :
    (writenLoop buf s).1 = .ok () ∧ Advances (writenLoop buf s).2 := by
  fun_induction writenLoop buf s with
  | case1 s => exact ⟨rfl, hs⟩
  | case2 buf s hne e s' hwrite heintr ih => exact ih (hs.of_write_error hwrite).2
  | case3 buf s hne e s' hwrite hother => exact absurd (hs.of_write_error hwrite).1 hother
  | case4 buf s hne s' hwrite => exact absurd rfl (hs.of_write_ok hne hwrite).1
  | case5 buf s hne k s' hwrite hpos ih => exact ih (hs.of_write_ok hne hwrite).2

/-! ### Messages of known length -/

/-- A sender that stops at the first `writen` that fails. -/
def writeAll : List Bytes → Output UInt8 Errno → Except (Option Errno) Unit × Output UInt8 Errno
  | [], s => (.ok (), s)
  | buf :: bufs, s =>
    match writen buf s with
    | (.error e, s') => (.error e, s')
    | (.ok _, s') => writeAll bufs s'

/-- What the calls of `readn` of a receiver return. -/
def readAll : List Nat → Input UInt8 Errno → List (Except Errno Bytes)
  | [], _ => []
  | n :: ns, s => (readn n s).1 :: readAll ns (readn n s).2

theorem writeAll_written (bufs : List Bytes) (s : Output UInt8 Errno) :
    (writeAll bufs s).2.written <+: s.written ++ bufs.flatten := by
  induction bufs generalizing s with
  | nil => simp [writeAll]
  | cons buf bufs ih =>
    rcases writenLoop_prefix buf s with ⟨rest, heq, hend⟩
    unfold writeAll
    split
    · rename_i e s' hwriten
      obtain ⟨-, hs'⟩ := Prod.mk.inj hwriten
      rw [List.flatten_cons, ← List.append_assoc, ← heq, List.append_assoc, hs']
      exact List.prefix_append _ _
    · rename_i k s' hwriten
      obtain ⟨hok, hs'⟩ := Prod.mk.inj hwriten
      have hdone : (writenLoop buf s).1 = .ok () := by
        cases hloop : (writenLoop buf s).1 with
        | error e =>
          rw [hloop] at hok
          cases hok
        | ok u => rfl
      rw [hend hdone, List.append_nil, hs'] at heq
      rw [List.flatten_cons, ← List.append_assoc, ← heq]
      exact ih s'

theorem writeAll_ok (bufs : List Bytes) {s : Output UInt8 Errno} (hs : Advances s) :
    (writeAll bufs s).1 = .ok () ∧ (writeAll bufs s).2.written = s.written ++ bufs.flatten := by
  induction bufs generalizing s with
  | nil => simp [writeAll]
  | cons buf bufs ih =>
    obtain ⟨hok, hs'⟩ := writenLoop_ok buf s hs
    obtain ⟨rest, heq, hend⟩ := writenLoop_prefix buf s
    rw [hend hok, List.append_nil] at heq
    have hwriten : writen buf s = (.ok buf.length, (writenLoop buf s).2) := by
      rw [writen, hok]
      rfl
    rw [writeAll, hwriten]
    obtain ⟨hrest, hwritten⟩ := ih hs'
    refine ⟨hrest, ?_⟩
    rw [hwritten, heq, List.flatten_cons, List.append_assoc]

theorem readAll_eq (bufs : List Bytes) (tail : Bytes) {s : Input UInt8 Errno}
    (hs : s.FailsBy fun e => e.val = EINTR) (hdata : s.data = bufs.flatten ++ tail) :
    readAll (bufs.map List.length) s = bufs.map .ok := by
  induction bufs generalizing s with
  | nil => rfl
  | cons buf bufs ih =>
    obtain ⟨hread, hrest, hs'⟩ := readn_spec buf.length hs
    rw [List.flatten_cons, List.append_assoc] at hdata
    rw [hdata, List.take_left] at hread
    rw [hdata, List.drop_left] at hrest
    rw [List.map_cons, readAll, hread, ih hs' hrest]
    rfl

/-- Messages sent through a stream arrive as they were, whatever the sizes in which the
    system takes and delivers the bytes and however often it interrupts either side; and
    whatever the calls of the sender answer, only a beginning of the messages is ever
    written. -/
theorem readAll_writeAll (bufs : List Bytes) (answers answers' : List (Except Errno Nat)) :
    (writeAll bufs ⟨[], answers⟩).2.written <+: bufs.flatten ∧
      (Advances ⟨[], answers⟩ → (∀ e, .error e ∈ answers' → e.val = EINTR) →
        (writeAll bufs ⟨[], answers⟩).1 = .ok () ∧
          readAll (bufs.map List.length) ⟨(writeAll bufs ⟨[], answers⟩).2.written, answers'⟩ =
            bufs.map .ok) := by
  refine ⟨writeAll_written bufs ⟨[], answers⟩, ?_⟩
  intro hsends hreads
  obtain ⟨hok, hwritten⟩ := writeAll_ok bufs hsends
  refine ⟨hok, ?_⟩
  apply readAll_eq bufs [] (s := ⟨_, answers'⟩) hreads
  rw [hwritten, List.append_nil]
  rfl

end LinuxPractice.Tlpi
