import LinuxPractice.CLib.Stdio
import LinuxPractice.Kernel.Transfer

/-!
# `read_line.c` and `read_line_buf.c`: lines from a descriptor

`readLine` reads byte by byte, restarts after a signal, and keeps at most `n - 1` bytes of
a line, to have room for a NUL; `readLineBuf` reads in blocks, gives up on every error,
keeps `n` bytes and stores no NUL.  What a call returns is the list of the bytes it
stores; its value is their number.
-/

namespace LinuxPractice.Tlpi

open LinuxPractice.CLib LinuxPractice.Kernel

def EINTR : Nat := 4

def EINVAL : Errno := ⟨22, by decide⟩

/-- Storing a byte in a buffer that takes at most `m`. -/
def keep (m : Nat) (stored : Bytes) (ch : UInt8) : Bytes :=
  if stored.length < m then stored ++ [ch] else stored

def readLineLoop (n : Nat) (s : Input UInt8 Errno) (stored : Bytes) :
    Except Errno Bytes × Input UInt8 Errno :=
  match _hread : s.read 1 with
  | (.error e, s') => if e.val = EINTR then readLineLoop n s' stored else (.error e, s')
  | (.ok [], s') => (.ok stored, s')
  | (.ok (ch :: _), s') =>
    if ch = newline then (.ok (keep (n - 1) stored ch), s')
    else readLineLoop n s' (keep (n - 1) stored ch)
termination_by s.size
decreasing_by
  · exact Input.size_lt_of_read_error _hread
  · exact Input.size_lt_of_read_ok _hread (List.cons_ne_nil _ _)

def readLine (n : Nat) (s : Input UInt8 Errno) : Except Errno Bytes × Input UInt8 Errno :=
  if n = 0 then (.error EINVAL, s) else readLineLoop n s []

def RL_MAX_BUF : Nat := 10

/-- `buf` holds the bytes of the last `read`, and `len` is their number; a failing `read`
    leaves -1 there, which like 0 makes the next call read again. -/
structure ReadLineBuf where
  buf : Bytes
  next : Nat

def readLineBufInit : ReadLineBuf := ⟨[], 0⟩

def ReadLineBuf.pending (b : ReadLineBuf) : Bytes := b.buf.drop b.next

theorem pending_next {b : ReadLineBuf} {c : UInt8} {tail : Bytes} (h : b.pending = c :: tail) :
    ReadLineBuf.pending { b with next := b.next + 1 } = tail := by
  rw [ReadLineBuf.pending, ← List.drop_drop, ← ReadLineBuf.pending, h]
  rfl

def readLineBufLoop (n : Nat) (b : ReadLineBuf) (s : Input UInt8 Errno) (stored : Bytes) :
    Except Errno Bytes × ReadLineBuf × Input UInt8 Errno :=
  match _hpending : b.pending with
  | [] =>
    match _hread : s.read RL_MAX_BUF with
    | (.error e, s') => (.error e, ⟨[], b.next⟩, s')
    | (.ok [], s') => (.ok stored, ⟨[], b.next⟩, s')
    | (.ok (c :: block), s') => readLineBufLoop n ⟨c :: block, 0⟩ s' stored
  | c :: _ =>
    let b' := { b with next := b.next + 1 }
    if c = newline then (.ok (keep n stored c), b', s)
    else readLineBufLoop n b' s (keep n stored c)
termination_by (s.size, b.pending.length)
decreasing_by
  · exact Prod.Lex.left _ _ (Input.size_lt_of_read_ok _hread (List.cons_ne_nil c block))
  · apply Prod.Lex.right
    rw [pending_next _hpending, _hpending]
    exact Nat.lt_succ_self _

def readLineBuf (n : Nat) (b : ReadLineBuf) (s : Input UInt8 Errno) :
    Except Errno Bytes × ReadLineBuf × Input UInt8 Errno :=
  if n = 0 then (.error EINVAL, b, s) else readLineBufLoop n b s []

/-! ### What a call delivers -/

/-- The first line with its newline, and what follows. -/
def splitLine : Bytes → Bytes × Bytes
  | [] => ([], [])
  | c :: cs => if c = newline then ([c], cs) else (c :: (splitLine cs).1, (splitLine cs).2)

theorem keep_take (m : Nat) (front : Bytes) (c : UInt8) :
    keep m (front.take m) c = (front ++ [c]).take m := by
  unfold keep
  split
  · rename_i h
    have hlen : front.length < m := by
      rw [List.length_take] at h
      omega
    rw [List.take_of_length_le (by omega), List.take_of_length_le (by simp; omega)]
  · rename_i h
    rw [List.length_take] at h
    rw [List.take_append_of_le_length (by omega)]

theorem splitLine_cons_newline (cs : Bytes) : splitLine (newline :: cs) = ([newline], cs) := by
  rw [splitLine, if_pos rfl]

theorem splitLine_cons {c : UInt8} (h : c ≠ newline) (cs : Bytes) :
    splitLine (c :: cs) = (c :: (splitLine cs).1, (splitLine cs).2) := by
  rw [splitLine, if_neg h]

theorem splitLine_append {body : Bytes} (h : newline ∉ body) (rest : Bytes) :
    splitLine (body ++ newline :: rest) = (body ++ [newline], rest) := by
  induction body with
  | nil => exact splitLine_cons_newline rest
  | cons c cs ih =>
    obtain ⟨hc, hcs⟩ := not_or.mp (mt List.mem_cons.mpr h)
    rw [List.cons_append, splitLine_cons (Ne.symm hc), ih hcs]
    rfl

/-- A `read` of one byte that delivers something delivers the first. -/
theorem data_of_read_one {s s' : Input UInt8 Errno} {ch : UInt8} {tail : Bytes}
    (h : s.read 1 = (.ok (ch :: tail), s')) : s.data = ch :: s'.data := by
  obtain ⟨hdata, hlen, -⟩ := Input.of_read_ok h
  have htail : tail = [] := by
    apply List.eq_nil_of_length_eq_zero
    rw [List.length_cons] at hlen
    omega
  rw [hdata, htail]
  rfl

/-- `front` is what was read of the line so far. -/
theorem readLineLoop_spec {n : Nat} (s : Input UInt8 Errno) (hs : s.FailsBy fun e => e.val = EINTR)
    (front stored : Bytes) (hstored : stored = front.take (n - 1)) :
    (readLineLoop n s stored).1 = .ok ((front ++ (splitLine s.data).1).take (n - 1)) ∧
      (readLineLoop n s stored).2.data = (splitLine s.data).2 ∧
      (readLineLoop n s stored).2.FailsBy fun e => e.val = EINTR := by
  fun_induction readLineLoop n s stored generalizing front with
  | case1 s stored e s' hread heintr ih =>
    rw [← (Input.of_read_error hread).1]
    exact ih (hs.of_read hread) front hstored
  | case2 s stored e s' hread hother => exact absurd (hs.of_read_error hread) hother
  | case3 s stored s' hread =>
    obtain ⟨hdata, -, hend, -⟩ := Input.of_read_ok hread
    have hnil : s.data = [] := (hend rfl).resolve_left (by omega)
    have hnil' : s'.data = [] := by
      rw [hnil] at hdata
      exact hdata.symm
    rw [hnil]
    exact ⟨by simp [splitLine, hstored], hnil', hs.of_read hread⟩
  | case4 s stored tail s' hread =>
    rw [data_of_read_one hread, splitLine_cons_newline, hstored, keep_take]
    exact ⟨rfl, rfl, hs.of_read hread⟩
  | case5 s stored ch tail s' hread hnl ih =>
    rw [data_of_read_one hread, splitLine_cons hnl]
    have hkept : keep (n - 1) stored ch = (front ++ [ch]).take (n - 1) := by
      rw [hstored, keep_take]
    simpa using ih (hs.of_read hread) (front ++ [ch]) hkept

/-- One call of `readLine`, however often `read` is interrupted: the line, cut to `n - 1`
    bytes, and the input behind it. -/
theorem readLine_spec {n : Nat} (hn : 0 < n) {s : Input UInt8 Errno}
    (hs : s.FailsBy fun e => e.val = EINTR) :
    (readLine n s).1 = .ok ((splitLine s.data).1.take (n - 1)) ∧
      (readLine n s).2.data = (splitLine s.data).2 ∧
      (readLine n s).2.FailsBy fun e => e.val = EINTR := by
  rw [readLine, if_neg (by omega)]
  exact readLineLoop_spec s hs [] [] List.take_nil.symm

/-- A line that fits into the buffer is read as it is. -/
theorem readLine_line {n : Nat} {body : Bytes} (hbody : newline ∉ body) (hlen : body.length + 1 < n)
    (rest : Bytes) {answers : List (Except Errno Nat)}
    (hanswers : ∀ e, .error e ∈ answers → e.val = EINTR) :
    (readLine n ⟨body ++ newline :: rest, answers⟩).1 = .ok (body ++ [newline]) := by
  have hspec := (readLine_spec (n := n) (by omega) (s := ⟨body ++ newline :: rest, answers⟩)
    hanswers).1
  rw [hspec, splitLine_append hbody, List.take_of_length_le]
  rw [List.length_append, List.length_singleton]
  omega

theorem readLineBufLoop_spec {n : Nat} (b : ReadLineBuf) (s : Input UInt8 Errno) (hs : s.Sound)
    (front stored : Bytes) (hstored : stored = front.take n) :
    let r := readLineBufLoop n b s stored
    r.1 = .ok ((front ++ (splitLine (b.pending ++ s.data)).1).take n) ∧
      r.2.1.pending ++ r.2.2.data = (splitLine (b.pending ++ s.data)).2 ∧ r.2.2.Sound := by
  fun_induction readLineBufLoop n b s stored generalizing front with
  | case1 b s stored hpending e s' hread => exact absurd hread hs.read_ne_error
  | case2 b s stored hpending s' hread =>
    obtain ⟨hdata, -, hend, -⟩ := Input.of_read_ok hread
    have hnil : s.data = [] := (hend rfl).resolve_left (by decide)
    have hnil' : s'.data = [] := by
      rw [hnil] at hdata
      exact hdata.symm
    rw [hpending, hnil]
    refine ⟨by simp [splitLine, hstored], ?_, hs.of_read_ok hread⟩
    simp [ReadLineBuf.pending, splitLine, hnil']
  | case3 b s stored hpending c block s' hread ih =>
    rw [hpending, (Input.of_read_ok hread).1]
    exact ih (hs.of_read_ok hread) front hstored
  | case4 b s stored tail b' hpending =>
    rw [hpending, List.cons_append, splitLine_cons_newline, hstored, keep_take]
    exact ⟨rfl, congrArg (· ++ s.data) (pending_next hpending), hs⟩
  | case5 b s stored c tail hpending b' hnl ih =>
    have hkept : keep n stored c = (front ++ [c]).take n := by rw [hstored, keep_take]
    rw [hpending, List.cons_append, splitLine_cons hnl]
    have hrest := ih hs (front ++ [c]) hkept
    rw [pending_next hpending] at hrest
    simpa using hrest

/-- The same for `readLineBuf`, where the input is what its buffer and the descriptor
    still hold. -/
theorem readLineBuf_spec {n : Nat} (hn : 0 < n) (b : ReadLineBuf) {s : Input UInt8 Errno}
    (hs : s.Sound) :
    let r := readLineBuf n b s
    r.1 = .ok ((splitLine (b.pending ++ s.data)).1.take n) ∧
      r.2.1.pending ++ r.2.2.data = (splitLine (b.pending ++ s.data)).2 ∧ r.2.2.Sound := by
  rw [readLineBuf, if_neg (by omega)]
  exact readLineBufLoop_spec b s hs [] [] List.take_nil.symm

/-! ### Successive calls -/

/-- What calls with the sizes of a list return, one behind the other. -/
def readLines : List Nat → Input UInt8 Errno → List (Except Errno Bytes)
  | [], _ => []
  | n :: sizes, s => (readLine n s).1 :: readLines sizes (readLine n s).2

def readLinesBuf : List Nat → ReadLineBuf → Input UInt8 Errno → List (Except Errno Bytes)
  | [], _, _ => []
  | n :: sizes, b, s =>
    (readLineBuf n b s).1 ::
      readLinesBuf sizes (readLineBuf n b s).2.1 (readLineBuf n b s).2.2

/-- The lines of a text, each cut to its size. -/
def cutLines : List Nat → Bytes → List Bytes
  | [], _ => []
  | n :: sizes, data => (splitLine data).1.take n :: cutLines sizes (splitLine data).2

theorem readLines_eq (sizes : List Nat) {s : Input UInt8 Errno}
    (hs : s.FailsBy fun e => e.val = EINTR) :
    readLines (sizes.map (· + 1)) s = (cutLines sizes s.data).map .ok := by
  induction sizes generalizing s with
  | nil => rfl
  | cons n sizes ih =>
    obtain ⟨hline, hrest, hs'⟩ := readLine_spec (Nat.succ_pos n) hs
    rw [List.map_cons, readLines, hline, ih hs', hrest]
    rfl

theorem readLinesBuf_eq {sizes : List Nat} (hpos : ∀ n ∈ sizes, 0 < n) (b : ReadLineBuf)
    {s : Input UInt8 Errno} (hs : s.Sound) :
    readLinesBuf sizes b s = (cutLines sizes (b.pending ++ s.data)).map .ok := by
  induction sizes generalizing b s with
  | nil => rfl
  | cons n sizes ih =>
    obtain ⟨hline, hrest, hs'⟩ := readLineBuf_spec (hpos n (by simp)) b hs
    rw [readLinesBuf, hline, ih (fun m hm => hpos m (by simp [hm])) _ hs', hrest]
    rfl

/-- For every text, every way in which `read` divides it and every number of
    interruptions: successive calls of the buffered function deliver the lines of the text
    in order, each cut to the size of its buffer, and so do calls of the plain function
    whose buffers have room for a NUL. -/
theorem readLinesBuf_agrees (data : Bytes) {sizes : List Nat} (hpos : ∀ n ∈ sizes, 0 < n)
    {answers answers' : List (Except Errno Nat)}
    (hplain : ∀ e, .error e ∈ answers → e.val = EINTR)
    (hbuffered : ∀ answer ∈ answers', ∃ k, answer = .ok k) :
    readLinesBuf sizes readLineBufInit ⟨data, answers'⟩ = (cutLines sizes data).map .ok ∧
      readLines (sizes.map (· + 1)) ⟨data, answers⟩ =
        readLinesBuf sizes readLineBufInit ⟨data, answers'⟩ := by
  have hbuf := readLinesBuf_eq hpos readLineBufInit (s := ⟨data, answers'⟩) hbuffered
  refine ⟨hbuf, ?_⟩
  rw [hbuf]
  exact readLines_eq sizes (s := ⟨data, answers⟩) hplain

/-- Two lines, the first read by a call that was interrupted, the second cut. -/
theorem readLinesBuf_agrees_two :
    readLines [6, 3] ⟨bytes "one\ntwo\n", [.error ⟨4, by decide⟩]⟩ =
      [.ok (bytes "one\n"), .ok (bytes "tw")] := by
  have hagrees := readLinesBuf_agrees (bytes "one\ntwo\n") (show ∀ n ∈ [5, 2], 0 < n by decide)
    (show ∀ e : Errno, .error e ∈ [(.error ⟨4, by decide⟩ : Except Errno Nat)] → e.val = EINTR by
      intro e he
      rw [List.mem_singleton] at he
      cases he
      rfl)
    (show ∀ answer ∈ [(.ok 7 : Except Errno Nat)], ∃ k, answer = .ok k by simp)
  exact hagrees.2.trans hagrees.1

end LinuxPractice.Tlpi
