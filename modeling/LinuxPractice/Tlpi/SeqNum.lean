import LinuxPractice.CLib.Numeral
import LinuxPractice.Tlpi.GetNum
import LinuxPractice.Tlpi.ReadLine
import Mathlib.Data.UInt

/-!
# `is_seqnum_sv.c` and `is_seqnum_cl.c`: sequence numbers over a stream socket

A client sends the length of the sequence it wants as a line of text, and the server
answers with a line that holds the first number of it.  The server handles its clients one
after the other, and skips those whose line is missing or no positive number.
-/

namespace LinuxPractice.Tlpi.SeqNum

open LinuxPractice.CLib LinuxPractice.Kernel

def INT_LEN : Nat := 30

/-- `atoi` of the C library: the value of `strtol`, converted to `int`. -/
def atoi (s : Bytes) : Int := wrapInt (strtol 10 s).value

/-- The text that `%d` prints. -/
def intText (v : Int) : Bytes := if v < 0 then 45 :: decimal v.natAbs else decimal v.natAbs

/-! ### The server -/

/-- What the server receives from a client, and the answer of its `write`. -/
structure Connection where
  request : Input UInt8 Errno
  writeAnswer : Except Errno Nat

/-- A request that was granted, and what was written to the client. -/
structure Grant where
  seqNum : UInt32
  reqLen : Int
  sent : Bytes

/-- `seqNumStr`, with `seqNum` printed as an `int`. -/
def seqNumStr (seqNum : UInt32) : Bytes :=
  snprintf INT_LEN (intText (wrapInt seqNum.toNat) ++ [newline])

/-- The loop body behind `accept`; `none` is a request that is skipped. -/
def handle (seqNum : UInt32) (c : Connection) : Option Grant :=
  match (readLine INT_LEN c.request).1 with
  | .error _ => none
  | .ok [] => none
  | .ok (ch :: str) =>
    let reqLen := atoi ((ch :: str).takeWhile (· != 0))
    if reqLen ≤ 0 then none
    else
      some ⟨seqNum, reqLen, match c.writeAnswer with
        | .error _ => []
        | .ok numWritten => (seqNumStr seqNum).take numWritten⟩

/-- The loop of the server over the answers of `accept`, with what was granted to each
    client. -/
def serve : UInt32 → List (Except Errno Connection) → List (Option Grant)
  | _, [] => []
  | seqNum, .error _ :: accepts => none :: serve seqNum accepts
  | seqNum, .ok c :: accepts =>
    match handle seqNum c with
    | none => none :: serve seqNum accepts
    | some g => some g :: serve (seqNum + UInt32.ofInt g.reqLen) accepts

/-- `main` of the server with its initial sequence number. -/
def server (argv : List Bytes) (accepts : List (Except Errno Connection)) :
    Except GnFail (List (Option Grant)) :=
  match argv with
  | _ :: arg :: _ =>
    match getInt arg 0 "init-seq-num" with
    | .error texts => .error texts
    | .ok v => .ok (serve (UInt32.ofInt v) accepts)
  | _ => .ok (serve 0 accepts)

/-! ### The numbers that are handed out -/

/-- The numbers of a granted sequence. -/
def Grant.numbers (g : Grant) : List UInt32 :=
  (List.range g.reqLen.toNat).map fun t => g.seqNum + UInt32.ofNat t

/-- All numbers handed out, in the order in which they were. -/
def handedOut (grants : List (Option Grant)) : List UInt32 :=
  (grants.filterMap id).flatMap Grant.numbers

def requested (grants : List (Option Grant)) : Nat :=
  ((grants.filterMap id).map fun g => g.reqLen.toNat).sum

theorem handle_seqNum {seqNum : UInt32} {c : Connection} {g : Grant}
    (h : handle seqNum c = some g) : g.seqNum = seqNum ∧ 0 < g.reqLen := by
  unfold handle at h
  split at h
  · cases h
  · cases h
  · dsimp only at h
    split at h
    · cases h
    · rename_i hpos
      cases h
      exact ⟨rfl, Int.not_le.mp hpos⟩

theorem ofInt_natCast (n : Nat) : UInt32.ofInt n = UInt32.ofNat n := by
  apply UInt32.toNat_inj.mp
  rw [UInt32.ofInt, UInt32.toNat_ofNat', UInt32.toNat_ofNat']
  omega

/-- The server hands out consecutive numbers, whatever its clients send. -/
theorem handedOut_serve (seqNum : UInt32) (accepts : List (Except Errno Connection)) :
    handedOut (serve seqNum accepts) =
      (List.range (requested (serve seqNum accepts))).map fun t => seqNum + UInt32.ofNat t := by
  fun_induction serve seqNum accepts with
  | case1 seqNum => rfl
  | case2 seqNum e accepts ih => exact ih
  | case3 seqNum c accepts hskip ih => exact ih
  | case4 seqNum c accepts g hgrant ih =>
    obtain ⟨hstart, hpos⟩ := handle_seqNum hgrant
    obtain ⟨n, hn⟩ := Int.eq_ofNat_of_zero_le hpos.le
    rw [hn, ofInt_natCast] at ih ⊢
    have hfirst : handedOut (some g :: serve (seqNum + UInt32.ofNat n) accepts) =
        g.numbers ++ handedOut (serve (seqNum + UInt32.ofNat n) accepts) := rfl
    have hsum : requested (some g :: serve (seqNum + UInt32.ofNat n) accepts) =
        n + requested (serve (seqNum + UInt32.ofNat n) accepts) := by
      simp [requested, hn]
    rw [hfirst, hsum, List.range_add, List.map_append, ih, Grant.numbers, hstart, hn,
      List.map_map]
    congr 1
    apply List.map_congr_left
    intro t _
    simp only [Function.comp, UInt32.ofNat_add, UInt32.add_assoc]

theorem nodup_consecutive_iff (seqNum : UInt32) (n : Nat) :
    ((List.range n).map fun t => seqNum + UInt32.ofNat t).Nodup ↔ n ≤ 4294967296 := by
  rw [List.nodup_map_iff_inj_on List.nodup_range]
  constructor
  · intro hinj
    by_contra hgt
    -- the first number comes again behind a whole round
    have hagain := hinj 0 (by simp; omega) 4294967296 (by simp; omega) rfl
    cases hagain
  · intro hle t ht t' ht' heq
    rw [List.mem_range] at ht ht'
    have hval := congrArg UInt32.toNat (add_left_cancel heq)
    rw [UInt32.toNat_ofNat', UInt32.toNat_ofNat'] at hval
    omega

/-- For every sequence of connections, with any bytes from the clients, any failures and
    any division into blocks: the numbers handed out follow each other without a gap from
    the initial one on, and no number is handed out twice exactly as long as not more than
    `2 ^ 32` of them are. -/
theorem serve_handsOut (seqNum : UInt32) (accepts : List (Except Errno Connection)) :
    handedOut (serve seqNum accepts) =
        (List.range (requested (serve seqNum accepts))).map (fun t => seqNum + UInt32.ofNat t) ∧
      ((handedOut (serve seqNum accepts)).Nodup ↔
        requested (serve seqNum accepts) ≤ 4294967296) := by
  have hconsecutive := handedOut_serve seqNum accepts
  refine ⟨hconsecutive, ?_⟩
  rw [hconsecutive]
  exact nodup_consecutive_iff seqNum _

/-! ### A client -/

inductive ClientExit where
  | fatal (text : String)
  | errExit (text : String)
  /-- The line printed before `exit(EXIT_SUCCESS)`. -/
  | printed (line : Bytes)
deriving DecidableEq

/-- What a client sends for its argument. -/
def request (reqLenStr : Bytes) : Bytes := reqLenStr ++ [newline]

/-- `main` of the client behind `connect`, with the answers of its two `write`s. -/
def client (reqLenStr : Bytes) (writeText writeNewline : Except Errno Nat)
    (reply : Input UInt8 Errno) : ClientExit :=
  match writeText with
  | .error _ => .fatal "Partial/failed write (reqLenStr)"
  | .ok k =>
    if k ≠ reqLenStr.length then .fatal "Partial/failed write (reqLenStr)"
    else
      match writeNewline with
      | .error _ => .fatal "Partial/failed write (newline)"
      | .ok k =>
        if k ≠ 1 then .fatal "Partial/failed write (newline)"
        else
          match (readLine INT_LEN reply).1 with
          | .error _ => .errExit "readLine"
          | .ok [] => .fatal "Unexpected EOF from server"
          | .ok (ch :: str) =>
            .printed (bytes "Sequence number: " ++ (ch :: str).takeWhile (· != 0))

/-- A client that asks for `n` numbers, with the answers of the calls of both sides. -/
structure Session where
  n : Nat
  n_pos : 0 < n
  n_le : (n : Int) ≤ INT_MAX
  serverReads : List (Except Errno Nat)
  serverReads_restart : ∀ e, .error e ∈ serverReads → e.val = EINTR
  serverWrites : Nat
  serverWrites_ge : INT_LEN ≤ serverWrites
  clientReads : List (Except Errno Nat)
  clientReads_restart : ∀ e, .error e ∈ clientReads → e.val = EINTR

namespace Session

def connection (s : Session) : Connection :=
  ⟨⟨request (decimal s.n), s.serverReads⟩, .ok s.serverWrites⟩

/-- What the client does with what the server has written. -/
def prints (s : Session) (g : Option Grant) : ClientExit :=
  client (decimal s.n) (.ok (decimal s.n).length) (.ok 1)
    ⟨match g with
      | none => []
      | some g => g.sent, s.clientReads⟩

end Session

/-- The first numbers that clients get who are served in this order. -/
def starts : UInt32 → List Session → List UInt32
  | _, [] => []
  | seqNum, s :: sessions => seqNum :: starts (seqNum + UInt32.ofNat s.n) sessions

/-! ### Clients that are served -/

theorem newline_notMem_decimal (n : Nat) : newline ∉ decimal n ∧ 0 ∉ decimal n := by
  constructor
  · intro h
    have hdigit := isdigit_of_mem_decimal h
    revert hdigit
    decide
  · intro h
    have hdigit := isdigit_of_mem_decimal h
    revert hdigit
    decide

theorem intText_wrapInt (v : Int) :
    newline ∉ intText (wrapInt v) ∧ 0 ∉ intText (wrapInt v) ∧
      (intText (wrapInt v)).length + 1 < INT_LEN := by
  obtain ⟨hlo, hhi⟩ := wrapInt_mem v
  generalize wrapInt v = w at hlo hhi
  obtain ⟨hnl, hnul⟩ := newline_notMem_decimal w.natAbs
  have hlen : (decimal w.natAbs).length ≤ 10 := by
    apply length_decimal_le (by omega)
    simp only [INT_MIN, INT_MAX] at hlo hhi
    omega
  have hmax : INT_LEN = 30 := rfl
  unfold intText
  split
  · refine ⟨?_, ?_, ?_⟩
    · exact fun h => (List.mem_cons.mp h).elim (by decide) hnl
    · exact fun h => (List.mem_cons.mp h).elim (by decide) hnul
    · rw [List.length_cons]
      omega
  · exact ⟨hnl, hnul, by omega⟩

theorem seqNumStr_eq (seqNum : UInt32) :
    seqNumStr seqNum = intText (wrapInt seqNum.toNat) ++ [newline] := by
  have hlen := (intText_wrapInt seqNum.toNat).2.2
  apply List.take_of_length_le
  rw [List.length_append, List.length_singleton]
  omega

theorem takeWhile_line {body : Bytes} (h : 0 ∉ body) :
    (body ++ [newline]).takeWhile (· != 0) = body ++ [newline] := by
  apply List.takeWhile_eq_self_iff.mpr
  intro c hc
  rcases List.mem_append.mp hc with hc | hc
  · have hne : c ≠ 0 := by
      rintro rfl
      exact h hc
    simpa using hne
  · rw [List.mem_singleton.mp hc]
    rfl

theorem atoi_decimal_line {n : Nat} (hn : (n : Int) ≤ INT_MAX) :
    atoi (decimal n ++ [newline]) = n := by
  have hnumeral : Numeral (decimal n ++ [newline]) n [newline] :=
    ⟨[], .none, decimal n, rfl, by simp [Blank], decimal_ne_nil n,
      fun c hc => isdigit_of_mem_decimal hc, by simp; decide, by rw [digitsValue_decimal]; rfl⟩
  rw [atoi, strtol_of_numeral hnumeral]
  simp only [INT_MAX] at hn
  rw [saturate_of_mem (by simp only [LONG_MIN]; omega) (by simp only [LONG_MAX]; omega)]
  exact wrapInt_of_mem (by simp only [INT_MIN]; omega) (by simp only [INT_MAX]; omega)

theorem Session.handle_connection (s : Session) (seqNum : UInt32) :
    handle seqNum s.connection = some ⟨seqNum, s.n, seqNumStr seqNum⟩ := by
  have hlen : (decimal s.n).length + 1 < INT_LEN := by
    have hmax : INT_LEN = 30 := rfl
    have hdigits : (decimal s.n).length ≤ 10 := by
      apply length_decimal_le (by omega)
      have hle := s.n_le
      simp only [INT_MAX] at hle
      omega
    omega
  obtain ⟨hnl, hnul⟩ := newline_notMem_decimal s.n
  have hread : (readLine INT_LEN s.connection.request).1 = .ok (decimal s.n ++ [newline]) :=
    readLine_line hnl hlen [] s.serverReads_restart
  have hsent : (seqNumStr seqNum).take s.serverWrites = seqNumStr seqNum := by
    apply List.take_of_length_le
    apply Nat.le_trans (List.length_take_le _ _)
    exact Nat.le_trans (Nat.sub_le _ _) s.serverWrites_ge
  obtain ⟨ch, str, hline⟩ := List.exists_cons_of_ne_nil
    (List.append_ne_nil_of_right_ne_nil (decimal s.n) (List.cons_ne_nil newline []))
  have hreqLen : atoi ((ch :: str).takeWhile (· != 0)) = s.n := by
    rw [← hline, takeWhile_line hnul]
    exact atoi_decimal_line s.n_le
  have hpos : ¬ (s.n : Int) ≤ 0 := by
    have := s.n_pos
    omega
  have hanswer : s.connection.writeAnswer = .ok s.serverWrites := rfl
  rw [hline] at hread
  simp only [handle, hread, hreqLen, if_neg hpos, hanswer, hsent]

/-- The client prints the line that it receives. -/
theorem client_line {reqLenStr body : Bytes} (hnl : newline ∉ body) (hnul : 0 ∉ body)
    (hlen : body.length + 1 < INT_LEN) {answers : List (Except Errno Nat)}
    (hanswers : ∀ e, .error e ∈ answers → e.val = EINTR) :
    client reqLenStr (.ok reqLenStr.length) (.ok 1) ⟨body ++ [newline], answers⟩ =
      .printed (bytes "Sequence number: " ++ (body ++ [newline])) := by
  have hread := readLine_line hnl hlen [] hanswers
  obtain ⟨ch, str, hline⟩ := List.exists_cons_of_ne_nil
    (List.append_ne_nil_of_right_ne_nil body (List.cons_ne_nil newline []))
  have hshown : (ch :: str).takeWhile (· != 0) = body ++ [newline] := by
    rw [← hline]
    exact takeWhile_line hnul
  simp only [client, ne_eq, not_true_eq_false, if_false]
  rw [hread, hline]
  dsimp only
  rw [hshown, hline]

theorem Session.prints_grant (s : Session) (seqNum : UInt32) (reqLen : Int) :
    s.prints (some ⟨seqNum, reqLen, seqNumStr seqNum⟩) =
      .printed (bytes "Sequence number: " ++ (intText (wrapInt seqNum.toNat) ++ [newline])) := by
  obtain ⟨hnl, hnul, hlen⟩ := intText_wrapInt seqNum.toNat
  rw [Session.prints, seqNumStr_eq]
  exact client_line hnl hnul hlen s.clientReads_restart

end LinuxPractice.Tlpi.SeqNum
