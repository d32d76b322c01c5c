import LinuxPractice.Tlpi.ShmXfrPhases

/-!
# Runs of the transfer through shared memory

What arrives in every interleaving of writer and reader, and that the two never wait for
each other.
-/

namespace LinuxPractice.Tlpi.ShmXfr

open LinuxPractice.CLib LinuxPractice.Kernel

variable {input : Bytes} {s s' : Shared} {w : Writer} {r : Reader} {answer : Answer}
  {error : Option String} {bufSize : Nat}

/-! ### Every run -/

/-- A `write` that stores a part of the block ends the reader. -/
theorem error_of_torn (hstep : readerStep s r answer = some (s', .torn, error)) :
    error.isSome := by
  cases r with
  | semget =>
    simp only [readerStep] at hstep
    split at hstep
    · cases hstep
    · rcases simpleCall_cases hstep with ⟨-, hnext⟩ | ⟨-, hnext⟩ <;> cases hnext
  | shmget =>
    simp only [readerStep] at hstep
    split at hstep
    · cases hstep
    · rcases simpleCall_cases hstep with ⟨-, hnext⟩ | ⟨-, hnext⟩ <;> cases hnext
  | shmat => rcases simpleCall_cases hstep with ⟨-, hnext⟩ | ⟨-, hnext⟩ <;> cases hnext
  | reserve xfrs bytes =>
    rcases reserveSem_cases hstep with ⟨-, hnext⟩ | ⟨-, -, -, -, hnext⟩ <;> cases hnext
  | test xfrs bytes =>
    simp only [readerStep] at hstep
    split at hstep <;> cases hstep
  | write xfrs bytes =>
    cases answer with
    | returns n =>
      simp only [readerStep] at hstep
      split at hstep
      · cases hstep
        rfl
      · cases hstep
    | interrupted => cases hstep
    | fails => cases hstep
  | release xfrs bytes =>
    rcases releaseSem_cases hstep with ⟨-, hnext⟩ | ⟨-, -, -, hnext⟩ <;> cases hnext
  | torn => cases hstep
  | shmdt xfrs bytes => rcases simpleCall_cases hstep with ⟨-, hnext⟩ | ⟨-, hnext⟩ <;> cases hnext
  | releaseLast xfrs bytes =>
    rcases releaseSem_cases hstep with ⟨-, hnext⟩ | ⟨-, -, -, hnext⟩ <;> cases hnext
  | received xfrs bytes => cases hstep

/-- The two processes of a configuration are in a phase of the transfer. -/
def Transferring (input : Bytes) (c : Config Shared Role Proc) : Prop :=
  ∃ w werror r rerror, c.proc .writer = .writer w werror ∧ c.proc .reader = .reader r rerror ∧
    (r = .torn → rerror.isSome) ∧ Phase input c.shared w r

variable {stdin : Input UInt8 Errno} {c : Config Shared Role Proc}

theorem transferring_of_reachable (hpos : 0 < bufSize)
    (h : Reachable (call bufSize) (start stdin) c) : Transferring stdin.data c := by
  apply h.invariant (Transferring stdin.data)
  · exact ⟨.semget, none, .semget, none, rfl, rfl, nofun,
      .filling rfl (.semget rfl rfl rfl) (.semget rfl)⟩
  · rintro c i answer s' p' ⟨w, werror, r, rerror, hw, hr, htorn, hphase⟩ hcall
    cases i with
    | writer =>
      rw [hw] at hcall
      cases werror with
      | some text => cases hcall
      | none =>
        obtain ⟨⟨s', w', error⟩, hstep, heq⟩ := Option.map_eq_some_iff.mp hcall
        cases heq
        exact ⟨w', error, r, rerror, by simp, by simp [hr], htorn, hphase.writer hpos hstep⟩
    | reader =>
      rw [hr] at hcall
      cases rerror with
      | some text => cases hcall
      | none =>
        obtain ⟨⟨s', r', error⟩, hstep, heq⟩ := Option.map_eq_some_iff.mp hcall
        cases heq
        refine ⟨w, werror, r', error, by simp [hw], by simp, ?_, hphase.reader hstep⟩
        rintro rfl
        exact error_of_torn hstep

theorem Phase.stdout_prefix (h : Phase input s w r) : s.stdout.flatten <+: input := by
  cases h with
  | filling hdata => exact ⟨_, hdata⟩
  | loaded hloaded => exact ⟨_, by rw [← List.append_assoc]; exact hloaded.data⟩
  | offered hloaded => exact ⟨_, by rw [← List.append_assoc]; exact hloaded.data⟩
  | testing hloaded => exact ⟨_, by rw [← List.append_assoc]; exact hloaded.data⟩
  | writing hloaded => exact ⟨_, by rw [← List.append_assoc]; exact hloaded.data⟩
  | delivered hdata => exact ⟨_, hdata⟩
  | torn hprefix => exact hprefix
  | detaching hout => exact ⟨[], by rw [List.append_nil]; exact hout⟩
  | leaving hout => exact ⟨[], by rw [List.append_nil]; exact hout⟩
  | closing hout => exact ⟨[], by rw [List.append_nil]; exact hout⟩

theorem Waiting.ne_received (h : Waiting s r) (xfrs bytes : Int) : r ≠ .received xfrs bytes := by
  cases h <;> exact Reader.noConfusion

theorem Phase.of_received {xfrs bytes : Int} (h : Phase input s w r)
    (hr : r = .received xfrs bytes) : s.stdout.flatten = input ∧ s.xfrs = xfrs ∧ s.bytes = bytes := by
  cases h with
  | filling _ _ hwait => exact absurd hr (hwait.ne_received _ _)
  | loaded _ _ hwait => exact absurd hr (hwait.ne_received _ _)
  | offered _ _ _ hwait => exact absurd hr (hwait.ne_received _ _)
  | testing => exact Reader.noConfusion hr
  | writing => exact Reader.noConfusion hr
  | delivered => exact Reader.noConfusion hr
  | torn => exact Reader.noConfusion hr
  | detaching => exact Reader.noConfusion hr
  | leaving => exact Reader.noConfusion hr
  | closing hout => exact ⟨hout, Reader.received.inj hr⟩

theorem Blocked.ne_sent (h : Blocked w) (xfrs bytes : Int) : w ≠ .sent xfrs bytes := by
  cases h <;> exact Writer.noConfusion

theorem Phase.of_sent {xfrs bytes : Int} (h : Phase input s w r) (hw : w = .sent xfrs bytes) :
    r = .received xfrs bytes := by
  cases h with
  | filling _ hfilling => cases hfilling <;> exact Writer.noConfusion hw
  | loaded => exact Writer.noConfusion hw
  | offered _ _ hoffered => exact absurd hw (hoffered.blocked.ne_sent _ _)
  | testing _ _ hoffered => exact absurd hw (hoffered.blocked.ne_sent _ _)
  | writing _ _ _ hoffered => exact absurd hw (hoffered.blocked.ne_sent _ _)
  | delivered _ _ hdelivered => cases hdelivered <;> exact Writer.noConfusion hw
  | torn _ _ hblocked => exact absurd hw (hblocked.ne_sent _ _)
  | detaching _ _ _ hoffered => exact absurd hw (hoffered.blocked.ne_sent _ _)
  | leaving _ _ _ hoffered => exact absurd hw (hoffered.blocked.ne_sent _ _)
  | closing _ hclosing =>
    cases hclosing with
    | sent =>
      obtain ⟨hxfrs, hbytes⟩ := Writer.sent.inj hw
      rw [hxfrs, hbytes]
    | _ => exact Writer.noConfusion hw

/-- The process is not blocked: a call that is not interrupted and does not fail comes
    back. -/
def Returns {π : Type} (step : Answer → Next π) : Prop := ∃ n, (step (.returns n)).isSome

theorem returns_reserve {π : Type} {sem : Nat × Nat → Nat} {take : Nat × Nat → Nat × Nat}
    {here next : π} {v : Nat × Nat} (hsems : s.sems = some v) (hpos : 0 < sem v) :
    Returns (reserveSem sem take here next s) := by
  refine ⟨0, ?_⟩
  simp only [reserveSem, hsems, if_pos hpos]
  rfl

theorem returns_release {π : Type} {give : Nat × Nat → Nat × Nat} {here next : π} :
    Returns (releaseSem give here next s) := by
  refine ⟨0, ?_⟩
  unfold releaseSem
  cases s.sems <;> rfl

theorem Filling.returns (h : Filling s w) : Returns (writerStep bufSize s w) := by
  cases h with
  | reserve hsems => exact returns_reserve hsems Nat.one_pos
  | read hsems =>
    refine ⟨0, ?_⟩
    simp only [writerStep]
    split <;> rfl
  | _ => exact ⟨0, rfl⟩

theorem Waiting.returns (h : Waiting s r) (hsems : s.sems = some (0, 1)) :
    Returns (readerStep s r) := by
  cases h with
  | semget =>
    refine ⟨0, ?_⟩
    simp only [readerStep]
    split <;> rfl
  | shmget =>
    refine ⟨0, ?_⟩
    simp only [readerStep]
    split <;> rfl
  | shmat => exact ⟨0, rfl⟩
  | reserve => exact returns_reserve hsems Nat.one_pos

theorem Closing.returns (bufSize : Nat) (h : Closing s w) :
    w = .sent s.xfrs s.bytes ∨ Returns (writerStep bufSize s w) := by
  cases h with
  | sent => exact .inl rfl
  | reserveLast hsems => exact .inr (returns_reserve hsems Nat.one_pos)
  | _ => exact .inr ⟨0, rfl⟩

theorem Phase.progress (bufSize : Nat) (h : Phase input s w r) (htorn : r ≠ .torn) :
    (∃ xfrs bytes, w = .sent xfrs bytes ∧ r = .received xfrs bytes) ∨
      Returns (writerStep bufSize s w) ∨ Returns (readerStep s r) := by
  cases h with
  | filling _ hfilling => exact .inr (.inl hfilling.returns)
  | loaded => exact .inr (.inl returns_release)
  | offered _ hsems _ hwait => exact .inr (.inr (hwait.returns hsems))
  | testing => exact .inr (.inr ⟨0, rfl⟩)
  | writing =>
    refine .inr (.inr ⟨0, ?_⟩)
    simp only [readerStep]
    split <;> rfl
  | delivered => exact .inr (.inr returns_release)
  | torn => exact absurd rfl htorn
  | detaching => exact .inr (.inr ⟨0, rfl⟩)
  | leaving => exact .inr (.inr returns_release)
  | closing _ hclosing =>
    rcases hclosing.returns bufSize with hsent | hreturns
    · exact .inl ⟨_, _, hsent, rfl⟩
    · exact .inr (.inl hreturns)

/-- In every interleaving: as long as neither process has failed, one of them is not
    blocked, until both have ended with the same numbers. -/
theorem reachable_not_deadlocked (hpos : 0 < bufSize)
    (h : Reachable (call bufSize) (start stdin) c) (hw : c.proc .writer = .writer w none)
    (hr : c.proc .reader = .reader r none) :
    (∃ xfrs bytes, w = .sent xfrs bytes ∧ r = .received xfrs bytes) ∨
      ∃ i n, (c.step (call bufSize) i (.returns n)).isSome := by
  rcases transferring_of_reachable hpos h with ⟨w', werror, r', rerror, hw', hr', htorn, hphase⟩
  obtain ⟨rfl, rfl⟩ := Proc.writer.inj (hw.symm.trans hw')
  obtain ⟨rfl, rfl⟩ := Proc.reader.inj (hr.symm.trans hr')
  have hne : r ≠ .torn := fun heq => Bool.false_ne_true (htorn heq)
  rcases hphase.progress bufSize hne with hends | ⟨n, hsome⟩ | ⟨n, hsome⟩
  · exact .inl hends
  · refine .inr ⟨.writer, n, ?_⟩
    simp only [Config.step, hw, call, Option.isSome_map, hsome]
  · refine .inr ⟨.reader, n, ?_⟩
    simp only [Config.step, hr, call, Option.isSome_map, hsome]

/-! ### A run -/

/-- The calls of a run that transfers one block of two bytes. -/
def oneBlock : List (Role × Answer) :=
  List.replicate 8 (.writer, .returns 0) ++ List.replicate 5 (.reader, .returns 0) ++
    [(.reader, .returns 2), (.reader, .returns 0)] ++ List.replicate 4 (.writer, .returns 0) ++
    List.replicate 4 (.reader, .returns 0) ++ List.replicate 5 (.writer, .returns 0)

def twoBytes : Input UInt8 Errno := ⟨[104, 105], []⟩

theorem reachable_not_deadlocked_half :
    ∃ c, Reachable (call 1024) (start twoBytes) c ∧
      ∃ i n, (c.step (call 1024) i (.returns n)).isSome := by
  obtain ⟨c, hrun, hw, hr⟩ : ∃ c, (start twoBytes).run (call 1024) (oneBlock.take 13) = some c ∧
      c.proc .writer = .writer (.test 0 0) none ∧ c.proc .reader = .reader (.write 0 2) none :=
    ⟨_, rfl, rfl, rfl⟩
  have hreach : Reachable (call 1024) (start twoBytes) c := Reachable.start.of_run hrun
  rcases reachable_not_deadlocked (show 0 < 1024 by decide) hreach hw hr with
    ⟨xfrs, bytes, hsent, -⟩ | hgoes
  · cases hsent
  · exact ⟨c, hreach, hgoes⟩

end LinuxPractice.Tlpi.ShmXfr
