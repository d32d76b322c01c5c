import LinuxPractice.Tlpi.FileServer

/-!
# All runs of the file server and its clients

The calls of one client and its child do not reach the session of another one: they only
add a request to the server's queue or take one from it.  So what holds of each session
holds however many run together, and while the server is there, none of them is stuck.
-/

namespace LinuxPractice.Tlpi.FileServer

open LinuxPractice.CLib LinuxPractice.Kernel

variable {ι : Type} [DecidableEq ι] {files : Bytes → Option Bytes} {argv1 : ι → Bytes}
  {qbytes : Nat} {i j : ι} {s s' : Server ι} {p p' : Session} {queue : List (RequestMsg ι)}

/-- What a call does to the queue of the server. -/
theorem server_cases {a : Call} (hcall : call files argv1 qbytes i s p a = some (s', p')) :
    s' = s ∨ s'.queue = none ∨
    (∃ queue pathname, s.queue = some queue ∧ s'.queue = some (queue ++ [⟨i, pathname⟩])) ∨
    ∃ req queue, s.queue = some (req :: queue) ∧ req.clientId = i ∧ s'.queue = some queue := by
  cases a with
  | client =>
    rw [call] at hcall
    unfold clientCall at hcall
    split at hcall
    · split at hcall
      · cases hcall
        exact .inl rfl
      · cases hcall
        exact .inl rfl
    · split at hcall
      · cases hcall
        exact .inl rfl
      · rename_i queue hqueue
        split at hcall
        · cases hcall
          exact .inr (.inr (.inl ⟨queue, _, hqueue, rfl⟩))
        · cases hcall
    · obtain ⟨p'', -, heq⟩ := Option.map_eq_some_iff.mp hcall
      cases heq
      exact .inl rfl
    · obtain ⟨p'', -, heq⟩ := Option.map_eq_some_iff.mp hcall
      cases heq
      exact .inl rfl
    · cases hcall
  | clientFails =>
    rw [call] at hcall
    split at hcall
    · cases hcall
    · cases hcall
      exact .inl rfl
  | serve =>
    rw [call] at hcall
    unfold serveCall at hcall
    split at hcall
    · rename_i req queue hqueue
      split at hcall
      · rename_i hid
        cases hcall
        exact .inr (.inr (.inr ⟨req, queue, hqueue, hid, rfl⟩))
      · cases hcall
    · cases hcall
  | serverFails =>
    rw [call] at hcall
    split at hcall
    · cases hcall
    · cases hcall
      exact .inr (.inl rfl)
  | child more =>
    obtain ⟨p'', -, heq⟩ := Option.map_eq_some_iff.mp hcall
    cases heq
    exact .inl rfl
  | childFails =>
    obtain ⟨p'', -, heq⟩ := Option.map_eq_some_iff.mp hcall
    cases heq
    exact .inl rfl

/-- A request of another client comes or goes. -/
theorem Requested.append (h : Requested argv1 j p queue) {req : RequestMsg ι}
    (hne : req.clientId ≠ j) : Requested argv1 j p (queue ++ [req]) where
  none := by
    intro hp r hr
    rcases List.mem_append.mp hr with hold | hnew
    · exact h.none hp r hold
    · rw [List.mem_singleton.mp hnew]
      exact hne
  one := by
    rw [List.countP_append, List.countP_cons_of_neg (by simpa using hne)]
    exact h.one
  pathname := by
    intro r hr hid
    rcases List.mem_append.mp hr with hold | hnew
    · exact h.pathname r hold hid
    · rw [List.mem_singleton.mp hnew] at hid
      exact absurd hid hne
  some := by
    intro hclient hchild
    obtain ⟨r, hr, hid⟩ := h.some hclient hchild
    exact ⟨r, List.mem_append_left _ hr, hid⟩

theorem Requested.tail {req : RequestMsg ι} (h : Requested argv1 j p (req :: queue))
    (hne : req.clientId ≠ j) : Requested argv1 j p queue where
  none := fun hp r hr => h.none hp r (List.mem_cons_of_mem _ hr)
  one := by
    have hone := h.one
    rwa [List.countP_cons_of_neg (by simpa using hne)] at hone
  pathname := fun r hr => h.pathname r (List.mem_cons_of_mem _ hr)
  some := by
    intro hclient hchild
    obtain ⟨r, hr, hid⟩ := h.some hclient hchild
    rcases List.mem_cons.mp hr with rfl | hr
    · exact absurd hid hne
    · exact ⟨r, hr, hid⟩

theorem inv_others {a : Call} {q : Session}
    (hcall : call files argv1 qbytes i s p a = some (s', p')) (hne : j ≠ i)
    (h : Inv files argv1 j s q) : Inv files argv1 j s' q := by
  refine ⟨h.1, fun queue' hqueue' => ?_⟩
  rcases server_cases hcall with rfl | hnone | ⟨queue, pathname, hqueue, hnew⟩ |
    ⟨req, queue, hqueue, hid, hnew⟩
  · exact h.2 queue' hqueue'
  · rw [hnone] at hqueue'
    cases hqueue'
  · rw [hnew] at hqueue'
    cases hqueue'
    exact (h.2 queue hqueue).append hne.symm
  · rw [hnew] at hqueue'
    cases hqueue'
    apply (h.2 _ hqueue).tail
    rw [hid]
    exact hne.symm

theorem inv_start (i : ι) : Inv files argv1 i (start ι).shared ((start ι).proc i) := by
  refine ⟨⟨rfl, rfl⟩, fun queue hqueue => ?_⟩
  cases hqueue
  refine ⟨by simp, by simp, by simp, fun hclient => ?_⟩
  cases hclient

variable {c : Config (Server ι) ι Session}

theorem inv_of_reachable (h : Reachable (call files argv1 qbytes) (start ι) c) (i : ι) :
    Inv files argv1 i c.shared (c.proc i) :=
  h.each (Inv files argv1) inv_start (fun hp hcall => inv_own hp hcall)
    (fun _ hcall _ _ hne hq => inv_others hcall hne hq) i

/-- Two clients at the same time, one of which asks for a file that is not there. -/
def twoFiles (pathname : Bytes) : Option Bytes :=
  if pathname = bytes "f" then some (bytes "ab") else none

def twoNames (i : Bool) : Bytes := if i then bytes "f" else bytes "g"

def twoAsk : List (Bool × Call) :=
  [(true, .client), (false, .client), (true, .client), (false, .client)]

def twoServed : List (Bool × Call) :=
  [(true, .serve), (false, .serve), (true, .child 0), (false, .child 0), (true, .child 0),
    (true, .child 0), (true, .client), (false, .child 0), (false, .client), (true, .child 7),
    (true, .child 0), (true, .child 0), (true, .child 0), (true, .client), (true, .client)]

theorem exists_two {β : Type} (f : Config (Server Bool) Bool Session → β) {b : β}
    {calls : List (Bool × Call)}
    (h : ((start Bool).run (call twoFiles twoNames 16384) calls).map f = some b) :
    ∃ c, Reachable (call twoFiles twoNames 16384) (start Bool) c ∧ f c = b := by
  obtain ⟨c, hrun, hc⟩ := Option.map_eq_some_iff.mp h
  exact ⟨c, Reachable.start.of_run hrun, hc⟩

/-- A call returns that the client waits for: its own, one of its child, or the server's for
    the first request in its queue. -/
def Moves (files : Bytes → Option Bytes) (argv1 : ι → Bytes) (qbytes : Nat)
    (c : Config (Server ι) ι Session) (i : ι) : Prop :=
  (c.step (call files argv1 qbytes) i .client).isSome ∨
    (∃ more, (c.step (call files argv1 qbytes) i (.child more)).isSome) ∨
    ∃ j, (c.step (call files argv1 qbytes) j .serve).isSome

theorem isSome_step {a : Call} (h : (call files argv1 qbytes i c.shared (c.proc i) a).isSome) :
    (c.step (call files argv1 qbytes) i a).isSome := by
  rw [Config.step, Option.isSome_map]
  exact h

/-- The server can receive a request that is in its queue. -/
theorem moves_of_request {req : RequestMsg ι} (hqueue : c.shared.queue = some (req :: queue)) :
    Moves files argv1 qbytes c i := by
  refine .inr (.inr ⟨req.clientId, isSome_step ?_⟩)
  simp [call, serveCall, hqueue]

/-- A child can send into an empty queue. -/
theorem send_empty {resp : ResponseMsg} {child : Child} (hqueue : p.queue = some [])
    (hsize : resp.size ≤ qbytes) (hone : 1 ≤ qbytes) : (send qbytes p resp child).isSome := by
  simp [send, hqueue, queueBytes, hsize, hone]

omit [DecidableEq ι] in
theorem childCall_isSome (hsize : RESP_MSG_SIZE ≤ qbytes) {done : List Bytes}
    (hqueue : p.queue = some []) (hserved : Served files argv1 i p.cut done p.child)
    (hpresent : p.child ≠ .absent) (hrunning : ∀ last, p.child ≠ .exited last) :
    (childCall files qbytes 0 p).isSome := by
  have hbound : 8192 ≤ qbytes := hsize
  unfold childCall
  split
  · split
    · rfl
    · rfl
  · apply send_empty hqueue
    · exact le_trans (by decide) hbound
    · omega
  · simp only
    split
    · rfl
    · rfl
  · rename_i block rest hchild
    rw [hchild] at hserved
    exact send_empty hqueue (le_trans hserved.2 hsize) (by omega)
  · exact send_empty hqueue (Nat.zero_le _) (by omega)
  · rename_i hchild
    exact absurd hchild hpresent
  · rename_i last hchild
    exact absurd hchild (hrunning last)

/-- A client that waits for a message. -/
theorem moves_of_waits (hsize : RESP_MSG_SIZE ≤ qbytes)
    (hinv : Inv files argv1 i c.shared (c.proc i)) (hqueue : c.shared.queue = some queue)
    (hclient : (c.proc i).client = .first ∨
      ∃ totBytes numMsgs, (c.proc i).client = .more totBytes numMsgs)
    (hchild : (c.proc i).child ≠ .exited none) : Moves files argv1 qbytes c i := by
  obtain ⟨done, pending, hwaits, hflow⟩ := hinv.1.waits hclient
  cases hpending : pending.map ResponseMsg.RESP_MT_DATA ++ (c.proc i).child.last with
  | cons resp rest =>
    -- a message is there
    refine .inl (isSome_step ?_)
    have hown : (c.proc i).queue = some (resp :: rest) := by rw [hflow.queue, hpending]
    rcases hclient with hclient | ⟨totBytes, numMsgs, hclient⟩
    · simp [call, clientCall, hclient, receiveCall, hown]
    · simp [call, clientCall, hclient, receiveCall, hown]
  | nil =>
    have hown : (c.proc i).queue = some [] := by rw [hflow.queue, hpending]
    by_cases habsent : (c.proc i).child = .absent
    · -- the request has not been received yet
      have hdone : done ++ pending = [] := by
        have hserved := hflow.served
        rwa [habsent] at hserved
      have hfirst : (c.proc i).client = .first := by
        rcases hwaits with ⟨hfirst, -⟩ | ⟨-, hne⟩
        · exact hfirst
        · exact absurd (List.append_eq_nil_iff.mp hdone).1 hne
      obtain ⟨req, hreq, -⟩ := (hinv.2 queue hqueue).some hfirst habsent
      cases queue with
      | nil => cases hreq
      | cons head queue => exact moves_of_request hqueue
    · have hrunning : ∀ last, (c.proc i).child ≠ .exited last := by
        intro last hlast
        cases last with
        | none => exact hchild hlast
        | some resp =>
          rw [hlast] at hpending
          simp [Child.last] at hpending
      refine .inr (.inl ⟨0, isSome_step ?_⟩)
      rw [call, Option.isSome_map]
      exact childCall_isSome hsize hown hflow.served habsent hrunning

/-- While the server is there, no client is stuck: if it has not ended, and its child has not
    given up on its last message, a call returns that it waits for. -/
theorem reachable_moves (hsize : RESP_MSG_SIZE ≤ qbytes)
    (h : Reachable (call files argv1 qbytes) (start ι) c) (hserver : c.shared.queue ≠ none)
    (i : ι) (hended : (c.proc i).client.ended = false)
    (hchild : (c.proc i).child ≠ .exited none) : Moves files argv1 qbytes c i := by
  have hinv := inv_of_reachable h i
  obtain ⟨queue, hqueue⟩ := Option.ne_none_iff_exists'.mp hserver
  cases hclient : (c.proc i).client with
  | start =>
    refine .inl (isSome_step ?_)
    simp only [call, clientCall, hclient]
    split
    · rfl
    · rfl
  | request =>
    by_cases hroom : (queue.length + 1) * REQ_MSG_SIZE ≤ qbytes
    · refine .inl (isSome_step ?_)
      simp [call, clientCall, hclient, hqueue, hroom]
    · cases queue with
      | nil =>
        have hone : REQ_MSG_SIZE ≤ RESP_MSG_SIZE := by decide
        exact absurd (le_trans (by simpa using hone) hsize) hroom
      | cons req queue => exact moves_of_request hqueue
  | first => exact moves_of_waits hsize hinv hqueue (.inl hclient) hchild
  | more totBytes numMsgs =>
    exact moves_of_waits hsize hinv hqueue (.inr ⟨totBytes, numMsgs, hclient⟩) hchild
  | received totBytes numMsgs =>
    rw [hclient] at hended
    cases hended
  | refused text =>
    rw [hclient] at hended
    cases hended
  | failed =>
    rw [hclient] at hended
    cases hended

theorem reachable_moves_two :
    ∃ c : Config (Server Bool) Bool Session,
      Reachable (call twoFiles twoNames 16384) (start Bool) c ∧ (c.proc true).client = .first ∧
      Moves twoFiles twoNames 16384 c true := by
  obtain ⟨c, hreach, hc⟩ :=
    @exists_two _ (fun c => ((c.proc true).client, (c.proc true).child, c.shared.queue.isSome))
      (.first, .absent, true) twoAsk (by decide)
  simp only [Prod.mk.injEq] at hc
  have hserver : c.shared.queue ≠ none := Option.isSome_iff_ne_none.mp hc.2.2
  refine ⟨c, hreach, hc.1, reachable_moves (by decide) hreach hserver true ?_ ?_⟩
  · rw [hc.1]
    rfl
  · rw [hc.2.1]
    simp

end LinuxPractice.Tlpi.FileServer
