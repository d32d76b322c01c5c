import LinuxPractice.CLib.Bytes
import LinuxPractice.Kernel.Interleave

/-!
# `svmsg_file_server.c` and `svmsg_file_client.c`: files over message queues

A client sends the name of a file and the identifier of its own message queue to the queue
of the server, which creates a child process for each request; the child sends the file to
the client's queue, in messages of at most `RESP_MSG_SIZE` bytes and a last one without
data, or a message that the file could not be opened.  Any number of clients run at the
same time.  The child does not report failures of `read` and `msgsnd`; when `msgrcv` or
`fork` fails, the server ends.
-/

namespace LinuxPractice.Tlpi.FileServer

open LinuxPractice.CLib LinuxPractice.Kernel

def PATH_MAX : Nat := 4096
def REQ_MSG_SIZE : Nat := 4 + PATH_MAX
def RESP_MSG_SIZE : Nat := 8192

structure RequestMsg (ι : Type) where
  clientId : ι
  pathname : Bytes

/-- The messages that a child sends, by their `mtype`. -/
inductive ResponseMsg where
  | RESP_MT_FAILURE (text : Bytes)
  | RESP_MT_DATA (data : Bytes)
  | RESP_MT_END
deriving DecidableEq

/-- The size that is given to `msgsnd` and that `msgrcv` returns. -/
def ResponseMsg.size : ResponseMsg → Nat
  | .RESP_MT_FAILURE text => text.length + 1
  | .RESP_MT_DATA data => data.length
  | .RESP_MT_END => 0

/-- The bytes in a queue. -/
def queueBytes : List ResponseMsg → Nat
  | [] => 0
  | resp :: queue => resp.size + queueBytes queue

/-- The call that a client makes next, and how it ends. -/
inductive Client where
  | start
  | request
  /-- `msgrcv` of the first response. -/
  | first
  /-- `msgrcv` in the loop. -/
  | more (totBytes numMsgs : Nat)
  /-- Prints `"Received %ld bytes (%d messages)\n"`. -/
  | received (totBytes numMsgs : Nat)
  /-- Prints the text of the failure message. -/
  | refused (text : Bytes)
  | failed
deriving DecidableEq

def Client.ended : Client → Bool
  | .received _ _ | .refused _ | .failed => true
  | _ => false

/-- The call of `serveRequest` that the child for a client makes next. -/
inductive Child where
  | absent
  | opening (pathname : Bytes)
  | refusing
  | reading (rest : Bytes)
  | sending (block rest : Bytes)
  | ending
  /-- The child has exited; `none` if its last message could not be sent. -/
  | exited (last : Option ResponseMsg)
deriving DecidableEq

/-- A client, its message queue and the child that serves it. -/
structure Session where
  client : Client
  /-- `none` before the client has made its queue and after it has removed it. -/
  queue : Option (List ResponseMsg)
  child : Child
  /-- A call of the child has failed. -/
  cut : Bool

/-- The queue of the server; `none` when the server has ended and removed it. -/
structure Server (ι : Type) where
  queue : Option (List (RequestMsg ι))

inductive Call where
  | client
  | clientFails
  /-- The server receives the request of this client and creates the child. -/
  | serve
  | serverFails
  /-- The child's next call; a `read` transfers at most so many bytes besides the first. -/
  | child (more : Nat)
  | childFails
deriving DecidableEq

section Calls

variable {ι : Type} [DecidableEq ι] (files : Bytes → Option Bytes) (argv1 : ι → Bytes)
  (qbytes : Nat)

/-- The client behind the message that it counts last. -/
def counted (totBytes numMsgs : Nat) : ResponseMsg → Client
  | .RESP_MT_DATA _ => .more totBytes numMsgs
  | _ => .received totBytes numMsgs

/-- What a client does with a message. -/
def Client.receive (resp : ResponseMsg) : Client → Client
  | .first =>
    match resp with
    | .RESP_MT_FAILURE text => .refused text
    | _ => counted resp.size 1 resp
  | .more totBytes numMsgs => counted (totBytes + resp.size) (numMsgs + 1) resp
  | other => other

/-- A client that ends removes its queue. -/
def Session.endClient (p : Session) (client : Client) : Session :=
  { p with client := client, queue := none }

def receiveCall (p : Session) : Option Session :=
  match p.queue with
  | some (resp :: queue) =>
    let client := p.client.receive resp
    some (if client.ended then p.endClient client else { p with client := client, queue := queue })
  | _ => none

def clientCall (i : ι) (s : Server ι) (p : Session) : Option (Server ι × Session) :=
  match p.client with
  | .start =>
    if (argv1 i).length > PATH_MAX - 1 ∨ s.queue = none then some (s, p.endClient .failed)
    else some (s, { p with client := .request, queue := some [] })
  | .request =>
    match s.queue with
    | none => some (s, p.endClient .failed)
    | some queue =>
      if (queue.length + 1) * REQ_MSG_SIZE ≤ qbytes then
        some (⟨some (queue ++ [⟨i, (argv1 i).take (PATH_MAX - 1)⟩])⟩, { p with client := .first })
      else none
  | .first | .more _ _ => (receiveCall p).map fun p' => (s, p')
  | _ => none

def serveCall (i : ι) (s : Server ι) (p : Session) : Option (Server ι × Session) :=
  match s.queue with
  | some (req :: queue) =>
    if req.clientId = i then some (⟨some queue⟩, { p with child := .opening req.pathname })
    else none
  | _ => none

def couldntOpen : Bytes := bytes "Couldn't open"

/-- What the child does when its call fails. -/
def childFails (p : Session) : Option Session :=
  match p.child with
  | .opening _ => some { p with child := .refusing, cut := true }
  | .refusing | .ending => some { p with child := .exited none, cut := true }
  | .reading _ | .sending _ _ => some { p with child := .ending, cut := true }
  | .absent | .exited _ => none

/-- `msgsnd` blocks while the queue is full, and fails when it has been removed. -/
def send (p : Session) (resp : ResponseMsg) (child : Child) : Option Session :=
  match p.queue with
  | none => childFails p
  | some queue =>
    if queueBytes queue + resp.size ≤ qbytes ∧ queue.length + 1 ≤ qbytes then
      some { p with queue := some (queue ++ [resp]), child := child }
    else none

def childCall (more : Nat) (p : Session) : Option Session :=
  match p.child with
  | .opening pathname =>
    match files pathname with
    | none => some { p with child := .refusing }
    | some content => some { p with child := .reading content }
  | .refusing =>
    send qbytes p (.RESP_MT_FAILURE couldntOpen) (.exited (some (.RESP_MT_FAILURE couldntOpen)))
  | .reading rest =>
    let block := rest.take (min (more + 1) RESP_MSG_SIZE)
    if block = [] then some { p with child := .ending }
    else some { p with child := .sending block (rest.drop block.length) }
  | .sending block rest => send qbytes p (.RESP_MT_DATA block) (.reading rest)
  | .ending => send qbytes p .RESP_MT_END (.exited (some .RESP_MT_END))
  | .absent | .exited _ => none

def call (i : ι) (s : Server ι) (p : Session) : Call → Option (Server ι × Session)
  | .client => clientCall argv1 qbytes i s p
  | .clientFails => if p.client.ended then none else some (s, p.endClient .failed)
  | .serve => serveCall i s p
  | .serverFails => if s.queue = none then none else some (⟨none⟩, p)
  | .child more => (childCall files qbytes more p).map fun p' => (s, p')
  | .childFails => (childFails p).map fun p' => (s, p')

/-- The server waits for requests, and no client has run yet. -/
def start (ι : Type) : Config (Server ι) ι Session :=
  ⟨⟨some []⟩, fun _ => ⟨.start, none, .absent, false⟩⟩

end Calls

/-! ### What holds of a session -/

section Invariant

variable {ι : Type} (files : Bytes → Option Bytes) (argv1 : ι → Bytes)

/-- These blocks are a beginning of the file, and all of it unless a call has failed. -/
def Whole (i : ι) (cut : Bool) (blocks : List Bytes) : Prop :=
  ∃ rest, files (argv1 i) = some (blocks.flatten ++ rest) ∧ (cut = false → rest = [])

/-- There is no such file, unless a call has failed. -/
def Missing (i : ι) (cut : Bool) : Prop := cut = false → files (argv1 i) = none

/-- Where the child is, when it has sent these blocks. -/
def Served (i : ι) (cut : Bool) (blocks : List Bytes) : Child → Prop
  | .absent => blocks = []
  | .opening pathname => blocks = [] ∧ pathname = argv1 i
  | .refusing => blocks = [] ∧ Missing files argv1 i cut
  | .reading rest => files (argv1 i) = some (blocks.flatten ++ rest)
  | .sending block rest =>
    files (argv1 i) = some (blocks.flatten ++ (block ++ rest)) ∧ block.length ≤ RESP_MSG_SIZE
  | .ending => Whole files argv1 i cut blocks
  | .exited none => True
  | .exited (some (.RESP_MT_FAILURE text)) =>
    blocks = [] ∧ text = couldntOpen ∧ Missing files argv1 i cut
  | .exited (some (.RESP_MT_DATA _)) => False
  | .exited (some .RESP_MT_END) => Whole files argv1 i cut blocks

/-- The message behind the data. -/
def Child.last : Child → List ResponseMsg
  | .exited (some resp) => [resp]
  | _ => []

/-- The client has counted the blocks `done`, and the others are in its queue. -/
structure Flow (i : ι) (p : Session) (done pending : List Bytes) : Prop where
  queue : p.queue = some (pending.map .RESP_MT_DATA ++ p.child.last)
  served : Served files argv1 i p.cut (done ++ pending) p.child

/-- Where the client is. -/
def Asking (i : ι) (p : Session) : Prop :=
  match p.client with
  | .start => p.queue = none ∧ p.child = .absent
  | .request => p.queue = some [] ∧ p.child = .absent ∧ (argv1 i).length ≤ PATH_MAX - 1
  | .first => ∃ pending, Flow files argv1 i p [] pending
  | .more totBytes numMsgs => ∃ done pending : List Bytes, Flow files argv1 i p done pending ∧
      done ≠ [] ∧ done.flatten.length = totBytes ∧ done.length = numMsgs
  | .received totBytes numMsgs => ∃ blocks : List Bytes, Whole files argv1 i p.cut blocks ∧
      blocks.flatten.length = totBytes ∧ blocks.length + 1 = numMsgs ∧
      p.child = .exited (some .RESP_MT_END)
  | .refused text => text = couldntOpen ∧ Missing files argv1 i p.cut ∧
      p.child = .exited (some (.RESP_MT_FAILURE text))
  | .failed => p.queue = none

/-- The requests of the client that the server has not received. -/
structure Requested [DecidableEq ι] (i : ι) (p : Session) (queue : List (RequestMsg ι)) : Prop where
  none : p.client = .start ∨ p.client = .request ∨ p.child ≠ .absent →
    ∀ req ∈ queue, req.clientId ≠ i
  one : queue.countP (fun req => decide (req.clientId = i)) ≤ 1
  pathname : ∀ req ∈ queue, req.clientId = i → req.pathname = argv1 i
  some : p.client = .first → p.child = .absent → ∃ req ∈ queue, req.clientId = i

def Inv [DecidableEq ι] (i : ι) (s : Server ι) (p : Session) : Prop :=
  Asking files argv1 i p ∧ ∀ queue, s.queue = some queue → Requested argv1 i p queue

end Invariant

section Steps

variable {ι : Type} {files : Bytes → Option Bytes} {argv1 : ι → Bytes}
  {qbytes : Nat} {i j : ι} {s s' : Server ι} {p p' : Session} {queue : List (RequestMsg ι)}

theorem Child.of_last {child : Child} {resp : ResponseMsg} {rest : List ResponseMsg}
    (h : child.last = resp :: rest) : child = .exited (some resp) ∧ rest = [] := by
  cases child with
  | exited last =>
    cases last with
    | none => cases h
    | some last =>
      cases h
      exact ⟨rfl, rfl⟩
  | absent => cases h
  | opening pathname => cases h
  | refusing => cases h
  | reading rest => cases h
  | sending block rest => cases h
  | ending => cases h

/-- The message at the front of the queue. -/
theorem Flow.cases {done pending : List Bytes} (h : Flow files argv1 i p done pending)
    {resp : ResponseMsg} {rest : List ResponseMsg} (hqueue : p.queue = some (resp :: rest)) :
    (∃ block pending', resp = .RESP_MT_DATA block ∧
      rest = pending'.map .RESP_MT_DATA ++ p.child.last ∧
      Served files argv1 i p.cut (done ++ [block] ++ pending') p.child) ∨
    (done = [] ∧ resp = .RESP_MT_FAILURE couldntOpen ∧ Missing files argv1 i p.cut ∧
      p.child = .exited (some (.RESP_MT_FAILURE couldntOpen))) ∨
    (resp = .RESP_MT_END ∧ Whole files argv1 i p.cut done ∧
      p.child = .exited (some .RESP_MT_END)) := by
  have hsplit := h.queue
  rw [hqueue, Option.some.injEq] at hsplit
  have hserved := h.served
  cases pending with
  | cons block pending =>
    rw [List.map_cons, List.cons_append, List.cons.injEq] at hsplit
    refine .inl ⟨block, pending, hsplit.1, hsplit.2, ?_⟩
    rw [List.append_assoc]
    exact hserved
  | nil =>
    rw [List.map_nil, List.nil_append] at hsplit
    obtain ⟨hchild, -⟩ := Child.of_last hsplit.symm
    rw [List.append_nil, hchild] at hserved
    cases resp with
    | RESP_MT_FAILURE text =>
      obtain ⟨hdone, rfl, hmissing⟩ := hserved
      exact .inr (.inl ⟨hdone, rfl, hmissing, hchild⟩)
    | RESP_MT_DATA data => exact absurd hserved id
    | RESP_MT_END => exact .inr (.inr ⟨rfl, hserved, hchild⟩)

/-- A client that waits for a message, with the blocks that it has counted. -/
def Waits (client : Client) (done : List Bytes) : Prop :=
  client = .first ∧ done = [] ∨
    client = .more done.flatten.length done.length ∧ done ≠ []

theorem Asking.waits (h : Asking files argv1 i p)
    (hclient : p.client = .first ∨ ∃ totBytes numMsgs, p.client = .more totBytes numMsgs) :
    ∃ done pending, Waits p.client done ∧ Flow files argv1 i p done pending := by
  rcases hclient with hclient | ⟨totBytes, numMsgs, hclient⟩
  · rw [Asking, hclient] at h
    obtain ⟨pending, hflow⟩ := h
    exact ⟨[], pending, .inl ⟨hclient, rfl⟩, hflow⟩
  · rw [Asking, hclient] at h
    obtain ⟨done, pending, hflow, hne, rfl, rfl⟩ := h
    exact ⟨done, pending, .inr ⟨hclient, hne⟩, hflow⟩

theorem asking_of_waits {done pending : List Bytes} (hwaits : Waits p.client done)
    (hflow : Flow files argv1 i p done pending) : Asking files argv1 i p := by
  rcases hwaits with ⟨hclient, rfl⟩ | ⟨hclient, hne⟩
  · rw [Asking, hclient]
    exact ⟨pending, hflow⟩
  · rw [Asking, hclient]
    exact ⟨done, pending, hflow, hne, rfl, rfl⟩

theorem Waits.receive_data {client : Client} {done : List Bytes} (h : Waits client done)
    (block : Bytes) :
    client.receive (.RESP_MT_DATA block) =
      .more (done ++ [block]).flatten.length (done ++ [block]).length := by
  rcases h with ⟨rfl, rfl⟩ | ⟨rfl, -⟩
  · simp [Client.receive, counted, ResponseMsg.size]
  · simp [Client.receive, counted, ResponseMsg.size]

theorem Waits.receive_end {client : Client} {done : List Bytes} (h : Waits client done) :
    client.receive .RESP_MT_END = .received done.flatten.length (done.length + 1) := by
  rcases h with ⟨rfl, rfl⟩ | ⟨rfl, -⟩
  · rfl
  · rfl

/-- The client receives a message. -/
theorem Asking.receive (h : Asking files argv1 i p)
    (hclient : p.client = .first ∨ ∃ totBytes numMsgs, p.client = .more totBytes numMsgs)
    (hcall : receiveCall p = some p') : Asking files argv1 i p' ∧ p'.child = p.child ∧
      p'.client ≠ .start ∧ p'.client ≠ .request ∧ p'.client ≠ .first := by
  obtain ⟨done, pending, hwaits, hflow⟩ := h.waits hclient
  unfold receiveCall at hcall
  split at hcall
  · rename_i resp rest hqueue
    rcases hflow.cases hqueue with ⟨block, pending', rfl, rfl, hserved⟩ |
      ⟨rfl, rfl, hmissing, hchild⟩ | ⟨rfl, hwhole, hchild⟩
    · rw [hwaits.receive_data block] at hcall
      cases hcall
      refine ⟨?_, rfl, by simp [Client.ended], by simp [Client.ended], by simp [Client.ended]⟩
      exact asking_of_waits (.inr ⟨rfl, by simp⟩) ⟨rfl, hserved⟩
    · have hfirst : p.client = .first := by
        rcases hwaits with ⟨hfirst, -⟩ | ⟨-, hne⟩
        · exact hfirst
        · exact absurd rfl hne
      rw [hfirst] at hcall
      cases hcall
      refine ⟨⟨rfl, hmissing, hchild⟩, rfl, by simp [Session.endClient, Client.receive, Client.ended],
        by simp [Session.endClient, Client.receive, Client.ended],
        by simp [Session.endClient, Client.receive, Client.ended]⟩
    · rw [hwaits.receive_end] at hcall
      cases hcall
      refine ⟨⟨done, hwhole, rfl, rfl, hchild⟩, rfl, by simp [Session.endClient, Client.ended],
        by simp [Session.endClient, Client.ended], by simp [Session.endClient, Client.ended]⟩
  · cases hcall

theorem childFails_cases (h : childFails p = some p') :
    (∃ pathname, p.child = .opening pathname) ∧ p' = { p with child := .refusing, cut := true } ∨
    (p.child = .refusing ∨ p.child = .ending) ∧ p' = { p with child := .exited none, cut := true } ∨
    ((∃ rest, p.child = .reading rest) ∨ ∃ block rest, p.child = .sending block rest) ∧
      p' = { p with child := .ending, cut := true } := by
  unfold childFails at h
  split at h
  · rename_i pathname hchild
    cases h
    exact .inl ⟨⟨pathname, hchild⟩, rfl⟩
  · rename_i hchild
    cases h
    exact .inr (.inl ⟨.inl hchild, rfl⟩)
  · rename_i hchild
    cases h
    exact .inr (.inl ⟨.inr hchild, rfl⟩)
  · rename_i rest hchild
    cases h
    exact .inr (.inr ⟨.inl ⟨rest, hchild⟩, rfl⟩)
  · rename_i block rest hchild
    cases h
    exact .inr (.inr ⟨.inr ⟨block, rest, hchild⟩, rfl⟩)
  · cases h
  · cases h

theorem Flow.childFails {done pending : List Bytes} (h : Flow files argv1 i p done pending)
    (hcall : FileServer.childFails p = some p') : Flow files argv1 i p' done pending := by
  obtain ⟨hqueue, hserved⟩ := h
  rcases childFails_cases hcall with ⟨⟨pathname, hchild⟩, rfl⟩ | ⟨hchild | hchild, rfl⟩ |
    ⟨⟨rest, hchild⟩ | ⟨block, rest, hchild⟩, rfl⟩
  · rw [hchild] at hqueue hserved
    exact ⟨hqueue, hserved.1, by simp [Missing]⟩
  · rw [hchild] at hqueue
    exact ⟨hqueue, trivial⟩
  · rw [hchild] at hqueue
    exact ⟨hqueue, trivial⟩
  · rw [hchild] at hqueue hserved
    exact ⟨hqueue, rest, hserved, by simp⟩
  · rw [hchild] at hqueue hserved
    exact ⟨hqueue, block ++ rest, hserved.1, by simp⟩

/-- A message that the child sends is the last of the queue. -/
theorem Flow.of_send {done pending : List Bytes} (h : Flow files argv1 i p done pending)
    {resp : ResponseMsg} {child : Child} (hcall : send qbytes p resp child = some p') :
    p' = { p with
      queue := some (pending.map .RESP_MT_DATA ++ p.child.last ++ [resp]), child := child } := by
  rw [send, h.queue] at hcall
  simp only at hcall
  split at hcall
  · cases hcall
    rfl
  · cases hcall

theorem Flow.childCall {done pending : List Bytes} (h : Flow files argv1 i p done pending)
    {more : Nat} (hcall : FileServer.childCall files qbytes more p = some p') :
    ∃ pending', Flow files argv1 i p' done pending' := by
  have hqueue := h.queue
  have hserved := h.served
  unfold FileServer.childCall at hcall
  split at hcall
  · rename_i pathname hchild
    rw [hchild] at hqueue hserved
    obtain ⟨hnil, rfl⟩ := hserved
    split at hcall
    · rename_i hnone
      cases hcall
      exact ⟨pending, hqueue, hnil, fun _ => hnone⟩
    · rename_i content hcontent
      cases hcall
      refine ⟨pending, hqueue, ?_⟩
      rw [hnil]
      exact hcontent
  · rename_i hchild
    obtain rfl := h.of_send hcall
    rw [hchild] at hserved
    refine ⟨pending, by simp [hchild, Child.last], hserved.1, rfl, hserved.2⟩
  · rename_i rest hchild
    rw [hchild] at hqueue hserved
    simp only at hcall
    split at hcall
    · rename_i hblock
      cases hcall
      have hrest : rest = [] := by
        rcases List.take_eq_nil_iff.mp hblock with hzero | hnil
        · simp [RESP_MSG_SIZE] at hzero
        · exact hnil
      exact ⟨pending, hqueue, rest, hserved, fun _ => hrest⟩
    · cases hcall
      refine ⟨pending, hqueue, ?_, ?_⟩
      · rw [List.prefix_iff_eq_append.mp (List.take_prefix _ rest)]
        exact hserved
      · rw [List.length_take]
        omega
  · rename_i block rest hchild
    obtain rfl := h.of_send hcall
    rw [hchild] at hserved
    refine ⟨pending ++ [block], by simp [hchild, Child.last], ?_⟩
    have hfile := hserved.1
    simpa [Served] using hfile
  · rename_i hchild
    obtain rfl := h.of_send hcall
    rw [hchild] at hserved
    exact ⟨pending, by simp [hchild, Child.last], hserved⟩
  · cases hcall
  · cases hcall

/-- What a step of the child, successful or not, leaves as it is. -/
structure ChildMoved (p p' : Session) : Prop where
  client : p'.client = p.client
  present : p.child ≠ .absent
  running : ∀ last, p.child ≠ .exited last
  present' : p'.child ≠ .absent
  queue : p.queue = none → p'.queue = none

theorem childMoved_of_fails (h : childFails p = some p') : ChildMoved p p' := by
  rcases childFails_cases h with ⟨⟨pathname, hchild⟩, rfl⟩ | ⟨hchild | hchild, rfl⟩ |
    ⟨⟨rest, hchild⟩ | ⟨block, rest, hchild⟩, rfl⟩
  · exact ⟨rfl, by simp [hchild], by simp [hchild], by simp, id⟩
  · exact ⟨rfl, by simp [hchild], by simp [hchild], by simp, id⟩
  · exact ⟨rfl, by simp [hchild], by simp [hchild], by simp, id⟩
  · exact ⟨rfl, by simp [hchild], by simp [hchild], by simp, id⟩
  · exact ⟨rfl, by simp [hchild], by simp [hchild], by simp, id⟩

theorem childMoved_of_send {resp : ResponseMsg} {child : Child}
    (h : send qbytes p resp child = some p') (hpresent : p.child ≠ .absent)
    (hrunning : ∀ last, p.child ≠ .exited last) (hchild : child ≠ .absent) :
    ChildMoved p p' := by
  unfold send at h
  split at h
  · exact childMoved_of_fails h
  · rename_i queue hqueue
    split at h
    · cases h
      exact ⟨rfl, hpresent, hrunning, hchild, by simp [hqueue]⟩
    · cases h

theorem childMoved_of_call {more : Nat} (h : childCall files qbytes more p = some p') :
    ChildMoved p p' := by
  unfold childCall at h
  split at h
  · rename_i pathname hchild
    split at h
    · cases h
      exact ⟨rfl, by simp [hchild], by simp [hchild], by simp, id⟩
    · cases h
      exact ⟨rfl, by simp [hchild], by simp [hchild], by simp, id⟩
  · rename_i hchild
    exact childMoved_of_send h (by simp [hchild]) (by simp [hchild]) (by simp)
  · rename_i rest hchild
    simp only at h
    split at h
    · cases h
      exact ⟨rfl, by simp [hchild], by simp [hchild], by simp, id⟩
    · cases h
      exact ⟨rfl, by simp [hchild], by simp [hchild], by simp, id⟩
  · rename_i block rest hchild
    exact childMoved_of_send h (by simp [hchild]) (by simp [hchild]) (by simp)
  · rename_i hchild
    exact childMoved_of_send h (by simp [hchild]) (by simp [hchild]) (by simp)
  · cases h
  · cases h

/-- The child takes a step. -/
theorem Asking.child (h : Asking files argv1 i p) (hmoved : ChildMoved p p')
    (hflow : ∀ done pending, Flow files argv1 i p done pending →
      ∃ pending', Flow files argv1 i p' done pending') : Asking files argv1 i p' := by
  cases hclient : p.client with
  | start =>
    rw [Asking, hclient] at h
    exact absurd h.2 hmoved.present
  | request =>
    rw [Asking, hclient] at h
    exact absurd h.2.1 hmoved.present
  | first =>
    obtain ⟨done, pending, hwaits, hold⟩ := h.waits (.inl hclient)
    obtain ⟨pending', hnew⟩ := hflow done pending hold
    exact asking_of_waits (hmoved.client ▸ hwaits) hnew
  | more totBytes numMsgs =>
    obtain ⟨done, pending, hwaits, hold⟩ := h.waits (.inr ⟨totBytes, numMsgs, hclient⟩)
    obtain ⟨pending', hnew⟩ := hflow done pending hold
    exact asking_of_waits (hmoved.client ▸ hwaits) hnew
  | received totBytes numMsgs =>
    rw [Asking, hclient] at h
    obtain ⟨blocks, -, -, -, hchild⟩ := h
    exact absurd hchild (hmoved.running _)
  | refused text =>
    rw [Asking, hclient] at h
    exact absurd h.2.2 (hmoved.running _)
  | failed =>
    rw [Asking, hclient] at h
    rw [Asking, hmoved.client, hclient]
    exact hmoved.queue h

/-- The server creates the child. -/
theorem Asking.serve (h : Asking files argv1 i p) (hstart : p.client ≠ .start)
    (hrequest : p.client ≠ .request) (hchild : p.child = .absent) {pathname : Bytes}
    (hpath : pathname = argv1 i) :
    Asking files argv1 i { p with child := .opening pathname } := by
  have hflow : ∀ done pending, Flow files argv1 i p done pending →
      Flow files argv1 i { p with child := .opening pathname } done pending := by
    rintro done pending ⟨hqueue, hserved⟩
    rw [hchild] at hqueue hserved
    exact ⟨hqueue, hserved, hpath⟩
  obtain ⟨client, hclient⟩ : ∃ client, p.client = client := ⟨_, rfl⟩
  cases client with
  | start => exact absurd hclient hstart
  | request => exact absurd hclient hrequest
  | first =>
    obtain ⟨done, pending, hwaits, hold⟩ := h.waits (.inl hclient)
    exact asking_of_waits hwaits (hflow done pending hold)
  | more totBytes numMsgs =>
    obtain ⟨done, pending, hwaits, hold⟩ := h.waits (.inr ⟨totBytes, numMsgs, hclient⟩)
    exact asking_of_waits hwaits (hflow done pending hold)
  | received totBytes numMsgs =>
    rw [Asking, hclient] at h
    obtain ⟨blocks, -, -, -, hexited⟩ := h
    rw [hchild] at hexited
    cases hexited
  | refused text =>
    rw [Asking, hclient] at h
    have hexited := h.2.2
    rw [hchild] at hexited
    cases hexited
  | failed =>
    rw [Asking, hclient] at h
    rw [Asking, hclient]
    exact h

variable [DecidableEq ι]

/-- The server's queue stays, and the client or its child goes on. -/
theorem Requested.keep (h : Requested argv1 i p queue)
    (hnone : p'.client = .start ∨ p'.client = .request ∨ p'.child ≠ .absent →
      p.client = .start ∨ p.client = .request ∨ p.child ≠ .absent)
    (hfirst : p'.client = .first → p'.child = .absent →
      p.client = .first ∧ p.child = .absent) : Requested argv1 i p' queue where
  none := fun hp => h.none (hnone hp)
  one := h.one
  pathname := h.pathname
  some := fun hclient hchild =>
    h.some (hfirst hclient hchild).1 (hfirst hclient hchild).2

theorem Inv.childMoved (h : Inv files argv1 i s p) (hmoved : ChildMoved p p')
    (hflow : ∀ done pending, Flow files argv1 i p done pending →
      ∃ pending', Flow files argv1 i p' done pending') : Inv files argv1 i s p' := by
  refine ⟨h.1.child hmoved hflow, fun queue hqueue => (h.2 queue hqueue).keep ?_ ?_⟩
  · exact fun _ => .inr (.inr hmoved.present)
  · exact fun _ hchild => absurd hchild hmoved.present'

theorem Inv.endClient (h : Inv files argv1 i s p) : Inv files argv1 i s (p.endClient .failed) := by
  refine ⟨rfl, fun queue hqueue => (h.2 queue hqueue).keep ?_ ?_⟩
  · rintro (hclient | hclient | hchild)
    · cases hclient
    · cases hclient
    · exact .inr (.inr hchild)
  · intro hclient
    cases hclient

theorem Inv.serve (h : Inv files argv1 i s p) (hcall : serveCall i s p = some (s', p')) :
    Inv files argv1 i s' p' := by
  unfold serveCall at hcall
  split at hcall
  · rename_i req queue hqueue
    split at hcall
    · rename_i hid
      cases hcall
      have hreq := h.2 _ hqueue
      have hchild : p.child = .absent := by
        by_contra hne
        exact hreq.none (.inr (.inr hne)) req (by simp) hid
      have hpath : req.pathname = argv1 i := hreq.pathname req (by simp) hid
      have hothers : ∀ r ∈ queue, r.clientId ≠ i := by
        have hone := hreq.one
        rw [List.countP_cons_of_pos (by simpa using hid)] at hone
        have hzero : queue.countP (fun r => decide (r.clientId = i)) = 0 := by omega
        simpa using List.countP_eq_zero.mp hzero
      refine ⟨h.1.serve (fun hclient => ?_) (fun hclient => ?_) hchild hpath, ?_⟩
      · exact hreq.none (.inl hclient) req (by simp) hid
      · exact hreq.none (.inr (.inl hclient)) req (by simp) hid
      · intro queue' hqueue'
        cases hqueue'
        refine ⟨fun _ => hothers, ?_, ?_, ?_⟩
        · rw [List.countP_eq_zero.mpr (by simpa using hothers)]
          exact Nat.zero_le 1
        · exact fun r hr heq => absurd heq (hothers r hr)
        · intro _ habsent
          cases habsent
    · cases hcall
  · cases hcall

theorem Inv.receive (h : Inv files argv1 i s p)
    (hclient : p.client = .first ∨ ∃ totBytes numMsgs, p.client = .more totBytes numMsgs)
    (hcall : receiveCall p = some p') : Inv files argv1 i s p' := by
  obtain ⟨hasking, hchild, hstart, hrequest, hfirst⟩ := h.1.receive hclient hcall
  refine ⟨hasking, fun queue hqueue => (h.2 queue hqueue).keep ?_ ?_⟩
  · rintro (hc | hc | hc)
    · exact absurd hc hstart
    · exact absurd hc hrequest
    · exact .inr (.inr (hchild ▸ hc))
  · exact fun hc => absurd hc hfirst

/-- The client sends its request. -/
theorem Inv.ask (h : Inv files argv1 i s p) (hclient : p.client = .request)
    (hqueue : s.queue = some queue) :
    Inv files argv1 i ⟨some (queue ++ [⟨i, (argv1 i).take (PATH_MAX - 1)⟩])⟩
      { p with client := .first } := by
  have hasking := h.1
  rw [Asking, hclient] at hasking
  obtain ⟨hempty, hchild, hlength⟩ := hasking
  have hothers := (h.2 queue hqueue).none (.inr (.inl hclient))
  have hpath : (argv1 i).take (PATH_MAX - 1) = argv1 i := List.take_of_length_le hlength
  refine ⟨⟨[], ?_, ?_⟩, ?_⟩
  · rw [hempty, hchild]
    rfl
  · rw [hchild]
    rfl
  · intro queue' hqueue'
    cases hqueue'
    refine ⟨?_, ?_, ?_, ?_⟩
    · rintro (hfirst | hfirst | hne)
      · cases hfirst
      · cases hfirst
      · exact absurd hchild hne
    · rw [List.countP_append, List.countP_eq_zero.mpr (by simpa using hothers)]
      simp
    · intro req hmem hid
      rcases List.mem_append.mp hmem with hold | hnew
      · exact absurd hid (hothers req hold)
      · rw [List.mem_singleton.mp hnew]
        exact hpath
    · intro _ _
      exact ⟨_, List.mem_append_right _ (List.mem_singleton_self _), rfl⟩

theorem Inv.client (h : Inv files argv1 i s p)
    (hcall : clientCall argv1 qbytes i s p = some (s', p')) : Inv files argv1 i s' p' := by
  unfold clientCall at hcall
  split at hcall
  · rename_i hclient
    split at hcall
    · cases hcall
      exact h.endClient
    · rename_i hok
      cases hcall
      have hasking := h.1
      rw [Asking, hclient] at hasking
      have hlength : (argv1 i).length ≤ PATH_MAX - 1 := not_lt.mp fun hlt => hok (.inl hlt)
      refine ⟨⟨rfl, hasking.2, hlength⟩, fun queue hqueue => (h.2 queue hqueue).keep ?_ ?_⟩
      · exact fun _ => .inl hclient
      · intro hfirst
        cases hfirst
  · rename_i hclient
    split at hcall
    · cases hcall
      exact h.endClient
    · rename_i queue hqueue
      split at hcall
      · cases hcall
        exact h.ask hclient hqueue
      · cases hcall
  · rename_i hclient
    obtain ⟨p'', hreceive, heq⟩ := Option.map_eq_some_iff.mp hcall
    cases heq
    exact h.receive (.inl hclient) hreceive
  · rename_i totBytes numMsgs hclient
    obtain ⟨p'', hreceive, heq⟩ := Option.map_eq_some_iff.mp hcall
    cases heq
    exact h.receive (.inr ⟨totBytes, numMsgs, hclient⟩) hreceive
  · cases hcall

theorem inv_own {a : Call} (h : Inv files argv1 i s p)
    (hcall : call files argv1 qbytes i s p a = some (s', p')) : Inv files argv1 i s' p' := by
  cases a with
  | client => exact h.client hcall
  | clientFails =>
    rw [call] at hcall
    split at hcall
    · cases hcall
    · cases hcall
      exact h.endClient
  | serve => exact h.serve hcall
  | serverFails =>
    rw [call] at hcall
    split at hcall
    · cases hcall
    · cases hcall
      refine ⟨h.1, fun queue hqueue => ?_⟩
      cases hqueue
  | child more =>
    obtain ⟨p'', hchild, heq⟩ := Option.map_eq_some_iff.mp hcall
    cases heq
    exact h.childMoved (childMoved_of_call hchild) fun done pending hflow =>
      hflow.childCall hchild
  | childFails =>
    obtain ⟨p'', hchild, heq⟩ := Option.map_eq_some_iff.mp hcall
    cases heq
    exact h.childMoved (childMoved_of_fails hchild) fun done pending hflow =>
      ⟨pending, hflow.childFails hchild⟩

end Steps

end LinuxPractice.Tlpi.FileServer
