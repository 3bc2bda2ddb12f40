import GameServer.Ring

/-!
# The mailboxes of the services

Every service has a mailbox, and any thread may push into it. The mailboxes that hold something wait
in one global queue; a worker takes one from there, hands some of its messages to the service and
puts it back. A mailbox is freed when nobody refers to its service any more.

Each step of `Node` is what one thread does under one lock, so a run is any interleaving of any
number of threads. References that a thread is about to give up are collected in `leaving`, contexts
that are being deleted in `dying`: what comes next for them may happen at any time. A step that
would touch freed memory, and an assertion that fails, are a `Fault`; a context counts as freed as
soon as nobody refers to it.

A service is known by a number of its own where the code has its handle. Handles have 24 bits and
are used again, so this takes for granted that a new handle is not that of a mailbox which is still
there.
-/

namespace GameServer

namespace Mailboxes

variable {μ : Type*} [Inhabited μ]

def MQ_OVERLOAD : ℕ := 1024

structure Mailbox (μ : Type*) where
  ring : Ring μ
  release : Bool
  inGlobal : Bool
  overload : ℕ
  overloadThreshold : ℕ

namespace Mailbox

/-- The mailbox counts as being in the global queue until the service is launched. -/
def create : Mailbox μ := ⟨⟨64, 0, 0, fun _ => default⟩, false, true, 0, MQ_OVERLOAD⟩

def length (b : Mailbox μ) : ℕ :=
  if b.ring.head ≤ b.ring.tail then b.ring.tail - b.ring.head
  else b.ring.tail + b.ring.cap - b.ring.head

def raise (length overload threshold : ℕ) : ℕ × ℕ :=
  if 0 < threshold ∧ threshold < length then raise length length (threshold * 2)
  else (overload, threshold)
termination_by length - threshold

def pop (b : Mailbox μ) : Option μ × Mailbox μ :=
  match b.ring.pop with
  | some (message, ring) =>
      let b := { b with ring := ring }
      let raised := raise b.length b.overload b.overloadThreshold
      (some message, { b with overload := raised.1, overloadThreshold := raised.2 })
  | none => (none, { b with overloadThreshold := MQ_OVERLOAD, inGlobal := false })

def push (b : Mailbox μ) (message : μ) : Mailbox μ :=
  { b with ring := Ring.push (· * 2) b.ring message, inGlobal := true }

end Mailbox

/-- A service: whether its handle is registered, the references to its context, and its mailbox,
which is `none` before it is made and after it was freed. `sent` and `taken` are the history of the
mailbox: what was pushed and what was popped. -/
structure Service (μ : Type*) where
  registered : Bool
  ref : ℕ
  queue : Option (Mailbox μ)
  sent : List μ
  taken : List μ

def Service.unborn : Service μ := ⟨false, 0, none, [], []⟩

/-- Where a thread is. A worker goes round `skynet_context_message_dispatch`; a thread that runs
`skynet_context_new` is `gone` when it has finished. -/
inductive Thread (μ : Type*)
  | idle
  | holding (q : ℕ)
  | looping (q i n : ℕ)
  | delivering (q i n : ℕ) (message : μ)
  | yielding (q : ℕ)
  | switching (q nq : ℕ)
  | launching (q : ℕ)
  | starting (q : ℕ)
  | pushing (q : ℕ) (ret : Bool)
  | logging (q : ℕ)
  | retiring (q : ℕ)
  | releasing (q : ℕ) (worker : Bool)
  | dropping (q : ℕ) (worker : Bool)
  | gone

namespace Thread

/-- The mailboxes that are the thread's business. -/
def owns : Thread μ → List ℕ
  | idle | logging _ | gone => []
  | holding q | looping q _ _ | delivering q _ _ _ | yielding q | launching q | starting q
  | pushing q _ | retiring q | releasing q _ | dropping q _ => [q]
  | switching q nq => [q, nq]

/-- The contexts that the thread has a reference to. -/
def grabs : Thread μ → List ℕ
  | looping q _ _ | delivering q _ _ _ | yielding q | switching q _ | launching q => [q]
  | _ => []

def drops : Thread μ → List ℕ
  | dropping q _ => [q]
  | _ => []

/-- The contexts that the thread still uses in `skynet_context_new`. -/
def launches : Thread μ → List ℕ
  | launching q | starting q | pushing q true | logging q => [q]
  | _ => []

def after (worker : Bool) : Thread μ := if worker then idle else gone

end Thread

inductive Fault
  | freed
  | assertion
  deriving DecidableEq

structure Node (μ : Type*) where
  total : ℕ
  service : ℕ → Service μ
  globalmq : List ℕ
  threads : List (Thread μ)
  sending : List (ℕ × μ)
  leaving : List ℕ
  dying : List ℕ

namespace Node

def init (workers : ℕ) : Node μ :=
  ⟨0, fun _ => Service.unborn, [], List.replicate workers .idle, [], [], []⟩

def become (s : Node μ) (i : ℕ) (t : Thread μ) : Node μ := { s with threads := s.threads.set i t }

def setService (s : Node μ) (q : ℕ) (v : Service μ) : Node μ :=
  { s with service := Function.update s.service q v }

def setQueue (s : Node μ) (q : ℕ) (b : Mailbox μ) : Node μ :=
  s.setService q { s.service q with queue := some b }

def leave (s : Node μ) (q : ℕ) : Node μ := { s with leaving := s.leaving ++ [q] }

def queue (s : Node μ) (q : ℕ) : Except Fault (Mailbox μ) :=
  match (s.service q).queue with
  | some b => .ok b
  | none => .error .freed

/-- The assertion sees a mailbox that has another one behind it. -/
def globalPush (s : Node μ) (q : ℕ) : Except Fault (Node μ) :=
  if q ∈ s.globalmq.dropLast then .error .assertion
  else .ok { s with globalmq := s.globalmq ++ [q] }

/-- `skynet_handle_grab` -/
def grab (s : Node μ) (q : ℕ) : Option (Node μ) :=
  if (s.service q).registered then
    some (s.setService q { s.service q with ref := (s.service q).ref + 1 })
  else none

/-- `skynet_handle_retire` up to the reference that the handle was. -/
def retire (s : Node μ) (q : ℕ) : Node μ :=
  if (s.service q).registered then
    (s.setService q { s.service q with registered := false }).leave q
  else s

/-- A message leaves the mailbox, for the service or to be dropped. -/
def take (s : Node μ) (q : ℕ) (b : Mailbox μ) (message : μ) : Node μ :=
  s.setService q
    { s.service q with queue := some b, taken := (s.service q).taken ++ [message] }

/-- What the thread `i` does next; `weight` says how many messages it takes in one turn. -/
def work (weight : ℤ) (i : ℕ) (s : Node μ) : Except Fault (Node μ) :=
  match s.threads[i]? with
  | some .idle =>
      match s.globalmq with
      | [] => .ok s
      | q :: rest => .ok ({ s with globalmq := rest }.become i (.holding q))
  | some (.holding q) => do
      let _ ← s.queue q
      match s.grab q with
      | some s => .ok (s.become i (.looping q 0 1))
      | none => .ok (s.become i (.releasing q true))
  | some (.looping q k n) =>
      if k < n then do
        let b ← s.queue q
        match b.pop with
        | (none, b) => .ok (((s.setQueue q b).leave q).become i .idle)
        | (some message, b) => .ok ((s.take q b message).become i (.delivering q k n message))
      else .ok (s.become i (.yielding q))
  | some (.delivering q k n _) => do
      let b ← s.queue q
      if (s.service q).ref = 0 then .error .freed
      else
        let n := if k = 0 ∧ 0 ≤ weight then b.length >>> weight.toNat else n
        .ok ((s.setQueue q { b with overload := 0 }).become i (.looping q (k + 1) n))
  | some (.yielding q) =>
      match s.globalmq with
      | [] => .ok ((s.leave q).become i (.holding q))
      | nq :: rest => .ok ({ s with globalmq := rest }.become i (.switching q nq))
  | some (.switching q nq) => do
      let _ ← s.queue q
      let s ← s.globalPush q
      .ok ((s.leave q).become i (.holding nq))
  | some (.starting q) =>
      -- `ctx->init = true`, with no reference of its own any more
      if (s.service q).ref = 0 then .error .freed else .ok (s.become i (.pushing q true))
  | some (.pushing q ret) => do
      let _ ← s.queue q
      let s ← s.globalPush q
      .ok (s.become i (if ret then .logging q else .gone))
  | some (.logging q) => if (s.service q).ref = 0 then .error .freed else .ok (s.become i .gone)
  | some (.retiring q) => .ok ((s.retire q).become i (.releasing q false))
  | some (.releasing q worker) => do
      let b ← s.queue q
      if b.release then .ok (s.become i (.dropping q worker))
      else
        let s ← s.globalPush q
        .ok (s.become i (.after worker))
  | some (.dropping q worker) => do
      let b ← s.queue q
      match b.pop with
      | (some message, b) => .ok (s.take q b message)
      | (none, _) =>
          if q ∈ s.globalmq.dropLast then .error .assertion
          else .ok ((s.setService q { s.service q with queue := none }).become i (.after worker))
  | some (.launching _) | some .gone | none => .ok s

end Node

inductive Event (μ : Type*)
  | create
  | launched (i : ℕ)
  | failed (i : ℕ)
  | retire (q : ℕ)
  | grab (q : ℕ) (message : μ)
  | push (k : ℕ)
  | release (k : ℕ)
  | mark (k : ℕ)
  | work (i : ℕ)

namespace Node

/-- `skynet_context_new` up to the call of the service's `init`. -/
def create (s : Node μ) : Node μ :=
  { s.setService s.total ⟨true, 2, some .create, [], []⟩ with
    total := s.total + 1
    threads := s.threads ++ [.launching s.total] }

def dropped (s : Node μ) (q : ℕ) : Node μ :=
  let s := s.setService q { s.service q with ref := (s.service q).ref - 1 }
  if (s.service q).ref = 0 then { s with dying := s.dying ++ [q] } else s

/-- `skynet_context_release` -/
def drop (s : Node μ) (q : ℕ) : Except Fault (Node μ) :=
  if (s.service q).ref = 0 then .error .freed else .ok (s.dropped q)

/-- What `skynet_context_new` does next when `init` has answered. It goes on with the context only
when there is another reference than its own. -/
def launched (s : Node μ) (i : ℕ) (ok : Bool) : Except Fault (Node μ) :=
  match s.threads[i]? with
  | some (.launching q) =>
      if ok then do
        let s ← s.drop q
        .ok (s.become i (if (s.service q).ref = 0 then .pushing q false else .starting q))
      else .ok ((s.leave q).become i (.retiring q))
  | _ => .ok s

/-- `skynet_mq_push` for the message that is the `k`th on its way. -/
def push (s : Node μ) (k : ℕ) : Except Fault (Node μ) :=
  match s.sending[k]? with
  | some (q, message) =>
      if (s.service q).ref = 0 then .error .freed
      else do
        let b ← s.queue q
        let s := { s with sending := s.sending.eraseIdx k }
        let s := s.setService q
          { s.service q with
            queue := some (b.push message)
            sent := (s.service q).sent ++ [message] }
        let s ← if b.inGlobal then .ok s else s.globalPush q
        .ok (s.leave q)
  | none => .ok s

/-- The `k`th reference that somebody is about to give up. -/
def release (s : Node μ) (k : ℕ) : Except Fault (Node μ) :=
  match s.leaving[k]? with
  | some q => { s with leaving := s.leaving.eraseIdx k }.drop q
  | none => .ok s

/-- `skynet_mq_mark_release`, called by `delete_context` -/
def mark (s : Node μ) (k : ℕ) : Except Fault (Node μ) :=
  match s.dying[k]? with
  | some q => do
      let b ← s.queue q
      if b.release then .error .assertion
      else
        let s := { s with dying := s.dying.eraseIdx k }.setQueue q { b with release := true }
        if b.inGlobal then .ok s else s.globalPush q
  | none => .ok s

def step (weight : ℕ → ℤ) (s : Node μ) : Event μ → Except Fault (Node μ)
  | .create => .ok s.create
  | .launched i => s.launched i true
  | .failed i => s.launched i false
  | .retire q => .ok (s.retire q)
  | .grab q message =>
      match s.grab q with
      | some s => .ok { s with sending := s.sending ++ [(q, message)] }
      | none => .ok s
  | .push k => s.push k
  | .release k => s.release k
  | .mark k => s.mark k
  | .work i => s.work (weight i) i

def run (weight : ℕ → ℤ) (s : Node μ) (events : List (Event μ)) : Except Fault (Node μ) :=
  events.foldlM (step weight) s

end Node

end Mailboxes

end GameServer
