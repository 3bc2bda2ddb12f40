import GameServer.Transition

/-!
# Sessions

Each service runs its requests as coroutines, one at a time. A coroutine that calls another service,
or sleeps, yields with a session; the message that comes back with the session resumes it. A request
is answered by what its coroutine returns, or later through a closure, and an error in the coroutine
is reported back instead. `suspend` then wakes sleeping coroutines and fails calls whose service is
gone.

The services, their mailboxes and the timer take steps in any order. What a coroutine does next, and
which entry `next` finds in a table, is in the label. `calls` is the history of the sessions, as
long as the counter of the service has not run over.
-/

namespace GameServer.Sessions

open Transition

abbrev Payload := List UInt8

/-- An entry of `session_id_coroutine` -/
inductive Slot
  | co (c : ℕ)
  | BREAK
  deriving DecidableEq

/-- Where a coroutine is; `stuck` ones are never resumed again. -/
inductive Spot
  | unborn
  | pooled
  | forked
  | timed (session : ℕ)
  | calls (session : ℕ)
  | sleeps (session : ℕ) (timer : Bool)
  | runs
  | stuck
  deriving DecidableEq

/-- What a service does next. Below the coroutine that runs `frames` calls of `suspend` wait to
dispatch their error queue. -/
inductive Ctl
  | idle
  | runs (c frames : ℕ)
  | wakeups (frames : ℕ)
  | errors (frames : ℕ)
  | forks
  deriving DecidableEq

/-- The variable `f` of a closure that `skynet.response` returns -/
inductive Fn
  | pack
  | false
  | nil
  deriving DecidableEq

structure Responder where
  session : ℕ
  address : ℕ
  f : Fn
  deriving DecidableEq

/-- The variables of a service; `pairs` are over `watchingSession` only. -/
structure Lua where
  sessionId : ℕ
  sessionIdCoroutine : ℕ → Option Slot
  sessionCoroutineId : ℕ → Option ℕ
  sessionCoroutineAddress : ℕ → Option ℕ
  sessionResponse : ℕ → Bool
  responders : List Responder
  wakeupSession : List ℕ
  sleepSession : ℕ → Option ℕ
  watchingService : ℕ → Option ℤ
  watchingSession : ℕ → Option ℕ
  deadService : ℕ → Bool
  errorQueue : List ℕ
  forkQueue : List ℕ
  spot : ℕ → Spot
  ctl : Ctl

namespace Lua

variable (l : Lua)

def setSpot (c : ℕ) (spot : Spot) : Lua := { l with spot := Function.update l.spot c spot }

/-- `skynet_context_newsession`: an `int` that runs over begins at 1 again. -/
def newSession : ℕ := if l.sessionId + 1 < 2 ^ 31 then l.sessionId + 1 else 1

/-- `c` yields with a session. -/
def park (c session : ℕ) (spot : Spot) (frames : ℕ) : Lua :=
  { l.setSpot c spot with
    sessionIdCoroutine := Function.update l.sessionIdCoroutine session (some (.co c))
    ctl := .wakeups frames }

/-- An error in `suspend` leaves the coroutine where it is; the message is over. -/
def stick (c : ℕ) : Lua := { l.setSpot c .stuck with ctl := .forks }

/-- `coroutine_resume`, with what `yield_call`, `sleep` and `wait` do first. -/
def resume (c frames : ℕ) : Lua :=
  match l.spot c with
  | .calls session =>
    { l.setSpot c .runs with
      watchingSession := Function.update l.watchingSession session none
      ctl := .runs c frames }
  | .sleeps session timer =>
    { l.setSpot c .runs with
      sleepSession := Function.update l.sleepSession c none
      sessionIdCoroutine := if timer then l.sessionIdCoroutine
        else Function.update l.sessionIdCoroutine session none
      ctl := .runs c frames }
  | .timed _ | .forked => { l.setSpot c .runs with ctl := .runs c frames }
  | _ => { l with ctl := .forks }

def forget (session : ℕ) : Lua :=
  { l with sessionIdCoroutine := Function.update l.sessionIdCoroutine session none }

def watch (address : ℕ) : Lua :=
  { l with watchingService := Function.update l.watchingService address <|
      some <| (l.watchingService address).elim 1 (· + 1) }

def releaseWatching : Option ℕ → Lua
  | none => l
  | some address =>
    match l.watchingService address with
    | none => l
    | some ref => { l with watchingService := Function.update l.watchingService address <|
        if 0 < ref - 1 then some (ref - 1) else none }

def finish (c frames : ℕ) : Lua :=
  { (l.releaseWatching (l.sessionCoroutineAddress c)).setSpot c .pooled with
    sessionCoroutineId := Function.update l.sessionCoroutineId c none
    sessionCoroutineAddress := Function.update l.sessionCoroutineAddress c none
    sessionResponse := Function.update l.sessionResponse c false
    ctl := .wakeups frames }

/-- `suspend` of a coroutine with an error -/
def raise (c : ℕ) : Lua :=
  { l.stick c with
    sessionCoroutineId := Function.update l.sessionCoroutineId c none
    sessionCoroutineAddress := Function.update l.sessionCoroutineAddress c none }

/-- A coroutine that `co_create` may use -/
def Free (c : ℕ) : Prop := l.spot c = .unborn ∨ l.spot c = .pooled

instance (c : ℕ) : Decidable (l.Free c) := inferInstanceAs (Decidable (_ ∨ _))

/-- A request begins in a coroutine. -/
def handle (c source session : ℕ) : Lua :=
  { (l.watch source).setSpot c .runs with
    sessionCoroutineId := Function.update l.sessionCoroutineId c (some session)
    sessionCoroutineAddress := Function.update l.sessionCoroutineAddress c (some source)
    ctl := .runs c 0 }

/-- The sessions that `_error_dispatch` puts into the queue when a service is down; none is above
the counter that has not run over. -/
def watched (source : ℕ) : List ℕ :=
  (List.range (l.sessionId + 1)).filter fun s => l.watchingSession s = some source

/-- `_error_dispatch` in its coroutine; `order` is that of `pairs`. -/
def errorDispatch (session source : ℕ) (order : List ℕ) : Lua :=
  let l := l.watch source
  let l :=
    if session = 0 then
      { l with
        deadService := Function.update l.deadService source true
        errorQueue := l.errorQueue ++ order }
    else if (l.watchingSession session).isSome then
      { l with errorQueue := l.errorQueue ++ [session] }
    else l
  { l.releaseWatching (some source) with ctl := .wakeups 0 }

end Lua

/-- A message in a mailbox; an error has no text. -/
inductive Message
  | request (source session : ℕ) (msg : Payload)
  | response (session : ℕ) (msg : Payload)
  | error (source session : ℕ)
  deriving DecidableEq

/-- Who has to answer a session: the timer, the mailbox of the service that was called, its
coroutine, its closure; or the answer is in the mailbox of the caller. -/
inductive Stage
  | none
  | ticks
  | sent (address : ℕ)
  | handled (address c : ℕ)
  | opened (address responder : ℕ)
  | answered
  | over
  deriving DecidableEq

/-- The history of a session: the coroutine that called, the service it called, the answers with the
service that gave them, and what the caller was told (`none` is an error). -/
structure Call where
  caller : Option ℕ
  server : Option ℕ
  stage : Stage
  answers : List (ℕ × Payload)
  outcomes : List (ℕ × Option Payload)

def Call.unused : Call := ⟨none, none, .none, [], []⟩

structure World where
  alive : ℕ → Bool
  lua : ℕ → Lua
  inbox : ℕ → List Message
  timers : List (ℕ × ℕ)
  calls : ℕ → ℕ → Call

/-- What a coroutine does. A message that is too large (`fits = false`) is not sent. -/
inductive Action
  | send (dest : ℕ) (msg : Payload)
  | call (dest : ℕ) (msg : Payload)
  | sleep
  | wait
  | timeout (co : ℕ)
  | fork (co : ℕ)
  | wakeup (co : ℕ)
  | ret (msg : Payload) (fits : Bool)
  | response
  | respond (responder : ℕ) (msg : Option Payload) (fits : Bool)
  | test (responder : ℕ)
  | finish
  | raise

namespace World

variable (w : World)

def setLua (a : ℕ) (l : Lua) : World := { w with lua := Function.update w.lua a l }

/-- A message to a service that is gone is lost. -/
def push (dest : ℕ) (m : Message) : World :=
  if w.alive dest then { w with inbox := Function.update w.inbox dest (w.inbox dest ++ [m]) } else w

/-- Writes the history of a session; 0 is none. -/
def mark (a session : ℕ) (f : Call → Call) : World :=
  if session = 0 then w
  else { w with calls := Function.update w.calls a <|
    Function.update (w.calls a) session (f (w.calls a session)) }

def stage (a session : ℕ) (stage : Stage) : World :=
  w.mark a session fun call => { call with stage := stage }

/-- An answer of `b`; when it cannot be sent an error is. -/
def answer (b a session : ℕ) (msg : Payload) (fits : Bool) : World :=
  if w.alive a = true ∧ fits = true then
    (w.push a (.response session msg)).mark a session fun call =>
      { call with stage := .answered, answers := call.answers ++ [(b, msg)] }
  else (w.push a (.error b session)).stage a session .over

def startTimer (a session : ℕ) : World :=
  { w.stage a session .ticks with timers := w.timers ++ [(a, session)] }

section

variable (a c frames : ℕ)

def call (dest : ℕ) (msg : Payload) : World :=
  let l := w.lua a
  let session := l.newSession
  if w.alive dest then
    ((w.setLua a { l.park c session (.calls session) frames with
        sessionId := session
        watchingSession := Function.update l.watchingSession session (some dest) }).push dest
      (.request a session msg)).mark a session fun _ => ⟨some c, some dest, .sent dest, [], []⟩
  else w.setLua a { l with sessionId := session }

def sleep : World :=
  let l := w.lua a
  let session := l.newSession
  (w.setLua a { l.park c session (.sleeps session true) frames with
    sessionId := session
    sleepSession := Function.update l.sleepSession c (some session) }).startTimer a session

def wait : World :=
  let l := w.lua a
  let session := l.newSession
  w.setLua a { l.park c session (.sleeps session false) frames with
    sessionId := session
    sleepSession := Function.update l.sleepSession c (some session) }

def timeout (co : ℕ) : World :=
  let l := w.lua a
  let session := l.newSession
  let l := if l.sessionIdCoroutine session = none then
      { l.setSpot co (.timed session) with
        sessionIdCoroutine := Function.update l.sessionIdCoroutine session (some (.co co)) }
    else l
  (w.setLua a { l with sessionId := session }).startTimer a session

def fork (co : ℕ) : World :=
  w.setLua a { (w.lua a).setSpot co .forked with forkQueue := (w.lua a).forkQueue ++ [co] }

def wakeup (co : ℕ) : World :=
  let l := w.lua a
  if (l.sleepSession co).isSome ∧ co ∉ l.wakeupSession then
    w.setLua a { l with wakeupSession := l.wakeupSession ++ [co] }
  else w

def ret (msg : Payload) (fits : Bool) : World :=
  let l := w.lua a
  if l.sessionResponse c then w.setLua a (l.stick c)
  else
    let l := { l with sessionResponse := Function.update l.sessionResponse c true }
    match l.sessionCoroutineAddress c, l.sessionCoroutineId c with
    | some address, some session =>
      if l.deadService address then (w.setLua a l).stage address session .over
      else (w.setLua a l).answer a address session msg fits
    | _, _ => w.setLua a (l.stick c)

def response : World :=
  let l := w.lua a
  if l.sessionResponse c then w.setLua a (l.stick c)
  else
    match l.sessionCoroutineAddress c, l.sessionCoroutineId c with
    | some address, some session =>
      if (l.watchingService address).isSome then
        (w.setLua a { l.watch address with
          sessionResponse := Function.update l.sessionResponse c true
          responders := l.responders ++ [⟨session, address, .pack⟩] }).stage address session
            (.opened a l.responders.length)
      else w.setLua a (l.stick c)
    | _, _ => w.setLua a (l.stick c)

/-- The closure is called for the last time, or for the first time with an answer. -/
def close (responder : ℕ) (p : Responder) (f : Fn) (released : Bool) : World :=
  let l := w.lua a
  let l := if released then l.releaseWatching (some p.address) else l
  w.setLua a { l with responders := l.responders.set responder { p with f := f } }

def respond (responder : ℕ) (p : Responder) (msg : Option Payload) (fits : Bool) : World :=
  match p.f with
  | .nil => w
  | .false => w.close a responder p .nil false
  | .pack =>
    let w' := w.close a responder p .nil true
    if (w.lua a).deadService p.address then w'.stage p.address p.session .over
    else
      match msg with
      | some msg => w'.answer a p.address p.session msg fits
      | none => (w'.push p.address (.error a p.session)).stage p.address p.session .over

def test (responder : ℕ) (p : Responder) : World :=
  if (w.lua a).deadService p.address then
    let w' := w.close a responder p .false true
    if p.f = .pack then w'.stage p.address p.session .over else w'
  else w

def raise : World :=
  let l := w.lua a
  let w' := w.setLua a (l.raise c)
  match l.sessionCoroutineAddress c, l.sessionCoroutineId c with
  | some address, some session =>
    if session = 0 then w' else w'.push address (.error a session)
  | _, _ => w'

/-- A step of the coroutine that runs. -/
def act : Action → Option World
  | .send dest msg => some (w.push dest (.request a 0 msg))
  | .call dest msg => some (w.call a c frames dest msg)
  | .sleep => some (w.sleep a c frames)
  | .wait => some (w.wait a c frames)
  | .timeout co => if (w.lua a).Free co then some (w.timeout a co) else none
  | .fork co => if (w.lua a).Free co then some (w.fork a co) else none
  | .wakeup co => some (w.wakeup a co)
  | .ret msg fits => some (w.ret a c msg fits)
  | .response => some (w.response a c)
  | .respond responder msg fits =>
    match (w.lua a).responders[responder]? with
    | some p => some (w.respond a responder p msg fits)
    | none => none
  | .test responder =>
    match (w.lua a).responders[responder]? with
    | some p => some (w.test a responder p)
    | none => none
  | .finish => some (w.setLua a ((w.lua a).finish c frames))
  | .raise => some (w.raise a c)

end

section

variable (a : ℕ)

/-- What the coroutine that waits in a call is told -/
def told (c session : ℕ) (msg : Option Payload) : World :=
  if (w.lua a).spot c = .calls session then
    w.mark a session fun call => { call with outcomes := call.outcomes ++ [(c, msg)] }
  else w

/-- `dispatch_wakeup` -/
def wake (frames : ℕ) : Option ℕ → Option World
  | none =>
    if (w.lua a).wakeupSession = [] then
      some (w.setLua a { w.lua a with ctl := .errors frames })
    else none
  | some c =>
    if c ∈ (w.lua a).wakeupSession then
      let l := { w.lua a with wakeupSession := (w.lua a).wakeupSession.erase c }
      match l.sleepSession c with
      | some session =>
        some (w.setLua a (({ l with
          sessionIdCoroutine := Function.update l.sessionIdCoroutine session (some .BREAK) } :
            Lua).resume c (frames + 1)))
      | none => some (w.setLua a { l with ctl := .errors frames })
    else none

/-- `dispatch_error_queue`; there is an error when the call was answered in the meantime. -/
def fail (frames : ℕ) : World :=
  let l := w.lua a
  match l.errorQueue with
  | [] => w.setLua a { l with ctl := if frames = 0 then .forks else .errors (frames - 1) }
  | session :: queue =>
    let l' := { l.forget session with errorQueue := queue }
    match l.sessionIdCoroutine session with
    | some (.co c) => (w.told a c session none).setLua a (l'.resume c frames)
    | _ => w.setLua a { l' with ctl := .forks }

/-- The loop over `fork_queue` -/
def forks : Option ℕ → Option World
  | none =>
    if (w.lua a).forkQueue = [] then some (w.setLua a { w.lua a with ctl := .idle }) else none
  | some c =>
    if c ∈ (w.lua a).forkQueue then
      some (w.setLua a (({ w.lua a with
        forkQueue := (w.lua a).forkQueue.erase c } : Lua).resume c 0))
    else none

/-- `raw_dispatch_message` -/
def dispatch (c : ℕ) (order : List ℕ) : Message → Option World
  | .response session msg =>
    let l := w.lua a
    let w' := w.stage a session .over
    match l.sessionIdCoroutine session with
    | none => some (w'.setLua a { l with ctl := .forks })
    | some .BREAK => some (w'.setLua a { l.forget session with ctl := .forks })
    | some (.co c) =>
      some ((w'.told a c session (some msg)).setLua a ((l.forget session).resume c 0))
  | .request source session _ =>
    if (w.lua a).Free c then
      some ((w.setLua a ((w.lua a).handle c source session)).stage source session (.handled a c))
    else none
  | .error source session =>
    if order.Perm ((w.lua a).watched source) then
      some (w.setLua a ((w.lua a).errorDispatch session source order))
    else none

end

/-- The timer fires; it may be for a service that is gone. -/
def tick (a session : ℕ) : World :=
  let w' := { w with timers := w.timers.erase (a, session) }
  (w'.push a (.response session [])).stage a session (if w.alive a then .answered else .over)

def kill (a : ℕ) : World :=
  { w with
    alive := Function.update w.alive a false
    inbox := Function.update w.inbox a [] }

end World

/-- An `error` comes from outside: from what is left of a service that is gone. -/
inductive Label
  | act (a : ℕ) (x : Action)
  | wake (a : ℕ) (choice : Option ℕ)
  | fail (a : ℕ)
  | forks (a : ℕ) (choice : Option ℕ)
  | receive (a c : ℕ) (order : List ℕ)
  | tick (a session : ℕ)
  | error (a source session : ℕ)
  | kill (a : ℕ)

def step (w : World) : Label → Option World
  | .act a x =>
    match w.alive a, (w.lua a).ctl with
    | true, .runs c frames => w.act a c frames x
    | _, _ => none
  | .wake a choice =>
    match w.alive a, (w.lua a).ctl with
    | true, .wakeups frames => w.wake a frames choice
    | _, _ => none
  | .fail a =>
    match w.alive a, (w.lua a).ctl with
    | true, .errors frames => some (w.fail a frames)
    | _, _ => none
  | .forks a choice =>
    match w.alive a, (w.lua a).ctl with
    | true, .forks => w.forks a choice
    | _, _ => none
  | .receive a c order =>
    match w.alive a, (w.lua a).ctl, w.inbox a with
    | true, .idle, m :: inbox =>
      { w with inbox := Function.update w.inbox a inbox }.dispatch a c order m
    | _, _, _ => none
  | .tick a session => if (a, session) ∈ w.timers then some (w.tick a session) else none
  | .error a source session => some (w.push a (.error source session))
  | .kill a => some (w.kill a)

/-- `skynet.start` has set a timeout that begins in coroutine 0. -/
def Lua.start : Lua where
  sessionId := 1
  sessionIdCoroutine := Function.update (fun _ => none) 1 (some (.co 0))
  sessionCoroutineId _ := none
  sessionCoroutineAddress _ := none
  sessionResponse _ := false
  responders := []
  wakeupSession := []
  sleepSession _ := none
  watchingService _ := none
  watchingSession _ := none
  deadService _ := false
  errorQueue := []
  forkQueue := []
  spot := Function.update (fun _ => .unborn) 0 (.timed 1)
  ctl := .idle

/-- The services that are there, each about to start. -/
def start (services : List ℕ) : World where
  alive a := a ∈ services
  lua _ := .start
  inbox _ := []
  timers := services.dedup.map fun a => (a, 1)
  calls a s := { Call.unused with stage := if a ∈ services ∧ s = 1 then .ticks else .none }

def Action.draws : Action → Bool
  | .call _ _ | .sleep | .wait | .timeout _ => true
  | _ => false

/-- The step does not make a counter of sessions run over. -/
def Counts (w : World) : Label → Prop
  | .act a x => x.draws → (w.lua a).sessionId + 1 < 2 ^ 31
  | _ => True

instance (w : World) (l : Label) : Decidable (Counts w l) := by
  cases l <;> unfold Counts <;> infer_instance

def system (services : List ℕ) : System World Label where
  init := start services
  step := step

end GameServer.Sessions
