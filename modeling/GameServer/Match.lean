import GameServer.Transition

/-!
# The match service

Players wait in three lists: a new one in `keep_list`, after a time in `strict_list`, where it is
matched with players of like elo, and at last in `loose_list`, which with `useAI` means a match with
robots at once. A message handler or a tick is a coroutine: it gives up control at a `skynet.call`
and nowhere else, other handlers run meanwhile, and the reply may be an error, which ends it.

A handler is a loop of the source with the call of `addtoStictlist`, `addtoLooselist` or
`handleMatch` that it is in. At most one handler runs; the others wait for a reply. Which message
comes next, which reply and, for the unstable `table.sort`, which order is in the label.
-/

namespace GameServer.Match

open Transition

/-- What `getmatchinfo` of an agent answers besides `time`, `stepTime` and `failNum`, which it sends
as 0. -/
structure Info where
  agent : ℕ
  account : String
  nickname : String
  eloValue : ℤ
  fightLevel : ℤ
  deriving DecidableEq

/-- A player table: the reference, which is fresh for each, and the fields nobody assigns. -/
structure Player extends Info where
  ref : ℕ
  deriving DecidableEq

inductive Queue
  | keep_list | strict_list | loose_list
  deriving DecidableEq

/-- The fields of a player table that change. -/
structure Vars where
  time : ℤ
  stepTime : ℤ
  failNum : ℤ
  src_list : Option Queue
  index_list : ℕ
  color : Option ℕ

structure Timeouts where
  playerNum : ℕ
  keep : ℤ
  strict : ℤ
  loose : ℤ
  strictStep : ℤ
  looseStep : ℤ

/-- `listTimeoutConfig` with the entry that `useAI` puts first; of the two entries 3 the second
counts. -/
def listTimeoutConfig : List Timeouts :=
  [⟨20, 1000, 2000, 2000, 1000, 1000⟩,
    ⟨50, 30 * 1000, 15 * 1000, 2 * 60 * 1000, 1000, 1000⟩,
    ⟨2 ^ 63 - 1, 10 * 1000, 5 * 1000, 2 * 60 * 1000, 1000, 1000⟩]

def useAI : Bool := true

def MATCH_NUM : ℕ := 6

def eloStrict : ℤ := 500

def eloLoose : ℤ := 500

def eloStep : ℤ := 10

def colors : List ℕ := [1, 4, 5, 2, 3, 6]

/-- `dt` of `update`. -/
def dt : ℤ := 200

/-- `table.remove(l, i)`: a no-op just behind the end, an error (`none`) beyond it. -/
def tableRemove (l : List Player) (i : ℕ) : Option (List Player) :=
  if 1 ≤ i ∧ i ≤ l.length then some (l.eraseIdx (i - 1))
  else if i = l.length + 1 then some l
  else none

/-! ## Handlers -/

/-- The call a handler is in. -/
inductive Work
  | getmatchinfo (agent : ℕ)
  /-- `addtoKeeplist` behind the test of `nowInMatchers`, in `skynet.monitor`. -/
  | monitor (p : Player)
  | watch (p : Player)
  | addtoStictlist (p : Player)
  | addtoLooselist (p : Player)
  /-- `handleMatchWithAi` in `skynet.uniqueservice`. -/
  | uniqueservice (p : Player)
  | getPvpAIs (p : Player)
  | handleMatch (t : List Player)
  | newservice (t : List Player)
  | init (s_pickHero : ℕ) (t : List Player)
  /-- The loop that lets member `i` and the later ones enter. -/
  | enter (s_pickHero : ℕ) (t : List Player) (i : ℕ)
  | enterPickHero (s_pickHero : ℕ) (t : List Player) (i : ℕ)
  /-- The loop that sends member `i` and the later ones the match. -/
  | send (t : List Player) (i : ℕ)
  | sendRequest (t : List Player) (i : ℕ)
  deriving DecidableEq

/-- The loop a handler is in, with the entries ahead. -/
inductive Loop
  | requestMatch
  | updateKeeplist (i : ℕ)
  | updateStictlist (i : ℕ) (relist : List Player)
  /-- `table.remove(strict_list, i + 1)` behind `addtoLooselist(p)`. -/
  | removeStrict (i : ℕ) (relist : List Player) (p : Player)
  | relistStrict (relist : List Player)
  | updateLooselist (i : ℕ) (relist : List Player)
  | relistLoose (relist : List Player)
  deriving DecidableEq

structure Handler where
  work : Option Work
  loop : Loop
  deriving DecidableEq

/-- `admitted`, `withdrawn` and `matched` are history: who had `nowInMatchers` set, who left by
`cancelMatch` or a disconnect, who was put into a match handed to `handleMatch`. -/
structure Service where
  nowInMatchers : String → Bool
  keep_list : List Player
  strict_list : List Player
  loose_list : List Player
  vars : Player → Vars
  next : ℕ
  listTimeouts : Timeouts
  s_pickHeros : List ℕ
  running : Option Handler
  suspended : List Handler
  failed : List Handler
  admitted : List Player
  withdrawn : List Player
  matched : List Player

namespace Service

variable (s : Service)

def list : Queue → List Player
  | .keep_list => s.keep_list
  | .strict_list => s.strict_list
  | .loose_list => s.loose_list

def setList (q : Queue) (l : List Player) : Service :=
  match q with
  | .keep_list => { s with keep_list := l }
  | .strict_list => { s with strict_list := l }
  | .loose_list => { s with loose_list := l }

def setVars (p : Player) (v : Vars) : Service := { s with vars := Function.update s.vars p v }

def run (h : Handler) : Service := { s with running := some h }

/-- The handler waits for a reply. -/
def park (h : Handler) : Service :=
  { s with running := none, suspended := s.suspended ++ [h] }

def stop : Service := { s with running := none }

/-- An error ends the handler in the middle of what it was doing. -/
def fail (h : Handler) : Service := { s with running := none, failed := s.failed ++ [h] }

/-- The tables that replies carry: fresh references, whose times and `failNum` are 0. -/
def newPlayers (infos : List Info) : List Player :=
  infos.mapIdx fun k info => { info with ref := s.next + k }

/-! ## Lists -/

/-- The last of the first `i` entries that is the agent's. -/
def findAgent (agent : ℕ) (l : List Player) : ℕ → Option (ℕ × Player)
  | 0 => none
  | i + 1 =>
    match l[i]? with
    | some p => if p.agent = agent then some (i, p) else findAgent agent l i
    | none => findAgent agent l i

/-- One of the three loops of `removePlayerFromMatch`. -/
def removeFrom (agent : ℕ) (q : Queue) : Option Service :=
  (findAgent agent (s.list q) (s.list q).length).map fun (i, p) =>
    { s.setList q ((s.list q).eraseIdx i) with
      nowInMatchers := Function.update s.nowInMatchers p.account false
      withdrawn := s.withdrawn ++ [p] }

def removePlayerFromMatch (agent : ℕ) : Service :=
  (((s.removeFrom agent .keep_list).or (s.removeFrom agent .strict_list)).or
    (s.removeFrom agent .loose_list)).getD s

def inRange (p : Player) (range : ℤ) (v : Player) : Bool :=
  decide (p.eloValue - range ≤ v.eloValue) && decide (v.eloValue ≤ p.eloValue + range)

/-- `tmp` after the entries of one list: players of the same level come first. -/
def collect (p : Player) (range : ℤ) (tmp l : List Player) : List Player :=
  l.foldl (fun tmp v =>
    if inRange p range v then
      if v.fightLevel = p.fightLevel then v :: tmp else tmp ++ [v]
    else tmp) tmp

/-- The entries in range note their list and index. -/
def mark (p : Player) (range : ℤ) (q : Queue) (vars : Player → Vars) :
    List Player → ℕ → Player → Vars
  | [], _ => vars
  | v :: l, i =>
    mark p range q
      (if inRange p range v then
        Function.update vars v { vars v with src_list := some q, index_list := i }
      else vars) l (i + 1)

def range (p : Player) (elo : ℤ) : ℤ := (s.vars p).failNum * eloStep + elo

/-- `table.remove(v.src_list, v.index_list)` for each in turn, and whether none raised an error. -/
def takeOut (s : Service) : List Player → Service × Bool
  | [] => (s, true)
  | v :: vs =>
    match (s.vars v).src_list with
    | none => (s, false)
    | some q =>
      match tableRemove (s.list q) (s.vars v).index_list with
      | none => (s, false)
      | some l => (s.setList q l).takeOut vs

/-- A failed search: the player goes to the end of the list. -/
def enlist (p : Player) (q : Queue) : Service :=
  let v := s.vars p
  let s := s.setList q (s.list q ++ [p])
  s.setVars p
    { v with failNum := v.failNum + 1, stepTime := 0, src_list := some q,
             index_list := (s.list q).length }

/-- `addtoKeeplist` behind the calls. -/
def addtoKeeplist (p : Player) : Service :=
  let s := { s with keep_list := s.keep_list ++ [p] }
  s.setVars p
    { s.vars p with src_list := some .keep_list, index_list := s.keep_list.length }

/-- The members forget their list and get their colors. -/
def assign (vars : Player → Vars) (t : List Player) : Player → Vars :=
  t.zipIdx.foldl (fun vars m =>
    Function.update vars m.1 { vars m.1 with src_list := none, color := colors[m.2]? }) vars

/-! ## Steps of the running handler -/

/-- `tmp` of `addtoStictlist`. -/
def found (p : Player) (r : ℤ) : List Player :=
  collect p r (collect p r (collect p r [] s.strict_list) s.keep_list) s.loose_list

def marked (p : Player) (r : ℤ) : Player → Vars :=
  mark p r .loose_list (mark p r .keep_list (mark p r .strict_list s.vars s.strict_list 1)
    s.keep_list 1) s.loose_list 1

/-- The search of `addtoStictlist(p)`. `order` is what `table.sort` makes of the chosen ones. -/
def stepStictlist (p : Player) (loop : Loop) (order : List Player) : Option Service :=
  let r := s.range p eloStrict
  let tmp := s.found p r
  let s := { s with vars := s.marked p r }
  if tmp.length < MATCH_NUM - 1 then
    some ((s.enlist p .strict_list).run ⟨none, loop⟩)
  else if order.Perm (tmp.take (MATCH_NUM - 1)) ∧
      order.Pairwise (fun a b => (s.vars b).index_list ≤ (s.vars a).index_list) then
    match s.takeOut order with
    | (s, true) =>
      some ({ s with matched := s.matched ++ (order ++ [p]) }.run
        ⟨some (.handleMatch (order ++ [p])), loop⟩)
    | (s, false) => some (s.fail ⟨some (.addtoStictlist p), loop⟩)
  else none

/-- The search of `addtoLooselist(p)`, whose successful branch fails on the name `mathers`. -/
def stepLooselist (p : Player) (loop : Loop) : Service :=
  let r := s.range p eloLoose
  let tmp := collect p r [] s.loose_list
  let s := { s with vars := mark p r .loose_list s.vars s.loose_list 1 }
  if tmp.length < MATCH_NUM - 1 then
    let s := s.enlist p .loose_list
    if useAI then
      match tableRemove s.loose_list (s.vars p).index_list with
      | some l => { s with loose_list := l }.park ⟨some (.uniqueservice p), loop⟩
      | none => s.fail ⟨some (.addtoLooselist p), loop⟩
    else s.run ⟨none, loop⟩
  else (s.takeOut (tmp.take (MATCH_NUM - 1))).1.fail ⟨some (.addtoLooselist p), loop⟩

def stepWork (w : Work) (loop : Loop) (order : List Player) : Option Service :=
  match w with
  | .addtoStictlist p => s.stepStictlist p loop order
  | .addtoLooselist p => some (s.stepLooselist p loop)
  | .handleMatch t =>
    some ({ s with vars := assign s.vars t }.park ⟨some (.newservice t), loop⟩)
  | .enter s_pickHero t i =>
    match t[i]? with
    | some v =>
      some ({ s with nowInMatchers := Function.update s.nowInMatchers v.account false }.park
        ⟨some (.enterPickHero s_pickHero t i), loop⟩)
    | none => some (s.run ⟨some (.send t 0), loop⟩)
  | .send t i =>
    if i < t.length then some (s.park ⟨some (.sendRequest t i), loop⟩)
    else some (s.run ⟨none, loop⟩)
  | _ => none

def stepLoop (loop : Loop) : Service :=
  match loop with
  | .requestMatch => s.stop
  | .updateKeeplist 0 => s.run ⟨none, .updateStictlist s.strict_list.length []⟩
  | .updateKeeplist (i + 1) =>
    match s.keep_list[i]? with
    | none => s.stop
    | some p =>
      let v := s.vars p
      let v := { v with time := v.time + dt }
      if s.listTimeouts.keep < v.time then
        ({ s with keep_list := s.keep_list.eraseIdx i }.setVars p
          { v with time := 0, failNum := 0 }).run
            ⟨some (.addtoStictlist p), .updateKeeplist i⟩
      else (s.setVars p v).run ⟨none, .updateKeeplist i⟩
  | .updateStictlist 0 relist => s.run ⟨none, .relistStrict relist⟩
  | .updateStictlist (i + 1) relist =>
    match s.strict_list[i]? with
    | none => s.stop
    | some p =>
      let v := s.vars p
      let v := { v with time := v.time + dt, stepTime := v.stepTime + dt }
      if s.listTimeouts.strict < v.time then
        (s.setVars p { v with time := 0, failNum := 0 }).run
          ⟨some (.addtoLooselist p), .removeStrict i relist p⟩
      else
        (s.setVars p v).run ⟨none, .updateStictlist i
          (if s.listTimeouts.strictStep < v.stepTime then relist ++ [p] else relist)⟩
  | .removeStrict i relist _ =>
    match tableRemove s.strict_list (i + 1) with
    | some l => { s with strict_list := l }.run ⟨none, .updateStictlist i relist⟩
    | none => s.stop
  | .relistStrict [] => s.run ⟨none, .updateLooselist s.loose_list.length []⟩
  | .relistStrict (v :: relist) =>
    if (s.vars v).src_list.isSome then
      { s with strict_list := s.strict_list.filter fun p => p.account ≠ v.account }.run
        ⟨some (.addtoStictlist v), .relistStrict relist⟩
    else s.run ⟨none, .relistStrict relist⟩
  | .updateLooselist 0 relist => s.run ⟨none, .relistLoose relist⟩
  | .updateLooselist (i + 1) relist =>
    match s.loose_list[i]? with
    | none => s.stop
    | some p =>
      let v := s.vars p
      let v := { v with time := v.time + dt, stepTime := v.stepTime + dt }
      (s.setVars p v).run ⟨none, .updateLooselist i
        (if v.time ≤ s.listTimeouts.loose ∧ s.listTimeouts.looseStep ≤ v.stepTime then
          relist ++ [p]
        else relist)⟩
  | .relistLoose [] => s.stop
  | .relistLoose (v :: relist) =>
    if (s.vars v).src_list.isSome then
      { s with loose_list := s.loose_list.filter fun p => p.account ≠ v.account }.run
        ⟨some (.addtoLooselist v), .relistLoose relist⟩
    else s.run ⟨none, .relistLoose relist⟩

end Service

/-! ## Replies -/

inductive Reply
  | fail
  /-- A call that answers nothing the caller reads. -/
  | done
  | matchinfo (info : Info)
  /-- The address of a service. -/
  | service (address : ℕ)
  | robots (infos : List Info)

namespace Service

variable (s : Service)

/-- The handler `h`, already taken out of `suspended`, gets its reply. -/
def resume (h : Handler) : Reply → Option Service
  | .fail => some (s.fail h)
  | .done =>
    match h.work with
    | some (.watch p) =>
      let s := { s with
        nowInMatchers := Function.update s.nowInMatchers p.account true
        admitted := s.admitted ++ [p] }
      if s.strict_list = [] then some ((s.addtoKeeplist p).run ⟨none, h.loop⟩)
      else some (s.run ⟨some (.addtoStictlist p), h.loop⟩)
    | some (.init s_pickHero t) => some (s.run ⟨some (.enter s_pickHero t 0), h.loop⟩)
    | some (.enterPickHero s_pickHero t i) =>
      some (s.run ⟨some (.enter s_pickHero t (i + 1)), h.loop⟩)
    | some (.sendRequest t i) => some (s.run ⟨some (.send t (i + 1)), h.loop⟩)
    | _ => none
  | .matchinfo info =>
    match h.work with
    | some (.getmatchinfo _) =>
      let p : Player := { info with ref := s.next }
      let s := { s with next := s.next + 1 }
      if s.nowInMatchers p.account then some (s.run ⟨none, h.loop⟩)
      else some (s.park ⟨some (.monitor p), h.loop⟩)
    | _ => none
  | .service address =>
    match h.work with
    | some (.monitor p) => some (s.park ⟨some (.watch p), h.loop⟩)
    | some (.uniqueservice p) => some (s.park ⟨some (.getPvpAIs p), h.loop⟩)
    | some (.newservice t) =>
      some ({ s with s_pickHeros := s.s_pickHeros ++ [address] }.park
        ⟨some (.init address t), h.loop⟩)
    | _ => none
  | .robots infos =>
    match h.work with
    | some (.getPvpAIs p) =>
      let AIs := s.newPlayers infos
      some ({ s with next := s.next + infos.length, matched := s.matched ++ (AIs ++ [p]) }.run
        ⟨some (.handleMatch (AIs ++ [p])), h.loop⟩)
    | _ => none

/-- What a reply leaves, for each call that a handler waits in. -/
inductive Resumes (loop : Loop) : Option Work → Reply → Service → Prop
  | fail (w : Option Work) : Resumes loop w .fail (s.fail ⟨w, loop⟩)
  | keep (p : Player) (hstrict : s.strict_list = []) :
      Resumes loop (some (.watch p)) .done (({ s with
        nowInMatchers := Function.update s.nowInMatchers p.account true
        admitted := s.admitted ++ [p] } : Service).addtoKeeplist p |>.run ⟨none, loop⟩)
  | search (p : Player) (hstrict : s.strict_list ≠ []) :
      Resumes loop (some (.watch p)) .done (({ s with
        nowInMatchers := Function.update s.nowInMatchers p.account true
        admitted := s.admitted ++ [p] } : Service).run ⟨some (.addtoStictlist p), loop⟩)
  | init (s_pickHero : ℕ) (t : List Player) :
      Resumes loop (some (.init s_pickHero t)) .done (s.run ⟨some (.enter s_pickHero t 0), loop⟩)
  | enter (s_pickHero : ℕ) (t : List Player) (i : ℕ) :
      Resumes loop (some (.enterPickHero s_pickHero t i)) .done
        (s.run ⟨some (.enter s_pickHero t (i + 1)), loop⟩)
  | send (t : List Player) (i : ℕ) :
      Resumes loop (some (.sendRequest t i)) .done (s.run ⟨some (.send t (i + 1)), loop⟩)
  | known (agent : ℕ) (info : Info) (hflag : s.nowInMatchers info.account = true) :
      Resumes loop (some (.getmatchinfo agent)) (.matchinfo info)
        (({ s with next := s.next + 1 } : Service).run ⟨none, loop⟩)
  | fresh (agent : ℕ) (info : Info) (hflag : s.nowInMatchers info.account = false) :
      Resumes loop (some (.getmatchinfo agent)) (.matchinfo info)
        (({ s with next := s.next + 1 } : Service).park
          ⟨some (.monitor { info with ref := s.next }), loop⟩)
  | monitor (p : Player) (address : ℕ) :
      Resumes loop (some (.monitor p)) (.service address) (s.park ⟨some (.watch p), loop⟩)
  | uniqueservice (p : Player) (address : ℕ) :
      Resumes loop (some (.uniqueservice p)) (.service address) (s.park ⟨some (.getPvpAIs p), loop⟩)
  | newservice (t : List Player) (address : ℕ) :
      Resumes loop (some (.newservice t)) (.service address)
        (({ s with s_pickHeros := s.s_pickHeros ++ [address] } : Service).park
          ⟨some (.init address t), loop⟩)
  | robots (p : Player) (infos : List Info) :
      Resumes loop (some (.getPvpAIs p)) (.robots infos)
        (({ s with
          next := s.next + infos.length
          matched := s.matched ++ (s.newPlayers infos ++ [p]) } : Service).run
          ⟨some (.handleMatch (s.newPlayers infos ++ [p])), loop⟩)

theorem resume_cases {s s' : Service} {h : Handler} {r : Reply} (hs : s.resume h r = some s') :
    s.Resumes h.loop h.work r s' := by
  obtain ⟨w, loop⟩ := h
  cases r with
  | fail =>
      cases hs
      exact .fail w
  | done =>
      simp only [resume] at hs
      split at hs
      · split at hs
        · next hstrict =>
            cases hs
            exact .keep _ hstrict
        · next hstrict =>
            cases hs
            exact .search _ hstrict
      · cases hs
        exact .init _ _
      · cases hs
        exact .enter _ _ _
      · cases hs
        exact .send _ _
      · cases hs
  | matchinfo info =>
      simp only [resume] at hs
      split at hs
      · split at hs
        · next hflag =>
            cases hs
            exact .known _ _ hflag
        · next hflag =>
            cases hs
            exact .fresh _ _ (eq_false_of_ne_true hflag)
      · cases hs
  | service address =>
      simp only [resume] at hs
      split at hs
      · cases hs
        exact .monitor _ _
      · cases hs
        exact .uniqueservice _ _
      · cases hs
        exact .newservice _ _
      · cases hs
  | robots infos =>
      simp only [resume] at hs
      split at hs
      · cases hs
        exact .robots _ _
      · cases hs

/-- `updateListTimeout`. -/
def updateListTimeout : Service :=
  let playerNum := s.loose_list.length + s.strict_list.length + s.keep_list.length
  match listTimeoutConfig.find? fun v => decide (playerNum < v.playerNum) with
  | some v => { s with listTimeouts := v }
  | none => s

end Service

/-! ## Runs -/

/-- `addToMatch` is not among the steps: its only parameter receives the response function, which
it hands to `skynet.call` as an address, so every call of it raises before it does anything. -/
inductive Label
  | requestMatch (agent : ℕ)
  | cancelMatch (agent : ℕ)
  | disconnect (source : ℕ)
  | tick
  | updateListTimeout
  | reply (k : ℕ) (r : Reply)
  | go (order : List Player)

namespace Service

/-- Messages, timers and replies wait while a handler runs. -/
def step (s : Service) : Label → Option Service
  | .go order =>
    match s.running with
    | none => none
    | some ⟨none, loop⟩ => some (s.stepLoop loop)
    | some ⟨some w, loop⟩ => s.stepWork w loop order
  | .requestMatch agent =>
    if s.running = none then some (s.park ⟨some (.getmatchinfo agent), .requestMatch⟩) else none
  | .cancelMatch agent =>
    if s.running = none then some (s.removePlayerFromMatch agent) else none
  | .disconnect source =>
    if s.running = none then some (s.removePlayerFromMatch source) else none
  | .tick =>
    if s.running = none then some (s.run ⟨none, .updateKeeplist s.keep_list.length⟩) else none
  | .updateListTimeout => if s.running = none then some s.updateListTimeout else none
  | .reply k r =>
    if s.running = none then
      match s.suspended[k]? with
      | none => none
      | some h => { s with suspended := s.suspended.eraseIdx k }.resume h r
    else none

def start : Service :=
  { nowInMatchers := fun _ => false, keep_list := [], strict_list := [], loose_list := [],
    vars := fun _ => ⟨0, 0, 0, none, 0, none⟩, next := 0,
    listTimeouts := ⟨20, 1000, 2000, 2000, 1000, 1000⟩, s_pickHeros := [],
    running := none, suspended := [], failed := [], admitted := [], withdrawn := [],
    matched := [] }

def system : System Service Label where
  init := start
  step := step

end Service

end GameServer.Match
