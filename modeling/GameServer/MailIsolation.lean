import GameServer.MailStore

/-!
# Mails of different recipients

All recipients of a mail on one connection share one hash, so the flag one of them sets is loaded by
the others. What an account loads depends on its own mails and updates when no step writes
something new into a hash that another account lists.
-/

namespace GameServer.MailStore

variable {ngroup : ℕ} {s p : Store ngroup} {a account uuid : String} {mail : Mail}
  {names : List Field}

/-! ## What a request does to whom -/

/-- One recipient of `mails.add`, one `mails.update`, or nobody's work. -/
inductive Event
  | send (mail : Mail) (account : String)
  | update (account : String) (mail : Mail) (names : List Field)
  | pass (milliseconds : ℕ)
  | accounts (accountlist : List String)

def Event.step (s : Store ngroup) : Event → Store ngroup
  | .send mail account => s.send mail account
  | .update account mail names => s.update account mail names
  | .pass milliseconds => { s with now := s.now + milliseconds }
  | .accounts accountlist => { s with accountlist := accountlist }

/-- The recipients `mails.add` comes to. -/
def reached (accountlist who : List String) : List String :=
  (if who.length = 0 then accountlist else who).takeWhile (· ∈ accountlist)

def events (accountlist : List String) : List Request → List Event
  | [] => []
  | .add who mail :: requests =>
    (reached accountlist who).map (.send mail) ++ events accountlist requests
  | .update account mail names :: requests =>
    .update account mail names :: events accountlist requests
  | .load _ :: requests => events accountlist requests
  | .pass milliseconds :: requests => .pass milliseconds :: events accountlist requests
  | .accounts accountlist :: requests => .accounts accountlist :: events accountlist requests

/-- An add to the account, an update by it, or time that passes. -/
def Event.concerns (a : String) : Event → Bool
  | .send _ account => account = a
  | .update account _ _ => account = a
  | .pass _ => true
  | .accounts _ => false

theorem concerns_send : (Event.send mail account).concerns a ↔ account = a := decide_eq_true_iff

theorem concerns_update : (Event.update account mail names).concerns a ↔ account = a :=
  decide_eq_true_iff

/-- The adds to an account and the updates it makes. -/
def own (a : String) (s : Store ngroup) (requests : List Request) : List Event :=
  (events s.accountlist requests).filter (Event.concerns a)

theorem sendEach_eq (mail : Mail) (accounts : List String) (s : Store ngroup) :
    s.sendEach mail accounts =
      (accounts.takeWhile (· ∈ s.accountlist)).foldl (Store.send mail) s := by
  induction accounts generalizing s with
  | nil => rfl
  | cons account accounts ih =>
    rw [Store.sendEach, List.takeWhile_cons]
    by_cases hmem : account ∈ s.accountlist
    · rw [if_pos hmem, ih]
      simp only [hmem, decide_true, if_true, List.foldl_cons]
      rfl
    · simp [hmem]

theorem foldl_send (mail : Mail) (accounts : List String) (s : Store ngroup) :
    (accounts.map (Event.send mail)).foldl Event.step s = accounts.foldl (Store.send mail) s := by
  rw [List.foldl_map]
  rfl

theorem accountlist_foldl_send (mail : Mail) (accounts : List String) (s : Store ngroup) :
    (accounts.foldl (Store.send mail) s).accountlist = s.accountlist := by
  induction accounts generalizing s with
  | nil => rfl
  | cons account accounts ih => exact ih _

theorem accountlist_update : (s.update account mail names).accountlist = s.accountlist := by
  unfold Store.update
  split <;> rfl

/-- A run of requests is the run of its events. -/
theorem run_eq (requests : List Request) (s : Store ngroup) :
    s.run requests = (events s.accountlist requests).foldl Event.step s := by
  induction requests generalizing s with
  | nil => rfl
  | cons request requests ih =>
    rw [Store.run, List.foldl_cons, ← Store.run, ih]
    cases request with
    | add who mail =>
      rw [events, List.foldl_append, foldl_send]
      have hadd : s.add who mail = (reached s.accountlist who).foldl (Store.send mail) s :=
        sendEach_eq mail _ s
      rw [Store.request, hadd, accountlist_foldl_send]
    | update account mail names =>
      rw [Store.request, accountlist_update]
      rfl
    | load account => rfl
    | pass milliseconds => rfl
    | accounts accountlist => rfl

/-! ## The condition -/

def Store.setOf (s : Store ngroup) (account : String) : Cell (List String) :=
  (s.group (connectionHandler ngroup account)).sets (makeKey ngroup account).2

def Store.hashOf (s : Store ngroup) (account uuid : String) : Cell Record :=
  (s.group (connectionHandler ngroup account)).hashes uuid

/-- The hash of a mail that has just been sent. -/
def Store.sent (s : Store ngroup) (mail : Mail) : Cell Record :=
  some
    { value := (default : Record).hmset mail []
      deadline := some (s.now + saveTime mail * 1000) }

/-- Another account on the connection has the mail. -/
def Shared (s : Store ngroup) (account uuid : String) : Prop :=
  ∃ other ≠ account, connectionHandler ngroup other = connectionHandler ngroup account ∧
    uuid ∈ s.smembers other

/-- What is written to a hash that another account lists is there already. -/
def Event.Harmless (s : Store ngroup) : Event → Prop
  | .send mail account => Shared s account mail.uuid → s.hashOf account mail.uuid = s.sent mail
  | .update account mail names => Shared s account mail.uuid →
    ∀ record ∈ s.hget account mail.uuid, record.hmset mail names = record
  | .pass _ => True
  | .accounts _ => True

def HarmlessRun (s : Store ngroup) : List Event → Prop
  | [] => True
  | e :: es => e.Harmless s ∧ HarmlessRun (e.step s) es

/-- Every step of the requests is harmless. -/
def Harmless (s : Store ngroup) (requests : List Request) : Prop :=
  HarmlessRun s (events s.accountlist requests)

/-! ## What one step writes -/

theorem makeKey_fst : (makeKey ngroup a).1 = connectionHandler ngroup a := rfl

theorem makeKey_snd_inj : (makeKey ngroup account).2 = (makeKey ngroup a).2 ↔ account = a :=
  String.append_right_inj "mails:"

theorem smembers_eq : s.smembers a = ((s.setOf a).read s.now).getD [] := rfl

theorem setOf_call (i : ℕ) (f : Connection → Connection) :
    (s.call i f).setOf a =
      if connectionHandler ngroup a = i then (f (s.group i)).sets (makeKey ngroup a).2
      else s.setOf a := by
  by_cases h : connectionHandler ngroup a = i
  · simp only [Store.setOf, Store.call, h, Function.update_self, if_true]
  · simp only [Store.setOf, Store.call, Function.update_of_ne h, if_neg h]

theorem hashOf_call (i : ℕ) (f : Connection → Connection) :
    (s.call i f).hashOf a uuid =
      if connectionHandler ngroup a = i then (f (s.group i)).hashes uuid else s.hashOf a uuid := by
  by_cases h : connectionHandler ngroup a = i
  · simp only [Store.hashOf, Store.call, h, Function.update_self, if_true]
  · simp only [Store.hashOf, Store.call, Function.update_of_ne h, if_neg h]

theorem setOf_send_self : (s.send mail a).setOf a =
    some {
      value := (s.smembers a).insert mail.uuid
      deadline := some (s.now + saveTime mail * 1000) } := by
  rw [Store.send, setOf_call, makeKey_fst, if_pos rfl]
  simp only [Connection.expireHash, Connection.expireSet, Connection.hmset, Connection.sadd,
    Function.update_self, Cell.expire_write]
  rfl

theorem smembers_send_self :
    (s.send mail a).smembers a = (s.smembers a).insert mail.uuid := by
  rw [smembers_eq, setOf_send_self]
  exact congrArg (Option.getD · []) (Cell.read_of_le (Nat.le_add_right s.now _))

theorem setOf_send_of_ne (hne : a ≠ account) : (s.send mail account).setOf a = s.setOf a := by
  rw [Store.send, setOf_call, makeKey_fst]
  split
  next hconn =>
    have hkey : (makeKey ngroup a).2 ≠ (makeKey ngroup account).2 := mt makeKey_snd_inj.mp hne
    simp only [Connection.expireHash, Connection.expireSet, Connection.hmset, Connection.sadd,
      Function.update_of_ne hkey]
    rw [Store.setOf, hconn]
  next => rfl

theorem smembers_send_of_ne (hne : a ≠ account) :
    (s.send mail account).smembers a = s.smembers a := by
  rw [smembers_eq, setOf_send_of_ne hne]
  rfl

/-- A hash is rewritten as a whole, whatever it was. -/
theorem hmset_all (record : Record) : record.hmset mail [] = (default : Record).hmset mail [] := rfl

theorem hashOf_send_same
    (hconn : connectionHandler ngroup a = connectionHandler ngroup account) :
    (s.send mail account).hashOf a mail.uuid = s.sent mail := by
  rw [Store.send, hashOf_call, makeKey_fst, if_pos hconn]
  simp only [Connection.expireHash, Connection.expireSet, Connection.hmset, Connection.sadd,
    Function.update_self, Cell.expire_write, hmset_all]
  rfl

theorem hashOf_send_of_ne
    (h : connectionHandler ngroup a = connectionHandler ngroup account → uuid ≠ mail.uuid) :
    (s.send mail account).hashOf a uuid = s.hashOf a uuid := by
  rw [Store.send, hashOf_call, makeKey_fst]
  split
  next hconn =>
    simp only [Connection.expireHash, Connection.expireSet, Connection.hmset, Connection.sadd,
      Function.update_of_ne (h hconn)]
    rw [Store.hashOf, hconn]
  next => rfl

/-- What `mails.update` makes of a hash. -/
def rewrite (s : Store ngroup) (mail : Mail) (names : List Field) (c : Cell Record) : Cell Record :=
  if (c.read s.now).isSome then
    c.write s.now fun record => (record.getD default).hmset mail names
  else c

theorem now_update : (s.update account mail names).now = s.now := by
  rw [Store.update]
  split <;> rfl

theorem setOf_update : (s.update account mail names).setOf a = s.setOf a := by
  rw [Store.update]
  split
  · rw [setOf_call]
    split
    next hconn =>
      rw [Store.setOf, hconn]
      rfl
    next => rfl
  · rfl

theorem rewrite_eq_self {c : Cell Record}
    (h : ∀ record ∈ c.read s.now, record.hmset mail names = record) :
    rewrite s mail names c = c := by
  rw [rewrite]
  cases hread : c.read s.now with
  | none => rfl
  | some record =>
    exact Cell.write_eq_self (f := fun record => (record.getD default).hmset mail names) hread
      (h record hread)

theorem hashOf_update_same
    (hconn : connectionHandler ngroup a = connectionHandler ngroup account) :
    (s.update account mail names).hashOf a mail.uuid =
      rewrite s mail names (s.hashOf a mail.uuid) := by
  have hhash : s.hashOf a mail.uuid = s.hashOf account mail.uuid := by
    rw [Store.hashOf, hconn, Store.hashOf]
  rw [Store.update, rewrite, hhash]
  by_cases hsome : (s.hget account mail.uuid).isSome
  · rw [if_pos hsome, hashOf_call, if_pos hconn]
    simp only [Connection.hmset, Function.update_self]
    exact (if_pos hsome).symm
  · rw [if_neg hsome, hhash]
    exact (if_neg hsome).symm

theorem hashOf_update_of_ne
    (h : connectionHandler ngroup a = connectionHandler ngroup account → uuid ≠ mail.uuid) :
    (s.update account mail names).hashOf a uuid = s.hashOf a uuid := by
  rw [Store.update]
  split
  · rw [hashOf_call]
    split
    next hconn =>
      simp only [Connection.hmset, Function.update_of_ne (h hconn)]
      rw [Store.hashOf, hconn]
    next => rfl
  · rfl

/-! ## Two stores that look alike to an account -/

structure Alike (a : String) (s p : Store ngroup) : Prop where
  now : s.now = p.now
  setOf : s.setOf a = p.setOf a
  hashOf : ∀ uuid ∈ s.smembers a, s.hashOf a uuid = p.hashOf a uuid

namespace Alike

theorem smembers (h : Alike a s p) : s.smembers a = p.smembers a := by
  rw [smembers_eq, smembers_eq, h.setOf, h.now]

theorem load (h : Alike a s p) : s.load a = p.load a := by
  funext uuid
  rw [Store.load, Store.load, ← h.smembers]
  split
  next hmem =>
    have hget : s.hget a uuid = p.hget a uuid := by
      change (s.hashOf a uuid).read s.now = (p.hashOf a uuid).read p.now
      rw [h.hashOf uuid hmem, h.now]
    rw [hget]
  next => rfl

theorem sent (h : Alike a s p) : s.sent mail = p.sent mail := by rw [Store.sent, Store.sent, h.now]

/-- A mail that is sent to the account itself. -/
theorem send (h : Alike a s p) (mail : Mail) : Alike a (s.send mail a) (p.send mail a) where
  now := h.now
  setOf := by rw [setOf_send_self, setOf_send_self, h.smembers, h.now]
  hashOf uuid hmem := by
    by_cases huuid : uuid = mail.uuid
    · subst huuid
      rw [hashOf_send_same rfl, hashOf_send_same rfl, h.sent]
    · rw [hashOf_send_of_ne fun _ => huuid, hashOf_send_of_ne fun _ => huuid]
      refine h.hashOf uuid ?_
      rw [smembers_send_self] at hmem
      exact (List.mem_insert_iff.mp hmem).resolve_left huuid

theorem send_other (h : Alike a s p) (hne : account ≠ a)
    (hharmless : Event.Harmless s (.send mail account)) : Alike a (s.send mail account) p where
  now := h.now
  setOf := by rw [setOf_send_of_ne hne.symm, h.setOf]
  hashOf uuid hmem := by
    rw [smembers_send_of_ne hne.symm] at hmem
    rw [← h.hashOf uuid hmem]
    by_cases hconn : connectionHandler ngroup a = connectionHandler ngroup account ∧
      uuid = mail.uuid
    · obtain ⟨hconn, rfl⟩ := hconn
      have hthere := hharmless ⟨a, hne.symm, hconn, hmem⟩
      rw [hashOf_send_same hconn, ← hthere, Store.hashOf, Store.hashOf, hconn]
    · exact hashOf_send_of_ne fun hc huuid => hconn ⟨hc, huuid⟩

theorem update (h : Alike a s p) (mail : Mail) (names : List Field) :
    Alike a (s.update a mail names) (p.update a mail names) where
  now := by rw [now_update, now_update, h.now]
  setOf := by rw [setOf_update, setOf_update, h.setOf]
  hashOf uuid hmem := by
    rw [smembers_eq, setOf_update, now_update] at hmem
    by_cases huuid : uuid = mail.uuid
    · subst huuid
      rw [hashOf_update_same rfl, hashOf_update_same rfl, h.hashOf _ hmem, rewrite, rewrite, h.now]
    · rw [hashOf_update_of_ne fun _ => huuid, hashOf_update_of_ne fun _ => huuid]
      exact h.hashOf uuid hmem

theorem update_other (h : Alike a s p) (hne : account ≠ a)
    (hharmless : Event.Harmless s (.update account mail names)) :
    Alike a (s.update account mail names) p where
  now := by rw [now_update, h.now]
  setOf := by rw [setOf_update, h.setOf]
  hashOf uuid hmem := by
    rw [smembers_eq, setOf_update, now_update] at hmem
    rw [← h.hashOf uuid hmem]
    by_cases hconn : connectionHandler ngroup a = connectionHandler ngroup account ∧
      uuid = mail.uuid
    · obtain ⟨hconn, rfl⟩ := hconn
      have hthere := hharmless ⟨a, hne.symm, hconn, hmem⟩
      have hhash : s.hashOf a mail.uuid = s.hashOf account mail.uuid := by
        rw [Store.hashOf, hconn, Store.hashOf]
      rw [hashOf_update_same hconn, hhash]
      exact rewrite_eq_self hthere
    · exact hashOf_update_of_ne fun hc huuid => hconn ⟨hc, huuid⟩

/-- As time passes no mail appears in a set. -/
theorem pass (h : Alike a s p) (milliseconds : ℕ) :
    Alike a (Event.step s (.pass milliseconds)) (Event.step p (.pass milliseconds)) where
  now := congrArg (· + milliseconds) h.now
  setOf := h.setOf
  hashOf uuid hmem := by
    refine h.hashOf uuid ?_
    change uuid ∈ ((s.setOf a).read (s.now + milliseconds)).getD [] at hmem
    rw [smembers_eq]
    cases hread : (s.setOf a).read (s.now + milliseconds) with
    | none =>
      rw [hread] at hmem
      exact absurd hmem List.not_mem_nil
    | some members =>
      rw [hread] at hmem
      rwa [Cell.read_earlier (Nat.le_add_right s.now milliseconds) hread]

/-- A step of all accounts against the step of one account alone. -/
theorem step (h : Alike a s p) {e : Event} (hharmless : e.Harmless s) :
    Alike a (e.step s) (if e.concerns a then e.step p else p) := by
  cases e with
  | send mail account =>
    by_cases haccount : account = a
    · subst haccount
      rw [if_pos (concerns_send.mpr rfl)]
      exact h.send mail
    · rw [if_neg (mt concerns_send.mp haccount)]
      exact h.send_other haccount hharmless
  | update account mail names =>
    by_cases haccount : account = a
    · subst haccount
      rw [if_pos (concerns_update.mpr rfl)]
      exact h.update mail names
    · rw [if_neg (mt concerns_update.mp haccount)]
      exact h.update_other haccount hharmless
  | pass milliseconds => exact h.pass milliseconds
  | accounts accountlist => exact { now := h.now, setOf := h.setOf, hashOf := h.hashOf }

theorem run {es : List Event} (h : Alike a s p) (hharmless : HarmlessRun s es) :
    Alike a (es.foldl Event.step s) ((es.filter (Event.concerns a)).foldl Event.step p) := by
  induction es generalizing s p with
  | nil => exact h
  | cons e es ih =>
    have hstep := ih (h.step hharmless.1) hharmless.2
    rw [List.foldl_cons, List.filter_cons]
    by_cases he : e.concerns a
    · rwa [if_pos he] at hstep ⊢
    · rwa [if_neg he] at hstep ⊢

end Alike

theorem alike_self (a : String) (s : Store ngroup) : Alike a s s where
  now := rfl
  setOf := rfl
  hashOf _ _ := rfl

/-- An update goes unnoticed by all others only where it is harmless. -/
theorem load_update_iff (s : Store ngroup) (account : String) (mail : Mail) (names : List Field) :
    (∀ other ≠ account, (s.update account mail names).load other = s.load other) ↔
      Event.Harmless s (.update account mail names) := by
  constructor
  · rintro hsame ⟨other, hne, hconn, hmem⟩ record hrecord
    have hmem' : mail.uuid ∈ (s.update account mail names).smembers other := by
      rwa [smembers_eq, setOf_update, now_update]
    have hhash : s.hashOf other mail.uuid = s.hashOf account mail.uuid := by
      rw [Store.hashOf, hconn, Store.hashOf]
    have hread : (s.hashOf account mail.uuid).read s.now = some record := hrecord
    have hbefore : s.hget other mail.uuid = some record := by
      rw [← hread, ← hhash]
      rfl
    have hafter : (s.update account mail names).hget other mail.uuid =
        some (record.hmset mail names) := by
      change ((s.update account mail names).hashOf other mail.uuid).read _ = _
      rw [hashOf_update_same hconn, now_update, hhash, rewrite, hread, Option.isSome_some,
        if_pos rfl, Cell.read_write, hread]
      rfl
    have hload := congrFun (hsame other hne) mail.uuid
    rw [Store.load, Store.load, if_pos hmem', if_pos hmem, hbefore, hafter] at hload
    exact Option.some.inj hload
  · intro hharmless other hne
    exact ((alike_self other s).update_other hne.symm hharmless).load

/-- After harmless requests an account loads what its own adds and updates have made. -/
theorem load_run (s : Store ngroup) (a : String) {requests : List Request}
    (hharmless : Harmless s requests) :
    (s.run requests).load a = ((own a s requests).foldl Event.step s).load a := by
  rw [run_eq]
  exact ((alike_self a s).run hharmless).load

/-- Two runs of harmless requests with the same adds to an account and the same updates by it end
with the same mails of the account. -/
theorem load_isolated (s : Store ngroup) (a : String) {requests requests' : List Request}
    (hown : own a s requests = own a s requests') (hharmless : Harmless s requests)
    (hharmless' : Harmless s requests') : (s.run requests).load a = (s.run requests').load a := by
  rw [load_run s a hharmless, load_run s a hharmless', hown]

/-! ## One connection and two -/

def reward : Mail where
  uuid := "1001"
  title := "Arena"
  content := "Reward"
  sender := "system"
  items := "101,5"
  flag := 1
  time := 0

/-- The store as it starts, with two accounts. -/
def start (ngroup : ℕ) : Store ngroup where
  now := 0
  accountlist := ["alice", "bob"]
  group _ := { sets := fun _ => none, hashes := fun _ => none }

/-- Alice receives the items of a mail that Bob has too. -/
def received : List Request :=
  [.add ["alice", "bob"] reward, .update "alice" { reward with flag := 3 } [.flag]]

/-- The same without Alice. -/
def withoutAlice : List Request := [.add ["bob"] reward]

/-- On a connection of his own Bob does not notice Alice. -/
theorem load_isolated_bob :
    ((start 2).run received).load "bob" = ((start 2).run withoutAlice).load "bob" := by
  have hconn : connectionHandler 2 "alice" ≠ connectionHandler 2 "bob" := by decide
  have hfree (account : String) : ¬ Shared (start 2) account reward.uuid := by
    rintro ⟨other, -, -, hmem⟩
    exact List.not_mem_nil hmem
  refine load_isolated (start 2) "bob" (by rfl) ⟨fun h => absurd h (hfree _), ?_, ?_, trivial⟩
    ⟨fun h => absurd h (hfree _), trivial⟩
  · rintro ⟨other, hne, hother, hmem⟩
    have halice : other ≠ "alice" := by
      rintro rfl
      exact hconn hother
    change reward.uuid ∈ ((start 2).send reward "alice").smembers other at hmem
    rw [smembers_send_of_ne halice] at hmem
    exact absurd hmem List.not_mem_nil
  · rintro ⟨other, hne, hother, hmem⟩
    have hbob : other ≠ "bob" := by
      rintro rfl
      exact hconn hother.symm
    change reward.uuid ∈ (((start 2).send reward "alice").send reward "bob").smembers other at hmem
    rw [smembers_send_of_ne hbob, smembers_send_of_ne hne] at hmem
    exact absurd hmem List.not_mem_nil

/-- On one connection Bob loads the flag that Alice has set. -/
theorem load_shared : ¬ ∀ (ngroup : ℕ) (s : Store ngroup) (a : String)
    (requests requests' : List Request), own a s requests = own a s requests' →
      (s.run requests).load a = (s.run requests').load a := fun hall => by
  have hload := hall 1 (start 1) "bob" received withoutAlice (by rfl)
  have hflag : (((start 1).run received).load "bob" "1001").bind Record.flag = some 3 := by rfl
  have hflag' : (((start 1).run withoutAlice).load "bob" "1001").bind Record.flag = some 1 := by rfl
  rw [hload, hflag'] at hflag
  exact absurd hflag (by decide)

end GameServer.MailStore
