import GameServer.MailIsolation
import Mathlib.Data.List.AList
import Mathlib.Data.List.TakeWhile

/-!
# Delivery of a mail

`centermail.lua`. `sendmail` has the mail stored by `mails.add` and tells the agents that listen.
The loop of `mails.add` ends at the first account that does not exist, and the loop over all
listeners looks agents up where only accounts are keys.
-/

namespace GameServer.MailStore

/-- A key of a Lua table. -/
inductive Key
  | account (name : String)
  | agent (handle : ℕ)

/-- The table `listeners` that `accept.listen` keeps: the agent of every account that is online. -/
abbrev Listeners := AList fun _ : String => ℕ

/-- The value under any key of the table; its keys are accounts. -/
def Listeners.get (listeners : Listeners) : Key → Option ℕ
  | .account name => listeners.lookup name
  | .agent _ => none

/-- The agents that `newmails` was called of, up to an error. -/
structure Calls where
  agents : List ℕ := []
  raised : Bool := false
  deriving DecidableEq

/-- The loop for an empty `who`, on the values of `listeners` in the order of `pairs`. A call of no
address is an error. -/
def callAll (listeners : Listeners) : List ℕ → Calls
  | [] => {}
  | v :: rest =>
    match listeners.get (.agent v) with
    | none => { raised := true }
    | some agent =>
      let calls := callAll listeners rest
      { calls with agents := agent :: calls.agents }

/-- The loop over the accounts of `who`. -/
def callEach (listeners : Listeners) : List String → Calls
  | [] => {}
  | v :: rest =>
    let calls := callEach listeners rest
    match listeners.get (.account v) with
    | none => calls
    | some agent => { calls with agents := agent :: calls.agents }

/-- `uuid` is what `uuid.gen` returns and `time` what `os.time` does. -/
def newmail (uuid title content sender stitem : String) (time : ℤ) : Mail where
  uuid := uuid
  title := title
  content := content
  sender := sender
  items := stitem
  flag := 1
  time := time

variable {ngroup : ℕ}

/-- `accept.sendmail`, with the mail that `newmail` makes. -/
def sendmail (listeners : Listeners) (who : List String) (mail : Mail) (s : Store ngroup) :
    Store ngroup × Calls :=
  (s.add who mail,
    if who.length = 0 then callAll listeners (listeners.entries.map Sigma.snd)
    else callEach listeners who)

variable {s : Store ngroup} {listeners : Listeners} {who accounts : List String} {mail : Mail}
  {a : String}

/-! ## What delivery asks for -/

/-- An empty list addresses everybody. -/
def Addressed (who : List String) (a : String) : Prop := who = [] ∨ a ∈ who

/-- The account has the number of the mail and its connection all of the fields. -/
def Store.Stored (s : Store ngroup) (mail : Mail) (a : String) : Prop :=
  mail.uuid ∈ s.smembers a ∧ s.hget a mail.uuid = some ((default : Record).hmset mail [])

structure Delivered (s s' : Store ngroup) (listeners : Listeners) (who : List String) (mail : Mail)
    (calls : Calls) : Prop where
  stored : ∀ a ∈ s.accountlist, Addressed who a → s'.Stored mail a
  told : ∀ a, Addressed who a → ∀ agent ∈ listeners.lookup a, agent ∈ calls.agents

/-- An account that holds the number from an earlier mail, and on whose connection the fields are as
if it had been sent this one. Only a number that `uuid.gen` repeats can be held so. -/
def HeldBefore (s : Store ngroup) (who : List String) (mail : Mail) (a : String) : Prop :=
  mail.uuid ∈ s.smembers a ∧
    ((∃ b ∈ reached s.accountlist who,
      connectionHandler ngroup a = connectionHandler ngroup b) ∨
      s.hget a mail.uuid = some ((default : Record).hmset mail []))

/-- Every known addressee stands before the first unknown one, and nobody listens to a mail to
all. -/
structure Deliverable (s : Store ngroup) (listeners : Listeners) (who : List String) (mail : Mail) :
    Prop where
  known : ∀ a ∈ s.accountlist, a ∈ who →
    a ∈ who.takeWhile (· ∈ s.accountlist) ∨ HeldBefore s who mail a
  silent : who = [] → listeners = ∅

/-! ## What the loop of `mails.add` stores -/

theorem now_foldl_send : (accounts.foldl (Store.send mail) s).now = s.now := by
  induction accounts generalizing s with
  | nil => rfl
  | cons account accounts ih => exact ih

theorem mem_smembers_foldl_send :
    mail.uuid ∈ (accounts.foldl (Store.send mail) s).smembers a ↔
      a ∈ accounts ∨ mail.uuid ∈ s.smembers a := by
  induction accounts generalizing s with
  | nil => simp
  | cons account accounts ih =>
      rw [List.foldl_cons, ih, List.mem_cons]
      by_cases ha : a = account
      · subst ha
        simp [smembers_send_self]
      · simp [smembers_send_of_ne ha, ha]

theorem hashOf_foldl_send :
    (accounts.foldl (Store.send mail) s).hashOf a mail.uuid =
      if ∃ b ∈ accounts, connectionHandler ngroup a = connectionHandler ngroup b then s.sent mail
      else s.hashOf a mail.uuid := by
  induction accounts generalizing s with
  | nil => simp
  | cons account accounts ih =>
      rw [List.foldl_cons, ih]
      by_cases hconn : connectionHandler ngroup a = connectionHandler ngroup account
      · have hex : ∃ b ∈ account :: accounts,
            connectionHandler ngroup a = connectionHandler ngroup b :=
          ⟨account, List.mem_cons_self, hconn⟩
        rw [hashOf_send_same hconn, if_pos hex]
        exact ite_self _
      · rw [hashOf_send_of_ne fun h => absurd h hconn]
        simp [hconn]
        rfl

theorem read_sent : (s.sent mail).read s.now = some ((default : Record).hmset mail []) :=
  Cell.read_of_le (Nat.le_add_right s.now _)

theorem hget_foldl_send :
    (accounts.foldl (Store.send mail) s).hget a mail.uuid =
      if ∃ b ∈ accounts, connectionHandler ngroup a = connectionHandler ngroup b then
        some ((default : Record).hmset mail [])
      else s.hget a mail.uuid := by
  change ((accounts.foldl (Store.send mail) s).hashOf a mail.uuid).read _ = _
  rw [hashOf_foldl_send, now_foldl_send]
  split
  · exact read_sent
  · rfl

theorem add_eq : s.add who mail = (reached s.accountlist who).foldl (Store.send mail) s :=
  sendEach_eq mail _ s

theorem stored_add_iff :
    (s.add who mail).Stored mail a ↔ a ∈ reached s.accountlist who ∨ HeldBefore s who mail a := by
  rw [Store.Stored, add_eq, mem_smembers_foldl_send, hget_foldl_send, HeldBefore]
  by_cases ha : a ∈ reached s.accountlist who
  · have hconn : ∃ b ∈ reached s.accountlist who,
        connectionHandler ngroup a = connectionHandler ngroup b := ⟨a, ha, rfl⟩
    simp [ha, hconn]
  · by_cases hconn : ∃ b ∈ reached s.accountlist who,
        connectionHandler ngroup a = connectionHandler ngroup b <;> simp [ha, hconn]

theorem reached_nil (accountlist : List String) : reached accountlist [] = accountlist := by
  rw [reached, List.length_nil, if_pos rfl]
  apply List.takeWhile_eq_self_iff.mpr
  intro a ha
  exact decide_eq_true ha

theorem reached_of_ne_nil (hwho : who ≠ []) (accountlist : List String) :
    reached accountlist who = who.takeWhile (· ∈ accountlist) := by
  rw [reached, if_neg (mt List.length_eq_zero_iff.mp hwho)]

/-! ## Which agents are told -/

theorem callAll_agents (agents : List ℕ) : (callAll listeners agents).agents = [] := by
  cases agents with
  | nil => rfl
  | cons v rest => rfl

theorem callEach_agents :
    (callEach listeners who).agents = who.filterMap fun a => listeners.lookup a := by
  induction who with
  | nil => rfl
  | cons v rest ih =>
      rw [callEach, List.filterMap_cons, Listeners.get]
      cases listeners.lookup v with
      | none => exact ih
      | some agent => exact congrArg (agent :: ·) ih

/-- The accounts of a nonempty list are told; of a mail to all nobody is. -/
theorem told_iff :
    (∀ a, Addressed who a → ∀ agent ∈ listeners.lookup a,
      agent ∈ (sendmail listeners who mail s).2.agents) ↔ (who = [] → listeners = ∅) := by
  by_cases hwho : who = []
  · subst hwho
    have hcalls : (sendmail listeners [] mail s).2.agents = [] := callAll_agents _
    rw [hcalls]
    constructor
    · intro htold _
      apply AList.ext
      rw [AList.empty_entries]
      apply List.eq_nil_iff_forall_not_mem.mpr
      intro e he
      exact List.not_mem_nil (htold e.1 (Or.inl rfl) e.2 (AList.mem_lookup_iff.mpr he))
    · intro hempty a _ agent hagent
      rw [hempty rfl, AList.lookup_empty] at hagent
      exact absurd hagent (Option.not_mem_none agent)
  · have hcalls : (sendmail listeners who mail s).2.agents =
        who.filterMap fun a => listeners.lookup a := by
      rw [← callEach_agents, sendmail, if_neg (mt List.length_eq_zero_iff.mp hwho)]
    rw [hcalls]
    apply iff_of_true
    · intro a ha agent hagent
      apply List.mem_filterMap.mpr
      exact ⟨a, ha.resolve_left hwho, hagent⟩
    · intro h
      exact absurd h hwho

/-- A mail is delivered exactly when it is deliverable. -/
theorem sendmail_delivered_iff (s : Store ngroup) (listeners : Listeners) (who : List String)
    (mail : Mail) :
    Delivered s (sendmail listeners who mail s).1 listeners who mail
      (sendmail listeners who mail s).2 ↔ Deliverable s listeners who mail := by
  have hstored : (∀ a ∈ s.accountlist, Addressed who a →
      (sendmail listeners who mail s).1.Stored mail a) ↔
      ∀ a ∈ s.accountlist, a ∈ who →
        a ∈ who.takeWhile (· ∈ s.accountlist) ∨ HeldBefore s who mail a := by
    apply forall₂_congr
    intro a ha
    change (Addressed who a → (s.add who mail).Stored mail a) ↔ _
    rw [stored_add_iff]
    by_cases hwho : who = []
    · subst hwho
      simp [reached_nil, ha]
    · simp [reached_of_ne_nil hwho, Addressed, hwho]
  constructor
  · intro h
    exact ⟨hstored.mp h.stored, told_iff.mp h.told⟩
  · intro h
    exact ⟨hstored.mpr h.known, told_iff.mpr h.silent⟩

/-- With a number that nobody holds yet, the unknown account decides alone. -/
theorem sendmail_delivered_iff_of_fresh (hfresh : ∀ a, mail.uuid ∉ s.smembers a) :
    Delivered s (sendmail listeners who mail s).1 listeners who mail
      (sendmail listeners who mail s).2 ↔
      (∀ a ∈ s.accountlist, a ∈ who → a ∈ who.takeWhile (· ∈ s.accountlist)) ∧
        (who = [] → listeners = ∅) := by
  have hheld (a : String) : ¬ HeldBefore s who mail a := fun h => hfresh a h.1
  rw [sendmail_delivered_iff]
  constructor
  · intro h
    exact ⟨fun a ha hwho => (h.known a ha hwho).resolve_right (hheld a), h.silent⟩
  · intro h
    exact ⟨fun a ha hwho => Or.inl (h.1 a ha hwho), h.2⟩

/-- Bob's mail is lost behind an account that does not exist, and a mail to all reaches no agent. -/
theorem sendmail_undelivered :
    ¬ Delivered (start 1) (sendmail ∅ ["ghost", "bob"] reward (start 1)).1 ∅ ["ghost", "bob"] reward
      (sendmail ∅ ["ghost", "bob"] reward (start 1)).2 ∧
    ¬ Delivered (start 1) (sendmail (AList.singleton "bob" 7) [] reward (start 1)).1
      (AList.singleton "bob" 7) [] reward
      (sendmail (AList.singleton "bob" 7) [] reward (start 1)).2 := by
  constructor
  · intro h
    have hbob := h.stored "bob" (by decide) (Or.inr (by decide))
    exact absurd hbob.1 List.not_mem_nil
  · intro h
    exact absurd (h.told "bob" (Or.inl rfl) 7 (by decide)) List.not_mem_nil

end GameServer.MailStore
