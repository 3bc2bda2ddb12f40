import Mathlib.Algebra.GroupWithZero.Nat
import Mathlib.Data.Int.Notation
import Mathlib.Data.List.Basic
import Mathlib.Data.Option.Basic
import Mathlib.Logic.Function.Basic

/-!
# The mails of all accounts

`mails_rd.lua`. An account has a set of mail numbers under `mails:<account>`; the fields of a mail
are a hash under the bare number, on the connection of the account.
-/

namespace GameServer.MailStore

/-!
## Values with a deadline

A cell holds a value up to a deadline, or for ever. Past the deadline it reads as an empty cell.
-/

structure Held (α : Type*) where
  value : α
  deadline : Option ℕ
  deriving DecidableEq

def Held.Alive {α : Type*} (now : ℕ) (h : Held α) : Prop := ∀ t ∈ h.deadline, now ≤ t

instance {α : Type*} (now : ℕ) (h : Held α) : Decidable (h.Alive now) :=
  inferInstanceAs (Decidable (∀ t ∈ h.deadline, now ≤ t))

abbrev Cell (α : Type*) := Option (Held α)

namespace Cell

variable {α : Type*} {now now' span : ℕ} {f : Option α → α} {c : Cell α} {v : α}

def live (now : ℕ) (c : Cell α) : Cell α := c.filter fun h => h.Alive now

def read (now : ℕ) (c : Cell α) : Option α := (c.live now).map Held.value

/-- Overwrites the value and keeps the deadline. -/
def write (now : ℕ) (f : Option α → α) (c : Cell α) : Cell α :=
  some { value := f (c.read now), deadline := (c.live now).bind Held.deadline }

/-- Sets the deadline. -/
def expire (now span : ℕ) (c : Cell α) : Cell α :=
  (c.live now).map fun h => { h with deadline := some (now + span) }

theorem live_of_alive {h : Held α} (halive : h.Alive now) : live now (some h) = some h := by
  simp [live, Option.filter, halive]

theorem live_write : live now (c.write now f) = c.write now f := by
  refine live_of_alive fun t ht => ?_
  obtain ⟨h, hh, ht⟩ := Option.bind_eq_some_iff.mp ht
  have halive : h.Alive now := by simpa using (Option.filter_eq_some_iff.mp hh).2
  exact halive t ht

theorem read_write : (c.write now f).read now = some (f (c.read now)) := by
  rw [read, live_write]
  rfl

theorem expire_write : (c.write now f).expire now span =
    some { value := f (c.read now), deadline := some (now + span) } := by
  rw [expire, live_write]
  rfl

theorem read_of_le {t : ℕ} (hle : now ≤ t) :
    read now (some { value := v, deadline := some t }) = some v := by
  have halive : Held.Alive now { value := v, deadline := some t } := fun t' ht' => by
    obtain rfl := Option.mem_some_iff.mp ht'
    exact hle
  rw [read, live_of_alive halive]
  rfl

theorem write_eq_self (h : c.read now = some v) (hf : f (some v) = v) : c.write now f = c := by
  obtain ⟨h', hlive, rfl⟩ := Option.map_eq_some_iff.mp h
  obtain ⟨rfl, -⟩ := Option.filter_eq_some_iff.mp hlive
  rw [write, h, hf, hlive]
  rfl

theorem read_earlier (hle : now ≤ now') (h : c.read now' = some v) : c.read now = some v := by
  obtain ⟨h', hlive, rfl⟩ := Option.map_eq_some_iff.mp h
  obtain ⟨rfl, halive⟩ := Option.filter_eq_some_iff.mp hlive
  have halive : h'.Alive now' := by simpa using halive
  have hbefore : h'.Alive now := fun t ht => Nat.le_trans hle (halive t ht)
  rw [read, live_of_alive hbefore]
  rfl

end Cell

/-! ## The rows of the mails -/

/-- Seven days, in seconds. -/
def SHORT_SAVE_TIME : ℕ := 7 * 24 * 60 * 60

/-- Thirty days, in seconds. -/
def LONG_SAVE_TIME : ℕ := 30 * 24 * 60 * 60

structure Mail where
  uuid : String
  title : String
  content : String
  sender : String
  items : String
  flag : ℤ
  time : ℤ

inductive Field
  | title | content | sender | items | flag | time
  deriving DecidableEq

/-- The fields of a mail as the store has them. A number is read back by `tonumber`. -/
structure Record where
  title : Option String := none
  content : Option String := none
  sender : Option String := none
  items : Option String := none
  flag : Option ℤ := none
  time : Option ℤ := none
  deriving DecidableEq, Inhabited

def Record.set (mail : Mail) (record : Record) : Field → Record
  | .title => { record with title := some mail.title }
  | .content => { record with content := some mail.content }
  | .sender => { record with sender := some mail.sender }
  | .items => { record with items := some mail.items }
  | .flag => { record with flag := some mail.flag }
  | .time => { record with time := some mail.time }

/-- `table.packdb(mail, ...)`: the named fields, or all but the number. -/
def packdb (names : List Field) : List Field :=
  if names = [] then [.title, .content, .sender, .items, .flag, .time] else names

/-- What `hmset` makes of a record. -/
def Record.hmset (mail : Mail) (names : List Field) (record : Record) : Record :=
  (packdb names).foldl (Record.set mail) record

/-- How long a mail with or without items is kept, in seconds. -/
def saveTime (mail : Mail) : ℕ := if 0 < mail.items.length then LONG_SAVE_TIME else SHORT_SAVE_TIME

/-- One redis server. The names of the sets and of the hashes are kept apart. -/
structure Connection where
  sets : String → Cell (List String)
  hashes : String → Cell Record

/-- The milliseconds since the start, the members of `accountlist` and the servers. -/
structure Store (ngroup : ℕ) where
  now : ℕ
  accountlist : List String
  group : ℕ → Connection

variable {ngroup : ℕ}

/-- The sum of the bytes that are letters or digits. -/
def hashStr (str : String) : ℕ := ((str.toList.filter Char.isAlphanum).map Char.toNat).sum

def connectionHandler (ngroup : ℕ) (key : String) : ℕ := hashStr key % ngroup

def makeKey (ngroup : ℕ) (name : String) : ℕ × String :=
  (connectionHandler ngroup name, "mails:" ++ name)

namespace Connection

variable (now : ℕ) (conn : Connection)

def sadd (key uuid : String) : Connection :=
  { conn with
    sets := Function.update conn.sets key
      ((conn.sets key).write now fun members => (members.getD []).insert uuid) }

def hmset (mail : Mail) (names : List Field) : Connection :=
  { conn with
    hashes := Function.update conn.hashes mail.uuid
      ((conn.hashes mail.uuid).write now fun record => (record.getD default).hmset mail names) }

def expireSet (key : String) (seconds : ℕ) : Connection :=
  { conn with
    sets := Function.update conn.sets key ((conn.sets key).expire now (seconds * 1000)) }

def expireHash (uuid : String) (seconds : ℕ) : Connection :=
  { conn with
    hashes := Function.update conn.hashes uuid ((conn.hashes uuid).expire now (seconds * 1000)) }

end Connection

namespace Store

/-- A command sent over a connection. -/
def call (s : Store ngroup) (i : ℕ) (f : Connection → Connection) : Store ngroup :=
  { s with group := Function.update s.group i (f (s.group i)) }

def smembers (s : Store ngroup) (account : String) : List String :=
  let (i, key) := makeKey ngroup account
  (((s.group i).sets key).read s.now).getD []

/-- The fields of a mail on the connection of an account. -/
def hget (s : Store ngroup) (account uuid : String) : Option Record :=
  ((s.group (connectionHandler ngroup account)).hashes uuid).read s.now

/-- `mails.load`, as a table by number. -/
def load (s : Store ngroup) (account : String) (uuid : String) : Option Record :=
  if uuid ∈ s.smembers account then some ((s.hget account uuid).getD default) else none

/-- The body of the loop of `mails.add`. -/
def send (mail : Mail) (s : Store ngroup) (account : String) : Store ngroup :=
  let (i, key) := makeKey ngroup account
  s.call i fun conn =>
    ((((conn.sadd s.now key mail.uuid).hmset s.now mail []).expireSet s.now key
      (saveTime mail)).expireHash s.now mail.uuid (saveTime mail))

/-- The loop of `mails.add` ends at the first account that does not exist. -/
def sendEach (mail : Mail) (s : Store ngroup) : List String → Store ngroup
  | [] => s
  | account :: accounts =>
    if account ∈ s.accountlist then sendEach mail (s.send mail account) accounts else s

/-- `mails.add`: an empty `who` stands for all accounts. -/
def add (who : List String) (mail : Mail) (s : Store ngroup) : Store ngroup :=
  s.sendEach mail (if who.length = 0 then s.accountlist else who)

/-- `mails.update` -/
def update (account : String) (mail : Mail) (names : List Field) (s : Store ngroup) :
    Store ngroup :=
  if (s.hget account mail.uuid).isSome then
    s.call (connectionHandler ngroup account) fun conn => conn.hmset s.now mail names
  else s

end Store

/-- Requests to the mails, time that passes and other work on the list of accounts. -/
inductive Request
  | add (who : List String) (mail : Mail)
  | update (account : String) (mail : Mail) (names : List Field)
  | load (account : String)
  | pass (milliseconds : ℕ)
  | accounts (accountlist : List String)

def Store.request (s : Store ngroup) : Request → Store ngroup
  | .add who mail => s.add who mail
  | .update account mail names => s.update account mail names
  | .load _ => s
  | .pass milliseconds => { s with now := s.now + milliseconds }
  | .accounts accountlist => { s with accountlist := accountlist }

def Store.run (s : Store ngroup) (requests : List Request) : Store ngroup :=
  requests.foldl Store.request s

end GameServer.MailStore
