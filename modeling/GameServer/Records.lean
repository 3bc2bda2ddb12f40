import GameServer.AgentService
import GameServer.Transition
import Std.Data.String.ToInt

/-!
# The records of an account

Each kind of record has a function that creates a unit and a loader that lists the fields it reads
and how. `table.packdb` turns a unit into text, as a whole or by named fields. A unit stands under
its own number, and the account has a set of numbers for each kind; activities and cooldowns stand
under the account and their type.
-/

namespace GameServer.Records

open Goods Agent Transition
open AgentService (Macro_GetMissionSerialId)

inductive Value
  | number (n : ℤ)
  | text (s : String)
  deriving DecidableEq

def Value.tostring : Value → String
  | .number n => n.repr
  | .text s => s

/-- `tonumber` of the decimal numeral of an integer. -/
def tonumber (s : String) : Option ℤ := s.toInt?

inductive Field
  | dataId | count | explore | skill (i : ℕ) | flag | progress | time
  | uuid (i : ℕ) | att (i : ℕ) | cam (i : ℕ)
  | title | content | sender | items
  | accountId | atype | value | expire
  | other (name : String)
  deriving DecidableEq

/-- The fields of a unit but for its number. -/
abbrev Fields := Field → Option Value

/-- A hash of the store. -/
abbrev Hash := Field → Option String

inductive Kind
  | cards | skills | missions | explores | mails | activity | cooldown
  deriving DecidableEq

/-! ## New units -/

/-- What the functions that create units read. -/
inductive Creation
  | card (dataId : ℤ)
  | skill (dataId : ℤ)
  | mission (dataId : ℤ)
  | explore (dataId : ℤ) (att cam : ℕ → ℤ)
  | mail (title content sender stitem : String) (time : ℤ)
  | activity (aid : String) (atype val expire : ℤ)
  | cooldown (aid : String) (atype val : ℤ)

def Creation.kind : Creation → Kind
  | .card _ => .cards
  | .skill _ => .skills
  | .mission _ => .missions
  | .explore .. => .explores
  | .mail .. => .mails
  | .activity .. => .activity
  | .cooldown .. => .cooldown

/-- The skills that a card gets by itself take the slots from the first on, also past the last. -/
def initCard (env : Env) (dataId : ℤ) : Option Fields := do
  let gained ← autoSkills env (env.data.heroRepository dataId) env.data.autoGainSkills
  some fun
    | .dataId => some (.number dataId)
    | .count => some (.number 0)
    | .explore => some (.number 0)
    | .skill i => if i < max 8 gained.length then some (.number (gained.getD i 0)) else none
    | _ => none

def initSkill (dataId : ℤ) : Fields
  | .dataId => some (.number dataId)
  | .count => some (.number 0)
  | .flag => some (.number 0)
  | _ => none

def initMission (dataId : ℤ) : Fields
  | .dataId => some (.number dataId)
  | .progress => some (.number 0)
  | .flag => some (.number 0)
  | .time => some (.number 0)
  | _ => none

/-- `att` and `cam` are drawn. -/
def initExplore (dataId : ℤ) (att cam : ℕ → ℤ) : Fields
  | .dataId => some (.number dataId)
  | .att i => if i < 3 then some (.number (att i)) else none
  | .cam i => if i < 3 then some (.number (cam i)) else none
  | .uuid i => if i < 3 then some (.text "") else none
  | .time => some (.number 0)
  | _ => none

def newmail (title content sender stitem : String) (time : ℤ) : Fields
  | .title => some (.text title)
  | .content => some (.text content)
  | .sender => some (.text sender)
  | .items => some (.text stitem)
  | .flag => some (.number 1)
  | .time => some (.number time)
  | _ => none

def initActivity (aid : String) (atype val expire : ℤ) : Fields
  | .accountId => some (.text aid)
  | .atype => some (.number atype)
  | .value => some (.number val)
  | .expire => some (.number expire)
  | _ => none

def initCD (aid : String) (atype val : ℤ) : Fields
  | .accountId => some (.text aid)
  | .atype => some (.number atype)
  | .value => some (.number val)
  | _ => none

def Creation.init (env : Env) : Creation → Option Fields
  | .card dataId => initCard env dataId
  | .skill dataId => some (initSkill dataId)
  | .mission dataId => some (initMission dataId)
  | .explore dataId att cam => some (initExplore dataId att cam)
  | .mail title content sender stitem time => some (newmail title content sender stitem time)
  | .activity aid atype val expire => some (initActivity aid atype val expire)
  | .cooldown aid atype val => some (initCD aid atype val)

/-! ## The store -/

/-- The name of a hash: the number of a unit, or `activity:` and `cooldown:` with an account and a
type. -/
inductive Key
  | unit (uuid : String)
  | activity (uid : String)
  | cooldown (uid : String)
  deriving DecidableEq

def Kind.key : Kind → String → Key
  | .activity => .activity
  | .cooldown => .cooldown
  | _ => .unit

structure Store where
  sets : Kind → List String
  hashes : Key → Option Hash

/-- What `table.packdb` writes: the fields of the unit, or the named ones. A named field that the
unit does not have leaves `hmset` with a name and no value, an error. -/
def packdb (unit : Fields) (names : List Field) : Option Fields :=
  if names = [] then some unit
  else if ∀ f ∈ names, (unit f).isSome then some fun f => if f ∈ names then unit f else none
  else none

namespace Store

variable (s : Store)

def sadd (kind : Kind) (uuid : String) : Store :=
  { s with sets := Function.update s.sets kind ((s.sets kind).insert uuid) }

def hmset (key : Key) (written : Fields) : Store :=
  { s with
    hashes := Function.update s.hashes key
      (some fun f => ((written f).map Value.tostring).or ((s.hashes key).bind (· f))) }

/-- `update` of the cards, skills, missions and explores, and `mails.add` for one account. -/
def add (kind : Kind) (uuid : String) (unit : Fields) (names : List Field) : Option Store := do
  let written ← packdb unit names
  some ((s.sadd kind uuid).hmset (.unit uuid) written)

/-- `mails.update` -/
def mailsUpdate (uuid : String) (unit : Fields) (names : List Field) : Option Store :=
  if (s.hashes (.unit uuid)).isSome then do
    let written ← packdb unit names
    some (s.hmset (.unit uuid) written)
  else some s

/-- `activity.update` and `cooldown.update` -/
def put (key : Key) (unit : Fields) (names : List Field) : Option Store := do
  let written ← packdb unit names
  some (s.hmset key written)

/-- The call that stores a new unit. -/
def create (kind : Kind) (name : String) (unit : Fields) : Option Store :=
  match kind with
  | .activity => s.put (.activity name) unit []
  | .cooldown => s.put (.cooldown name) unit []
  | kind => s.add kind name unit []

/-- `update` of a kind. -/
def update (kind : Kind) (name : String) (unit : Fields) (names : List Field) : Option Store :=
  match kind with
  | .activity => s.put (.activity name) unit names
  | .cooldown => s.put (.cooldown name) unit names
  | .mails => s.mailsUpdate name unit names
  | kind => s.add kind name unit names

end Store

/-! ## The loaders -/

/-- A loader takes the text of a field as it is, or by `tonumber`. -/
inductive Read
  | number
  | text

def Read.read : Read → Option String → Option Value
  | .number, s => (s.bind tonumber).map .number
  | .text, s => s.map .text

/-- The fields of a loaded unit. -/
def loaded (reads : Field → Option Read) (hash : Option Hash) : Fields := fun f => do
  let read ← reads f
  read.read (hash.bind (· f))

def Cards.reads : Field → Option Read
  | .dataId => some .number
  | .count => some .number
  | .explore => some .number
  | .skill i => if i < 8 then some .number else none
  | _ => none

def Skills.reads : Field → Option Read
  | .dataId => some .number
  | .count => some .number
  | _ => none

def Missions.reads : Field → Option Read
  | .dataId => some .number
  | .progress => some .number
  | .flag => some .number
  | .time => some .number
  | _ => none

def Explores.reads : Field → Option Read
  | .dataId => some .number
  | .uuid i => if i < 3 then some .text else none
  | .att i => if i < 3 then some .number else none
  | .cam i => if i < 3 then some .number else none
  | .time => some .number
  | _ => none

def Mails.reads : Field → Option Read
  | .title => some .text
  | .content => some .text
  | .sender => some .text
  | .items => some .text
  | .flag => some .number
  | .time => some .number
  | _ => none

def ActivityKind.reads : Field → Option Read
  | .expire => some .number
  | .accountId => some .text
  | .atype => some .number
  | .value => some .number
  | _ => none

def Cooldown.reads : Field → Option Read
  | .value => some .number
  | .accountId => some .text
  | .atype => some .number
  | _ => none

def Kind.reads : Kind → Field → Option Read
  | .cards => Cards.reads
  | .skills => Skills.reads
  | .missions => Missions.reads
  | .explores => Explores.reads
  | .mails => Mails.reads
  | .activity => ActivityKind.reads
  | .cooldown => Cooldown.reads

/-- The order in which a set is listed. -/
structure Listing where
  smembers : List String → List String
  perm : ∀ l, (smembers l).Perm l

namespace Store

variable (listing : Listing) (s : Store)

/-- `load` of the cards, skills, explores and mails: the unit of a number in the table. -/
def loadMember (kind : Kind) (uuid : String) : Option Fields :=
  if uuid ∈ listing.smembers (s.sets kind) then
    some (loaded kind.reads (s.hashes (.unit uuid)))
  else none

def number (uuid : String) (f : Field) : Option ℤ :=
  ((s.hashes (.unit uuid)).bind (· f)).bind tonumber

/-- The loop of `missions.load`. The table is by series; a mission without `dataId` is an error. -/
def loadEach : List String → (ℤ → Option (String × Fields)) → Option (ℤ → Option (String × Fields))
  | [], missions => some missions
  | v :: st, missions => do
    let dataId ← s.number v .dataId
    loadEach st (Function.update missions (Macro_GetMissionSerialId dataId)
      (some (v, loaded Missions.reads (s.hashes (.unit v)))))

def missionsLoad : Option (ℤ → Option (String × Fields)) :=
  s.loadEach (listing.smembers (s.sets .missions)) fun _ => none

/-- `activity.load` and `cooldown.load` -/
def loadUnit (kind : Kind) (name : String) : Option Fields :=
  (s.hashes (kind.key name)).map fun hash => loaded kind.reads (some hash)

/-- The loader of a kind finds a unit with these fields. -/
def Loads (kind : Kind) (name : String) (fields : Fields) : Prop :=
  match kind with
  | .activity => s.loadUnit .activity name = some fields
  | .cooldown => s.loadUnit .cooldown name = some fields
  | .missions => ∃ missions serId, s.missionsLoad listing = some missions ∧
      missions serId = some (name, fields)
  | kind => s.loadMember listing kind name = some fields

end Store

/-! ## The account -/

/-- A unit in memory. -/
structure Item where
  origin : Creation
  fields : Fields

structure Account where
  memory : Key → Option Item
  store : Store

inductive Event
  /-- A unit is created, changed and stored. -/
  | create (name : String) (origin : Creation) (changes : List (Field × Value))
  /-- A unit is changed and updated. -/
  | update (kind : Kind) (name : String) (changes : List (Field × Value)) (names : List Field)

/-- Which fields hold numbers and which texts. -/
def Field.read : Field → Option Read
  | .uuid _ | .title | .content | .sender | .items | .accountId => some .text
  | .other _ => none
  | _ => some .number

def Field.holds (f : Field) (v : Value) : Bool :=
  match f.read, v with
  | some .number, .number _ => true
  | some .text, .text _ => true
  | none, _ => true
  | _, _ => false

def assign (fields : Fields) (changes : List (Field × Value)) : Fields := fun f =>
  (changes.lookup f).or (fields f)

/-- A new unit has a number of its own; a new activity or cooldown replaces the one before. An error
of the store is swallowed by `database.lua`: the unit in memory is changed all the same. -/
def Account.step (env : Env) (s : Account) : Event → Option Account
  | .create name origin changes => do
    let fields ← origin.init env
    let key := origin.kind.key name
    guard (changes.all fun e => e.1.holds e.2)
    guard (key = .unit name → s.memory key = none)
    let fields := assign fields changes
    let store ← s.store.create origin.kind name fields
    some { memory := Function.update s.memory key (some { origin, fields }), store }
  | .update kind name changes names => do
    let item ← s.memory (kind.key name)
    guard (item.origin.kind = kind)
    guard (changes.all fun e => e.1.holds e.2)
    let fields := assign item.fields changes
    let store := (s.store.update kind name fields names).getD s.store
    some { memory := Function.update s.memory (kind.key name) (some { item with fields }), store }

def records (env : Env) : System Account Event where
  init := { memory := fun _ => none, store := { sets := fun _ => [], hashes := fun _ => none } }
  step := Account.step env

/-- An update names the fields that it changes and none that the unit lacks, or none of the fields
for all of them. -/
def Account.Names (s : Account) : Event → Prop
  | .create .. => True
  | .update kind name changes names => names = [] ∨ (∀ e ∈ changes, e.1 ∈ names) ∧
      ∀ item ∈ s.memory (kind.key name), ∀ f ∈ names, (assign item.fields changes f).isSome

end GameServer.Records
