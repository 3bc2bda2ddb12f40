import GameServer.AgentFrame

/-!
# Awards of missions

`REQUEST.recvMissionAward` while missions advance. The flag that marks an award as taken is raised
after the items are handed out.
-/

namespace GameServer.Awards

open Goods Agent Cooperative Coroutine AgentService

/-- `DEF.MissionType.daily` -/
def daily : ℤ := 0

/-- `DEF.MissionType.achivement` -/
def achivement : ℤ := 1

structure MissionData (w : World) where
  DailyMissionId : ℤ
  /-- `Quest.Arena[level].DailyReward` -/
  DailyReward : ℤ → Option ℤ
  /-- The rows of a series are of one type. -/
  series : ∀ id id' dat dat', w.missionRepository id = some dat →
    w.missionRepository id' = some dat' →
    Macro_GetMissionSerialId id = Macro_GetMissionSerialId id' → dat.n32Type = dat'.n32Type

/-- The award of a series for a row, or for the day that ends at `key`. -/
structure Award where
  serId : ℤ
  daily : Bool
  key : ℤ
  deriving DecidableEq

/-- Where a request waits: in `getDailyMission`, `addItems`, `updateMission` or `AdvanceMission`. -/
inductive Place
  | reset (dataId : ℤ)
  | items (award : Award)
  | update (award : Award)
  | advance
  deriving DecidableEq

structure History where
  /-- The awards whose items were passed to `addItems`. -/
  granted : List Award
  /-- The awards of the replies that all is well. -/
  replies : List Award
  deriving Inhabited

variable {w : World}

abbrev State (w : World) := Session w Place History

abbrev Step (w : World) (α : Type) := Code w Place History α

def note (f : History → History) : Step w Unit := modify fun s => { s with history := f s.history }

/-! ## `REQUEST.recvMissionAward` -/

def getDailyMission (q : MissionData w) (op : Place) : Step w Unit := do
  let s ← get
  let serId := Macro_GetMissionSerialId q.DailyMissionId
  match Missions.getMission s.missions serId with
  | none => .raise
  | some v => Coroutine.when (v.time < s.clock.now) do
      set { s with
        missions := Missions.setMission s.missions serId
          { v with time := s.clock.tomorrow, flag := 0, progress := 0 } }
      Coroutine.call op

def getMissionByDataId (q : MissionData w) (op : Place) (dataId : ℤ) :
    Step w (Option (Mission w)) := do
  let serId := Macro_GetMissionSerialId dataId
  Coroutine.when (serId = Macro_GetMissionSerialId q.DailyMissionId) (getDailyMission q op)
  let s ← get
  return Missions.getMission s.missions serId

def completed (unit : Mission w) : Bool := Missions.isMissionCompleted (Missions.rowOf unit) unit

/-- The error code, or `none` to go on. -/
def checks (dat : MissionRow) (unit : Mission w) : Option ℤ :=
  if dat.n32Type = daily then
    if completed unit = false then some 1
    else if unit.flag > 0 then some (-1)
    else none
  else if dat.n32Type = achivement then
    if unit.flag > unit.dataId then some (-1)
    else if completed unit = false ∧ unit.flag = unit.dataId then some 1
    else none
  else none

def awardOf (serId : ℤ) (dat : MissionRow) (unit : Mission w) : Award where
  serId := serId
  daily := dat.n32Type = daily
  key := if dat.n32Type = daily then unit.time else unit.flag

def awardItems (q : MissionData w) (dat : MissionRow) (unit : Mission w) : Step w IntTable := do
  if dat.n32Type = daily then
    let s ← get
    match q.DailyReward s.user.level with
    | none => .raise
    | some package => act fun env => do draw (usePackageItem env package (← get).level)
  else if dat.n32Type = achivement then
    match w.missionRepository unit.flag with
    | none => .raise
    | some awardDat => return [awardDat.szAwards]
  else return []

/-- `unit.flag = unit.flag + 1` -/
def received (serId : ℤ) : Step w Unit := modify fun s =>
  match Missions.getMission s.missions serId with
  | some v => { s with missions :=
      Missions.setMission s.missions serId { v with flag := wrap (v.flag + 1) } }
  | none => s

/-- What the check found completed: the row of an achievement, the day of the daily mission. -/
def foundCompleted (serId : ℤ) (dat : MissionRow) (unit : Mission w) : List (ℤ × ℤ) :=
  if completed unit then [(serId, if dat.n32Type = daily then unit.time else unit.dataId)] else []

/-- The items are on their way to `addItems`. -/
def grant (award : Award) (done : List (ℤ × ℤ)) : Step w Unit := modify fun s => { s with
  completed := s.completed ++ done
  history := { s.history with granted := s.history.granted ++ [award] } }

/-- The award is handed out, then it is marked as taken. -/
def sendAward (q : MissionData w) (dat : MissionRow) (unit : Mission w) (award : Award) :
    Step w ℤ := do
  let items ← awardItems q dat unit
  grant award (foundCompleted award.serId dat unit)
  discard (addItems (.items award) items)
  received award.serId
  Missions.updateMission (.update award) award.serId
  note fun h => { h with replies := h.replies ++ [award] }
  return 0

/-- The request, once its mission is looked up. -/
def checkAward (q : MissionData w) (dataId : ℤ) (unit : Option (Mission w)) : Step w ℤ := do
  match w.missionRepository dataId, unit with
  | some dat, some unit =>
      match checks dat unit with
      | some errorCode => return errorCode
      | none => sendAward q dat unit (awardOf (Macro_GetMissionSerialId dataId) dat unit)
  | _, _ => return -1

def recvMissionAward (q : MissionData w) (dataId : ℤ) : Step w ℤ := do
  let unit ← getMissionByDataId q (.reset dataId) dataId
  checkAward q dataId unit

/-- The award that a request is about to hand out. -/
def asked (s : State w) (dataId : ℤ) : Option Award := do
  let dat ← w.missionRepository dataId
  let unit ← Missions.getMission s.missions (Macro_GetMissionSerialId dataId)
  if checks dat unit = none then some (awardOf (Macro_GetMissionSerialId dataId) dat unit) else none

/-! ## The server -/

inductive Request
  | recvMissionAward (dataId : ℤ)
  | AdvanceMission (content : MissionContent)

def handle (q : MissionData w) : Request → Step w Unit
  | .recvMissionAward dataId => discard (recvMissionAward q dataId)
  | .AdvanceMission content => Missions.AdvanceMission .advance content

/-- The change from outside is that time goes on. -/
def server (q : MissionData w) : Server (State w) Place Request Clock where
  handle := handle q
  outside clock s := { s with clock }

/-- Any request at any time; tomorrow is always to come. -/
def anyOrder (w : World) : Server.Guard (State w) Place Request Clock where
  request _ _ _ := True
  resume _ _ _ := True
  outside s _ clock := s.clock.now ≤ clock.now ∧ clock.now < clock.tomorrow

/-- A mission as registration creates it. -/
structure Fresh (q : MissionData w) (serId : ℤ) (v : Mission w) : Prop where
  serial : Macro_GetMissionSerialId v.dataId = serId
  range : 0 ≤ v.dataId ∧ v.dataId < maxinteger
  daily : serId = Macro_GetMissionSerialId q.DailyMissionId →
    (Missions.rowOf v).n32Type = daily ∧ v.flag = 0
  step : serId ≠ Macro_GetMissionSerialId q.DailyMissionId →
    (Missions.rowOf v).n32Type = achivement ∧ v.flag = v.dataId

/-- The state at registration. -/
structure Registered (q : MissionData w) (s : State w) : Prop where
  fresh : ∀ serId v, Missions.getMission s.missions serId = some v → Fresh q serId v
  clock : s.clock.now < s.clock.tomorrow
  granted : s.history.granted = []
  replies : s.history.replies = []

end GameServer.Awards
