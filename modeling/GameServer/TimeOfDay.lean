import GameServer.Calendar

/-!
# The next time of day

`Time.AddDateDay` goes from month to month, but the helpers it needs are called by the names
`IsLeapYear` and `AddDateYear`, which only exist as fields of `Time`. So it ends in an error when it
asks for the length of a February or leaves a year. `Time.nextDay` calls it when the time of day has
passed.
-/

namespace GameServer.Time

open Calendar

/-- A table of `os.date`. -/
@[ext] structure Date where
  year : ℤ
  month : ℤ
  day : ℤ
  hour : ℤ
  min : ℤ
  sec : ℤ
  deriving DecidableEq

inductive Part
  | sec | min | hour | day | month | year
  deriving DecidableEq

def DateDay : List Part := [.sec, .min, .hour, .day, .month, .year]

namespace Date

def get (dt : Date) : Part → ℤ
  | .sec => dt.sec
  | .min => dt.min
  | .hour => dt.hour
  | .day => dt.day
  | .month => dt.month
  | .year => dt.year

def ofParts (f : Part → ℤ) : Date :=
  ⟨f .year, f .month, f .day, f .hour, f .min, f .sec⟩

def onDay (dt : Date) : Day := ⟨dt.year, dt.month, dt.day⟩

/-- The same time of day on another day. -/
def withDay (dt : Date) (d : Day) : Date :=
  { dt with year := d.year, month := d.month, day := d.day }

structure Valid (dt : Date) : Prop where
  day : dt.onDay.Valid
  hour : 0 ≤ dt.hour ∧ dt.hour < 24
  min : 0 ≤ dt.min ∧ dt.min < 60
  sec : 0 ≤ dt.sec ∧ dt.sec < 60

/-- The seconds since midnight. -/
def seconds (dt : Date) : ℤ := 3600 * dt.hour + 60 * dt.min + dt.sec

end Date

/-! ## The clock -/

section Clock

-- the local time at which `os.time` is 0, in seconds from the begin of the year 1
variable (origin : ℤ)

/-- `os.time`, without daylight saving; hours past 24 count on. -/
def osTime (dt : Date) : ℤ := 86400 * dt.onDay.number + dt.seconds - origin

/-- `os.date("*t", t)` -/
def osDate (t : ℤ) : Date :=
  let s := t + origin
  let d := Day.ofNumber (s / 86400)
  ⟨d.year, d.month, d.day, s % 86400 / 3600, s % 3600 / 60, s % 60⟩

end Clock

/-! ## Names that no file assigns -/

namespace Global

def IsLeapYear (_year : ℤ) : Option Bool := none

def AddDateYear (_dt : Date) (_year : ℤ) : Option Date := none

def AddDateHour (_dt : Date) (_h : ℤ) : Option Date := none

def AddDateMin (_dt : Date) (_min : ℤ) : Option Date := none

def getMin (_a _b : ℤ) : Option ℤ := none

end Global

/-! ## Dates -/

/-- `s:byte(i)` -/
def byte (s : List ℤ) (i : ℤ) : Option ℤ :=
  let pos := if i < 0 then s.length + i + 1 else i
  if 1 ≤ pos then s[(pos - 1).toNat]? else none

def GetDaysInMonth (year month : ℤ) : Option ℤ := do
  let leap ← if month = 2 then Global.IsLeapYear year else some false
  if leap then some 29 else byte [31, 28, 31, 30, 31, 30, 31, 31, 30, 31, 30, 31] month

def AddDateYear (dt : Date) (year : ℤ) : Option Date := some { dt with year := dt.year + year }

def AddDateMonth (dt : Date) (month : ℤ) (clampDays : Bool) : Option Date := do
  let dt := { dt with month := dt.month + month }
  let dt ← if dt.month > 12 then Global.AddDateYear { dt with month := dt.month % 12 } 1
    else some dt
  if clampDays then do
    let maxDay ← GetDaysInMonth dt.year dt.month
    let day ← Global.getMin dt.day maxDay
    some { dt with day }
  else some dt

/-- The loop of `AddDateDay`; `none` also when the rounds given do not suffice. -/
def addDays : ℕ → Date → Option Date
  | 0, _ => none
  | rounds + 1, dt => do
    let maxDay ← GetDaysInMonth dt.year dt.month
    if dt.day > maxDay then do
      let dt ← AddDateMonth { dt with day := dt.day - maxDay } 1 false
      addDays rounds dt
    else some dt

def AddDateDay (dt : Date) (day : ℤ) : Option Date :=
  addDays ((dt.day + day).toNat + 1) { dt with day := dt.day + day }

def AddDateHour (dt : Date) (h : ℤ) : Option Date :=
  let dt := { dt with hour := dt.hour + h }
  if dt.hour > 24 then Global.AddDateHour { dt with hour := dt.hour % 24 } (dt.hour / 24)
  else some dt

def AddDateMin (dt : Date) (min : ℤ) : Option Date :=
  let dt := { dt with min := dt.min + min }
  if dt.min > 60 then Global.AddDateHour { dt with min := dt.min % 60 } (dt.min / 60)
  else some dt

/-- Seconds are added to the year. -/
def AddDate (dt : Date) (add : Part → Option ℤ) : Option Date := do
  let dt ← (add .year).elim (some dt) fun year => AddDateYear dt year
  let dt ← (add .month).elim (some dt) fun month => AddDateMonth dt month true
  let dt ← (add .day).elim (some dt) fun day => AddDateDay dt day
  let dt ← (add .hour).elim (some dt) fun h => AddDateHour dt h
  let dt ← (add .min).elim (some dt) fun min => AddDateMin dt min
  (add .sec).elim (some dt) fun sec => AddDateYear dt sec

/-- The loop that compares the parts from the last one down. -/
def isCarry (target dt : Date) : List Part → Bool
  | [] => false
  | p :: rest =>
      if target.get p > dt.get p then false
      else if target.get p < dt.get p then true
      else isCarry target dt rest

/-- `none` is an error, and `some none` the result `false`. -/
def nextDay (origin now : ℤ) (nextDate : Part → Option ℤ) : Option (Option Date) :=
  let given := DateDay.takeWhile fun p => (nextDate p).isSome
  match DateDay.drop given.length with
  | [] =>
      let target := Date.ofParts fun p => (nextDate p).getD 0
      if now > osTime origin target then some none else some (some target)
  | above :: _ =>
      if given = [] then some none
      else
        let dt := osDate origin now
        let target := Date.ofParts fun p => if p ∈ given then (nextDate p).getD 0 else dt.get p
        if isCarry target dt given.reverse then
          (AddDate target fun p => if p = above then some 1 else none).map some
        else some (some target)

/-- `{hour = hour, min = min, sec = sec}` -/
def timeOfDay (hour min sec : ℤ) : Part → Option ℤ
  | .hour => some hour
  | .min => some min
  | .sec => some sec
  | _ => none

def tomorrow (origin now : ℤ) : Option ℤ := do
  let target ← nextDay origin now (timeOfDay 24 0 0)
  target.map (osTime origin)

/-! ## The clock is consistent -/

variable {origin now t hour min sec : ℤ} {dt : Date}

theorem osTime_osDate (origin t : ℤ) : osTime origin (osDate origin t) = t := by
  have hday : (osDate origin t).onDay = Day.ofNumber ((t + origin) / 86400) := rfl
  rw [osTime, hday, Day.number_ofNumber]
  simp only [Date.seconds, osDate]
  omega

theorem valid_osDate (origin t : ℤ) : (osDate origin t).Valid where
  day := Day.valid_ofNumber _
  hour := by
    simp only [osDate]
    omega
  min := by
    simp only [osDate]
    omega
  sec := by
    simp only [osDate]
    omega

theorem Date.Valid.seconds_bounds (h : dt.Valid) : 0 ≤ dt.seconds ∧ dt.seconds < 86400 := by
  obtain ⟨-, hhour, hmin, hsec⟩ := h
  rw [Date.seconds]
  omega

theorem osDate_osTime (h : dt.Valid) : osDate origin (osTime origin dt) = dt := by
  have hbounds := h.seconds_bounds
  obtain ⟨hday, hhour, hmin, hsec⟩ := h
  have hnumber : (osTime origin dt + origin) / 86400 = dt.onDay.number := by
    rw [osTime]
    omega
  have hrest : (osTime origin dt + origin) % 86400 = dt.seconds := by
    rw [osTime]
    omega
  have hshort : (osTime origin dt + origin) % 3600 = dt.seconds % 3600 := by
    rw [osTime]
    omega
  simp only [osDate, hnumber, hrest, hshort, Day.ofNumber_number hday]
  ext
  · rfl
  · rfl
  · rfl
  · simp only [Date.seconds]
    omega
  · simp only [Date.seconds]
    omega
  · simp only [osTime, Date.seconds]
    omega

/-! ## Days ahead -/

theorem getDaysInMonth_eq (y : ℤ) {m : ℤ} (hm : 1 ≤ m) (hm' : m ≤ 12) (hfeb : m ≠ 2) :
    GetDaysInMonth y m = some (monthDays y m) := by
  interval_cases m <;> first | rfl | exact absurd rfl hfeb

theorem addDateMonth_eq (h : dt.month < 12) :
    AddDateMonth dt 1 false = some { dt with month := dt.month + 1 } := by
  have hle : ¬ dt.month + 1 > 12 := by omega
  simp [AddDateMonth, hle]

theorem addDateMonth_december (h : dt.month = 12) (hclamp : Bool) :
    AddDateMonth dt 1 hclamp = none := by
  simp [AddDateMonth, h, Global.AddDateYear]

theorem addDays_february (h : dt.month = 2) (rounds : ℕ) : addDays rounds dt = none := by
  cases rounds with
  | zero => rfl
  | succ rounds => simp [addDays, GetDaysInMonth, h, Global.IsLeapYear]

/-- The day that the loop is on the way to. -/
def Date.destination (dt : Date) : Day := Day.next^[(dt.day - 1).toNat] ⟨dt.year, dt.month, 1⟩

theorem destination_le (dt : Date) : dt.year < dt.destination.year ∨
    dt.year = dt.destination.year ∧ dt.month ≤ dt.destination.month :=
  Day.iterate_le ⟨dt.year, dt.month, 1⟩ _

theorem destination_within (h : 1 ≤ dt.day) (h' : dt.day ≤ monthDays dt.year dt.month) :
    dt.destination = dt.onDay := by
  rw [Date.destination, Day.iterate_within _ _ _ (by omega), Date.onDay]
  congr 1
  omega

theorem destination_month (h : monthDays dt.year dt.month < dt.day) (hm : dt.month < 12) :
    dt.destination =
      { dt with
        month := dt.month + 1
        day := dt.day - monthDays dt.year dt.month }.destination := by
  have hbounds := monthDays_bounds dt.year dt.month
  have hsplit : (dt.day - 1).toNat =
      (dt.day - monthDays dt.year dt.month - 1).toNat + (monthDays dt.year dt.month).toNat := by
    omega
  rw [Date.destination, hsplit, Function.iterate_add_apply, Day.iterate_month _ hm]
  rfl

theorem destination_december (h : 31 < dt.day) (hm : dt.month = 12) :
    dt.year < dt.destination.year := by
  have hsplit : (dt.day - 1).toNat = (dt.day - 32).toNat + 31 := by omega
  rw [Date.destination, hsplit, hm, Function.iterate_add_apply, Day.iterate_december]
  have hle := Day.iterate_le ⟨dt.year + 1, 1, 1⟩ (dt.day - 32).toNat
  dsimp only at hle
  omega

/-- From March on the loop ends within the year. -/
theorem addDays_late {rounds : ℕ} (hm : 3 ≤ dt.month) (hm' : dt.month ≤ 12) (hd : 1 ≤ dt.day)
    (hrounds : dt.day < rounds) : addDays rounds dt =
      if dt.destination.year = dt.year then some (dt.withDay dt.destination) else none := by
  induction rounds generalizing dt with
  | zero => omega
  | succ rounds ih =>
      have hlength := getDaysInMonth_eq dt.year (show 1 ≤ dt.month by omega) hm' (by omega)
      have hbounds := monthDays_bounds dt.year dt.month
      rw [addDays, hlength, Option.bind_eq_bind, Option.bind_some]
      by_cases hmore : dt.day > monthDays dt.year dt.month
      · rw [if_pos hmore]
        obtain ⟨short, hshort⟩ : ∃ short : Date,
            short = { dt with day := dt.day - monthDays dt.year dt.month } := ⟨_, rfl⟩
        have hmonth : short.month = dt.month := by rw [hshort]
        rw [← hshort]
        by_cases hdecember : dt.month = 12
        · rw [hdecember, monthDays_december] at hmore
          have hyear := destination_december hmore hdecember
          rw [addDateMonth_december (hmonth.trans hdecember), if_neg (by omega)]
          rfl
        · have hlt : dt.month < 12 := by omega
          rw [addDateMonth_eq (hmonth.trans_lt hlt), Option.bind_eq_bind, Option.bind_some, hshort,
            ih (by dsimp only; omega) (by dsimp only; omega) (by dsimp only; omega)
              (by dsimp only; push_cast at hrounds; omega), destination_month hmore hlt]
          rfl
      · rw [if_neg hmore, destination_within hd (not_lt.mp hmore)]
        exact (if_pos rfl).symm

/-- In January the loop ends if it does not get into February. -/
theorem addDays_january {rounds : ℕ} (hm : dt.month = 1) (hd : 1 ≤ dt.day) :
    addDays (rounds + 1) dt = if dt.day ≤ 31 then some dt else none := by
  have hlength : GetDaysInMonth dt.year dt.month = some 31 := by
    rw [hm]
    rfl
  rw [addDays, hlength, Option.bind_eq_bind, Option.bind_some]
  by_cases hmore : dt.day > 31
  · rw [if_pos hmore, if_neg (by omega), addDateMonth_eq (by dsimp only; omega),
      Option.bind_eq_bind, Option.bind_some]
    exact addDays_february (by dsimp only; omega) rounds
  · rw [if_neg hmore, if_pos (by omega)]

/-- The way from one day to the other stays in January, or between March and December. -/
def Steady (d e : Day) : Prop :=
  e.year = d.year ∧ (d.month = 1 ∧ e.month = 1 ∨ 3 ≤ d.month)

instance (d e : Day) : Decidable (Steady d e) := inferInstanceAs (Decidable (_ ∧ _))

theorem destination_add (hd : 1 ≤ dt.day) (hd' : dt.day ≤ monthDays dt.year dt.month) (n : ℕ) :
    { dt with day := dt.day + n }.destination = Day.next^[n] dt.onDay := by
  have hsplit : (dt.day + n - 1).toNat = n + (dt.day - 1).toNat := by omega
  rw [← destination_within hd hd', Date.destination, hsplit, Function.iterate_add_apply]
  rfl

theorem addDateDay_eq (h : dt.onDay.Valid) (n : ℕ) : AddDateDay dt n =
    if Steady dt.onDay (Day.next^[n] dt.onDay) then some (dt.withDay (Day.next^[n] dt.onDay))
    else none := by
  obtain ⟨hm, hm', hd, hd'⟩ := h
  obtain ⟨ahead, hahead⟩ : ∃ ahead : Date, ahead = { dt with day := dt.day + n } := ⟨_, rfl⟩
  have hyear : ahead.year = dt.year := by rw [hahead]
  have hmonth : ahead.month = dt.month := by rw [hahead]
  have hday : ahead.day = dt.day + n := by rw [hahead]
  have hdest := destination_add hd hd' n
  rw [← hahead] at hdest
  rw [AddDateDay, ← hahead, ← hdest]
  have hdays : 1 ≤ dt.day := hd
  by_cases hlate : 3 ≤ dt.month
  · rw [addDays_late (hmonth.symm ▸ hlate) (hmonth.symm ▸ hm') (by omega) (by push_cast; omega)]
    refine if_congr ⟨fun heq => ⟨heq.trans hyear, Or.inr hlate⟩,
      fun hsteady => hsteady.1.trans hyear.symm⟩ ?_ rfl
    rw [hahead]
    rfl
  · by_cases hjanuary : dt.month = 1
    · have hlength : monthDays ahead.year ahead.month = 31 := by
        rw [hmonth, hjanuary]
        rfl
      rw [addDays_january (hmonth.trans hjanuary) (by omega)]
      by_cases hmore : ahead.day ≤ 31
      · have hwithin := destination_within (show 1 ≤ ahead.day by omega) (hlength.symm ▸ hmore)
        rw [hwithin, if_pos hmore, if_pos]
        · rw [hahead]
          rfl
        · exact ⟨hyear, Or.inl ⟨hjanuary, hmonth.trans hjanuary⟩⟩
      · have hnext := destination_month (by rw [hlength]; omega) (by omega : ahead.month < 12)
        have hle : ahead.year < ahead.destination.year ∨
            ahead.year = ahead.destination.year ∧ ahead.month + 1 ≤ ahead.destination.month := by
          rw [hnext]
          exact destination_le _
        rw [if_neg hmore, if_neg]
        rintro ⟨hsame, ⟨-, hfirst⟩ | hlate'⟩
        · change ahead.destination.year = dt.year at hsame
          omega
        · exact hlate hlate'
    · have hfeb : dt.month = 2 := by
        change 1 ≤ dt.month at hm
        omega
      rw [addDays_february (hmonth.trans hfeb), if_neg]
      rintro ⟨-, ⟨hfirst, -⟩ | hlate'⟩
      · exact hjanuary hfirst
      · exact hlate hlate'

/-! ## The next time of day -/

/-- The earliest date not before now with a time of day. -/
structure Next (origin now hour min sec : ℤ) (d : Date) : Prop where
  valid : d.Valid
  hour_eq : d.hour = hour
  min_eq : d.min = min
  sec_eq : d.sec = sec
  not_before : now ≤ osTime origin d
  earliest : ∀ e : Date, e.Valid → e.hour = hour → e.min = min → e.sec = sec →
    now ≤ osTime origin e → osTime origin d ≤ osTime origin e

def withTime (dt : Date) (hour min sec : ℤ) : Date := { dt with hour, min, sec }

theorem addDate_day (dt : Date) :
    AddDate dt (fun p => if p = .day then some 1 else none) = AddDateDay dt 1 := by
  simp [AddDate]

theorem nextDay_eq (origin now hour min sec : ℤ) :
    nextDay origin now (timeOfDay hour min sec) =
      let dt := osDate origin now
      let target := withTime dt hour min sec
      if isCarry target dt [.hour, .min, .sec] then (AddDateDay target 1).map some
      else some (some target) := by
  dsimp only
  rw [← addDate_day]
  rfl

theorem isCarry_cons (target : Date) (p : Part) (rest : List Part) :
    isCarry target dt (p :: rest) = true ↔
      target.get p < dt.get p ∨ target.get p = dt.get p ∧ isCarry target dt rest = true := by
  rw [isCarry]
  rcases lt_trichotomy (target.get p) (dt.get p) with hlt | heq | hgt
  · rw [if_neg (by omega), if_pos hlt]
    exact iff_of_true rfl (Or.inl hlt)
  · rw [if_neg (by omega), if_neg (by omega)]
    exact ⟨fun h => Or.inr ⟨heq, h⟩, fun h => (h.resolve_left (by omega)).2⟩
  · rw [if_pos hgt]
    exact iff_of_false Bool.false_ne_true (by omega)

/-- The comparison says whether the time of day has passed. -/
theorem isCarry_iff (h : dt.Valid) (hmin : 0 ≤ min ∧ min < 60) (hsec : 0 ≤ sec ∧ sec < 60) :
    isCarry (withTime dt hour min sec) dt [.hour, .min, .sec] = true ↔
      3600 * hour + 60 * min + sec < dt.seconds := by
  obtain ⟨-, -, hmin', hsec'⟩ := h
  have hnil : isCarry (withTime dt hour min sec) dt [] = false := rfl
  rw [isCarry_cons, isCarry_cons, isCarry_cons, hnil]
  simp only [withTime, Date.get, Date.seconds, Bool.false_eq_true, and_false, or_false]
  omega

/-- A date with the time of day is the next one if the time had passed a day earlier. -/
theorem next_of_number {d : Date} (hd : d.Valid)
    (htime : d.hour = hour ∧ d.min = min ∧ d.sec = sec) (hfrom : now ≤ osTime origin d)
    (hbefore : osTime origin d - 86400 < now) : Next origin now hour min sec d where
  valid := hd
  hour_eq := htime.1
  min_eq := htime.2.1
  sec_eq := htime.2.2
  not_before := hfrom
  earliest e he hhour hmin hsec hnow := by
    have hsame : e.seconds = d.seconds := by
      rw [Date.seconds, Date.seconds, hhour, hmin, hsec, htime.1, htime.2.1, htime.2.2]
    unfold osTime at *
    omega

theorem steady_next {d : Day} (h : d.Valid) : Steady d d.next ↔
    ¬ (d.month = 2 ∨ d.day = 31 ∧ (d.month = 1 ∨ d.month = 12)) := by
  obtain ⟨hm, hm', hd, hd'⟩ := h
  have hbounds := monthDays_bounds d.year d.month
  have hjanuary : d.month = 1 → monthDays d.year d.month = 31 := fun h => by rw [h]; rfl
  have hdecember : d.month = 12 → monthDays d.year d.month = 31 := fun h => by rw [h]; rfl
  unfold Steady Day.next
  split_ifs with hday hmonth
  · constructor
    · rintro ⟨-, hsame⟩
      omega
    · exact fun hnot => ⟨rfl, by dsimp only; omega⟩
  · constructor
    · rintro ⟨-, ⟨hfirst, hsecond⟩ | hlate⟩
      · dsimp only at hsecond
        omega
      · omega
    · exact fun hnot => ⟨rfl, by dsimp only; omega⟩
  · constructor
    · rintro ⟨hyear, -⟩
      dsimp only at hyear
      omega
    · intro hnot
      omega

/-- `Time.nextDay` gives the next date with a time of day unless that time has passed today and
today is in February or is the last day of January or December. `Time.AddDateDay` gives the day `n`
days later if and only if the way there is steady. -/
theorem nextDay_addDateDay_iff (origin : ℤ) :
    (∀ now hour min sec, 0 ≤ hour ∧ hour < 24 → 0 ≤ min ∧ min < 60 → 0 ≤ sec ∧ sec < 60 →
      ((∃ d, nextDay origin now (timeOfDay hour min sec) = some (some d) ∧
          Next origin now hour min sec d) ↔
        (osDate origin now).seconds ≤ 3600 * hour + 60 * min + sec ∨
          ¬ ((osDate origin now).month = 2 ∨ (osDate origin now).day = 31 ∧
            ((osDate origin now).month = 1 ∨ (osDate origin now).month = 12)))) ∧
    ∀ dt : Date, dt.onDay.Valid → ∀ n : ℕ,
      (AddDateDay dt n = some (dt.withDay (Day.next^[n] dt.onDay)) ↔
        Steady dt.onDay (Day.next^[n] dt.onDay)) := by
  constructor
  · intro now hour min sec hhour hmin hsec
    have hnow := osTime_osDate origin now
    have hvalid := valid_osDate origin now
    generalize hdt : osDate origin now = dt at hnow hvalid
    have hseconds := hvalid.seconds_bounds
    have hsteady : Steady dt.onDay dt.onDay.next ↔ _ := steady_next hvalid.day
    change _ ↔ dt.seconds ≤ 3600 * hour + 60 * min + sec ∨
      ¬ (dt.onDay.month = 2 ∨ dt.onDay.day = 31 ∧ (dt.onDay.month = 1 ∨ dt.onDay.month = 12))
    rw [← hsteady, nextDay_eq, hdt]
    dsimp only
    unfold osTime at hnow
    by_cases hcarry : 3600 * hour + 60 * min + sec < dt.seconds
    · have htarget : (withTime dt hour min sec).onDay.Valid := hvalid.day
      have hadd : AddDateDay (withTime dt hour min sec) 1 = if Steady dt.onDay dt.onDay.next then
          some ((withTime dt hour min sec).withDay dt.onDay.next) else none :=
        addDateDay_eq htarget 1
      rw [if_pos ((isCarry_iff hvalid hmin hsec).mpr hcarry), hadd]
      by_cases hday : Steady dt.onDay dt.onDay.next
      · have hafter : osTime origin ((withTime dt hour min sec).withDay dt.onDay.next) =
            86400 * (dt.onDay.number + 1) + (3600 * hour + 60 * min + sec) - origin := by
          rw [← Day.number_next hvalid.day]
          rfl
        refine iff_of_true ⟨_, congrArg (Option.map some) (if_pos hday),
          next_of_number ⟨hvalid.day.next, hhour, hmin, hsec⟩ ⟨rfl, rfl, rfl⟩ ?_ ?_⟩ (Or.inr hday)
        · rw [hafter]
          omega
        · rw [hafter]
          omega
      · rw [if_neg hday]
        refine iff_of_false ?_ ?_
        · rintro ⟨d, hd, -⟩
          cases hd
        · rintro (hle | hday')
          · omega
          · exact hday hday'
    · rw [if_neg fun h => hcarry ((isCarry_iff hvalid hmin hsec).mp h)]
      have htoday : osTime origin (withTime dt hour min sec) =
          86400 * dt.onDay.number + (3600 * hour + 60 * min + sec) - origin := rfl
      refine iff_of_true ⟨_, rfl, next_of_number ⟨hvalid.day, hhour, hmin, hsec⟩ ⟨rfl, rfl, rfl⟩
        ?_ ?_⟩ (Or.inl (not_lt.mp hcarry))
      · rw [htoday]
        omega
      · rw [htoday]
        omega
  · intro dt hvalid n
    rw [addDateDay_eq hvalid]
    split_ifs with hsteady
    · exact iff_of_true rfl hsteady
    · exact iff_of_false (fun h => nomatch h) hsteady

theorem nextDay_addDateDay_iff_march :
    ((∃ d, nextDay 0 0 (timeOfDay 4 30 0) = some (some d) ∧ Next 0 0 4 30 0 d) ↔
      (osDate 0 0).seconds ≤ 3600 * 4 + 60 * 30 + 0 ∨
        ¬ ((osDate 0 0).month = 2 ∨ (osDate 0 0).day = 31 ∧
          ((osDate 0 0).month = 1 ∨ (osDate 0 0).month = 12))) ∧
    (AddDateDay ⟨2016, 3, 31, 4, 30, 0⟩ (30 : ℕ) =
        some (Date.withDay ⟨2016, 3, 31, 4, 30, 0⟩ (Day.next^[30] ⟨2016, 3, 31⟩)) ↔
      Steady ⟨2016, 3, 31⟩ (Day.next^[30] ⟨2016, 3, 31⟩)) :=
  ⟨(nextDay_addDateDay_iff 0).1 0 4 30 0 (by decide) (by decide) (by decide),
    (nextDay_addDateDay_iff 0).2 ⟨2016, 3, 31, 4, 30, 0⟩
      ⟨by decide, by decide, by decide, by decide⟩ 30⟩

/-- On 31 January at noon the time 4:30 has passed, and the length of February is asked for; from
31 December there is no next day either. -/
theorem nextDay_january :
    (¬ ∀ origin now hour min sec, 0 ≤ hour ∧ hour < 24 → 0 ≤ min ∧ min < 60 → 0 ≤ sec ∧ sec < 60 →
      ∃ d, nextDay origin now (timeOfDay hour min sec) = some (some d) ∧
        Next origin now hour min sec d) ∧
    osDate 0 2635200 = ⟨1, 1, 31, 12, 0, 0⟩ ∧ nextDay 0 2635200 (timeOfDay 4 30 0) = none ∧
      AddDateDay ⟨2016, 12, 31, 4, 30, 0⟩ (1 : ℕ) = none := by
  have hvalid : (⟨1, 1, 31, 12, 0, 0⟩ : Date).Valid :=
    ⟨⟨by decide, by decide, by decide, by decide⟩, by decide, by decide, by decide⟩
  have htime : osTime 0 ⟨1, 1, 31, 12, 0, 0⟩ = 2635200 := by decide
  have hdate : osDate 0 2635200 = ⟨1, 1, 31, 12, 0, 0⟩ := by rw [← htime, osDate_osTime hvalid]
  have herror : nextDay 0 2635200 (timeOfDay 4 30 0) = none := by
    rw [nextDay_eq, hdate]
    rfl
  refine ⟨fun hall => ?_, hdate, herror, rfl⟩
  obtain ⟨d, hd, -⟩ := hall 0 2635200 4 30 0 (by decide) (by decide) (by decide)
  rw [herror] at hd
  cases hd

/-- Midnight, which is written as the hour 24 of today, never has passed. -/
theorem tomorrow_eq (origin now : ℤ) :
    tomorrow origin now = some (now - (now + origin) % 86400 + 86400) := by
  have hvalid := valid_osDate origin now
  have hnow := osTime_osDate origin now
  have hbounds := hvalid.seconds_bounds
  have hcarry : ¬ isCarry (withTime (osDate origin now) 24 0 0) (osDate origin now)
      [.hour, .min, .sec] = true := by
    rw [isCarry_iff hvalid (by decide) (by decide)]
    omega
  rw [tomorrow, nextDay_eq]
  dsimp only
  rw [if_neg hcarry, Option.bind_eq_bind, Option.bind_some, Option.map_some, Option.some.injEq]
  have htarget : osTime origin (withTime (osDate origin now) 24 0 0) =
      86400 * (osDate origin now).onDay.number + 86400 - origin := rfl
  unfold osTime at hnow
  rw [htarget]
  omega

end GameServer.Time
