import GameServer.SpellCast

/-!
# One effect of a cast

Where the flag `isSheule` is set, the costs schedule the effect, and nothing but a break between the
costs and the end of `onReady` comes in between. Where it is not, the countdown in the spell fires
in the first update, whatever the update has come to; that is right where the same update has paid.
-/

namespace GameServer.SpellCast

open Transition

namespace Cast

/-- The time of the updates since the cast, where one counts for `ε` at most. -/
def waited (self : Cast) (ε : ℚ) : ℚ := (self.ticks.map (min ε)).sum

/-- The time that a cast takes at most, where one update counts for `ε` at most. -/
def patience (self : Cast) (ε : ℚ) : ℚ :=
  max 0 self.skillTimes.ready + max 0 (delay self.skilldata self.skillTimes) + ε

end Cast

/-- What is due of a cast. -/
structure OneEffect (s : State) (c : Cast) : Prop where
  once : c.fired ≤ 1
  broken : c.broken → c.fired = 0
  paid : 0 < c.fired → c.cost.isSome
  /-- Updates that count for more than the cast takes have fired it. -/
  fires : s.point = .idle → ¬ c.broken → ∀ ε, 0 < ε → c.patience ε < c.waited ε → c.fired = 1

/-- The update is between the costs and the end of `onReady`. -/
def Point.paying : Point → Bool
  | .costed _ => true
  | .synced _ => true
  | _ => false

/-- The flag is set, or the first update pays; no break comes behind the costs in `onReady`. -/
def OK (s : State) : Label → Prop
  | .castSkill skilldata skillTimes => s.spell.isSheule ∨ 0 ≤ startTrigger skilldata skillTimes
  | .breakSpell => s.point.paying = false
  | .update _ => True
  | .resume hp mp _ => match s.point with
    | .passives dt => s.spell.status = .Ready → s.spell.isSheule = false →
        s.spell.readyTime - dt < 0 ∧
          s.spell.skilldata.all fun skilldata => Casting.canCost skilldata.toSkillData hp mp
    | _ => True

instance (s : State) (l : Label) : Decidable (OK s l) := by
  unfold OK
  split
  case h_4 => split <;> infer_instance
  all_goals infer_instance

/-! ## Where a cast stands -/

/-- The part of the running update that a cast in `Ready` has not had. -/
def Point.underway (ε : ℚ) : Point → ℚ
  | .passives dt => min ε dt
  | _ => 0

@[simp] theorem Point.underway_idle {ε : ℚ} : Point.underway ε .idle = 0 := rfl

@[simp] theorem Point.underway_passives {ε dt : ℚ} :
    Point.underway ε (.passives dt) = min ε dt := rfl

/-- The point is before the costs, or outside an update. -/
def Point.Between (p : Point) : Prop := p = .idle ∨ ∃ dt, p = .passives dt

@[simp] theorem Point.not_between_costed {dt : ℚ} : ¬ (Point.costed dt).Between := by
  simp [Point.Between]

@[simp] theorem Point.not_between_synced {dt : ℚ} : ¬ (Point.synced dt).Between := by
  simp [Point.Between]

@[simp] theorem Point.not_between_triggers : ¬ Point.triggers.Between := by
  simp [Point.Between]

/-- The cast is not broken and has not fired, and no child is for it. -/
structure Fresh (s : State) (k : ℕ) (c : Cast) : Prop where
  broken : c.broken = false
  fired : c.fired = 0
  children : ∀ ss ∈ s.sheduleSpells, ss.cast ≠ k

/-- The spell object holds another cast, or does nothing more for this one. -/
def Quiet (s : State) (k : ℕ) : Prop :=
  s.spell.cast = k → s.point.Between ∧ s.spell.status ≠ .Ready ∧
    (s.spell.isSheule = false → s.spell.triggerTime < 0 ∨ s.spell.status = .None)

/-- The spell object is in `Ready` for the cast, before the costs. -/
structure Prepares (s : State) (k : ℕ) (c : Cast) : Prop extends Fresh s k c where
  holds : s.spell.cast = k
  status : s.spell.status = .Ready
  point : s.point.Between
  unpaid : c.cost = none
  trigger : s.spell.triggerTime ≤ max 0 (delay c.skilldata c.skillTimes)
  fires : s.spell.isSheule = false → s.spell.triggerTime = 0
  time : ∀ ε, 0 < ε → c.waited ε + max 0 s.spell.readyTime ≤
    max 0 c.skillTimes.ready + s.point.underway ε

/-- The costs of the cast are paid, and nothing is scheduled. -/
structure Pays (s : State) (k : ℕ) (c : Cast) : Prop extends Fresh s k c where
  holds : s.spell.cast = k
  status : s.spell.status = .Ready
  point : ∃ dt, s.point = .costed dt ∨ s.point = .synced dt ∧ s.spell.isSheule = false
  paid : c.cost.isSome
  trigger : s.spell.triggerTime ≤ max 0 (delay c.skilldata c.skillTimes)
  fires : s.spell.isSheule = false → s.spell.triggerTime = 0
  time : ∀ ε, 0 < ε → c.waited ε ≤ max 0 c.skillTimes.ready + ε

inductive Stage (s : State) (k : ℕ) (c : Cast) : Prop
  | ready (h : Prepares s k c)
  | costed (h : Pays s k c)
  | waiting (ss : SheduleSpell) (child : ss ∈ s.sheduleSpells) (cast : ss.cast = k)
      (alive : ss.isDead = false) (flag : s.spell.isSheule)
      (point : s.spell.cast = k → s.point.Between ∧ s.spell.status ≠ .Ready ∨
        ∃ dt, s.point = .synced dt)
      (unbroken : c.broken = false) (unfired : c.fired = 0) (paid : c.cost.isSome)
      (time : ∀ ε, 0 < ε → c.waited ε + max 0 ss.lifetime ≤ c.patience ε)
  | triggers (holds : s.spell.cast = k) (point : s.point = .triggers) (fresh : Fresh s k c)
      (paid : c.cost.isSome) (flag : s.spell.isSheule = false)
      (status : s.spell.status ≠ .Ready)
      (fires : s.spell.triggerTime < 0 ∨ s.spell.status = .None)
  | done (quiet : Quiet s k) (children : ∀ ss ∈ s.sheduleSpells, ss.cast = k → ss.isDead)
      (unbroken : c.broken = false) (fired : c.fired = 1) (paid : c.cost.isSome)
  | broken (quiet : Quiet s k) (children : ∀ ss ∈ s.sheduleSpells, ss.cast ≠ k)
      (broken : c.broken) (unfired : c.fired = 0)

structure Invariant (s : State) : Prop where
  stages : ∀ k c, s.casts[k]? = some c → Stage s k c
  distinct : (s.sheduleSpells.map SheduleSpell.cast).Nodup
  known : ∀ ss ∈ s.sheduleSpells, ss.cast < s.casts.length
  /-- The spell object runs for a cast. -/
  holds : s.spell.status ≠ .None ∨ s.point = .triggers → s.spell.cast < s.casts.length
  paying : ∀ dt, s.point = .costed dt ∨ s.point = .synced dt → s.spell.status = .Ready
  positive : ∀ dt, s.point = .passives dt ∨ s.point = .costed dt ∨ s.point = .synced dt → 0 < dt

variable {s s' : State} {k : ℕ} {c : Cast} {dt : ℚ}

theorem Cast.patience_pos {ε : ℚ} (hε : 0 < ε) : max 0 c.skillTimes.ready < c.patience ε := by
  have hdelay := le_max_left 0 (delay c.skilldata c.skillTimes)
  unfold Cast.patience
  linarith

theorem Stage.oneEffect (h : Stage s k c) : OneEffect s c := by
  cases h with
  | ready h =>
      refine ⟨by rw [h.fired]; decide, fun _ => h.fired, fun hpos => absurd h.fired hpos.ne',
        fun hidle _ ε hε hlong => ?_⟩
      have htime := h.time ε hε
      rw [hidle, Point.underway_idle, add_zero] at htime
      have hready := le_max_left 0 s.spell.readyTime
      linarith [c.patience_pos hε]
  | costed h =>
      refine ⟨by rw [h.fired]; decide, fun _ => h.fired, fun _ => h.paid, fun hidle => ?_⟩
      obtain ⟨dt, hpoint⟩ := h.point
      simp [hidle] at hpoint
  | waiting ss _ _ _ _ _ unbroken unfired paid time =>
      refine ⟨by rw [unfired]; decide, fun _ => unfired, fun _ => paid, fun _ _ ε hε hlong => ?_⟩
      have htime := time ε hε
      have hleft := le_max_left 0 ss.lifetime
      linarith
  | triggers _ point fresh paid =>
      refine ⟨by rw [fresh.fired]; decide, fun _ => fresh.fired, fun _ => paid, fun hidle => ?_⟩
      rw [hidle] at point
      cases point
  | done _ _ unbroken fired paid =>
      refine ⟨fired.le, fun h => ?_, fun _ => paid, fun _ _ _ _ _ => fired⟩
      rw [unbroken] at h
      cases h
  | broken _ _ broken unfired =>
      exact ⟨by rw [unfired]; decide, fun _ => unfired, fun h => absurd unfired h.ne',
        fun _ h => absurd broken h⟩

/-! ## One step -/

/-- A cast that the spell object leaves, or has left, stands where it stood. -/
theorem Stage.other (h : Stage s k c)
    (hrest : s.spell.cast = k → s.spell.status ≠ .Ready ∧ s.point ≠ .triggers)
    (hleft : s'.spell.cast ≠ k) (hflag : s.spell.isSheule → s'.spell.isSheule)
    (hchildren : ∀ ss : SheduleSpell, ss.cast = k →
      (ss ∈ s'.sheduleSpells ↔ ss ∈ s.sheduleSpells)) : Stage s' k c := by
  have hquiet : Quiet s' k := fun h => absurd h hleft
  cases h with
  | ready h => exact absurd h.status (hrest h.holds).1
  | costed h => exact absurd h.status (hrest h.holds).1
  | waiting ss child cast alive flag point unbroken unfired paid time =>
      exact .waiting ss ((hchildren ss cast).mpr child) cast alive (hflag flag)
        (fun h => absurd h hleft) unbroken unfired paid time
  | triggers holds point => exact absurd point (hrest holds).2
  | done quiet children unbroken fired paid =>
      exact .done hquiet (fun ss hss hcast => children ss ((hchildren ss hcast).mp hss) hcast)
        unbroken fired paid
  | broken quiet children broken unfired =>
      exact .broken hquiet (fun ss hss hcast => children ss ((hchildren ss hcast).mp hss) hcast)
        broken unfired

theorem invariant_castSkill (hinv : Invariant s) (hidle : s.point = .idle)
    (hnone : s.spell.status = .None) {skilldata : Skill} {skillTimes : SkillTimes}
    (hok : OK s (.castSkill skilldata skillTimes)) :
    Invariant (s.castSkill skilldata skillTimes) where
  stages k c hc := by
    rcases lt_or_ge k s.casts.length with hlt | hge
    · rw [State.castSkill, List.getElem?_append_left hlt] at hc
      refine (hinv.stages k c hc).other (fun _ => ?_) hlt.ne' (fun h => ?_) fun ss _ => Iff.rfl
      · rw [hnone, hidle]
        exact ⟨by decide, by decide⟩
      · simp [State.castSkill, Spell.init, h]
    · rw [State.castSkill, List.getElem?_append_right hge, List.getElem?_singleton,
        Option.ite_none_right_eq_some, Option.some.injEq] at hc
      obtain ⟨hk, rfl⟩ := hc
      obtain rfl : k = s.casts.length := by omega
      refine .ready ⟨⟨rfl, rfl, fun ss hss => (hinv.known ss hss).ne⟩, rfl, rfl, .inl hidle, rfl,
        le_max_right _ _, fun hflag => ?_, fun ε hε => ?_⟩
      · simp only [State.castSkill, Spell.init, Bool.or_eq_false_iff, decide_eq_false_iff_not,
          not_lt] at hflag
        obtain ⟨hstart, hflag⟩ := hflag
        have hzero : startTrigger skilldata skillTimes = 0 :=
          le_antisymm hstart (hok.resolve_left (by simp [hflag]))
        simp [State.castSkill, Spell.init, delay, hzero]
      · simp [State.castSkill, Spell.init, Cast.waited, hidle]
  distinct := hinv.distinct
  known ss hss := by
    have := hinv.known ss hss
    simp only [State.castSkill, List.length_append, List.length_singleton]
    omega
  holds _ := by simp [State.castSkill]
  paying dt h := by
    simp only [State.castSkill, hidle] at h
    rcases h with h | h <;> cases h
  positive dt h := by
    simp only [State.castSkill, hidle] at h
    rcases h with h | h | h <;> cases h

theorem getElem?_record (f : Cast → Cast) (k : ℕ) :
    (s.record f).casts[k]? = (s.casts[k]?).map fun c => if s.spell.cast = k then f c else c :=
  List.getElem?_modify ..

/-- A spell that does not get ready keeps what it has fired or scheduled. -/
theorem Stage.quiet (h : Stage s k c) (hbetween : s.point.Between)
    (hready : s.spell.status ≠ .Ready) (hcast : s'.spell.cast = s.spell.cast)
    (hflag : s'.spell.isSheule = s.spell.isSheule) (hchildren : s'.sheduleSpells = s.sheduleSpells)
    (hpoint : s'.point.Between) (hstatus : s'.spell.status ≠ .Ready)
    (hfires : s.spell.triggerTime < 0 ∨ s.spell.status = .None →
      s'.spell.triggerTime < 0 ∨ s'.spell.status = .None) : Stage s' k c := by
  have hquiet : Quiet s k → Quiet s' k := by
    intro hquiet hk
    rw [hcast] at hk
    exact ⟨hpoint, hstatus, fun h => hfires ((hquiet hk).2.2 (hflag ▸ h))⟩
  cases h with
  | ready h => exact absurd h.status hready
  | costed h => exact absurd h.status hready
  | triggers _ point => simp [point] at hbetween
  | waiting ss child cast alive flag point unbroken unfired paid time =>
      exact .waiting ss (hchildren ▸ child) cast alive (hflag ▸ flag)
        (fun _ => .inl ⟨hpoint, hstatus⟩) unbroken unfired paid time
  | done quiet children unbroken fired paid =>
      exact .done (hquiet quiet) (hchildren ▸ children) unbroken fired paid
  | broken quiet children broken unfired =>
      exact .broken (hquiet quiet) (hchildren ▸ children) broken unfired

theorem Stage.prepares (h : Stage s k c) (hk : s.spell.cast = k)
    (hready : s.spell.status = .Ready) (hbetween : s.point.Between) : Prepares s k c := by
  cases h with
  | ready h => exact h
  | costed h =>
      obtain ⟨dt, hpoint | ⟨hpoint, -⟩⟩ := h.point <;> simp [hpoint] at hbetween
  | triggers _ _ _ _ _ status => exact absurd hready status
  | waiting _ _ _ _ _ point =>
      obtain ⟨-, hstatus⟩ | ⟨dt, hpoint⟩ := point hk
      · exact absurd hready hstatus
      · simp [hpoint] at hbetween
  | done quiet => exact absurd hready (quiet hk).2.1
  | broken quiet => exact absurd hready (quiet hk).2.1

/-- A break in `Ready`, before the costs. -/
theorem Stage.breakReady (h : Stage s k c) (hbetween : s.point.Between)
    (hready : s.spell.status = .Ready) (hpoint : s'.point.Between)
    (hspell : s'.spell.cast = s.spell.cast) (hnone : s'.spell.status = .None)
    (hflag : s'.spell.isSheule = s.spell.isSheule)
    (hchildren : s'.sheduleSpells = s.sheduleSpells) :
    Stage s' k (if s.spell.cast = k then { c with broken := true } else c) := by
  split_ifs with hk
  · have hquiet : Quiet s' k := fun _ => ⟨hpoint, by rw [hnone]; decide, fun _ => .inr hnone⟩
    have hprepares := h.prepares hk hready hbetween
    exact .broken hquiet (hchildren ▸ hprepares.children) rfl hprepares.fired
  · exact h.other (fun h => absurd h hk) (by rwa [hspell]) (fun h => hflag ▸ h)
      fun ss _ => by rw [hchildren]

/-- What else an invariant says where no child comes or goes. -/
theorem Invariant.of_stages (hinv : Invariant s)
    (hstages : ∀ k c, s'.casts[k]? = some c → Stage s' k c)
    (hchildren : s'.sheduleSpells = s.sheduleSpells) (hlength : s'.casts.length = s.casts.length)
    (hcast : s'.spell.cast = s.spell.cast)
    (hholds : s.spell.status ≠ .None ∨ s.point = .triggers)
    (hpaying : ∀ dt, s'.point = .costed dt ∨ s'.point = .synced dt → s'.spell.status = .Ready)
    (hpositive : ∀ dt, s'.point = .passives dt ∨ s'.point = .costed dt ∨ s'.point = .synced dt →
      0 < dt) : Invariant s' where
  stages := hstages
  distinct := hchildren ▸ hinv.distinct
  known ss hss := hlength ▸ hinv.known ss (hchildren ▸ hss)
  holds _ := by
    rw [hcast, hlength]
    exact hinv.holds hholds
  paying := hpaying
  positive := hpositive

/-- The stage of the cast that the spell object runs for. -/
theorem Invariant.current (hinv : Invariant s)
    (h : s.spell.status ≠ .None ∨ s.point = .triggers) : ∃ c, Stage s s.spell.cast c :=
  ⟨_, hinv.stages _ _ (List.getElem?_eq_getElem (hinv.holds h))⟩

theorem Invariant.between (hinv : Invariant s) (hready : s.spell.status = .Ready)
    (hpoint : s.point.paying = false) : s.point.Between := by
  obtain ⟨c, hstage⟩ := hinv.current (.inl (by rw [hready]; decide))
  cases hstage with
  | ready h => exact h.point
  | costed h =>
      obtain ⟨dt, h | ⟨h, -⟩⟩ := h.point <;> simp [h, Point.paying] at hpoint
  | waiting _ _ _ _ _ point =>
      obtain ⟨h, -⟩ | ⟨dt, h⟩ := point rfl
      · exact h
      · simp [h, Point.paying] at hpoint
  | triggers _ _ _ _ _ status => exact absurd hready status
  | done quiet => exact (quiet rfl).1
  | broken quiet => exact (quiet rfl).1

theorem breakSpell_of_ready (hready : s.spell.status = .Ready) : s.breakSpell =
    { s.record (fun c => { c with broken := true }) with spell := s.spell.clear } := by
  rw [State.breakSpell, if_pos hready]
  rfl

theorem breakSpell_of_not_ready (hready : s.spell.status ≠ .Ready) :
    s.breakSpell = { s with spell := s.spell.clear } := by
  rw [State.breakSpell, if_neg hready]

theorem Stage.breakSpell (h : Stage s k c) (hready : s.spell.status ≠ .Ready) :
    Stage { s with spell := s.spell.clear } k c := by
  cases h with
  | ready h => exact absurd h.status hready
  | costed h => exact absurd h.status hready
  | triggers holds point fresh paid flag =>
      exact .triggers holds point ⟨fresh.broken, fresh.fired, fresh.children⟩ paid flag
        (by simp [Spell.clear]) (.inr rfl)
  | waiting ss child cast alive flag point unbroken unfired paid time =>
      refine .waiting ss child cast alive flag (fun hk => ?_) unbroken unfired paid time
      exact (point hk).imp_left fun h => ⟨h.1, by simp [Spell.clear]⟩
  | done quiet children unbroken fired paid =>
      exact .done (fun hk => ⟨(quiet hk).1, by simp [Spell.clear], fun _ => .inr rfl⟩) children
        unbroken fired paid
  | broken quiet children broken unfired =>
      exact .broken (fun hk => ⟨(quiet hk).1, by simp [Spell.clear], fun _ => .inr rfl⟩) children
        broken unfired

theorem invariant_breakSpell (hinv : Invariant s) (hok : OK s .breakSpell) :
    Invariant s.breakSpell := by
  have hpaying : ∀ dt, ¬ (s.point = .costed dt ∨ s.point = .synced dt) := by
    have hok : s.point.paying = false := hok
    rintro dt (h | h) <;> simp [h, Point.paying] at hok
  by_cases hready : s.spell.status = .Ready
  · have hbetween := hinv.between hready hok
    rw [breakSpell_of_ready hready]
    refine hinv.of_stages (fun k c hc => ?_) rfl (List.length_modify ..) rfl
      (.inl (by rw [hready]; decide)) (fun dt h => absurd h (hpaying dt)) hinv.positive
    dsimp only at hc
    rw [getElem?_record, Option.map_eq_some_iff] at hc
    obtain ⟨c, hc, rfl⟩ := hc
    exact (hinv.stages k c hc).breakReady hbetween hready hbetween rfl rfl rfl rfl
  · rw [breakSpell_of_not_ready hready]
    exact ⟨fun k c hc => (hinv.stages k c hc).breakSpell hready, hinv.distinct, hinv.known,
      fun h => hinv.holds (.inr (h.resolve_left (by simp [Spell.clear]))),
      fun dt h => absurd h (hpaying dt), hinv.positive⟩

/-! ### The children -/

theorem mem_updatesheduleSpell {ss : SheduleSpell} :
    ss ∈ (s.updatesheduleSpell dt).sheduleSpells ↔
      ∃ old ∈ s.sheduleSpells, old.isDead = false ∧ old.update dt = ss := by
  simp [State.updatesheduleSpell, and_assoc]

/-- How many children fire for a cast. -/
def firing (s : State) (dt : ℚ) (k : ℕ) : ℕ :=
  s.sheduleSpells.countP fun ss => ss.fires dt && ss.cast == k

theorem firing_eq_zero (h : ∀ ss ∈ s.sheduleSpells, ss.cast = k → ss.fires dt = false) :
    firing s dt k = 0 := by
  refine List.countP_eq_zero.mpr fun ss hss => ?_
  by_cases hk : ss.cast = k
  · simp [h ss hss hk]
  · simp [hk]

theorem firing_eq_one (hdistinct : (s.sheduleSpells.map SheduleSpell.cast).Nodup)
    {ss : SheduleSpell} (hss : ss ∈ s.sheduleSpells) (hfires : ss.fires dt) :
    firing s dt ss.cast = 1 := by
  have hle : firing s dt ss.cast ≤ (s.sheduleSpells.map SheduleSpell.cast).count ss.cast := by
    rw [List.count, List.countP_map]
    exact List.countP_mono_left fun _ _ h => (Bool.and_eq_true_iff.mp h).2
  have hone := List.nodup_iff_count_le_one.mp hdistinct ss.cast
  have hpos : 0 < firing s dt ss.cast :=
    List.countP_pos_iff.mpr ⟨ss, hss, by simp [hfires]⟩
  omega

theorem waited_cons {ε : ℚ} {c : Cast} {n : ℕ} :
    Cast.waited { c with ticks := dt :: c.ticks, fired := n } ε = min ε dt + c.waited ε := by
  simp [Cast.waited]

theorem Stage.update (h : Stage s k c) (hidle : s.point = .idle)
    (hdistinct : (s.sheduleSpells.map SheduleSpell.cast).Nodup) :
    Stage { s.updatesheduleSpell dt with point := .passives dt } k
      { c with ticks := dt :: c.ticks, fired := c.fired + firing s dt k } := by
  have hnone : (∀ ss ∈ s.sheduleSpells, ss.cast ≠ k) → firing s dt k = 0 ∧
      ∀ ss ∈ (s.updatesheduleSpell dt).sheduleSpells, ss.cast ≠ k := by
    intro hchildren
    refine ⟨firing_eq_zero fun ss hss hcast => absurd hcast (hchildren ss hss), fun ss hss => ?_⟩
    obtain ⟨old, hold, -, rfl⟩ := mem_updatesheduleSpell.mp hss
    exact hchildren old hold
  have hquiet : Quiet s k →
      Quiet { s.updatesheduleSpell dt with point := .passives dt } k :=
    fun h hk => ⟨.inr ⟨dt, rfl⟩, (h hk).2⟩
  cases h with
  | ready h =>
      obtain ⟨hfiring, hchildren⟩ := hnone h.children
      refine .ready ⟨⟨h.broken, by simp [h.fired, hfiring], hchildren⟩, h.holds, h.status,
        .inr ⟨dt, rfl⟩, h.unpaid, h.trigger, h.fires, fun ε hε => ?_⟩
      have htime := h.time ε hε
      rw [hidle, Point.underway_idle] at htime
      simp only [State.updatesheduleSpell, waited_cons, Point.underway_passives]
      linarith
  | costed h =>
      obtain ⟨dt, hpoint⟩ := h.point
      simp [hidle] at hpoint
  | triggers _ point =>
      rw [hidle] at point
      cases point
  | waiting ss child cast alive flag point unbroken unfired paid time =>
      have hspell : s.spell.cast = k → s.spell.status ≠ .Ready := by
        intro hk
        obtain ⟨-, h⟩ | ⟨dt, h⟩ := point hk
        · exact h
        · rw [hidle] at h
          cases h
      subst cast
      by_cases hfires : ss.fires dt = true
      · refine .done (fun hk => ⟨.inr ⟨dt, rfl⟩, hspell hk, fun h => ?_⟩) (fun new hnew hcast => ?_)
          unbroken (by simp [unfired, firing_eq_one hdistinct child hfires]) paid
        · exact absurd (flag.symm.trans h) (by decide)
        · obtain ⟨old, hold, -, rfl⟩ := mem_updatesheduleSpell.mp hnew
          obtain rfl := List.inj_on_of_nodup_map hdistinct hold child hcast
          simp [SheduleSpell.update, hfires]
      · refine .waiting (ss.update dt) (mem_updatesheduleSpell.mpr ⟨ss, child, alive, rfl⟩) rfl
          (by simp [SheduleSpell.update, alive, hfires]) flag
          (fun hk => .inl ⟨.inr ⟨dt, rfl⟩, hspell hk⟩) unbroken ?_ paid fun ε hε => ?_
        · have hfiring : firing s dt ss.cast = 0 := firing_eq_zero fun other hother hcast => by
            rw [List.inj_on_of_nodup_map hdistinct hother child hcast]
            exact Bool.eq_false_iff.mpr hfires
          simp [unfired, hfiring]
        · have hleft : 0 ≤ ss.lifetime - dt := by
            simpa [SheduleSpell.fires, alive] using hfires
          have hmin := min_le_right ε dt
          have hlifetime := le_max_right 0 ss.lifetime
          have htime := time ε hε
          rw [waited_cons, SheduleSpell.update, max_eq_right hleft]
          change min ε dt + c.waited ε + (ss.lifetime - dt) ≤ c.patience ε
          linarith
  | done quiet children unbroken fired paid =>
      refine .done (hquiet quiet) (fun new hnew hcast => ?_) unbroken ?_ paid
      · obtain ⟨old, hold, halive, rfl⟩ := mem_updatesheduleSpell.mp hnew
        rw [children old hold hcast] at halive
        cases halive
      · have hfiring : firing s dt k = 0 := firing_eq_zero fun ss hss hcast => by
          simp [SheduleSpell.fires, children ss hss hcast]
        simp [fired, hfiring]
  | broken quiet children broken unfired =>
      obtain ⟨hfiring, hchildren⟩ := hnone children
      exact .broken (hquiet quiet) hchildren broken (by simp [unfired, hfiring])

theorem invariant_update (hinv : Invariant s) (hidle : s.point = .idle) (hdt : 0 < dt) :
    Invariant { s.updatesheduleSpell dt with point := .passives dt } where
  stages k c hc := by
    simp only [State.updatesheduleSpell, List.getElem?_mapIdx, Option.map_eq_some_iff] at hc
    obtain ⟨c, hc, rfl⟩ := hc
    exact (hinv.stages k c hc).update hidle hinv.distinct
  distinct := by
    have hcast : ((s.updatesheduleSpell dt).sheduleSpells.map SheduleSpell.cast) =
        (s.sheduleSpells.filter fun ss => !ss.isDead).map SheduleSpell.cast := by
      simp [State.updatesheduleSpell, SheduleSpell.update, Function.comp_def]
    exact hcast ▸ hinv.distinct.sublist (List.filter_sublist.map _)
  known ss hss := by
    obtain ⟨old, hold, -, rfl⟩ := mem_updatesheduleSpell.mp hss
    simpa [State.updatesheduleSpell, SheduleSpell.update] using hinv.known old hold
  holds h := by
    have hstatus : s.spell.status ≠ .None := h.resolve_right (by simp)
    simpa [State.updatesheduleSpell] using hinv.holds (.inl hstatus)
  paying dt' h := by rcases h with h | h <;> cases h
  positive dt' h := by
    rcases h with h | h | h <;> cases h
    exact hdt

/-! ### The rest of an update -/

theorem advanceEffect_of_rest (dt : ℚ) (hdt : 0 < dt)
    (h : s.spell.isSheule ∨ s.spell.triggerTime < 0) : ∃ t ≤ s.spell.triggerTime,
      s.advanceEffect dt =
        { s with spell := { s.spell with triggerTime := t }, point := .idle } := by
  unfold State.advanceEffect
  by_cases htime : s.spell.triggerTime ≥ 0
  · have hflag : s.spell.isSheule = true := h.resolve_right (not_lt.mpr htime)
    refine ⟨s.spell.triggerTime - dt, by linarith, ?_⟩
    simp [htime, hflag]
  · exact ⟨s.spell.triggerTime, le_rfl, by rw [if_neg htime]⟩

theorem advanceEffect_of_fires (hdt : 0 < dt) (hflag : s.spell.isSheule = false)
    (hzero : s.spell.triggerTime = 0) : s.advanceEffect dt =
      { s with spell := { s.spell with triggerTime := 0 - dt }, point := .triggers } := by
  simp [State.advanceEffect, hzero, hflag, hdt]

theorem invariant_none (hinv : Invariant s) (hbetween : s.point.Between)
    (hnone : s.spell.status = .None) : Invariant { s with point := .idle } where
  stages k c hc := (hinv.stages k c hc).quiet hbetween (by rw [hnone]; decide) rfl rfl rfl
    (.inl rfl) (by rw [hnone]; decide) id
  distinct := hinv.distinct
  known := hinv.known
  holds h := hinv.holds (.inl (h.resolve_right (by simp)))
  paying dt h := by rcases h with h | h <;> cases h
  positive dt h := by rcases h with h | h | h <;> cases h

/-- The spell is in `Cast` or in `End`. -/
theorem invariant_running (hinv : Invariant s) (hbetween : s.point.Between) (hdt : 0 < dt)
    (hready : s.spell.status ≠ .Ready) (hnone : s.spell.status ≠ .None) {spell : Spell}
    (hcast : spell.cast = s.spell.cast) (hflag : spell.isSheule = s.spell.isSheule)
    (htime : spell.triggerTime = s.spell.triggerTime) (hstatus : spell.status ≠ .Ready) :
    Invariant ({ s with spell }.advanceEffect dt) := by
  have hrest : s.spell.isSheule ∨ s.spell.triggerTime < 0 := by
    have hquiet : Quiet s s.spell.cast → s.spell.isSheule ∨ s.spell.triggerTime < 0 := by
      intro h
      by_cases hsheule : s.spell.isSheule = true
      · exact .inl hsheule
      · exact .inr (((h rfl).2.2 (Bool.eq_false_iff.mpr hsheule)).resolve_right hnone)
    obtain ⟨c, hstage⟩ := hinv.current (.inl hnone)
    cases hstage with
    | ready h => exact absurd h.status hready
    | costed h => exact absurd h.status hready
    | waiting _ _ _ _ flag => exact .inl flag
    | triggers _ point => simp [point] at hbetween
    | done quiet => exact hquiet quiet
    | broken quiet => exact hquiet quiet
  obtain ⟨t, ht, hadvance⟩ :=
    advanceEffect_of_rest (s := { s with spell }) dt hdt (hflag ▸ htime ▸ hrest)
  rw [hadvance]
  refine hinv.of_stages (fun k c hc => ?_) rfl rfl hcast (.inl hnone) (fun dt h => ?_)
    fun dt h => ?_
  · refine (hinv.stages k c hc).quiet hbetween hready hcast hflag rfl (.inl rfl) hstatus ?_
    intro h
    have hneg := h.resolve_right hnone
    dsimp only at ht
    exact .inl (by linarith)
  · rcases h with h | h <;> cases h
  · rcases h with h | h | h <;> cases h

theorem Stage.prepare (h : Stage s k c) (hpoint : s.point = .passives dt)
    (hready : s.spell.status = .Ready) (hflag : s.spell.isSheule = true)
    (hleft : 0 ≤ s.spell.readyTime - dt) {t : ℚ} (ht : t ≤ s.spell.triggerTime) :
    Stage { s with
      spell := { s.spell with readyTime := s.spell.readyTime - dt, triggerTime := t }
      point := .idle } k c := by
  by_cases hk : s.spell.cast = k
  · have h := h.prepares hk hready (.inr ⟨dt, hpoint⟩)
    refine .ready ⟨⟨h.broken, h.fired, h.children⟩, h.holds, h.status, .inl rfl, h.unpaid,
      ht.trans h.trigger, fun h => absurd (hflag.symm.trans h) (by decide), fun ε hε => ?_⟩
    have htime := h.time ε hε
    have hmin := min_le_right ε dt
    have hmax := le_max_right 0 s.spell.readyTime
    rw [hpoint, Point.underway_passives] at htime
    rw [max_eq_right hleft, Point.underway_idle]
    linarith
  · exact h.other (fun h => absurd h hk) hk id fun ss _ => Iff.rfl

theorem Stage.pay (h : Stage s k c) (hpoint : s.point = .passives dt)
    (hready : s.spell.status = .Ready) (r : ℚ) (cost : ℚ × ℚ) (f : Cast → Cast) :
    Stage { { s with spell := { s.spell with readyTime := r } }.record f with
      point := .costed dt } k (if s.spell.cast = k then { c with cost := some cost } else c) := by
  split_ifs with hk
  · have h := h.prepares hk hready (.inr ⟨dt, hpoint⟩)
    refine .costed ⟨⟨h.broken, h.fired, h.children⟩, hk, hready, ⟨dt, .inl rfl⟩, rfl, h.trigger,
      h.fires, fun ε hε => ?_⟩
    have htime := h.time ε hε
    have hmin := min_le_left ε dt
    have hmax := le_max_left 0 s.spell.readyTime
    rw [hpoint, Point.underway_passives] at htime
    change c.waited ε ≤ max 0 c.skillTimes.ready + ε
    linarith
  · exact h.other (fun h => absurd h hk) hk id fun ss _ => Iff.rfl

theorem invariant_onReady (hinv : Invariant s) (hpoint : s.point = .passives dt)
    (hready : s.spell.status = .Ready) {hp mp : ℚ} {switched : Bool}
    (hok : OK s (.resume hp mp switched)) (hstep : s.onReady dt hp mp = some s') :
    Invariant s' := by
  have hdt := hinv.positive dt (.inl hpoint)
  have hholds : s.spell.status ≠ .None := by
    rw [hready]
    decide
  have hpays : s.spell.isSheule = false → s.spell.readyTime - dt < 0 ∧
      s.spell.skilldata.all fun skilldata => Casting.canCost skilldata.toSkillData hp mp := by
    simp only [OK, hpoint] at hok
    exact hok hready
  simp only [State.onReady] at hstep
  split_ifs at hstep with hleft
  · obtain ⟨skilldata, hskill, rfl⟩ := Option.map_eq_some_iff.mp hstep
    split_ifs with hcost
    · have hflag : s.spell.isSheule = true := by
        by_contra h
        have hcosts := (hpays (Bool.eq_false_iff.mpr h)).2
        rw [hskill, Option.all_some] at hcosts
        exact absurd (hcosts.symm.trans hcost) (by decide)
      rw [breakSpell_of_ready (by exact hready)]
      obtain ⟨t, -, hadvance⟩ := advanceEffect_of_rest (s := { s.record (fun c =>
        { c with broken := true }) with spell := { s.spell with
          readyTime := s.spell.readyTime - dt }.clear }) dt hdt (.inl hflag)
      refine (congrArg Invariant hadvance).mpr ?_
      refine hinv.of_stages (fun k c hc => ?_) rfl (List.length_modify ..) rfl (.inl hholds)
        (fun dt h => ?_) fun dt h => ?_
      · dsimp only at hc
        rw [getElem?_record, Option.map_eq_some_iff] at hc
        obtain ⟨c, hc, rfl⟩ := hc
        exact (hinv.stages k c hc).breakReady (.inr ⟨dt, hpoint⟩) hready (.inl rfl) rfl rfl rfl rfl
      · rcases h with h | h <;> cases h
      · rcases h with h | h | h <;> cases h
    · refine hinv.of_stages (fun k c hc => ?_) rfl (List.length_modify ..) rfl (.inl hholds)
        (fun _ _ => hready) fun dt' h => ?_
      · dsimp only at hc
        rw [getElem?_record, Option.map_eq_some_iff] at hc
        obtain ⟨c, hc, rfl⟩ := hc
        exact (hinv.stages k c hc).pay hpoint hready _ _ _
      · rcases h with h | h | h <;> cases h
        exact hdt
  · cases hstep
    have hflag : s.spell.isSheule = true := by
      by_contra h
      exact hleft (hpays (Bool.eq_false_iff.mpr h)).1
    obtain ⟨t, ht, hadvance⟩ := advanceEffect_of_rest
      (s := { s with spell := { s.spell with readyTime := s.spell.readyTime - dt } }) dt hdt
      (.inl hflag)
    rw [hadvance]
    refine hinv.of_stages (fun k c hc => (hinv.stages k c hc).prepare hpoint hready hflag
      (not_lt.mp hleft) ht) rfl rfl rfl (.inl hholds) (fun dt h => ?_) fun dt h => ?_
    · rcases h with h | h <;> cases h
    · rcases h with h | h | h <;> cases h

theorem Stage.pays (h : Stage s k c) (hk : s.spell.cast = k) (hready : s.spell.status = .Ready)
    (hpoint : s.point = .costed dt ∨ s.point = .synced dt ∧ s.spell.isSheule = false) :
    Pays s k c := by
  have hbetween : ¬ s.point.Between := by
    rcases hpoint with h | ⟨h, -⟩ <;> simp [h]
  cases h with
  | ready h => exact absurd h.point hbetween
  | costed h => exact h
  | triggers _ _ _ _ _ status => exact absurd hready status
  | waiting _ _ _ _ flag point =>
      obtain ⟨h, -⟩ | ⟨dt', h⟩ := point hk
      · exact absurd h hbetween
      · simp [h, flag] at hpoint
  | done quiet => exact absurd hready (quiet hk).2.1
  | broken quiet => exact absurd hready (quiet hk).2.1

/-- Behind the costs there is a child, or the effect is due at once. -/
theorem Stage.schedule (h : Stage s k c) (hpoint : s.point = .costed dt)
    (hready : s.spell.status = .Ready) : Stage (s.schedule dt) k c := by
  by_cases hk : s.spell.cast = k
  · have h := h.pays hk hready (.inl hpoint)
    by_cases hflag : s.spell.isSheule = true
    · refine .waiting ⟨s.spell.triggerTime, false, s.spell.cast⟩ ?_ hk rfl hflag
        (fun _ => .inr ⟨dt, rfl⟩) h.broken h.fired h.paid fun ε hε => ?_
      · simp [State.schedule, hflag]
      · have htime := h.time ε hε
        have hleft := max_le (le_max_left 0 _) h.trigger
        unfold Cast.patience
        dsimp only
        linarith
    · have hflag := Bool.eq_false_iff.mpr hflag
      refine .costed ⟨⟨h.broken, h.fired, ?_⟩, hk, hready, ⟨dt, .inr ⟨rfl, hflag⟩⟩, h.paid,
        h.trigger, h.fires, h.time⟩
      simpa [State.schedule, hflag] using h.children
  · refine h.other (fun h => absurd h hk) hk id fun ss hss => ?_
    have hne : ss ≠ ⟨s.spell.triggerTime, false, s.spell.cast⟩ := by
      rintro rfl
      exact hk hss
    unfold State.schedule
    split_ifs
    · simp [hne]
    · rfl

theorem invariant_schedule (hinv : Invariant s) (hpoint : s.point = .costed dt) :
    Invariant (s.schedule dt) := by
  have hready := hinv.paying dt (.inl hpoint)
  have hdt := hinv.positive dt (.inr (.inl hpoint))
  have hrunning : s.spell.status ≠ .None := by
    rw [hready]
    decide
  have hholds := hinv.holds (.inl hrunning)
  have hchildren : ∀ ss ∈ s.sheduleSpells, ss.cast ≠ s.spell.cast := by
    obtain ⟨c, hstage⟩ := hinv.current (.inl hrunning)
    exact (hstage.pays rfl hready (.inl hpoint)).children
  refine ⟨fun k c hc => (hinv.stages k c hc).schedule hpoint hready, ?_, fun ss hss => ?_,
    fun _ => hholds, fun _ _ => hready, fun dt' h => ?_⟩
  · unfold State.schedule
    dsimp only
    split_ifs
    · rw [List.map_append, List.nodup_append]
      refine ⟨hinv.distinct, List.nodup_singleton _, fun a ha b hb => ?_⟩
      obtain ⟨ss, hss, rfl⟩ := List.mem_map.mp ha
      obtain rfl := List.mem_singleton.mp hb
      exact hchildren ss hss
    · exact hinv.distinct
  · unfold State.schedule at hss
    dsimp only at hss
    split_ifs at hss
    · rcases List.mem_append.mp hss with hss | hss
      · exact hinv.known ss hss
      · obtain rfl := List.mem_singleton.mp hss
        exact hholds
    · exact hinv.known ss hss
  · rcases h with h | h | h <;> cases h
    exact hdt

theorem Stage.synced (h : Stage s k c) (hpoint : s.point = .synced dt)
    (hflag : s.spell.isSheule = true) {t : ℚ} :
    Stage { s with spell := { s.spell with status := .Cast, triggerTime := t }, point := .idle }
      k c := by
  by_cases hk : s.spell.cast = k
  · have hbetween : ¬ s.point.Between := by simp [hpoint]
    cases h with
    | ready h => exact absurd h.point hbetween
    | costed h =>
        obtain ⟨dt', h⟩ := h.point
        simp [hpoint, hflag] at h
    | triggers _ point => simp [hpoint] at point
    | waiting ss child cast alive flag point unbroken unfired paid time =>
        exact .waiting ss child cast alive flag
          (fun _ => .inl ⟨.inl rfl, by simp⟩) unbroken unfired paid time
    | done quiet => exact absurd (quiet hk).1 hbetween
    | broken quiet => exact absurd (quiet hk).1 hbetween
  · exact h.other (fun h => absurd h hk) hk id fun ss _ => Iff.rfl

/-- A cast that is not scheduled is due at once. -/
theorem Stage.synced_fires (h : Stage s k c) (hpoint : s.point = .synced dt) (hdt : 0 < dt)
    (hready : s.spell.status = .Ready) (hflag : s.spell.isSheule = false) :
    Stage { s with
      spell := { s.spell with status := .Cast, triggerTime := 0 - dt }, point := .triggers }
        k c := by
  by_cases hk : s.spell.cast = k
  · have h := h.pays hk hready (.inr ⟨hpoint, hflag⟩)
    exact .triggers hk rfl ⟨h.broken, h.fired, h.children⟩ h.paid hflag (by simp)
      (.inl (by simpa using hdt))
  · exact h.other (fun h => absurd h hk) hk id fun ss _ => Iff.rfl

theorem invariant_synced (hinv : Invariant s) (hpoint : s.point = .synced dt) :
    Invariant ({ s with spell := { s.spell with status := .Cast } }.advanceEffect dt) := by
  have hready := hinv.paying dt (.inr hpoint)
  have hdt := hinv.positive dt (.inr (.inr hpoint))
  have hrunning : s.spell.status ≠ .None := by
    rw [hready]
    decide
  by_cases hflag : s.spell.isSheule = true
  · obtain ⟨t, -, hadvance⟩ := advanceEffect_of_rest
      (s := { s with spell := { s.spell with status := .Cast } }) dt hdt (.inl hflag)
    rw [hadvance]
    refine hinv.of_stages (fun k c hc => (hinv.stages k c hc).synced hpoint hflag) rfl rfl rfl
      (.inl hrunning) (fun dt h => ?_) fun dt h => ?_
    · rcases h with h | h <;> cases h
    · rcases h with h | h | h <;> cases h
  · have hflag := Bool.eq_false_iff.mpr hflag
    have hzero : s.spell.triggerTime = 0 := by
      obtain ⟨c, hstage⟩ := hinv.current (.inl hrunning)
      exact (hstage.pays rfl hready (.inr ⟨hpoint, hflag⟩)).fires hflag
    rw [advanceEffect_of_fires hdt (by exact hflag) (by exact hzero)]
    refine hinv.of_stages (fun k c hc => (hinv.stages k c hc).synced_fires hpoint hdt hready hflag)
      rfl rfl rfl (.inl hrunning) (fun dt h => ?_) fun dt h => ?_
    · rcases h with h | h <;> cases h
    · rcases h with h | h | h <;> cases h

theorem Stage.triggers_fires (h : Stage s k c) (hpoint : s.point = .triggers)
    {f : Cast → Cast} : Stage { s.record f with point := .idle } k
      (if s.spell.cast = k then { c with fired := c.fired + 1 } else c) := by
  split_ifs with hk
  · cases h with
    | triggers holds point fresh paid flag status fires =>
        exact .done (fun _ => ⟨.inl rfl, status, fun _ => fires⟩)
          (fun ss hss hcast => absurd hcast (fresh.children ss hss)) fresh.broken
          (by simp [fresh.fired]) paid
    | ready h =>
        have hbetween := h.point
        simp [hpoint] at hbetween
    | costed h =>
        obtain ⟨dt, h⟩ := h.point
        simp [hpoint] at h
    | waiting _ _ _ _ _ point => simpa [hpoint] using point hk
    | done quiet =>
        have hbetween := (quiet hk).1
        simp [hpoint] at hbetween
    | broken quiet =>
        have hbetween := (quiet hk).1
        simp [hpoint] at hbetween
  · exact h.other (fun h => absurd h hk) hk id fun ss _ => Iff.rfl

theorem invariant_triggers (hinv : Invariant s) (hpoint : s.point = .triggers) :
    Invariant { s.record fun c => { c with fired := c.fired + 1 } with point := .idle } := by
  refine hinv.of_stages (fun k c hc => ?_) rfl (List.length_modify ..) rfl (.inr hpoint)
    (fun dt h => ?_) fun dt h => ?_
  · dsimp only at hc
    rw [getElem?_record, Option.map_eq_some_iff] at hc
    obtain ⟨c, hc, rfl⟩ := hc
    exact (hinv.stages k c hc).triggers_fires hpoint
  · rcases h with h | h <;> cases h
  · rcases h with h | h | h <;> cases h

theorem onCast_frame (self : Spell) (dt : ℚ) : (self.onCast dt).cast = self.cast ∧
    (self.onCast dt).isSheule = self.isSheule ∧ (self.onCast dt).triggerTime = self.triggerTime ∧
    (self.status ≠ .Ready → (self.onCast dt).status ≠ .Ready) := by
  unfold Spell.onCast
  dsimp only
  split_ifs <;> simp

theorem onEnd_frame (self : Spell) (dt : ℚ) (switched : Bool) :
    (self.onEnd dt switched).cast = self.cast ∧
    (self.onEnd dt switched).isSheule = self.isSheule ∧
    (self.onEnd dt switched).triggerTime = self.triggerTime ∧
    (self.status ≠ .Ready → (self.onEnd dt switched).status ≠ .Ready) := by
  unfold Spell.onEnd
  dsimp only
  split_ifs <;> simp

theorem invariant_step {l : Label} (hinv : Invariant s) (hok : OK s l)
    (hstep : step s l = some s') :
    Invariant s' := by
  cases l with
  | castSkill skilldata skillTimes =>
      simp only [step, Option.ite_none_right_eq_some, Option.some.injEq] at hstep
      obtain ⟨⟨hidle, hnone⟩, rfl⟩ := hstep
      exact invariant_castSkill hinv hidle hnone hok
  | breakSpell =>
      cases hstep
      exact invariant_breakSpell hinv hok
  | update dt =>
      simp only [step, Option.ite_none_right_eq_some, Option.some.injEq] at hstep
      obtain ⟨⟨hidle, hdt⟩, rfl⟩ := hstep
      exact invariant_update hinv hidle hdt
  | resume hp mp switched =>
      simp only [step] at hstep
      cases hpoint : s.point with
      | idle => simp [hpoint] at hstep
      | passives dt =>
          have hbetween : s.point.Between := .inr ⟨dt, hpoint⟩
          have hdt := hinv.positive dt (.inl hpoint)
          rw [hpoint] at hstep
          dsimp only at hstep
          cases hstatus : s.spell.status with
          | None =>
              rw [hstatus] at hstep
              cases hstep
              exact invariant_none hinv hbetween hstatus
          | Ready =>
              rw [hstatus] at hstep
              exact invariant_onReady hinv hpoint hstatus hok hstep
          | Cast =>
              rw [hstatus] at hstep
              cases hstep
              have hready : s.spell.status ≠ .Ready := by
                rw [hstatus]
                decide
              obtain ⟨hcast, hflag, htime, hframe⟩ := onCast_frame s.spell dt
              exact invariant_running hinv hbetween hdt hready (by rw [hstatus]; decide) hcast hflag
                htime (hframe hready)
          | End =>
              rw [hstatus] at hstep
              cases hstep
              have hready : s.spell.status ≠ .Ready := by
                rw [hstatus]
                decide
              obtain ⟨hcast, hflag, htime, hframe⟩ := onEnd_frame s.spell dt switched
              exact invariant_running hinv hbetween hdt hready (by rw [hstatus]; decide) hcast hflag
                htime (hframe hready)
      | costed dt =>
          rw [hpoint] at hstep
          cases hstep
          exact invariant_schedule hinv hpoint
      | synced dt =>
          rw [hpoint] at hstep
          cases hstep
          exact invariant_synced hinv hpoint
      | triggers =>
          rw [hpoint] at hstep
          cases hstep
          exact invariant_triggers hinv hpoint

/-- Where the flag is set or the first update pays, and no break comes between the costs and the end
of `onReady`, every cast has the effect that is due. -/
theorem effects_once (h : system.Runs OK s) : ∀ c ∈ s.casts, OneEffect s c := by
  have hinit : Invariant system.init := by
    refine ⟨fun k c hc => ?_, List.nodup_nil, fun ss hss => ?_, fun h => ?_, fun dt h => ?_,
      fun dt h => ?_⟩
    · simp [system] at hc
    · simp [system] at hss
    · simp [system] at h
    · simp [system] at h
    · simp [system] at h
  have hinv := h.invariant hinit fun _ _ _ hinv hok hstep => invariant_step hinv hok hstep
  intro c hc
  obtain ⟨k, hk⟩ := List.mem_iff_getElem?.mp hc
  exact (hinv.stages k c hk).oneEffect

/-- Mana and health do not matter to it, and it has no cooldown. -/
def plainSkill (n32TriggerTime : ℚ) : Skill := ⟨⟨1, 1, 0, 0, 0, 0, 0, 0, 0, 0⟩, n32TriggerTime⟩

/-- A cast of a quarter of a second with its effect behind 150 ms, in updates of 60 ms. -/
theorem effects_once_scheduled : ∃ s, system.Runs OK s ∧ s.casts.map Cast.fired = [1] ∧
    ∀ c ∈ s.casts, OneEffect s c := by
  have hrun : ((system.guarded OK).run system.init
      [.castSkill (plainSkill (3 / 20)) ⟨100, 100, 50, 0⟩, .update 60, .resume 100 100 false,
        .update 60, .resume 100 100 false, .resume 100 100 false, .resume 100 100 false,
        .update 60]).map (fun s => s.casts.map Cast.fired) = some [1] := by decide +kernel
  obtain ⟨s, hs, hfired⟩ := Option.map_eq_some_iff.mp hrun
  have hruns := System.Runs.of_guarded_run _ .init hs
  exact ⟨s, hruns, hfired, effects_once hruns⟩

/-- A skill without a trigger time fires in the first update, before its costs. -/
theorem fires_unpaid : ∃ s, system.Reachable s ∧
    s.casts.map (fun c => (c.fired, c.cost)) = [(1, none)] ∧ ¬ ∀ c ∈ s.casts, OneEffect s c := by
  have hrun : (system.run system.init
      [.castSkill (plainSkill 0) ⟨100, 100, 50, 0⟩, .update 30, .resume 100 100 false,
        .resume 100 100 false]).map (fun s => s.casts.map fun c => (c.fired, c.cost)) =
      some [(1, none)] := by decide +kernel
  obtain ⟨s, hs, hread⟩ := Option.map_eq_some_iff.mp hrun
  refine ⟨s, System.reachable_of_run _ hs, hread, fun h => ?_⟩
  obtain ⟨c, hcasts, hc⟩ := List.map_eq_singleton_iff.mp hread
  obtain ⟨hfired, hcost⟩ := Prod.mk.inj hc
  have hpaid := (h c (by simp [hcasts])).paid (by simp [hfired])
  rw [hcost] at hpaid
  cases hpaid

end GameServer.SpellCast
