import GameServer.Battle
import GameServer.EventAnswers

/-!
# Which clients learn why the health changed

`maskHpMpChange` gathers the reasons of all changes since the last answer, whoever got that answer.
`addHp` answers at once, `addMp` leaves it to the next update. A client sends a query when it has
none that waits. `log` keeps what was gathered and answered. A client that does not wait when
another is answered misses the reasons that the answer carried.
-/

namespace GameServer.EventStamp

open Transition

namespace HpMpMask

def SkillHp : BitVec 64 := 1
def SkillMp : BitVec 64 := 1 <<< 16

end HpMpMask

def Reply.mask : Reply → BitVec 64
  | .hpMp _ _ _ _ mask => mask
  | _ => 0

/-- All bits of `a` are in `b`. -/
def Within (a b : BitVec 64) : Prop := a ||| b = b

instance (a b : BitVec 64) : Decidable (Within a b) := inferInstanceAs (Decidable (_ = _))

section Within

variable {a b : BitVec 64}

theorem Within.trans {d : BitVec 64} (h : Within a b) (h' : Within b d) : Within a d := by
  unfold Within at *
  rw [← h', ← BitVec.or_assoc, h]

theorem within_or_left (a b : BitVec 64) : Within a (a ||| b) := by
  rw [Within, ← BitVec.or_assoc, BitVec.or_self]

theorem within_or_right (a b : BitVec 64) : Within a (b ||| a) := by
  rw [BitVec.or_comm]
  exact within_or_left a b

theorem Within.or_right (h : Within a b) (m : BitVec 64) : Within (a ||| m) (b ||| m) := by
  unfold Within at *
  rw [BitVec.or_assoc, ← BitVec.or_assoc m, BitVec.or_comm m b, BitVec.or_assoc b, BitVec.or_self,
    ← BitVec.or_assoc, h]

theorem within_zero (a : BitVec 64) : Within 0 a := BitVec.zero_or

end Within

namespace Mask

/-- History: a reason that was gathered, and an answer to a client. -/
inductive Event (n : ℕ)
  | set (mask : BitVec 64)
  | answer (c : Fin n) (mask : BitVec 64)
  deriving DecidableEq

/-- The last event of `log` comes first; `senders` are the clients of the queries. -/
structure Observed (n : ℕ) where
  entity : Entity
  asked : List (ℤ × ℤ)
  HpMpChange : Bool
  senders : List (Fin n)
  log : List (Event n)

/-- What the maxima are and whether a state keeps the health above 0 comes with the step. `clear`
ends the `onDead` of monsters and pets. -/
inductive Label (n : ℕ)
  | query (c : Fin n) (stamp : ℤ)
  | addHp (hp : ℚ) (mask : Option (BitVec 64)) (hasSource kept : Bool) (hpMax : ℚ)
  | addMp (mp : ℚ) (mask : Option (BitVec 64)) (mpMax : ℚ)
  | update
  | clear

namespace Observed

variable {n : ℕ} (s : Observed n)

/-- The client has a query that waits. -/
def Waits (c : Fin n) : Prop :=
  ∃ q ∈ s.entity.waiting EventStampType.Hp_Mp, s.senders[q]? = some c

instance (c : Fin n) : Decidable (s.Waits c) := inferInstanceAs (Decidable (∃ q ∈ _, _))

/-- The log behind an operation that may have answered. -/
def answered (entity : Entity) : Observed n :=
  { s with
    entity
    log := ((entity.answers.drop s.entity.answers.length).reverse.filterMap fun a =>
      s.senders[a.1]?.map fun c => .answer c a.2.mask) ++ s.log }

/-- `maskHpMpChange = maskHpMpChange | mask` -/
def gather (mask : BitVec 64) : Observed n :=
  { s with
    entity := { s.entity with maskHpMpChange := s.entity.maskHpMpChange ||| mask }
    log := .set mask :: s.log }

def query (c : Fin n) (stamp : ℤ) : Observed n :=
  ({ s with
    asked := s.asked ++ [(EventStampType.Hp_Mp, stamp)]
    senders := s.senders ++ [c] } : Observed n).answered
      (s.entity.query_event_func EventStampType.Hp_Mp stamp s.asked.length)

def advance : Observed n := s.answered (s.entity.advanceEventStamp EventStampType.Hp_Mp)

/-- The health behind `addHp`. -/
def hpAfter (hp : ℚ) (kept : Bool) (hpMax : ℚ) : ℚ :=
  let hp := Battle.mClamp (s.entity.hp + ⌊hp⌋) 0 hpMax
  if kept ∧ hp ≤ 0 then 1 else hp

/-- `Ientity.addHp` up to `onDead` -/
def addHp (hp : ℚ) (mask : Option (BitVec 64)) (hasSource kept : Bool) (hpMax : ℚ) :
    Option (Observed n) :=
  if ⌊hp⌋ = 0 then some s
  else if ⌊hp⌋ > 0 ∨ hasSource then
    let s' := { s with entity := { s.entity with hp := s.hpAfter hp kept hpMax } }
    some (if s.entity.hp = s'.entity.hp then s'
      else (s'.gather (mask.getD HpMpMask.SkillHp)).advance)
  else none

def addMp (mp : ℚ) (mask : Option (BitVec 64)) (mpMax : ℚ) : Observed n :=
  if ⌊mp⌋ = 0 then s
  else
    let s' := { s with entity :=
      { s.entity with mp := Battle.mClamp (s.entity.mp + ⌊mp⌋) 0 mpMax } }
    if s.entity.mp = s'.entity.mp then s'
    else { s'.gather (mask.getD HpMpMask.SkillMp) with HpMpChange := true }

/-- The part of `Ientity.update` that sends what was gathered. -/
def update : Observed n :=
  if s.HpMpChange then { s.advance with HpMpChange := false } else s

def step : Label n → Option (Observed n)
  | .query c stamp => if s.Waits c then none else some (s.query c stamp)
  | .addHp hp mask hasSource kept hpMax => s.addHp hp mask hasSource kept hpMax
  | .addMp mp mask mpMax => some (s.addMp mp mask mpMax)
  | .update => some s.update
  | .clear => some (s.answered s.entity.clear_coroutine)

end Observed

def system (n : ℕ) (hp mp shield : ℚ) : System (Observed n) (Label n) where
  init := ⟨create hp mp shield, [], true, [], []⟩
  step := Observed.step

/-! ## What is owed -/

variable {n : ℕ} {s s' : Observed n} {log : List (Event n)} {c : Fin n} {a b m : BitVec 64}

/-- Each answer has the bits that were gathered since the answer before it to the same client. -/
def Carried (log : List (Event n)) : Prop :=
  ∀ rest mid first c last mask bits,
    log = rest ++ .answer c last :: (mid ++ .answer c mask :: first) →
    (∀ m, Event.answer c m ∉ mid) → Event.set bits ∈ mid → Within bits last

/-- The bits that were gathered since the last answer to the client. -/
def owed (c : Fin n) : List (Event n) → Option (BitVec 64)
  | [] => none
  | .set mask :: log => (owed c log).map (· ||| mask)
  | .answer c' _ :: log => if c' = c then some 0 else owed c log

/-- Each answer has what was owed. -/
def Sound : List (Event n) → Prop
  | [] => True
  | .set _ :: log => Sound log
  | .answer c mask :: log => (∀ b ∈ owed c log, Within b mask) ∧ Sound log

theorem Sound.behind {rest : List (Event n)} (h : Sound (rest ++ log)) : Sound log := by
  induction rest with
  | nil => exact h
  | cons e rest ih =>
      cases e with
      | set mask => exact ih h
      | answer c mask => exact ih h.2

theorem owed_since {mid : List (Event n)} (first : List (Event n)) (mask : BitVec 64)
    (hnone : ∀ m, Event.answer c m ∉ mid) :
    ∃ b, owed c (mid ++ .answer c mask :: first) = some b ∧
      ∀ bits, Event.set bits ∈ mid → Within bits b := by
  induction mid with
  | nil => exact ⟨0, by simp [owed], fun bits hbits => absurd hbits List.not_mem_nil⟩
  | cons e mid ih =>
      obtain ⟨b, hb, hin⟩ := ih fun m hm => hnone m (List.mem_cons_of_mem e hm)
      cases e with
      | set m =>
          refine ⟨b ||| m, by simp [owed, hb], fun bits hbits => ?_⟩
          rcases List.mem_cons.mp hbits with heq | hmem
          · obtain rfl := Event.set.inj heq
            exact within_or_right _ _
          · exact (hin bits hmem).trans (within_or_left b m)
      | answer c' m =>
          have hne : c' ≠ c := by
            rintro rfl
            exact hnone m List.mem_cons_self
          refine ⟨b, by simp [owed, hne, hb], fun bits hbits => ?_⟩
          rcases List.mem_cons.mp hbits with heq | hmem
          · cases heq
          · exact hin bits hmem

theorem Sound.carried (h : Sound log) : Carried log := by
  rintro rest mid first c last mask bits rfl hnone hbits
  obtain ⟨b, hb, hin⟩ := owed_since first mask hnone
  exact (hin bits hbits).trans (h.behind.1 b hb)

theorem sound_answers (cs : List (Fin n)) (h : Sound log)
    (howed : ∀ c, ∀ b ∈ owed c log, Within b m) :
    Sound (cs.map (Event.answer · m) ++ log) ∧
      ∀ c, owed c (cs.map (Event.answer · m) ++ log) = if c ∈ cs then some 0 else owed c log := by
  induction cs with
  | nil => exact ⟨h, fun c => by simp⟩
  | cons c' cs ih =>
      obtain ⟨hsound, hcs⟩ := ih
      refine ⟨⟨fun b hb => ?_, hsound⟩, fun c => ?_⟩
      · change b ∈ owed c' (cs.map (Event.answer · m) ++ log) at hb
        rw [hcs c'] at hb
        split at hb
        · obtain rfl := Option.some.inj hb
          exact within_zero m
        · exact howed c' b hb
      · change (if c' = c then some 0 else owed c (cs.map (Event.answer · m) ++ log)) = _
        rw [hcs c]
        by_cases hc : c' = c
        · simp [hc]
        · simp [hc, Ne.symm hc]

/-! ## Steps -/

structure Invariant (s : Observed n) : Prop where
  entity : EventStamp.Invariant s.entity s.asked
  asked : ∀ q ∈ s.asked, q.1 = EventStampType.Hp_Mp
  senders : s.senders.length = s.asked.length
  sound : Sound s.log
  owed : ∀ c, ∀ b ∈ owed c s.log, Within b s.entity.maskHpMpChange

theorem handled_hpMp : Handled EventStampType.Hp_Mp := .inr (.inr rfl)

/-- The answer to all who wait carries the mask, and empties it. -/
theorem answered_respond {v : Entity} {asked : List (ℤ × ℤ)}
    (hanswers : v.answers = s.entity.answers)
    (hkept : Kept v asked EventStampType.Hp_Mp) (hwaiting : v.waiting EventStampType.Hp_Mp ≠ []) :
    (s.answered (v.respond EventStampType.Hp_Mp)).log =
      ((v.waiting EventStampType.Hp_Mp).reverse.filterMap (s.senders[·]?)).map
        (Event.answer · v.maskHpMpChange) ++ s.log ∧
    (v.respond EventStampType.Hp_Mp).maskHpMpChange = 0 := by
  have hr : v.handle EventStampType.Hp_Mp =
      some (.hpMp (v.serverEventStamps EventStampType.Hp_Mp) ⌊v.hp⌋ ⌊v.mp⌋ ⌊v.shield⌋
        v.maskHpMpChange) := rfl
  have hrespond := Entity.respond_eq (hkept.made hwaiting) hwaiting hr
  constructor
  · simp only [Observed.answered, hrespond, hanswers, List.drop_left, ← List.map_reverse,
      List.filterMap_map, List.map_filterMap]
    rfl
  · rw [hrespond]
    simp

theorem Observed.answered_of_same {v : Entity} (h : v.answers = s.entity.answers) :
    s.answered v = { s with entity := v } := by
  simp [Observed.answered, h]

/-- Where all who are owed something are answered, nothing is lost. -/
theorem Sound.respond {v : Entity} {asked : List (ℤ × ℤ)} (h : Sound s.log)
    (howed : ∀ c, ∀ b ∈ owed c s.log, Within b v.maskHpMpChange)
    (hanswers : v.answers = s.entity.answers) (hkept : Kept v asked EventStampType.Hp_Mp)
    (hwaiting : v.waiting EventStampType.Hp_Mp ≠ [])
    (hall : ∀ c, ∀ b ∈ owed c s.log, b = 0 ∨
      ∃ q ∈ v.waiting EventStampType.Hp_Mp, s.senders[q]? = some c) :
    Sound (s.answered (v.respond EventStampType.Hp_Mp)).log ∧
      ∀ c, ∀ b ∈ owed c (s.answered (v.respond EventStampType.Hp_Mp)).log,
        Within b (v.respond EventStampType.Hp_Mp).maskHpMpChange := by
  obtain ⟨hlog, hmask⟩ := answered_respond hanswers hkept hwaiting
  obtain ⟨hsound, hcs⟩ := sound_answers
    ((v.waiting EventStampType.Hp_Mp).reverse.filterMap (s.senders[·]?)) h howed
  rw [hlog, hmask]
  refine ⟨hsound, fun c b hb => ?_⟩
  rw [hcs c] at hb
  split at hb
  · obtain rfl := Option.some.inj hb
    exact within_zero 0
  · next hnot =>
      rcases hall c b hb with rfl | ⟨q, hq, hsender⟩
      · exact within_zero 0
      · refine absurd (List.mem_filterMap.mpr ⟨q, ?_, hsender⟩) hnot
        exact List.mem_reverse.mpr hq

theorem Invariant.advance (h : Invariant s)
    (hok : s.entity.newClientReq EventStampType.Hp_Mp = true →
      ∀ c, ∀ b ∈ Mask.owed c s.log, b = 0 ∨ s.Waits c) : Invariant s.advance := by
  have hentity := h.entity.advance EventStampType.Hp_Mp fun _ => handled_hpMp
  unfold Observed.advance
  unfold Entity.advanceEventStamp at hentity ⊢
  dsimp only at hentity ⊢
  split
  · next hflag =>
      have hslot := h.entity.slot EventStampType.Hp_Mp
      rw [if_pos hflag] at hentity
      obtain ⟨hsound, howed⟩ := h.sound.respond (v := { s.entity with
        serverEventStamps := Function.update s.entity.serverEventStamps EventStampType.Hp_Mp
          (s.entity.serverEventStamps EventStampType.Hp_Mp + 1) }) h.owed rfl
        ⟨hslot.made, hslot.alive, hslot.owner, hslot.once⟩ (hslot.flag.mp hflag) (hok hflag)
      exact ⟨hentity, h.asked, h.senders, hsound, howed⟩
  · next hflag =>
      rw [if_neg hflag] at hentity
      rw [Observed.answered_of_same (by rfl)]
      exact ⟨hentity, h.asked, h.senders, h.sound, h.owed⟩

theorem Invariant.query (h : Invariant s) (c : Fin n) (stamp : ℤ)
    (hok : s.entity.serverEventStamps EventStampType.Hp_Mp > stamp →
      ∀ c', ∀ b ∈ Mask.owed c' s.log, b = 0 ∨ c' = c ∨ s.Waits c') :
      Invariant (s.query c stamp) := by
  have hentity := h.entity.query EventStampType.Hp_Mp stamp fun _ => handled_hpMp
  have hasked : ∀ q ∈ s.asked ++ [(EventStampType.Hp_Mp, stamp)], q.1 = EventStampType.Hp_Mp := by
    intro q hq
    rcases List.mem_append.mp hq with hq | hq
    · exact h.asked q hq
    · exact congrArg Prod.fst (List.mem_singleton.mp hq)
  have hsenders : (s.senders ++ [c]).length =
      (s.asked ++ [(EventStampType.Hp_Mp, stamp)]).length := by
    simp [h.senders]
  have hwaiting := Entity.waiting_createHandleCoroutine (v := s.entity)
    EventStampType.Hp_Mp EventStampType.Hp_Mp s.asked.length
  rw [if_pos rfl] at hwaiting
  unfold Observed.query
  unfold Entity.query_event_func Entity.checkeventStamp at hentity ⊢
  split
  · next hlate =>
      rw [if_pos hlate] at hentity
      have hall : ∀ c', ∀ b ∈ Mask.owed c' s.log, b = 0 ∨
          ∃ q ∈ (s.entity.createHandleCoroutine EventStampType.Hp_Mp s.asked.length).waiting
            EventStampType.Hp_Mp, (s.senders ++ [c])[q]? = some c' := by
        intro c' b hb
        rw [hwaiting]
        rcases hok hlate c' b hb with hzero | rfl | ⟨q, hq, hsender⟩
        · exact .inl hzero
        · refine .inr ⟨s.asked.length, List.mem_append_right _ (List.mem_singleton_self _), ?_⟩
          rw [← h.senders]
          exact List.getElem?_concat_length
        · refine .inr ⟨q, List.mem_append_left _ hq, ?_⟩
          rw [List.getElem?_append_left (List.getElem?_eq_some_iff.mp hsender).1]
          exact hsender
      obtain ⟨hsound, howed⟩ := Sound.respond (s := { s with
          asked := s.asked ++ [(EventStampType.Hp_Mp, stamp)], senders := s.senders ++ [c] })
        (v := s.entity.createHandleCoroutine EventStampType.Hp_Mp s.asked.length)
        h.sound h.owed rfl (h.entity.kept_create EventStampType.Hp_Mp stamp)
        (by rw [hwaiting]; simp) hall
      exact ⟨hentity, hasked, hsenders, hsound, howed⟩
  · next hlate =>
      rw [if_neg hlate] at hentity
      rw [Observed.answered_of_same (by rfl)]
      exact ⟨hentity, hasked, hsenders, h.sound, h.owed⟩

/-- The queries do not look at health, mana, shield and mask. -/
theorem invariant_congr {v v' : Entity} {asked : List (ℤ × ℤ)} (h : EventStamp.Invariant v asked)
    (hstamps : v'.serverEventStamps = v.serverEventStamps)
    (hflags : v'.newClientReq = v.newClientReq) (hpool : v'.coroutinePool = v.coroutinePool)
    (hresponse : v'.coroutineResponse = v.coroutineResponse) (hanswers : v'.answers = v.answers) :
    EventStamp.Invariant v' asked := by
  refine ⟨fun e => (h.slot e).other ?_ ?_ ?_ ?_ (fun _ _ => Iff.rfl) fun _ _ _ => ?_, ?_⟩
  · rw [hstamps]
  · rw [hflags]
  · rw [hpool]
  · rw [Entity.waiting, hresponse, Entity.waiting]
  · rw [hanswers]
  · rw [hanswers]
    exact h.bounded

theorem Invariant.gather (h : Invariant s) (mask : BitVec 64) : Invariant (s.gather mask) := by
  refine ⟨invariant_congr h.entity rfl rfl rfl rfl rfl, h.asked, h.senders, h.sound,
    fun c b hb => ?_⟩
  obtain ⟨a, ha, rfl⟩ := Option.mem_map.mp hb
  exact (h.owed c a ha).or_right mask

theorem Invariant.hpMp (h : Invariant s) (hp mp : ℚ) :
    Invariant { s with entity := { s.entity with hp, mp } } :=
  ⟨invariant_congr h.entity rfl rfl rfl rfl rfl, h.asked, h.senders, h.sound, h.owed⟩

theorem Invariant.clear (h : Invariant s)
    (hidle : s.entity.waiting EventStampType.Hp_Mp = []) :
    Invariant (s.answered s.entity.clear_coroutine) := by
  have hnil : ∀ q ∈ s.asked, s.entity.waiting q.1 = [] := by
    intro q hq
    rw [h.asked q hq]
    exact hidle
  have hanswers := h.entity.clear_answers hnil
  rw [Observed.answered_of_same hanswers]
  exact ⟨h.entity.clear hnil, h.asked, h.senders, h.sound, h.owed⟩

/-! ## Runs -/

/-- When an answer is given, every client that is owed something waits for it; nobody waits when the
responses are cleared. -/
def OK (s : Observed n) : Label n → Prop
  | .query c stamp => s.entity.serverEventStamps EventStampType.Hp_Mp > stamp →
    ∀ c', ∀ b ∈ owed c' s.log, b = 0 ∨ c' = c ∨ s.Waits c'
  | .addHp hp mask _ kept hpMax => ⌊hp⌋ ≠ 0 → s.entity.hp ≠ s.hpAfter hp kept hpMax →
    s.entity.newClientReq EventStampType.Hp_Mp = true →
      ∀ c, ∀ b ∈ owed c s.log, b ||| mask.getD HpMpMask.SkillHp = 0 ∨ s.Waits c
  | .addMp _ _ _ => True
  | .update => s.HpMpChange = true → s.entity.newClientReq EventStampType.Hp_Mp = true →
    ∀ c, ∀ b ∈ owed c s.log, b = 0 ∨ s.Waits c
  | .clear => s.entity.waiting EventStampType.Hp_Mp = []

theorem Invariant.step {l : Label n} (h : Invariant s) (hok : OK s l) (hstep : s.step l = some s') :
    Invariant s' := by
  cases l with
  | query c stamp =>
      simp only [Observed.step, Option.ite_none_left_eq_some] at hstep
      exact Option.some.inj hstep.2 ▸ h.query c stamp hok
  | addHp hp mask hasSource kept hpMax =>
      simp only [Observed.step, Observed.addHp] at hstep
      split at hstep
      · exact Option.some.inj hstep ▸ h
      · next hfloor =>
          split at hstep
          · obtain rfl := Option.some.inj hstep
            have hset := h.hpMp (s.hpAfter hp kept hpMax) s.entity.mp
            split
            · exact hset
            · next hchange =>
                apply (hset.gather _).advance
                intro hflag c b hb
                obtain ⟨a, ha, rfl⟩ := Option.mem_map.mp hb
                exact hok hfloor hchange hflag c a ha
          · cases hstep
  | addMp mp mask mpMax =>
      obtain rfl := Option.some.inj hstep
      unfold Observed.addMp
      split
      · exact h
      · have hset := h.hpMp s.entity.hp (Battle.mClamp (s.entity.mp + ⌊mp⌋) 0 mpMax)
        dsimp only
        split
        · exact hset
        · have hgather := hset.gather (mask.getD HpMpMask.SkillMp)
          exact ⟨hgather.entity, hgather.asked, hgather.senders, hgather.sound, hgather.owed⟩
  | update =>
      obtain rfl := Option.some.inj hstep
      unfold Observed.update
      split
      · next hchange =>
          have hadvance := h.advance (hok hchange)
          exact ⟨hadvance.entity, hadvance.asked, hadvance.senders, hadvance.sound, hadvance.owed⟩
      · exact h
  | clear =>
      obtain rfl := Option.some.inj hstep
      exact h.clear hok

theorem Invariant.init (n : ℕ) (hp mp shield : ℚ) : Invariant (system n hp mp shield).init :=
  ⟨EventStamp.Invariant.init hp mp shield, by simp [system], rfl, trivial,
    fun c b hb => by cases hb⟩

/-- Where an answer finds all who are owed something waiting, every answer has what was gathered
since the one before it. -/
theorem masks_reach_clients (n : ℕ) (hp mp shield : ℚ) {s : Observed n}
    (h : (system n hp mp shield).Runs OK s) : Carried s.log := by
  have hinv := h.invariant (Invariant.init n hp mp shield)
    fun _ _ _ (hs : Invariant _) hok ht => hs.step hok ht
  exact hinv.sound.carried

/-- What is owed is looked up, not searched among all masks. -/
instance (log : List (Event n)) (p : Fin n → BitVec 64 → Prop) [∀ c b, Decidable (p c b)] :
    Decidable (∀ c, ∀ b ∈ owed c log, p c b) :=
  @Nat.decidableForallFin n _ fun _ => Option.decidableForallMem _

instance (s : Observed n) (l : Label n) : Decidable (OK s l) := by
  cases l with
  | query c stamp => exact inferInstanceAs (Decidable (_ → _))
  | addHp hp mask hasSource kept hpMax => exact inferInstanceAs (Decidable (_ → _))
  | addMp mp mask mpMax => exact .isTrue trivial
  | update => exact inferInstanceAs (Decidable (_ → _))
  | clear => exact inferInstanceAs (Decidable (_ = _))

local instance two_neZero : NeZero 2 := inferInstance

/-- Both clients wait when the health falls, and again when it rises. -/
def together : List (Label 2) :=
  [.query 0 0, .query 1 0, .addHp (-10) (some 1) true false 100, .query 0 1, .query 1 1,
    .addHp 5 (some 4) true false 100]

theorem masks_reach_clients_together : ∃ s, (system 2 100 50 0).Runs OK s ∧ Carried s.log ∧
    s.log.length = 6 := by
  have hrun : (((system 2 100 50 0).guarded OK).run (system 2 100 50 0).init together).map
      (fun s => s.log.length) = some 6 := by
    decide +kernel
  obtain ⟨s, hs, hlength⟩ := Option.map_eq_some_iff.mp hrun
  have hruns := System.Runs.of_guarded_run _ .init hs
  exact ⟨s, hruns, masks_reach_clients 2 100 50 0 hruns, hlength⟩

/-- The second client asks behind the answer to the first, and gets an empty mask. -/
theorem mask_lost : ∃ s, (system 2 100 50 0).Reachable s ∧
    Event.answer 1 0 ∈ s.log ∧ ¬ Carried s.log := by
  have hrun : ((system 2 100 50 0).run (system 2 100 50 0).init
      [.query 0 0, .query 1 0, .addHp (-10) (some 1) true false 100, .query 0 1,
        .addHp 5 (some 4) true false 100, .query 1 1]).map (fun s => s.log) =
      some [.answer 1 0, .answer 0 4, .set 4, .answer 1 1, .answer 0 1, .set 1] := by
    decide +kernel
  obtain ⟨s, hs, hlog⟩ := Option.map_eq_some_iff.mp hrun
  refine ⟨s, System.reachable_of_run _ hs, by simp [hlog], fun h => ?_⟩
  have hbits := h [] [.answer 0 4, .set 4] [.answer 0 1, .set 1] 1 0 1 4 hlog (by simp) (by simp)
  exact absurd hbits (by decide)

end Mask

end GameServer.EventStamp
