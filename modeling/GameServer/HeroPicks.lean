import GameServer.PickHero

/-!
# Exclusive and valid heroes

A handler that runs is counted with those that wait, at the place where it tells the players. Two
readings of the log give two results: picks whose series nobody else has keep the heroes exclusive;
a confirm that nothing behind it undoes, and a timeout at which the confirms succeed, start a room
of confirmed heroes.
-/

namespace GameServer.PickHero

open Agent Cooperative Coroutine Transition

variable {n : ℕ} {s s' : Picking n} {m : Multiset (Place n)} {p : Fin n} {heroid confirmid : ℤ}
  {turn turn' : Turn n} {bind : Bool}

/-! ## Conditions -/

/-- An accepted pick is of a series that no other player has picked, and a player who has confirmed,
or waits for that, stays with the series. -/
def Event.Apart : Event n → Prop
  | .pick p heroid players confirming =>
    (heroid ≠ 0 → ∀ q, q ≠ p → (players q).pickedheroid ≠ 0 →
      Macro_GetCardSerialId heroid ≠ Macro_GetCardSerialId (players q).pickedheroid) ∧
    ((players p).confirmheroid ≠ 0 ∨ 0 < confirming → heroid ≠ 0 ∧
      Macro_GetCardSerialId heroid = Macro_GetCardSerialId (players p).pickedheroid)
  | _ => True

/-- Nobody picks behind a confirm, only bound heroes and those of `aiPickHero` are taken over at the
timeout, the confirms at the timeout find a pick, its skills and no other player with its series,
and skills stay bound from a confirm on. -/
def Event.Settled : Event n → Prop
  | .pick p _ players confirming => (players p).confirmheroid = 0 ∧ confirming = 0
  | .assign _ v bound byAi => v.isAI = true ∨ bound = true ∨ byAi = some v.pickedheroid
  | .ask confirmid => confirmid ≠ 0
  | .check p confirmid bind players => bind = true ∧ ∀ q, q ≠ p →
      Macro_GetCardSerialId confirmid ≠ Macro_GetCardSerialId (players q).pickedheroid
  | .rebind v confirming before after => v.confirmheroid ≠ 0 ∨ 0 < confirming →
      isBindSkills before v.pickedheroid = true → isBindSkills after v.pickedheroid = true

/-! ## The invariant -/

/-- The confirm that a handler at this place waits for. -/
def Place.asks (place : Place n) : Option (Fin n × ℤ) :=
  match place.wait with
  | .asked p confirmid | .answered p confirmid _ => some (p, confirmid)
  | _ => none

def Place.Asks (p : Fin n) (place : Place n) : Prop := place.asks.map Prod.fst = some p

instance (p : Fin n) (place : Place n) : Decidable (place.Asks p) :=
  inferInstanceAs (Decidable (_ = _))

/-- Picks are of different series, and a confirm is of the series of its player's pick. -/
structure Apart (s : Picking n) (m : Multiset (Place n)) : Prop where
  picks : ∀ p q, p ≠ q → (s.players p).pickedheroid ≠ 0 → (s.players q).pickedheroid ≠ 0 →
    Macro_GetCardSerialId (s.players p).pickedheroid ≠
      Macro_GetCardSerialId (s.players q).pickedheroid
  confirmed : ∀ p, (s.players p).confirmheroid ≠ 0 → (s.players p).pickedheroid ≠ 0 ∧
    Macro_GetCardSerialId (s.players p).confirmheroid =
      Macro_GetCardSerialId (s.players p).pickedheroid
  asks : ∀ place ∈ m, ∀ p confirmid, place.asks = some (p, confirmid) →
    (s.players p).pickedheroid ≠ 0 ∧
      Macro_GetCardSerialId confirmid = Macro_GetCardSerialId (s.players p).pickedheroid

/-- The hero is of a robot, has its skills bound, or comes from `aiPickHero`. -/
def Allowed (v : Player) (cards : List Card) (byAi : Option ℤ) : Prop :=
  v.isAI = true ∨ isBindSkills cards v.pickedheroid = true ∨ byAi = some v.pickedheroid

/-- A confirm is the pick of its player, and those whom the last update has passed have
confirmed. -/
structure Settled (s : Picking n) (m : Multiset (Place n)) : Prop where
  confirmed : ∀ p, (s.players p).confirmheroid ≠ 0 →
    (s.players p).pickedheroid = (s.players p).confirmheroid ∧
      Allowed (s.players p) (s.cards p) (s.byAi p)
  asks : ∀ place ∈ m, ∀ p confirmid, place.asks = some (p, confirmid) →
    confirmid ≠ 0 ∧ (s.players p).pickedheroid = confirmid
  answered : ∀ place ∈ m, ∀ p confirmid, place.wait = .answered p confirmid true →
    isBindSkills (s.cards p) confirmid = true
  passed : ∀ place ∈ m, ∀ todo, place.turn = .last todo → ∀ q ∉ todo,
    (s.players q).confirmheroid ≠ 0
  started : ∀ players cards byAi, s.started = some (players, cards, byAi) → ∀ p,
    (players p).pickedheroid ≠ 0 ∧ (players p).pickedheroid = (players p).confirmheroid ∧
      Allowed (players p) (cards p) (byAi p)

structure Inv (s : Picking n) (m : Multiset (Place n)) : Prop where
  confirming : ∀ p, s.confirming p = m.countP (Place.Asks p)
  apart : (∀ e ∈ s.log, e.Apart) → Apart s m
  settled : (∀ e ∈ s.log, e.Settled) → Settled s m

theorem asks_iff {place : Place n} :
    place.Asks p ↔ ∃ confirmid, place.asks = some (p, confirmid) := by
  unfold Place.Asks
  cases place.asks with
  | none => simp
  | some a =>
      obtain ⟨q, confirmid⟩ := a
      simp

theorem Inv.confirming_pos (h : Inv s m) {place : Place n} (hplace : place ∈ m)
    (hasks : place.asks = some (p, confirmid)) : 0 < s.confirming p := by
  rw [h.confirming p]
  exact Multiset.countP_pos.mpr ⟨place, hplace, asks_iff.mpr ⟨confirmid, hasks⟩⟩

/-! ## Single writes -/

/-- Nothing changes that the invariant reads but the log, which may grow. -/
theorem Inv.same (h : Inv s m) (hplayers : s'.players = s.players) (hcards : s'.cards = s.cards)
    (hbyAi : s'.byAi = s.byAi) (hconfirming : s'.confirming = s.confirming)
    (hstarted : s'.started = s.started) (hlog : ∀ e ∈ s.log, e ∈ s'.log) : Inv s' m := by
  refine ⟨fun p => ?_, fun hfair => ?_, fun hfair => ?_⟩
  · rw [hconfirming]
    exact h.confirming p
  · have ha := h.apart fun e he => hfair e (hlog e he)
    refine ⟨?_, ?_, ?_⟩
    · rw [hplayers]
      exact ha.picks
    · rw [hplayers]
      exact ha.confirmed
    · rw [hplayers]
      exact ha.asks
  · have hs := h.settled fun e he => hfair e (hlog e he)
    refine ⟨?_, ?_, ?_, ?_, ?_⟩
    · rw [hplayers, hcards, hbyAi]
      exact hs.confirmed
    · rw [hplayers]
      exact hs.asks
    · rw [hcards]
      exact hs.answered
    · rw [hplayers]
      exact hs.passed
    · rw [hstarted]
      exact hs.started

/-- A handler comes to another place: it waits there for the confirm it has waited for, or for the
pick as it is. -/
theorem Inv.replace {place place' : Place n} (h : Inv s (place ::ₘ m)) {f : Fin n → ℕ}
    (hcount : ∀ q, f q = (place' ::ₘ m).countP (Place.Asks q))
    (hasks : ∀ q confirmid, place'.asks = some (q, confirmid) →
      place.asks = some (q, confirmid) ∨ confirmid = (s.players q).pickedheroid ∧ confirmid ≠ 0)
    (hanswered : ∀ q confirmid, place'.wait = .answered q confirmid true →
      isBindSkills (s.cards q) confirmid = true)
    (hpassed : ∀ todo', place'.turn = .last todo' → ∀ q ∉ todo',
      (s.players q).confirmheroid ≠ 0 ∨ ∃ todo, place.turn = .last todo ∧ q ∉ todo) :
    Inv { s with confirming := f } (place' ::ₘ m) := by
  refine ⟨hcount, fun hfair => ?_, fun hfair => ?_⟩
  · have ha := h.apart hfair
    refine ⟨ha.picks, ha.confirmed, fun other hother q confirmid hask => ?_⟩
    rcases Multiset.mem_cons.mp hother with rfl | hmem
    · rcases hasks q confirmid hask with hold | ⟨rfl, hpicked⟩
      · exact ha.asks place (Multiset.mem_cons_self _ _) q confirmid hold
      · exact ⟨hpicked, rfl⟩
    · exact ha.asks other (Multiset.mem_cons_of_mem hmem) q confirmid hask
  · have hs := h.settled hfair
    refine ⟨hs.confirmed, fun other hother q confirmid hask => ?_,
      fun other hother q confirmid hwait => ?_, fun other hother todo' hturn q hq => ?_, hs.started⟩
    · rcases Multiset.mem_cons.mp hother with rfl | hmem
      · rcases hasks q confirmid hask with hold | ⟨rfl, hpicked⟩
        · exact hs.asks place (Multiset.mem_cons_self _ _) q confirmid hold
        · exact ⟨hpicked, rfl⟩
      · exact hs.asks other (Multiset.mem_cons_of_mem hmem) q confirmid hask
    · rcases Multiset.mem_cons.mp hother with rfl | hmem
      · exact hanswered q confirmid hwait
      · exact hs.answered other (Multiset.mem_cons_of_mem hmem) q confirmid hwait
    · rcases Multiset.mem_cons.mp hother with rfl | hmem
      · rcases hpassed todo' hturn q hq with hconfirmed | ⟨todo, hlast, hnotin⟩
        · exact hconfirmed
        · exact hs.passed place (Multiset.mem_cons_self _ _) todo hlast q hnotin
      · exact hs.passed other (Multiset.mem_cons_of_mem hmem) todo' hturn q hq

/-- A handler that asks for no confirm comes to another such place. -/
theorem Inv.move {wait : Wait n} (h : Inv s (⟨.told, turn⟩ ::ₘ m))
    (hnone : (⟨wait, turn'⟩ : Place n).asks = none)
    (hpassed : ∀ todo', turn' = .last todo' → ∀ q ∉ todo',
      (s.players q).confirmheroid ≠ 0 ∨ ∃ todo, turn = .last todo ∧ q ∉ todo) :
    Inv s (⟨wait, turn'⟩ ::ₘ m) := by
  refine h.replace (fun q => ?_) (fun q confirmid hask => ?_) (fun q confirmid hwait => ?_) hpassed
  · rw [h.confirming q, Multiset.countP_cons_of_neg _ (by simp [Place.Asks, Place.asks]),
      Multiset.countP_cons_of_neg _ (by simp [Place.Asks, hnone])]
  · rw [hnone] at hask
    cases hask
  · dsimp only at hwait
    subst hwait
    cases hnone

theorem Inv.drop {place : Place n} (h : Inv s (place ::ₘ m)) (hnone : place.asks = none) :
    Inv s m := by
  have hnot : ∀ p, ¬ place.Asks p := fun p => by simp [Place.Asks, hnone]
  refine ⟨fun p => ?_, fun hfair => ?_, fun hfair => ?_⟩
  · rw [h.confirming p, Multiset.countP_cons_of_neg _ (hnot p)]
  · have ha := h.apart hfair
    exact ⟨ha.picks, ha.confirmed, fun other hother =>
      ha.asks other (Multiset.mem_cons_of_mem hother)⟩
  · have hs := h.settled hfair
    exact ⟨hs.confirmed, fun other hother => hs.asks other (Multiset.mem_cons_of_mem hother),
      fun other hother => hs.answered other (Multiset.mem_cons_of_mem hother),
      fun other hother => hs.passed other (Multiset.mem_cons_of_mem hother), hs.started⟩

theorem Inv.begin (h : Inv s m) (hturn : ∀ todo, turn = .last todo → ∀ q, q ∈ todo) :
    Inv s (⟨.told, turn⟩ ::ₘ m) := by
  refine ⟨fun p => ?_, fun hfair => ?_, fun hfair => ?_⟩
  · rw [h.confirming p, Multiset.countP_cons_of_neg]
    simp [Place.Asks, Place.asks]
  · have ha := h.apart hfair
    refine ⟨ha.picks, ha.confirmed, fun other hother p confirmid hasks => ?_⟩
    rcases Multiset.mem_cons.mp hother with rfl | hmem
    · cases hasks
    · exact ha.asks other hmem p confirmid hasks
  · have hs := h.settled hfair
    refine ⟨hs.confirmed, fun other hother p confirmid hasks => ?_,
      fun other hother p confirmid hwait => ?_, fun other hother todo hlast q hq => ?_, hs.started⟩
    · rcases Multiset.mem_cons.mp hother with rfl | hmem
      · cases hasks
      · exact hs.asks other hmem p confirmid hasks
    · rcases Multiset.mem_cons.mp hother with rfl | hmem
      · cases hwait
      · exact hs.answered other hmem p confirmid hwait
    · rcases Multiset.mem_cons.mp hother with rfl | hmem
      · exact absurd (hturn todo hlast q) hq
      · exact hs.passed other hmem todo hlast q hq

theorem mem_note {e e' : Event n} (he : e' ∈ s.log) : e' ∈ (s.note e).log :=
  List.mem_append_left _ he

theorem note_mem (e : Event n) : e ∈ (s.note e).log :=
  List.mem_append_right _ (List.mem_singleton_self e)

theorem Inv.accept (h : Inv s m) (p : Fin n) (heroid : ℤ) (turn : Turn n) :
    Inv (s.accept p heroid turn) m := by
  have hplayers : (s.accept p heroid turn).players = Function.update s.players p
      { s.players p with pickedheroid := heroid } := rfl
  have hconfirm : ∀ q, ((s.accept p heroid turn).players q).confirmheroid =
      (s.players q).confirmheroid := by
    intro q
    rw [hplayers]
    by_cases hq : q = p
    · subst hq
      simp
    · rw [Function.update_of_ne hq]
  have hown : ((s.accept p heroid turn).players p).pickedheroid = heroid := by
    rw [hplayers, Function.update_self]
  have hother : ∀ q, q ≠ p → (s.accept p heroid turn).players q = s.players q := by
    intro q hq
    rw [hplayers, Function.update_of_ne hq]
  refine ⟨h.confirming, fun hfair => ?_, fun hfair => ?_⟩
  · obtain ⟨hnew, hkept⟩ := hfair _ (note_mem _)
    have ha := h.apart fun e he => hfair e (mem_note he)
    refine ⟨fun q q' hne hq hq' => ?_, fun q hq => ?_, fun place hplace q confirmid hasks => ?_⟩
    · by_cases hqp : q = p
      · subst hqp
        rw [hown] at hq ⊢
        rw [hother q' (Ne.symm hne)] at hq' ⊢
        exact hnew hq q' (Ne.symm hne) hq'
      · rw [hother q hqp] at hq ⊢
        by_cases hqp' : q' = p
        · subst hqp'
          rw [hown] at hq' ⊢
          exact Ne.symm (hnew hq' q hqp hq)
        · rw [hother q' hqp'] at hq' ⊢
          exact ha.picks q q' hne hq hq'
    · rw [hconfirm q] at hq ⊢
      obtain ⟨hpicked, hseries⟩ := ha.confirmed q hq
      by_cases hqp : q = p
      · subst hqp
        obtain ⟨hzero, hsame⟩ := hkept (.inl hq)
        rw [hown]
        exact ⟨hzero, hseries.trans hsame.symm⟩
      · rw [hother q hqp]
        exact ⟨hpicked, hseries⟩
    · obtain ⟨hpicked, hseries⟩ := ha.asks place hplace q confirmid hasks
      by_cases hqp : q = p
      · subst hqp
        obtain ⟨hzero, hsame⟩ := hkept (.inr (h.confirming_pos hplace hasks))
        rw [hown]
        exact ⟨hzero, hseries.trans hsame.symm⟩
      · rw [hother q hqp]
        exact ⟨hpicked, hseries⟩
  · obtain ⟨hnone, hidle⟩ := hfair _ (note_mem _)
    have hs := h.settled fun e he => hfair e (mem_note he)
    refine ⟨fun q hq => ?_, fun place hplace q confirmid hasks => ?_, hs.answered,
      fun place hplace todo hturn q hq => ?_, hs.started⟩
    · rw [hconfirm q] at hq
      have hqp : q ≠ p := by
        rintro rfl
        exact hq hnone
      have hbyAi : (s.accept p heroid turn).byAi q = s.byAi q := Function.update_of_ne hqp _ _
      rw [hother q hqp, hbyAi]
      exact hs.confirmed q hq
    · have hqp : q ≠ p := by
        rintro rfl
        exact absurd (h.confirming_pos hplace hasks) (by omega)
      rw [hother q hqp]
      exact hs.asks place hplace q confirmid hasks
    · rw [hconfirm q]
      exact hs.passed place hplace todo hturn q hq

theorem Inv.ask (h : Inv s (⟨.told, turn⟩ ::ₘ m)) (p : Fin n)
    (hpicked : (s.players p).pickedheroid ≠ 0) :
    Inv (s.wait p) (⟨.asked p (s.players p).pickedheroid, turn⟩ ::ₘ m) := by
  refine h.replace (fun q => ?_) (fun q confirmid hask => ?_) (fun q confirmid hwait => ?_)
    fun todo hturn q hq => .inr ⟨todo, hturn, hq⟩
  · have hcount := h.confirming q
    rw [Multiset.countP_cons_of_neg _ (by simp [Place.Asks, Place.asks])] at hcount
    by_cases hq : q = p
    · subst hq
      rw [Multiset.countP_cons_of_pos _ (by simp [Place.Asks, Place.asks]), ← hcount]
      exact Function.update_self q _ _
    · rw [Multiset.countP_cons_of_neg _ (by simp [Place.Asks, Place.asks, Ne.symm hq]), ← hcount]
      exact Function.update_of_ne hq _ _
  · obtain ⟨rfl, rfl⟩ := Prod.mk.inj (Option.some.inj hask)
    exact .inr ⟨rfl, hpicked⟩
  · cases hwait

theorem Inv.answer (h : Inv s (⟨.asked p confirmid, turn⟩ ::ₘ m)) :
    Inv s (⟨.answered p confirmid (isBindSkills (s.cards p) confirmid), turn⟩ ::ₘ m) := by
  refine h.replace (fun q => ?_) (fun q confirmid' hask => .inl hask)
    (fun q confirmid' hwait => ?_) fun todo hturn q hq => .inr ⟨todo, hturn, hq⟩
  · rw [h.confirming q, Multiset.countP_cons, Multiset.countP_cons]
    rfl
  · obtain ⟨rfl, rfl, hbound⟩ := Wait.answered.inj hwait
    exact hbound

theorem Inv.wake (h : Inv s (⟨.answered p confirmid bind, turn⟩ ::ₘ m)) :
    Inv (s.wake p) (⟨.told, turn⟩ ::ₘ m) := by
  refine h.replace (fun q => ?_) (fun q confirmid' hask => ?_) (fun q confirmid' hwait => ?_)
    fun todo hturn q hq => .inr ⟨todo, hturn, hq⟩
  · have hcount := h.confirming q
    rw [Multiset.countP_cons_of_neg _ (by simp [Place.Asks, Place.asks])]
    by_cases hq : q = p
    · subst hq
      rw [Multiset.countP_cons_of_pos _ (by simp [Place.Asks, Place.asks])] at hcount
      rw [Function.update_self]
      omega
    · rw [Multiset.countP_cons_of_neg _ (by simp [Place.Asks, Place.asks, Ne.symm hq])] at hcount
      rw [← hcount, Function.update_of_ne hq]
  · cases hask
  · cases hwait

/-! ## Confirms -/

theorem mem_noteLast {e e' : Event n} (he : e' ∈ s.log) : e' ∈ (s.noteLast turn e).log := by
  cases turn with
  | last todo => exact mem_note he
  | _ => exact he

@[simp] theorem noteLast_players (s : Picking n) (turn : Turn n) (e : Event n) :
    (s.noteLast turn e).players = s.players := by
  cases turn <;> rfl

@[simp] theorem noteLast_cards (s : Picking n) (turn : Turn n) (e : Event n) :
    (s.noteLast turn e).cards = s.cards := by
  cases turn <;> rfl

theorem Inv.noteLast (h : Inv s m) (turn : Turn n) (e : Event n) : Inv (s.noteLast turn e) m := by
  cases turn with
  | last todo => exact h.same rfl rfl rfl rfl rfl fun _ => mem_note
  | _ => exact h

/-- A confirm fails: at the timeout the log says so. -/
theorem Inv.fail (h : Inv s (⟨.told, turn⟩ ::ₘ m)) (p : Fin n) {e : Event n} (he : ¬ e.Settled) :
    Inv (s.noteLast turn e) (⟨.told, turn.without p⟩ ::ₘ m) := by
  cases turn with
  | last todo =>
      have hn := h.noteLast (.last todo) e
      refine ⟨fun q => ?_, fun hfair => ?_, fun hfair => absurd (hfair e (note_mem e)) he⟩
      · rw [hn.confirming q, Multiset.countP_cons_of_neg _ (by simp [Place.Asks, Place.asks]),
          Multiset.countP_cons_of_neg _ (by simp [Place.Asks, Place.asks])]
      · have ha := hn.apart hfair
        refine ⟨ha.picks, ha.confirmed, fun other hother q confirmid hask => ?_⟩
        rcases Multiset.mem_cons.mp hother with rfl | hmem
        · cases hask
        · exact ha.asks other (Multiset.mem_cons_of_mem hmem) q confirmid hask
  | _ => exact h

/-- Another hero is confirmed: the player's pick, with skills that are bound. -/
theorem Inv.confirm (h : Inv s m) (p : Fin n) (hne : confirmid ≠ 0)
    (happart : (∀ e ∈ s.log, e.Apart) → (s.players p).pickedheroid ≠ 0 ∧
      Macro_GetCardSerialId confirmid = Macro_GetCardSerialId (s.players p).pickedheroid)
    (hsettled : (∀ e ∈ s.log, e.Settled) → (s.players p).pickedheroid = confirmid ∧
      Allowed (s.players p) (s.cards p) (s.byAi p)) : Inv (s.confirm p confirmid) m := by
  have hpicked : ∀ q, ((s.confirm p confirmid).players q).pickedheroid =
      (s.players q).pickedheroid := by
    intro q
    by_cases hq : q = p
    · subst hq
      simp [Picking.confirm, Picking.setPlayer]
    · simp [Picking.confirm, Picking.setPlayer, Function.update_of_ne hq]
  have hallowed : ∀ q, Allowed ((s.confirm p confirmid).players q) (s.cards q) (s.byAi q) ↔
      Allowed (s.players q) (s.cards q) (s.byAi q) := by
    intro q
    unfold Allowed
    rw [hpicked q]
    by_cases hq : q = p
    · subst hq
      simp [Picking.confirm, Picking.setPlayer]
    · simp [Picking.confirm, Picking.setPlayer, Function.update_of_ne hq]
  have hown : ((s.confirm p confirmid).players p).confirmheroid = confirmid := by
    simp [Picking.confirm, Picking.setPlayer]
  have hother : ∀ q, q ≠ p → ((s.confirm p confirmid).players q).confirmheroid =
      (s.players q).confirmheroid := by
    intro q hq
    simp [Picking.confirm, Picking.setPlayer, Function.update_of_ne hq]
  refine ⟨h.confirming, fun hfair => ?_, fun hfair => ?_⟩
  · have ha := h.apart hfair
    refine ⟨fun q q' => ?_, fun q hq => ?_, fun place hplace q confirmid' hask => ?_⟩
    · rw [hpicked q, hpicked q']
      exact ha.picks q q'
    · rw [hpicked q]
      by_cases hqp : q = p
      · subst hqp
        rw [hown]
        exact happart hfair
      · rw [hother q hqp] at hq ⊢
        exact ha.confirmed q hq
    · rw [hpicked q]
      exact ha.asks place hplace q confirmid' hask
  · have hs := h.settled hfair
    refine ⟨fun q hq => ?_, fun place hplace q confirmid' hask => ?_, hs.answered,
      fun place hplace todo hturn q hq => ?_, hs.started⟩
    · refine ⟨?_, (hallowed q).mpr ?_⟩
      · rw [hpicked q]
        by_cases hqp : q = p
        · subst hqp
          rw [hown]
          exact (hsettled hfair).1
        · rw [hother q hqp] at hq ⊢
          exact (hs.confirmed q hq).1
      · by_cases hqp : q = p
        · subst hqp
          exact (hsettled hfair).2
        · rw [hother q hqp] at hq
          exact (hs.confirmed q hq).2
    · rw [hpicked q]
      exact hs.asks place hplace q confirmid' hask
    · by_cases hqp : q = p
      · subst hqp
        rw [hown]
        exact hne
      · rw [hother q hqp]
        exact hs.passed place hplace todo hturn q hq

theorem confirm_confirmheroid (s : Picking n) (p : Fin n) (confirmid : ℤ) :
    ((s.confirm p confirmid).players p).confirmheroid = confirmid := by
  simp [Picking.confirm, Picking.setPlayer]

theorem Inv.without (h : Inv s (⟨.told, turn⟩ ::ₘ m)) (hp : (s.players p).confirmheroid ≠ 0) :
    Inv s (⟨.told, turn.without p⟩ ::ₘ m) := by
  refine h.move rfl fun todo' hturn q hq => ?_
  cases turn with
  | last todo =>
      obtain rfl := Turn.last.inj hturn
      by_cases hqp : q = p
      · exact .inl (hqp ▸ hp)
      · exact .inr ⟨todo, rfl, fun hmem => hq (List.mem_filter.mpr ⟨hmem, by simp [hqp]⟩)⟩
  | _ => cases hturn

/-! ## Handlers -/

/-- Handlers may be resumed at any time. -/
def anyTime (_ : Picking n) (_ : Multiset (Place n)) (_ : Place n) : Prop := True

/-- What a handler that runs keeps. -/
def Held (turn : Turn n) (s : Picking n) (m : Multiset (Place n)) : Prop :=
  Inv s (⟨.told, turn⟩ ::ₘ m)

theorem held_ready (h : Held turn s m) : Held turn s.ready m := by
  unfold Picking.ready
  split
  · exact Inv.same h rfl rfl rfl rfl rfl fun _ he => he
  · exact h

theorem sendAll_safe (h : Held turn s m) :
    (sendAll turn).Safe Inv anyTime (fun _ => Held turn) s m :=
  safe_forM (fun _ _ _ _ hs => safe_call.mpr ⟨hs, fun _ _ hs _ => hs⟩) h

theorem pickHero_safe (p : Fin n) (heroid : ℤ) (h : Held turn s m) :
    (pickHero p heroid turn).Safe Inv anyTime (fun _ => Held turn) s m := by
  refine safe_bind.mpr (safe_get.mpr ?_)
  unfold Coroutine.when
  split
  · exact safe_bind.mpr (safe_modify.mpr (sendAll_safe (h.accept p heroid turn)))
  · exact h

theorem confirmBound_safe (h : Inv s (⟨.answered p confirmid bind, turn⟩ ::ₘ m))
    (hid : confirmid ≠ 0) :
    (confirmBound p confirmid bind turn).Safe Inv anyTime
      (fun _ => Held (turn.without p)) s m := by
  refine safe_bind.mpr (safe_modify.mpr (safe_bind.mpr (safe_modify.mpr (safe_bind.mpr
    (safe_get.mpr ?_)))))
  unfold Coroutine.when
  have hplace := Multiset.mem_cons_self (⟨.answered p confirmid bind, turn⟩ : Place n) m
  split
  · next hcheck =>
      refine safe_bind.mpr (safe_modify.mpr (sendAll_safe (Inv.without ?_ ?_)))
      · refine (h.wake.noteLast turn _).confirm p hid (fun hfair => ?_) fun hfair => ?_
        · have ha := h.apart fun e he => hfair e (mem_noteLast he)
          rw [noteLast_players]
          exact ha.asks _ hplace p confirmid rfl
        · have hs := h.settled fun e he => hfair e (mem_noteLast he)
          have hpicked := (hs.asks _ hplace p confirmid rfl).2
          have hbound := hs.answered _ hplace p confirmid (by rw [hcheck.1])
          rw [noteLast_players, noteLast_cards]
          refine ⟨hpicked, .inr (.inl ?_)⟩
          change isBindSkills (s.cards p) (s.players p).pickedheroid = true
          rw [hpicked]
          exact hbound
      · rw [confirm_confirmheroid]
        exact hid
  · next hcheck =>
      refine h.wake.fail p fun hsettled => hcheck ?_
      rw [noteLast_players]
      exact hsettled

theorem confirmHero_safe (p : Fin n) (h : Held turn s m) :
    (confirmHero p turn).Safe Inv anyTime (fun _ => Held (turn.without p)) s m := by
  refine safe_bind.mpr (safe_get.mpr (safe_bind.mpr (safe_modify.mpr (safe_bind.mpr ?_))))
  unfold Coroutine.when
  split
  · next hid =>
      have hnoted := h.noteLast turn (.ask (s.players p).pickedheroid)
      have hasked : Inv ((s.noteLast turn (.ask (s.players p).pickedheroid)).wait p)
          (⟨.asked p (s.players p).pickedheroid, turn⟩ ::ₘ m) := by
        have hpicked : ((s.noteLast turn (.ask (s.players p).pickedheroid)).players
            p).pickedheroid =
            (s.players p).pickedheroid := by rw [noteLast_players]
        have hask := hnoted.ask p (hpicked.symm ▸ hid)
        rwa [hpicked] at hask
      refine safe_bind.mpr (safe_modify.mpr (safe_bind.mpr (safe_call.mpr
        ⟨hasked, fun s' m' hs' _ => ?_⟩)))
      refine safe_bind.mpr (safe_get.mpr (safe_bind.mpr (safe_call.mpr
        ⟨hs'.answer, fun s'' m'' hs'' _ => ?_⟩)))
      exact (confirmBound_safe hs'' hid).mono fun _ _ _ hheld => safe_modify.mpr (held_ready hheld)
  · next hid =>
      have hfail := h.fail p (e := .ask (s.players p).pickedheroid) hid
      exact held_ready hfail

theorem aiPickHero_safe (p : Fin n) (h : Held turn s m) :
    (aiPickHero p turn).Safe Inv anyTime (fun _ => Held (turn.without p)) s m := by
  refine safe_bind.mpr (safe_get.mpr ?_)
  dsimp only
  split
  · exact h.drop rfl
  · next heroid hdrawn =>
      have hs : Held turn { s with drawn := s.drawn + 1 } m :=
        Inv.same h rfl rfl rfl rfl rfl fun _ he => he
      refine safe_bind.mpr (safe_modify.mpr (safe_bind.mpr ?_))
      exact (pickHero_safe p heroid hs).mono fun _ _ _ hpicked => confirmHero_safe p hpicked

/-! ## The updates -/

/-- The room is started when every player of the list is settled. -/
theorem Inv.start (h : Inv s (⟨.opening, .last []⟩ ::ₘ m)) : Inv s.start m := by
  have hdrop := h.drop rfl
  refine ⟨hdrop.confirming, fun hfair => ?_, fun hfair => ?_⟩
  · have ha := hdrop.apart hfair
    exact ⟨ha.picks, ha.confirmed, ha.asks⟩
  · have hs := hdrop.settled hfair
    refine ⟨hs.confirmed, hs.asks, hs.answered, hs.passed, fun players cards byAi hstart p => ?_⟩
    obtain ⟨rfl, rfl, rfl⟩ : s.players = players ∧ s.cards = cards ∧ s.byAi = byAi := by
      simpa [Picking.start] using hstart
    have hconfirmed : (s.players p).confirmheroid ≠ 0 :=
      (h.settled hfair).passed _ (Multiset.mem_cons_self _ _) [] rfl p List.not_mem_nil
    obtain ⟨hpicked, hallowed⟩ := hs.confirmed p hconfirmed
    exact ⟨hpicked ▸ hconfirmed, hpicked, hallowed⟩

/-- The last update passes a player who has confirmed. -/
theorem Held.pass {rest : List (Fin n)} (h : Held (.last (p :: rest)) s m)
    (hp : (s.players p).confirmheroid ≠ 0) : Held (.last rest) s m := by
  refine Inv.move h rfl fun todo hturn q hq => ?_
  obtain rfl := Turn.last.inj hturn
  by_cases hqp : q = p
  · exact .inl (hqp ▸ hp)
  · exact .inr ⟨p :: rest, rfl, fun hmem => hq (List.mem_of_ne_of_mem hqp hmem)⟩

/-- The last update passes a player whom `aiPickHero` has settled. -/
theorem Held.settled {rest : List (Fin n)} (h : Held ((Turn.last (p :: rest)).without p) s m) :
    Held (.last rest) s m := by
  refine Inv.move h rfl fun todo hturn q hq => ?_
  obtain rfl := Turn.last.inj hturn
  refine .inr ⟨_, rfl, fun hmem => hq ?_⟩
  obtain ⟨hcons, hne⟩ := List.mem_filter.mp hmem
  exact List.mem_of_ne_of_mem (of_decide_eq_true hne) hcons

/-- The pick of a player who has not confirmed is taken over. -/
theorem Held.assign (h : Held turn s m) (hpicked : (s.players p).pickedheroid ≠ 0) :
    Held turn (s.assign p) m := by
  have hnoted : Held turn (s.note (.assign p (s.players p)
      (isBindSkills (s.cards p) (s.players p).pickedheroid) (s.byAi p))) m :=
    Inv.same h rfl rfl rfl rfl rfl fun _ => mem_note
  refine Inv.confirm hnoted p hpicked (fun _ => ⟨hpicked, rfl⟩) fun hfair => ⟨rfl, ?_⟩
  exact hfair _ (note_mem _)

theorem settle_safe (todo : List (Fin n)) (h : Held (.last todo) s m) :
    (settle todo).Safe Inv anyTime (fun _ => Inv) s m := by
  induction todo generalizing s m with
  | nil =>
      refine safe_bind.mpr (safe_call.mpr ⟨?_, fun s' m' hs' _ => safe_modify.mpr hs'.start⟩)
      exact Inv.move h rfl fun todo hturn q hq => .inr ⟨todo, hturn, hq⟩
  | cons p rest ih =>
      refine safe_bind.mpr (safe_get.mpr ?_)
      dsimp only
      split
      · refine safe_bind.mpr ((aiPickHero_safe p h).mono fun _ s' m' hs' => ?_)
        exact ih hs'.settled
      · next hneither =>
          refine safe_bind.mpr ?_
          unfold Coroutine.when
          split
          · next hconfirm =>
              have hpicked : (s.players p).pickedheroid ≠ 0 := fun h0 => hneither ⟨hconfirm, h0⟩
              refine safe_modify.mpr (ih ((h.assign hpicked).pass ?_))
              unfold Picking.assign
              rw [confirm_confirmheroid]
              exact hpicked
          · next hconfirm => exact ih (h.pass hconfirm)

theorem update_safe (h : Inv s m) : (update : Code n Unit).Safe Inv anyTime (fun _ => Inv) s m := by
  refine safe_bind.mpr (safe_get.mpr ?_)
  unfold Coroutine.when
  split
  · have hs : Inv { s with scheduled := false } m := h.same rfl rfl rfl rfl rfl fun _ he => he
    refine safe_bind.mpr (safe_modify.mpr ?_)
    split
    · refine settle_safe _ (hs.begin fun todo hturn q => ?_)
      obtain rfl := Turn.last.inj hturn
      exact List.mem_finRange q
    · refine safe_bind.mpr ((safe_forM (P := Inv) (fun p _ s m hp => ?_) hs).mono ?_)
      · refine safe_bind.mpr (safe_get.mpr ?_)
        split
        · have hbegin : Held .robots s m := hp.begin fun todo hturn => by cases hturn
          exact (aiPickHero_safe p hbegin).mono fun _ _ _ hheld => Inv.drop hheld rfl
        · exact hp
      · intro _ s' m' hs'
        exact safe_modify.mpr (hs'.same rfl rfl rfl rfl rfl fun _ he => he)
  · exact h

theorem Inv.rebind (h : Inv s m) (e : Rebind n) : Inv (e.run s) m := by
  refine ⟨h.confirming, fun hfair => ?_, fun hfair => ?_⟩
  · have ha := h.apart fun e' he => hfair e' (mem_note he)
    exact ⟨ha.picks, ha.confirmed, ha.asks⟩
  · have hs := h.settled fun e' he => hfair e' (mem_note he)
    have hkept := hfair _ (note_mem _)
    have hother : ∀ q, q ≠ e.p → (e.run s).cards q = s.cards q := fun q hq =>
      Function.update_of_ne hq _ _
    have hown : (e.run s).cards e.p = e.cards := Function.update_self _ _ _
    refine ⟨fun q hq => ?_, hs.asks, fun place hplace q confirmid hwait => ?_, hs.passed,
      hs.started⟩
    · obtain ⟨hpicked, hallowed⟩ := hs.confirmed q hq
      refine ⟨hpicked, ?_⟩
      by_cases hqp : q = e.p
      · subst hqp
        rcases hallowed with hai | hbind | hbyAi
        · exact .inl hai
        · refine .inr (.inl ?_)
          rw [hown]
          exact hkept (.inl hq) hbind
        · exact .inr (.inr hbyAi)
      · rw [hother q hqp]
        exact hallowed
    · have hbind := hs.answered place hplace q confirmid hwait
      have hask : place.asks = some (q, confirmid) := by
        unfold Place.asks
        rw [hwait]
      by_cases hqp : q = e.p
      · subst hqp
        rw [hown]
        rw [← (hs.asks place hplace e.p confirmid hask).2] at hbind ⊢
        exact hkept (.inr (h.confirming_pos hplace hask)) hbind
      · rw [hother q hqp]
        exact hbind

theorem inv_of_reachable {isAI : Fin n → Bool} {cards : Fin n → List Card} {random : ℕ → ℕ}
    {pool : Pool (Picking n) (Place n)}
    (h : ((server n).system (picking isAI cards random)).Reachable pool) :
    Inv pool.shared pool.places := by
  refine Server.invariant (G := ⟨fun _ _ _ => True, anyTime, fun _ _ _ => True⟩) Inv ?_
    (fun s m r hs _ => ?_) (fun s m e hs _ => hs.rebind e) (h.mono fun pool l _ => ?_)
  · refine ⟨fun p => ?_, fun _ => ⟨?_, ?_, ?_⟩, fun _ => ⟨?_, ?_, ?_, ?_, ?_⟩⟩
    · simp [picking]
    · exact fun p _ _ hp => absurd rfl hp
    · exact fun p hp => absurd rfl hp
    · exact fun place hplace => absurd hplace (Multiset.notMem_zero place)
    · exact fun p hp => absurd rfl hp
    · exact fun place hplace => absurd hplace (Multiset.notMem_zero place)
    · exact fun place hplace => absurd hplace (Multiset.notMem_zero place)
    · exact fun place hplace => absurd hplace (Multiset.notMem_zero place)
    · exact fun players cards byAi hstart => by cases hstart
  · cases r with
    | pickHero p heroid =>
        refine (pickHero_safe p heroid ?_).mono fun _ _ _ hheld => Inv.drop hheld rfl
        exact hs.begin fun todo hturn => by cases hturn
    | confirmHero p =>
        refine (confirmHero_safe p ?_).mono fun _ _ _ hheld => Inv.drop hheld rfl
        exact hs.begin fun todo hturn => by cases hturn
    | update => exact update_safe hs
  · cases l with
    | request r => trivial
    | resume k => exact fun w _ => trivial
    | outside e => trivial

/-! ## Results -/

instance (e : Event n) : Decidable e.Apart := by
  cases e with
  | pick p heroid players confirming => exact inferInstanceAs (Decidable (_ ∧ _))
  | _ => exact .isTrue trivial

instance (e : Event n) : Decidable e.Settled := by
  cases e with
  | pick p heroid players confirming => exact inferInstanceAs (Decidable (_ ∧ _))
  | assign p v bound byAi => exact inferInstanceAs (Decidable (_ ∨ _))
  | ask confirmid => exact inferInstanceAs (Decidable (_ ≠ _))
  | check p confirmid bind players => exact inferInstanceAs (Decidable (_ ∧ _))
  | rebind v confirming before after => exact inferInstanceAs (Decidable (_ → _))

/-- Picks are of different series, and so are confirms. -/
structure Exclusive (s : Picking n) : Prop where
  picks : ∀ p q, p ≠ q → (s.players p).pickedheroid ≠ 0 → (s.players q).pickedheroid ≠ 0 →
    Macro_GetCardSerialId (s.players p).pickedheroid ≠
      Macro_GetCardSerialId (s.players q).pickedheroid
  confirms : ∀ p q, p ≠ q → (s.players p).confirmheroid ≠ 0 → (s.players q).confirmheroid ≠ 0 →
    Macro_GetCardSerialId (s.players p).confirmheroid ≠
      Macro_GetCardSerialId (s.players q).confirmheroid

/-- Picks of free series by players who have not confirmed another keep the heroes exclusive. -/
theorem picks_exclusive {isAI : Fin n → Bool} {cards : Fin n → List Card} {random : ℕ → ℕ}
    {pool : Pool (Picking n) (Place n)}
    (h : ((server n).system (picking isAI cards random)).Reachable pool)
    (hfair : ∀ e ∈ pool.shared.log, e.Apart) : Exclusive pool.shared := by
  have ha := (inv_of_reachable h).apart hfair
  refine ⟨ha.picks, fun p q hne hp hq => ?_⟩
  obtain ⟨hpickedp, hseriesp⟩ := ha.confirmed p hp
  obtain ⟨hpickedq, hseriesq⟩ := ha.confirmed q hq
  rw [hseriesp, hseriesq]
  exact ha.picks p q hne hpickedp hpickedq

/-- Players who are no robots and have the same cards. -/
def humans (n : ℕ) (cards : List Card) : System (Pool (Picking n) (Place n))
    (Cooperative.Label (Request n) (Rebind n)) :=
  (server n).system (picking (fun _ => false) (fun _ => cards) fun _ => 0)

/-- A card with all its skills. -/
def skilled (dataId : ℤ) : Card := ⟨"", dataId, 1, 0, List.replicate 8 1⟩

/-- Two players pick heroes of two series, and the first confirms. -/
theorem picks_exclusive_apart : ∃ pool : Pool (Picking 2) (Place 2),
    (pool.shared.players 0).confirmheroid = 110001 ∧
      (pool.shared.players 1).pickedheroid = 120001 ∧ Exclusive pool.shared := by
  have hrun : ((humans 2 [skilled 110001]).run (humans 2 [skilled 110001]).init
      [.request (.pickHero 0 110001), .request (.pickHero 1 120001), .request (.confirmHero 0),
        .resume 2, .resume 2]).map (fun pool => ((pool.shared.players 0).confirmheroid,
          (pool.shared.players 1).pickedheroid, decide (∀ e ∈ pool.shared.log, e.Apart))) =
      some (110001, 120001, true) := by
    decide +kernel
  obtain ⟨pool, hp, hread⟩ := Option.map_eq_some_iff.mp hrun
  simp only [Prod.mk.injEq, decide_eq_true_eq] at hread
  obtain ⟨hconfirm, hpicked, hfair⟩ := hread
  exact ⟨pool, hconfirm, hpicked, picks_exclusive (System.reachable_of_run _ hp) hfair⟩

/-- `pickHero` compares tens of ids, so two players get the same series. -/
theorem picks_shared : ∃ pool, (humans 2 []).Reachable pool ∧ ¬ Exclusive pool.shared := by
  have hrun : ((humans 2 []).run (humans 2 []).init
      [.request (.pickHero 0 110001), .request (.pickHero 1 110011)]).map
      (fun pool => ((pool.shared.players 0).pickedheroid, (pool.shared.players 1).pickedheroid)) =
      some (110001, 110011) := by
    decide +kernel
  obtain ⟨pool, hp, hread⟩ := Option.map_eq_some_iff.mp hrun
  obtain ⟨hfirst, hsecond⟩ := Prod.mk.inj hread
  refine ⟨pool, System.reachable_of_run _ hp, fun hexclusive => ?_⟩
  have hapart := hexclusive.picks 0 1 (by decide)
  rw [hfirst, hsecond] at hapart
  exact hapart (by decide) (by decide) (by decide)

/-- What the room is started with, when the confirms stay and the timeout settles everybody. -/
theorem heroes_valid {isAI : Fin n → Bool} {cards : Fin n → List Card} {random : ℕ → ℕ}
    {pool : Pool (Picking n) (Place n)}
    (h : ((server n).system (picking isAI cards random)).Reachable pool)
    (hfair : ∀ e ∈ pool.shared.log, e.Settled) {players : Fin n → Player}
    {cards' : Fin n → List Card} {byAi : Fin n → Option ℤ}
    (hstart : pool.shared.started = some (players, cards', byAi)) (p : Fin n) :
    (players p).pickedheroid ≠ 0 ∧ (players p).pickedheroid = (players p).confirmheroid ∧
      Allowed (players p) (cards' p) (byAi p) :=
  ((inv_of_reachable h).settled hfair).started players cards' byAi hstart p

instance (v : Player) (cards : List Card) (byAi : Option ℤ) : Decidable (Allowed v cards byAi) :=
  inferInstanceAs (Decidable (_ ∨ _))

/-- A player picks and confirms a hero with its skills. -/
theorem heroes_valid_confirmed : ∃ pool players cards byAi,
    (humans 1 [skilled 110001]).Reachable pool ∧
      pool.shared.started = some (players, cards, byAi) ∧ (players 0).pickedheroid ≠ 0 ∧
        (players 0).pickedheroid = (players 0).confirmheroid ∧
          Allowed (players 0) (cards 0) (byAi 0) := by
  have hrun : ((humans 1 [skilled 110001]).run (humans 1 [skilled 110001]).init
      [.request (.pickHero 0 110001), .resume 0, .request (.confirmHero 0), .resume 0, .resume 0,
        .resume 0, .request .update, .resume 0]).map (fun pool =>
          (pool.shared.started.isSome, decide (∀ e ∈ pool.shared.log, e.Settled))) =
      some (true, true) := by
    decide +kernel
  obtain ⟨pool, hp, hread⟩ := Option.map_eq_some_iff.mp hrun
  simp only [Prod.mk.injEq, decide_eq_true_eq] at hread
  obtain ⟨hsome, hfair⟩ := hread
  obtain ⟨⟨players, cards, byAi⟩, hstart⟩ := Option.isSome_iff_exists.mp hsome
  have hreach := System.reachable_of_run _ hp
  exact ⟨pool, players, cards, byAi, hreach, hstart, heroes_valid hreach hfair hstart 0⟩

/-- A player picks a hero it has not, and the time ends. -/
theorem hero_unowned : ∃ pool players cards byAi, (humans 1 []).Reachable pool ∧
    pool.shared.started = some (players, cards, byAi) ∧
      ¬ Allowed (players 0) (cards 0) (byAi 0) := by
  have hrun : ((humans 1 []).run (humans 1 []).init
      ([.request (.pickHero 0 110001), .resume 0] ++ List.replicate 32 (.request .update) ++
        [.resume 0])).map (fun pool => pool.shared.started.map fun (players, cards, byAi) =>
          decide (Allowed (players 0) (cards 0) (byAi 0))) = some (some false) := by
    decide +kernel
  obtain ⟨pool, hp, hread⟩ := Option.map_eq_some_iff.mp hrun
  obtain ⟨⟨players, cards, byAi⟩, hstart, hfalse⟩ := Option.map_eq_some_iff.mp hread
  exact ⟨pool, players, cards, byAi, System.reachable_of_run _ hp, hstart,
    of_decide_eq_false hfalse⟩

end GameServer.PickHero
