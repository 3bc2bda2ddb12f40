import GameServer.PlayerFrame

/-!
# The cards of explorations

`exploreBegin` takes the cards that the client names, whether the player has them or not, and
whether they are exploring or not. When every request names cards of the player that are free, no
card is in two slots.
-/

namespace GameServer.Player.ExploreCards

open Goods Agent Cooperative Coroutine AgentService Shop Transition

variable {w : World} {q : ExploreData} {s s' : State w} {m : Multiset Place} {args : BeginArgs}
  {c : String}

/-- The card is in a slot of an exploration under way. -/
def Occupies (explores : String → Option Explore) (c u : String) (i : Fin 3) : Prop :=
  ∃ unit, explores u = some unit ∧ unit.time ≠ 0 ∧ (unit.slots i).uuid = c

/-- The player had the card, and it was not exploring, by its own time and by the slots. -/
def Free (found : Found) (c : String) : Prop :=
  (∃ card, Cards.getCardByUuid found.cards c = some card ∧ card.explore ≤ found.now) ∧
    ∀ u i, ¬ Occupies found.explores c u i

structure Exclusive (s : State w) : Prop where
  once : ∀ c ≠ "", ∀ u i v j, Occupies s.explores c u i → Occupies s.explores c v j → u = v ∧ i = j
  owned : ∀ c ≠ "", ∀ u i, Occupies s.explores c u i → c ∈ s.user.cards.map (·.uuid)
  free : ∀ c ≠ "", ∀ u i, Occupies s.explores c u i → ∃ found ∈ s.history.found u, Free found c

/-- Waiting there, a request is about to put the card into a slot. -/
def Names (c : String) : Place → Prop
  | .setExplore args => ∃ i, args.uuids i = c
  | _ => False

instance : DecidablePred (Names c) := fun place => by
  cases place <;> simp only [Names] <;> infer_instance

/-- The cards of a request are different from each other, free, and named by no other request that
has not begun its exploration yet. -/
def guard (w : World) : Server.Guard (State w) Place Request Clock where
  request s m r := match r with
    | .exploreBegin args => ∀ unit ∈ s.explores args.uuid, unit.time = 0 →
        ∀ i, args.uuids i ≠ "" → Free ⟨s.user.cards, s.explores, s.clock.now⟩ (args.uuids i) ∧
          (∀ j, args.uuids j = args.uuids i → j = i) ∧
          ∀ place ∈ m, ¬ Names (args.uuids i) place
    | _ => True
  resume _ _ _ := True
  outside := (anyOrder w).outside

/-- The cards that waiting requests name are free and named once. -/
structure Inv (s : State w) (m : Multiset Place) : Prop where
  exclusive : Exclusive s
  named : ∀ c ≠ "", m.countP (Names c) ≤ 1
  unoccupied : ∀ c ≠ "", ∀ place ∈ m, Names c place → ∀ u i, ¬ Occupies s.explores c u i
  owned : ∀ c ≠ "", ∀ place ∈ m, Names c place → c ∈ s.user.cards.map (·.uuid)
  distinct : ∀ args, .setExplore args ∈ m → ∀ i j, args.uuids i ≠ "" →
    args.uuids j = args.uuids i → j = i

/-- What all requests but `exploreBegin` keep. -/
structure Kept (s s' : State w) : Prop where
  uuids : s.user.cards.map (·.uuid) <+: s'.user.cards.map (·.uuid)
  occupied : ∀ c ≠ "", ∀ u i, Occupies s'.explores c u i → Occupies s.explores c u i
  found : s'.history.found = s.history.found

theorem Inv.of_kept (hk : Kept s s') (h : Inv s m) : Inv s' m where
  exclusive := {
    once := fun c hc u i v j hu hv =>
      h.exclusive.once c hc u i v j (hk.occupied c hc u i hu) (hk.occupied c hc v j hv)
    owned := fun c hc u i hu =>
      hk.uuids.subset (h.exclusive.owned c hc u i (hk.occupied c hc u i hu))
    free := fun c hc u i hu => by
      rw [hk.found]
      exact h.exclusive.free c hc u i (hk.occupied c hc u i hu) }
  named := h.named
  unoccupied c hc place hplace hname u i hu :=
    h.unoccupied c hc place hplace hname u i (hk.occupied c hc u i hu)
  owned c hc place hplace hname := hk.uuids.subset (h.owned c hc place hplace hname)
  distinct := h.distinct

theorem inv_apart {place : Place} (hplace : ∀ args, place ≠ .setExplore args) :
    Inv s (place ::ₘ m) ↔ Inv s m := by
  have hnames : ∀ c, ¬ Names c place := fun c hc => by
    cases place with
    | setExplore args => exact hplace args rfl
    | _ => exact hc
  constructor
  · intro h
    refine ⟨h.exclusive, fun c hc => ?_, fun c hc p hp => h.unoccupied c hc p
      (Multiset.mem_cons_of_mem hp), fun c hc p hp => h.owned c hc p (Multiset.mem_cons_of_mem hp),
      fun args hargs => h.distinct args (Multiset.mem_cons_of_mem hargs)⟩
    have hcount := h.named c hc
    rwa [Multiset.countP_cons_of_neg _ (hnames c)] at hcount
  · intro h
    refine ⟨h.exclusive, fun c hc => ?_, fun c hc p hp hname => ?_, fun c hc p hp hname => ?_,
      fun args hargs => ?_⟩
    · rw [Multiset.countP_cons_of_neg _ (hnames c)]
      exact h.named c hc
    · rcases Multiset.mem_cons.mp hp with rfl | hp
      · exact absurd hname (hnames c)
      · exact h.unoccupied c hc p hp hname
    · rcases Multiset.mem_cons.mp hp with rfl | hp
      · exact absurd hname (hnames c)
      · exact h.owned c hc p hp hname
    · rcases Multiset.mem_cons.mp hargs with hargs | hargs
      · exact absurd hargs.symm (hplace args)
      · exact h.distinct args hargs

theorem Inv.drop (h : Inv s (.setExplore args ::ₘ m)) : Inv s m where
  exclusive := h.exclusive
  named c hc := (Multiset.countP_le_of_le _ (Multiset.le_cons_self m _)).trans (h.named c hc)
  unoccupied c hc place hplace := h.unoccupied c hc place (Multiset.mem_cons_of_mem hplace)
  owned c hc place hplace := h.owned c hc place (Multiset.mem_cons_of_mem hplace)
  distinct args hargs := h.distinct args (Multiset.mem_cons_of_mem hargs)

/-! ## The other requests -/

theorem Kept.of_grants {op : Place} (h : Grants op s s') : Kept s s' :=
  ⟨h.uuids, fun c _ u i hu => h.explores ▸ hu, by rw [h.history]⟩

theorem Kept.of_bought (h : Bought s s') : Kept s s' :=
  ⟨h.uuids, fun c _ u i hu => h.explores ▸ hu, by rw [h.history]⟩

theorem Kept.of_reset {u : String} (h : ResetWrite u s s') : Kept s s' := by
  cases h with
  | draw drawn made => exact ⟨List.prefix_rfl, fun _ _ _ _ hu => hu, rfl⟩
  | reset unit unit' hunit htime hslots =>
      refine ⟨List.prefix_rfl, fun c hc v i hv => ?_, rfl⟩
      obtain ⟨unit₀, hunit₀, hne, hslot⟩ := hv
      by_cases hvu : v = u
      · rw [hvu] at hunit₀
        simp only [Function.update_self, Option.some.injEq] at hunit₀
        exact absurd (hunit₀ ▸ htime) hne
      · simp only [Function.update_of_ne hvu] at hunit₀
        exact ⟨unit₀, hunit₀, hne, hslot⟩

theorem Kept.of_end {u : String} (h : EndWrite u s s') : Kept s s' := by
  cases h with
  | grants h => exact .of_grants h
  | note h => exact h ▸ ⟨List.prefix_rfl, fun _ _ _ _ hu => hu, rfl⟩
  | reset h => exact .of_reset h

theorem Kept.of_refresh {u : String} (h : RefreshWrite u s s') : Kept s s' := by
  cases h with
  | reset h => exact .of_reset h
  | spend h =>
      cases h with
      | money paid h => exact .of_grants h
      | quotas h | times h | count _ h | note _ _ h =>
          exact h ▸ ⟨List.prefix_rfl, fun _ _ _ _ hu => hu, rfl⟩

theorem Kept.tick (s : State w) (clock : Clock) : Kept s { s with clock } :=
  ⟨List.prefix_rfl, fun _ _ _ _ hu => hu, rfl⟩

theorem stays_safe {α : Type} {t : Step w α} {P : Set Place} {R : State w → State w → Prop}
    (ht : t.Stays P R True) (hP : ∀ place ∈ P, ∀ args, place ≠ .setExplore args)
    (hR : ∀ s s', R s s' → Kept s s') (h : Inv s m) :
    t.Safe Inv (guard w).resume (fun _ => Inv) s m :=
  (ht s).safe_apart (fun place hplace _ _ => inv_apart (hP place hplace))
    (fun s s' _ hw h => h.of_kept (hR s s' hw)) h

/-! ## `exploreBegin` -/

/-- The cards of a request that is not refused are claimed. -/
theorem Inv.claim (h : Inv s m) {unit : Explore} (hunit : s.explores args.uuid = some unit)
    (htime : unit.time = 0) (hguard : (guard w).request s m (.exploreBegin args)) :
    Inv s (.setExplore args ::ₘ m) where
  exclusive := h.exclusive
  named c hc := by
    by_cases hname : Names c (.setExplore args)
    · obtain ⟨i, rfl⟩ := id hname
      rw [Multiset.countP_cons_of_pos _ hname,
        Multiset.countP_eq_zero.mpr (hguard unit hunit htime i hc).2.2]
    · rw [Multiset.countP_cons_of_neg _ hname]
      exact h.named c hc
  unoccupied c hc place hplace hname := by
    rcases Multiset.mem_cons.mp hplace with rfl | hplace
    · obtain ⟨i, rfl⟩ := hname
      exact (hguard unit hunit htime i hc).1.2
    · exact h.unoccupied c hc place hplace hname
  owned c hc place hplace hname := by
    rcases Multiset.mem_cons.mp hplace with rfl | hplace
    · obtain ⟨i, rfl⟩ := hname
      obtain ⟨card, hcard, -⟩ := (hguard unit hunit htime i hc).1.1
      exact mem_of_getCardByUuid hcard
    · exact h.owned c hc place hplace hname
  distinct args' hargs' := by
    rcases Multiset.mem_cons.mp hargs' with hargs' | hargs'
    · obtain rfl := Place.setExplore.inj hargs'
      exact fun i j hi hj => (hguard unit hunit htime i hi).2.1 j hj
    · exact h.distinct args' hargs'

theorem occupies_update {explores : String → Option Explore} {unit : Explore} {u v : String}
    {i : Fin 3} (h : Occupies (Function.update explores u (some unit)) c v i) :
    (v = u ∧ (unit.slots i).uuid = c) ∨ (v ≠ u ∧ Occupies explores c v i) := by
  obtain ⟨unit', hunit', hne, hslot⟩ := h
  by_cases hvu : v = u
  · rw [hvu, Function.update_self, Option.some.injEq] at hunit'
    exact .inl ⟨hvu, hunit' ▸ hslot⟩
  · rw [Function.update_of_ne hvu] at hunit'
    exact .inr ⟨hvu, unit', hunit', hne, hslot⟩

/-- The exploration begins with the cards that were claimed. -/
theorem Inv.begin (h : Inv s (.setExplore args ::ₘ m)) {found : Found}
    (hfree : ∀ i, args.uuids i ≠ "" → Free found (args.uuids i)) (unit : Explore)
    (hslots : ∀ i, (unit.slots i).uuid = args.uuids i) (due : ℤ) :
    Inv { s with
      explores := Function.update s.explores args.uuid (some unit)
      history := { s.history with
        due := Function.update s.history.due args.uuid (some due)
        found := Function.update s.history.found args.uuid (some found) } } m := by
  have hmem : Place.setExplore args ∈ .setExplore args ::ₘ m := Multiset.mem_cons_self _ _
  have hunoccupied : ∀ i, args.uuids i ≠ "" → ∀ u j, ¬ Occupies s.explores (args.uuids i) u j :=
    fun i hi => h.unoccupied _ hi _ hmem ⟨i, rfl⟩
  have hd := h.drop
  refine ⟨⟨fun c hc u i v j hu hv => ?_, fun c hc u i hu => ?_, fun c hc u i hu => ?_⟩, hd.named,
    fun c hc place hplace hname u i hu => ?_, hd.owned, hd.distinct⟩
  · rcases occupies_update hu with ⟨rfl, hi⟩ | ⟨hne, hu⟩ <;>
      rcases occupies_update hv with ⟨rfl, hj⟩ | ⟨hne', hv⟩
    · rw [hslots] at hi hj
      exact ⟨rfl, h.distinct args hmem j i (hj ▸ hc) (hi.trans hj.symm)⟩
    · rw [hslots] at hi
      exact absurd (hi ▸ hv) (hunoccupied i (hi ▸ hc) v j)
    · rw [hslots] at hj
      exact absurd (hj ▸ hu) (hunoccupied j (hj ▸ hc) u i)
    · exact h.exclusive.once c hc u i v j hu hv
  · rcases occupies_update hu with ⟨rfl, hi⟩ | ⟨hne, hu⟩
    · rw [hslots] at hi
      exact h.owned c hc _ hmem ⟨i, hi⟩
    · exact h.exclusive.owned c hc u i hu
  · rcases occupies_update hu with ⟨rfl, hi⟩ | ⟨hne, hu⟩
    · rw [hslots] at hi
      exact ⟨found, Function.update_self .., hi ▸ hfree i (hi ▸ hc)⟩
    · obtain ⟨found', hfound', hf⟩ := h.exclusive.free c hc u i hu
      exact ⟨found', (Function.update_of_ne hne ..).trans hfound', hf⟩
  · rcases occupies_update hu with ⟨rfl, hi⟩ | ⟨hne, hu⟩
    · -- the claim of this request leaves no room for another one of the card
      rw [hslots] at hi
      have hcount := h.named c hc
      rw [Multiset.countP_cons_of_pos _ (show Names c (.setExplore args) from ⟨i, hi⟩)] at hcount
      have hpos := Multiset.countP_pos.mpr ⟨place, hplace, hname⟩
      omega
    · exact hd.unoccupied c hc place hplace hname u i hu

theorem beginExplore_safe {found : Found} (h : Inv s (.setExplore args ::ₘ m))
    (hfree : ∀ i, args.uuids i ≠ "" → Free found (args.uuids i)) :
    (beginExplore q args found).Safe Inv (guard w).resume (fun _ => Inv) s m := by
  refine safe_bind.mpr (safe_get.mpr ?_)
  cases hunit : s.explores args.uuid with
  | none => exact h.drop
  | some unit =>
      simp only
      cases hrow : q.row unit.dataId with
      | none => exact h.drop
      | some dat =>
          have hplace : ∀ args', Place.beginExplore args ≠ .setExplore args' := fun _ => by simp
          refine safe_bind.mpr (safe_set.mpr (safe_call.mpr ⟨(inv_apart hplace).mpr ?_,
            fun s m hs _ => (inv_apart hplace).mp hs⟩))
          exact h.begin hfree _ (fun _ => rfl) _

theorem stays_setExplore (uuid : String) (time : ℤ) :
    (Cards.setExplore (.setExplore args) uuid time : Step w Unit).Stays {.setExplore args} Kept
      True := by
  refine stays_get_bind fun s => ?_
  cases Cards.getCardByUuid s.user.cards uuid with
  | none => exact trivial
  | some card =>
      refine ⟨⟨?_, fun _ _ _ _ hu => hu, rfl⟩, stays_call (Set.mem_singleton _) _⟩
      have huuids : (Cards.setCard s.user.cards uuid fun v => { v with explore := time }).map
          (·.uuid) = s.user.cards.map (·.uuid) := by
        rw [Cards.setCard, List.map_map]
        exact List.map_congr_left fun v _ => by
          simp only [Function.comp_apply]
          split_ifs <;> rfl
      exact huuids ▸ List.prefix_rfl

theorem exploreBegin_safe (h : Inv s m) (hguard : (guard w).request s m (.exploreBegin args)) :
    (exploreBegin q args).Safe Inv (guard w).resume (fun _ => Inv) s m := by
  refine safe_bind.mpr (safe_get.mpr ?_)
  split_ifs
  · exact h
  · cases hunit : s.explores args.uuid with
    | none => exact h
    | some unit =>
        simp only
        split_ifs with htime
        · exact h
        · have htime := not_not.mp htime
          refine (stays_forM fun i _ => stays_when fun _ => stays_setExplore _ _).then_safe
            (fun _ _ _ hk h => h.of_kept hk) (fun _ _ _ => Inv.drop) (h.claim hunit htime hguard)
            fun _ s m hs => ?_
          exact safe_bind.mpr ((beginExplore_safe hs fun i hi =>
            (hguard unit hunit htime i hi).1).mono fun _ _ _ h => h)

/-! ## Runs -/

theorem handle_safe (r : Request) (h : Inv s m) (hguard : (guard w).request s m r) :
    (handle q r).Safe Inv (guard w).resume (fun _ => Inv) s m := by
  cases r with
  | buyShopItem id num =>
      refine safe_bind.mpr (stays_safe (stays_buyShopItem id num) ?_ (fun _ _ => .of_bought) h)
      rintro place hplace args rfl
      exact hplace
  | exploreBegin args => exact safe_bind.mpr (exploreBegin_safe h hguard)
  | exploreEnd u =>
      exact safe_bind.mpr (stays_safe (stays_exploreEnd q u) (by simp) (fun _ _ => .of_end) h)
  | exploreRefresh u =>
      refine safe_bind.mpr (stays_safe (stays_exploreRefresh q u) ?_ (fun _ _ => .of_refresh) h)
      rintro place ⟨phase, paid, rfl⟩ args
      simp
  | refreshTimes =>
      exact stays_safe (P := {.times}) (stays_refreshTimes (Set.mem_singleton _) fun _ _ =>
        ⟨List.prefix_rfl, fun _ _ _ _ hu => hu, rfl⟩) (by simp) (fun _ _ h => h) h

/-- Every card is in one slot of one exploration under way, belongs to the player, and was free when
the exploration began. -/
theorem explore_exclusive (s₀ : State w) (h₀ : Exclusive s₀) {p : Pool (State w) Place}
    (h : ((server w q).system s₀).Runs (guard w).Admits p) : Exclusive p.shared :=
  (Server.invariant Inv ⟨h₀, by simp, by simp, by simp, by simp⟩
    (fun _ _ r hs hr => handle_safe r hs hr)
    (fun s _ clock hs _ => hs.of_kept (.tick s clock)) h).exclusive

theorem idler_exclusive : Exclusive idler := by
  have hidle : ∀ c u i, ¬ Occupies idler.explores c u i := fun c u i ⟨unit, hunit, hne, _⟩ => by
    simp only [idler] at hunit
    split_ifs at hunit
    obtain rfl := Option.some.inj hunit
    exact hne rfl
  exact ⟨fun c _ u i _ _ hu => absurd hu (hidle c u i), fun c _ u i hu => absurd hu (hidle c u i),
    fun c _ u i hu => absurd hu (hidle c u i)⟩

/-- The player sends his card on an exploration. -/
theorem explore_exclusive_begun :
    ∃ p, ((server default library).system idler).Runs (guard default).Admits p ∧
      Occupies p.shared.explores "c" "e" 0 ∧ Exclusive p.shared := by
  have hrun : ∃ p, ((server default library).system idler).Runs (guard default).Admits p ∧
      Occupies p.shared.explores "c" "e" 0 := by
    refine ⟨_, .step (i := .resume 0) (.step (i := .request (.exploreBegin ⟨"e", !["c", "", ""]⟩))
      .init ?_ rfl) (fun _ _ => trivial) rfl, _, rfl, by decide, rfl⟩
    intro unit hunit htime i hi
    fin_cases i
    · refine ⟨⟨⟨_, rfl, by decide⟩, fun u j hu => ?_⟩, by decide, by decide⟩
      obtain ⟨unit', hunit', hne, -⟩ := hu
      simp only [Server.system, idler] at hunit'
      split_ifs at hunit'
      obtain rfl := Option.some.inj hunit'
      exact hne rfl
    · exact absurd rfl hi
    · exact absurd rfl hi
  obtain ⟨p, hp, hoccupies⟩ := hrun
  exact ⟨p, hp, hoccupies, explore_exclusive idler idler_exclusive hp⟩

/-- One card in all three slots. -/
theorem exploreBegin_thrice : ¬ ∀ (w : World) (q : ExploreData) (s₀ : State w), Exclusive s₀ →
    ∀ p, ((server w q).system s₀).Runs (anyOrder w).Admits p → Exclusive p.shared := fun hall => by
  have hrun : ∃ p, ((server default library).system idler).Runs (anyOrder default).Admits p ∧
      Occupies p.shared.explores "c" "e" 0 ∧ Occupies p.shared.explores "c" "e" 1 := by
    refine ⟨_, .step (i := .resume 0) (.step (i := .resume 0) (.step (i := .resume 0) (.step
      (i := .request (.exploreBegin ⟨"e", fun _ => "c"⟩)) .init trivial rfl)
        (fun _ _ => trivial) rfl)
      (fun _ _ => trivial) rfl) (fun _ _ => trivial) rfl, ⟨_, rfl, by decide, rfl⟩,
      ⟨_, rfl, by decide, rfl⟩⟩
  obtain ⟨p, hp, hzero, hone⟩ := hrun
  have heq := (hall default library idler idler_exclusive p hp).once "c" (by decide) "e" 0 "e" 1
    hzero hone
  exact absurd heq.2 (by decide)

end GameServer.Player.ExploreCards
