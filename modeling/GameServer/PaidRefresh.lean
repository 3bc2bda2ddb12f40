import GameServer.PlayerFrame

/-!
# Refreshes that cost diamonds

`exploreRefresh` looks at the balance, gives up control, and takes its diamonds afterwards; what is
missing by then it does not take. It counts a free refresh before it gives up control.
-/

namespace GameServer.Player.PaidRefresh

open Goods Agent Cooperative Coroutine AgentService Shop Transition

variable {w : World} {q : ExploreData} {s s' : State w} {m : Multiset Place} {u : String}

def OfRefresh : Place → Bool
  | .refresh _ _ _ => true
  | _ => false

/-- The diamonds that `exploreRefresh` took off the balance. -/
def deducted (l : List (Debit Place)) : ℤ :=
  ((l.filter fun d => OfRefresh d.op && d.currency = .money).map (·.amount)).sum

/-- The value that the counter of refreshes had when it was last written. -/
def stored (s : State w) : ℤ := (s.user.activitys RefreshExplore).elim 0 (·.value)

/-- Waiting there, a refresh has taken its diamonds and not replied yet. -/
def Debited : Place → Bool
  | .refresh .pay _ true | .refresh .count _ true | .refresh .reset _ true => true
  | _ => false

/-- When a refresh goes on to take its diamonds, they are there. The counter does not overflow. -/
def guard (w : World) (q : ExploreData) : Server.Guard (State w) Place Request Clock where
  request _ _ _ := True
  resume s _ place := match place with
    | .refresh .times _ _ => q.RefreshExploreCost ≤ s.user.account.money
    | .refresh .pay _ _ => counted s RefreshExplore < maxinteger
    | _ => True
  outside := (anyOrder w).outside

/-- The deducted diamonds are those of the replies and of the refreshes that are still to reply. -/
structure Inv (q : ExploreData) (level : ℤ) (s : State w) (m : Multiset Place) : Prop where
  ledger : deducted s.ledger =
    q.RefreshExploreCost * (s.history.paid + m.countP (fun place => Debited place))
  limit : s.history.free ≤ q.RefreshExploreTimes
  within : s.history.free ≤ stored s
  level : s.user.level = level
  explored : ∀ place ∈ m, ∀ phase u paid, place = .refresh phase u paid → (s.explores u).isSome

variable {level : ℤ}

/-- What the other requests keep. -/
structure Kept (s s' : State w) : Prop where
  ledger : ∃ l, s'.ledger = s.ledger ++ l ∧ ∀ d ∈ l, OfRefresh d.op = false
  activitys : s'.user.activitys RefreshExplore = s.user.activitys RefreshExplore
  free : s'.history.free = s.history.free
  paid : s'.history.paid = s.history.paid
  level : s'.user.level = s.user.level
  explored : ∀ u, (s'.explores u).isSome = (s.explores u).isSome

theorem deducted_append (l l' : List (Debit Place)) :
    deducted (l ++ l') = deducted l + deducted l' := by
  simp [deducted]

theorem deducted_others {l : List (Debit Place)} (h : ∀ d ∈ l, OfRefresh d.op = false) :
    deducted l = 0 := by
  have hnil : l.filter (fun d => OfRefresh d.op && d.currency = .money) = [] :=
    List.filter_eq_nil_iff.mpr fun d hd => by simp [h d hd]
  rw [deducted, hnil]
  rfl

theorem Inv.of_kept (hk : Kept s s') (h : Inv q level s m) : Inv q level s' m where
  ledger := by
    obtain ⟨l, hl, hothers⟩ := hk.ledger
    rw [hl, deducted_append, deducted_others hothers, add_zero, hk.paid, h.ledger]
  limit := hk.free ▸ h.limit
  within := by
    rw [stored, hk.activitys, hk.free]
    exact h.within
  level := hk.level.trans h.level
  explored place hplace phase u paid he := by
    rw [hk.explored]
    exact h.explored place hplace phase u paid he

theorem inv_apart {place : Place} (hplace : OfRefresh place = false) :
    Inv q level s (place ::ₘ m) ↔ Inv q level s m := by
  have hdebited : ¬ Debited place = true := by cases place <;> simp_all [OfRefresh, Debited]
  have hcount := Multiset.countP_cons_of_neg (p := fun place => Debited place = true) m hdebited
  constructor
  · intro h
    exact ⟨hcount ▸ h.ledger, h.limit, h.within, h.level, fun p hp => h.explored p
      (Multiset.mem_cons_of_mem hp)⟩
  · intro h
    refine ⟨hcount.symm ▸ h.ledger, h.limit, h.within, h.level, fun p hp => ?_⟩
    rcases Multiset.mem_cons.mp hp with rfl | hp
    · rintro phase u paid rfl
      exact Bool.noConfusion hplace
    · exact h.explored p hp

/-! ## The other requests -/

theorem Kept.of_grants {op : Place} (hop : OfRefresh op = false) (h : Grants op s s') :
    Kept s s' where
  ledger := by
    obtain ⟨l, hl, hall⟩ := h.ledger
    exact ⟨l, hl, fun d hd => (hall d hd).symm ▸ hop⟩
  activitys := by rw [h.activitys]
  free := by rw [h.history]
  paid := by rw [h.history]
  level := h.level
  explored u := by rw [h.explores]

theorem Kept.of_bought (h : Bought s s') : Kept s s' where
  ledger := by
    obtain ⟨l, hl, hall⟩ := h.ledger
    refine ⟨l, hl, fun d hd => ?_⟩
    have hop := hall d hd
    cases hplace : d.op with
    | refresh => rw [hplace] at hop; exact absurd hop id
    | _ => rfl
  activitys := h.counter
  free := by rw [h.history]
  paid := by rw [h.history]
  level := h.level
  explored u := by rw [h.explores]

theorem Kept.of_same (hledger : s'.ledger = s.ledger)
    (hactivitys : s'.user.activitys = s.user.activitys) (hfree : s'.history.free = s.history.free)
    (hpaid : s'.history.paid = s.history.paid) (hlevel : s'.user.level = s.user.level)
    (hexplored : ∀ u, (s'.explores u).isSome = (s.explores u).isSome) : Kept s s' :=
  ⟨⟨[], by rw [hledger, List.append_nil], by simp⟩, by rw [hactivitys], hfree, hpaid, hlevel,
    hexplored⟩

theorem Kept.tick (s : State w) (clock : Clock) : Kept s { s with clock } :=
  .of_same rfl rfl rfl rfl rfl fun _ => rfl

theorem isSome_update {explores : String → Option Explore} {unit unit' : Explore}
    (h : explores u = some unit) (v : String) :
    (Function.update explores u (some unit') v).isSome = (explores v).isSome := by
  by_cases hv : v = u
  · rw [hv, Function.update_self, h]
    rfl
  · rw [Function.update_of_ne hv]

theorem Kept.of_reset (h : ResetWrite u s s') : Kept s s' := by
  cases h with
  | draw drawn made => exact .of_same rfl rfl rfl rfl rfl fun _ => rfl
  | reset unit unit' hunit _ _ => exact .of_same rfl rfl rfl rfl rfl (isSome_update hunit)

theorem Kept.of_begin {args : BeginArgs} (h : BeginWrite args s s') : Kept s s' := by
  cases h with
  | card uuid time => exact .of_same rfl rfl rfl rfl rfl fun _ => rfl
  | begins unit unit' due found hunit =>
      exact .of_same rfl rfl rfl rfl rfl (isSome_update hunit)

theorem Kept.of_end (h : EndWrite u s s') : Kept s s' := by
  cases h with
  | grants h => exact .of_grants rfl h
  | note h => exact h ▸ .of_same rfl rfl rfl rfl rfl fun _ => rfl
  | reset h => exact .of_reset h

theorem stays_safe {α : Type} {t : Step w α} {P : Set Place} {R : State w → State w → Prop}
    (ht : t.Stays P R True) (hP : ∀ place ∈ P, OfRefresh place = false)
    (hR : ∀ s s', R s s' → Kept s s') (h : Inv q level s m) :
    t.Safe (Inv q level) (guard w q).resume (fun _ => Inv q level) s m :=
  (ht s).safe_apart (fun place hplace _ _ => inv_apart (hP place hplace))
    (fun s s' _ hw h => h.of_kept (hR s s' hw)) h

/-! ## `exploreRefresh` -/

theorem inv_undebited {phase : RefreshPhase} {paid : Bool}
    (hplace : Debited (.refresh phase u paid) = false) :
    Inv q level s (.refresh phase u paid ::ₘ m) ↔ Inv q level s m ∧ (s.explores u).isSome := by
  have hcount := Multiset.countP_cons_of_neg (p := fun place => Debited place = true) m
    (Bool.not_eq_true _ ▸ hplace)
  constructor
  · intro h
    exact ⟨⟨hcount ▸ h.ledger, h.limit, h.within, h.level, fun p hp => h.explored p
      (Multiset.mem_cons_of_mem hp)⟩, h.explored _ (Multiset.mem_cons_self _ _) _ _ _ rfl⟩
  · rintro ⟨h, hu⟩
    refine ⟨hcount.symm ▸ h.ledger, h.limit, h.within, h.level, fun p hp phase' u' paid' he => ?_⟩
    rcases Multiset.mem_cons.mp hp with rfl | hp
    · obtain ⟨-, rfl, -⟩ := Place.refresh.inj he
      exact hu
    · exact h.explored p hp phase' u' paid' he

/-- A refresh goes on to another place with its diamonds taken, or with them not taken yet. -/
theorem Inv.move {phase : RefreshPhase} {paid : Bool} (phase' : RefreshPhase)
    (h : Inv q level s (.refresh phase u paid ::ₘ m))
    (hplace : Debited (.refresh phase' u paid) = Debited (.refresh phase u paid)) :
    Inv q level s (.refresh phase' u paid ::ₘ m) where
  ledger := by
    have hledger := h.ledger
    rw [Multiset.countP_cons] at hledger ⊢
    rwa [hplace]
  limit := h.limit
  within := h.within
  level := h.level
  explored p hp phase'' u' paid' he := by
    rcases Multiset.mem_cons.mp hp with rfl | hp
    · obtain ⟨-, rfl, -⟩ := Place.refresh.inj he
      exact h.explored _ (Multiset.mem_cons_self _ _) _ _ _ rfl
    · exact h.explored p (Multiset.mem_cons_of_mem hp) phase'' u' paid' he

theorem Inv.debit (h : Inv q level s (.refresh .times u true ::ₘ m))
    (hmoney : q.RefreshExploreCost ≤ s.user.account.money) :
    Inv q level (s.setAccount (.refresh .pay u true) .money
      (s.user.account.addMoney (-q.RefreshExploreCost))) (.refresh .pay u true ::ₘ m) := by
  obtain ⟨hpos, hmax⟩ := q.cost_range
  obtain ⟨hlow, hhigh⟩ := s.user.account.money.2
  have hbalance : ((s.user.account.addMoney (-q.RefreshExploreCost)).money : ℤ) =
      s.user.account.money - q.RefreshExploreCost := by
    unfold maxint32 at hmax hhigh
    have hwrap : wrap (s.user.account.money + -q.RefreshExploreCost) =
        s.user.account.money - q.RefreshExploreCost := by
      rw [wrap_of_range (by omega) (by omega)]
      ring
    simp only [Agent.Account.addMoney, if_neg (show ¬ -q.RefreshExploreCost = 0 by omega), hwrap]
    unfold mClamp maxint32
    split_ifs <;> omega
  have hm := (inv_undebited rfl).mp h
  refine ⟨?_, h.limit, h.within, h.level, fun p hp phase' u' paid' he => ?_⟩
  · change deducted (s.ledger ++ [⟨.refresh .pay u true, .money, s.user.account.money -
      (s.user.account.addMoney (-q.RefreshExploreCost)).money⟩]) = _
    have hcount : (Place.refresh .pay u true ::ₘ m).countP (fun place => Debited place) =
        m.countP (fun place => Debited place) + 1 := Multiset.countP_cons_of_pos _ rfl
    have hone : deducted [⟨.refresh .pay u true, .money, s.user.account.money -
        (s.user.account.addMoney (-q.RefreshExploreCost)).money⟩] = q.RefreshExploreCost := by
      simp [deducted, OfRefresh, hbalance]
    rw [deducted_append, hm.1.ledger, hcount, hone]
    change _ = q.RefreshExploreCost * (s.history.paid + _)
    push_cast
    ring
  · rcases Multiset.mem_cons.mp hp with rfl | hp
    · obtain ⟨-, rfl, -⟩ := Place.refresh.inj he
      exact hm.2
    · exact hm.1.explored p hp phase' u' paid' he

theorem counted_cases (s : State w) : counted s RefreshExplore = 0 ∨
    counted s RefreshExplore = stored s := by
  simp only [Player.counted, stored, Agent.Activitys.getValue]
  cases s.user.activitys RefreshExplore with
  | none => exact .inl rfl
  | some unit =>
      simp only [Option.elim_some]
      split_ifs
      · exact .inr rfl
      · exact .inl rfl

/-- A refresh is counted; a free one finds the counter below the limit. -/
theorem Inv.count {paid : Bool} (h : Inv q level s (.refresh .pay u paid ::ₘ m))
    (hcounted : if paid then counted s RefreshExplore < maxinteger
      else counted s RefreshExplore < q.RefreshExploreTimes) (expire : Option ℤ) :
    Inv q level { s with
      user := { s.user with
        activitys := s.user.activitys.addValue s.env RefreshExplore 1 expire }
      history := { s.history with
        free := (if counted s RefreshExplore = 0 then 0 else s.history.free) +
          if paid then 0 else 1 } } (.refresh .count u paid ::ₘ m) := by
  have hlimit := h.limit
  have hwithin := h.within
  have hrange := q.times_range
  obtain ⟨value, hvalue, hsum⟩ :=
    addValue_self s.user.activitys s.env RefreshExplore 1 expire
  change value = wrap (counted s RefreshExplore + 1) ∨ counted s RefreshExplore = 0 ∧ value = 1
    at hsum
  unfold maxint32 at hrange
  have hlt : counted s RefreshExplore < 2 ^ 63 - 1 := by
    cases paid with
    | true => exact hcounted
    | false =>
        have hbelow : counted s RefreshExplore < q.RefreshExploreTimes := hcounted
        omega
  have hnext : value = counted s RefreshExplore + 1 := by
    rcases hsum with hsum | ⟨hzero, hone⟩
    · rw [hsum, wrap_of_range]
      · rcases counted_cases s with hc | hc <;> omega
      · omega
    · omega
  have hmove := h.move .count (by cases paid <;> rfl)
  refine ⟨hmove.ledger, ?_, ?_, h.level, hmove.explored⟩
  · cases paid with
    | true =>
        simp only [if_true, add_zero]
        split_ifs <;> omega
    | false =>
        have hbelow : counted s RefreshExplore < q.RefreshExploreTimes := hcounted
        have hcases := counted_cases s
        simp only [Bool.false_eq_true, if_false]
        split_ifs <;> omega
  · have hcases := counted_cases s
    simp only [stored, hvalue, Option.elim_some, hnext]
    cases paid <;> simp only [Bool.false_eq_true, if_true, if_false] <;> split_ifs <;> omega

/-- At every draw there is a row for the level of the player. -/
def Drawable (w : World) (q : ExploreData) (level : ℤ) : Prop :=
  ∀ clock i, (initExplore q (w.env clock) level i).isSome

theorem resetExplore_safe {paid : Bool} (hdraw : Drawable w q level)
    (h : Inv q level s (.refresh .count u paid ::ₘ m)) :
    (resetExplore (.refresh .reset u paid) q u).Safe (Inv q level) (guard w q).resume
      (fun _ s m => Inv q level s (.refresh .reset u paid ::ₘ m)) s m := by
  refine safe_act_bind (fun hnone => ?_) fun unit user hdrawn => ?_
  · have hsome := hdraw s.clock s.user.drawn
    rw [← h.level] at hsome
    exact absurd hnone (drawExplore_isSome hsome)
  · obtain ⟨⟨drawn, made, rfl⟩, i, hinit⟩ := drawExplore_user hdrawn
    obtain ⟨htime, hslots⟩ := initExplore_idle hinit
    have hu := h.explored _ (Multiset.mem_cons_self _ _) _ _ _ rfl
    obtain ⟨unit₀, hunit⟩ := Option.isSome_iff_exists.mp hu
    refine safe_bind.mpr (safe_get.mpr ?_)
    simp only [hunit]
    refine safe_bind.mpr (safe_set.mpr (safe_call.mpr ⟨?_, fun s m hs _ => hs⟩))
    have hmove := h.move .reset (by cases paid <;> rfl)
    exact (hmove.of_kept (.of_reset (ResetWrite.draw (u := u) s drawn made))).of_kept
      (.of_reset (.reset { s with user := { s.user with drawn, made } } unit₀ unit hunit htime
        hslots))

theorem Inv.reply {paid : Bool} (h : Inv q level s (.refresh .reset u paid ::ₘ m)) :
    Inv q level { s with history := { s.history with
      paid := s.history.paid + if paid then 1 else 0 } } m where
  ledger := by
    have hledger := h.ledger
    rw [Multiset.countP_cons] at hledger
    cases paid with
    | true =>
        simp only [Debited, if_true] at hledger ⊢
        rw [hledger]
        push_cast
        ring
    | false => simpa only [Debited, Bool.false_eq_true, if_false, add_zero] using hledger
  limit := h.limit
  within := h.within
  level := h.level
  explored p hp := h.explored p (Multiset.mem_cons_of_mem hp)

theorem refresh_safe {paid : Bool} {costMoney : ℤ} (hdraw : Drawable w q level)
    (hcost : costMoney = if paid then q.RefreshExploreCost else 0)
    (h : Inv q level s (.refresh .times u paid ::ₘ m))
    (hready : if paid then q.RefreshExploreCost ≤ s.user.account.money
      else counted s RefreshExplore < q.RefreshExploreTimes) :
    (refresh q u paid costMoney).Safe (Inv q level) (guard w q).resume
      (fun _ => Inv q level) s m := by
  refine safe_bind.mpr (Safe.mono (Q := fun _ s m => Inv q level s (.refresh .pay u paid ::ₘ m) ∧
    if paid then counted s RefreshExplore < maxinteger
      else counted s RefreshExplore < q.RefreshExploreTimes) ?_ fun _ s m hs => ?_)
  · cases paid with
    | true =>
        have hpos := q.cost_range.1
        obtain rfl : costMoney = q.RefreshExploreCost := hcost
        unfold AgentService.Account.addMoney
        rw [if_neg (by omega)]
        refine safe_bind.mpr (safe_modify.mpr
          (safe_call.mpr ⟨h.debit hready, fun s m hs hok => ?_⟩))
        exact ⟨hs, hok⟩
    | false =>
        obtain rfl : costMoney = 0 := hcost
        exact ⟨h.move .pay rfl, hready⟩
  · refine safe_bind.mpr (safe_modify.mpr (safe_bind.mpr (safe_get.mpr (safe_bind.mpr
      (safe_bind.mpr (safe_modify.mpr (safe_call.mpr ⟨hs.1.count hs.2 _, fun s m hs _ => ?_⟩)))))))
    refine safe_bind.mpr ((resetExplore_safe hdraw hs).mono fun _ s m hs => ?_)
    exact safe_bind.mpr (safe_modify.mpr hs.reply)

theorem refreshCounted_safe (hdraw : Drawable w q level)
    (h : Inv q level s (.refresh .quota u true ::ₘ m)) :
    (refreshCounted q u true q.RefreshExploreCost).Safe (Inv q level) (guard w q).resume
      (fun _ => Inv q level) s m := by
  have hquotas : ∀ (s : State w) account resets, Kept s
      { s with user := { s.user with account }, resets } := fun _ _ _ =>
    .of_same rfl rfl rfl rfl rfl fun _ => rfl
  have hhave : (AgentService.Account.haveExploreTimes (.refresh .quota u true) :
      Step w Bool).Stays {.refresh .quota u true} Kept False :=
    (stays_refreshTimes (Set.mem_singleton _) fun s _ => hquotas s _ _).bind fun _ =>
      stays_get_bind fun _ => trivial
  refine hhave.then_safe (fun _ _ _ hk h => h.of_kept hk) (fun hf => hf.elim) h fun ok s m hs => ?_
  cases ok with
  | false => exact ((inv_undebited rfl).mp hs).1
  | true =>
      refine safe_bind.mpr ?_
      have hagain : (AgentService.Account.refreshTimes (.refresh .again u true) :
          Step w Unit).Stays {.refresh .again u true} Kept False :=
        stays_refreshTimes (Set.mem_singleton _) fun s _ => hquotas s _ _
      refine hagain.then_safe (fun _ _ _ hk h => h.of_kept hk) (fun hf => hf.elim)
        (hs.move .again rfl) fun _ s m hs => ?_
      refine safe_bind.mpr (safe_modify.mpr (safe_call.mpr ⟨?_, fun s m hs hok => ?_⟩))
      · exact (hs.move .times rfl).of_kept (hquotas s _ s.resets)
      · exact refresh_safe hdraw rfl hs hok

theorem exploreRefresh_safe (hdraw : Drawable w q level) (h : Inv q level s m) :
    (exploreRefresh q u).Safe (Inv q level) (guard w q).resume (fun _ => Inv q level) s m := by
  refine safe_bind.mpr (safe_get.mpr ?_)
  cases hunit : s.explores u with
  | none => exact h
  | some unit =>
      have hstart : ∀ phase paid, Debited (.refresh phase u paid) = false →
          Inv q level s (.refresh phase u paid ::ₘ m) := fun phase paid hplace =>
        (inv_undebited hplace).mpr ⟨h, by rw [hunit]; rfl⟩
      have hpos := q.cost_range.1
      simp only
      by_cases hpaid : counted s RefreshExplore ≥ q.RefreshExploreTimes
      · simp only [hpaid, decide_true, if_true]
        split_ifs
        · exact h
        · exact h
        · exact refreshCounted_safe hdraw (hstart .quota true rfl)
        · omega
      · simp only [hpaid, decide_false, Bool.false_eq_true, if_false]
        split_ifs with _ _ hcost
        · exact h
        · exact h
        · exact absurd rfl hcost
        · exact refresh_safe hdraw rfl (hstart .times false rfl) (not_le.mp hpaid)

/-! ## Runs -/

theorem handle_safe (hdraw : Drawable w q level) (r : Request) (h : Inv q level s m) :
    (handle q r).Safe (Inv q level) (guard w q).resume (fun _ => Inv q level) s m := by
  cases r with
  | buyShopItem id num =>
      refine safe_bind.mpr (stays_safe (stays_buyShopItem id num) ?_ (fun _ _ => .of_bought) h)
      intro place hplace
      cases place with
      | refresh => exact hplace.elim
      | _ => rfl
  | exploreBegin args =>
      exact safe_bind.mpr (stays_safe (stays_exploreBegin q args) (by simp [OfRefresh])
        (fun _ _ => .of_begin) h)
  | exploreEnd u =>
      exact safe_bind.mpr (stays_safe (stays_exploreEnd q u) (by simp [OfRefresh])
        (fun _ _ => .of_end) h)
  | exploreRefresh u => exact safe_bind.mpr (exploreRefresh_safe hdraw h)
  | refreshTimes =>
      exact stays_safe (P := {.times}) (stays_refreshTimes (Set.mem_singleton _) fun _ _ =>
        .of_same rfl rfl rfl rfl rfl fun _ => rfl) (by simp [OfRefresh]) (fun _ _ h => h) h

/-- The diamonds that refreshes took are the price of the refreshes that were not free, replied to
or about to be; no period of the counter has more free refreshes than are allowed. -/
theorem refresh_paid (s₀ : State w) (hledger : s₀.ledger = []) (hpaid : s₀.history.paid = 0)
    (hfree : s₀.history.free = 0) (hstored : 0 ≤ stored s₀) (hdraw : Drawable w q s₀.user.level)
    {p : Pool (State w) Place} (h : ((server w q).system s₀).Runs (guard w q).Admits p) :
    deducted p.shared.ledger = q.RefreshExploreCost *
        (p.shared.history.paid + p.places.countP (fun place => Debited place)) ∧
      p.shared.history.free ≤ q.RefreshExploreTimes := by
  have hinit : Inv q s₀.user.level s₀ 0 :=
    ⟨by simp [hledger, hpaid, deducted], by omega, by omega, rfl, by simp⟩
  have hinv := Server.invariant (Inv q s₀.user.level) hinit
    (fun _ _ r hs _ => handle_safe hdraw r hs)
    (fun s _ clock hs _ => hs.of_kept (.tick s clock)) h
  exact ⟨hinv.ledger, hinv.limit⟩

/-- The player can pay one refresh. -/
def payer : State default :=
  { idler with user := { idler.user with
      account := { idler.user.account with money := ⟨20, twenty_balance⟩ } } }

theorem library_drawable : Drawable default library payer.user.level := fun _ _ => rfl

/-- A refresh from beginning to end. -/
theorem refresh_paid_once :
    ∃ p, ((server default library).system payer).Runs (guard default library).Admits p ∧
      p.shared.history.paid = 1 ∧ p.places = 0 ∧ deducted p.shared.ledger =
        20 * (p.shared.history.paid + p.places.countP (fun place => Debited place)) := by
  have hrun : ∃ p, ((server default library).system payer).Runs (guard default library).Admits p ∧
      p.shared.history.paid = 1 ∧ p.places = 0 := by
    refine ⟨_, .step (i := .resume 0) (.step (i := .resume 0) (.step (i := .resume 0)
      (.step (i := .resume 0) (.step (i := .request (.exploreRefresh "e")) .init trivial rfl)
      (fun v hv => ?_) rfl) (fun v hv => ?_) rfl) (fun v hv => ?_) rfl) (fun v hv => ?_) rfl,
      rfl, rfl⟩
    all_goals obtain rfl := Option.some.inj hv
    · exact (by decide : (20 : ℤ) ≤ 20)
    · exact (by decide : (0 : ℤ) < maxinteger)
    · trivial
    · trivial
  obtain ⟨p, hp, hpaid, hplaces⟩ := hrun
  exact ⟨p, hp, hpaid, hplaces, (refresh_paid payer rfl rfl rfl (by decide) library_drawable hp).1⟩

/-- Two refreshes pass the check with diamonds for one of them; both reply that all is well. -/
theorem exploreRefresh_underpaid : ¬ ∀ (w : World) (q : ExploreData) (s₀ : State w),
    s₀.ledger = [] → s₀.history.paid = 0 → s₀.history.free = 0 → 0 ≤ stored s₀ →
    Drawable w q s₀.user.level →
    ∀ p, ((server w q).system s₀).Runs (anyOrder w).Admits p →
      deducted p.shared.ledger = q.RefreshExploreCost *
          (p.shared.history.paid + p.places.countP (fun place => Debited place)) ∧
        p.shared.history.free ≤ q.RefreshExploreTimes := fun hall => by
  have hrun : ∃ p, ((server default library).system payer).run
      ((server default library).system payer).init (.request (.exploreRefresh "e") ::
        .request (.exploreRefresh "e") :: List.replicate 8 (.resume 0)) = some p ∧
      p.shared.history.paid = 2 ∧ p.places = 0 ∧ deducted p.shared.ledger = 20 :=
    ⟨_, rfl, rfl, rfl, rfl⟩
  obtain ⟨p, hp, hpaid, hplaces, hdeducted⟩ := hrun
  have heq := (hall default library payer rfl rfl rfl (by decide) library_drawable p
    (runs_anyOrder _ (by simp) hp)).1
  rw [hdeducted, hpaid, hplaces] at heq
  exact absurd heq (by decide)

end GameServer.Player.PaidRefresh
