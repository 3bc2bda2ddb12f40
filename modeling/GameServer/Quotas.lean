import GameServer.PlayerFrame

/-!
# The daily quotas

A quota of -1 has no limit, but what is bought is taken off it all the same; and a quota that was
looked at may be used up by the time the amount is taken. A quota keeps its meaning when each
request that passes the check leaves enough for the requests that have still to take their amounts.
-/

namespace GameServer.Player.Quotas

open Goods Agent Cooperative Coroutine AgentService Shop Transition

inductive Quota
  | exploretimes | buyboxtimes
  deriving DecidableEq

def Quota.value : Quota → Agent.Account → ℤ
  | .exploretimes, account => account.exploretimes
  | .buyboxtimes, account => account.buyboxtimes

/-- What a request that waits there has still to take off the quota. -/
def demand : Quota → Place → ℤ
  | .exploretimes, .refresh .again _ _ => 1
  | .buyboxtimes, .buy .pay p | .buyboxtimes, .buy .goods p | .buyboxtimes, .buy .count p
  | .buyboxtimes, .buy .again p => if p.shopDat.n32Type = 3 then p.num else 0
  | _, _ => 0

/-- What all of them have still to take; purchases of a negative number put something back. -/
def pending (k : Quota) (m : Multiset Place) : ℤ := (m.map fun place => max (demand k place) 0).sum

variable {w : World} {q : ExploreData} {k : Quota} {s s' : State w} {m : Multiset Place}
  {place place' : Place} {u : String}

def quota (k : Quota) (s : State w) : ℤ := k.value s.user.account

/-- The next look at the quotas resets them. -/
def Due (s : State w) : Prop := s.user.account.refreshtime < s.clock.now

instance : Decidable (Due s) := inferInstanceAs (Decidable (_ < _))

/-- There is enough for the request, with all that is pending. -/
def Covered (k : Quota) (s : State w) (m : Multiset Place) (place : Place) : Prop :=
  demand k place = 0 ∨ quota k s ≠ -1 ∧ pending k (place ::ₘ m) ≤ quota k s

/-- A reset leaves enough for all that is pending. -/
def Resettable (k : Quota) (s : State w) (m : Multiset Place) : Prop := Due s → pending k m ≤ 20

/-- What is put back does not overflow. -/
def Fits (k : Quota) (s : State w) (place : Place) : Prop :=
  demand k place < 0 → quota k s - demand k place < 2 ^ 63

/-- A refresh that is not refused before it looks at the quota. -/
def Refreshes (q : ExploreData) (s : State w) (u : String) : Prop :=
  ∃ unit ∈ s.explores u, unit.time = 0 ∧ q.RefreshExploreTimes ≤ counted s RefreshExplore ∧
    q.RefreshExploreCost ≤ s.user.account.money

def HaveBuyBoxTimes (s : State w) (num : ℤ) : Prop :=
  s.user.account.buyboxtimes ≥ num ∨ s.user.account.buyboxtimes = -1

def HaveExploreTimes (s : State w) : Prop :=
  s.user.account.exploretimes > 0 ∨ s.user.account.exploretimes = -1

instance (num : ℤ) : Decidable (HaveBuyBoxTimes s num) := inferInstanceAs (Decidable (_ ∨ _))

instance : Decidable (HaveExploreTimes s) := inferInstanceAs (Decidable (_ ∨ _))

/-- Each request that passes the check of the quota is covered, resets leave enough, and nothing
overflows. -/
def guard (w : World) (q : ExploreData) (k : Quota) :
    Server.Guard (State w) Place Request Clock where
  request s m r := match r with
    | .buyShopItem id num => Resettable k s m ∧ ∀ p ∈ asked w s id num, p.shopDat.n32Type = 3 →
        ¬ Due s → HaveBuyBoxTimes s num → Covered k s m (.buy .pay p)
    | .exploreRefresh u => Resettable k s m ∧ (Refreshes q s u → ¬ Due s → HaveExploreTimes s →
        Covered k s m (.refresh .again u true))
    | .refreshTimes => Resettable k s m
    | _ => True
  resume s m place := match place with
    | .buy .quota p => HaveBuyBoxTimes s p.num → Covered k s m (.buy .pay p)
    | .buy .count p => Resettable k s (.buy .count p ::ₘ m) ∧ (¬ Due s → Fits k s (.buy .count p))
    | .buy .again p => Fits k s (.buy .again p)
    | .refresh .quota u paid => HaveExploreTimes s → Covered k s m (.refresh .again u paid) ∧
        Resettable k s (.refresh .again u paid ::ₘ m)
    | _ => True
  outside := (anyOrder w).outside

/-- The quota has had no limit from the start, or it covers all that is pending. -/
structure Inv (k : Quota) (start : ℤ) (s : State w) (m : Multiset Place) : Prop where
  covered : (quota k s = -1 ∧ start = -1 ∧ s.resets = 0 ∧ ∀ place ∈ m, demand k place = 0) ∨
    (pending k m ≤ quota k s ∧ (start = -1 → 0 < s.resets))
  range : quota k s < 2 ^ 63

variable {start : ℤ}

theorem pending_nonneg (k : Quota) (m : Multiset Place) : 0 ≤ pending k m :=
  Multiset.sum_nonneg fun x hx => by
    obtain ⟨place, -, rfl⟩ := Multiset.mem_map.mp hx
    exact le_max_right _ _

theorem pending_cons (k : Quota) (place : Place) (m : Multiset Place) :
    pending k (place ::ₘ m) = max (demand k place) 0 + pending k m := by
  rw [pending, Multiset.map_cons, Multiset.sum_cons]
  rfl

/-! ## How the invariant moves -/

theorem Inv.of_same (h : Inv k start s m) (hquota : quota k s' = quota k s)
    (hresets : s'.resets = s.resets) : Inv k start s' m where
  covered := by
    rw [hquota, hresets]
    exact h.covered
  range := hquota ▸ h.range

theorem Inv.drop (h : Inv k start s (place ::ₘ m)) : Inv k start s m where
  covered := by
    refine h.covered.imp (fun hu => ⟨hu.1, hu.2.1, hu.2.2.1, fun p hp =>
      hu.2.2.2 p (Multiset.mem_cons_of_mem hp)⟩) fun hf => ⟨?_, hf.2⟩
    have hle := hf.1
    rw [pending_cons] at hle
    have hmax := le_max_right (demand k place) 0
    omega
  range := h.range

theorem inv_apart (hplace : demand k place = 0) :
    Inv k start s (place ::ₘ m) ↔ Inv k start s m := by
  refine ⟨Inv.drop, fun h => ⟨?_, h.range⟩⟩
  refine h.covered.imp (fun hu => ⟨hu.1, hu.2.1, hu.2.2.1, fun p hp => ?_⟩) fun hf => ⟨?_, hf.2⟩
  · rcases Multiset.mem_cons.mp hp with rfl | hp
    · exact hplace
    · exact hu.2.2.2 p hp
  · rw [pending_cons, hplace, max_self, zero_add]
    exact hf.1

theorem Inv.claim (h : Inv k start s m) (hc : Covered k s m place) :
    Inv k start s (place ::ₘ m) := by
  rcases hc with hzero | ⟨hne, hle⟩
  · exact (inv_apart hzero).mpr h
  · refine ⟨h.covered.imp (fun hu => absurd hu.1 hne) fun hf => ⟨hle, hf.2⟩, h.range⟩

theorem Inv.move (place' : Place) (h : Inv k start s (place ::ₘ m))
    (hplace : demand k place' = demand k place) : Inv k start s (place' ::ₘ m) where
  covered := by
    refine h.covered.imp (fun hu => ⟨hu.1, hu.2.1, hu.2.2.1, fun p hp => ?_⟩) fun hf => ⟨?_, hf.2⟩
    · rcases Multiset.mem_cons.mp hp with rfl | hp
      · exact hplace.trans (hu.2.2.2 _ (Multiset.mem_cons_self _ _))
      · exact hu.2.2.2 p (Multiset.mem_cons_of_mem hp)
    · have hle := hf.1
      rw [pending_cons] at hle ⊢
      rwa [hplace]
  range := h.range

theorem Inv.reset (hdue : Due s) (hm : pending k m ≤ 20) :
    Inv k start { s with
      user := { s.user with account := s.user.account.refreshTimes s.env }
      resets := s.resets + 1 } m := by
  have hvalue : k.value (s.user.account.refreshTimes s.env) = 20 := by
    simp only [Agent.Account.refreshTimes]
    rw [if_pos (show s.user.account.refreshtime < s.env.now from hdue)]
    cases k <;> rfl
  exact ⟨.inr ⟨by rw [quota, hvalue]; exact hm, fun _ => Nat.succ_pos _⟩,
    by rw [quota, hvalue]; norm_num⟩

theorem Inv.take (h : Inv k start s (place ::ₘ m)) (hfits : Fits k s place)
    (hne : demand k place ≠ 0)
    (hquota : quota k s' = wrap (quota k s - demand k place)) (hresets : s'.resets = s.resets) :
    Inv k start s' m := by
  have hrange := h.range
  have hpending := pending_nonneg k m
  rcases h.covered with hu | ⟨hle, hstart⟩
  · exact absurd (hu.2.2.2 place (Multiset.mem_cons_self _ _)) hne
  · rw [pending_cons] at hle
    have hmax := le_max_left (demand k place) 0
    have hzero := le_max_right (demand k place) 0
    have hlt : quota k s - demand k place < 2 ^ 63 := by
      by_cases hneg : demand k place < 0
      · exact hfits hneg
      · omega
    have hwrap : quota k s' = quota k s - demand k place := by
      rw [hquota, wrap_of_range (by omega) hlt]
    exact ⟨.inr ⟨by omega, hresets ▸ hstart⟩, by omega⟩

/-! ## Writes that leave the quotas alone -/

def Kept (s s' : State w) : Prop := (∀ k, quota k s' = quota k s) ∧ s'.resets = s.resets

theorem Inv.of_kept (hk : Kept s s') (h : Inv k start s m) : Inv k start s' m :=
  h.of_same (hk.1 k) hk.2

theorem Kept.of_account (haccount : s'.user.account = s.user.account)
    (hresets : s'.resets = s.resets) : Kept s s' :=
  ⟨fun k => by rw [quota, quota, haccount], hresets⟩

theorem Kept.of_grants {op : Place} (h : Grants op s s') : Kept s s' :=
  ⟨fun k => by cases k; exacts [h.exploretimes, h.buyboxtimes], h.resets⟩

theorem Kept.of_reset (h : ResetWrite u s s') : Kept s s' := by
  cases h <;> exact .of_account rfl rfl

theorem Kept.of_begin {args : BeginArgs} (h : BeginWrite args s s') : Kept s s' := by
  cases h <;> exact .of_account rfl rfl

theorem Kept.of_end (h : EndWrite u s s') : Kept s s' := by
  cases h with
  | grants h => exact .of_grants h
  | note h => exact h ▸ .of_account rfl rfl
  | reset h => exact .of_reset h

section Safe

variable (w q k start) in
/-- The coroutine is safe in the runs in question. -/
abbrev Keeps {α : Type} (t : Step w α) (Q : α → State w → Multiset Place → Prop) (s : State w)
    (m : Multiset Place) : Prop := t.Safe (Inv k start) (guard w q k).resume Q s m

theorem stays_safe {α : Type} {t : Step w α} {P : Set Place} {R : State w → State w → Prop}
    (ht : t.Stays P R True) (hP : ∀ place ∈ P, demand k place = 0)
    (hR : ∀ s s', R s s' → Kept s s') (h : Inv k start s m) :
    Keeps w q k start t (fun _ => Inv k start) s m :=
  (ht s).safe_apart (fun place hplace _ _ => inv_apart (hP place hplace))
    (fun s s' _ hw hs => hs.of_kept (hR s s' hw)) h

/-- A coroutine that hands something out goes on with the amount still to take. -/
theorem granting_safe {α β : Type} {t : Step w α} {f : α → Step w β}
    {Q : β → State w → Multiset Place → Prop} (ht : t.Stays {place} (Grants place) True)
    (h : Inv k start s (place ::ₘ m))
    (hf : ∀ a s m, Inv k start s (place ::ₘ m) → Keeps w q k start (f a) Q s m) :
    Keeps w q k start (t >>= f) Q s m :=
  ht.then_safe (fun _ _ _ hg hs => hs.of_kept (.of_grants hg)) (fun _ _ _ => Inv.drop) h hf

/-- The quotas are reset, unless they were reset today. -/
theorem refreshTimes_safe {β : Type} {f : Unit → Step w β}
    {Q : β → State w → Multiset Place → Prop}
    (hr : Resettable k s (place ::ₘ m)) (hnot : ¬ Due s → Keeps w q k start (f ()) Q s m)
    (hok : ∀ s m, Inv k start s (place ::ₘ m) → (guard w q k).resume s m place →
      Keeps w q k start (f ()) Q s m) :
    Keeps w q k start (AgentService.Account.refreshTimes place >>= f) Q s m := by
  refine safe_bind.mpr (safe_bind.mpr (safe_get.mpr ?_))
  unfold Coroutine.when
  split_ifs with hdue
  · refine safe_bind.mpr (safe_set.mpr (safe_call.mpr ⟨.reset hdue (hr hdue), fun s m hs hg => ?_⟩))
    exact hok s m hs hg
  · exact hnot hdue

/-! ## `buyShopItem` -/

theorem addBuyBoxTimes_safe {p : Purchase} (hthree : p.shopDat.n32Type = 3)
    (h : Inv k start s (.buy .count p ::ₘ m))
    (hguard : (guard w q k).resume s m (.buy .count p)) :
    Keeps w q k start (AgentService.Account.addBuyBoxTimes (.buy .spent p) (.buy .again p)
      (wrap (-p.num))) (fun _ => Inv k start) s m := by
  unfold AgentService.Account.addBuyBoxTimes
  split_ifs with hzero
  · exact h.drop
  · have htake : ∀ s m, Inv k start s (.buy .again p ::ₘ m) → Fits k s (.buy .again p) →
        Keeps w q k start (do
          modify fun s => { s with user := { s.user with account := { s.user.account with
            buyboxtimes := wrap (s.user.account.buyboxtimes + wrap (-p.num)) } } }
          Coroutine.call (.buy .spent p)) (fun _ => Inv k start) s m := fun s m hs hfits => by
      refine safe_bind.mpr (safe_modify.mpr (safe_call.mpr ⟨(inv_apart (by cases k <;> rfl)).mpr ?_,
        fun s m hs _ => hs.drop⟩))
      cases k with
      | exploretimes => exact hs.drop.of_same rfl rfl
      | buyboxtimes =>
          have hdemand : demand .buyboxtimes (.buy .again p) = p.num := if_pos hthree
          refine hs.take hfits (fun hnum => hzero ?_) ?_ rfl
          · rw [hdemand] at hnum
            rw [hnum]
            rfl
          · rw [hdemand]
            change wrap (s.user.account.buyboxtimes + wrap (-p.num)) =
              wrap (s.user.account.buyboxtimes - p.num)
            rw [wrap, wrap, wrap, Int.add_bmod_bmod, Int.sub_eq_add_neg]
    refine refreshTimes_safe ?_ (fun hdue => ?_) fun s m hs hg => htake s m hs hg
    · intro hdue
      have hle := hguard.1 hdue
      rw [pending_cons] at hle ⊢
      cases k <;> exact hle
    · exact htake s m (h.move (.buy .again p) (by cases k <;> rfl)) (by
        have hfits := hguard.2 hdue
        cases k <;> exact hfits)

theorem deliver_safe {p : Purchase} (paid expire : ℤ) (h : Inv k start s (.buy .goods p ::ₘ m)) :
    Keeps w q k start (deliver p paid expire) (fun _ => Inv k start) s m := by
  unfold deliver
  simp only
  have hcount : demand k (.buy .count p) = demand k (.buy .goods p) := by cases k <;> rfl
  split_ifs with htwo hthree hfour hfive
  · exact Safe.mono (((stays_addGold (E := True) _) s).safe
      (fun _ _ _ hg hs => hs.of_kept (.of_grants hg)) (fun _ _ _ => Inv.drop) h)
      fun _ _ _ => Inv.drop
  · refine granting_safe (stays_usePackageItem _) h fun items s m hs => ?_
    refine granting_safe ((stays_addItems items).bind fun _ => stays_pure _) hs fun _ s m hs => ?_
    refine safe_bind.mpr (safe_modify.mpr (safe_bind.mpr (safe_get.mpr (safe_bind.mpr (safe_bind.mpr
      (safe_modify.mpr (safe_call.mpr ⟨?_, fun s m hs hg => ?_⟩)))))))
    · exact (hs.move (.buy .count p) hcount).of_same rfl rfl
    · exact addBuyBoxTimes_safe hthree hs hg
  · refine granting_safe ((stays_addItems _).bind fun _ => stays_pure _) h fun _ s m hs => ?_
    refine safe_bind.mpr (safe_modify.mpr (safe_bind.mpr
      (safe_modify.mpr (safe_call.mpr ⟨?_, fun s m hs _ => hs.drop⟩))))
    exact (hs.move (.buy .count p) hcount).of_same rfl rfl
  · refine granting_safe (stays_usePackageItem _) h fun items s m hs => ?_
    refine granting_safe ((stays_addItems items).bind fun _ => stays_pure _) hs fun _ s m hs => ?_
    exact hs.drop.of_same rfl rfl
  · exact h.drop

theorem purchase_safe {p : Purchase} (expire : ℤ) (h : Inv k start s (.buy .pay p ::ₘ m)) :
    Keeps w q k start (purchase p expire) (fun _ => Inv k start) s m := by
  refine safe_bind.mpr (safe_get.mpr ?_)
  refine granting_safe (stays_when fun _ => stays_addGold _) h fun _ s m hs => ?_
  refine granting_safe (stays_when fun _ => stays_addMoney _) hs fun _ s m hs => ?_
  refine safe_bind.mpr ((deliver_safe _ expire
    (hs.move (.buy .goods p) (by cases k <;> rfl))).mono ?_)
  exact fun _ _ _ h => h

theorem haveBuyBoxTimes_safe {p : Purchase} {expire : ℤ} (h : Inv k start s m)
    (hr : Resettable k s m)
    (hguard : ¬ Due s → HaveBuyBoxTimes s p.num → Covered k s m (.buy .pay p)) :
    Keeps w q k start (do
      if ← AgentService.Account.haveBuyBoxTimes (.buy .quota p) p.num then purchase p expire
      else return 4) (fun _ => Inv k start) s m := by
  have hzero : demand k (.buy .quota p) = 0 := by cases k <;> rfl
  have hlook : ∀ s m, Inv k start s m → (HaveBuyBoxTimes s p.num → Covered k s m (.buy .pay p)) →
      Keeps w q k start (if decide (HaveBuyBoxTimes s p.num) then purchase p expire else pure 4)
        (fun _ => Inv k start) s m := fun s m hs hc => by
    by_cases hhave : HaveBuyBoxTimes s p.num
    · rw [if_pos (decide_eq_true hhave)]
      exact purchase_safe expire (hs.claim (hc hhave))
    · rw [if_neg (by simpa using hhave)]
      exact hs
  refine safe_bind.mpr (refreshTimes_safe (fun hdue => ?_)
    (fun hdue => hlook s m h (hguard hdue)) fun s m hs hg => hlook s m hs.drop hg)
  rw [pending_cons, hzero, max_self, zero_add]
  exact hr hdue

theorem buyShopItem_safe {id num : ℤ} (h : Inv k start s m)
    (hguard : (guard w q k).request s m (.buyShopItem id num)) :
    Keeps w q k start (buyShopItem id num) (fun _ => Inv k start) s m := by
  unfold buyShopItem
  cases hrow : w.shopRepository id with
  | none => exact h
  | some shopDat =>
      refine safe_bind.mpr (Safe.mono (Q := fun _ s m => Inv k start s m ∧
        (shopDat.n32Type = 3 → (guard w q k).request s m (.buyShopItem id num))) ?_
        fun _ s m hs => ?_)
      · unfold Coroutine.when
        split_ifs with hfour
        · have hzero : demand k (.cddown id num) = 0 := by cases k <;> rfl
          exact safe_call.mpr ⟨(inv_apart hzero).mpr h, fun s m hs _ =>
            ⟨hs.drop, fun hthree => by omega⟩⟩
        · exact ⟨h, fun _ => hguard⟩
      · refine safe_bind.mpr (safe_get.mpr ?_)
        cases hcounter : counter s.env s.user shopDat with
        | none => exact hs.1
        | some e =>
            obtain ⟨atype, hasBuy⟩ := e
            simp only
            cases hchecks : checks s.env s.user shopDat hasBuy
                (Purchase.cost ⟨shopDat, num, atype, hasBuy⟩) num with
            | some errorCode => exact hs.1
            | none =>
                simp only
                split_ifs with hthree
                · obtain ⟨hr, hcovered⟩ := hs.2 hthree
                  refine haveBuyBoxTimes_safe hs.1 hr (hcovered _ ?_ hthree)
                  simp [asked, hrow, hcounter, hchecks]
                · refine purchase_safe _ (hs.1.claim (.inl ?_))
                  cases k
                  · rfl
                  · exact if_neg hthree

/-! ## `exploreRefresh` -/

theorem refresh_safe {paid : Bool} {costMoney : ℤ} (h : Inv k start s m) :
    Keeps w q k start (refresh q u paid costMoney) (fun _ => Inv k start) s m := by
  have hzero : ∀ phase, phase ≠ .again → demand k (.refresh phase u paid) = 0 := fun phase hne => by
    cases k <;> cases phase <;> first | rfl | exact absurd rfl hne
  refine granting_safe (stays_addMoney _) ((inv_apart (hzero .pay (by simp))).mpr h)
    fun _ s m hs => ?_
  refine safe_bind.mpr (safe_modify.mpr (safe_bind.mpr (safe_get.mpr (safe_bind.mpr (safe_bind.mpr
    (safe_modify.mpr (safe_call.mpr ⟨?_, fun s m hs _ => ?_⟩)))))))
  · exact ((inv_apart (hzero .count (by simp))).mpr hs.drop).of_same rfl rfl
  · refine safe_bind.mpr (Safe.mono ((stays_resetExplore q (.refresh .reset u paid) u s).safe
      (fun _ _ _ hw h => h.of_kept (.of_reset hw)) (fun _ _ _ => Inv.drop)
      (hs.move (.refresh .reset u paid) ?_)) fun _ s m hs => ?_)
    · rw [hzero .reset (by simp), hzero .count (by simp)]
    · exact hs.drop.of_same rfl rfl

theorem refreshCounted_safe {paid : Bool} {costMoney : ℤ} (h : Inv k start s m)
    (hr : Resettable k s m)
    (hguard : ¬ Due s → HaveExploreTimes s → Covered k s m (.refresh .again u paid)) :
    Keeps w q k start (refreshCounted q u paid costMoney) (fun _ => Inv k start) s m := by
  have hzero : demand k (.refresh .quota u paid) = 0 := by cases k <;> rfl
  have hlook : ∀ s m, Inv k start s m → (HaveExploreTimes s →
      Covered k s m (.refresh .again u paid) ∧ Resettable k s (.refresh .again u paid ::ₘ m)) →
      Keeps w q k start (if decide (HaveExploreTimes s) then do
          AgentService.Account.addExploreTimes (.refresh .times u paid)
            (.refresh .again u paid) (-1)
          refresh q u paid costMoney
        else pure 2) (fun _ => Inv k start) s m := fun s m hs hc => by
    by_cases hhave : HaveExploreTimes s
    · rw [if_pos (decide_eq_true hhave)]
      obtain ⟨hcovered, hreset⟩ := hc hhave
      have htake : ∀ s m, Inv k start s (.refresh .again u paid ::ₘ m) →
          Keeps w q k start (do
            modify fun s => { s with user := { s.user with account := { s.user.account with
              exploretimes := wrap (s.user.account.exploretimes + -1) } } }
            Coroutine.call (.refresh .times u paid))
          (fun _ => Keeps w q k start (refresh q u paid costMoney) fun _ => Inv k start) s m :=
        fun s m hs => by
          have hnone : demand k (.refresh .times u paid) = 0 := by cases k <;> rfl
          refine safe_bind.mpr (safe_modify.mpr (safe_call.mpr ⟨(inv_apart hnone).mpr ?_,
            fun s m hs _ => refresh_safe hs.drop⟩))
          cases k with
          | exploretimes =>
              have hone : demand .exploretimes (.refresh .again u paid) = 1 := rfl
              exact hs.take (fun hneg => by omega) (by omega) rfl rfl
          | buyboxtimes => exact hs.drop.of_same rfl rfl
      refine safe_bind.mpr (refreshTimes_safe hreset (fun _ => ?_)
        fun s m hs _ => htake s m hs)
      exact htake s m (hs.claim hcovered)
    · rw [if_neg (by simpa using hhave)]
      exact hs
  refine safe_bind.mpr (refreshTimes_safe (fun hdue => ?_)
    (fun hdue => hlook s m h fun hhave => ⟨hguard hdue hhave, fun hdue' => absurd hdue' hdue⟩)
    fun s m hs hg => hlook s m hs.drop hg)
  rw [pending_cons, hzero, max_self, zero_add]
  exact hr hdue

theorem exploreRefresh_safe (h : Inv k start s m)
    (hguard : (guard w q k).request s m (.exploreRefresh u)) :
    Keeps w q k start (exploreRefresh q u) (fun _ => Inv k start) s m := by
  refine safe_bind.mpr (safe_get.mpr ?_)
  cases hunit : s.explores u with
  | none => exact h
  | some unit =>
      have hpos := q.cost_range.1
      simp only
      by_cases hpaid : counted s RefreshExplore ≥ q.RefreshExploreTimes
      · simp only [hpaid, decide_true, if_true]
        split_ifs with htime hmoney
        · exact h
        · exact h
        · exact refreshCounted_safe h hguard.1
            (hguard.2 ⟨unit, hunit, not_not.mp htime, hpaid, not_lt.mp hmoney⟩)
        · omega
      · simp only [hpaid, decide_false, Bool.false_eq_true, if_false]
        split_ifs with _ _ hcost
        · exact h
        · exact h
        · exact absurd rfl hcost
        · exact refresh_safe h

/-! ## Runs -/

theorem handle_safe (r : Request) (h : Inv k start s m) (hguard : (guard w q k).request s m r) :
    Keeps w q k start (handle q r) (fun _ => Inv k start) s m := by
  cases r with
  | buyShopItem id num => exact safe_bind.mpr (buyShopItem_safe h hguard)
  | exploreBegin args =>
      refine safe_bind.mpr (stays_safe (stays_exploreBegin q args) ?_ (fun _ _ => .of_begin) h)
      rintro place (rfl | rfl) <;> cases k <;> rfl
  | exploreEnd u =>
      refine safe_bind.mpr (stays_safe (stays_exploreEnd q u) ?_ (fun _ _ => .of_end) h)
      rintro place (rfl | rfl) <;> cases k <;> rfl
  | exploreRefresh u => exact safe_bind.mpr (exploreRefresh_safe h hguard)
  | refreshTimes =>
      have hnone : demand k .times = 0 := by cases k <;> rfl
      have hsafe : Keeps w q k start (AgentService.Account.refreshTimes .times >>= fun _ => pure ())
          (fun _ => Inv k start) s m := by
        refine refreshTimes_safe (fun hdue => ?_) (fun _ => h)
          fun s m hs _ => hs.drop
        rw [pending_cons, hnone, max_self, zero_add]
        exact hguard hdue
      exact (safe_bind.mp hsafe).mono fun _ _ _ h => h

/-- A finite quota never becomes negative, and one without limit keeps having none until the quotas
are reset. -/
theorem quota_sentinel (k : Quota) (s₀ : State w) (hresets : s₀.resets = 0)
    (hstart : quota k s₀ = -1 ∨ 0 ≤ quota k s₀) (hrange : quota k s₀ < 2 ^ 63)
    {p : Pool (State w) Place} (h : ((server w q).system s₀).Runs (guard w q k).Admits p) :
    (0 ≤ quota k s₀ ∨ 0 < p.shared.resets → 0 ≤ quota k p.shared) ∧
      (quota k s₀ = -1 → p.shared.resets = 0 → quota k p.shared = -1) := by
  have hinit : Inv k (quota k s₀) s₀ 0 := by
    refine ⟨hstart.imp (fun hu => ⟨hu, hu, hresets, by simp⟩) fun hf => ⟨?_, fun hu => by omega⟩,
      hrange⟩
    exact hf
  have hinv := Server.invariant (Inv k (quota k s₀)) hinit
    (fun _ _ r hs hr => handle_safe r hs hr) (fun _ _ _ hs _ => hs.of_same rfl rfl) h
  have hpending := pending_nonneg k p.places
  rcases hinv.covered with ⟨hvalue, hminus, hzero, -⟩ | ⟨hle, hreset⟩
  · exact ⟨fun hor => by omega, fun _ _ => hvalue⟩
  · exact ⟨fun _ => by omega, fun hminus hzero => by have := hreset hminus; omega⟩

end Safe

/-- A player with diamonds for one refresh, and a quota of refreshes. -/
def refresher (exploretimes : ℤ) : State default :=
  { idler with user := { idler.user with account := { idler.user.account with
      money := ⟨20, twenty_balance⟩, exploretimes } } }

theorem quota_sentinel_refresh :
    ∃ p, ((server default library).system (refresher 20)).Runs
        (guard default library .exploretimes).Admits p ∧
      quota .exploretimes p.shared = 19 ∧ (0 ≤ quota .exploretimes (refresher 20) ∨
        0 < p.shared.resets → 0 ≤ quota .exploretimes p.shared) := by
  have hrun : ∃ p, ((server default library).system (refresher 20)).Runs
      (guard default library .exploretimes).Admits p ∧ quota .exploretimes p.shared = 19 :=
    ⟨_, .step (i := .request (.exploreRefresh "e")) .init
      ⟨fun hdue => absurd hdue (by decide), fun _ _ _ => .inr ⟨by decide, by decide⟩⟩ rfl, rfl⟩
  obtain ⟨p, hp, hquota⟩ := hrun
  exact ⟨p, hp, hquota,
    (quota_sentinel .exploretimes (refresher 20) rfl (.inr (by decide)) (by decide) hp).1⟩

/-- A refresh takes one of an unlimited quota. -/
theorem exploreRefresh_unlimited : ¬ ∀ (w : World) (q : ExploreData) (k : Quota) (s₀ : State w),
    s₀.resets = 0 → quota k s₀ = -1 ∨ 0 ≤ quota k s₀ → quota k s₀ < 2 ^ 63 →
    ∀ p, ((server w q).system s₀).Runs (anyOrder w).Admits p →
      (0 ≤ quota k s₀ ∨ 0 < p.shared.resets → 0 ≤ quota k p.shared) ∧
        (quota k s₀ = -1 → p.shared.resets = 0 → quota k p.shared = -1) := fun hall => by
  have hrun : ∃ p, ((server default library).system (refresher (-1))).run
      ((server default library).system (refresher (-1))).init [.request (.exploreRefresh "e")] =
        some p ∧ p.shared.resets = 0 ∧ quota .exploretimes p.shared = -2 := ⟨_, rfl, rfl, rfl⟩
  obtain ⟨p, hp, hresets, hquota⟩ := hrun
  have hminus := (hall default library .exploretimes (refresher (-1)) rfl (.inl rfl) (by decide) p
    (runs_anyOrder _ (by simp) hp)).2 rfl hresets
  rw [hquota] at hminus
  exact absurd hminus (by decide)

end GameServer.Player.Quotas
