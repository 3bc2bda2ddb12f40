import GameServer.Settlement

/-!
# Results of a battle

`giveBattleGains` makes its calls one after the other whatever the account is. A loser, a player of
a draw and a player who ran away have gained an empty table, so the agent counts a victory.
-/

namespace GameServer.Settlement

open Goods Agent AgentService Cooperative Coroutine

variable {w : World} {α β : Type} {overRes : OverRes} {star : ℤ → ℤ → ℚ} {env : Env}

/-! ## The calls of `giveBattleGains` -/

def calls (args : BattleGains) : List Call :=
  let exp : List Call := args.exp.elim [] fun exp => [.addExp exp]
  let gold : List Call := args.gold.elim [] fun gold => [.addValue PvpTimes, .addGold gold]
  let items : List Call := args.items.elim [] fun items => [.addItems items, .addValue PvpWinTimes]
  let hero : List Call := args.cardId.elim [] fun cardId => [.AdvanceMission (.WinWithHero cardId)]
  let won : List Call := if args.win = 0 then .AdvanceMission .WinFight :: hero else []
  let fought : List Call := if args.win ≠ 3 then
    [.AdvanceMission (.Kills args.kills), .AdvanceMission (.Deads args.deads)] else []
  exp ++ (gold ++ (items ++ (won ++ fought)))

/-- What a call does to the counters. -/
def count (env : Env) (a : Activitys) : Call → Activitys
  | .addValue atype => a.addValue env atype 1 (some env.tomorrow)
  | _ => a

/-- The state behind the calls `l`. -/
structure After (l : List Call) (s s' : Session w Unit (List Call)) : Prop where
  history : s'.history = s.history ++ l
  clock : s'.clock = s.clock
  activitys : s'.user.activitys = l.foldl (count s.env) s.user.activitys

/-- The coroutine makes the calls `l` and ends. -/
def Calls (t : Gives w α) (l : List Call) : Prop :=
  ∀ s, ∃ a s', t.finish s = some (a, s') ∧ After l s s'

variable {t : Gives w α} {f : α → Gives w β} {l l' : List Call}

theorem After.trans {s s' s'' : Session w Unit (List Call)} (h : After l s s')
    (h' : After l' s' s'') : After (l ++ l') s s'' := by
  have henv : s'.env = s.env := by
    unfold Session.env
    rw [h.clock]
  refine ⟨?_, h'.clock.trans h.clock, ?_⟩
  · rw [h'.history, h.history, List.append_assoc]
  · rw [h'.activitys, h.activitys, henv, List.foldl_append]

theorem Calls.bind (ht : Calls t l) (hf : ∀ a, Calls (f a) l') : Calls (t >>= f) (l ++ l') := by
  intro s
  obtain ⟨a, s', hfinish, hafter⟩ := ht s
  obtain ⟨b, s'', hfinish', hafter'⟩ := hf a s'
  refine ⟨b, s'', ?_, hafter.trans hafter'⟩
  rw [finish_bind, hfinish]
  exact hfinish'

theorem Calls.mono (ht : Calls t l) (h : l = l') : Calls t l' := h ▸ ht

theorem calls_pure (a : α) : Calls (pure a : Gives w α) [] := fun _ =>
  ⟨a, _, rfl, (List.append_nil _).symm, rfl, rfl⟩

theorem calls_note {c : Call} (hc : ∀ env a, count env a c = a) :
    Calls (note c : Gives w Unit) [c] :=
  fun _ => ⟨⟨⟩, _, rfl, rfl, rfl, (hc _ _).symm⟩

/-- What hands out goods makes no call of its own. -/
theorem calls_of_stays (h : t.Stays {()} (Grants ()) False) : Calls t [] := by
  intro s
  have hkept : t.StaysFrom {()} (After []) False s :=
    (h s).mono subset_rfl (fun s s' hg => ⟨by rw [hg.history, List.append_nil], hg.clock,
      hg.activitys⟩)
      id
  exact hkept.finish (fun _ => ⟨(List.append_nil _).symm, rfl, rfl⟩) fun _ _ _ h h' => h.trans h'

theorem calls_call : Calls (Coroutine.call () : Gives w Unit) [] := fun _ =>
  ⟨(), _, rfl, (List.append_nil _).symm, rfl, rfl⟩

theorem calls_when {c : Prop} [Decidable c] {t : Gives w Unit} (h : Calls t l) :
    Calls (Coroutine.when c t) (if c then l else []) := by
  unfold Coroutine.when
  split
  · exact h
  · exact calls_pure ()

theorem calls_forM (o : Option α) {f : α → Gives w PUnit} {l : α → List Call}
    (h : ∀ a, Calls (f a) (l a)) : Calls (o.forM f) (o.elim [] l) := by
  cases o with
  | none => exact calls_pure ()
  | some a => exact h a

theorem calls_addValue (atype : ℤ) : Calls (addValue atype : Gives w Unit) [.addValue atype] :=
  fun _ => ⟨(), _, rfl, rfl, rfl, rfl⟩

theorem calls_advance (content : MissionContent) (h : ∀ dataId, content ≠ .UpgradeSkill dataId) :
    Calls (advance content : Gives w Unit) [.AdvanceMission content] :=
  (calls_note fun _ _ => rfl).bind fun _ =>
    calls_of_stays (stays_advanced content fun dataId heq => absurd heq (h dataId))

/-- Whatever the account is, `giveBattleGains` makes its calls. -/
theorem calls_giveBattleGains (hw : Stocked w) (args : BattleGains) :
    Calls (giveBattleGains args : Gives w Unit) (calls args) := by
  refine (calls_forM args.exp fun exp => ?_).bind
    fun _ => (calls_forM args.gold fun gold => ?_).bind
    fun _ => (calls_forM args.items fun items => ?_).bind fun _ => (calls_when ?_).bind fun _ =>
      calls_when ?_
  · refine ((calls_note fun _ _ => rfl).bind fun _ => calls_when calls_call).mono ?_
    simp
  · refine ((calls_addValue PvpTimes).bind fun _ => (calls_note fun _ _ => rfl).bind fun _ =>
      calls_of_stays (stays_addGold gold)).mono ?_
    simp
  · refine ((calls_note fun _ _ => rfl).bind fun _ => ((calls_of_stays
      (stays_addItems_stocked items (.inl hw))).bind fun _ => calls_pure ()).bind fun _ =>
        calls_addValue PvpWinTimes).mono ?_
    simp
  · refine ((calls_advance .WinFight (by simp)).bind fun _ => calls_forM args.cardId fun cardId =>
      calls_advance (.WinWithHero cardId) (by simp)).mono ?_
    simp
  · refine ((calls_advance (.Kills args.kills) (by simp)).bind fun _ =>
      calls_advance (.Deads args.deads) (by simp)).mono ?_
    simp

/-! ## What `calcRes` finds -/

/-- The result of a player. -/
inductive Result
  | win
  | lose
  | draw
  | runaway
  deriving DecidableEq

def Result.toInt : Result → ℤ
  | .win => 0
  | .lose => 1
  | .draw => 2
  | .runaway => 3

def Player.online (v : Player w) : Bool := v.agent.any (·.isOnLine)

/-- Who was away for more than 90 seconds, or for more than 15 and is not online, ran away. -/
def Player.result (v : Player w) (overRes : OverRes) : Result :=
  if 90 < v.OffLineTime ∨ (15 < v.OffLineTime ∧ v.online = false) then .runaway
  else if v.wins overRes = true then .win
  else if v.loses overRes = true then .lose
  else .draw

/-- The player has its result, and what only winners get it gets only as a winner. -/
structure Settled (overRes : OverRes) (v : Player w)
    (r : BattleGains × Session w Unit (List Call)) : Prop where
  win : r.1.win = (v.result overRes).toInt
  given : ∃ agent l, v.agent = some agent ∧ After l agent.session r.2 ∧
    (∀ items, .addItems items ∈ l → items ≠ [] → v.result overRes = .win) ∧
    (.addValue PvpWinTimes ∈ l → v.result overRes = .win) ∧
    (.AdvanceMission .WinFight ∈ l ↔ v.result overRes = .win)

variable {scores : Bool → ℤ} {v : Player w} {gains : BattleGains} {n n' : ℕ}

/-- What `gainsOf` fills in; it fills in items for winners only. -/
theorem gainsOf_eq (h : gainsOf overRes star scores env v n = some (gains, n')) :
    ∃ runaway items gold, runsAway v = some runaway ∧
      gains = v.gains overRes star scores runaway items gold := by
  unfold gainsOf at h
  cases haway : runsAway v with
  | none =>
      rw [haway] at h
      cases h
  | some runaway =>
      rw [haway] at h
      cases runaway with
      | true =>
          obtain ⟨rfl, -⟩ := Prod.mk.inj (Option.some.inj h)
          exact ⟨true, [], 0, rfl, rfl⟩
      | false =>
          simp only [draw_bind, Option.bind_eq_some_iff] at h
          obtain ⟨⟨items, k⟩, -, ⟨gold, k'⟩, -, hgains⟩ := h
          obtain ⟨rfl, -⟩ := Prod.mk.inj (Option.some.inj hgains)
          exact ⟨false, items, gold, rfl, rfl⟩

theorem usePackageItem_total (hw : Stocked w) {id : ℤ} (hrow : (w.itemRepository id).isSome)
    (c : Clock) (level : ℤ) (n : ℕ) : ∃ r, usePackageItem (w.env c) id level n = some r := by
  obtain ⟨item, hitem⟩ := Option.isSome_iff_exists.mp hrow
  by_cases htype : item.n32Type = 4
  · exact Option.isSome_iff_exists.mp (hw.package id item hitem htype c level n)
  · refine ⟨([], n), ?_⟩
    unfold usePackageItem
    have hdata : (w.env c).data.itemRepository id = some item := hitem
    simp only [hdata]
    rw [if_pos htype]
    rfl

/-- A player with its agent, who was never away for long, is counted. -/
theorem gainsOf_total (hw : Stocked w) (hrow : (w.itemRepository v.arena.VictoryReward).isSome)
    (hagent : v.agent.isSome) (htime : v.OffLineTime ≤ 15) (c : Clock) (n : ℕ) :
    ∃ items gold n', gainsOf overRes star scores (w.env c) v n =
      some (v.gains overRes star scores false items gold, n') := by
  obtain ⟨agent, hagent⟩ := Option.isSome_iff_exists.mp hagent
  have haway : runsAway v = some false := by
    unfold runsAway
    rw [if_neg (by linarith), if_neg (by linarith)]
  have hask : ∀ atype n, askValue v atype n = some (CMD.getActivityValue agent atype, n) := by
    intro atype n
    unfold askValue
    rw [hagent]
    rfl
  obtain ⟨items, k, hitems⟩ : ∃ items k, victoryItems overRes (w.env c) v n = some (items, k) := by
    unfold victoryItems
    split
    · rw [draw_bind, hask]
      dsimp only [Option.bind_some]
      split
      · obtain ⟨⟨items, k⟩, hr⟩ := usePackageItem_total hw hrow c v.accountLevel n
        exact ⟨items, k, hr⟩
      · exact ⟨[], n, rfl⟩
    · exact ⟨[], n, rfl⟩
  refine ⟨items, if CMD.getActivityValue agent PvpTimes < v.arena.GoldRewardLimit then
    v.arena.GoldReward else 0, k, ?_⟩
  unfold gainsOf
  rw [haway]
  dsimp only
  rw [draw_bind, hitems]
  dsimp only [Option.bind_some]
  rw [draw_bind]
  unfold goldReward
  rw [draw_bind, hask]
  rfl

/-! ## All players -/

theorem mapM_draw {f : α → Draw β} {l : List α} {r : List β} (h : l.mapM f n = some (r, n')) :
    List.Forall₂ (fun a b => ∃ k k', f a k = some (b, k')) l r := by
  induction l generalizing n r with
  | nil =>
      obtain ⟨rfl, -⟩ := Prod.mk.inj (Option.some.inj h)
      exact .nil
  | cons a l ih =>
      rw [List.mapM_cons] at h
      simp only [draw_bind, Option.bind_eq_some_iff] at h
      obtain ⟨⟨b, k⟩, hb, ⟨r', k'⟩, hr, hcons⟩ := h
      obtain ⟨rfl, rfl⟩ := Prod.mk.inj (Option.some.inj hcons)
      exact .cons ⟨n, k, hb⟩ (ih hr)

theorem mapM_option {f : α → Option β} {l : List α} {r : List β} :
    l.mapM f = some r ↔ List.Forall₂ (fun a b => f a = some b) l r := by
  induction l generalizing r with
  | nil =>
      simp only [List.mapM_nil, List.forall₂_nil_left_iff]
      exact ⟨fun h => (Option.some.inj h).symm, fun h => h ▸ rfl⟩
  | cons a l ih =>
      rw [List.mapM_cons, List.forall₂_cons_left_iff]
      simp only [bind, Option.bind_eq_some_iff]
      constructor
      · rintro ⟨b, hb, r', hr, hcons⟩
        exact ⟨b, r', hb, ih.mp hr, (Option.some.inj hcons).symm⟩
      · rintro ⟨b, r', hb, hr, rfl⟩
        exact ⟨b, hb, r', ih.mpr hr, rfl⟩

theorem forall₂_zip {γ : Type} {A : α → β → Prop} {B : α × β → γ → Prop} {l : List α} {r : List β}
    {q : List γ} (h : List.Forall₂ A l r) (h' : List.Forall₂ B (l.zip r) q) :
    List.Forall₂ (fun a c => ∃ b, A a b ∧ B (a, b) c) l q := by
  induction h generalizing q with
  | nil =>
      cases h'
      exact .nil
  | cons hab _ ih =>
      cases h' with
      | cons hc hrest => exact .cons ⟨_, hab, hc⟩ (ih hrest)

variable {players : List (Player w)} {results : List (BattleGains × Session w Unit (List Call))}

/-- Each player with what `calcRes` finds and what its agent has in the end. -/
theorem settle_eq_some (h : settle overRes star env players n = some results) :
    List.Forall₂ (fun v r => (∃ k k', gainsOf overRes star (score players) env v k =
      some (r.1, k')) ∧ give v r.1 = some r.2) players results := by
  unfold settle calcRes at h
  simp only [bind, Option.bind_eq_some_iff] at h
  obtain ⟨⟨gains, k⟩, hgains, hgive⟩ := h
  have hboth := forall₂_zip (mapM_draw hgains) (mapM_option.mp hgive)
  refine hboth.imp fun v r hr => ?_
  obtain ⟨g, hcalc, hr⟩ := hr
  simp only [Option.bind_eq_some_iff] at hr
  obtain ⟨session, hsession, hpair⟩ := hr
  obtain rfl := Option.some.inj hpair
  exact ⟨hcalc, hsession⟩

theorem give_eq (hw : Stocked w) (v : Player w) (gains : BattleGains)
    (agent : AgentUser w) (hagent : v.agent = some agent) :
    ∃ session, give v gains = some session ∧ After (calls gains) agent.session session := by
  obtain ⟨a, session, hfinish, hafter⟩ := calls_giveBattleGains hw gains agent.session
  refine ⟨session, ?_, hafter⟩
  unfold give
  rw [hagent]
  simp only [bind, Option.bind_some, hfinish]
  rfl

theorem mapM_option_total {f : α → Option β} {l : List α} (h : ∀ a ∈ l, ∃ b, f a = some b) :
    ∃ r, l.mapM f = some r := by
  induction l with
  | nil => exact ⟨[], rfl⟩
  | cons a l ih =>
      obtain ⟨b, hb⟩ := h a List.mem_cons_self
      obtain ⟨r, hr⟩ := ih fun a' ha' => h a' (List.mem_cons_of_mem a ha')
      refine ⟨b :: r, ?_⟩
      rw [List.mapM_cons, hb, hr]
      rfl

theorem forall₂_mem {A B : α → β → Prop} {l : List α} {r : List β} (hA : List.Forall₂ A l r)
    (h : ∀ a ∈ l, ∀ b, A a b → B a b) : List.Forall₂ B l r := by
  induction hA with
  | nil => exact .nil
  | cons hab _ ih =>
      exact .cons (h _ List.mem_cons_self _ hab) (ih fun a ha => h a (List.mem_cons_of_mem _ ha))

theorem exists_of_forall₂ {A : α → β → Prop} {l : List α} {r : List β} (h : List.Forall₂ A l r)
    {a : α} (ha : a ∈ l) : ∃ b, A a b := by
  induction h with
  | nil => exact absurd ha List.not_mem_nil
  | cons hab _ ih =>
      rcases List.mem_cons.mp ha with rfl | hmem
      · exact ⟨_, hab⟩
      · exact ih hmem

/-- The items that `calcRes` fills in are there, so the agent counts a victory. -/
theorem victory_counted (runaway : Bool) (items : IntTable) (gold : ℤ) :
    .addValue PvpWinTimes ∈ calls (v.gains overRes star scores runaway items gold) := by
  simp [calls, Player.gains]

/-- Who is not counted as a runaway was away for 15 seconds at most. -/
theorem time_of_runsAway (h : runsAway v = some false) : v.OffLineTime ≤ 15 := by
  unfold runsAway at h
  split_ifs at h with hlong hshort
  · cases h
  · cases hagent : v.agent with
    | none =>
        rw [hagent] at h
        cases h
    | some agent =>
        rw [hagent] at h
        cases h
  · exact not_lt.mp hshort

/-- A player who is settled is a winner who was never away for long. -/
theorem Settled.winner (hw : Stocked w) {r : BattleGains × Session w Unit (List Call)}
    (h : Settled overRes v r) (hcalc : gainsOf overRes star scores env v n = some (r.1, n'))
    (hgive : give v r.1 = some r.2) :
    v.agent.isSome ∧ v.OffLineTime ≤ 15 ∧ v.wins overRes = true := by
  obtain ⟨agent, l, hagent, hafter, -, htimes, -⟩ := h.given
  obtain ⟨session, hsession, hcalls⟩ := give_eq hw v r.1 agent hagent
  obtain rfl := Option.some.inj (hsession.symm.trans hgive)
  obtain ⟨runaway, items, gold, haway, hgains⟩ := gainsOf_eq hcalc
  have hl : l = calls r.1 := List.append_cancel_left (hafter.history.symm.trans hcalls.history)
  have hresult : v.result overRes = .win := by
    refine htimes ?_
    rw [hl, hgains]
    exact victory_counted runaway items gold
  have hwin := h.win
  rw [hresult, hgains] at hwin
  have hstays : runaway = false := by
    cases runaway with
    | false => rfl
    | true => cases hwin
  rw [hstays] at haway
  refine ⟨hagent ▸ rfl, time_of_runsAway haway, ?_⟩
  unfold Player.result at hresult
  split_ifs at hresult with _ hwins
  exact hwins

/-- A winner who was never away for long is settled. -/
theorem settled_winner (hw : Stocked w) {items : IntTable} {gold : ℤ}
    {session : Session w Unit (List Call)} (htime : v.OffLineTime ≤ 15)
    (hwins : v.wins overRes = true)
    (hgive : give v (v.gains overRes star scores false items gold) = some session)
    (hagent : v.agent.isSome) :
    Settled overRes v (v.gains overRes star scores false items gold, session) := by
  obtain ⟨agent, hagent⟩ := Option.isSome_iff_exists.mp hagent
  obtain ⟨session', hsession, hafter⟩ := give_eq hw v _ agent hagent
  obtain rfl := Option.some.inj (hsession.symm.trans hgive)
  have hresult : v.result overRes = .win := by
    unfold Player.result
    rw [if_neg (by rintro (h | ⟨h, -⟩) <;> linarith), if_pos hwins]
  have hzero : (v.gains overRes star scores false items gold).win = 0 := by
    simp [Player.gains, hwins]
  refine ⟨hzero.trans (by rw [hresult]; rfl), agent, _, hagent, hafter, fun _ _ _ => hresult,
    fun _ => hresult, fun _ => hresult, fun _ => ?_⟩
  unfold calls
  simp [hzero]

/-- Everybody has its result exactly when the room has winners only, who were never away for
long. -/
theorem settlement_iff (hw : Stocked w) (c : Clock) (n : ℕ)
    (hrows : ∀ v ∈ players, (w.itemRepository v.arena.VictoryReward).isSome) :
    (∃ results, settle overRes star (w.env c) players n = some results ∧
      List.Forall₂ (Settled overRes) players results) ↔
    ∀ v ∈ players, v.agent.isSome ∧ v.OffLineTime ≤ 15 ∧ v.wins overRes = true := by
  constructor
  · rintro ⟨results, hsettle, hsettled⟩ v hv
    have hboth := hsettled.mp (fun _ _ h h' => And.intro h h') (settle_eq_some hsettle)
    obtain ⟨r, hr, ⟨k, k', hcalc⟩, hgive⟩ := exists_of_forall₂ hboth hv
    exact hr.winner hw hcalc hgive
  · intro h
    have hcounted : ∀ v ∈ players, ∀ k, ∃ items gold k',
        gainsOf overRes star (score players) (w.env c) v k =
          some (v.gains overRes star (score players) false items gold, k') := fun v hv k =>
      gainsOf_total hw (hrows v hv) (h v hv).1 (h v hv).2.1 c k
    obtain ⟨gains, k, hgains, -⟩ := mapM_spec (P := fun _ _ => True) (fun v hv k => by
      obtain ⟨items, gold, k', heq⟩ := hcounted v hv k
      exact ⟨_, k', heq, trivial⟩) n
    obtain ⟨results, hresults⟩ : ∃ results, settle overRes star (w.env c) players n =
        some results := by
      unfold settle calcRes
      simp only [bind, hgains, Option.bind_some]
      refine mapM_option_total fun e he => ?_
      obtain ⟨agent, hagent⟩ := Option.isSome_iff_exists.mp (h e.1 (List.of_mem_zip he).1).1
      obtain ⟨session, hsession, -⟩ := give_eq hw e.1 e.2 agent hagent
      refine ⟨(e.2, session), ?_⟩
      rw [hsession]
      rfl
    refine ⟨results, hresults, forall₂_mem (settle_eq_some hresults) fun v hv r hr => ?_⟩
    obtain ⟨⟨k₁, k₂, hcalc⟩, hgive⟩ := hr
    obtain ⟨items, gold, k', heq⟩ := hcounted v hv k₁
    obtain ⟨hsame, -⟩ := Prod.mk.inj (Option.some.inj (hcalc.symm.trans heq))
    obtain ⟨g, session⟩ := r
    obtain rfl := hsame
    exact settled_winner hw (h v hv).2.1 (h v hv).2.2 hgive (h v hv).1

/-- A world in which every item is gold. -/
def golden : World := { (default : World) with
  itemRepository := fun _ => some ⟨5, 0, []⟩
  hero_row := default_hero_row
  skill_row := default_skill_row }

theorem golden_stocked : Stocked golden := by
  refine ⟨fun id item hitem htype => ?_, fun id item hitem htype => ?_, fun v hv => ?_,
    fun id item hitem htype => ?_⟩
  · obtain rfl := Option.some.inj hitem
    cases htype
  · obtain rfl := Option.some.inj hitem
    cases htype
  · exact absurd hv List.not_mem_nil
  · obtain rfl := Option.some.inj hitem
    cases htype

/-- A player who was online all the time. -/
def fighter (isRed : Bool) : Player golden where
  isRed := isRed
  OffLineTime := 0
  kills := 3
  deads := 1
  accountLevel := 1
  accountExp := 100
  heroId := 110001
  arena := ⟨50, 20, 62001, 15⟩
  agent := some ⟨true, default⟩

theorem settlement_winner : ∃ results, settle .blueWins (fun _ _ => 1 / 2) (golden.env ⟨0, 1, 1⟩)
    [fighter false] 0 = some results ∧
      List.Forall₂ (Settled .blueWins) [fighter false] results := by
  refine (settlement_iff golden_stocked ⟨0, 1, 1⟩ 0 fun v _ => rfl).mpr fun v hv => ?_
  obtain rfl := List.mem_singleton.mp hv
  exact ⟨rfl, by norm_num [fighter], rfl⟩

/-- A player of each camp: the agent of the loser counts a victory. -/
theorem loser_counted : ¬ ∃ results, settle .blueWins (fun _ _ => 1 / 2) (golden.env ⟨0, 1, 1⟩)
    [fighter true, fighter false] 0 = some results ∧
      List.Forall₂ (Settled .blueWins) [fighter true, fighter false] results := by
  rintro ⟨results, hsettle, hsettled⟩
  have hread : (settle .blueWins (fun _ _ => 1 / 2) (golden.env ⟨0, 1, 1⟩)
      [fighter true, fighter false] 0).map (fun results => results.map fun r =>
        (r.1.win, decide (.addValue PvpWinTimes ∈ r.2.history))) =
      some [(1, true), (0, true)] := by
    decide +kernel
  rw [hsettle, Option.map_some, Option.some.injEq] at hread
  cases hsettled with
  | cons hloser hrest =>
      rw [List.map_cons, List.cons.injEq, Prod.mk.injEq, decide_eq_true_eq] at hread
      obtain ⟨agent, l, hagent, hafter, -, htimes, -⟩ := hloser.given
      obtain rfl := Option.some.inj hagent
      have hl := hread.1.2
      rw [hafter.history] at hl
      have hresult := htimes hl
      exact absurd hresult (by decide +kernel)

end GameServer.Settlement
