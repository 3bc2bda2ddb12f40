import GameServer.MonsterKill

/-!
# Rewards for monsters

While only players, and pets that live, are hated, the top of the list of a monster that dies is one
of them: it was hated in the same call, and the monster itself is not on its list.
-/

namespace GameServer.MonsterKill

open Hates Transition

variable {s : Room} {t id player source : ℤ} {isRed : Bool} {order : Order} {hp : ℚ}

/-! ## Conditions -/

/-- A player or a pet that lives, in the room. -/
def Room.Hater (s : Room) (id : ℤ) : Prop :=
  id ∈ s.entityList ∧
    match s.kind id with
    | some (.IMapPlayer _) => True
    | some (.IPet _ _ _) => 0 < s.hp id
    | _ => False

/-- Hate of a monster is hate of players and pets that live, and goes to a monster in `entityList`;
a new maximum takes no health from a monster. -/
def Op.Fair (s : Room) : Op → Prop
  | .addHp t hp source _ _ _ =>
    s.isMonster t = true → ¬ (s.hp t ≤ 0 ∧ hp ≤ 0) → (s.hateOf t hp).isSome = true →
      t ∈ s.entityList ∧ s.Hater source
  | .calcHpMax t hpMax _ _ _ =>
    s.isMonster t = true → 0 < hpMax ∧ (0 < s.hp t → 0 ≤ s.recalc t hpMax)
  | _ => True

/-- The purses behind a kill that is paid to the player. -/
def Kill.paid (kill : Kill) (player : ℤ) (isRed : Bool) (v : ℤ) : Purse :=
  let purse := kill.before v
  if v = player then ⟨purse.gold + kill.n32Gold, purse.exp + kill.n32Exp⟩
  else if v ∈ kill.entityList ∧ kill.kind v = some (.IMapPlayer isRed) then
    ⟨purse.gold + ⌊(kill.n32Gold : ℚ) * ShareGoldPercent⌋,
      purse.exp + ⌊(kill.n32Exp : ℚ) * ShareExpPercent⌋⟩
  else purse

/-- The top is in the room, is not the monster, and is a player or a pet of the player, who is paid,
with shares for its camp. -/
def Kill.Rewarded (kill : Kill) : Prop :=
  kill.topHateId ∈ kill.entityList ∧ kill.topHateId ≠ kill.monster ∧
    ∃ player isRed, kill.kind player = some (.IMapPlayer isRed) ∧
      (kill.topHateId = player ∨
        ∃ camp n32Type, kill.kind kill.topHateId = some (.IPet player camp n32Type)) ∧
      kill.after = some (kill.paid player isRed)

structure Inv (s : Room) : Prop where
  nodup : s.entityList.Nodup
  fresh : ∀ id, s.server_id < id → s.kind id = none ∧ id ∉ s.entityList
  masters : ∀ id master camp n32Type, s.kind id = some (.IPet master camp n32Type) →
    ∃ isRed, s.kind master = some (.IMapPlayer isRed)
  health : ∀ id, s.isMonster id = true → 0 ≤ s.hp id ∧ 0 < s.hpMax id
  haters : ∀ m ∈ s.entityList, s.isMonster m = true → ∀ k ∈ (s.hate m).hateList, s.Hater k
  kills : ∀ kill ∈ s.kills, kill.Rewarded

theorem isMonster_iff :
    s.isMonster id = true ↔ ∃ n32Gold n32Exp, s.kind id = some (.IMonster n32Gold n32Exp) := by
  unfold Room.isMonster
  cases s.kind id with
  | none => simp
  | some kind =>
      cases kind with
      | IPet master camp n32Type =>
          simp only [Option.any_some, Kind.entityType]
          split_ifs <;> simp
      | _ => simp [Kind.entityType]

theorem Room.Hater.not_monster (h : s.Hater id) : s.isMonster id ≠ true := by
  intro hm
  obtain ⟨n32Gold, n32Exp, hkind⟩ := isMonster_iff.mp hm
  have hmatch := h.2
  rw [hkind] at hmatch
  exact hmatch

/-! ## Lists -/

theorem mem_addHate {l : HateList} {k serverId now : ℤ} {v : ℚ} :
    k ∈ (l.addHate serverId v now).hateList ↔ k = serverId ∨ k ∈ l.hateList :=
  AList.mem_insert _

/-- Behind `addHate` the top is an entry, whatever it was before. -/
theorem top_addHate (l : HateList) (serverId now : ℤ) (v : ℚ) :
    (l.addHate serverId v now).topHateId ∈ (l.addHate serverId v now).hateList := by
  have hself : serverId ∈ (l.addHate serverId v now).hateList := mem_addHate.mpr (.inl rfl)
  unfold HateList.addHate at hself ⊢
  dsimp only at hself ⊢
  split
  · next top htop =>
      split
      · exact hself
      · exact AList.lookup_isSome.mp (htop ▸ rfl)
  · exact hself

theorem mem_removeHate {l : HateList} {k serverId : ℤ} {keys : List ℤ}
    (h : k ∈ (l.removeHate serverId keys).hateList) : k ∈ l.hateList ∧ k ≠ serverId := by
  unfold HateList.removeHate at h
  cases hv : l.hateList.lookup serverId with
  | none =>
      rw [hv] at h
      refine ⟨h, ?_⟩
      rintro rfl
      exact AList.lookup_eq_none.mp hv h
  | some v =>
      rw [hv] at h
      obtain ⟨hne, hmem⟩ := AList.mem_erase.mp h
      exact ⟨hmem, hne⟩

theorem removeHate_of_notMem {l : HateList} {serverId : ℤ} (h : serverId ∉ l.hateList)
    (keys : List ℤ) : l.removeHate serverId keys = l := by
  unfold HateList.removeHate
  rw [AList.lookup_eq_none.mpr h]

/-! ## Rewards -/

theorem isKind_player (a b : Bool) :
    (Kind.IMapPlayer a).isKind (Kind.IMapPlayer b) = true ↔ a = b := by
  cases a <;> cases b <;> decide

theorem entityType_player {kind : Kind} :
    kind.entityType = .player ↔ ∃ isRed, kind = .IMapPlayer isRed := by
  cases kind with
  | IPet master camp n32Type =>
      simp only [Kind.entityType]
      split_ifs <;> simp
  | _ => simp [Kind.entityType]

theorem share_eq (hplayer : s.kind player = some (.IMapPlayer isRed)) (n32Gold n32Exp v : ℤ) :
    s.share player n32Gold n32Exp v =
      if v ≠ player ∧ s.kind v = some (.IMapPlayer isRed) then
        s.pay v ⌊(n32Gold : ℚ) * ShareGoldPercent⌋ ⌊(n32Exp : ℚ) * ShareExpPercent⌋
      else s := by
  unfold Room.share
  rw [hplayer]
  cases hkind : s.kind v with
  | none => simp
  | some kind =>
      by_cases hp : kind.entityType = .player
      · obtain ⟨a, rfl⟩ := entityType_player.mp hp
        simp only [hp, isKind_player, Option.some.injEq, Kind.IMapPlayer.injEq, true_and]
      · have hne : kind ≠ .IMapPlayer isRed := by
          rintro rfl
          exact hp rfl
        simp [hp, hne]

/-- The shares change purses only, of each player of the camp once. -/
theorem shares_eq (hplayer : s.kind player = some (.IMapPlayer isRed)) (n32Gold n32Exp : ℤ)
    (l : List ℤ) (hl : l.Nodup) : ∃ purses,
    l.foldl (fun s v => s.share player n32Gold n32Exp v) s = { s with purses } ∧
      ∀ v, purses v = if v ∈ l ∧ v ≠ player ∧ s.kind v = some (.IMapPlayer isRed) then
        ⟨(s.purses v).gold + ⌊(n32Gold : ℚ) * ShareGoldPercent⌋,
          (s.purses v).exp + ⌊(n32Exp : ℚ) * ShareExpPercent⌋⟩ else s.purses v := by
  induction l generalizing s with
  | nil => exact ⟨s.purses, rfl, fun v => by simp⟩
  | cons a l ih =>
      obtain ⟨hnotin, hl⟩ := List.nodup_cons.mp hl
      rw [List.foldl_cons, share_eq hplayer]
      by_cases ha : a ≠ player ∧ s.kind a = some (.IMapPlayer isRed)
      · rw [if_pos ha]
        obtain ⟨purses, hfold, hpurses⟩ := ih (s := s.pay a _ _) hplayer hl
        refine ⟨purses, hfold, fun v => (hpurses v).trans ?_⟩
        by_cases hv : v = a
        · subst hv
          simp [hnotin, ha, Room.pay]
        · simp [hv, Room.pay]
      · rw [if_neg ha]
        obtain ⟨purses, hfold, hpurses⟩ := ih hplayer hl
        refine ⟨purses, hfold, fun v => (hpurses v).trans ?_⟩
        by_cases hv : v = a
        · subst hv
          simp only [hnotin, false_and, if_false, List.mem_cons, true_or, true_and, if_neg ha]
        · simp [hv]

theorem getEntity_of_mem (h : id ∈ s.entityList) : s.getEntity id = some id := by
  unfold Room.getEntity
  cases hfind : s.entityList.find? (fun v => v = id) with
  | none => simpa using List.find?_eq_none.mp hfind id h
  | some v =>
      have hv := List.find?_some hfind
      rw [of_decide_eq_true hv]

/-! ## Deaths -/

theorem setHp_self (s : Room) (t : ℤ) (hp : ℚ) : (s.setHp t hp).hp t = hp := by
  unfold Room.setHp
  exact Function.update_self ..

theorem setHp_of_ne (s : Room) (hp : ℚ) (h : id ≠ t) : (s.setHp t hp).hp id = s.hp id := by
  unfold Room.setHp
  exact Function.update_of_ne h ..

theorem removeHates_hate (e v : ℤ) (order : Order) : (s.removeHates e order).hate v =
    if v ∈ s.entityList ∧ s.isMonster v = true then
      (s.hate v).removeHate e (order.order ((s.hate v).hateList.erase e).keys)
    else s.hate v := rfl

theorem Room.Hater.same {s' : Room} (h : s.Hater id) (hlist : id ∈ s'.entityList)
    (hkind : s'.kind id = s.kind id) (hhp : 0 < s.hp id → 0 < s'.hp id) : s'.Hater id := by
  refine ⟨hlist, ?_⟩
  have hmatch := h.2
  rw [hkind]
  cases hk : s.kind id with
  | none =>
      rw [hk] at hmatch
      exact hmatch
  | some kind =>
      rw [hk] at hmatch
      cases kind with
      | IMapPlayer isRed => trivial
      | IPet master camp n32Type => exact hhp hmatch
      | _ => exact hmatch

/-- The health of a monster changes, or that of another entity, which does not die. -/
theorem Inv.setHp (h : Inv s) (t : ℤ) (hmonster : s.isMonster t = true → 0 ≤ hp)
    (halive : s.isMonster t ≠ true → 0 < s.hp t → 0 < hp) : Inv (s.setHp t hp) := by
  refine ⟨h.nodup, h.fresh, h.masters, fun id hid => ?_, fun m hm hmon k hk => ?_, h.kills⟩
  · obtain ⟨hnonneg, hmax⟩ := h.health id hid
    refine ⟨?_, hmax⟩
    by_cases hi : id = t
    · subst hi
      rw [setHp_self]
      exact hmonster hid
    · rw [setHp_of_ne s hp hi]
      exact hnonneg
  · have hhater := h.haters m hm hmon k hk
    refine hhater.same hhater.1 rfl fun hpos => ?_
    by_cases hi : k = t
    · subst hi
      rw [setHp_self]
      exact halive hhater.not_monster hpos
    · rw [setHp_of_ne s hp hi]
      exact hpos

theorem Inv.removeHates (h : Inv s) (e : ℤ) (he : s.isMonster e ≠ true) (hp : ℚ) (order : Order) :
    Inv ((s.setHp e hp).removeHates e order) := by
  refine ⟨h.nodup, h.fresh, h.masters, fun id hid => ?_, fun m hm hmon k hk => ?_, h.kills⟩
  · have hne : id ≠ e := by
      rintro rfl
      exact he hid
    obtain ⟨hnonneg, hmax⟩ := h.health id hid
    refine ⟨?_, hmax⟩
    change 0 ≤ (s.setHp e hp).hp id
    rw [setHp_of_ne s hp hne]
    exact hnonneg
  · rw [removeHates_hate, if_pos ⟨hm, hmon⟩] at hk
    obtain ⟨hold, hne⟩ := mem_removeHate hk
    have hhater := h.haters m hm hmon k hold
    refine hhater.same hhater.1 rfl fun hpos => ?_
    change 0 < (s.setHp e hp).hp k
    rw [setHp_of_ne s hp hne]
    exact hpos

theorem onDead_of_not_monster (ht : s.isMonster t ≠ true) (order : Order) :
    s.onDead t order = s.removeHates t order := by
  unfold Room.onDead
  dsimp only
  split
  · next n32Gold n32Exp hkind => exact absurd (isMonster_iff.mpr ⟨n32Gold, n32Exp, hkind⟩) ht
  · rfl

/-- Who hates is a player, or has one as its master. -/
theorem Inv.payee (h : Inv s) (hid : s.Hater id) :
    (∃ isRed, s.kind (s.payee id) = some (.IMapPlayer isRed)) ∧
      (id = s.payee id ∨ ∃ camp n32Type, s.kind id = some (.IPet (s.payee id) camp n32Type)) := by
  have hmatch := hid.2
  unfold Room.payee
  cases hk : s.kind id with
  | none =>
      rw [hk] at hmatch
      exact hmatch.elim
  | some kind =>
      rw [hk] at hmatch
      cases kind with
      | IMapPlayer isRed => exact ⟨⟨isRed, hk⟩, .inl rfl⟩
      | IPet master camp n32Type =>
          exact ⟨h.masters id master camp n32Type hk, .inr ⟨camp, n32Type, rfl⟩⟩
      | _ => exact hmatch.elim

/-- The reward of a monster whose top is in the room. -/
theorem reward_eq {m : ℤ} (n32Gold n32Exp : ℤ) (hnodup : s.entityList.Nodup)
    (htop : (s.hate m).topHateId ∈ s.entityList)
    (hplayer : s.kind (s.payee (s.hate m).topHateId) = some (.IMapPlayer isRed))
    (after : Option (ℤ → Purse)) : s.reward m n32Gold n32Exp = some { s with
      purses := (s.kill m n32Gold n32Exp after).paid (s.payee (s.hate m).topHateId) isRed } := by
  unfold Room.reward
  rw [getEntity_of_mem htop]
  set player := s.payee (s.hate m).topHateId with hdef
  obtain ⟨purses, hfold, hpurses⟩ := shares_eq (s := s.pay player n32Gold n32Exp) hplayer n32Gold
    n32Exp s.entityList hnodup
  simp only [Option.some.injEq]
  refine hfold.trans ?_
  have hpaid : purses = Kill.paid (s.kill m n32Gold n32Exp after) player isRed := by
    funext v
    rw [hpurses v]
    unfold Kill.paid Room.kill
    by_cases hv : v = player
    · simp [hv, Room.pay]
    · simp [hv, Room.pay]
  rw [hpaid]
  rfl

/-- A monster dies whose top is on its list. -/
theorem Inv.onDead (h : Inv s) (hlisted : t ∈ s.entityList) (ht : s.isMonster t = true)
    (htop : (s.hate t).topHateId ∈ (s.hate t).hateList) (order : Order) :
    Inv (s.onDead t order) := by
  obtain ⟨n32Gold, n32Exp, hkind⟩ := isMonster_iff.mp ht
  have hremoved : Inv (s.removeHates t order) := by
    refine ⟨h.nodup, h.fresh, h.masters, h.health, fun m hm hmon k hk => ?_, h.kills⟩
    rw [removeHates_hate, if_pos ⟨hm, hmon⟩] at hk
    exact h.haters m hm hmon k (mem_removeHate hk).1
  have hself : t ∉ (s.hate t).hateList := fun hmem =>
    (h.haters t hlisted ht t hmem).not_monster ht
  have hhate : (s.removeHates t order).hate t = s.hate t := by
    rw [removeHates_hate, if_pos ⟨hlisted, ht⟩, removeHate_of_notMem hself]
  have hhater : (s.removeHates t order).Hater ((s.removeHates t order).hate t).topHateId := by
    rw [hhate]
    exact h.haters t hlisted ht _ htop
  obtain ⟨⟨isRed, hplayer⟩, hbelongs⟩ := hremoved.payee hhater
  have hreward := fun after =>
    reward_eq n32Gold n32Exp hremoved.nodup hhater.1 hplayer after
  have hdead : s.onDead t order = { s.removeHates t order with
      purses := Kill.paid ((s.removeHates t order).kill t n32Gold n32Exp none)
        ((s.removeHates t order).payee ((s.removeHates t order).hate t).topHateId) isRed
      kills := s.kills ++ [(s.removeHates t order).kill t n32Gold n32Exp
        (((s.removeHates t order).reward t n32Gold n32Exp).map Room.purses)] } := by
    have hkind' : (s.removeHates t order).kind t = some (.IMonster n32Gold n32Exp) := hkind
    unfold Room.onDead
    simp only [hkind']
    rw [hreward none]
    rfl
  rw [hdead]
  refine ⟨hremoved.nodup, hremoved.fresh, hremoved.masters, hremoved.health, hremoved.haters,
    fun kill hkill => ?_⟩
  rcases List.mem_append.mp hkill with hold | hnew
  · exact h.kills kill hold
  · obtain rfl := List.mem_singleton.mp hnew
    refine ⟨hhater.1, fun heq => ?_, _, isRed, hplayer, hbelongs, ?_⟩
    · change ((s.removeHates t order).hate t).topHateId = t at heq
      rw [heq] at hhater
      exact hhater.not_monster ht
    · exact congrArg (Option.map Room.purses) (hreward _)

/-! ## Steps -/

theorem addHate_keys {m source m' now : ℤ} {v : ℚ} {k : ℤ}
    (hk : k ∈ ((s.addHate m source v now).hate m').hateList) :
    k = source ∨ k ∈ (s.hate m').hateList := by
  change k ∈ (Hates.addHate m source v none _ now s.hate m').hateList at hk
  rw [addHate_apply] at hk
  split_ifs at hk with hown
  · subst hown
    exact mem_addHate.mp hk
  · exact mem_addHate.mp hk
  · exact .inr hk

/-- Hate of a player, or of a pet that lives. -/
theorem Inv.addHate (h : Inv s) (hsource : s.Hater source) (m : ℤ) (v : ℚ) (now : ℤ) :
    Inv (s.addHate m source v now) := by
  refine ⟨h.nodup, h.fresh, h.masters, h.health, fun m' hm' hmon k hk => ?_, h.kills⟩
  rcases addHate_keys hk with rfl | hold
  · exact hsource.same hsource.1 rfl id
  · have hhater := h.haters m' hm' hmon k hold
    exact hhater.same hhater.1 rfl id

/-- The health of an entity that is no monster. -/
theorem Inv.addHpBase (h : Inv s) (ht : s.isMonster t ≠ true) (hp : ℚ) (kept : Bool)
    (order : Order) : Inv (s.addHpBase t hp kept order) := by
  unfold Room.addHpBase
  split
  · exact h
  · dsimp only
    split
    · next hdead =>
        have hsame := onDead_of_not_monster
          (s := s.setHp t (Battle.newHp (s.hp t) ⌊hp⌋ (s.hpMax t) kept)) ht
        rw [hsame order]
        exact h.removeHates t ht _ order
    · next hdead =>
        refine h.setHp t (fun hmon => absurd hmon ht) fun _ hpos => ?_
        exact not_le.mp fun hle => hdead ⟨hpos, hle⟩

/-- The health of a monster that gains, or whose top is on its list. -/
theorem Inv.addHpMonster (h : Inv s) (ht : s.isMonster t = true) (hp : ℚ) (kept : Bool)
    (order : Order) (htop : 0 ≤ hp ∨
      t ∈ s.entityList ∧ (s.hate t).topHateId ∈ (s.hate t).hateList) :
    Inv (s.addHpBase t hp kept order) := by
  obtain ⟨hnonneg, hmax⟩ := h.health t ht
  have hset : Inv (s.setHp t (Battle.newHp (s.hp t) ⌊hp⌋ (s.hpMax t) kept)) :=
    h.setHp t (fun _ => Battle.newHp_nonneg hmax.le) fun hnot => absurd ht hnot
  unfold Room.addHpBase
  split
  · exact h
  · dsimp only
    split
    · next hdead =>
        obtain ⟨hlast, hgone⟩ := hdead
        rcases htop with hgain | ⟨hlisted, htop⟩
        · have hfloor : (0 : ℚ) ≤ ⌊hp⌋ := by exact_mod_cast Int.floor_nonneg.mpr hgain
          have hsum : 0 < s.hp t + ⌊hp⌋ := add_pos_of_pos_of_nonneg hlast hfloor
          exact absurd hgone (not_le.mpr (Battle.newHp_pos hmax hsum))
        · exact hset.onDead hlisted ht htop order
    · exact hset

/-- Every `addHp` that adds hate of players and living pets only. -/
theorem Inv.addHp (h : Inv s) (hp : ℚ) (kept : Bool) (now : ℤ) (order : Order)
    (hfair : s.isMonster t = true → ¬ (s.hp t ≤ 0 ∧ hp ≤ 0) → (s.hateOf t hp).isSome = true →
      t ∈ s.entityList ∧ s.Hater source) : Inv (s.addHp t hp source kept now order) := by
  unfold Room.addHp
  split
  · next n32Gold n32Exp hkind =>
      have ht : s.isMonster t = true := isMonster_iff.mpr ⟨n32Gold, n32Exp, hkind⟩
      split
      · exact h
      · next hneither =>
          split
          · next hateValue hhate =>
              obtain ⟨hlisted, hsource⟩ := hfair ht hneither (by rw [hhate]; rfl)
              refine (h.addHate hsource t hateValue now).addHpMonster ht hp kept order
                (.inr ⟨hlisted, ?_⟩)
              have hown : (s.addHate t source hateValue now).hate t =
                  (s.hate t).addHate source hateValue now := by
                refine (addHate_apply t source hateValue none _ now s.hate t).trans ?_
                rw [if_pos rfl]
              rw [hown]
              exact top_addHate ..
          · next hhate =>
              refine h.addHpMonster ht hp kept order (.inl ?_)
              unfold Room.hateOf at hhate
              dsimp only at hhate
              split_ifs at hhate with _ hloss
              exact not_lt.mp hloss
  · next isRed hkind =>
      have ht : s.isMonster t ≠ true := by
        rw [Ne, isMonster_iff, hkind]
        rintro ⟨_, _, h⟩
        cases h
      split
      · exact h
      · exact h.addHpBase ht hp kept order
  · next hmonster hplayer =>
      refine h.addHpBase (fun ht => ?_) hp kept order
      obtain ⟨n32Gold, n32Exp, hkind⟩ := isMonster_iff.mp ht
      exact hmonster n32Gold n32Exp hkind

theorem Inv.setHpMax (h : Inv s) (t : ℤ) {hpMax : ℚ} (hmax : s.isMonster t = true → 0 < hpMax) :
    Inv { s with hpMax := Function.update s.hpMax t hpMax } := by
  refine ⟨h.nodup, h.fresh, h.masters, fun id hid => ?_, h.haters, h.kills⟩
  obtain ⟨hnonneg, hold⟩ := h.health id hid
  refine ⟨hnonneg, ?_⟩
  change 0 < Function.update s.hpMax t hpMax id
  by_cases hi : id = t
  · subst hi
    rw [Function.update_self]
    exact hmax hid
  · rw [Function.update_of_ne hi]
    exact hold

theorem Inv.calcHpMax (h : Inv s) {hpMax : ℚ} (kept : Bool) (now : ℤ) (order : Order)
    (hfair : s.isMonster t = true → 0 < hpMax ∧ (0 < s.hp t → 0 ≤ s.recalc t hpMax)) :
    Inv (s.calcHpMax t hpMax kept now order) := by
  refine (h.setHpMax t fun ht => (hfair ht).1).addHp _ kept now order fun ht hneither hhate => ?_
  exfalso
  have hnonneg := (h.health t ht).1
  rcases hnonneg.lt_or_eq with hpos | hzero
  · have hgain := (hfair ht).2 hpos
    have hnone : Room.hateOf { s with hpMax := Function.update s.hpMax t hpMax } t
        (s.recalc t hpMax) = none := by
      have hsum : 0 < s.hp t + s.recalc t hpMax := add_pos_of_pos_of_nonneg hpos hgain
      have halive : ¬ Double.add (s.hp t) (s.recalc t hpMax) ≤ 0 := by
        rw [not_le]
        exact Rounding.round_pos (by norm_num) hsum
      unfold Room.hateOf
      dsimp only
      rw [if_neg halive, if_neg (not_lt.mpr hgain)]
    rw [hnone] at hhate
    cases hhate
  · refine hneither ⟨hzero.ge, ?_⟩
    rw [Room.recalc, ← hzero, Battle.recalc_zero]

theorem Inv.expire (h : Inv s) (e : ℤ) (order : Order) : Inv (s.expire e order) := by
  unfold Room.expire
  split
  · next master camp n32Type hkind =>
      have he : s.isMonster e ≠ true := by
        rw [Ne, isMonster_iff, hkind]
        rintro ⟨_, _, h⟩
        cases h
      split
      · have hsame := onDead_of_not_monster (s := s.setHp e (-1)) he
        rw [hsame order]
        exact h.removeHates e he _ order
      · exact h
  · exact h

theorem Inv.remove (h : Inv s) (e : ℤ) : Inv (s.remove e) := by
  unfold Room.remove
  split
  · next kind hkind =>
      split
      · next hdead =>
          refine ⟨h.nodup.erase e, fun id hid => ?_, h.masters, h.health, fun m hm hmon k hk => ?_,
            h.kills⟩
          · obtain ⟨hnone, hnotin⟩ := h.fresh id hid
            exact ⟨hnone, fun hmem => hnotin (List.mem_of_mem_erase hmem)⟩
          · have hhater := h.haters m (List.mem_of_mem_erase hm) hmon k hk
            refine hhater.same ((List.mem_erase_of_ne ?_).mpr hhater.1) rfl id
            rintro rfl
            have hmatch := hhater.2
            rw [hkind] at hmatch
            cases kind with
            | IMapPlayer isRed => simp [Kind.entityType] at hdead
            | IPet master camp n32Type => exact absurd hdead.2 (not_le.mpr hmatch)
            | _ => exact hmatch
      · exact h
  · exact h

theorem add_kind (s : Room) (kind : Kind) (hp hpMax : ℚ) :
    (s.add kind hp hpMax).kind = Function.update s.kind (s.server_id + 1) (some kind) := rfl

theorem add_hp (s : Room) (kind : Kind) (hp hpMax : ℚ) :
    (s.add kind hp hpMax).hp = Function.update s.hp (s.server_id + 1) hp := rfl

theorem add_hpMax (s : Room) (kind : Kind) (hp hpMax : ℚ) :
    (s.add kind hp hpMax).hpMax = Function.update s.hpMax (s.server_id + 1) hpMax := rfl

theorem add_hate (s : Room) (kind : Kind) (hp hpMax : ℚ) :
    (s.add kind hp hpMax).hate = Function.update s.hate (s.server_id + 1) ctor := rfl

theorem Inv.add (h : Inv s) {kind : Kind} {hp hpMax : ℚ}
    (hmonster : kind.entityType = .monster → 0 ≤ hp ∧ 0 < hpMax)
    (hmaster : ∀ master camp n32Type, kind = .IPet master camp n32Type →
      ∃ isRed, s.kind master = some (.IMapPlayer isRed)) : Inv (s.add kind hp hpMax) := by
  obtain ⟨hnone, hnotin⟩ := h.fresh (s.server_id + 1) (lt_add_one _)
  have hlisted : ∀ id ∈ s.entityList, id ≠ s.server_id + 1 := by
    rintro id hid rfl
    exact hnotin hid
  have hkept : ∀ id, id ≠ s.server_id + 1 → ((s.add kind hp hpMax).isMonster id = true ↔
      s.isMonster id = true) := by
    intro id hid
    unfold Room.isMonster
    rw [add_kind, Function.update_of_ne hid]
  refine ⟨?_, fun id hid => ?_, fun id master camp n32Type hid => ?_, fun id hid => ?_,
    fun m hm hmon k hk => ?_, h.kills⟩
  · refine List.nodup_append.mpr ⟨h.nodup, List.nodup_singleton _, ?_⟩
    rintro a ha b hb rfl
    exact hlisted a ha (List.mem_singleton.mp hb)
  · change s.server_id + 1 < id at hid
    obtain ⟨hidnone, hidnotin⟩ := h.fresh id (by omega)
    rw [add_kind, Function.update_of_ne (by omega)]
    refine ⟨hidnone, fun hmem => ?_⟩
    rcases List.mem_append.mp hmem with hold | hnew
    · exact hidnotin hold
    · have heq := List.mem_singleton.mp hnew
      omega
  · have hold : ∃ isRed, s.kind master = some (.IMapPlayer isRed) := by
      rw [add_kind] at hid
      by_cases hi : id = s.server_id + 1
      · subst hi
        rw [Function.update_self, Option.some.injEq] at hid
        exact hmaster master camp n32Type hid
      · rw [Function.update_of_ne hi] at hid
        exact h.masters id master camp n32Type hid
    obtain ⟨isRed, hplayer⟩ := hold
    refine ⟨isRed, ?_⟩
    rw [add_kind, Function.update_of_ne]
    · exact hplayer
    · rintro rfl
      rw [hnone] at hplayer
      cases hplayer
  · rw [add_hp, add_hpMax]
    by_cases hi : id = s.server_id + 1
    · subst hi
      rw [Function.update_self, Function.update_self]
      refine hmonster ?_
      unfold Room.isMonster at hid
      rw [add_kind, Function.update_self] at hid
      simpa using hid
    · rw [Function.update_of_ne hi, Function.update_of_ne hi]
      exact h.health id ((hkept id hi).mp hid)
  · rw [add_hate] at hk
    rcases List.mem_append.mp hm with hold | hnew
    · have hne := hlisted m hold
      rw [Function.update_of_ne hne] at hk
      have hhater := h.haters m hold ((hkept m hne).mp hmon) k hk
      have hk' := hlisted k hhater.1
      refine hhater.same (List.mem_append_left _ hhater.1) ?_ fun hpos => ?_
      · rw [add_kind, Function.update_of_ne hk']
      · rw [add_hp, Function.update_of_ne hk']
        exact hpos
    · obtain rfl := List.mem_singleton.mp hnew
      rw [Function.update_self] at hk
      exact absurd hk (AList.notMem_empty k)

theorem Inv.spawn (h : Inv s) (batch : List Monster) : Inv (s.spawn batch) := by
  have hmade : Inv (batch.foldl
      (fun s mt => s.add (.IMonster mt.n32Gold mt.n32Exp) mt.n32Hp mt.n32Hp) s) := by
    induction batch generalizing s with
    | nil => exact h
    | cons mt batch ih =>
        exact ih (h.add (fun _ => ⟨mt.pos.le, mt.pos⟩) fun _ _ _ hk => by cases hk)
  exact ⟨hmade.nodup, hmade.fresh, hmade.masters, hmade.health, hmade.haters, hmade.kills⟩

theorem Inv.run (h : Inv s) (op : Op) (hfair : op.Fair s) : Inv (s.run op) := by
  cases op with
  | createPlayer isRed hp =>
      exact h.add (fun hm => by cases hm) fun _ _ _ hk => by cases hk
  | createBuilding camp hp =>
      exact h.add (fun hm => by cases hm) fun _ _ _ hk => by cases hk
  | createPet master n32Type hp hpMax =>
      change Inv (s.createPet master n32Type hp hpMax)
      unfold Room.createPet
      split
      · next isRed hkind =>
          refine h.add (fun hm => ?_) fun master' camp n32Type' hk => ?_
          · simp only [Kind.entityType] at hm
            split_ifs at hm
          · obtain ⟨rfl, -, -⟩ := Kind.IPet.inj hk
            exact ⟨isRed, hkind⟩
      · exact h
  | spawn batch => exact h.spawn batch
  | addHp t hp source kept now order => exact h.addHp hp kept now order hfair
  | calcHpMax t hpMax kept now order => exact h.calcHpMax kept now order hfair
  | expire e order => exact h.expire e order
  | remove e => exact h.remove e
  | notice m player now =>
      unfold Room.run
      dsimp only
      split
      · next isRed hkind =>
          split
          · next hlisted =>
              refine h.addHate ⟨hlisted, ?_⟩ m 1 now
              rw [hkind]
              trivial
          · exact h
      · exact h
  | clear m =>
      refine ⟨h.nodup, h.fresh, h.masters, h.health, fun m' hm hmon k hk => ?_, h.kills⟩
      change k ∈ (Function.update s.hate m (s.hate m).clear m').hateList at hk
      by_cases hm' : m' = m
      · subst hm'
        rw [Function.update_self] at hk
        exact absurd hk (AList.notMem_empty k)
      · rw [Function.update_of_ne hm'] at hk
        have hhater := h.haters m' hm hmon k hk
        exact hhater.same hhater.1 rfl id

/-- Every kill is paid to a player whose hate, or whose pet's, was on top. -/
theorem kills_rewarded (h : system.Runs (fun s op => op.Fair s) s) : ∀ kill ∈ s.kills,
    kill.Rewarded := by
  apply Inv.kills
  refine System.Runs.invariant (P := Inv) ?_ (fun s op s' hs hop hstep => ?_) h
  · refine ⟨List.nodup_nil, fun id hid => ⟨rfl, List.not_mem_nil⟩,
      fun id master camp n32Type hid => ?_, fun id hid => ?_, fun m hm => ?_, fun kill hkill => ?_⟩
    · cases hid
    · cases hid
    · exact absurd hm List.not_mem_nil
    · exact absurd hkill List.not_mem_nil
  · obtain rfl := Option.some.inj hstep
    exact hs.run op hop

instance (s : Room) (id : ℤ) : Decidable (s.Hater id) := by
  unfold Room.Hater
  cases s.kind id with
  | none => exact inferInstanceAs (Decidable (_ ∧ False))
  | some kind =>
      cases kind with
      | IMapPlayer isRed => exact inferInstanceAs (Decidable (_ ∧ True))
      | IPet master camp n32Type => exact inferInstanceAs (Decidable (_ ∧ 0 < s.hp id))
      | _ => exact inferInstanceAs (Decidable (_ ∧ False))

instance (s : Room) (op : Op) : Decidable (op.Fair s) := by
  cases op with
  | addHp t hp source kept now order => exact inferInstanceAs (Decidable (_ → _ → _ → _))
  | calcHpMax t hpMax kept now order => exact inferInstanceAs (Decidable (_ → _))
  | _ => exact .isTrue trivial

/-- Tables whose keys come in the order of the list. -/
def listed : Order := ⟨fun keys => keys, fun _ => .refl _⟩

def wolf : Monster := ⟨10, 20, 100, by norm_num⟩

/-- A player kills a monster. -/
theorem kills_rewarded_player : ∃ s, system.Runs (fun s op => op.Fair s) s ∧ s.kills.length = 1 ∧
    ∀ kill ∈ s.kills, kill.Rewarded := by
  have hrun : ((system.guarded fun s op => op.Fair s).run room
      [.createPlayer true 100, .spawn [wolf], .addHp 2 (-200) 1 false 0 listed]).map
      (fun s => s.kills.length) = some 1 := by
    decide +kernel
  obtain ⟨s, hs, hlength⟩ := Option.map_eq_some_iff.mp hrun
  have hruns := System.Runs.of_guarded_run _ .init hs
  exact ⟨s, hruns, hlength, kills_rewarded hruns⟩

/-- A pet has poisoned a monster, its time ends, and the poison kills. -/
theorem kill_unrewarded : ∃ s, system.Reachable s ∧ ∃ kill ∈ s.kills, kill.after = none ∧
    ¬ kill.Rewarded := by
  have hrun : (system.run room [.createPlayer true 100, .createPet 1 0 50 50, .spawn [wolf],
      .expire 2 listed, .remove 2, .addHp 3 (-200) 2 false 0 listed]).map
      (fun s => s.kills.map fun kill => (kill.topHateId, kill.entityList, kill.after.isNone)) =
      some [(2, [1, 3], true)] := by
    decide +kernel
  obtain ⟨s, hs, hread⟩ := Option.map_eq_some_iff.mp hrun
  obtain ⟨kill, rest, hkills, hkill, -⟩ := List.map_eq_cons_iff.mp hread
  simp only [Prod.mk.injEq] at hkill
  obtain ⟨htop, hlist, hnone⟩ := hkill
  refine ⟨s, System.reachable_of_run _ hs, kill, ?_, Option.isNone_iff_eq_none.mp hnone,
    fun h => ?_⟩
  · rw [hkills]
    exact List.mem_cons_self
  · have hmem := h.1
    rw [htop, hlist] at hmem
    exact absurd hmem (by decide)

end GameServer.MonsterKill
