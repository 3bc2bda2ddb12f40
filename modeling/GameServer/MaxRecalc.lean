import GameServer.KillRewards

/-!
# The health under a new maximum

`calcHpMax` keeps the share of the health, rounds it down and hands the difference to `addHp` with
the entity itself as the source. A share below 1 is rounded to 0, which kills; a monster takes
whatever it loses as hate of itself. Up to `2 ^ 50` no double skips a point of health.
-/

namespace GameServer.MonsterKill

open Hates

/-! ## The share -/

/-- The health of an entity that is alive. -/
structure Living (hp hpMax : ℚ) : Prop where
  alive : 0 < hp
  bound : hp ≤ hpMax
  double : Double.Is hp
  doubleMax : Double.Is hpMax
  fits : hpMax ≤ 2 ^ 50

/-- The health that `calcHpMax` leaves to an entity that is alive. -/
def rescaled (hp hpMax hpMax' : ℚ) (kept : Bool) : ℚ :=
  let diff := Battle.recalc hp hpMax hpMax'
  if ⌊diff⌋ = 0 then hp else Battle.newHp hp ⌊diff⌋ hpMax' kept

variable {hp hpMax hpMax' : ℚ} {kept : Bool}

theorem Living.pos (h : Living hp hpMax) : 0 < hpMax := h.alive.trans_le h.bound

theorem portion_nonneg (hhp : 0 ≤ hp) (hpos : 0 < hpMax) (hmax : 1 ≤ hpMax') :
    0 ≤ Battle.portion hp hpMax hpMax' := by
  have hshare : 0 ≤ Double.div hp hpMax := Rounding.round_nonneg 53 (by positivity)
  exact Rounding.round_nonneg 53 (mul_nonneg hshare (by linarith))

theorem portion_le (h : Living hp hpMax) (hmax : 1 ≤ hpMax') (hdouble : Double.Is hpMax') :
    Battle.portion hp hpMax hpMax' ≤ hpMax' := by
  have hshare : Double.div hp hpMax ≤ 1 :=
    Double.round_le ((div_le_one h.pos).mpr h.bound) (by decide +kernel)
  exact Double.round_le (mul_le_of_le_one_left (by linarith) hshare) hdouble

theorem portion_le_mul (hhp : 0 ≤ hp) (hpos : 0 < hpMax) (hmax : 0 ≤ hpMax') :
    Battle.portion hp hpMax hpMax' ≤ hp / hpMax * hpMax' * (1 + 1 / 2 ^ 53) ^ 2 := by
  have hshare : 0 ≤ hp / hpMax := by positivity
  have hdiv : Double.div hp hpMax ≤ hp / hpMax * (1 + 1 / 2 ^ 53) := Double.round_le_mul hshare
  have hnonneg : 0 ≤ Double.div hp hpMax := Rounding.round_nonneg 53 hshare
  calc Battle.portion hp hpMax hpMax'
      ≤ Double.div hp hpMax * hpMax' * (1 + 1 / 2 ^ 53) :=
        Double.round_le_mul (mul_nonneg hnonneg hmax)
    _ ≤ hp / hpMax * (1 + 1 / 2 ^ 53) * hpMax' * (1 + 1 / 2 ^ 53) := by gcongr
    _ = hp / hpMax * hpMax' * (1 + 1 / 2 ^ 53) ^ 2 := by ring

/-- A share of a lower maximum is not rounded up over the health. -/
theorem portion_le_self (h : Living hp hpMax) (hmax : 1 ≤ hpMax') (hdouble : Double.Is hpMax')
    (hlow : hpMax' < hpMax) : Battle.portion hp hpMax hpMax' ≤ hp := by
  have hpos := h.pos
  have hstep : hpMax' * (1 + 1 / 2 ^ 53) ≤ hpMax := hdouble.mul_le h.doubleMax (by linarith) hlow
  have hshare : 0 ≤ hp / hpMax := div_nonneg h.alive.le hpos.le
  have hdiv : Double.div hp hpMax ≤ hp / hpMax * (1 + 1 / 2 ^ 53) := Double.round_le_mul hshare
  refine Double.round_le ?_ h.double
  calc Double.div hp hpMax * hpMax' ≤ hp / hpMax * (1 + 1 / 2 ^ 53) * hpMax' := by gcongr
    _ = hp / hpMax * (hpMax' * (1 + 1 / 2 ^ 53)) := by ring
    _ ≤ hp / hpMax * hpMax := by gcongr
    _ = hp := div_mul_cancel₀ hp hpos.ne'

/-- A share below 1 comes to nothing, and the health goes. -/
theorem rescaled_of_lt_one (h : Living hp hpMax) (hmax : 1 ≤ hpMax')
    (hlt : Battle.portion hp hpMax hpMax' < 1) :
    rescaled hp hpMax hpMax' kept = if kept = true then 1 else 0 := by
  have hzero : ⌊Battle.portion hp hpMax hpMax'⌋ = 0 :=
    Int.floor_eq_zero_iff.mpr ⟨portion_nonneg h.alive.le h.pos hmax, hlt⟩
  have hdiff : Battle.recalc hp hpMax hpMax' = -hp := by
    rw [Battle.recalc, hzero, Double.sub, Int.cast_zero, zero_sub]
    exact h.double.neg
  have hceil : 1 ≤ ⌈hp⌉ := Int.one_le_ceil_iff.mpr h.alive
  have hle : hp + ((-⌈hp⌉ : ℤ) : ℚ) ≤ 0 := by
    have hhp := Int.le_ceil hp
    push_cast
    linarith
  unfold rescaled
  dsimp only
  rw [hdiff, Int.floor_neg, if_neg (by omega)]
  exact Battle.newHp_of_nonpos (by linarith) hle

theorem rescaled_bounds (kept : Bool) (h : Living hp hpMax) (hmax : 1 ≤ hpMax')
    (hdouble : Double.Is hpMax') (hone : 1 ≤ Battle.portion hp hpMax hpMax') :
    0 < rescaled hp hpMax hpMax' kept ∧ rescaled hp hpMax hpMax' kept ≤ hpMax' := by
  have hceil : hp ≤ ⌈hp⌉ ∧ (⌈hp⌉ : ℚ) < hp + 1 := ⟨Int.le_ceil hp, Int.ceil_lt_add_one hp⟩
  have hshare : (1 : ℚ) ≤ ⌊Battle.portion hp hpMax hpMax'⌋ := by
    exact_mod_cast Int.le_floor.mpr (by exact_mod_cast hone)
  have hfits := h.fits
  have hbound := h.bound
  unfold rescaled
  dsimp only
  split_ifs with hzero
  · refine ⟨h.alive, ?_⟩
    -- the difference is not negative
    have hgain : 0 ≤ Battle.recalc hp hpMax hpMax' := (Int.floor_eq_zero_iff.mp hzero).1
    have hle : hp ≤ ⌊Battle.portion hp hpMax hpMax'⌋ := by
      by_contra hless
      have hneg := Double.round_pos (sub_pos.mpr (not_le.mp hless))
      rw [← neg_sub, Double.round, Rounding.round_neg] at hneg
      exact absurd hgain (not_le.mpr (neg_pos.mp hneg))
    exact hle.trans ((Int.floor_le _).trans (portion_le h hmax hdouble))
  · refine ⟨Battle.newHp_pos (by linarith) ?_, Battle.newHp_le_max hmax⟩
    have hwhole : Double.Is ((1 - ⌈hp⌉ : ℤ) : ℚ) := by
      have hbelow : ⌈hp⌉ ≤ 2 ^ 50 := Int.ceil_le.mpr (by push_cast; linarith)
      have habove : 1 ≤ ⌈hp⌉ := Int.one_le_ceil_iff.mpr h.alive
      exact Double.is_intCast (abs_le.mpr ⟨by omega, by omega⟩)
    have hdiff : 1 - ⌈hp⌉ ≤ ⌊Battle.recalc hp hpMax hpMax'⌋ := by
      refine Int.le_floor.mpr (Double.le_round ?_ hwhole)
      push_cast
      linarith
    have hdiff' : ((1 - ⌈hp⌉ : ℤ) : ℚ) ≤ ⌊Battle.recalc hp hpMax hpMax'⌋ := by exact_mod_cast hdiff
    push_cast at hdiff'
    linarith

/-- The parts of a point stay where a maximum is lowered. -/
theorem rescaled_of_one_le (kept : Bool) (h : Living hp hpMax) (hmax : 1 ≤ hpMax')
    (hdouble : Double.Is hpMax') (hlow : hpMax' < hpMax)
    (hone : 1 ≤ Battle.portion hp hpMax hpMax') :
    rescaled hp hpMax hpMax' kept = hp + ⌊Battle.portion hp hpMax hpMax'⌋ - ⌈hp⌉ := by
  have hceil : hp ≤ ⌈hp⌉ ∧ (⌈hp⌉ : ℚ) < hp + 1 := ⟨Int.le_ceil hp, Int.ceil_lt_add_one hp⟩
  have hself := portion_le_self h hmax hdouble hlow
  have htop := portion_le h hmax hdouble
  have hfloor : (⌊Battle.portion hp hpMax hpMax'⌋ : ℚ) ≤ Battle.portion hp hpMax hpMax' :=
    Int.floor_le _
  have hdigits := Double.is_iff_digits.mp h.double
  have hfits : hp < 2 ^ 53 := (h.bound.trans h.fits).trans_lt (by norm_num)
  have hshare : (1 : ℚ) ≤ ⌊Battle.portion hp hpMax hpMax'⌋ := by
    exact_mod_cast Int.le_floor.mpr (by exact_mod_cast hone)
  unfold rescaled Battle.recalc
  generalize ⌊Battle.portion hp hpMax hpMax'⌋ = n at *
  have hloss : Double.Is (hp - n) := by
    refine Double.is_iff_digits.mpr (hdigits.sub_intCast (by norm_num) (by linarith) hfits ?_)
    rw [abs_of_nonneg] <;> linarith
  have hdiff : Double.sub n hp = n - hp := by
    have hneg := hloss.neg
    rw [neg_sub] at hneg
    exact hneg
  dsimp only
  rw [hdiff, sub_eq_add_neg (n : ℚ), Int.floor_intCast_add, Int.floor_neg]
  split_ifs with hzero
  · have hzero' : (n : ℚ) - ⌈hp⌉ = 0 := by exact_mod_cast hzero
    linarith
  · have hsum : hp + ((n + -⌈hp⌉ : ℤ) : ℚ) = hp - ((⌈hp⌉ - n : ℤ) : ℚ) := by
      push_cast
      ring
    have hdouble' : Double.Is (hp - ((⌈hp⌉ - n : ℤ) : ℚ)) := by
      refine Double.is_iff_digits.mpr (hdigits.sub_intCast (by norm_num) (by linarith) hfits ?_)
      push_cast
      rw [abs_of_nonneg] <;> linarith
    rw [Battle.newHp_eq, hsum]
    · push_cast
      ring
    · push_cast
      linarith
    · push_cast
      linarith
    · rwa [hsum]

/-- What is left of the health when the maximum is lowered and restored. -/
theorem restored_le {kept' : Bool} (h : Living hp hpMax) (hmax : 1 ≤ hpMax')
    (hdouble : Double.Is hpMax') (hlow : hpMax' < hpMax)
    (hone : 1 ≤ Battle.portion hp hpMax hpMax') :
    rescaled (rescaled hp hpMax hpMax' kept) hpMax' hpMax kept' ≤ hp := by
  have hceil : hp ≤ ⌈hp⌉ ∧ (⌈hp⌉ : ℚ) < hp + 1 := ⟨Int.le_ceil hp, Int.ceil_lt_add_one hp⟩
  have hself := portion_le_self h hmax hdouble hlow
  have hfits : hp ≤ 2 ^ 50 := h.bound.trans h.fits
  have hpos := h.pos
  have halive := h.alive
  obtain ⟨hlive, -⟩ := rescaled_bounds kept h hmax hdouble hone
  have hlost := rescaled_of_one_le kept h hmax hdouble hlow hone
  have hmul := portion_le_mul halive.le hpos (by linarith : 0 ≤ hpMax')
  have hfloor : (⌊Battle.portion hp hpMax hpMax'⌋ : ℚ) ≤ Battle.portion hp hpMax hpMax' :=
    Int.floor_le _
  generalize rescaled hp hpMax hpMax' kept = hp' at *
  have hshare : (1 : ℚ) ≤ ⌊Battle.portion hp hpMax hpMax'⌋ := by
    exact_mod_cast Int.le_floor.mpr (by exact_mod_cast hone)
  generalize ⌊Battle.portion hp hpMax hpMax'⌋ = n at *
  -- four roundings are less than a point
  have hback : Battle.portion hp' hpMax' hpMax < hp + 1 := by
    calc Battle.portion hp' hpMax' hpMax
        ≤ hp' / hpMax' * hpMax * (1 + 1 / 2 ^ 53) ^ 2 :=
          portion_le_mul hlive.le (by linarith) hpos.le
      _ ≤ hp / hpMax * hpMax' * (1 + 1 / 2 ^ 53) ^ 2 / hpMax' * hpMax * (1 + 1 / 2 ^ 53) ^ 2 := by
          gcongr
          linarith
      _ = hp * (1 + 1 / 2 ^ 53) ^ 4 := by field_simp
      _ < hp + 1 := by nlinarith
  have hcount : ⌊Battle.portion hp' hpMax' hpMax⌋ ≤ ⌈hp⌉ := by
    have hlt : (⌊Battle.portion hp' hpMax' hpMax⌋ : ℚ) < ((⌈hp⌉ + 1 : ℤ) : ℚ) := by
      push_cast
      linarith [Int.floor_le (Battle.portion hp' hpMax' hpMax)]
    exact Int.lt_add_one_iff.mp (by exact_mod_cast hlt)
  have hgain : ⌊Battle.recalc hp' hpMax' hpMax⌋ ≤ ⌈hp⌉ - n := by
    have hdigits : Rounding.Digits 53 (hp - ((2 * ⌈hp⌉ - n : ℤ) : ℚ)) := by
      refine (Double.is_iff_digits.mp h.double).sub_intCast (by norm_num) (by linarith)
        (hfits.trans_lt (by norm_num)) ?_
      push_cast
      rw [abs_of_nonpos] <;> linarith
    have hexact := (Double.is_iff_digits.mpr hdigits).neg
    have hle : Battle.recalc hp' hpMax' hpMax ≤ -(hp - ((2 * ⌈hp⌉ - n : ℤ) : ℚ)) := by
      refine Double.round_le ?_ hexact
      have hcount' : (⌊Battle.portion hp' hpMax' hpMax⌋ : ℚ) ≤ ⌈hp⌉ := by exact_mod_cast hcount
      push_cast
      linarith
    have hmono := Int.floor_mono hle
    have hvalue : ⌊-(hp - ((2 * ⌈hp⌉ - n : ℤ) : ℚ))⌋ = ⌈hp⌉ - n := by
      rw [neg_sub, sub_eq_add_neg, Int.floor_intCast_add, Int.floor_neg]
      ring
    exact hmono.trans_eq hvalue
  have hgain' : (⌊Battle.recalc hp' hpMax' hpMax⌋ : ℚ) ≤ ⌈hp⌉ - n := by exact_mod_cast hgain
  unfold rescaled
  dsimp only
  split_ifs with hzero
  · linarith
  · exact Battle.newHp_le (by linarith) h.double (by linarith)

theorem rescaled_one (hmax : 1 ≤ hpMax') (hdouble : Double.Is hpMax') (hlow : hpMax' < hpMax)
    (hdouble' : Double.Is hpMax) (hfits : hpMax ≤ 2 ^ 50) :
    rescaled 1 hpMax' hpMax kept = ⌊Battle.portion 1 hpMax' hpMax⌋ := by
  have hliving : Living 1 hpMax' := ⟨one_pos, hmax, by decide +kernel, hdouble, by linarith⟩
  have htop := portion_le hliving (by linarith) hdouble'
  have hone : 1 ≤ Battle.portion 1 hpMax' hpMax := by
    have hpos : 0 < hpMax' := one_pos.trans_le hmax
    have hstep : hpMax' * (1 + 1 / 2 ^ 53) ≤ hpMax := hdouble.mul_le hdouble' hpos hlow
    have hshare : 0 ≤ 1 / hpMax' := by positivity
    have hdiv : 1 / hpMax' * (1 - 1 / 2 ^ 53) ≤ Double.div 1 hpMax' := Double.mul_le_round hshare
    have hnear : 1 - 1 / 2 ^ 106 ≤ Double.div 1 hpMax' * hpMax := by
      calc 1 - 1 / 2 ^ 106 = 1 / hpMax' * (1 - 1 / 2 ^ 53) * (hpMax' * (1 + 1 / 2 ^ 53)) := by
            field_simp
            norm_num
        _ ≤ Double.div 1 hpMax' * hpMax := by
            have hhalf : (0 : ℚ) ≤ 1 - 1 / 2 ^ 53 := by norm_num
            gcongr
            exact (mul_nonneg hshare hhalf).trans hdiv
    have hround : Double.round (1 - 1 / 2 ^ 106) = 1 := by decide +kernel
    exact hround.symm.trans_le (Rounding.round_mono (by norm_num) hnear)
  have hshare : (1 : ℤ) ≤ ⌊Battle.portion 1 hpMax' hpMax⌋ :=
    Int.le_floor.mpr (by exact_mod_cast hone)
  have hwhole : ∀ k : ℤ, k ≤ ⌊Battle.portion 1 hpMax' hpMax⌋ → 0 ≤ k → Double.Is k := by
    intro k hk hnonneg
    have hk' : (k : ℚ) ≤ ((2 ^ 50 : ℤ) : ℚ) := by
      have hfloor := Int.le_floor.mp hk
      push_cast
      linarith
    have hbelow : k ≤ 2 ^ 50 := by exact_mod_cast hk'
    exact Double.is_intCast (abs_le.mpr ⟨by omega, by omega⟩)
  have hdiff : Battle.recalc 1 hpMax' hpMax = ((⌊Battle.portion 1 hpMax' hpMax⌋ - 1 : ℤ) : ℚ) := by
    have hdouble := hwhole (⌊Battle.portion 1 hpMax' hpMax⌋ - 1) (by omega) (by omega)
    push_cast at hdouble ⊢
    exact hdouble
  have hfloor := Int.floor_le (Battle.portion 1 hpMax' hpMax)
  have hall := hwhole _ le_rfl (by omega)
  unfold rescaled
  dsimp only
  rw [hdiff, Int.floor_intCast]
  generalize ⌊Battle.portion 1 hpMax' hpMax⌋ = n at *
  have hsum : (1 : ℚ) + ((n - 1 : ℤ) : ℚ) = n := by
    push_cast
    ring
  have hn : (1 : ℚ) ≤ n := by exact_mod_cast hshare
  split_ifs with hzero
  · rw [show n = 1 by omega]
    simp
  · rw [Battle.newHp_eq] <;> rw [hsum]
    · linarith
    · linarith
    · exact hall

/-- Who stays alive, under its new maximum, and with no more than it had when a lower one is
restored. -/
theorem rescaled_iff (kept kept' : Bool) (h : Living hp hpMax) (hmax : 1 ≤ hpMax')
    (hdouble : Double.Is hpMax') :
    (0 < rescaled hp hpMax hpMax' kept ∧ rescaled hp hpMax hpMax' kept ≤ hpMax' ∧
      (hpMax' < hpMax → rescaled (rescaled hp hpMax hpMax' kept) hpMax' hpMax kept' ≤ hp)) ↔
    1 ≤ Battle.portion hp hpMax hpMax' ∨
      kept = true ∧ (hpMax' < hpMax → ⌊Battle.portion 1 hpMax' hpMax⌋ ≤ hp) := by
  rcases lt_or_ge (Battle.portion hp hpMax hpMax') 1 with hlt | hone
  · rw [rescaled_of_lt_one h hmax hlt]
    by_cases hk : kept = true
    · have hback : (hpMax' < hpMax → rescaled 1 hpMax' hpMax kept' ≤ hp) ↔
          (hpMax' < hpMax → ⌊Battle.portion 1 hpMax' hpMax⌋ ≤ hp) :=
        forall_congr' fun hlow => by
          rw [rescaled_one hmax hdouble hlow h.doubleMax h.fits]
      simp [hk, hmax, hback, not_le.mpr hlt]
    · simp [hk, not_le.mpr hlt]
  · obtain ⟨hlive, hle⟩ := rescaled_bounds kept h hmax hdouble hone
    exact iff_of_true ⟨hlive, hle, fun hlow => restored_le h hmax hdouble hlow hone⟩ (.inl hone)

/-! ## The entity in its room -/

namespace Room

variable (s : Room)

/-- `addHpBase` runs `onDead`. -/
def Dies (t : ℤ) (hp : ℚ) (kept : Bool) : Prop :=
  ⌊hp⌋ ≠ 0 ∧ 0 < s.hp t ∧ Battle.newHp (s.hp t) ⌊hp⌋ (s.hpMax t) kept ≤ 0

/-- `setHpMax` -/
def withHpMax (t : ℤ) (hpMax : ℚ) : Room := { s with hpMax := Function.update s.hpMax t hpMax }

/-- What a new maximum is to do to an entity. -/
structure Spared (t : ℤ) (hpMax : ℚ) (kept : Bool) (s' : Room) : Prop where
  alive : 0 < s'.hp t
  bounded : s'.hp t ≤ s'.hpMax t
  noDeath : ¬ (s.withHpMax t hpMax).Dies t (s.recalc t hpMax) kept
  hate : ∀ m v, (s'.hate m).getHate v ≤ (s.hate m).getHate v

/-- More hate of itself is rounded away, and is no news to those that the monster is linked to. -/
def Absorbs (t : ℤ) (hateValue : ℚ) : Prop :=
  (s.hate t).raised t hateValue ≤ (s.hate t).getHate t ∧
    ∀ m ∈ s.szLink t, m ∈ s.entityList → m ≠ t → (s.hate m).getHate t ≠ 0

/-- Nothing is lost, or what is lost is no hate. -/
def Quiet (t : ℤ) (hpMax : ℚ) : Prop :=
  s.hp t ≤ ⌊Battle.portion (s.hp t) (s.hpMax t) hpMax⌋ ∨
    ∀ hateValue ∈ (s.withHpMax t hpMax).hateOf t (s.recalc t hpMax), s.Absorbs t hateValue

/-- The hate of `IMonster.addHp`. -/
def withHate (t : ℤ) (hp : ℚ) (source now : ℤ) : Room :=
  if s.isMonster t = true then
    match s.hateOf t hp with
    | some hateValue => s.addHate t source hateValue now
    | none => s
  else s

/-- Healths, maxima and kinds are those of the other room. -/
structure Same (s' : Room) : Prop where
  hp : s'.hp = s.hp
  hpMax : s'.hpMax = s.hpMax
  kind : s'.kind = s.kind

end Room

variable {s s' : Room} {t now : ℤ} {order : Order}

theorem withHpMax_self (s : Room) (t : ℤ) (hpMax : ℚ) : (s.withHpMax t hpMax).hpMax t = hpMax := by
  simp [Room.withHpMax]

theorem same_withHate (s : Room) (t : ℤ) (hp : ℚ) (source now : ℤ) :
    s.Same (s.withHate t hp source now) := by
  unfold Room.withHate
  split
  · split <;> exact ⟨rfl, rfl, rfl⟩
  · exact ⟨rfl, rfl, rfl⟩

theorem Room.same_shares (s : Room) (player n32Gold n32Exp : ℤ) (l : List ℤ) :
    s.Same (l.foldl (fun s v => s.share player n32Gold n32Exp v) s) := by
  induction l generalizing s with
  | nil => exact ⟨rfl, rfl, rfl⟩
  | cons v l ih =>
      have hshare : s.Same (s.share player n32Gold n32Exp v) := by
        unfold Room.share
        split
        · split <;> exact ⟨rfl, rfl, rfl⟩
        · exact ⟨rfl, rfl, rfl⟩
      have hrest := ih (s := s.share player n32Gold n32Exp v)
      exact ⟨hrest.hp.trans hshare.hp, hrest.hpMax.trans hshare.hpMax, hrest.kind.trans hshare.kind⟩

theorem same_onDead (s : Room) (e : ℤ) (order : Order) : s.Same (s.onDead e order) := by
  unfold Room.onDead
  dsimp only
  split
  · next n32Gold n32Exp _ =>
      cases hreward : (s.removeHates e order).reward e n32Gold n32Exp with
      | none => exact ⟨rfl, rfl, rfl⟩
      | some after =>
          unfold Room.reward at hreward
          split at hreward
          · cases hreward
          · next sid _ =>
              obtain rfl := Option.some.inj hreward
              set after := (s.removeHates e order).pay ((s.removeHates e order).payee sid) n32Gold
                n32Exp
              have hshares := after.same_shares ((s.removeHates e order).payee sid) n32Gold n32Exp
                (s.removeHates e order).entityList
              exact ⟨hshares.hp, hshares.hpMax, hshares.kind⟩
  · exact ⟨rfl, rfl, rfl⟩

theorem addHpBase_eq (hp : ℚ) (hdies : ¬ s.Dies t hp kept) :
    s.addHpBase t hp kept order =
      if ⌊hp⌋ = 0 then s else s.setHp t (Battle.newHp (s.hp t) ⌊hp⌋ (s.hpMax t) kept) := by
  unfold Room.addHpBase
  by_cases hzero : ⌊hp⌋ = 0
  · rw [if_pos hzero, if_pos hzero]
  · rw [if_neg hzero, if_neg hzero]
    exact if_neg fun h => hdies ⟨hzero, h⟩

theorem addHpBase_hp (s : Room) (t : ℤ) (hp : ℚ) (kept : Bool) (order : Order) :
    (s.addHpBase t hp kept order).hp t =
        (if ⌊hp⌋ = 0 then s.hp t else Battle.newHp (s.hp t) ⌊hp⌋ (s.hpMax t) kept) ∧
      (s.addHpBase t hp kept order).hpMax = s.hpMax ∧
      (s.addHpBase t hp kept order).kind = s.kind := by
  unfold Room.addHpBase
  dsimp only
  split_ifs with hzero hdead
  · exact ⟨rfl, rfl, rfl⟩
  · have hsame := same_onDead (s.setHp t (Battle.newHp (s.hp t) ⌊hp⌋ (s.hpMax t) kept)) t order
    rw [hsame.hp, hsame.hpMax, hsame.kind]
    exact ⟨setHp_self s t _, rfl, rfl⟩
  · exact ⟨setHp_self s t _, rfl, rfl⟩

/-- `addHp` of an entity that is alive. -/
theorem addHp_eq (halive : 0 < s.hp t) (hp : ℚ) (source : ℤ) :
    s.addHp t hp source kept now order =
      (s.withHate t hp source now).addHpBase t hp kept order := by
  have hdead : ¬ (s.hp t ≤ 0 ∧ hp ≤ 0) := fun h => absurd halive (not_lt.mpr h.1)
  unfold Room.addHp Room.withHate
  split
  · next n32Gold n32Exp hkind =>
      rw [if_neg hdead, if_pos (isMonster_iff.mpr ⟨n32Gold, n32Exp, hkind⟩)]
      cases s.hateOf t hp with
      | none => rfl
      | some hateValue => rfl
  · next isRed hkind =>
      rw [if_neg hdead, if_neg]
      rw [isMonster_iff, hkind]
      rintro ⟨_, _, h⟩
      cases h
  · next hmonster _ =>
      rw [if_neg]
      intro ht
      obtain ⟨n32Gold, n32Exp, hkind⟩ := isMonster_iff.mp ht
      exact hmonster n32Gold n32Exp hkind

theorem calcHpMax_eq (halive : 0 < s.hp t) (hpMax : ℚ) :
    s.calcHpMax t hpMax kept now order =
      ((s.withHpMax t hpMax).withHate t (s.recalc t hpMax) t now).addHpBase t (s.recalc t hpMax)
        kept order :=
  addHp_eq (s := s.withHpMax t hpMax) halive (s.recalc t hpMax) t

theorem calcHpMax_hp (halive : 0 < s.hp t) (hpMax : ℚ) (kept : Bool) (now : ℤ) (order : Order) :
    (s.calcHpMax t hpMax kept now order).hp t = rescaled (s.hp t) (s.hpMax t) hpMax kept ∧
      (s.calcHpMax t hpMax kept now order).hpMax t = hpMax := by
  have hsame := same_withHate (s.withHpMax t hpMax) t (s.recalc t hpMax) t now
  obtain ⟨hhp, hmax, -⟩ := addHpBase_hp
    ((s.withHpMax t hpMax).withHate t (s.recalc t hpMax) t now) t (s.recalc t hpMax) kept order
  rw [calcHpMax_eq halive, hhp, hmax, hsame.hp, hsame.hpMax, withHpMax_self]
  exact ⟨rfl, rfl⟩

theorem dies_iff (halive : 0 < s.hp t) (hpMax : ℚ) :
    (s.withHpMax t hpMax).Dies t (s.recalc t hpMax) kept ↔
      rescaled (s.hp t) (s.hpMax t) hpMax kept ≤ 0 := by
  unfold Room.Dies
  rw [withHpMax_self]
  change (⌊s.recalc t hpMax⌋ ≠ 0 ∧ 0 < s.hp t ∧
      Battle.newHp (s.hp t) ⌊s.recalc t hpMax⌋ hpMax kept ≤ 0) ↔
    (if ⌊s.recalc t hpMax⌋ = 0 then s.hp t
      else Battle.newHp (s.hp t) ⌊s.recalc t hpMax⌋ hpMax kept) ≤ 0
  split_ifs with hzero
  · simp [hzero, halive]
  · simp [hzero, halive]

/-- Where it does not die, an entity has given itself the hate of what it lost. -/
theorem calcHpMax_hate (halive : 0 < s.hp t) (hpMax : ℚ)
    (hdies : ¬ (s.withHpMax t hpMax).Dies t (s.recalc t hpMax) kept) :
    (s.calcHpMax t hpMax kept now order).hate =
      ((s.withHpMax t hpMax).withHate t (s.recalc t hpMax) t now).hate := by
  have hsame := same_withHate (s.withHpMax t hpMax) t (s.recalc t hpMax) t now
  have hdies' : ¬ ((s.withHpMax t hpMax).withHate t (s.recalc t hpMax) t now).Dies t
      (s.recalc t hpMax) kept := by
    unfold Room.Dies at hdies ⊢
    rwa [hsame.hp, hsame.hpMax]
  rw [calcHpMax_eq halive, addHpBase_eq _ hdies']
  split_ifs <;> rfl

theorem hateOf_eq_none (halive : 0 < s.hp t) {hpMax : ℚ}
    (hle : s.hp t ≤ ⌊Battle.portion (s.hp t) (s.hpMax t) hpMax⌋) :
    (s.withHpMax t hpMax).hateOf t (s.recalc t hpMax) = none := by
  have hgain : 0 ≤ s.recalc t hpMax := Rounding.round_nonneg 53 (sub_nonneg.mpr hle)
  have hsum : 0 < Double.add (s.hp t) (s.recalc t hpMax) :=
    Double.round_pos (add_pos_of_pos_of_nonneg halive hgain)
  have hhp : (s.withHpMax t hpMax).hp t = s.hp t := rfl
  unfold Room.hateOf
  dsimp only
  rw [hhp, if_neg (not_le.mpr hsum), if_neg (not_lt.mpr hgain)]

theorem withHate_le_iff (halive : 0 < s.hp t) (hpMax : ℚ) (now : ℤ) :
    (∀ m v, (((s.withHpMax t hpMax).withHate t (s.recalc t hpMax) t now).hate m).getHate v ≤
      (s.hate m).getHate v) ↔ (s.isMonster t = true → s.Quiet t hpMax) := by
  have hmonster : (s.withHpMax t hpMax).isMonster t = s.isMonster t := rfl
  unfold Room.withHate Room.Quiet
  rw [hmonster]
  by_cases ht : s.isMonster t = true
  · rw [if_pos ht]
    cases hhate : (s.withHpMax t hpMax).hateOf t (s.recalc t hpMax) with
    | none => exact iff_of_true (fun _ _ => le_rfl) fun _ => .inr fun v hv => by cases hv
    | some hateValue =>
        have hless : ¬ s.hp t ≤ ⌊Battle.portion (s.hp t) (s.hpMax t) hpMax⌋ := by
          intro hle
          rw [hateOf_eq_none halive hle] at hhate
          cases hhate
        have hlists : ∀ m, ((s.withHpMax t hpMax).addHate t t hateValue now).hate m =
            if m = t then (s.hate t).addHate t hateValue now
            else if (m ∈ s.szLink t ∧ m ∈ s.entityList) ∧ (s.hate m).getHate t = 0 then
              (s.hate m).addHate t 1 now
            else s.hate m := by
          intro m
          refine (addHate_apply t t hateValue none _ now s.hate m).trans ?_
          have hlinks : m ∈ (s.szLink t).filter (· ∈ s.entityList) ↔
              m ∈ s.szLink t ∧ m ∈ s.entityList := by simp
          refine if_congr Iff.rfl rfl (if_congr ?_ rfl rfl)
          exact ⟨fun h => ⟨hlinks.mp h.2.1, h.2.2⟩, fun h => ⟨nofun, hlinks.mpr h.1, h.2⟩⟩
        constructor
        · intro h _
          refine .inr fun v hv => ?_
          obtain rfl := Option.some.inj hv
          constructor
          · have hown := h t t
            rw [hlists, if_pos rfl, getHate_addHate] at hown
            exact hown
          · intro m hlink hlisted hne hzero
            have hraised := h m t
            rw [hlists, if_neg hne, if_pos ⟨⟨hlink, hlisted⟩, hzero⟩, getHate_addHate,
              raised_one hzero, hzero] at hraised
            exact absurd hraised (by norm_num)
        · intro h m v
          obtain ⟨hown, hlinks⟩ := (h ht).resolve_left hless hateValue rfl
          rw [hlists]
          split_ifs with hm hlink
          · subst hm
            by_cases hv : v = m
            · subst hv
              rwa [getHate_addHate]
            · rw [getHate_addHate_of_ne hv]
          · exact absurd hlink.2 (hlinks m hlink.1.1 hlink.1.2 hm)
          · exact le_rfl
  · rw [if_neg ht]
    exact iff_of_true (fun _ _ => le_rfl) fun h => absurd h ht

/-- A new maximum spares an entity exactly if the share of the health in it is at least 1, or its
states keep a health of 1 that does not grow when the maximum is restored; and if a monster loses
nothing, or nothing that is hate. -/
theorem calcHpMax_spares_iff {now' : ℤ} {order' : Order} {kept' : Bool}
    (hliving : Living (s.hp t) (s.hpMax t)) {hpMax : ℚ} (hmax : 1 ≤ hpMax)
    (hdouble : Double.Is hpMax) :
    (s.Spared t hpMax kept (s.calcHpMax t hpMax kept now order) ∧ (hpMax < s.hpMax t →
      ((s.calcHpMax t hpMax kept now order).calcHpMax t (s.hpMax t) kept' now' order').hp t ≤
      s.hp t)) ↔
    (1 ≤ Battle.portion (s.hp t) (s.hpMax t) hpMax ∨
      kept = true ∧ (hpMax < s.hpMax t → ⌊Battle.portion 1 hpMax (s.hpMax t)⌋ ≤ s.hp t)) ∧
    (s.isMonster t = true → s.Quiet t hpMax) := by
  obtain ⟨hhp, hmx⟩ := calcHpMax_hp hliving.alive hpMax kept now order
  have hback : 0 < rescaled (s.hp t) (s.hpMax t) hpMax kept →
      ((s.calcHpMax t hpMax kept now order).calcHpMax t (s.hpMax t) kept' now' order').hp t =
        rescaled (rescaled (s.hp t) (s.hpMax t) hpMax kept) hpMax (s.hpMax t) kept' := by
    intro hlive
    rw [(calcHpMax_hp (by rwa [hhp]) (s.hpMax t) kept' now' order').1, hhp, hmx]
  rw [← rescaled_iff kept kept' hliving hmax hdouble, ← withHate_le_iff hliving.alive hpMax now]
  constructor
  · rintro ⟨⟨hlive, hle, hdies, hhate⟩, hrestored⟩
    rw [calcHpMax_hate hliving.alive hpMax hdies] at hhate
    rw [hhp] at hlive
    rw [hhp, hmx] at hle
    rw [hback hlive] at hrestored
    exact ⟨⟨hlive, hle, hrestored⟩, hhate⟩
  · rintro ⟨⟨hlive, hle, hrestored⟩, hhate⟩
    have hdies : ¬ (s.withHpMax t hpMax).Dies t (s.recalc t hpMax) kept := by
      rw [dies_iff hliving.alive]
      exact not_le.mpr hlive
    refine ⟨⟨hhp.symm ▸ hlive, ?_, hdies, ?_⟩, ?_⟩
    · rwa [hhp, hmx]
    · rwa [calcHpMax_hate hliving.alive hpMax hdies]
    · rwa [hback hlive]

/-- A room with a hero of health `hp` of 100. -/
def heroRoom (hp : ℚ) : Room := room.add (.IMapPlayer true) hp 100

def anyOrder : Order := ⟨id, fun _ => List.Perm.refl _⟩

/-- A hero with half of its health gets half of the maximum. -/
theorem calcHpMax_spares_half :
    (heroRoom 50).Spared 1 50 false ((heroRoom 50).calcHpMax 1 50 false 0 anyOrder) := by
  have hliving : Living ((heroRoom 50).hp 1) ((heroRoom 50).hpMax 1) := by
    constructor <;> decide +kernel
  have hshare : 1 ≤ Battle.portion ((heroRoom 50).hp 1) ((heroRoom 50).hpMax 1) 50 := by
    decide +kernel
  have hmonster : ¬ (heroRoom 50).isMonster 1 = true := by decide +kernel
  have hiff := @calcHpMax_spares_iff false (heroRoom 50) 1 0 anyOrder 0 anyOrder false hliving 50
    (by norm_num) (by decide +kernel)
  exact (hiff.mpr ⟨.inl hshare, fun h => absurd h hmonster⟩).1

/-- A hero with a health of 1 of 100 dies when its maximum falls to 50. -/
theorem calcHpMax_kills :
    (heroRoom 1).hp 1 = 1 ∧ (heroRoom 1).hpMax 1 = 100 ∧
      ((heroRoom 1).calcHpMax 1 50 false 0 anyOrder).hp 1 = 0 ∧
      ((heroRoom 1).withHpMax 1 50).Dies 1 ((heroRoom 1).recalc 1 50) false := by
  unfold Room.Dies
  decide +kernel

end GameServer.MonsterKill
