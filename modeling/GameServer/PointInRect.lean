import GameServer.Targets

/-!
# The rectangle of a skill

`ptInRect` counts the edges that a ray to the right crosses. An edge counts when one of its ends
lies above the ray and the other does not, so around the rectangle such edges come in pairs. Of a
point outside, the ray crosses both edges of a pair or none; from a point inside it crosses the one
edge that leads upwards.
-/

namespace GameServer.PointInRect

open Plane (Root Vector3 OnSegment along reals)
open Targets (crosses ptInRect corners)

variable {K : Type} [Field K] [LinearOrder K]

/-! ## Edges -/

/-- Where the line through two places has the height of `p`. -/
def meet (p p1 p2 : Vector3 K) : K := (p.z - p1.z) * (p2.x - p1.x) / (p2.z - p1.z) + p1.x

/-- The end of an edge lies above the ray from `p`. -/
def above (p p1 : Vector3 K) : Bool := p.z < p1.z

/-- The side of an edge on which `p` lies; on the left it is negative. -/
def side (p p1 p2 : Vector3 K) : K :=
  (p.x - p1.x) * (p2.z - p1.z) - (p.z - p1.z) * (p2.x - p1.x)

theorem crosses_eq (p p1 p2 : Vector3 K) :
    crosses p p1 p2 = ((above p p1 != above p p2) && decide (p.x < meet p p1 p2)) := by
  have hcrosses : crosses p p1 p2 =
      if p1.z = p2.z then false
      else if p.z ≥ max p1.z p2.z then false
      else if p.z < min p1.z p2.z then false
      else decide (p.x < meet p p1 p2) := rfl
  rw [hcrosses]
  rcases lt_trichotomy p1.z p2.z with hlt | heq | hgt
  · rw [if_neg hlt.ne, max_eq_right hlt.le, min_eq_left hlt.le]
    by_cases h2 : p.z < p2.z <;> by_cases h1 : p.z < p1.z
    · simp [above, h1, h2]
    · simp [above, h1, h2, h2.not_ge]
    · exact absurd (h1.trans hlt) h2
    · simp [above, h1, h2, not_lt.mp h2]
  · simp [above, heq]
  · rw [if_neg hgt.ne', max_eq_left hgt.le, min_eq_right hgt.le]
    by_cases h1 : p.z < p1.z <;> by_cases h2 : p.z < p2.z
    · simp [above, h1, h2]
    · simp [above, h1, h2, h1.not_ge]
    · exact absurd (h2.trans hgt) h1
    · simp [above, h1, h2, not_lt.mp h1]

variable [IsStrictOrderedRing K]

/-- Where one end lies above the ray and the other does not, the ray meets the edge. -/
theorem meet_onSegment {p p1 p2 : Vector3 K} (h : (above p p1 != above p p2) = true) :
    OnSegment p1 p2 ⟨meet p p1 p2, p.z⟩ := by
  have hne : p2.z - p1.z ≠ 0 := by
    intro heq
    rw [sub_eq_zero] at heq
    simp [above, heq] at h
  have hunit : 0 ≤ (p.z - p1.z) / (p2.z - p1.z) ∧ (p.z - p1.z) / (p2.z - p1.z) ≤ 1 := by
    by_cases h1 : p.z < p1.z <;> by_cases h2 : p.z < p2.z
    · simp [above, h1, h2] at h
    · exact ⟨div_nonneg_of_nonpos (by linarith) (by linarith),
        (div_le_one_of_neg (by linarith)).mpr (by linarith)⟩
    · exact ⟨div_nonneg (by linarith) (by linarith), (div_le_one (by linarith)).mpr (by linarith)⟩
    · simp [above, h1, h2] at h
  refine ⟨_, hunit.1, hunit.2, ?_⟩
  ext
  · simp only [meet, along, Vector3.add, Vector3.mul_num, Vector3.sub]
    ring
  · simp only [along, Vector3.add, Vector3.mul_num, Vector3.sub]
    rw [mul_div_cancel₀ _ hne, add_sub_cancel]

/-- An edge that leads upwards with `p` on its left is crossed; one that leads downwards is not. -/
theorem crosses_of_side {p p1 p2 : Vector3 K} (h : side p p1 p2 < 0) :
    crosses p p1 p2 = (!above p p1 && above p p2) := by
  rw [side, sub_neg] at h
  rw [crosses_eq]
  by_cases h1 : p.z < p1.z <;> by_cases h2 : p.z < p2.z
  · simp [above, h1, h2]
  · have hmeet : ¬p.x < meet p p1 p2 := by
      rw [meet, not_lt, ← le_sub_iff_add_le, div_le_iff_of_neg (by linarith)]
      exact h.le
    simp [above, h1, h2, hmeet]
  · have hmeet : p.x < meet p p1 p2 := by
      rw [meet, ← sub_lt_iff_lt_add, lt_div_iff₀ (by linarith)]
      exact h
    simp [above, h1, h2, hmeet]
  · simp [above, h1, h2]

/-! ## Parity -/

/-- Around four corners the edges with one end above the ray come in pairs. -/
theorem even_changes (b : Fin 4 → Bool) (c : Bool) :
    ((List.finRange 4).countP fun i => (b i != b (i + 1)) && c) % 2 = 0 := by
  revert b c
  decide

/-- Of two neighbours above the ray and two below it, one edge leads upwards. -/
theorem one_upward (b : Fin 4 → Bool) (htrue : ∃ i, b i = true) (hfalse : ∃ i, b i = false)
    (halt : ∃ i, b i = b (i + 1)) :
    ((List.finRange 4).countP fun i => !b i && b (i + 1)) = 1 := by
  revert b
  decide

/-! ## The rectangle -/

/-- How far a place lies ahead of the source in the direction `u`. -/
def ahead (source u p : Vector3 K) : K := (p.x - source.x) * u.x + (p.z - source.z) * u.z

/-- How far a place lies beside the line from the source in the direction `u`. -/
def aside (source u p : Vector3 K) : K := (p.x - source.x) * u.z - (p.z - source.z) * u.x

/-- Strictly inside the rectangle of length `h` and half-width `w`. -/
structure Inside (source u : Vector3 K) (h w : K) (p : Vector3 K) : Prop where
  ahead_pos : 0 < ahead source u p
  ahead_lt : ahead source u p < h
  lt_aside : -w < aside source u p
  aside_lt : aside source u p < w

/-- Inside the rectangle or on its edges. -/
structure Covered (source u : Vector3 K) (h w : K) (p : Vector3 K) : Prop where
  ahead_nonneg : 0 ≤ ahead source u p
  ahead_le : ahead source u p ≤ h
  le_aside : -w ≤ aside source u p
  aside_le : aside source u p ≤ w

variable {source u p : Vector3 K} {h w : K}

theorem Covered.onSegment {a b : Vector3 K} (ha : Covered source u h w a)
    (hb : Covered source u h w b) (hp : OnSegment a b p) : Covered source u h w p := by
  obtain ⟨t, ht, ht1, rfl⟩ := hp
  have hahead : ahead source u (along a (b.sub a) t) =
      (1 - t) * ahead source u a + t * ahead source u b := by
    simp only [ahead, along, Vector3.add, Vector3.mul_num, Vector3.sub]
    ring
  have haside : aside source u (along a (b.sub a) t) =
      (1 - t) * aside source u a + t * aside source u b := by
    simp only [aside, along, Vector3.add, Vector3.mul_num, Vector3.sub]
    ring
  have ht' : 0 ≤ 1 - t := sub_nonneg.mpr ht1
  constructor
  · rw [hahead]
    exact add_nonneg (mul_nonneg ht' ha.ahead_nonneg) (mul_nonneg ht hb.ahead_nonneg)
  · rw [hahead]
    nlinarith [mul_le_mul_of_nonneg_left ha.ahead_le ht', mul_le_mul_of_nonneg_left hb.ahead_le ht]
  · rw [haside]
    nlinarith [mul_le_mul_of_nonneg_left ha.le_aside ht', mul_le_mul_of_nonneg_left hb.le_aside ht]
  · rw [haside]
    nlinarith [mul_le_mul_of_nonneg_left ha.aside_le ht', mul_le_mul_of_nonneg_left hb.aside_le ht]

/-- The corners of the rectangle in the direction `u`. -/
def rectangle (source u : Vector3 K) (h w : K) : Fin 4 → Vector3 K :=
  let dir2 : Vector3 K := ⟨u.z, -u.x⟩
  let pos2 := source.add (u.mul_num h)
  ![source.add (dir2.mul_num w), pos2.add (dir2.mul_num w), pos2.sub (dir2.mul_num w),
    source.sub (dir2.mul_num w)]

theorem ahead_rectangle (hu : u.length_square = 1) (i : Fin 4) :
    ahead source u (rectangle source u h w i) = ![0, h, h, 0] i := by
  rw [Vector3.length_square] at hu
  fin_cases i <;>
    simp only [rectangle, ahead, Vector3.add, Vector3.sub, Vector3.mul_num, Fin.reduceFinMk,
      Fin.zero_eta, Fin.mk_one, Matrix.cons_val, Matrix.cons_val_zero, Matrix.cons_val_one]
  · ring
  · linear_combination h * hu
  · linear_combination h * hu
  · ring

theorem aside_rectangle (hu : u.length_square = 1) (i : Fin 4) :
    aside source u (rectangle source u h w i) = ![w, w, -w, -w] i := by
  rw [Vector3.length_square] at hu
  fin_cases i <;>
    simp only [rectangle, aside, Vector3.add, Vector3.sub, Vector3.mul_num, Fin.reduceFinMk,
      Fin.zero_eta, Fin.mk_one, Matrix.cons_val, Matrix.cons_val_zero, Matrix.cons_val_one]
  · linear_combination w * hu
  · linear_combination w * hu
  · linear_combination -w * hu
  · linear_combination -w * hu

theorem covered_rectangle (hu : u.length_square = 1) (hh : 0 < h) (hw : 0 < w) (i : Fin 4) :
    Covered source u h w (rectangle source u h w i) := by
  have hahead : ahead source u (rectangle source u h w i) = ![0, h, h, 0] i :=
    ahead_rectangle hu i
  have haside : aside source u (rectangle source u h w i) = ![w, w, -w, -w] i :=
    aside_rectangle hu i
  constructor
  · rw [hahead]
    fin_cases i
    exacts [le_rfl, hh.le, hh.le, le_rfl]
  · rw [hahead]
    fin_cases i
    exacts [hh.le, le_rfl, le_rfl, hh.le]
  · rw [haside]
    fin_cases i
    exacts [neg_le_self hw.le, neg_le_self hw.le, le_rfl, le_rfl]
  · rw [haside]
    fin_cases i
    exacts [le_rfl, le_rfl, neg_le_self hw.le, neg_le_self hw.le]

/-- How far `p` lies on the left of the edges. -/
theorem side_rectangle (hu : u.length_square = 1) (i : Fin 4) :
    side p (rectangle source u h w i) (rectangle source u h w (i + 1)) =
      -![h * (w - aside source u p), 2 * w * (h - ahead source u p),
        h * (aside source u p + w), 2 * w * ahead source u p] i := by
  rw [Vector3.length_square] at hu
  fin_cases i <;>
    simp only [rectangle, ahead, aside, side, Vector3.add, Vector3.sub, Vector3.mul_num,
      Fin.reduceFinMk, Fin.zero_eta, Fin.mk_one, Fin.reduceAdd, zero_add, Matrix.cons_val,
      Matrix.cons_val_zero, Matrix.cons_val_one]
  · linear_combination (-h * w) * hu
  · linear_combination (-2 * w * h) * hu
  · linear_combination (-h * w) * hu
  · ring

theorem side_neg (hu : u.length_square = 1) (hh : 0 < h) (hw : 0 < w)
    (hp : Inside source u h w p) (i : Fin 4) :
    side p (rectangle source u h w i) (rectangle source u h w (i + 1)) < 0 := by
  rw [side_rectangle hu, neg_lt_zero]
  have hw2 : 0 < 2 * w := mul_pos two_pos hw
  fin_cases i
  · exact mul_pos hh (sub_pos.mpr hp.aside_lt)
  · exact mul_pos hw2 (sub_pos.mpr hp.ahead_lt)
  · exact mul_pos hh (neg_lt_iff_pos_add.mp hp.lt_aside)
  · exact mul_pos hw2 hp.ahead_pos

/-! ## Points outside -/

/-- A place between two places of the rectangle at its height is a place of the rectangle. -/
theorem Covered.between {m m' : K} (hm : Covered source u h w ⟨m, p.z⟩)
    (hm' : Covered source u h w ⟨m', p.z⟩) (hle : m ≤ p.x) (hlt : p.x < m') :
    Covered source u h w p := by
  have hpos : 0 < m' - m := by linarith
  refine hm.onSegment hm' ⟨(p.x - m) / (m' - m), div_nonneg (by linarith) hpos.le,
    (div_le_one hpos).mpr (by linarith), ?_⟩
  ext
  · simp only [along, Vector3.add, Vector3.mul_num, Vector3.sub]
    rw [mul_div_cancel₀ _ hpos.ne', add_sub_cancel]
  · simp only [along, Vector3.add, Vector3.mul_num, Vector3.sub, sub_self, zero_mul, add_zero]

/-- Outside, all the edges that the ray's line meets lie to the left or all lie to the right. -/
theorem meet_agree (hp : ¬Covered source u h w p) {a b c d : Vector3 K}
    (ha : Covered source u h w a) (hb : Covered source u h w b) (hc : Covered source u h w c)
    (hd : Covered source u h w d) (hab : (above p a != above p b) = true)
    (hcd : (above p c != above p d) = true) (hlt : p.x < meet p a b) : p.x < meet p c d := by
  by_contra hge
  exact hp ((hc.onSegment hd (meet_onSegment hcd)).between (ha.onSegment hb (meet_onSegment hab))
    (not_lt.mp hge) hlt)

theorem ptInRect_outside (hu : u.length_square = 1) (hh : 0 < h) (hw : 0 < w)
    (hp : ¬Covered source u h w p) : ptInRect p (rectangle source u h w) = false := by
  let rect := rectangle source u h w
  have hrect : ∀ i, Covered source u h w (rect i) := covered_rectangle hu hh hw
  -- the edges that are met give one common answer
  obtain ⟨c, hc⟩ : ∃ c, ∀ i, (above p (rect i) != above p (rect (i + 1))) = true →
      decide (p.x < meet p (rect i) (rect (i + 1))) = c := by
    by_cases hex : ∃ i, (above p (rect i) != above p (rect (i + 1))) = true ∧
        p.x < meet p (rect i) (rect (i + 1))
    · obtain ⟨i, hi, hlt⟩ := hex
      refine ⟨true, fun j hj => decide_eq_true ?_⟩
      exact meet_agree hp (hrect _) (hrect _) (hrect _) (hrect _) hi hj hlt
    · exact ⟨false, fun j hj => decide_eq_false fun hlt => hex ⟨j, hj, hlt⟩⟩
  have hcount : ∀ i, crosses p (rect i) (rect (i + 1)) =
      ((above p (rect i) != above p (rect (i + 1))) && c) := by
    intro i
    rw [crosses_eq]
    cases hi : above p (rect i) != above p (rect (i + 1)) with
    | false => rw [Bool.false_and, Bool.false_and]
    | true => rw [hc i hi]
  have heven := even_changes (fun i => above p (rect i)) c
  unfold ptInRect
  dsimp only
  rw [funext hcount, heven]
  rfl

/-! ## Points inside -/

/-- The shares of the corners in a place of the rectangle. -/
def share (source u : Vector3 K) (h w : K) (p : Vector3 K) : Fin 4 → K :=
  ![(h - ahead source u p) * (w + aside source u p), ahead source u p * (w + aside source u p),
    ahead source u p * (w - aside source u p), (h - ahead source u p) * (w - aside source u p)]

theorem share_pos (hp : Inside source u h w p) (i : Fin 4) : 0 < share source u h w p i := by
  have h1 : 0 < h - ahead source u p := sub_pos.mpr hp.ahead_lt
  have h2 : 0 < w + aside source u p := by linarith [hp.lt_aside]
  have h3 : 0 < w - aside source u p := sub_pos.mpr hp.aside_lt
  fin_cases i
  exacts [mul_pos h1 h2, mul_pos hp.ahead_pos h2, mul_pos hp.ahead_pos h3, mul_pos h1 h3]

/-- By their shares the heights of the corners balance at the height of `p`. -/
theorem heights_balance (hu : u.length_square = 1) :
    ∑ i, share source u h w p i * (p.z - (rectangle source u h w i).z) = 0 := by
  rw [Vector3.length_square] at hu
  simp only [Fin.sum_univ_four, share, rectangle, ahead, aside, Vector3.add, Vector3.sub,
    Vector3.mul_num, Matrix.cons_val, Matrix.cons_val_zero, Matrix.cons_val_one]
  linear_combination (-2 * w * h * (p.z - source.z)) * hu

theorem heights_differ (hu : u.length_square = 1) (hh : 0 < h) (hw : 0 < w) :
    ∃ i, p.z ≠ (rectangle source u h w i).z := by
  by_contra! heq
  have h0 : p.z = source.z + -u.x * w := heq 0
  have h1 : p.z = source.z + u.z * h + -u.x * w := heq 1
  have h3 : p.z = source.z - -u.x * w := heq 3
  have hux : u.x = 0 := (mul_eq_zero.mp (show u.x * w = 0 by linarith)).resolve_right hw.ne'
  have huz : u.z = 0 := (mul_eq_zero.mp (show u.z * h = 0 by linarith)).resolve_right hh.ne'
  rw [Vector3.length_square, hux, huz] at hu
  simp at hu

theorem exists_above (hu : u.length_square = 1) (hh : 0 < h) (hw : 0 < w)
    (hp : Inside source u h w p) : ∃ i, above p (rectangle source u h w i) = true := by
  by_contra! hnone
  have hnonneg : ∀ i ∈ Finset.univ,
      0 ≤ share source u h w p i * (p.z - (rectangle source u h w i).z) := by
    intro i _
    have hle : (rectangle source u h w i).z ≤ p.z := by simpa [above] using hnone i
    exact mul_nonneg (share_pos hp i).le (sub_nonneg.mpr hle)
  obtain ⟨i, hi⟩ : ∃ i, p.z ≠ (rectangle source u h w i).z := heights_differ hu hh hw
  have hzero := (Finset.sum_eq_zero_iff_of_nonneg hnonneg).mp (heights_balance hu) i
    (Finset.mem_univ i)
  exact hi (sub_eq_zero.mp ((mul_eq_zero.mp hzero).resolve_left (share_pos hp i).ne'))

theorem exists_below (hu : u.length_square = 1) (hp : Inside source u h w p) :
    ∃ i, above p (rectangle source u h w i) = false := by
  by_contra! hall
  have hbalance : ∑ i, share source u h w p i * (p.z - (rectangle source u h w i).z) = 0 :=
    heights_balance hu
  refine hbalance.not_lt ?_
  refine Finset.sum_neg (fun i _ => ?_) Finset.univ_nonempty
  have hlt : p.z < (rectangle source u h w i).z := by simpa [above] using hall i
  exact mul_neg_of_pos_of_neg (share_pos hp i) (sub_neg.mpr hlt)

/-- The corners above the ray do not alternate with those below it. -/
theorem exists_unchanged (source u : Vector3 K) (h w : K) (p : Vector3 K) :
    ∃ i, above p (rectangle source u h w i) = above p (rectangle source u h w (i + 1)) := by
  by_contra! hne
  have hsum : (rectangle source u h w 0).z + (rectangle source u h w 2).z =
      (rectangle source u h w 1).z + (rectangle source u h w 3).z := by
    simp only [rectangle, Vector3.add, Vector3.sub, Vector3.mul_num, Matrix.cons_val,
      Matrix.cons_val_zero, Matrix.cons_val_one]
    ring
  have h01 := hne 0
  have h12 := hne 1
  have h23 := hne 2
  simp only [above, ne_eq, decide_eq_decide, zero_add, Fin.reduceAdd] at h01 h12 h23
  by_cases h0 : p.z < (rectangle source u h w 0).z
  · have h1 : ¬p.z < (rectangle source u h w 1).z := by tauto
    have h2 : p.z < (rectangle source u h w 2).z := by tauto
    have h3 : ¬p.z < (rectangle source u h w 3).z := by tauto
    linarith
  · have h1 : p.z < (rectangle source u h w 1).z := by tauto
    have h2 : ¬p.z < (rectangle source u h w 2).z := by tauto
    have h3 : p.z < (rectangle source u h w 3).z := by tauto
    linarith

theorem ptInRect_inside (hu : u.length_square = 1) (hh : 0 < h) (hw : 0 < w)
    (hp : Inside source u h w p) : ptInRect p (rectangle source u h w) = true := by
  have hcount : ∀ i, crosses p (rectangle source u h w i) (rectangle source u h w (i + 1)) =
      (!above p (rectangle source u h w i) && above p (rectangle source u h w (i + 1))) :=
    fun i => crosses_of_side (side_neg hu hh hw hp i)
  have hone := one_upward (fun i => above p (rectangle source u h w i))
    (exists_above hu hh hw hp) (exists_below hu hp) (exists_unchanged source u h w p)
  unfold ptInRect
  rw [funext hcount, hone]
  rfl

/-! ## The rectangle in front of the source -/

/-- The skill's rectangle takes in every place strictly inside and none strictly outside. -/
theorem ptInRect_corners {source target : Vector3 ℝ} {h w : ℝ} (hne : target ≠ source)
    (hh : 0 < h) (hw : 0 < w) (p : Vector3 ℝ) :
    let u := (target.sub source).normalize reals
    (Inside source u h w p → ptInRect p (corners reals source target h w) = true) ∧
      (¬Covered source u h w p → ptInRect p (corners reals source target h w) = false) := by
  intro u
  obtain ⟨v, hv, D, hD, htarget⟩ := Plane.exists_direction source target
    (Plane.real_roots _ (add_nonneg (mul_self_nonneg _) (mul_self_nonneg _)))
  have hpos : 0 < D := by
    refine hD.lt_of_ne fun hzero => hne ?_
    rw [htarget, ← hzero, Plane.along_zero]
  have hu : u.length_square = 1 := by
    have huv : u = v := by
      simp only [u, htarget]
      exact Plane.normalize_along hv hpos
    rw [huv, hv]
  exact ⟨ptInRect_inside hu hh hw, ptInRect_outside hu hh hw⟩

/-- The source faces (3/5, 4/5); one place is half a unit ahead of it and one behind it. -/
theorem ptInRect_corners_slanted :
    ptInRect ⟨3 / 10, 2 / 5⟩ (corners reals ⟨0, 0⟩ (along ⟨0, 0⟩ ⟨3 / 5, 4 / 5⟩ 5) 2 1) = true ∧
      ptInRect ⟨-3 / 10, -2 / 5⟩ (corners reals ⟨0, 0⟩ (along ⟨0, 0⟩ ⟨3 / 5, 4 / 5⟩ 5) 2 1) =
        false := by
  have hu : ((along ⟨0, 0⟩ ⟨3 / 5, 4 / 5⟩ (5 : ℝ)).sub ⟨0, 0⟩).normalize reals = ⟨3 / 5, 4 / 5⟩ :=
    Plane.normalize_along (by norm_num [Vector3.length_square]) (by norm_num)
  have hne : along ⟨0, 0⟩ ⟨3 / 5, 4 / 5⟩ (5 : ℝ) ≠ ⟨0, 0⟩ := by
    simp [along, Vector3.add, Vector3.mul_num]
  refine ⟨(ptInRect_corners hne two_pos one_pos _).1 ?_,
    (ptInRect_corners hne two_pos one_pos _).2 ?_⟩
  · rw [hu]
    constructor <;> norm_num [ahead, aside]
  · rw [hu]
    intro hcov
    have hnonneg := hcov.ahead_nonneg
    norm_num [ahead] at hnonneg

end GameServer.PointInRect
