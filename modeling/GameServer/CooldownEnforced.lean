import GameServer.Cooldown

/-!
# Cooldowns that hold

`addItem` writes under the id it is given, `getCdTime` and `addChargeCount` go to the first id of
the ten ids of its series. For the first ids a cooldown holds until its time is over; for the others
it does not begin.
-/

namespace GameServer.Casting

open Cooldown Transition

variable {w : World} {c c' : Cooldown} {s s' : State} {id k : ℤ} {cd e dt time : ℚ}
  {skillTable : SkillTable} {order : List ℤ}

/-- The first id of a series, with no negative cooldown in its row. -/
def Sound (w : World) (id : ℤ) : Prop :=
  base id = id ∧ (w.skillRepository id).all fun skilldata => 0 ≤ skilldata.n32CD

instance (w : World) (id : ℤ) : Decidable (Sound w id) := inferInstanceAs (Decidable (_ ∧ _))

/-- The skills that are cast, and those whose charges a tick may fill, have first ids. -/
def OK (w : World) (s : State) : Label → Prop
  | .tick _ order _ => w.isPlayer → ∀ k ∈ order, Sound w k
  | .ready time _ => 0 ≤ time ∧ match s.phase with
    | .ready id => Sound w id
    | _ => True
  | _ => True

instance (w : World) (s : State) (l : Label) : Decidable (OK w s l) :=
  match s, l with
  | _, .tick _ order _ => inferInstanceAs (Decidable (_ → ∀ k ∈ order, Sound w k))
  | ⟨_, .ready id, _⟩, .ready time _ => inferInstanceAs (Decidable (0 ≤ time ∧ Sound w id))
  | ⟨_, .none, _⟩, .ready time _ => inferInstanceAs (Decidable (0 ≤ time ∧ True))
  | ⟨_, .cast, _⟩, .ready time _ => inferInstanceAs (Decidable (0 ≤ time ∧ True))
  | _, .cast _ _ | _, .finish => .isTrue trivial

/-! ## The operations -/

/-- Nothing changed for an id. -/
structure Same (c c' : Cooldown) (id : ℤ) : Prop where
  table : c'.coolDownTable id = c.coolDownTable id
  charges : c'.chargeCountTable id = c.chargeCountTable id
  added : c'.added id = c.added id

theorem Same.trans {c'' : Cooldown} (h : Same c c' id) (h' : Same c' c'' id) : Same c c'' id :=
  ⟨h'.table.trans h.table, h'.charges.trans h.charges, h'.added.trans h.added⟩

/-- The keys stay, and those that come are not there twice. -/
structure Grown (c c' : Cooldown) : Prop where
  keys : ∀ id ∈ c.keys, id ∈ c'.keys
  nodup : c.keys.Nodup → c'.keys.Nodup

theorem Grown.trans {c'' : Cooldown} (h : Grown c c') (h' : Grown c' c'') : Grown c c'' :=
  ⟨fun id hid => h'.keys id (h.keys id hid), fun hnodup => h'.nodup (h.nodup hnodup)⟩

theorem grown_put (c : Cooldown) (k : ℤ) (time : ℚ) : Grown c (c.put k time) := by
  by_cases hk : k ∈ c.keys
  · simp only [put, if_pos hk]
    exact ⟨fun _ h => h, fun h => h⟩
  · simp only [put, if_neg hk]
    refine ⟨fun id hid => List.mem_append_left _ hid, fun hnodup => ?_⟩
    exact List.nodup_append_comm.mp (List.nodup_cons.mpr ⟨hk, hnodup⟩)

theorem mem_keys_put (c : Cooldown) (k : ℤ) (time : ℚ) : k ∈ (c.put k time).keys := by
  by_cases hk : k ∈ c.keys
  · simpa only [put, if_pos hk] using hk
  · simp [put, hk]

theorem same_put (time : ℚ) (h : id ≠ k) : Same c (c.put k time) id :=
  ⟨Function.update_of_ne h _ _, rfl, rfl⟩

/-- The cooldown of an id starts. -/
structure Started (c c' : Cooldown) (k : ℤ) (cd : ℚ) : Prop where
  grown : Grown c c'
  mem : k ∈ c'.keys
  table : c'.coolDownTable k = some cd
  added : c'.added k = some (cd, 0)
  same : ∀ id, id ≠ k → Same c c' id

theorem started_of_addItem {time? : Option ℚ} (h : c.addItem w k time? = some c') :
    ∃ skilldata, w.skillRepository k = some skilldata ∧
      Started c c' k (time?.getD skilldata.n32CD) ∧ c'.getChargeCount k = c.getChargeCount k := by
  simp only [addItem, Option.bind_eq_bind, Option.bind_eq_some_iff, Option.pure_def,
    Option.some.injEq] at h
  obtain ⟨skilldata, hrow, rfl⟩ := h
  have hput := grown_put c k (time?.getD skilldata.n32CD)
  refine ⟨skilldata, hrow, ⟨⟨hput.keys, hput.nodup⟩, mem_keys_put c k 0, ?_, ?_, ?_⟩, ?_⟩
  · exact Function.update_self k _ _
  · exact Function.update_self k _ _
  · intro id hid
    refine ⟨Function.update_of_ne hid _ _, ?_, Function.update_of_ne hid _ _⟩
    cases hcount : c.chargeCountTable k with
    | none => simpa [put, hcount] using Function.update_of_ne hid _ _
    | some count => simp [put, hcount]
  · cases hcount : c.chargeCountTable k <;> simp [getChargeCount, put, hcount]

/-- A count that changes starts the cooldown of its id. -/
theorem started_of_count {count : ℤ} (hk : base k = k)
    (h : addItem w { c with
      chargeCountTable := Function.update c.chargeCountTable (base k) (some count) } (base k) none =
        some c') :
    ∃ skilldata, w.skillRepository k = some skilldata ∧ Started c c' k skilldata.n32CD := by
  rw [hk] at h
  obtain ⟨skilldata, hrow, hstart, -⟩ := started_of_addItem h
  refine ⟨skilldata, hrow, ⟨hstart.grown.keys, hstart.grown.nodup⟩, hstart.mem, hstart.table,
    hstart.added, fun id hid => ?_⟩
  have hsame := hstart.same id hid
  exact ⟨hsame.table, hsame.charges.trans (Function.update_of_ne hid _ _), hsame.added⟩

theorem addChargeCount_cases {isReduce : Bool} (hk : base k = k)
    (h : c.addChargeCount w skillTable k isReduce = some c') :
    (c' = c ∧ (isReduce = true → c.getChargeCount k ≤ 0)) ∨
      ∃ skilldata, w.skillRepository k = some skilldata ∧ Started c c' k skilldata.n32CD := by
  simp only [addChargeCount, Option.bind_eq_bind, Option.bind_eq_some_iff] at h
  obtain ⟨_, -, _, -, h⟩ := h
  cases isReduce with
  | true =>
      simp only [reduceIte, Option.bind_eq_some_iff] at h
      obtain ⟨count, hcount, h⟩ := h
      split_ifs at h with hpos
      · exact .inr (started_of_count hk h)
      · rw [Option.pure_def, Option.some.injEq] at h
        rw [hk] at hcount
        refine .inl ⟨h.symm, fun _ => ?_⟩
        rw [getChargeCount, hcount]
        exact not_lt.mp hpos
  | false =>
      rw [if_neg Bool.false_ne_true] at h
      split at h
      · rw [Option.pure_def, Option.some.injEq] at h
        exact .inl ⟨h.symm, nofun⟩
      · split_ifs at h with hlt
        · exact .inr (started_of_count hk h)
        · rw [Option.pure_def, Option.some.injEq] at h
          exact .inl ⟨h.symm, nofun⟩

/-! ## One tick -/

/-- What a tick does to a key: its time passes, or its cooldown is over and starts again. -/
inductive Aged (dt : ℚ) (c c' : Cooldown) (k : ℤ) : Prop
  | passed (time : ℚ) (htime : c.coolDownTable k = some time)
      (htable : c'.coolDownTable k = some (max (time - dt) 0))
      (hcharges : c'.getChargeCount k = c.getChargeCount k)
      (hadded : c'.added k = (c.added k).map fun e => (e.1, e.2 + dt))
  | restarted (time cd : ℚ) (htime : c.coolDownTable k = some time) (hover : time ≤ dt)
      (hbase : base k = k) (hcd : 0 ≤ cd) (htable : c'.coolDownTable k = some (max (cd - dt) 0))
      (hadded : c'.added k = some (cd, dt))

theorem Aged.of_same_left {c₁ : Cooldown} (h : Aged dt c₁ c' k) (hsame : Same c c₁ k) :
    Aged dt c c' k := by
  have hcharges : c₁.getChargeCount k = c.getChargeCount k := by
    rw [getChargeCount, getChargeCount, hsame.charges]
  cases h with
  | passed time htime htable hcount hadded =>
      rw [hsame.table] at htime
      rw [hsame.added] at hadded
      exact .passed time htime htable (hcount.trans hcharges) hadded
  | restarted time cd htime hover hbase hcd htable hadded =>
      rw [hsame.table] at htime
      exact .restarted time cd htime hover hbase hcd htable hadded

theorem Aged.of_same_right {c₁ : Cooldown} (h : Aged dt c c₁ k) (hsame : Same c₁ c' k) :
    Aged dt c c' k := by
  have hcharges : c'.getChargeCount k = c₁.getChargeCount k := by
    rw [getChargeCount, getChargeCount, hsame.charges]
  cases h with
  | passed time htime htable hcount hadded =>
      rw [← hsame.table] at htable
      rw [← hsame.added] at hadded
      exact .passed time htime htable (hcharges.trans hcount) hadded
  | restarted time cd htime hover hbase hcd htable hadded =>
      rw [← hsame.table] at htable
      rw [← hsame.added] at hadded
      exact .restarted time cd htime hover hbase hcd htable hadded

theorem left_eq_max (time : ℚ) : (if time ≤ 0 then 0 else time) = max time 0 := by
  split_ifs with h
  · exact (max_eq_right h).symm
  · exact (max_eq_left (not_le.mp h).le).symm

theorem elapse_eq {time : ℚ} (htime : c.coolDownTable k = some time) :
    c.elapse k dt = some (c.put k (max (time - dt) 0)) := by
  rw [elapse, htime, ← left_eq_max]
  rfl

/-- The time that passes is noted for the key alone. -/
theorem same_added (c : Cooldown) (f : Option (ℚ × ℚ)) (hid : id ≠ k) :
    Same c { c with added := Function.update c.added k f } id :=
  ⟨rfl, rfl, Function.update_of_ne hid _ _⟩

theorem updateKey_spec (hdt : 0 ≤ dt) (hsound : w.isPlayer → Sound w k)
    (h : c.updateKey w skillTable dt k = some c') :
    Grown c c' ∧ (∀ id, id ≠ k → Same c c' id) ∧ Aged dt c c' k := by
  simp only [updateKey, Option.bind_eq_bind, Option.bind_eq_some_iff, Option.pure_def] at h
  obtain ⟨time, htime, h⟩ := h
  split_ifs at h with hzero hfill
  · simp only [Option.bind_eq_some_iff, Option.some.injEq] at h
    obtain ⟨c₀, h₀, c₁, helapse, rfl⟩ := h
    obtain ⟨hplayer, hpos, hleft⟩ := hfill
    obtain ⟨hbase, hrow⟩ := hsound hplayer
    obtain ⟨rfl, -⟩ | ⟨skilldata, hskill, hstart⟩ := addChargeCount_cases hbase h₀
    · rw [elapse_eq htime, Option.some.injEq] at helapse
      subst helapse
      have hput := grown_put c₀ k (max (time - dt) 0)
      refine ⟨⟨hput.keys, hput.nodup⟩, fun id hid => (same_put _ hid).trans
        (same_added _ _ hid), ?_⟩
      exact .passed time htime (Function.update_self k _ _) rfl (Function.update_self k _ _)
    · rw [elapse_eq hstart.table, Option.some.injEq] at helapse
      subst helapse
      rw [hskill, Option.all_some, decide_eq_true_eq] at hrow
      have hput := grown_put c₀ k (max (skilldata.n32CD - dt) 0)
      refine ⟨⟨(hstart.grown.trans hput).keys, (hstart.grown.trans hput).nodup⟩, fun id hid =>
        ((hstart.same id hid).trans (same_put _ hid)).trans (same_added _ _ hid), ?_⟩
      refine .restarted time skilldata.n32CD htime (sub_nonpos.mp hleft) hbase hrow
        (Function.update_self k _ _) ?_
      simp [put, hstart.added]
  · simp only [Option.bind_some, Option.bind_eq_some_iff, Option.some.injEq] at h
    obtain ⟨c₁, helapse, rfl⟩ := h
    rw [elapse_eq htime, Option.some.injEq] at helapse
    subst helapse
    have hput := grown_put c k (max (time - dt) 0)
    refine ⟨⟨hput.keys, hput.nodup⟩, fun id hid => (same_put _ hid).trans (same_added _ _ hid), ?_⟩
    exact .passed time htime (Function.update_self k _ _) rfl (Function.update_self k _ _)
  · rw [Option.bind_some, Option.some.injEq] at h
    subst h
    refine ⟨⟨fun _ h => h, fun h => h⟩, fun id hid => same_added _ _ hid, ?_⟩
    refine .passed time htime ?_ rfl (Function.update_self k _ _)
    have hmax : max (time - dt) 0 = 0 := max_eq_right (by linarith [not_not.mp hzero])
    rw [hmax, ← not_not.mp hzero]
    exact htime

theorem update_spec (hdt : 0 ≤ dt) (hnodup : order.Nodup)
    (hsound : w.isPlayer → ∀ k ∈ order, Sound w k)
    (h : c.update w skillTable dt order = some c') :
    Grown c c' ∧ (∀ id, id ∉ order → Same c c' id) ∧ ∀ id ∈ order, Aged dt c c' id := by
  induction order generalizing c with
  | nil =>
      rw [update, List.foldlM_nil, Option.pure_def, Option.some.injEq] at h
      subst h
      exact ⟨⟨fun _ h => h, fun h => h⟩, fun id _ => ⟨rfl, rfl, rfl⟩, nofun⟩
  | cons k order ih =>
      rw [update, List.foldlM_cons, Option.bind_eq_bind, Option.bind_eq_some_iff] at h
      obtain ⟨c₁, hkey, hrest⟩ := h
      obtain ⟨hk, hnodup⟩ := List.nodup_cons.mp hnodup
      obtain ⟨hgrown, hsame, haged⟩ :=
        updateKey_spec hdt (fun hp => hsound hp k List.mem_cons_self) hkey
      obtain ⟨hgrown', hsame', haged'⟩ :=
        ih hnodup (fun hp j hj => hsound hp j (List.mem_cons_of_mem _ hj)) hrest
      refine ⟨hgrown.trans hgrown', fun id hid => ?_, fun id hid => ?_⟩
      · rw [List.mem_cons, not_or] at hid
        exact (hsame id hid.1).trans (hsame' id hid.2)
      · obtain rfl | hid := List.mem_cons.mp hid
        · exact haged.of_same_right (hsame' id hk)
        · exact (haged' id hid).of_same_left (hsame id (ne_of_mem_of_not_mem hid hk))

theorem onReady_spec {skilldata : SkillData} (hsound : Sound w id) (htime : 0 ≤ time)
    (hrow : w.skillRepository id = some skilldata)
    (h : c.onReady w skillTable skilldata time = some c') :
    ∃ cd, 0 ≤ cd ∧ Started c c' id cd ∧
      (c.getChargeCount id ≤ 0 → c'.getChargeCount id = c.getChargeCount id) := by
  have hid : skilldata.id = id := w.row_id id skilldata hrow
  obtain ⟨hbase, hcd⟩ := hsound
  rw [hrow, Option.all_some, decide_eq_true_eq] at hcd
  have hown : ∀ sd, w.skillRepository id = some sd → sd = skilldata := fun sd hsd =>
    Option.some.inj (hsd.symm.trans hrow)
  unfold onReady at h
  rw [hid] at h
  split_ifs at h with hattack hcount
  · obtain ⟨_, _, hstart, hcharges⟩ := started_of_addItem h
    exact ⟨time, htime, hstart, fun _ => hcharges⟩
  · obtain ⟨-, hnone⟩ | ⟨sd, hsd, hstart⟩ := addChargeCount_cases hbase h
    · exact absurd hcount (not_lt.mpr (hnone rfl))
    · rw [hown sd hsd] at hstart
      exact ⟨_, hcd, hstart, fun hle => absurd hcount (not_lt.mpr hle)⟩
  · obtain ⟨sd, hsd, hstart, hcharges⟩ := started_of_addItem h
    rw [hown sd hsd] at hstart
    exact ⟨_, hcd, hstart, fun _ => hcharges⟩

/-! ## Runs -/

structure Cooling (c : Cooldown) (id : ℤ) (cd e : ℚ) : Prop where
  mem : id ∈ c.keys
  base_eq : base id = id
  table : c.coolDownTable id = some (max (cd - e) 0)

structure Invariant (w : World) (s : State) : Prop where
  nodup : s.cooldown.keys.Nodup
  cooling : ∀ id cd e, s.cooldown.added id = some (cd, e) → Cooling s.cooldown id cd e
  row : ∀ id, (s.casted id).isSome → (w.skillRepository id).isSome
  casted : ∀ id cd e, s.casted id = some (cd, e) → e < cd →
    s.cooldown.added id = some (cd, e) ∧ s.cooldown.getChargeCount id ≤ 0
  ready : ∀ id cd e, s.phase = .ready id → s.casted id = some (cd, e) → cd ≤ e

theorem Cooling.getCdTime (h : Cooling c id cd e) : c.getCdTime id = max (cd - e) 0 := by
  rw [Cooldown.getCdTime, h.base_eq, h.table, Option.getD_some]

/-- A cast that got through was not in its cooldown. -/
theorem over_of_canCast {scene : Scene} (hinv : Invariant w s)
    (h : canCast w s id scene = .EC_None) (hcast : s.casted id = some (cd, e)) : cd ≤ e := by
  by_contra hlt
  obtain ⟨hadded, hcount⟩ := hinv.casted id cd e hcast (not_le.mp hlt)
  have htime := (hinv.cooling id cd e hadded).getCdTime
  unfold canCast at h
  split_ifs at h with hphase
  cases hrow : w.skillRepository id with
  | none => simp [hrow] at h
  | some skilldata =>
      have hpos : max (cd - e) 0 > 0 := lt_max_of_lt_left (sub_pos.mpr (not_le.mp hlt))
      simp only [hrow] at h
      rw [w.row_id id skilldata hrow, htime, if_pos ⟨hpos, hcount⟩] at h
      cases h

theorem Cooling.of_started (h : Started c c' k cd) (hcd : 0 ≤ cd) (hbase : base k = k) :
    Cooling c' k cd 0 :=
  ⟨h.mem, hbase, by rw [h.table, sub_zero, max_eq_left hcd]⟩

theorem Cooling.of_same (h : Cooling c id cd e) (hgrown : Grown c c') (hsame : Same c c' id) :
    Cooling c' id cd e :=
  ⟨hgrown.keys id h.mem, h.base_eq, hsame.table.trans h.table⟩

theorem invariant_ready (hinv : Invariant w s) (hok : OK w s (.ready time skillTable))
    (h : step w s (.ready time skillTable) = some s') : Invariant w s' := by
  obtain ⟨htime, hsound⟩ := hok
  cases hphase : s.phase with
  | none => simp [step, hphase] at h
  | cast => simp [step, hphase] at h
  | ready id =>
      simp only [hphase] at hsound
      simp only [step, hphase, Option.bind_eq_bind, Option.bind_eq_some_iff, Option.pure_def,
        Option.some.injEq] at h
      obtain ⟨skilldata, hrow, c', hready, rfl⟩ := h
      obtain ⟨cd, hcd, hstart, hcount⟩ := onReady_spec hsound htime hrow hready
      refine ⟨hstart.grown.nodup hinv.nodup, fun k cd' e hk => ?_, fun k hk => ?_,
        fun k cd' e hk hlt => ?_, fun k cd' e hk => by cases hk⟩
      · by_cases hid : k = id
        · subst hid
          have heq := Option.some.inj (hk.symm.trans hstart.added)
          rw [Prod.mk.injEq] at heq
          obtain ⟨rfl, rfl⟩ := heq
          exact .of_started hstart hcd hsound.1
        · have hsame := hstart.same k hid
          exact (hinv.cooling k cd' e (hsame.added ▸ hk)).of_same hstart.grown hsame
      · dsimp only at hk
        by_cases hid : k = id
        · subst hid
          simp [hrow]
        · split_ifs at hk
          · rw [Function.update_of_ne hid] at hk
            exact hinv.row k hk
          · exact hinv.row k hk
      · dsimp only at hk ⊢
        by_cases hid : k = id
        · subst hid
          split_ifs at hk with hnone
          · rw [Function.update_self] at hk
            exact ⟨hk, (hcount hnone).le.trans hnone⟩
          · exact absurd hlt (not_lt.mpr (hinv.ready k cd' e hphase hk))
        · have hsame := hstart.same k hid
          have hold : s.casted k = some (cd', e) := by
            split_ifs at hk
            · rwa [Function.update_of_ne hid] at hk
            · exact hk
          obtain ⟨hadded, hcharge⟩ := hinv.casted k cd' e hold hlt
          rw [hsame.added, getChargeCount, hsame.charges]
          exact ⟨hadded, hcharge⟩

/-- What has cooled for `e` has cooled for `e + dt` behind a tick. -/
theorem Cooling.of_aged (hcool : ∀ cd e, c.added k = some (cd, e) → Cooling c k cd e)
    (hgrown : Grown c c') (hmem : k ∈ c.keys) (hdt : 0 ≤ dt) (h : Aged dt c c' k)
    (hadded : c'.added k = some (cd, e)) : Cooling c' k cd e := by
  have hkey := hgrown.keys k hmem
  cases h with
  | passed time htime htable _ hold =>
      rw [hold, Option.map_eq_some_iff] at hadded
      obtain ⟨⟨cd', e'⟩, hbefore, heq⟩ := hadded
      rw [Prod.mk.injEq] at heq
      obtain ⟨rfl, rfl⟩ := heq
      have hbefore := hcool cd' e' hbefore
      have htime := Option.some.inj (htime.symm.trans hbefore.table)
      refine ⟨hkey, hbefore.base_eq, ?_⟩
      rw [htable, htime, Option.some.injEq]
      rcases le_total cd' e' with hle | hle
      · rw [max_eq_right (sub_nonpos.mpr hle), max_eq_right (by linarith),
          max_eq_right (by linarith)]
      · rw [max_eq_left (sub_nonneg.mpr hle), sub_sub]
  | restarted time cd' _ _ hbase _ htable hnew =>
      have heq := Option.some.inj (hadded.symm.trans hnew)
      rw [Prod.mk.injEq] at heq
      obtain ⟨rfl, rfl⟩ := heq
      exact ⟨hkey, hbase, htable⟩

theorem invariant_tick (hinv : Invariant w s) (hok : OK w s (.tick dt order skillTable))
    (h : step w s (.tick dt order skillTable) = some s') : Invariant w s' := by
  simp only [step, Option.ite_none_right_eq_some, Option.bind_eq_bind, Option.bind_eq_some_iff,
    Option.pure_def, Option.some.injEq] at h
  obtain ⟨⟨hdt, hperm⟩, c', hupdate, rfl⟩ := h
  obtain ⟨hgrown, hsame, haged⟩ :=
    update_spec hdt (hperm.nodup_iff.mpr hinv.nodup) hok hupdate
  have hkept : ∀ id, id ∉ s.cooldown.keys → Same s.cooldown c' id := fun id hid =>
    hsame id (fun hin => hid (hperm.mem_iff.mp hin))
  refine ⟨hgrown.nodup hinv.nodup, fun k cd e hk => ?_, fun k hk => ?_, fun k cd e hk hlt => ?_,
    fun k cd e hphase hk => ?_⟩
  · by_cases hmem : k ∈ s.cooldown.keys
    · exact .of_aged (hinv.cooling k) hgrown hmem hdt (haged k (hperm.mem_iff.mpr hmem)) hk
    · have hsame := hkept k hmem
      exact absurd (hinv.cooling k cd e (hsame.added ▸ hk)).mem hmem
  · rw [Option.isSome_map] at hk
    exact hinv.row k hk
  · obtain ⟨⟨cd', e'⟩, hbefore, heq⟩ := Option.map_eq_some_iff.mp hk
    rw [Prod.mk.injEq] at heq
    obtain ⟨rfl, rfl⟩ := heq
    obtain ⟨hadded, hcount⟩ := hinv.casted k cd' e' hbefore (by linarith)
    have hcool := hinv.cooling k cd' e' hadded
    cases haged k (hperm.mem_iff.mpr hcool.mem) with
    | passed _ _ _ hcharges hnew =>
        refine ⟨?_, hcharges.le.trans hcount⟩
        rw [hnew, hadded]
        rfl
    | restarted time _ htime hover _ _ _ _ =>
        -- the cooldown of the cast is not over in this tick
        have htime := Option.some.inj (htime.symm.trans hcool.table)
        rw [max_eq_left (by linarith)] at htime
        linarith
  · obtain ⟨⟨cd', e'⟩, hbefore, heq⟩ := Option.map_eq_some_iff.mp hk
    rw [Prod.mk.injEq] at heq
    obtain ⟨rfl, rfl⟩ := heq
    exact (hinv.ready k cd' e' hphase hbefore).trans (by linarith)

theorem invariant_step {l : Label} (hinv : Invariant w s) (hok : OK w s l)
    (h : step w s l = some s') : Invariant w s' := by
  cases l with
  | tick dt order skillTable => exact invariant_tick hinv hok h
  | ready time skillTable => exact invariant_ready hinv hok h
  | cast id scene =>
      simp only [step, Option.ite_none_right_eq_some, Option.some.injEq] at h
      obtain ⟨hcast, rfl⟩ := h
      refine ⟨hinv.nodup, hinv.cooling, hinv.row, hinv.casted, fun k cd e hphase hk => ?_⟩
      cases hphase
      exact over_of_canCast hinv hcast hk
  | finish =>
      simp only [step, Option.ite_none_right_eq_some, Option.some.injEq] at h
      obtain ⟨-, rfl⟩ := h
      exact ⟨hinv.nodup, hinv.cooling, hinv.row, hinv.casted, nofun⟩

theorem invariant_init (tables : Tables) : Invariant w (system w tables).init := by
  refine ⟨tables.nodup, fun id cd e h => ?_, nofun, nofun, nofun⟩
  cases (tables.fresh id).symm.trans h

/-- What `addItem` gave is counted down, and a skill cast without a charge is refused for the time
of its cooldown. -/
structure Enforced (w : World) (s : State) : Prop where
  counted : ∀ id cd e, s.cooldown.added id = some (cd, e) →
    s.cooldown.getCdTime id = max (cd - e) 0
  refused : ∀ id cd e scene, s.casted id = some (cd, e) → e < cd →
    canCast w s id scene ≠ .EC_None ∧
      (s.phase = .none → canCast w s id scene = .EC_Spell_SkillIsInCd)

theorem Invariant.enforced (hinv : Invariant w s) : Enforced w s := by
  refine ⟨fun id cd e h => (hinv.cooling id cd e h).getCdTime, fun id cd e scene h hlt => ?_⟩
  have hrefused : s.phase = .none → canCast w s id scene = .EC_Spell_SkillIsInCd := by
    intro hphase
    obtain ⟨hadded, hcount⟩ := hinv.casted id cd e h hlt
    obtain ⟨skilldata, hrow⟩ := Option.isSome_iff_exists.mp (hinv.row id (by rw [h]; rfl))
    have hpos : max (cd - e) 0 > 0 := lt_max_of_lt_left (sub_pos.mpr hlt)
    simp only [canCast, hphase, ne_eq, not_true_eq_false, if_false, hrow]
    rw [w.row_id id skilldata hrow, (hinv.cooling id cd e hadded).getCdTime,
      if_pos ⟨hpos, hcount⟩]
  refine ⟨?_, hrefused⟩
  by_cases hphase : s.phase = .none
  · rw [hrefused hphase]
    nofun
  · rw [canCast, if_pos hphase]
    nofun

/-- Where the skills that are cast have the first ids of their series, cooldowns are enforced. -/
theorem cooldown_enforced (w : World) (tables : Tables) {s : State}
    (h : (system w tables).Runs (OK w) s) : Enforced w s :=
  (h.invariant (invariant_init tables) (fun _ _ _ hinv hok hstep =>
    invariant_step hinv hok hstep)).enforced

/-- A skill of two levels with a cooldown of a second. -/
def leap (id : ℤ) : Option SkillData :=
  if id = 10001001 ∨ id = 10001002 then some ⟨id, 1, 1000, 0, 0, 0, 0, 0, 0, 0⟩ else none

def leapers : World where
  skillRepository := leap
  row_id id skilldata h := by
    unfold leap at h
    split_ifs at h
    cases h
    rfl
  isPlayer := true

def noTables : Tables where
  coolDownTable _ := none
  keys := []
  chargeCountTable _ := none
  added _ := none
  nodup := .nil
  mem_keys := by simp
  fresh _ := rfl

/-- The skill is cast, its cast ends, and some of its cooldown passes. -/
def castOf (id : ℤ) : List Label :=
  [.cast id ⟨none, 0, 0, false, 100, 100⟩, .ready 0 (fun _ => none), .finish,
    .tick 400 [id] (fun _ => none)]

theorem cooldown_enforced_leap : ∃ s, (system leapers noTables).Runs (OK leapers) s ∧
    s.cooldown.getCdTime 10001001 = 600 ∧ Enforced leapers s := by
  have hrun : (((system leapers noTables).guarded (OK leapers)).run (system leapers noTables).init
      (castOf 10001001)).map (fun s => s.cooldown.getCdTime 10001001) = some 600 := by
    decide +kernel
  obtain ⟨s, hs, htime⟩ := Option.map_eq_some_iff.mp hrun
  have hruns := System.Runs.of_guarded_run (castOf 10001001) .init hs
  exact ⟨s, hruns, htime, cooldown_enforced leapers noTables hruns⟩

/-- The second level of the skill: `addItem` writes its own cell, and `getCdTime` reads that of the
first level. -/
theorem cooldown_missed : ∃ s, (system leapers noTables).Reachable s ∧
    s.casted 10001002 = some (1000, 400) ∧ s.cooldown.getCdTime 10001002 = 0 ∧
    canCast leapers s 10001002 ⟨none, 0, 0, false, 100, 100⟩ = .EC_None ∧ ¬ Enforced leapers s := by
  have hrun : ((system leapers noTables).run (system leapers noTables).init
      (castOf 10001002)).map (fun s => (s.casted 10001002, s.cooldown.getCdTime 10001002,
        canCast leapers s 10001002 ⟨none, 0, 0, false, 100, 100⟩)) =
      some (some (1000, 400), 0, .EC_None) := by decide +kernel
  obtain ⟨s, hs, hread⟩ := Option.map_eq_some_iff.mp hrun
  simp only [Prod.mk.injEq] at hread
  obtain ⟨hcast, htime, hcan⟩ := hread
  refine ⟨s, System.reachable_of_run _ hs, hcast, htime, hcan, fun h => ?_⟩
  exact (h.refused _ _ _ _ hcast (by norm_num)).1 hcan

end GameServer.Casting
