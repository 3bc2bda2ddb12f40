import GameServer.DeathClears

/-!
# The common skill of a hero

A `changeatk` affect puts another skill in the place of the common one. What it restores when it
exits is what it found when it was made, and it is made before the affect that it replaces exits.
Where one is left of several, the skill that comes back is the original one only if the last that
exits found it.
-/

namespace GameServer.Affects

open Transition

/-- The fields of a `changeatkAffect` beside those of an `Affect`. -/
structure ChangeAtk where
  newCommonId : Option ℚ
  oldCommonSkill : Option ℚ

/-- The table of a hero beside its skills, where `nil` is `none`. `changes` holds the fields of the
objects that are `changeatk` affects. -/
structure Attacker where
  table : AffectTable
  commonSkill : Option ℚ
  readySkillId : Option ℚ
  changes : ℕ → Option ChangeAtk

namespace Attacker

inductive Label
  | table (l : Affects.Label)
  | setReadySkillId (id : Option ℚ)

variable (self : Attacker)

/-- `changeatkAffect.ctor` and `onEnter`. -/
def onEnter (a : ℕ) (d : Data) : Attacker :=
  let change := (self.changes a).getD ⟨d.get 2, self.commonSkill⟩
  { self with
    changes := Function.update self.changes a (some change)
    commonSkill := change.newCommonId }

/-- `changeatkAffect.onExit` -/
def onExit (change : ChangeAtk) : Attacker :=
  { self with
    commonSkill := change.oldCommonSkill
    readySkillId := if self.readySkillId = change.newCommonId then change.oldCommonSkill
      else self.readySkillId }

/-- What the step of the topmost frame does to the skills. -/
def hooks (l : Affects.Label) : Attacker :=
  match l, self.table.stack with
  | .go b, f :: _ =>
    match self.table.exits f, self.table.enters b f with
    | some a, _ =>
      match self.changes a with
      | some change => self.onExit change
      | none => self
    | none, some (a, d) => if d.kind = .changeatk then self.onEnter a d else self
    | none, none => self
  | _, _ => self

def step : Label → Option Attacker
  | .table l => (self.table.step l).map fun table => { self.hooks l with table }
  | .setReadySkillId id => some { self with readySkillId := id }

def system (owner : ℕ) (commonSkill : Option ℚ) : System Attacker Label where
  init := ⟨.new owner, commonSkill, some 0, fun _ => none⟩
  step := step

/-- A `changeatk` affect that has entered and not exited. -/
def Active (a : ℕ) : Prop := (self.changes a).isSome ∧ self.table.Live a

instance (a : ℕ) : Decidable (self.Active a) := inferInstanceAs (Decidable (_ ∧ _))

/-- Without such an affect the common skill is the original one. -/
def Original (original : Option ℚ) : Prop :=
  (∀ a < self.table.next, ¬ self.Active a) → self.commonSkill = original

/-- The affect whose `onExit` the topmost frame begins. -/
def exits : Option ℕ := self.table.stack.head?.bind self.table.exits

/-- The affect that the step exits was made when the common skill was the original one, or others
stay active. -/
def OK (original : Option ℚ) (s : Attacker) : Label → Prop
  | .table (.go _) =>
    ∀ a ∈ s.exits, ∀ change ∈ s.changes a,
      (∀ b < s.table.next, b ≠ a → ¬ s.Active b) → change.oldCommonSkill = original
  | _ => True

variable {s s' : Attacker} {original : Option ℚ} {t : AffectTable} {a : ℕ}
  {out new ins : Option ℕ} {gone : List ℕ} {change : ChangeAtk}

/-! ## The invariant -/

structure Invariant (original : Option ℚ) (s : Attacker) : Prop where
  table : s.table.Sound
  made : ∀ a, (s.changes a).isSome → a < s.table.next
  restored : s.Original original

theorem Invariant.still (h : Invariant original s) (hmoves : s.table.Moves t out new ins gone)
    (hout : ∀ a ∈ out, s.changes a = none) : Invariant original { s with table := t } := by
  refine ⟨hmoves.sound, fun b hb => ?_, fun hnone => h.restored fun b hlt hb => ?_⟩
  · rw [hmoves.next]
    exact Nat.lt_add_right _ (h.made b hb)
  · refine hnone b (hmoves.next ▸ Nat.lt_add_right _ hlt)
      ⟨hb.1, (hmoves.live b hlt).mpr ⟨hb.2, fun heq => ?_⟩⟩
    have hchange := hb.1
    rw [hout b heq] at hchange
    cases hchange

theorem live_abort (h : t.Live a) : t.abort.Live a := ⟨h.1, List.not_mem_nil⟩

theorem Invariant.abort (h : Invariant original s) :
    Invariant original { s with table := s.table.abort } := by
  refine ⟨h.table.reframe (fun _ => id) (by simp) (by simp), h.made, fun hnone => ?_⟩
  exact h.restored fun b hlt hb => hnone b hlt ⟨hb.1, live_abort hb.2⟩

theorem active_onExit (h : Invariant original s) (hmoves : s.table.Moves t (some a) none ins gone)
    (b : ℕ) : ({ s.onExit change with table := t } : Attacker).Active b ↔ b ≠ a ∧ s.Active b := by
  constructor
  · rintro ⟨hchange, hlive⟩
    have hold := (hmoves.live b (h.made b hchange)).mp hlive
    exact ⟨fun heq => hold.2 (congrArg some heq).symm, hchange, hold.1⟩
  · rintro ⟨hne, hchange, hlive⟩
    refine ⟨hchange, (hmoves.live b (h.made b hchange)).mpr ⟨hlive, fun heq => ?_⟩⟩
    exact hne (Option.some.inj heq).symm

theorem Invariant.exit (h : Invariant original s)
    (hmoves : s.table.Moves t (some a) none ins gone)
    (hok : (∀ b < s.table.next, b ≠ a → ¬ s.Active b) → change.oldCommonSkill = original) :
    Invariant original { s.onExit change with table := t } := by
  have hlt : ∀ b < s.table.next, b < t.next := fun b hb => hmoves.next ▸ Nat.lt_add_right _ hb
  refine ⟨hmoves.sound, fun b hb => hlt b (h.made b hb), fun hnone =>
    hok fun b hb hne hactive => ?_⟩
  exact hnone b (hlt b hb) ((active_onExit h hmoves b).mpr ⟨hne, hactive⟩)

theorem Invariant.enter (h : Invariant original s) {d : Data}
    (hmoves : s.table.Moves t none (some a) ins gone) :
    Invariant original { s.onEnter a d with table := t } := by
  obtain ⟨rfl, -, hlive⟩ := hmoves.entered a rfl
  have hnext : t.next = s.table.next + 1 := hmoves.next
  refine ⟨hmoves.sound, fun b hb => ?_, fun hnone => ?_⟩
  · change b < t.next
    by_cases hba : b = s.table.next
    · omega
    · have hold : (s.changes b).isSome := by
        simpa [onEnter, Function.update_of_ne hba] using hb
      have hlt := h.made b hold
      omega
  · have hmem : s.table.next < t.next := by omega
    exact absurd ⟨by simp [onEnter], hlive⟩ (hnone s.table.next hmem)

/-! ## Steps -/

/-- A step of the table is nothing to the skills, or an affect enters or exits that changes them. -/
inductive Hooked (s : Attacker) (b : Birth) (t : AffectTable) : Prop
  | still (new ins : Option ℕ) (gone : List ℕ) (hmoves : s.table.Moves t s.exits new ins gone)
      (hout : ∀ a ∈ s.exits, s.changes a = none) (hhooks : s.hooks (.go b) = s)
  | exit (a : ℕ) (change : ChangeAtk) (ins : Option ℕ) (gone : List ℕ) (hexits : s.exits = some a)
      (hmoves : s.table.Moves t (some a) none ins gone) (hchange : s.changes a = some change)
      (hhooks : s.hooks (.go b) = s.onExit change)
  | enter (a : ℕ) (d : Data) (ins : Option ℕ) (gone : List ℕ) (hexits : s.exits = none)
      (hmoves : s.table.Moves t none (some a) ins gone) (hhooks : s.hooks (.go b) = s.onEnter a d)
  | error (hexits : s.exits = none) (ht : t = s.table.abort) (hhooks : s.hooks (.go b) = s)

theorem hooked_of_step (h : s.table.Sound) {b : Birth} (hstep : s.table.step (.go b) = some t) :
    Hooked s b t := by
  simp only [AffectTable.step] at hstep
  split at hstep
  · cases hstep
  · cases hstep
  · next f rest hcall hstack =>
      have hhead : s.exits = s.table.exits f := by simp [exits, hstack]
      split at hstep
      · next u hresume =>
          obtain rfl := Option.some.inj hstep
          have hmoves := AffectTable.moves_go h hstack hresume
          rw [← hhead] at hmoves
          cases hexits : s.exits with
          | some a =>
              obtain ⟨henters, -⟩ := AffectTable.alone_of_exits b (hhead.symm.trans hexits)
              cases hchange : s.changes a with
              | some change =>
                  rw [hexits, henters] at hmoves
                  refine .exit a change _ _ hexits hmoves hchange ?_
                  simp [hooks, hstack, ← hhead, hexits, hchange]
              | none =>
                  refine .still _ _ _ hmoves (fun c hc => ?_) ?_
                  · rw [hexits] at hc
                    obtain rfl := Option.some.inj hc
                    exact hchange
                  · simp [hooks, hstack, ← hhead, hexits, hchange]
          | none =>
              have hnone : ∀ a ∈ s.exits, s.changes a = none := by simp [hexits]
              cases henters : s.table.enters b f with
              | none =>
                  refine .still _ _ _ hmoves hnone ?_
                  simp [hooks, hstack, ← hhead, hexits, henters]
              | some p =>
                  obtain ⟨a, d⟩ := p
                  by_cases hkind : d.kind = .changeatk
                  · rw [hexits, henters] at hmoves
                    refine .enter a d _ _ hexits hmoves ?_
                    simp [hooks, hstack, ← hhead, hexits, henters, hkind]
                  · refine .still _ _ _ hmoves hnone ?_
                    simp [hooks, hstack, ← hhead, hexits, henters, hkind]
      · next e hresume =>
          obtain ⟨hexits, henters⟩ := AffectTable.none_of_error hresume
          refine .error (hhead.trans hexits) (Option.some.inj hstep).symm ?_
          simp [hooks, hstack, hexits, henters]

theorem Invariant.tableStep (h : Invariant original s) {l : Affects.Label}
    (hok : OK original s (.table l)) (hstep : s.table.step l = some t) :
    Invariant original { s.hooks l with table := t } := by
  cases l with
  | go b =>
      cases hooked_of_step h.table hstep with
      | still _ _ _ hmoves hout hhooks =>
          rw [hhooks]
          exact h.still hmoves hout
      | exit a change _ _ hexits hmoves hchange hhooks =>
          rw [hhooks]
          exact h.exit hmoves (hok a hexits change hchange)
      | enter a d _ _ _ hmoves hhooks =>
          rw [hhooks]
          exact h.enter hmoves
      | error _ ht hhooks =>
          rw [hhooks, ht]
          exact h.abort
  | invoke op => exact h.still (AffectTable.moves_invoke h.table hstep) (by simp)
  | ret => exact h.still (AffectTable.moves_ret h.table hstep) (by simp)
  | raise =>
      obtain rfl := AffectTable.abort_of_raise hstep
      exact h.abort

theorem Invariant.step {l : Label} (h : Invariant original s) (hok : OK original s l)
    (hstep : s.step l = some s') : Invariant original s' := by
  cases l with
  | table l =>
      obtain ⟨t, ht, rfl⟩ := Option.map_eq_some_iff.mp hstep
      exact h.tableStep hok ht
  | setReadySkillId id =>
      obtain rfl := Option.some.inj hstep
      exact ⟨h.table, h.made, h.restored⟩

theorem Invariant.init (owner : ℕ) (original : Option ℚ) :
    Invariant original (system owner original).init :=
  ⟨⟨fun _ _ => rfl, by simp [system, AffectTable.new, AffectTable.adding],
    fun a ha => absurd ha (Nat.not_lt_zero a), by simp [system, AffectTable.new]⟩, by simp [system],
    fun _ => rfl⟩

/-- A step that does not meet the condition leaves no such affect and another skill. -/
theorem not_original {l : Label} (h : Invariant original s) (hok : ¬ OK original s l)
    (hstep : s.step l = some s') : ¬ s'.Original original := by
  cases l with
  | setReadySkillId id => exact absurd trivial hok
  | table l =>
      obtain ⟨t, ht, rfl⟩ := Option.map_eq_some_iff.mp hstep
      cases l with
      | invoke | ret | raise => exact absurd trivial hok
      | go b =>
          simp only [OK, not_forall] at hok
          obtain ⟨a, hexits, change, hchange, hlast, hold⟩ := hok
          cases hooked_of_step h.table ht with
          | still _ _ _ _ hout _ =>
              rw [hout a hexits] at hchange
              cases hchange
          | exit a' change' _ _ hexits' hmoves hchange' hhooks =>
              obtain rfl := Option.some.inj (hexits'.symm.trans hexits)
              obtain rfl := Option.some.inj (hchange'.symm.trans hchange)
              rw [hhooks]
              refine fun horiginal => hold (horiginal fun b _ hb => ?_)
              obtain ⟨hne, hactive⟩ := (active_onExit h hmoves b).mp hb
              exact hlast b (h.made b hactive.1) hne hactive
          | enter _ _ _ _ hexits' _ _ | error hexits' _ _ =>
              rw [hexits'] at hexits
              cases hexits

/-- Where the last `changeatk` affect that exits was made with the original skill, a hero without
one has the original skill. A step at which that is not so breaks it. -/
theorem commonSkill_restored (owner : ℕ) (original : Option ℚ) :
    (∀ s, (system owner original).Runs (OK original) s → s.Original original) ∧
      ∀ s l s', (system owner original).Runs (OK original) s → s.step l = some s' →
        ¬ OK original s l → ¬ s'.Original original := by
  have hinv : ∀ s, (system owner original).Runs (OK original) s → Invariant original s := fun s h =>
    h.invariant (Invariant.init owner original) fun _ _ _ hi hok hs => Invariant.step hi hok hs
  exact ⟨fun s h => (hinv s h).restored, fun s l s' h hstep hok =>
    not_original (hinv s h) hok hstep⟩

instance (original : Option ℚ) (s : Attacker) (l : Label) : Decidable (OK original s l) :=
  match l with
  | .table (.go _) => inferInstanceAs (Decidable (∀ a ∈ s.exits, ∀ change ∈ s.changes a, _))
  | .table (.invoke _) | .table .ret | .table .raise | .setReadySkillId _ => .isTrue trivial

def go : Label := .table (.go ⟨1, 0, false⟩)

/-- A list of one `changeatk` affect is built, `sweep` being the steps that look for one that it
replaces. -/
def built (id seconds : ℚ) (skillId : ℤ) (sweep : List Label) : List Label :=
  [.table (.invoke (.buildAffects (some 1) [⟨.changeatk, [id, seconds]⟩] skillId)), go, .table .ret,
    go] ++ sweep ++ [go, go]

/-- Skill 2 for ten seconds and in between skill 3 for five. -/
def nested : List Label :=
  built 2 10 7 [] ++ built 3 5 8 [go] ++
    [.table (.invoke (.update 6000)), go, .table .ret, go, go, go] ++
    [.table (.invoke (.update 6000)), go, go, .table .ret, go, go]

theorem commonSkill_restored_nested : ∃ s, (system 0 (some 1)).Runs (OK (some 1)) s ∧
    s.table.next = 2 ∧ s.Original (some 1) ∧ s.commonSkill = some 1 := by
  have hrun : (((system 0 (some 1)).guarded (OK (some 1))).run (system 0 (some 1)).init nested).map
      (fun s => (s.table.next, s.commonSkill, decide (∀ a < s.table.next, ¬ s.Active a))) =
      some (2, some 1, true) := by
    decide +kernel
  obtain ⟨s, hs, hread⟩ := Option.map_eq_some_iff.mp hrun
  simp only [Prod.mk.injEq, decide_eq_true_eq] at hread
  obtain ⟨hnext, -, hnone⟩ := hread
  have hruns := System.Runs.of_guarded_run _ .init hs
  have horiginal := (commonSkill_restored 0 (some 1)).1 s hruns
  exact ⟨s, hruns, hnext, horiginal, horiginal hnone⟩

/-- Skill 2 is built again while it stands, and the second affect expires. -/
def refreshed : List Label :=
  built 2 10 7 [] ++ built 2 10 7 [go, .table .ret, go, go] ++
    [.table (.invoke (.update 11000)), go, .table .ret, go, go]

theorem commonSkill_not_restored : ∃ s, (system 0 (some 1)).Reachable s ∧ s.table.stack = [] ∧
    (∀ a < s.table.next, ¬ s.Active a) ∧ s.commonSkill = some 2 ∧ ¬ s.Original (some 1) := by
  have hrun : ((system 0 (some 1)).run (system 0 (some 1)).init refreshed).map
      (fun s => (s.table.stack, s.commonSkill, decide (∀ a < s.table.next, ¬ s.Active a))) =
      some ([], some 2, true) := by
    decide +kernel
  obtain ⟨s, hs, hread⟩ := Option.map_eq_some_iff.mp hrun
  simp only [Prod.mk.injEq, decide_eq_true_eq] at hread
  obtain ⟨hidle, hskill, hnone⟩ := hread
  refine ⟨s, System.reachable_of_run _ hs, hidle, hnone, hskill, fun horiginal => ?_⟩
  have hone := hskill.symm.trans (horiginal hnone)
  norm_num at hone

end Attacker

end GameServer.Affects
