import GameServer.AgentFrame

/-!
# Fusing a skill

`REQUEST.fuseSkill` takes fragments of a skill, opens a package until the skill that it shows is of
another series, and hands the last draw out. The fragments go first. An error leaves the agent as it
is by then, so a run keeps its state beside its result. The request runs alone.
-/

namespace GameServer.SkillFusion

open Goods Agent Abort
open AgentService (Macro_AddSkillGrade)
open AgentService.Skills (getSkillByUuid setSkill)

/-! ## The agent -/

structure FusedSkill extends SkillRow where
  n32Quality : ℤ
  n32SeriId : ℤ

structure FuseRow where
  n32CostNum : ℤ
  n32ItemId : ℤ

/-- The tables that a fusion reads beside those of a purchase. -/
structure Tables (data : ShareData) where
  skillDat : ℤ → Option FusedSkill
  fuseSkillRepository : ℤ → Option FuseRow
  skill_row : ∀ id, data.skillRepository id = (skillDat id).map FusedSkill.toSkillRow

/-- `taken` and `opened` are history: the fragments that went, and the draws with their positions
among the random numbers. -/
structure Fuser where
  user : User
  aexp : Balance
  taken : List ℤ
  opened : List (ℕ × IntTable)

/-- Runs a computation on the data of the user; what it did before an error is left out. -/
def act {α : Type} (a : Act α) : Run Fuser α := fun s =>
  match a s.user with
  | none => (none, s)
  | some (x, user) => (some x, { s with user })

/-- `Quest.ChipsExp["Skill"..(n32Quality + 1)]` -/
def chipsExp (quality : ℤ) : Option ℤ :=
  if quality = 0 then some 2
  else if quality = 1 then some 10
  else if quality = 2 then some 50
  else none

def addAExp (exp : ℤ) : Run Fuser Unit := do
  if exp = 0 then return
  modify fun s => { s with aexp := ⟨mClamp (wrap (s.aexp + exp)) 0 maxint32, mClamp_mem _⟩ }

/-- The user without fragments of a skill. -/
def less (user : User) (uuid : String) (num : ℤ) : User :=
  { user with skills := setSkill user.skills uuid fun v => { v with
      count := wrap (v.count - num) } }

variable (env : Env) (T : Tables env.data)

def delSkillByUuid (uuid : String) (num : ℤ) : Run Fuser Unit := do
  let s ← get
  match getSkillByUuid s.user.skills uuid with
  | none => return
  | some v =>
      if v.count < num then return
      set { s with
        user := less s.user uuid num
        taken := s.taken ++ [v.count - wrap (v.count - num)] }
      match T.skillDat v.dataId with
      | none => failure
      | some dat =>
          match chipsExp dat.n32Quality with
          | none => failure
          | some exp => addAExp (wrap (exp * num))

/-! ## The request -/

/-- What the request is about to do. -/
structure Fusion where
  skill : Skill
  row : FusedSkill
  fuse : FuseRow

/-- The error code, or the fusion; `none` is an error of the interpreter. -/
def checks (user : User) (uuid : String) : Option (Except ℤ Fusion) :=
  match getSkillByUuid user.skills uuid with
  | none => some (.error (-1))
  | some skill =>
      match T.skillDat (Macro_AddSkillGrade skill.dataId 1) with
      | some _ => some (.error 3)
      | none => do
          let row ← T.skillDat skill.dataId
          let fuse ← T.fuseSkillRepository row.n32Quality
          if fuse.n32CostNum > skill.count then some (.error 1)
          else some (.ok { skill, row, fuse })

/-- Opens the package once. -/
def openOnce (pkg : ℤ) : Run Fuser IntTable := do
  let s ← get
  let items ← act (do draw (usePackageItem env pkg (← get).level))
  modify fun s' => { s' with opened := s'.opened ++ [(s.user.drawn, items)] }
  return items

/-- The first item of a draw; an empty draw shows the item before it. -/
def shown (before : ℤ) (items : IntTable) : ℤ := ((env.pairs items).head?.map Prod.fst).getD before

/-- The comparison of the loop, an error for an unknown item. -/
def repeats (seriId itemId : ℤ) : Option Bool :=
  (env.data.itemRepository itemId).map fun dat =>
    decide (seriId = Macro_GetCardSerialId dat.n32Retain1)

/-- The loop, as long as the fuel lasts. The line in the log after ten rounds is left out. -/
def tries (seriId pkg : ℤ) : ℕ → ℤ → Run Fuser (Option (IntTable × ℤ))
  | 0, _ => return none
  | fuel + 1, before => do
      let items ← openOnce env pkg
      match repeats env seriId (shown env before items) with
      | none => failure
      | some true => tries seriId pkg fuel (shown env before items)
      | some false => return some (items, shown env before items)

structure Reply where
  errorCode : ℤ
  skillId : ℤ
  deriving DecidableEq

/-- No reply means that the fuel was used up. -/
def fuseSkill (fuel : ℕ) (uuid : String) : Run Fuser (Option Reply) := do
  let s ← get
  match checks env T s.user uuid with
  | none => failure
  | some (.error errorCode) => return some ⟨errorCode, 0⟩
  | some (.ok p) =>
      delSkillByUuid env T uuid p.fuse.n32CostNum
      match ← tries env p.row.n32SeriId p.fuse.n32ItemId fuel 0 with
      | none => return none
      | some (items, itemId) =>
          act (addItems env items)
          return some ⟨0, itemId⟩

/-! ## What a fusion should do -/

/-- Hands the items out; an item that is unknown is an error, and so is a package that is there more
than once or cannot be opened. -/
def grantAt : ℕ → IntTable → Act Unit
  | 0, _ => fail
  | levels + 1, items => do
      if items.all fun e =>
          (env.data.itemRepository e.1).all fun dat => dat.n32Type ≠ 4 || e.2 = 1 then
        match ← gather env (grantAt levels) (env.pairs items) {} with
        | none => fail
        | some g => handOut env g
      else fail

def grant (items : IntTable) : Act Unit := grantAt env 2 items

/-- The item is a skill, with a series of which the predicate holds. -/
def SkillWith (P : ℤ → Prop) (itemId : ℤ) : Prop :=
  ∃ dat ∈ env.data.itemRepository itemId,
    dat.n32Type = 7 ∧ P (Macro_GetSkillSerialId dat.n32Retain1)

/-- There is a skill in the draw, and none of the series. -/
def Foreign (seriId : ℤ) (items : IntTable) : Prop :=
  (∃ e ∈ items, SkillWith env (fun _ => True) e.1) ∧
    ∀ e ∈ items, ¬ SkillWith env (fun series => series = seriId) e.1

/-- The fragments that the table asks for went, and what the last draw gave was handed out. -/
def Fused (uuid : String) (s s' : Fuser) : Prop :=
  ∃ p, checks env T s.user uuid = some (.ok p) ∧ s'.taken = s.taken ++ [p.fuse.n32CostNum] ∧
    ∃ drawn items drawn', s'.opened.getLast? = some (drawn, items) ∧
      usePackageItem env p.fuse.n32ItemId s.user.level drawn = some (items, drawn') ∧
      Foreign env p.row.n32SeriId items ∧
      grant env items { less s.user uuid p.fuse.n32CostNum with drawn := drawn' } =
        some ((), s'.user)

/-- The request comes to an end, with a fusion or with nothing changed. -/
def Atomic (uuid : String) (s : Fuser) : Prop :=
  ∃ fuel, match (fuseSkill env T fuel uuid).run s with
    | (some (some reply), s') =>
        reply.errorCode = 0 ∧ Fused env T uuid s s' ∨ reply.errorCode ≠ 0 ∧ s' = s
    | (some none, _) => False
    | (none, s') => s' = s

/-! ## When it does -/

/-- From one position of the random numbers to another, the draws of the package. -/
def Draws (pkg lv : ℤ) : ℕ → List IntTable → ℕ → Prop
  | drawn, [], drawn' => drawn = drawn'
  | drawn, items :: rest, drawn' =>
      ∃ next, usePackageItem env pkg lv drawn = some (items, next) ∧ Draws pkg lv next rest drawn'

/-- What the draws show has the series number, read as that of a card. -/
def Rejected (seriId : ℤ) : ℤ → List IntTable → Prop
  | _, [] => True
  | before, items :: rest =>
      repeats env seriId (shown env before items) = some true ∧
        Rejected seriId (shown env before items) rest

/-- There is experience for the quality, the fragments that stay are a Lua integer, and the first
draw that shows another series number, read as that of a card, can be handed out and has no skill of
the series. -/
def Fusible (uuid : String) (user : User) (p : Fusion) : Prop :=
  (chipsExp p.row.n32Quality).isSome ∧ p.skill.count - p.fuse.n32CostNum ≤ maxinteger ∧
    ∃ rejected items drawn drawn',
      Draws env p.fuse.n32ItemId user.level user.drawn rejected drawn ∧
      Rejected env p.row.n32SeriId 0 rejected ∧
      usePackageItem env p.fuse.n32ItemId user.level drawn = some (items, drawn') ∧
      repeats env p.row.n32SeriId (shown env (rejected.foldl (shown env) 0) items) = some false ∧
      Foreign env p.row.n32SeriId items ∧
      (grant env items { less user uuid p.fuse.n32CostNum with drawn := drawn' }).isSome

/-! ## Runs -/

variable {env T} {α β : Type} {a : Run Fuser α} {f : α → Run Fuser β} {s s' : Fuser} {uuid : String}
  {p : Fusion}

theorem run_act {act' : Act α} {x : α} {user : User} (h : act' s.user = some (x, user)) :
    (act act').run s = (some x, { s with user }) := by
  change act act' s = _
  rw [act, h]

theorem run_act_eq_some {act' : Act α} {x : α} (h : (act act').run s = (some x, s')) :
    ∃ user, act' s.user = some (x, user) ∧ s' = { s with user } := by
  change act act' s = _ at h
  rw [act] at h
  split at h
  · cases h
  · next hact =>
    cases h
    exact ⟨_, hact, rfl⟩

/-- Nothing is taken. -/
def Takes (a : Run Fuser α) : Prop := ∀ s, (a.run s).2.taken = s.taken

theorem takes_act (act' : Act α) : Takes (act act') := fun s => by
  change (act act' s).2.taken = s.taken
  rw [act]
  split <;> rfl

theorem Takes.bind (ha : Takes a) (hf : ∀ x, Takes (f x)) : Takes (a >>= f) := fun s => by
  have hfirst := ha s
  rw [run_bind]
  split
  · next heq =>
    rw [heq] at hfirst
    exact (hf _ _).trans hfirst
  · next heq =>
    rw [heq] at hfirst
    exact hfirst

theorem takes_pure (x : α) : Takes (pure x) := fun _ => rfl

theorem takes_failure : Takes (failure : Run Fuser α) := fun _ => rfl

theorem takes_openOnce (pkg : ℤ) : Takes (openOnce env pkg) := fun s =>
  ((takes_act _).bind fun items => show Takes (do
    modify fun s' : Fuser => { s' with opened := s'.opened ++ [(s.user.drawn, items)] }
    return items) from fun _ => rfl) s

theorem takes_tries (seriId pkg : ℤ) (fuel : ℕ) (before : ℤ) :
    Takes (tries env seriId pkg fuel before) := by
  induction fuel generalizing before with
  | zero => exact takes_pure none
  | succ fuel ih =>
      refine (takes_openOnce pkg).bind fun items => ?_
      cases repeats env seriId (shown env before items) with
      | none => exact takes_failure
      | some again =>
          cases again with
          | true => exact ih _
          | false => exact takes_pure _

/-! ## The loop -/

/-- The agent behind a draw. -/
def Fuser.draws (s : Fuser) (items : IntTable) (drawn : ℕ) : Fuser :=
  { s with
    user := { s.user with drawn }
    opened := s.opened ++ [(s.user.drawn, items)] }

variable {pkg seriId before itemId : ℤ} {items : IntTable} {drawn drawn' fuel : ℕ}
  {rejected : List IntTable}

theorem run_openOnce (h : usePackageItem env pkg s.user.level s.user.drawn = some (items, drawn)) :
    (openOnce env pkg).run s = (some items, s.draws items drawn) := by
  have hact : (act (do draw (usePackageItem env pkg (← get).level))).run s =
      (some items, { s with user := { s.user with drawn } }) := by
    apply run_act
    change (usePackageItem env pkg s.user.level s.user.drawn).map _ = _
    rw [h]
    rfl
  exact run_bind_some hact

theorem run_openOnce_eq_some (h : (openOnce env pkg).run s = (some items, s')) :
    ∃ drawn, usePackageItem env pkg s.user.level s.user.drawn = some (items, drawn) ∧
      s' = s.draws items drawn := by
  have h' : (act (do draw (usePackageItem env pkg (← get).level)) >>= fun items => (do
      modify fun s' : Fuser => { s' with opened := s'.opened ++ [(s.user.drawn, items)] }
      return items)).run s = (some items, s') := h
  obtain ⟨items', s₁, hact, hrest⟩ := run_bind_eq_some h'
  obtain ⟨user, hdraw, rfl⟩ := run_act_eq_some hact
  obtain ⟨⟨items'', drawn⟩, huse, heq⟩ := Option.map_eq_some_iff.mp hdraw
  cases heq
  cases hrest
  exact ⟨drawn, huse, rfl⟩

/-- The loop ends with the draws that were rejected and one that was not. -/
theorem tries_eq_some
    (h : (tries env seriId pkg fuel before).run s = (some (some (items, itemId)), s')) :
    ∃ rejected drawn drawn', Draws env pkg s.user.level s.user.drawn rejected drawn ∧
      Rejected env seriId before rejected ∧
      usePackageItem env pkg s.user.level drawn = some (items, drawn') ∧
      repeats env seriId (shown env (rejected.foldl (shown env) before) items) = some false ∧
      s'.opened.getLast? = some (drawn, items) ∧ s'.user = { s.user with drawn := drawn' } := by
  induction fuel generalizing before s with
  | zero => cases h
  | succ fuel ih =>
      obtain ⟨first, s₁, hopen, hrest⟩ := run_bind_eq_some h
      obtain ⟨next, huse, rfl⟩ := run_openOnce_eq_some hopen
      cases hrepeat : repeats env seriId (shown env before first) with
      | none =>
          rw [hrepeat] at hrest
          cases hrest
      | some again =>
          rw [hrepeat] at hrest
          cases again with
          | true =>
              obtain ⟨rejected, drawn, drawn', hdraws, hrejected, hlast, hshown, hopened, huser⟩ :=
                ih hrest
              exact ⟨first :: rejected, drawn, drawn', ⟨next, huse, hdraws⟩, ⟨hrepeat, hrejected⟩,
                hlast, hshown, hopened, huser⟩
          | false =>
              cases hrest
              exact ⟨[], s.user.drawn, next, rfl, trivial, huse, hrepeat, by simp [Fuser.draws],
                rfl⟩

theorem tries_of_draws (hdraws : Draws env pkg s.user.level s.user.drawn rejected drawn)
    (hrejected : Rejected env seriId before rejected)
    (hlast : usePackageItem env pkg s.user.level drawn = some (items, drawn'))
    (hshown : repeats env seriId (shown env (rejected.foldl (shown env) before) items) =
      some false) :
    ∃ fuel itemId s', (tries env seriId pkg fuel before).run s = (some (some (items, itemId)), s') ∧
      s'.opened.getLast? = some (drawn, items) ∧ s'.user = { s.user with drawn := drawn' } := by
  induction rejected generalizing before s with
  | nil =>
      obtain rfl := hdraws
      refine ⟨1, shown env before items, s.draws items drawn', ?_, by simp [Fuser.draws], rfl⟩
      have hrepeat : repeats env seriId (shown env before items) = some false := hshown
      rw [tries, run_bind_some (run_openOnce hlast), hrepeat]
      rfl
  | cons first rejected ih =>
      obtain ⟨next, huse, hdraws⟩ := hdraws
      obtain ⟨hrepeat, hrejected⟩ := hrejected
      obtain ⟨fuel, itemId, s', htries, hopened, huser⟩ :=
        ih (s := s.draws first next) hdraws hrejected hlast hshown
      refine ⟨fuel + 1, itemId, s', ?_, hopened, huser⟩
      rw [tries, run_bind_some (run_openOnce huse), hrepeat]
      exact htries


/-! ## The deduction -/

theorem checks_eq_ok (h : checks env T s.user uuid = some (.ok p)) :
    getSkillByUuid s.user.skills uuid = some p.skill ∧
      T.skillDat p.skill.dataId = some p.row ∧ p.fuse.n32CostNum ≤ p.skill.count := by
  unfold checks at h
  split at h
  · cases h
  · next skill hskill =>
    split at h
    · cases h
    · obtain ⟨row, hrow, h⟩ := Option.bind_eq_some_iff.mp h
      obtain ⟨fuse, -, h⟩ := Option.bind_eq_some_iff.mp h
      split_ifs at h with hcount <;> cases h
      exact ⟨hskill, hrow, not_lt.mp hcount⟩

theorem checks_error_ne_zero {errorCode : ℤ}
    (h : checks env T s.user uuid = some (.error errorCode)) : errorCode ≠ 0 := by
  unfold checks at h
  split at h
  · cases h
    decide
  · split at h
    · cases h
      decide
    · obtain ⟨row, -, h⟩ := Option.bind_eq_some_iff.mp h
      obtain ⟨fuse, -, h⟩ := Option.bind_eq_some_iff.mp h
      split_ifs at h <;> cases h
      decide

theorem run_addAExp (exp : ℤ) (s : Fuser) : ∃ s₁, (addAExp exp).run s = (some (), s₁) ∧
    s₁.user = s.user ∧ s₁.taken = s.taken := by
  unfold addAExp
  split_ifs
  · exact ⟨s, rfl, rfl, rfl⟩
  · exact ⟨_, rfl, rfl, rfl⟩

/-- The fragments are gone before the experience is looked up. -/
theorem run_delSkillByUuid (h : checks env T s.user uuid = some (.ok p)) :
    ∃ s₁, (delSkillByUuid env T uuid p.fuse.n32CostNum).run s =
        ((chipsExp p.row.n32Quality).map fun _ => (), s₁) ∧
      s₁.user = less s.user uuid p.fuse.n32CostNum ∧
      s₁.taken = s.taken ++ [p.skill.count - wrap (p.skill.count - p.fuse.n32CostNum)] := by
  obtain ⟨hskill, hrow, hcount⟩ := checks_eq_ok h
  have hrun : (delSkillByUuid env T uuid p.fuse.n32CostNum).run s =
      (match chipsExp p.row.n32Quality with
      | none => (failure : Run Fuser Unit)
      | some exp => addAExp (wrap (exp * p.fuse.n32CostNum))).run { s with
        user := less s.user uuid p.fuse.n32CostNum
        taken := s.taken ++ [p.skill.count - wrap (p.skill.count - p.fuse.n32CostNum)] } := by
    unfold delSkillByUuid
    rw [run_get_bind, hskill]
    dsimp only
    rw [if_neg (not_lt.mpr hcount), hrow]
    rfl
  rw [hrun]
  cases chipsExp p.row.n32Quality with
  | none => exact ⟨_, rfl, rfl, rfl⟩
  | some exp =>
      obtain ⟨s₁, hexp, huser, htaken⟩ := run_addAExp (wrap (exp * p.fuse.n32CostNum)) { s with
        user := less s.user uuid p.fuse.n32CostNum
        taken := s.taken ++ [p.skill.count - wrap (p.skill.count - p.fuse.n32CostNum)] }
      exact ⟨s₁, hexp, huser, htaken⟩

/-- What is left of the request when the checks have passed. -/
def behind (env : Env) (T : Tables env.data) (fuel : ℕ) (uuid : String) (p : Fusion) :
    Run Fuser (Option Reply) := do
  delSkillByUuid env T uuid p.fuse.n32CostNum
  match ← tries env p.row.n32SeriId p.fuse.n32ItemId fuel 0 with
  | none => return none
  | some (items, itemId) =>
      act (addItems env items)
      return some ⟨0, itemId⟩

theorem run_fuseSkill (h : checks env T s.user uuid = some (.ok p)) (fuel : ℕ) :
    (fuseSkill env T fuel uuid).run s = (behind env T fuel uuid p).run s := by
  unfold fuseSkill
  rw [run_get_bind, h]
  rfl

theorem fuseSkill_taken (h : checks env T s.user uuid = some (.ok p)) (fuel : ℕ) :
    ((fuseSkill env T fuel uuid).run s).2.taken =
      s.taken ++ [p.skill.count - wrap (p.skill.count - p.fuse.n32CostNum)] := by
  obtain ⟨s₁, hdel, -, htaken⟩ := run_delSkillByUuid h
  rw [run_fuseSkill h, behind, run_bind, hdel]
  cases chipsExp p.row.n32Quality with
  | none => exact htaken
  | some exp =>
      rw [← htaken]
      refine Takes.bind (takes_tries _ _ _ _) (fun r => ?_) s₁
      cases r with
      | none => exact takes_pure none
      | some r => exact (takes_act _).bind fun _ => takes_pure _

theorem wrap_sub_eq_iff {count num : ℤ} (h : num ≤ count) :
    count - wrap (count - num) = num ↔ count - num ≤ maxinteger := by
  have hlt : (2 : ℤ) * wrap (count - num) < 2 ^ 64 := by
    have := Int.bmod_lt (x := count - num) (m := 2 ^ 64) (by decide)
    unfold wrap
    omega
  unfold maxinteger
  constructor
  · intro heq
    omega
  · intro hle
    rw [wrap_of_range (by omega) (by omega)]
    omega

/-! ## Handing out -/

theorem gather_of_grant {again again' : IntTable → Act Unit}
    (hagain : ∀ items u r, again items u = some r → again' items u = some r) {l : IntTable}
    {g : Gathered} {u : User} {r : Option Gathered × User} (h : gather env again l g u = some r) :
    gather env again' l g u = some r := by
  induction l generalizing g u with
  | nil => exact h
  | cons e l ih =>
      obtain ⟨k, v⟩ := e
      unfold gather at h ⊢
      cases hitem : env.data.itemRepository k with
      | none =>
          rw [hitem] at h
          exact h
      | some item =>
          rw [hitem] at h
          dsimp only at h ⊢
          split_ifs at h ⊢
          · exact ih h
          · obtain ⟨r₁, hdraw, h⟩ := Option.bind_eq_some_iff.mp h
            obtain ⟨r₂, hopen, h⟩ := Option.bind_eq_some_iff.mp h
            exact Option.bind_eq_some_iff.mpr ⟨r₁, hdraw, Option.bind_eq_some_iff.mpr
              ⟨r₂, hagain _ _ _ hopen, ih h⟩⟩
          · exact ih h
          · exact ih h
          · exact ih h
          · exact ih h

/-- What can be handed out is what `addItems` hands out. -/
theorem addItems_of_grant {levels : ℕ} {u : User} {r : Unit × User}
    (h : grantAt env levels items u = some r) : addItemsAt env levels items u = some r := by
  induction levels generalizing items u r with
  | zero => cases h
  | succ levels ih =>
      unfold grantAt at h
      split_ifs at h
      · obtain ⟨⟨g, u'⟩, hgather, hrest⟩ := Option.bind_eq_some_iff.mp h
        refine Option.bind_eq_some_iff.mpr
          ⟨(g, u'), gather_of_grant (fun _ _ _ h => ih h) hgather, ?_⟩
        cases g with
        | none => cases hrest
        | some g => exact hrest
      · cases h


/-! ## Atomicity -/

theorem fusible_of_fused {fuel : ℕ} {reply : Reply} (h : checks env T s.user uuid = some (.ok p))
    (hrun : (fuseSkill env T fuel uuid).run s = (some (some reply), s'))
    (hfused : Fused env T uuid s s') : Fusible env uuid s.user p := by
  obtain ⟨p', hchecks, htaken, drawn, items, drawn', hopened, huse, hforeign, hgrant⟩ := hfused
  rw [h] at hchecks
  cases hchecks
  obtain ⟨-, -, hcount⟩ := checks_eq_ok h
  have htook := fuseSkill_taken h fuel
  rw [hrun, htaken, List.append_cancel_left_eq, List.cons.injEq] at htook
  obtain ⟨s₁, hdel, huser₁, -⟩ := run_delSkillByUuid h
  rw [run_fuseSkill h] at hrun
  obtain ⟨_, s₁', hdel', hrest⟩ := run_bind_eq_some hrun
  rw [hdel, Prod.mk.injEq] at hdel'
  obtain ⟨hexp, rfl⟩ := hdel'
  obtain ⟨r, s₂, htries, hrest⟩ := run_bind_eq_some hrest
  cases r with
  | none => cases hrest
  | some r =>
      obtain ⟨items', itemId⟩ := r
      obtain ⟨rejected, at', next, hdraws, hrejected, hlast, hshown, hopened', huser₂⟩ :=
        tries_eq_some htries
      obtain ⟨_, s₃, hadd, hreply⟩ := run_bind_eq_some hrest
      obtain ⟨user, -, rfl⟩ := run_act_eq_some hadd
      cases hreply
      -- the draw that was handed out is the last one of the loop
      obtain ⟨rfl, rfl⟩ : at' = drawn ∧ items' = items := by
        rw [hopened', Option.some.injEq, Prod.mk.injEq] at hopened
        exact hopened
      have hlevel : s₁.user.level = s.user.level ∧ s₁.user.drawn = s.user.drawn := by
        rw [huser₁]
        exact ⟨rfl, rfl⟩
      rw [hlevel.1, hlevel.2] at hdraws
      refine ⟨?_, (wrap_sub_eq_iff hcount).mp htook.1.symm, rejected, items', at', drawn', hdraws,
        hrejected, huse, hshown, hforeign, ?_⟩
      · cases hq : chipsExp p.row.n32Quality with
        | none =>
            rw [hq] at hexp
            cases hexp
        | some exp => rfl
      · rw [hgrant]
        rfl

theorem fused_of_fusible (h : checks env T s.user uuid = some (.ok p))
    (hfusible : Fusible env uuid s.user p) : ∃ fuel itemId s',
      (fuseSkill env T fuel uuid).run s = (some (some ⟨0, itemId⟩), s') ∧
        Fused env T uuid s s' := by
  obtain ⟨hexp, hstays, rejected, items, drawn, drawn', hdraws, hrejected, huse, hshown, hforeign,
    hgrant⟩ := hfusible
  obtain ⟨-, -, hcount⟩ := checks_eq_ok h
  obtain ⟨s₁, hdel, huser₁, htaken₁⟩ := run_delSkillByUuid h
  have hlevel : s₁.user.level = s.user.level ∧ s₁.user.drawn = s.user.drawn := by
    rw [huser₁]
    exact ⟨rfl, rfl⟩
  rw [← hlevel.1, ← hlevel.2] at hdraws
  rw [← hlevel.1] at huse
  obtain ⟨fuel, itemId, s₂, htries, hopened, huser₂⟩ := tries_of_draws hdraws hrejected huse hshown
  obtain ⟨⟨_, user⟩, hgrant⟩ := Option.isSome_iff_exists.mp hgrant
  have hadd : addItems env items s₂.user = some ((), user) := by
    rw [huser₂, huser₁]
    exact addItems_of_grant hgrant
  have hdel' : (delSkillByUuid env T uuid p.fuse.n32CostNum).run s = (some (), s₁) := by
    obtain ⟨exp, hsome⟩ := Option.isSome_iff_exists.mp hexp
    rw [hdel, hsome]
    rfl
  have hrun : (fuseSkill env T fuel uuid).run s = (some (some ⟨0, itemId⟩), { s₂ with user }) := by
    rw [run_fuseSkill h, behind, run_bind_some hdel', run_bind_some htries]
    exact run_bind_some (run_act hadd)
  refine ⟨fuel, itemId, _, hrun, p, h, ?_, drawn, items, drawn', hopened, ?_, hforeign, hgrant⟩
  · have htaken := fuseSkill_taken h fuel
    rw [hrun, (wrap_sub_eq_iff hcount).mpr hstays] at htaken
    exact htaken
  · rw [← hlevel.1]
    exact huse

theorem fusible_of_atomic (h : Atomic env T uuid s)
    (hchecks : checks env T s.user uuid = some (.ok p)) : Fusible env uuid s.user p := by
  obtain ⟨fuel, h⟩ := h
  have htaken := fuseSkill_taken hchecks fuel
  have hchanged : ∀ {s'}, s'.taken = s.taken ++ [p.skill.count -
      wrap (p.skill.count - p.fuse.n32CostNum)] → s' ≠ s := fun {s'} hs' heq => by
    rw [heq] at hs'
    exact absurd hs' (by simp)
  split at h
  · next reply s' hrun =>
    rw [hrun] at htaken
    rcases h with ⟨-, hfused⟩ | ⟨-, hsame⟩
    · exact fusible_of_fused hchecks hrun hfused
    · exact absurd hsame (hchanged htaken)
  · exact h.elim
  · next s' hrun =>
    rw [hrun] at htaken
    exact absurd h (hchanged htaken)

/-- A request either takes the fragments and hands out a draw of another series or changes nothing,
exactly when a check refuses it or it can go all the way. -/
theorem fuseSkill_atomic_iff (env : Env) (T : Tables env.data) (uuid : String) (s : Fuser) :
    Atomic env T uuid s ↔
      ∀ p, checks env T s.user uuid = some (.ok p) → Fusible env uuid s.user p := by
  refine ⟨fun h p hchecks => fusible_of_atomic h hchecks, fun h => ?_⟩
  cases hchecks : checks env T s.user uuid with
  | none =>
      refine ⟨0, ?_⟩
      rw [fuseSkill, run_get_bind, hchecks]
      rfl
  | some r =>
      cases r with
      | error errorCode =>
          refine ⟨0, ?_⟩
          rw [fuseSkill, run_get_bind, hchecks]
          exact Or.inr ⟨checks_error_ne_zero hchecks, rfl⟩
      | ok p =>
          obtain ⟨fuel, itemId, s', hrun, hfused⟩ := fused_of_fusible hchecks (h p hchecks)
          refine ⟨fuel, ?_⟩
          rw [hrun]
          exact Or.inl ⟨rfl, hfused⟩

/-- The loop never rejects a skill of the series that is fused: the number of a skill has three
digits behind its series, that of a card two. -/
theorem repeats_own_series {dat : ItemRow} (hitem : env.data.itemRepository itemId = some dat)
    (hseries : Macro_GetSkillSerialId dat.n32Retain1 = seriId) (hpos : 0 < seriId) :
    repeats env seriId itemId = some false := by
  have hlarge : seriId < Macro_GetCardSerialId dat.n32Retain1 := by
    have hskill : dat.n32Retain1.fdiv 1000 = dat.n32Retain1 / 1000 :=
      Int.fdiv_eq_ediv_of_nonneg _ (by decide)
    have hcard : dat.n32Retain1.fdiv 100 = dat.n32Retain1 / 100 :=
      Int.fdiv_eq_ediv_of_nonneg _ (by decide)
    rw [Macro_GetSkillSerialId, hskill] at hseries
    rw [Macro_GetCardSerialId, hcard]
    omega
  rw [repeats, hitem, Option.map_some, decide_eq_false (ne_of_lt hlarge)]

/-! ## A draw of the series that is fused -/

/-- One package, and in it one skill. -/
def narrow : Env := { quiet with
  data := { quiet.data with
    itemRepository := fun id =>
      if id = 80001 then some ⟨4, 0, [(40001, 1)]⟩
      else if id = 10001001 then some ⟨7, 10001001, []⟩
      else none
    dropPackage := fun id => if id = 40001 then some ⟨[⟨2011, 1, 1, 1⟩], 1⟩ else none
    itemDropPackage := fun id => if id = 2011 then some [⟨10001001, 1, 1, 1, 0, 9⟩] else none
    skillRepository := fun id => if id = 10001091 then some ⟨1⟩ else none } }

def narrowTables : Tables narrow.data where
  skillDat id := if id = 10001091 then some ⟨⟨1⟩, 0, 10001⟩ else none
  fuseSkillRepository quality := if quality = 0 then some ⟨3, 80001⟩ else none
  skill_row id := by
    change (if id = 10001091 then some _ else none) = _
    split_ifs <;> rfl

/-- An agent with three fragments of a skill that cannot be raised any more. -/
def collector : Fuser where
  user := { (default : User) with skills := [⟨"1", 10001091, 3, 0⟩] }
  aexp := ⟨0, zero_balance⟩
  taken := []
  opened := []

theorem fuseSkill_own_series : ¬ ∀ (env : Env) (T : Tables env.data) (uuid : String) (s : Fuser),
    (getSkillByUuid s.user.skills uuid).isSome → Atomic env T uuid s := fun hall => by
  have hatomic := hall narrow narrowTables "1" collector rfl
  have hchecks : checks narrow narrowTables collector.user "1" =
      some (.ok ⟨⟨"1", 10001091, 3, 0⟩, ⟨⟨1⟩, 0, 10001⟩, ⟨3, 80001⟩⟩) := rfl
  obtain ⟨-, -, rejected, items, drawn, drawn', -, -, huse, -, hforeign, -⟩ :=
    fusible_of_atomic hatomic hchecks
  have hdraw : usePackageItem narrow 80001 collector.user.level drawn =
      some ([(10001001, 1)], drawn + 4) := rfl
  rw [hdraw] at huse
  cases huse
  exact hforeign.2 (10001001, 1) (List.mem_singleton.mpr rfl) ⟨⟨7, 10001001, []⟩, rfl, rfl, rfl⟩

end GameServer.SkillFusion
