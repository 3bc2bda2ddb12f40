import GameServer.Player

/-!
# The report of an exploration

`exploreEnd` opens packages of cards, then packages of skills, and lists in its reply what it hands
out. An item that is listed already counts one more, whatever the package had of it. In a package of
skills a new item behind one that was listed already is left out of the list.
-/

namespace GameServer.Player.ExploreReport

open Goods Agent AgentService

/-! ## The reply -/

/-- The items of the reply with their counts, `x` and `y`. -/
abbrev Report := List (ℤ × ℤ)

/-- The search loop: the first entry with `x == k` counts one more. -/
def raiseEntry (k : ℤ) : Report → Option Report
  | [] => none
  | e :: r =>
    if e.1 = k then some ((e.1, e.2 + 1) :: r)
    else (raiseEntry k r).map (e :: ·)

/-- One item of a package of cards. -/
def reportCard (r : Report) (e : ℤ × ℤ) : Report := (raiseEntry e.1 r).getD (r ++ [e])

/-- One item of a package of skills; `hit` is kept from item to item. -/
def reportSkill (s : Report × Bool) (e : ℤ × ℤ) : Report × Bool :=
  match raiseEntry e.1 s.1 with
  | some r => (r, true)
  | none => if s.2 = false then (s.1 ++ [e], s.2) else s

def reportCards (r : Report) (rets : IntTable) : Report := rets.foldl reportCard r

def reportSkills (r : Report) (rets : IntTable) : Report := (rets.foldl reportSkill (r, false)).1

/-- `for i=1, n` over packages of one kind; also gives the tables that went to `addItems`. -/
def openEach (env : Env) (report : Report → IntTable → Report) (itemId : ℤ) :
    ℕ → Report → Act (Report × List IntTable)
  | 0, r => return (r, [])
  | n + 1, r => do
    let rets ← draw (usePackageItem env itemId (← get).level)
    addItems env rets
    let (r, granted) ← openEach env report itemId n (report r (env.pairs rets))
    return (r, rets :: granted)

/-- The reply, with the tables that the packages of cards and of skills gave to `addItems`. -/
structure Reply where
  errorCode : ℤ
  items : Report
  cards : List IntTable
  skills : List IntTable

/-- The part of `exploreEnd` that hands out and resets. -/
def reap (w : World) (q : ExploreData) (clock : Clock) (exploreDat : ExploreRow) (gains : Gains) :
    Act Reply := do
  let (r, cards) ← openEach (w.env clock) reportCards exploreDat.n32CardItemId gains.cn []
  let (r, skills) ← openEach (w.env clock) reportSkills exploreDat.n32SkillItemId gains.sn r
  modify fun user => { user with account := user.account.addGold gains.gold }
  discard (drawExplore q (w.env clock))
  return { errorCode := 0, items := r, cards, skills }

/-- `REQUEST.exploreEnd` for a unit of the account. -/
def exploreEnd (w : World) (q : ExploreData) (clock : Clock) (unit : Explore) : Act Reply :=
  fun user =>
    if unit.time > clock.now then
      some ({ errorCode := -1, items := [], cards := [], skills := [] }, user)
    else do
      let exploreDat ← q.row unit.dataId
      let score ← score w exploreDat user.cards unit
      reap w q clock exploreDat (q.gains unit.dataId score) user

/-! ## Counts -/

/-- How much of an item a list has. -/
def amount (t : List (ℤ × ℤ)) (k : ℤ) : ℤ := (t.map fun e => if e.1 = k then e.2 else 0).sum

def ids (t : List (ℤ × ℤ)) : List ℤ := t.map Prod.fst

/-- Every item stands in the report at most once, with what went of it to `addItems`; an item that
does not stand there counts as nothing. -/
structure Agrees (r : Report) (granted : List IntTable) : Prop where
  nodup : (ids r).Nodup
  amount : ∀ k, amount r k = amount granted.flatten k

/-- What a package of cards has beyond one of each item that is listed already. -/
def cardExtra (listed : List ℤ) (t : IntTable) : IntTable :=
  (t.filter fun e => e.1 ∈ listed).map fun e => (e.1, e.2 - 1)

/-- What a package of skills has, from its first listed item on, beyond one of each that is listed
already. -/
def skillExtra (listed : List ℤ) (t : IntTable) : IntTable :=
  (t.dropWhile fun e => e.1 ∉ listed).map fun e => if e.1 ∈ listed then (e.1, e.2 - 1) else e

def cardsExtra : List ℤ → List IntTable → IntTable
  | _, [] => []
  | listed, t :: ts => cardExtra listed t ++ cardsExtra (listed ++ ids t) ts

def skillsExtra : List ℤ → List IntTable → IntTable
  | _, [] => []
  | listed, t :: ts =>
    skillExtra listed t ++ skillsExtra (listed ++ ids (t.takeWhile fun e => e.1 ∉ listed)) ts

/-- What the tables have that the report does not count. -/
def extra (cards skills : List IntTable) : IntTable :=
  cardsExtra [] cards ++ skillsExtra (ids cards.flatten) skills

variable {w : World} {q : ExploreData} {clock : Clock} {unit : Explore} {env : Env}
  {user user' : User}
  {reply : Reply} {r r' : Report} {t : IntTable} {k j : ℤ} {e : ℤ × ℤ} {listed listed' : List ℤ}
  {ts cards skills : List IntTable}

@[simp] theorem amount_nil : amount [] k = 0 := rfl

@[simp] theorem amount_cons : amount (e :: t) k = (if e.1 = k then e.2 else 0) + amount t k := by
  simp [amount]

@[simp] theorem amount_append (t' : IntTable) :
    amount (t ++ t') k = amount t k + amount t' k := by simp [amount]

@[simp] theorem ids_nil : ids [] = [] := rfl

@[simp] theorem ids_cons : ids (e :: t) = e.1 :: ids t := rfl

@[simp] theorem ids_append (t' : IntTable) : ids (t ++ t') = ids t ++ ids t' := List.map_append

/-! ## What the loops do to the report -/

theorem raiseEntry_eq_none : raiseEntry k r = none ↔ k ∉ ids r := by
  induction r with
  | nil => simp [raiseEntry]
  | cons e r ih =>
      by_cases he : e.1 = k
      · simp [raiseEntry, he]
      · simp [raiseEntry, he, ih, Ne.symm he]

theorem raiseEntry_eq_some (h : raiseEntry k r = some r') :
    ids r' = ids r ∧ ∀ j, amount r' j = amount r j + if k = j then 1 else 0 := by
  induction r generalizing r' with
  | nil => cases h
  | cons e r ih =>
      by_cases he : e.1 = k
      · rw [raiseEntry, if_pos he, Option.some.injEq] at h
        subst h he
        refine ⟨rfl, fun j => ?_⟩
        simp only [amount_cons]
        split <;> ring
      · rw [raiseEntry, if_neg he] at h
        obtain ⟨r'', hr'', rfl⟩ := Option.map_eq_some_iff.mp h
        obtain ⟨hids, hamount⟩ := ih hr''
        exact ⟨by simp [hids], fun j => by simp [hamount j, add_assoc]⟩

theorem mem_of_raiseEntry (h : raiseEntry k r = some r') : k ∈ ids r := by
  by_contra hk
  rw [raiseEntry_eq_none.mpr hk] at h
  cases h

/-- A report grows by the items `new`, and counts what `t` has but for `left`. -/
structure Reported (r r' : Report) (new : List ℤ) (left t : IntTable) : Prop where
  nodup : (ids r).Nodup → (ids r').Nodup
  mem : ∀ k, k ∈ ids r' ↔ k ∈ ids r ∨ k ∈ new
  amount : ∀ k, amount r' k + amount left k = amount r k + amount t k

namespace Reported

variable {r'' : Report} {new new' : List ℤ} {left left' t' : IntTable}

theorem refl (r : Report) : Reported r r [] [] [] := ⟨id, fun k => by simp, fun k => rfl⟩

theorem trans (h : Reported r r' new left t) (h' : Reported r' r'' new' left' t') :
    Reported r r'' (new ++ new') (left ++ left') (t ++ t') where
  nodup hr := h'.nodup (h.nodup hr)
  mem k := by rw [h'.mem, h.mem, List.mem_append, or_assoc]
  amount k := by
    have hk := h.amount k
    have hk' := h'.amount k
    simp only [amount_append]
    linarith

/-- It does not matter whether an item that is listed already stands among the new ones. -/
theorem mem_new (h : Reported r r' new left t) (hnew : ∀ k, k ∉ ids r → (k ∈ new ↔ k ∈ new')) :
    Reported r r' new' left t where
  nodup := h.nodup
  mem k := by
    rw [h.mem]
    by_cases hk : k ∈ ids r
    · simp [hk]
    · simp [hk, hnew k hk]
  amount := h.amount

theorem enter (he : e.1 ∉ ids r) : Reported r (r ++ [e]) [e.1] [] [e] where
  nodup hr := by
    rw [ids_append]
    apply hr.append (by simp)
    simpa using he
  mem k := by simp
  amount k := by simp

theorem again (h : raiseEntry e.1 r = some r') : Reported r r' [] [(e.1, e.2 - 1)] [e] where
  nodup hr := by rwa [(raiseEntry_eq_some h).1]
  mem k := by simp [(raiseEntry_eq_some h).1]
  amount k := by
    rw [(raiseEntry_eq_some h).2]
    simp only [amount_cons, amount_nil]
    split <;> ring

theorem drop (r : Report) (e : ℤ × ℤ) : Reported r r [] [e] [e] := ⟨id, by simp, fun _ => rfl⟩

end Reported

theorem cardExtra_congr (h : ∀ e ∈ t, e.1 ∈ listed ↔ e.1 ∈ listed') :
    cardExtra listed t = cardExtra listed' t := by
  unfold cardExtra
  rw [List.filter_congr fun e he => decide_eq_decide.mpr (h e he)]

theorem takeWhile_congr (h : ∀ e ∈ t, e.1 ∈ listed ↔ e.1 ∈ listed') :
    t.takeWhile (fun e => e.1 ∉ listed) = t.takeWhile fun e => e.1 ∉ listed' := by
  induction t with
  | nil => rfl
  | cons e t ih =>
      have ht := ih fun e' he' => h e' (List.mem_cons_of_mem e he')
      have he := h e List.mem_cons_self
      simp only [List.takeWhile_cons, he, ht]

theorem skillExtra_congr (h : ∀ e ∈ t, e.1 ∈ listed ↔ e.1 ∈ listed') :
    skillExtra listed t = skillExtra listed' t := by
  induction t with
  | nil => rfl
  | cons e t ih =>
      have ht := ih fun e' he' => h e' (List.mem_cons_of_mem e he')
      have he := h e List.mem_cons_self
      unfold skillExtra at ht ⊢
      by_cases hlisted : e.1 ∈ listed'
      · simp only [List.dropWhile_cons, he, hlisted, not_true, decide_false, Bool.false_eq_true,
          if_false]
        apply List.map_congr_left
        intro e' he'
        simp only [h e' he']
      · simpa [List.dropWhile_cons, he, hlisted] using ht

/-- Where an item has just been listed that a table does not have. -/
theorem mem_ids_snoc (hnew : e.1 ∉ ids t) : ∀ e' ∈ t, e'.1 ∈ ids r ↔ e'.1 ∈ ids (r ++ [e]) := by
  intro e' he'
  have hne : e'.1 ≠ e.1 := by
    intro heq
    exact hnew (heq ▸ List.mem_map_of_mem he')
  simp [hne]

theorem reported_reportCards (ht : (ids t).Nodup) :
    Reported r (reportCards r t) (ids t) (cardExtra (ids r) t) t := by
  induction t generalizing r with
  | nil => exact Reported.refl r
  | cons e t ih =>
      obtain ⟨hnew, ht⟩ := List.nodup_cons.mp ht
      change Reported r (reportCards (reportCard r e) t) _ _ _
      cases h : raiseEntry e.1 r with
      | none =>
          have he : e.1 ∉ ids r := raiseEntry_eq_none.mp h
          have hstep : reportCard r e = r ++ [e] := by rw [reportCard, h, Option.getD_none]
          have hextra : cardExtra (ids r) (e :: t) = cardExtra (ids (r ++ [e])) t := by
            rw [← cardExtra_congr (mem_ids_snoc hnew)]
            simp [cardExtra, he]
          rw [hstep, hextra]
          exact (Reported.enter he).trans (ih ht)
      | some r' =>
          have he : e.1 ∈ ids r := mem_of_raiseEntry h
          have hstep : reportCard r e = r' := by rw [reportCard, h, Option.getD_some]
          have hextra : cardExtra (ids r) (e :: t) = (e.1, e.2 - 1) :: cardExtra (ids r') t := by
            rw [(raiseEntry_eq_some h).1]
            simp [cardExtra, he]
          rw [hstep, hextra]
          apply ((Reported.again h).trans (ih ht)).mem_new
          intro k hk
          have hne : k ≠ e.1 := by
            rintro rfl
            exact hk he
          simp [hne]

/-- The items of a package of skills behind the first that is listed. -/
theorem reported_hit (t : IntTable) (r : Report) :
    Reported r (t.foldl reportSkill (r, true)).1 []
      (t.map fun e => if e.1 ∈ ids r then (e.1, e.2 - 1) else e) t := by
  induction t generalizing r with
  | nil => exact Reported.refl r
  | cons e t ih =>
      rw [List.foldl_cons, List.map_cons]
      cases h : raiseEntry e.1 r with
      | none =>
          have hstep : reportSkill (r, true) e = (r, true) := by simp [reportSkill, h]
          rw [hstep, if_neg (raiseEntry_eq_none.mp h)]
          exact (Reported.drop r e).trans (ih r)
      | some r' =>
          have he : e.1 ∈ ids r := mem_of_raiseEntry h
          have hstep : reportSkill (r, true) e = (r', true) := by simp [reportSkill, h]
          have hids := (raiseEntry_eq_some h).1
          rw [hstep, if_pos he, ← hids]
          exact (Reported.again h).trans (ih r')

theorem reported_reportSkills (ht : (ids t).Nodup) :
    Reported r (reportSkills r t) (ids (t.takeWhile fun e => e.1 ∉ ids r)) (skillExtra (ids r) t)
      t := by
  induction t generalizing r with
  | nil => exact Reported.refl r
  | cons e t ih =>
      obtain ⟨hnew, ht⟩ := List.nodup_cons.mp ht
      rw [reportSkills, List.foldl_cons]
      cases h : raiseEntry e.1 r with
      | none =>
          have he : e.1 ∉ ids r := raiseEntry_eq_none.mp h
          have hstep : reportSkill (r, false) e = (r ++ [e], false) := by simp [reportSkill, h]
          have htake : (e :: t).takeWhile (fun e => e.1 ∉ ids r) =
              e :: t.takeWhile fun e' => e'.1 ∉ ids (r ++ [e]) := by
            rw [← takeWhile_congr (mem_ids_snoc hnew)]
            simp [he]
          have hextra : skillExtra (ids r) (e :: t) = skillExtra (ids (r ++ [e])) t := by
            rw [← skillExtra_congr (mem_ids_snoc hnew)]
            simp [skillExtra, he]
          rw [hstep, htake, hextra]
          exact (Reported.enter he).trans (ih ht)
      | some r' =>
          have he : e.1 ∈ ids r := mem_of_raiseEntry h
          have hstep : reportSkill (r, false) e = (r', true) := by simp [reportSkill, h]
          have htake : (e :: t).takeWhile (fun e => e.1 ∉ ids r) = [] := by
            simp [he]
          have hextra : skillExtra (ids r) (e :: t) =
              (e.1, e.2 - 1) :: t.map fun e => if e.1 ∈ ids r' then (e.1, e.2 - 1) else e := by
            rw [(raiseEntry_eq_some h).1]
            simp [skillExtra, he]
          rw [hstep, htake, hextra]
          exact (Reported.again h).trans (reported_hit t r')

theorem reported_cards (hts : ∀ t ∈ ts, (ids t).Nodup) (hlisted : ∀ k, k ∈ listed ↔ k ∈ ids r) :
    Reported r (ts.foldl reportCards r) (ids ts.flatten) (cardsExtra listed ts) ts.flatten := by
  induction ts generalizing r listed with
  | nil => exact Reported.refl r
  | cons t ts ih =>
      have ht : (ids t).Nodup := hts t List.mem_cons_self
      have hfirst := reported_reportCards (r := r) ht
      have hnext (k : ℤ) : k ∈ listed ++ ids t ↔ k ∈ ids (reportCards r t) := by
        rw [hfirst.mem, List.mem_append, hlisted]
      have hrest := ih (fun t' ht' => hts t' (List.mem_cons_of_mem t ht')) hnext
      rw [List.foldl_cons, List.flatten_cons, ids_append, cardsExtra,
        cardExtra_congr fun e _ => hlisted e.1]
      exact hfirst.trans hrest

theorem reported_skills (hts : ∀ t ∈ ts, (ids t).Nodup) (hlisted : ∀ k, k ∈ listed ↔ k ∈ ids r) :
    ∃ new, Reported r (ts.foldl reportSkills r) new (skillsExtra listed ts) ts.flatten := by
  induction ts generalizing r listed with
  | nil => exact ⟨[], Reported.refl r⟩
  | cons t ts ih =>
      have ht : (ids t).Nodup := hts t List.mem_cons_self
      have hfirst := reported_reportSkills (r := r) ht
      rw [← takeWhile_congr fun e _ => hlisted e.1] at hfirst
      have hnext (k : ℤ) : k ∈ listed ++ ids (t.takeWhile fun e => e.1 ∉ listed) ↔
          k ∈ ids (reportSkills r t) := by
        rw [hfirst.mem, List.mem_append, hlisted]
      obtain ⟨new, hrest⟩ := ih (fun t' ht' => hts t' (List.mem_cons_of_mem t ht')) hnext
      rw [List.foldl_cons, List.flatten_cons, skillsExtra, skillExtra_congr fun e _ => hlisted e.1]
      exact ⟨_, hfirst.trans hrest⟩

/-! ## The tables that are drawn -/

theorem ids_drawItem {lv v : ℤ} {i i' : ℕ} {t' : IntTable} (ht : (ids t).Nodup)
    (h : drawItem env lv t v i = some (t', i')) : (ids t').Nodup := by
  unfold drawItem at h
  cases hdrop : env.data.itemDropPackage v with
  | none =>
      rw [hdrop] at h
      cases h
  | some drop =>
      rw [hdrop] at h
      dsimp only at h
      split at h
      · obtain ⟨⟨rd, i₁⟩, -, h⟩ := Option.bind_eq_some_iff.mp h
        cases hfind : (filterdrops lv 0 drop).find? fun q => q.n32Rate ≥ rd with
        | none =>
          simp only [hfind] at h
          cases h
        | some row =>
          simp only [hfind] at h
          obtain ⟨⟨itemNum, i₂⟩, -, h⟩ := Option.bind_eq_some_iff.mp h
          cases h
          exact IntTable.nodup_add _ _ ht
      · cases h
        exact ht

theorem foldlM_draw {α β : Type} {P : β → Prop} {f : β → α → Draw β} {l : List α} {b b' : β}
    {i i' : ℕ} (hstep : ∀ b a i b' i', P b → f b a i = some (b', i') → P b') (hb : P b)
    (h : l.foldlM f b i = some (b', i')) : P b' := by
  induction l generalizing b i with
  | nil =>
      cases h
      exact hb
  | cons a l ih =>
      rw [List.foldlM_cons] at h
      obtain ⟨⟨b₁, i₁⟩, ha, h⟩ := Option.bind_eq_some_iff.mp h
      exact ih (hstep b a i b₁ i₁ hb ha) h

theorem ids_usePackageItem {itemId lv : ℤ} {i i' : ℕ}
    (h : usePackageItem env itemId lv i = some (t, i')) : (ids t).Nodup := by
  unfold usePackageItem at h
  cases hitem : env.data.itemRepository itemId with
  | none =>
      rw [hitem] at h
      cases h
  | some itemDat =>
      rw [hitem] at h
      dsimp only at h
      split at h
      · cases h
        exact List.nodup_nil
      · obtain ⟨⟨pkgIds, i₁⟩, -, h⟩ := Option.bind_eq_some_iff.mp h
        have hstep (t : IntTable) (v : ℤ) (i : ℕ) (t' : IntTable) (i' : ℕ) (ht : (ids t).Nodup) :
            drawItem env lv t v i = some (t', i') → (ids t').Nodup := ids_drawItem ht
        exact foldlM_draw (P := fun t : IntTable => (ids t).Nodup) (b := []) hstep List.nodup_nil h

theorem openEach_eq_some {report : Report → IntTable → Report} {itemId : ℤ} {n : ℕ}
    {granted : List IntTable}
    (h : openEach env report itemId n r user = some ((r', granted), user')) :
    r' = (granted.map env.pairs).foldl report r ∧ ∀ t ∈ granted, (ids t).Nodup := by
  induction n generalizing r user granted with
  | zero =>
      cases h
      exact ⟨rfl, by simp⟩
  | succ n ih =>
      obtain ⟨⟨rets, user₁⟩, hrets, hadd⟩ := Option.bind_eq_some_iff.mp h
      obtain ⟨⟨_, user₂⟩, -, heach⟩ := Option.bind_eq_some_iff.mp hadd
      obtain ⟨⟨⟨r₁, granted₁⟩, user₃⟩, hrest, hreply⟩ := Option.bind_eq_some_iff.mp heach
      obtain ⟨⟨rets', i⟩, hdraw, hsame⟩ := Option.map_eq_some_iff.mp hrets
      obtain rfl : rets' = rets := congrArg Prod.fst hsame
      cases hreply
      obtain ⟨hr, hgranted⟩ := ih hrest
      refine ⟨hr, fun t ht => ?_⟩
      obtain rfl | ht := List.mem_cons.mp ht
      · exact ids_usePackageItem hdraw
      · exact hgranted t ht

theorem exploreEnd_eq_some (h : exploreEnd w q clock unit user = some (reply, user')) :
    reply.items = (reply.skills.map w.pairs).foldl reportSkills
      ((reply.cards.map w.pairs).foldl reportCards []) ∧
      ∀ t ∈ reply.cards ++ reply.skills, (ids t).Nodup := by
  unfold exploreEnd at h
  split at h
  · cases h
    exact ⟨rfl, by simp⟩
  · obtain ⟨exploreDat, -, h⟩ := Option.bind_eq_some_iff.mp h
    obtain ⟨score, -, h⟩ := Option.bind_eq_some_iff.mp h
    obtain ⟨⟨⟨r, cards⟩, user₂⟩, hcards, h₂⟩ := Option.bind_eq_some_iff.mp h
    obtain ⟨⟨⟨r', skills⟩, user₃⟩, hskills, h₃⟩ := Option.bind_eq_some_iff.mp h₂
    obtain ⟨⟨_, user₄⟩, -, hreply⟩ := Option.bind_eq_some_iff.mp h₃
    obtain ⟨hr, hcards⟩ := openEach_eq_some hcards
    obtain ⟨hr', hskills⟩ := openEach_eq_some hskills
    cases hreply
    refine ⟨by rw [hr', hr]; rfl, fun t ht => ?_⟩
    exact (List.mem_append.mp ht).elim (hcards t) (hskills t)

/-! ## When report and grant agree -/

theorem amount_perm {t' : IntTable} (h : t.Perm t') (k : ℤ) : amount t k = amount t' k :=
  (h.map _).sum_eq

/-- The order of `pairs` does not change what the tables have. -/
theorem amount_pairs (w : World) (ts : List IntTable) (k : ℤ) :
    amount (ts.map w.pairs).flatten k = amount ts.flatten k := by
  induction ts with
  | nil => rfl
  | cons t ts ih =>
      simp only [List.map_cons, List.flatten_cons, amount_append, ih,
        amount_perm (w.pairs_perm t) k]

theorem ids_pairs (w : World) (h : ∀ t ∈ ts, (ids t).Nodup) :
    ∀ t ∈ ts.map w.pairs, (ids t).Nodup := by
  intro t ht
  obtain ⟨t', ht', rfl⟩ := List.mem_map.mp ht
  exact (((w.pairs_perm t').map Prod.fst).nodup_iff).mpr (h t' ht')

/-- Report and grant differ by the extra of the tables. -/
theorem reported_exploreEnd (h : exploreEnd w q clock unit user = some (reply, user')) :
    (ids reply.items).Nodup ∧ ∀ k,
      amount reply.items k + amount (extra (reply.cards.map w.pairs) (reply.skills.map w.pairs)) k =
        amount (reply.cards ++ reply.skills).flatten k := by
  obtain ⟨hitems, htables⟩ := exploreEnd_eq_some h
  have hcards : Reported [] ((reply.cards.map w.pairs).foldl reportCards [])
      (ids (reply.cards.map w.pairs).flatten) (cardsExtra [] (reply.cards.map w.pairs))
      (reply.cards.map w.pairs).flatten :=
    reported_cards (ids_pairs w fun t ht => htables t (List.mem_append_left _ ht)) fun k => Iff.rfl
  have hlisted (k : ℤ) : k ∈ ids (reply.cards.map w.pairs).flatten ↔
      k ∈ ids ((reply.cards.map w.pairs).foldl reportCards []) := by
    rw [hcards.mem, ids_nil]
    simp
  obtain ⟨new, hskills⟩ := reported_skills
    (ids_pairs w fun t ht => htables t (List.mem_append_right _ ht)) hlisted
  have hboth := hcards.trans hskills
  rw [← hitems] at hboth
  refine ⟨hboth.nodup List.nodup_nil, fun k => ?_⟩
  have hk := hboth.amount k
  simp only [amount_append, amount_pairs, amount_nil, zero_add] at hk
  rw [List.flatten_append, amount_append, extra, amount_append]
  exact hk

/-- The reply agrees with what went to `addItems` exactly when the tables have nothing extra. -/
theorem exploreEnd_agrees_iff (h : exploreEnd w q clock unit user = some (reply, user')) :
    Agrees reply.items (reply.cards ++ reply.skills) ↔
      ∀ k, amount (extra (reply.cards.map w.pairs) (reply.skills.map w.pairs)) k = 0 := by
  obtain ⟨hnodup, hamount⟩ := reported_exploreEnd h
  constructor
  · intro hagrees k
    have hk := hamount k
    rw [hagrees.amount k] at hk
    linarith
  · intro hnone
    refine ⟨hnodup, fun k => ?_⟩
    have hk := hamount k
    rw [hnone k] at hk
    linarith

/-! ## Packages that count at least one of each item -/

/-- An item that was listed before comes alone. -/
def CardsOrderly : List ℤ → List IntTable → Prop
  | _, [] => True
  | listed, t :: ts =>
    (∀ e ∈ t, e.1 ∈ listed → e.2 = 1) ∧ CardsOrderly (listed ++ ids t) ts

/-- An item that was listed before comes alone, and no new item stands behind it. -/
def SkillsOrderly : List ℤ → List IntTable → Prop
  | _, [] => True
  | listed, t :: ts =>
    ((∀ e ∈ t, e.1 ∈ listed → e.2 = 1) ∧
      t.Pairwise fun e e' => e.1 ∈ listed → e'.1 ∈ listed) ∧ SkillsOrderly (listed ++ ids t) ts

theorem amount_nonneg (ht : ∀ e ∈ t, 0 ≤ e.2) (k : ℤ) : 0 ≤ amount t k := by
  apply List.sum_nonneg
  intro n hn
  obtain ⟨e, he, rfl⟩ := List.mem_map.mp hn
  split
  · exact ht e he
  · exact le_rfl

theorem amount_eq_zero_iff (ht : ∀ e ∈ t, 0 ≤ e.2) :
    (∀ k, amount t k = 0) ↔ ∀ e ∈ t, e.2 = 0 := by
  induction t with
  | nil => simp
  | cons e t ih =>
      obtain ⟨he, ht⟩ := List.forall_mem_cons.mp ht
      rw [List.forall_mem_cons, ← ih ht]
      constructor
      · intro h
        have hself := h e.1
        have hrest := amount_nonneg ht e.1
        rw [amount_cons, if_pos rfl] at hself
        refine ⟨by linarith, fun k => ?_⟩
        have hk := h k
        have hkrest := amount_nonneg ht k
        rw [amount_cons] at hk
        split at hk <;> linarith
      · rintro ⟨hzero, hrest⟩ k
        simp [hzero, hrest k]

theorem cardExtra_eq_zero_iff :
    (∀ e ∈ cardExtra listed t, e.2 = 0) ↔ ∀ e ∈ t, e.1 ∈ listed → e.2 = 1 := by
  simp only [cardExtra, List.forall_mem_map, List.mem_filter, decide_eq_true_eq, and_imp,
    sub_eq_zero]

theorem skillExtra_eq_zero_iff (ht : ∀ e ∈ t, 1 ≤ e.2) :
    (∀ e ∈ skillExtra listed t, e.2 = 0) ↔
      (∀ e ∈ t, e.1 ∈ listed → e.2 = 1) ∧
        t.Pairwise fun e e' => e.1 ∈ listed → e'.1 ∈ listed := by
  induction t with
  | nil => simp [skillExtra]
  | cons e t ih =>
      obtain ⟨he, ht⟩ := List.forall_mem_cons.mp ht
      rw [List.forall_mem_cons, List.pairwise_cons]
      by_cases hlisted : e.1 ∈ listed
      · have hextra : skillExtra listed (e :: t) =
            (e :: t).map fun e => if e.1 ∈ listed then (e.1, e.2 - 1) else e := by
          simp [skillExtra, hlisted]
        rw [hextra, List.forall_mem_map, List.forall_mem_cons, if_pos hlisted, sub_eq_zero]
        constructor
        · rintro ⟨hone, hrest⟩
          have hall (e' : ℤ × ℤ) (he' : e' ∈ t) : e'.1 ∈ listed ∧ e'.2 = 1 := by
            have hzero := hrest e' he'
            split at hzero
            · exact ⟨‹_›, sub_eq_zero.mp hzero⟩
            · have hpos := ht e' he'
              omega
          refine ⟨⟨fun _ => hone, fun e' he' _ => (hall e' he').2⟩,
            fun e' he' _ => (hall e' he').1, ?_⟩
          apply List.pairwise_of_forall_mem_list
          intro _ _ e' he' _
          exact (hall e' he').1
        · rintro ⟨⟨hone, hrest⟩, hlater, -⟩
          refine ⟨hone hlisted, fun e' he' => ?_⟩
          have hlisted' := hlater e' he' hlisted
          rw [if_pos hlisted']
          exact sub_eq_zero.mpr (hrest e' he' hlisted')
      · have hextra : skillExtra listed (e :: t) = skillExtra listed t := by
          simp [skillExtra, hlisted]
        rw [hextra, ih ht]
        simp [hlisted]

theorem skillsExtra_congr (h : ∀ k, k ∈ listed ↔ k ∈ listed') :
    skillsExtra listed ts = skillsExtra listed' ts := by
  induction ts generalizing listed listed' with
  | nil => rfl
  | cons t ts ih =>
      rw [skillsExtra, skillsExtra, skillExtra_congr fun e _ => h e.1,
        takeWhile_congr fun e _ => h e.1]
      congr 1
      apply ih
      intro k
      rw [List.mem_append, List.mem_append, h k]

/-- Where nothing new stands behind a listed item, the new items are those before the first. -/
theorem mem_listed_iff (h : t.Pairwise fun e e' => e.1 ∈ listed → e'.1 ∈ listed) (k : ℤ) :
    k ∈ listed ++ ids (t.takeWhile fun e => e.1 ∉ listed) ↔ k ∈ listed ++ ids t := by
  induction t with
  | nil => rfl
  | cons e t ih =>
      obtain ⟨hlater, h⟩ := List.pairwise_cons.mp h
      by_cases hlisted : e.1 ∈ listed
      · have hall : k ∈ ids (e :: t) → k ∈ listed := by
          intro hk
          obtain ⟨e', he', rfl⟩ := List.mem_map.mp hk
          obtain rfl | he' := List.mem_cons.mp he'
          · exact hlisted
          · exact hlater e' he' hlisted
        simp only [List.takeWhile_cons, hlisted, not_true, decide_false, Bool.false_eq_true,
          if_false, ids_nil, List.append_nil, List.mem_append]
        exact ⟨Or.inl, fun hk => hk.elim id hall⟩
      · have ht := ih h
        simp only [List.mem_append] at ht ⊢
        simp only [List.takeWhile_cons, hlisted, not_false_eq_true, decide_true, if_true, ids_cons,
          List.mem_cons]
        tauto

theorem cardsExtra_eq_zero_iff :
    (∀ e ∈ cardsExtra listed ts, e.2 = 0) ↔ CardsOrderly listed ts := by
  induction ts generalizing listed with
  | nil => simp [cardsExtra, CardsOrderly]
  | cons t ts ih =>
      rw [cardsExtra, List.forall_mem_append, cardExtra_eq_zero_iff, ih, CardsOrderly]

theorem skillsExtra_eq_zero_iff (hts : ∀ t ∈ ts, ∀ e ∈ t, 1 ≤ e.2) :
    (∀ e ∈ skillsExtra listed ts, e.2 = 0) ↔ SkillsOrderly listed ts := by
  induction ts generalizing listed with
  | nil => simp [skillsExtra, SkillsOrderly]
  | cons t ts ih =>
      obtain ⟨ht, hts⟩ := List.forall_mem_cons.mp hts
      rw [skillsExtra, List.forall_mem_append, skillExtra_eq_zero_iff ht, SkillsOrderly]
      apply and_congr_right
      rintro ⟨-, hpairwise⟩
      rw [skillsExtra_congr (mem_listed_iff hpairwise), ih hts]

theorem cardsExtra_nonneg (hts : ∀ t ∈ ts, ∀ e ∈ t, 1 ≤ e.2) :
    ∀ e ∈ cardsExtra listed ts, 0 ≤ e.2 := by
  induction ts generalizing listed with
  | nil => simp [cardsExtra]
  | cons t ts ih =>
      obtain ⟨ht, hts⟩ := List.forall_mem_cons.mp hts
      rw [cardsExtra, List.forall_mem_append]
      refine ⟨?_, ih hts⟩
      simp only [cardExtra, List.forall_mem_map, List.mem_filter]
      intro e he
      have := ht e he.1
      omega

theorem skillsExtra_nonneg (hts : ∀ t ∈ ts, ∀ e ∈ t, 1 ≤ e.2) :
    ∀ e ∈ skillsExtra listed ts, 0 ≤ e.2 := by
  induction ts generalizing listed with
  | nil => simp [skillsExtra]
  | cons t ts ih =>
      obtain ⟨ht, hts⟩ := List.forall_mem_cons.mp hts
      rw [skillsExtra, List.forall_mem_append]
      refine ⟨?_, ih hts⟩
      simp only [skillExtra, List.forall_mem_map]
      intro e he
      have := ht e (List.dropWhile_subset _ he)
      split
      · simp only
        omega
      · omega

theorem pos_pairs (w : World) (h : ∀ t ∈ ts, ∀ e ∈ t, 1 ≤ e.2) :
    ∀ t ∈ ts.map w.pairs, ∀ e ∈ t, 1 ≤ e.2 := by
  intro t ht e he
  obtain ⟨t', ht', rfl⟩ := List.mem_map.mp ht
  exact h t' ht' e ((w.pairs_perm t').mem_iff.mp he)

/-- Where every package has at least one of each of its items. -/
theorem exploreEnd_agrees_iff_of_pos (h : exploreEnd w q clock unit user = some (reply, user'))
    (hpos : ∀ t ∈ reply.cards ++ reply.skills, ∀ e ∈ t, 1 ≤ e.2) :
    Agrees reply.items (reply.cards ++ reply.skills) ↔
      CardsOrderly [] (reply.cards.map w.pairs) ∧
        SkillsOrderly (ids (reply.cards.map w.pairs).flatten) (reply.skills.map w.pairs) := by
  have hcards := pos_pairs w fun t ht => hpos t (List.mem_append_left _ ht)
  have hskills := pos_pairs w fun t ht => hpos t (List.mem_append_right _ ht)
  rw [exploreEnd_agrees_iff h, amount_eq_zero_iff, extra, List.forall_mem_append,
    cardsExtra_eq_zero_iff, skillsExtra_eq_zero_iff hskills]
  rw [extra, List.forall_mem_append]
  exact ⟨cardsExtra_nonneg hcards, skillsExtra_nonneg hskills⟩

/-! ## Two packages of gold -/

/-- The only hero. -/
def ranger (id : ℤ) : Option HeroDat := if id = 100 then some ⟨⟨2, 1⟩, 0, 0, 0, 0⟩ else none

/-- A package of cards with gold in it. -/
def grove (n : ℤ) : World := { (default : World) with
  itemRepository := fun k =>
    if k = 70001 then some ⟨4, 0, [(1, 1)]⟩ else if k = 5 then some ⟨5, 0, []⟩ else none
  dropPackage := fun _ => some ⟨[⟨1, 1, 1, 1⟩], 1⟩
  itemDropPackage := fun _ => some [⟨5, 1, n, n, 1, 9⟩]
  heroRepository := fun id => (ranger id).map HeroDat.toHeroRow
  heroDat := ranger
  hero_row := fun _ => rfl
  skill_row := default_skill_row }

/-- Two packages for whatever score. -/
def twoPackages : ExploreData := { library with
  gains := fun _ score => if score = 0 then ⟨0, 0, 0⟩ else ⟨2, 0, 5⟩ }

/-- A player with one card, and his exploration with it. -/
def explorer : User := { (default : User) with
  cards := [{ uuid := "c", dataId := 100, count := 0, skills := [] }] }

def journey : Explore where
  dataId := 10001
  slots i := ⟨0, 1, if i.val = 0 then "c" else ""⟩
  time := 500

theorem exploreEnd_agrees_single :
    ∃ reply user', exploreEnd (grove 1) twoPackages ⟨1000, 86400, 86400⟩ journey explorer =
        some (reply, user') ∧ reply.items = [(5, 2)] ∧
      Agrees reply.items (reply.cards ++ reply.skills) := by
  have hrun : ∃ reply user',
      exploreEnd (grove 1) twoPackages ⟨1000, 86400, 86400⟩ journey explorer =
        some (reply, user') ∧ reply.items = [(5, 2)] ∧ reply.cards = [[(5, 1)], [(5, 1)]] ∧
      reply.skills = [] := ⟨_, _, rfl, rfl, rfl, rfl⟩
  obtain ⟨reply, user', hrun, hitems, hcards, hskills⟩ := hrun
  refine ⟨reply, user', hrun, hitems, (exploreEnd_agrees_iff hrun).mpr fun k => ?_⟩
  rw [hcards, hskills]
  change (if (5 : ℤ) = k then (0 : ℤ) else 0) + 0 = 0
  simp

/-- Two packages with two coins each are reported as three. -/
theorem exploreEnd_reports_three :
    ∃ reply user', exploreEnd (grove 2) twoPackages ⟨1000, 86400, 86400⟩ journey explorer =
        some (reply, user') ∧ reply.items = [(5, 3)] ∧
      amount (reply.cards ++ reply.skills).flatten 5 = 4 ∧
      ¬ Agrees reply.items (reply.cards ++ reply.skills) := by
  refine ⟨_, _, rfl, rfl, rfl, fun h => ?_⟩
  exact absurd (h.amount 5) (by decide)

end GameServer.Player.ExploreReport
