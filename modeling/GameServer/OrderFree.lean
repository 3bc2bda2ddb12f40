import GameServer.Credits
import GameServer.GrantBills

/-!
# Does a grant depend on the order?

The numbers of a grant do not depend on the order in which its tables are visited. A unit of a new
series is the one that is granted first, and packages are opened before the rest is handed out; so
the grant is the same in every order exactly when all units that may come first are one. A table
with an item without a row is left at that item, and what the packages before it hand out remains.
-/

namespace GameServer.GrantOrder

open Goods Agent OnePerSeries Upsert Credits

/-! ## The condition -/

/-- Cards or skills of one series. -/
def SameSeries : Good → Good → Prop
  | .card dataId, .card dataId' => Macro_GetCardSerialId dataId = Macro_GetCardSerialId dataId'
  | .skill dataId, .skill dataId' => Macro_GetSkillSerialId dataId = Macro_GetSkillSerialId dataId'
  | _, _ => False

/-- The player has the card or the skill of the series. -/
def Owned (u : User) : Good → Prop
  | .card dataId => Macro_GetCardSerialId dataId ∈ u.cards.map cardSeries
  | .skill dataId => Macro_GetSkillSerialId dataId ∈ u.skills.map skillSeries
  | _ => True

variable (env : Env) (opened : ℤ → IntTable) (items : IntTable)

/-- A package among the items hands out a good. -/
def FromPackage (good : Good) : Prop := ∃ k ∈ packages env items, Hands env (opened k) good

/-- The first grant of a series: from a package if one has the series, from the items otherwise. -/
def MayComeFirst (good : Good) : Prop :=
  FromPackage env opened items good ∨
    Hands env items good ∧ ∀ good', SameSeries good good' → ¬ FromPackage env opened items good'

/-- With all rows there, a new series has one unit that may come first; otherwise no package hands
out anything that is not full. -/
structure Settled (u : User) : Prop where
  first : Known env items → ∀ good good', MayComeFirst env opened items good →
    MayComeFirst env opened items good' → SameSeries good good' → ¬ Owned u good → good = good'
  full : ¬ Known env items → ∀ good, FromPackage env opened items good → Full env u good

/-- The grant leaves the same in every two orders, an error included. -/
def OrderFree (u : User) : Prop := ∀ o o', Option.Rel (fun r r' => Same r.2 r'.2)
  (grantItems env o opened items u) (grantItems env o' opened items u)

/-! ## Orders with a given start -/

/-- The entries of a key first. -/
def front (k : ℤ) (t : IntTable) : IntTable :=
  t.filter (fun e => e.1 = k) ++ t.filter fun e => !decide (e.1 = k)

/-- The item `k` first, and the card or the skill `d`. -/
def leading (k d : ℤ) : Orders where
  pairs _ walk t :=
    match walk with
    | .items => front k t
    | .cards | .skillMats => front d t
  perm _ walk t := by cases walk <;> exact List.filter_append_perm _ t

section Front

variable {env} {t : IntTable} {e : ℤ × ℤ} {k n : ℤ}

theorem front_eq (h : e ∈ t) : ∃ n rest, front e.1 t = (e.1, n) :: rest := by
  have hmem : e ∈ t.filter fun e' => e'.1 = e.1 := List.mem_filter.mpr ⟨h, decide_eq_true rfl⟩
  cases hfilter : t.filter fun e' => e'.1 = e.1 with
  | nil => exact absurd (hfilter ▸ hmem) List.not_mem_nil
  | cons e' rest =>
      have hhead : e' ∈ t.filter fun e' => e'.1 = e.1 := hfilter ▸ List.mem_cons_self
      have hkey : e'.1 = e.1 := of_decide_eq_true (List.mem_filter.mp hhead).2
      refine ⟨e'.2, rest ++ t.filter fun e' => !decide (e'.1 = e.1), ?_⟩
      rw [front, hfilter, List.cons_append, ← hkey]

theorem entries_front (h : (k, n) ∈ entries t) :
    ∃ m rest, entries (front k t) = (k, m) :: rest := by
  have hfront : entries (front k t) = front k (entries t) :=
    (List.filter_append ..).trans (congrArg₂ _ (List.filter_comm ..) (List.filter_comm ..))
  rw [hfront]
  exact front_eq h

end Front

/-! ## Cards and skills -/

/-- What cards and skills have in common. -/
structure Kind where
  good : ℤ → Good
  serial : ℤ → ℤ
  grant : Good × ℤ → Option (ℤ × ℤ)
  walk : Walk
  table : Gathered → IntTable
  grant_eq : ∀ e x, grant e = some x ↔ e = (good x.1, x.2)
  sameSeries : ∀ dataId good', SameSeries (good dataId) good' ↔
    ∃ dataId', good' = good dataId' ∧ serial dataId = serial dataId'
  leading : ∀ k d call t, (leading k d).pairs call walk t = front d t
  handed : ∀ o call g, (handed o call g).filterMap grant = entries (o.pairs call walk (table g))

theorem filterMap_if (f : Good × ℤ → Option (ℤ × ℤ)) {good : Good} (h : ∀ n, f (good, n) = none)
    (n : ℤ) : (if n > 0 then [(good, n)] else []).filterMap f = [] := by
  split_ifs
  · rw [List.filterMap_cons_none (h n)]
    rfl
  · rfl

theorem filterMap_map_good (f : Good × ℤ → Option (ℤ × ℤ)) {good : ℤ → Good}
    (h : ∀ x : ℤ × ℤ, f (good x.1, x.2) = some x) (t : IntTable) :
    (t.map fun e => (good e.1, e.2)).filterMap f = t := by
  rw [List.filterMap_map]
  exact (List.filterMap_congr fun x _ => h x).trans List.filterMap_some

theorem filterMap_map_none (f : Good × ℤ → Option (ℤ × ℤ)) {good : ℤ → Good}
    (h : ∀ x : ℤ × ℤ, f (good x.1, x.2) = none) (t : IntTable) :
    (t.map fun e => (good e.1, e.2)).filterMap f = [] := by
  rw [List.filterMap_map]
  exact List.filterMap_eq_nil_iff.mpr fun x _ => h x

def cardKind : Kind where
  good := .card
  serial := Macro_GetCardSerialId
  grant := cardGrant
  walk := .cards
  table := Gathered.cards
  grant_eq := cardGrant_eq_some
  sameSeries := by
    rintro d good'
    cases good' <;> simp [SameSeries]
  leading _ _ _ _ := rfl
  handed o call g := by
    unfold handed
    rw [List.filterMap_append, List.filterMap_append, List.filterMap_append,
      filterMap_if _ fun _ => rfl, filterMap_if _ fun _ => rfl, filterMap_map_good _ fun _ => rfl,
      filterMap_map_none _ fun _ => rfl, List.append_nil]
    rfl

def skillKind : Kind where
  good := .skill
  serial := Macro_GetSkillSerialId
  grant := skillGrant
  walk := .skillMats
  table := Gathered.skillMats
  grant_eq := skillGrant_eq_some
  sameSeries := by
    rintro d good'
    cases good' <;> simp [SameSeries]
  leading _ _ _ _ := rfl
  handed o call g := by
    unfold handed
    rw [List.filterMap_append, List.filterMap_append, List.filterMap_append,
      filterMap_if _ fun _ => rfl, filterMap_if _ fun _ => rfl, filterMap_map_none _ fun _ => rfl,
      filterMap_map_good _ fun _ => rfl]
    rfl

/-! ## What comes first -/

section First

variable {env opened items} {o : Orders} (K : Kind) {bill : Bill} {u : User} {k d n s : ℤ}
  {x : ℤ × ℤ}

/-- The grants of a series. -/
def Kind.series (s : ℤ) (bill : Bill) : List (ℤ × ℤ) :=
  (bill.filterMap K.grant).filter fun x => K.serial x.1 = s

variable {K}

theorem mem_series : x ∈ K.series s bill ↔ (K.good x.1, x.2) ∈ bill ∧ K.serial x.1 = s := by
  rw [Kind.series, List.mem_filter, List.mem_filterMap, decide_eq_true_eq]
  refine and_congr_left fun _ => ?_
  simp only [K.grant_eq]
  exact ⟨fun ⟨e, he, heq⟩ => heq ▸ he, fun h => ⟨_, h, rfl⟩⟩

theorem series_append (s : ℤ) (bill bill' : Bill) :
    K.series s (bill ++ bill') = K.series s bill ++ K.series s bill' := by
  unfold Kind.series
  rw [List.filterMap_append, List.filter_append]

/-- What a grant hands out first of a series may come first. -/
theorem mayComeFirst_of_head (hitems : Ints items) (hopened : ∀ k, Ints (opened k))
    (hknown : Known env items) (hx : x ∈ (K.series s (billOf env o opened items)).head?) :
    MayComeFirst env opened items (K.good x.1) := by
  have hperm := o.perm none .items items
  rw [billOf, (hknown.perm hperm.symm).visited, series_append, List.head?_append] at hx
  cases hpackages : K.series s (packageBills env o opened
      (packages env (o.pairs none .items items))) with
  | cons y rest =>
      rw [hpackages] at hx
      obtain rfl : y = x := Option.some.inj hx
      obtain ⟨hmem, -⟩ := mem_series.mp (hpackages ▸ List.mem_cons_self)
      obtain ⟨k, hk, hhands, -⟩ := (mem_packageBills hopened).mp hmem
      exact .inl ⟨k, (packages_perm hperm).mem_iff.mp hk, hhands⟩
  | nil =>
      rw [hpackages] at hx
      obtain ⟨hmem, hseries⟩ := mem_series.mp (List.mem_of_mem_head? hx)
      obtain ⟨-, hnumber, hpos⟩ := (mem_tableBill hitems).mp hmem
      refine .inr ⟨⟨hknown, hnumber ▸ hpos⟩, fun good' hsame hpackage => ?_⟩
      obtain ⟨d, rfl, hserial⟩ := (K.sameSeries x.1 good').mp hsame
      obtain ⟨k, hk, hhands⟩ := hpackage
      have hin : (K.good d, number env (opened k) (K.good d)) ∈ packageBills env o opened
          (packages env (o.pairs none .items items)) :=
        (mem_packageBills hopened).mpr ⟨k, (packages_perm hperm).mem_iff.mpr hk, hhands, rfl⟩
      have hin' : (d, number env (opened k) (K.good d)) ∈ K.series s (packageBills env o opened
          (packages env (o.pairs none .items items))) :=
        mem_series.mpr ⟨hin, hserial.symm.trans hseries⟩
      exact absurd (hpackages ▸ hin') List.not_mem_nil

/-- In the orders that start with it a table hands out a good first. -/
theorem series_tableBill (call : Option ℤ) (k : ℤ) {t : IntTable} (ht : Ints t)
    (h : Hands env t (K.good d)) : ∃ n rest,
      K.series (K.serial d) (tableBill env (leading k d) opened call t) = (d, n) :: rest := by
  have hmem : (K.good d, number env t (K.good d)) ∈ tableBill env (leading k d) opened call t :=
    (mem_tableBill ht).mpr ⟨h.1, rfl, h.2⟩
  have hgrant : (d, number env t (K.good d)) ∈
      (tableBill env (leading k d) opened call t).filterMap K.grant :=
    List.mem_filterMap.mpr ⟨_, hmem, (K.grant_eq _ _).mpr rfl⟩
  rw [Kind.series]
  rw [tableBill, if_pos h.1, K.handed, K.leading] at hgrant ⊢
  have hentry := (entries_perm (List.filter_append_perm _ _)).mem_iff.mp hgrant
  obtain ⟨m, rest, hfront⟩ := entries_front hentry
  rw [hfront]
  exact ⟨m, _, List.filter_cons_of_pos (decide_eq_true rfl)⟩

theorem visited_leading {e : ℤ × ℤ} (he : e ∈ items)
    (hrow : (env.data.itemRepository e.1).isSome = true) (d : ℤ) :
    ∃ n rest, visited env ((leading e.1 d).pairs none .items items) = (e.1, n) :: rest := by
  obtain ⟨n, rest, hfront⟩ := front_eq he
  refine ⟨n, visited env rest, ?_⟩
  change visited env (front e.1 items) = _
  rw [hfront]
  exact List.takeWhile_cons_of_pos hrow

theorem packages_leading (hk : k ∈ packages env items) (d : ℤ) : ∃ ks,
    packages env (visited env ((leading k d).pairs none .items items)) = k :: ks := by
  obtain ⟨hmem, hpackage⟩ := List.mem_filter.mp hk
  obtain ⟨e, he, rfl⟩ := List.mem_map.mp hmem
  have hrow : (env.data.itemRepository e.1).isSome = true := by
    unfold isPackage at hpackage
    cases hitem : env.data.itemRepository e.1 with
    | none =>
        rw [hitem] at hpackage
        cases hpackage
    | some item => rfl
  obtain ⟨n, rest, hvisited⟩ := visited_leading he hrow d
  rw [hvisited]
  exact ⟨_, List.filter_cons_of_pos hpackage⟩

/-- What may come first does so in some order. -/
theorem exists_head (hitems : Ints items) (hopened : ∀ k, Ints (opened k))
    (h : MayComeFirst env opened items (K.good d)) :
    ∃ o n, (d, n) ∈ (K.series (K.serial d) (billOf env o opened items)).head? := by
  obtain ⟨k, hk, hhands⟩ | ⟨hhands, hnone⟩ := h
  · obtain ⟨ks, hks⟩ := packages_leading hk d
    obtain ⟨n, rest, hseries⟩ := series_tableBill (some k) k (hopened k) hhands
    refine ⟨leading k d, n, ?_⟩
    rw [billOf, hks, packageBills, List.flatMap_cons, series_append, series_append, hseries]
    rfl
  · obtain ⟨n, rest, hseries⟩ := series_tableBill none 0 hitems hhands
    have hempty : ∀ ks, (∀ k ∈ ks, k ∈ packages env items) →
        K.series (K.serial d) (packageBills env (leading 0 d) opened ks) = [] := by
      intro ks hks
      refine List.eq_nil_iff_forall_not_mem.mpr fun x hx => ?_
      obtain ⟨hmem, hserial⟩ := mem_series.mp hx
      obtain ⟨k, hk, hhands', -⟩ := (mem_packageBills hopened).mp hmem
      exact hnone _ ((K.sameSeries d _).mpr ⟨x.1, rfl, hserial.symm⟩) ⟨k, hks k hk, hhands'⟩
    refine ⟨leading 0 d, n, ?_⟩
    rw [billOf, series_append, hempty _ fun k hk => ?_, hseries]
    · rfl
    · have hperm := (leading 0 d).perm none .items items
      rw [(hhands.1.perm hperm.symm).visited] at hk
      exact (packages_perm hperm).mem_iff.mp hk

end First

/-! ## Two orders -/

section Two

variable {env opened items} {u : User} (hitems : Ints items) (hopened : ∀ k, Ints (opened k))
  (hrows : HasRows env (whole env opened items))

theorem same_of_orderFree (hfree : OrderFree env opened items u) {o o' : Orders} {u₁ u₂ : User}
    (hrun : grantItems env o opened items u = some ((), u₁))
    (hrun' : grantItems env o' opened items u = some ((), u₂)) : Same u₁ u₂ := by
  have hrel := hfree o o'
  rw [hrun, hrun'] at hrel
  cases hrel with
  | some hsame => exact hsame

include hitems hopened

theorem numbers_billOf (o : Orders) : ∀ e ∈ billOf env o opened items, 0 < e.2 ∧ e.2 < 2 ^ 63 :=
  fun e he => numbers_whole hitems hopened e ((billOf_subperm hitems hopened).subset he)

include hrows

variable (u) in
theorem granted (o : Orders) : ∃ u', grantItems env o opened items u = some ((), u') ∧
    Credited env (billOf env o opened items) u u' := by
  have hsub : (billOf env o opened items).Subperm (whole env opened items) :=
    billOf_subperm hitems hopened
  obtain ⟨u', hcredit, hcredited⟩ :=
    credited (hrows.mono hsub.subset) (numbers_billOf hitems hopened o) u
  exact ⟨u', (congrFun (grantItems_eq items) u).trans hcredit, hcredited⟩

/-- Two goods that may come first do so in two bills, which leave the same user. -/
theorem exists_bills (hfree : OrderFree env opened items u) (K : Kind) {d d' : ℤ}
    (hmay : MayComeFirst env opened items (K.good d))
    (hmay' : MayComeFirst env opened items (K.good d')) (hserial : K.serial d = K.serial d') :
    ∃ bill bill' u₁ u₂, ∃ e ∈ (K.series (K.serial d) bill).head?,
      ∃ e' ∈ (K.series (K.serial d) bill').head?, e.1 = d ∧ e'.1 = d' ∧
        Credited env bill u u₁ ∧ Credited env bill' u u₂ ∧ Same u₁ u₂ := by
  obtain ⟨o, n, hhead⟩ := exists_head hitems hopened hmay
  obtain ⟨o', n', hhead'⟩ := exists_head hitems hopened hmay'
  obtain ⟨u₁, hrun, hcredited⟩ := granted u hitems hopened hrows o
  obtain ⟨u₂, hrun', hcredited'⟩ := granted u hitems hopened hrows o'
  rw [← hserial] at hhead'
  exact ⟨_, _, u₁, u₂, _, hhead, _, hhead', rfl, rfl, hcredited, hcredited',
    same_of_orderFree hfree hrun hrun'⟩

/-- With one order as good as another, one unit of a new series may come first, whatever the
numbers are. -/
theorem first_of_orderFree (hfree : OrderFree env opened items u) {good good' : Good}
    (hmay : MayComeFirst env opened items good) (hmay' : MayComeFirst env opened items good')
    (hseries : SameSeries good good') (hnew : ¬ Owned u good) : good = good' := by
  cases good with
  | card d =>
      obtain ⟨d', rfl, hserial⟩ := (cardKind.sameSeries d good').mp hseries
      obtain ⟨bill, bill', u₁, u₂, e, he, e', he', rfl, rfl, hcredited, hcredited', hsame⟩ :=
        exists_bills hitems hopened hrows hfree cardKind hmay hmay' hserial
      have hcards := hsame.cards
      rw [hcredited.cards, hcredited'.cards] at hcards
      have hnot : Macro_GetCardSerialId e.1 ∉ (u.cards.map nameless).map (cardTally env).key := by
        rwa [List.map_map]
      obtain ⟨m, n, hput⟩ := Tally.fresh_of_perm hcards hnot he he'
      exact congrArg Good.card (congrArg Card.dataId hput)
  | skill d =>
      obtain ⟨d', rfl, hserial⟩ := (skillKind.sameSeries d good').mp hseries
      obtain ⟨bill, bill', u₁, u₂, e, he, e', he', rfl, rfl, hcredited, hcredited', hsame⟩ :=
        exists_bills hitems hopened hrows hfree skillKind hmay hmay' hserial
      have hskills := hsame.skills
      rw [hcredited.skills, hcredited'.skills] at hskills
      have hnot : Macro_GetSkillSerialId e.1 ∉
          (u.skills.map namelessSkill).map (skillTally env).key := by
        rwa [List.map_map]
      obtain ⟨m, n, hput⟩ := Tally.fresh_of_perm hskills hnot he he'
      exact congrArg Good.skill (congrArg Skill.dataId hput)
  | gold | money | opening => exact hseries.elim

variable (h : Fits env (whole env opened items) u)

include h

theorem orderFree_of_settled (hsettled : Settled env opened items u) :
    OrderFree env opened items u := by
  intro o o'
  obtain ⟨u₁, hrun, hcredited⟩ := granted u hitems hopened hrows o
  obtain ⟨u₂, hrun', hcredited'⟩ := granted u hitems hopened hrows o'
  rw [hrun, hrun']
  refine .some ?_
  by_cases hknown : Known env items
  · have hperm := (billOf_perm (o := o) hitems hopened hknown).trans
      (billOf_perm (o := o') hitems hopened hknown).symm
    have halike : ∀ (K : Kind) s, (∀ d, K.serial d = s → ¬ Owned u (K.good d)) →
        ∀ e ∈ (K.series s (billOf env o opened items)).head?,
        ∀ e' ∈ (K.series s (billOf env o' opened items)).head?, K.good e.1 = K.good e'.1 := by
      intro K s hnew e he e' he'
      have hserial := (mem_series.mp (List.mem_of_mem_head? he)).2
      have hserial' := (mem_series.mp (List.mem_of_mem_head? he')).2
      exact hsettled.first hknown _ _ (mayComeFirst_of_head hitems hopened hknown he)
        (mayComeFirst_of_head hitems hopened hknown he')
        ((K.sameSeries _ _).mpr ⟨_, rfl, hserial.trans hserial'.symm⟩) (hnew _ hserial)
    refine same_of_perm (h.mono (billOf_subperm hitems hopened)) hperm hcredited hcredited'
      (fun s hs e he e' he' => ?_) fun s hs e he e' he' => ?_
    · have hnew : ∀ d, Macro_GetCardSerialId d = s → ¬ Owned u (.card d) := by
        rintro d rfl
        exact hs
      exact Good.card.inj (halike cardKind s hnew e he e' he')
    · have hnew : ∀ d, Macro_GetSkillSerialId d = s → ¬ Owned u (.skill d) := by
        rintro d rfl
        exact hs
      exact Good.skill.inj (halike skillKind s hnew e he e' he')
  · have hfull : ∀ o, ∀ e ∈ billOf env o opened items, Full env u e.1 := by
      rintro o ⟨good, n⟩ he
      have hperm := o.perm none .items items
      rw [billOf_of_unknown hknown] at he
      obtain ⟨k, hk, hhands, -⟩ := (mem_packageBills hopened).mp he
      have hvisited : k ∈ packages env (o.pairs none .items items) :=
        (((List.takeWhile_sublist _).map Prod.fst).filter _).subset hk
      exact hsettled.full hknown good ⟨k, (packages_perm hperm).mem_iff.mp hvisited, hhands⟩
    have hsame := (same_self_iff (h.mono (billOf_subperm hitems hopened))
      (fun e he => (numbers_billOf hitems hopened o e he).1) hcredited).mpr (hfull o)
    have hsame' := (same_self_iff (h.mono (billOf_subperm hitems hopened))
      (fun e he => (numbers_billOf hitems hopened o' e he).1) hcredited').mpr (hfull o')
    exact hsame.trans hsame'.symm

theorem settled_of_orderFree (hfree : OrderFree env opened items u) :
    Settled env opened items u := by
  constructor
  · intro _ good good' hmay hmay' hseries hnew
    exact first_of_orderFree hitems hopened hrows hfree hmay hmay' hseries hnew
  · rintro hunknown good ⟨k, hk, hhands⟩
    obtain ⟨e, he, hrow⟩ : ∃ e ∈ items, ¬ (env.data.itemRepository e.1).isSome = true := by
      simpa [Known] using hunknown
    have hnothing : billOf env (leading e.1 0) opened items = [] := by
      obtain ⟨n, rest, hfront⟩ := front_eq he
      have hvisited : visited env ((leading e.1 0).pairs none .items items) = [] := by
        change visited env (front e.1 items) = []
        rw [hfront]
        exact List.takeWhile_cons_of_neg hrow
      rw [billOf_of_unknown hunknown, hvisited]
      rfl
    have hstop : grantItems env (leading e.1 0) opened items u = some ((), u) := by
      rw [grantItems_eq, hnothing]
      rfl
    obtain ⟨u₁, hrun, hcredited⟩ := granted u hitems hopened hrows (leading k 0)
    have hfull := (same_self_iff (h.mono (billOf_subperm hitems hopened))
      (fun e he => (numbers_billOf hitems hopened _ e he).1) hcredited).mp
      (same_of_orderFree hfree hrun hstop)
    obtain ⟨ks, hks⟩ := packages_leading hk 0
    refine hfull (good, number env (opened k) good) ?_
    rw [billOf_of_unknown hunknown, hks]
    exact (mem_packageBills hopened).mpr ⟨k, List.mem_cons_self, hhands, rfl⟩

/-- The grant is the same in every order exactly when the first unit of every new series is
settled. -/
theorem orderFree_iff : OrderFree env opened items u ↔ Settled env opened items u :=
  ⟨settled_of_orderFree hitems hopened hrows h, orderFree_of_settled hitems hopened hrows h⟩

end Two

/-- The card items 110100 and 110101 are two colours of one hero. -/
def twoColours (first : ℤ) : Env := { quiet with
  data := { quiet.data with
    itemRepository := fun k => if k = 110100 ∨ k = 110101 then some ⟨3, k, []⟩ else none
    heroRepository := fun k =>
      if k = 110100 then some ⟨1, 1⟩ else if k = 110101 then some ⟨32, 1⟩ else none }
  pairs := front first
  pairs_perm := fun t => List.filter_append_perm _ t }

def oneOfEach : IntTable := [(110100, 1), (110101, 1)]

/-- A player without cards and skills. -/
def newcomer : User where
  account := ⟨⟨0, zero_balance⟩, ⟨0, zero_balance⟩, 0, 0, 0⟩
  cards := []
  skills := []
  activitys _ := none
  cooldowns _ := none
  level := 1

theorem whole_twoColours : whole (twoColours 110100) (fun _ => []) oneOfEach =
    [(.card 110100, 1), (.card 110101, 1)] := by decide

theorem hasRows_twoColours :
    HasRows (twoColours 110100) (whole (twoColours 110100) (fun _ => []) oneOfEach) := by
  rw [whole_twoColours]
  exact ⟨by decide, nofun⟩

theorem fits_newcomer :
    Fits (twoColours 110100) (whole (twoColours 110100) (fun _ => []) oneOfEach) newcomer := by
  rw [whole_twoColours]
  exact {
    gold := ⟨by decide, nofun, by decide⟩
    money := ⟨by decide, nofun, by decide⟩
    cards := Tally.bounded_nil (by decide) (by decide)
    skills := Tally.bounded_nil nofun (by decide) }

theorem orderFree_iff_newcomer :
    OrderFree (twoColours 110100) (fun _ => []) oneOfEach newcomer ↔
      Settled (twoColours 110100) (fun _ => []) oneOfEach newcomer :=
  orderFree_iff (fun e he => by revert e; decide) (fun _ => nofun) hasRows_twoColours
    fits_newcomer

/-- The colour that comes first decides which card a new player gets, and how many. -/
theorem not_orderFree_newcomer :
    (¬ ∀ env opened items u, (∀ e ∈ items, 0 < e.2) → OrderFree env opened items u) ∧
    (addItems (twoColours 110100) oneOfEach newcomer).map
        (fun r => r.2.cards.map fun v => (v.dataId, v.count)) = some [(110100, 33)] ∧
    (addItems (twoColours 110101) oneOfEach newcomer).map
        (fun r => r.2.cards.map fun v => (v.dataId, v.count)) = some [(110101, 1)] := by
  refine ⟨fun hall => ?_, by decide, by decide⟩
  have hfree := hall (twoColours 110100) (fun _ => []) oneOfEach newcomer (by decide)
    (leading 110100 110100) (leading 110101 110101)
  have hfirst : (grantItems (twoColours 110100) (leading 110100 110100) (fun _ => []) oneOfEach
      newcomer).map (fun r => r.2.cards.map Card.dataId) = some [110100] := by decide
  have hsecond : (grantItems (twoColours 110100) (leading 110101 110101) (fun _ => []) oneOfEach
      newcomer).map (fun r => r.2.cards.map Card.dataId) = some [110101] := by decide
  obtain ⟨r, hr, hids⟩ := Option.map_eq_some_iff.mp hfirst
  obtain ⟨r', hr', hids'⟩ := Option.map_eq_some_iff.mp hsecond
  rw [hr, hr'] at hfree
  cases hfree with
  | some hsame =>
      have hperm := hsame.cards.map Card.dataId
      rw [List.map_map, List.map_map] at hperm
      change (r.2.cards.map Card.dataId).Perm (r'.2.cards.map Card.dataId) at hperm
      rw [hids, hids'] at hperm
      exact absurd (List.singleton_perm_singleton.mp hperm) (by decide)

end GameServer.GrantOrder
