import GameServer.SpawnNpc
import Mathlib.Logic.Relation

/-!
# The cycle of a group

The history fixes a group: its last spawn is the batch it counts, the row that batch names is the
next one, and the remaining time is that batch's time less what the empty updates since then took.
Only monsters of the last spawn can be left of a group, because a spawn finds none of the batch
before it and no other group makes any of the same chain.
-/

namespace GameServer.SpawnNpc

open Transition

variable {resp : SpawnTable} {getHpMax : ℤ → ℚ} {mapId : ℤ}

/-- `n32NextBatch` of `a` is the id of `b`. -/
def Next (resp : SpawnTable) (a b : Row) : Prop := resp.get a.n32NextBatch = some b

/-- `b` is a batch of the group that starts at `a`. -/
def Chain (resp : SpawnTable) : Row → Row → Prop := Relation.ReflTransGen (Next resp)

/-- Batches of different groups have distinct ids. -/
def DistinctChains (resp : SpawnTable) (mapId : ℤ) : Prop :=
  ∀ (i j : ℕ) (a b : Row), i ≠ j → (Room.batches resp mapId)[i]? = some a →
    (Room.batches resp mapId)[j]? = some b → ∀ r r', Chain resp a r → Chain resp b r' → r.id ≠ r'.id

/-- The last spawn of a group; the newest visit is first. -/
def lastSpawn (i : ℕ) : List Visit → Option (Row × List SpawnMonster)
  | [] => none
  | .spawn j batch spawnList :: h => if j = i then some (batch, spawnList) else lastSpawn i h
  | .empty _ _ :: h => lastSpawn i h
  | .alive _ _ :: h => lastSpawn i h

/-- The `dt` of the updates that found the group empty since its last spawn. -/
def waited (i : ℕ) : List Visit → ℤ
  | [] => 0
  | .spawn j _ _ :: h => if j = i then 0 else waited i h
  | .empty j dt :: h => if j = i then dt + waited i h else waited i h
  | .alive _ _ :: h => waited i h

/-- The batch whose monsters the group's next update counts. -/
def currentBatch (row : Row) (i : ℕ) (h : List Visit) : Row :=
  ((lastSpawn i h).map Prod.fst).getD row

/-- `r` may be spawned: it is the group's first row, or the row after the last spawn's and that
batch's time is over. -/
def Due (resp : SpawnTable) (row : Row) (i : ℕ) (h : List Visit) (r : Row) : Prop :=
  match lastSpawn i h with
  | none => r = row
  | some (b, _) => Next resp b r ∧ b.n32CDTime * 1000 ≤ waited i h

section Visits

variable {i j : ℕ} {dt : ℤ} {r row : Row} {l : List SpawnMonster} {h : List Visit}

@[simp] theorem lastSpawn_spawn_self : lastSpawn i (.spawn i r l :: h) = some (r, l) := if_pos rfl

theorem lastSpawn_spawn_other (hj : j ≠ i) : lastSpawn i (.spawn j r l :: h) = lastSpawn i h :=
  if_neg hj

@[simp] theorem lastSpawn_empty : lastSpawn i (.empty j dt :: h) = lastSpawn i h := rfl

@[simp] theorem lastSpawn_alive : lastSpawn i (.alive j dt :: h) = lastSpawn i h := rfl

@[simp] theorem waited_spawn_self : waited i (.spawn i r l :: h) = 0 := if_pos rfl

theorem waited_spawn_other (hj : j ≠ i) : waited i (.spawn j r l :: h) = waited i h := if_neg hj

@[simp] theorem waited_empty_self : waited i (.empty i dt :: h) = dt + waited i h := if_pos rfl

theorem waited_empty_other (hj : j ≠ i) : waited i (.empty j dt :: h) = waited i h := if_neg hj

@[simp] theorem waited_alive : waited i (.alive j dt :: h) = waited i h := rfl

@[simp] theorem currentBatch_spawn_self : currentBatch row i (.spawn i r l :: h) = r := by
  simp [currentBatch]

end Visits

namespace Room

/-- What the history says of the fields of a group. -/
structure Kept (resp : SpawnTable) (row : Row) (i : ℕ) (h : List Visit) (v : Group) : Prop where
  dat : v.dat = currentBatch row i h
  chain : Chain resp row v.dat
  first : lastSpawn i h = none → v.nextdat = some row
  next : ∀ b l, lastSpawn i h = some (b, l) →
    v.nextdat = resp.get b.n32NextBatch ∧ v.remainTime = b.n32CDTime * 1000 - waited i h

/-- A monster of the group's chain belongs to its last spawn. -/
def Latest (i : ℕ) (h : List Visit) (e : Entity) : Prop :=
  ∃ b l, lastSpawn i h = some (b, l) ∧ e.batch = some b.id ∧
    e.serverId ∈ l.map SpawnMonster.serverId

def ofChain (resp : SpawnTable) (row : Row) (e : Entity) : Prop :=
  e.entityType = .monster ∧ ∃ r, Chain resp row r ∧ e.batch = some r.id

/-- Every id on the chain of `row` exists. -/
def Closed (resp : SpawnTable) (row : Row) : Prop := ∀ r, Chain resp row r → ∃ r', Next resp r r'

/-- What every state keeps of the `i`-th group, which starts at `row`. -/
structure Cycle (resp : SpawnTable) (row : Row) (i : ℕ) (s : Room) : Prop where
  group : ∃ v, s.groups[i]? = some v ∧ Kept resp row i s.history v
  latest : ∀ e ∈ s.entityList, ofChain resp row e → Latest i s.history e
  raised : s.phase = .raised i → ¬ Closed resp row

structure Inv (resp : SpawnTable) (mapId : ℤ) (s : Room) : Prop where
  length : s.groups.length = (batches resp mapId).length
  cycle : ∀ (i : ℕ) (row : Row), (batches resp mapId)[i]? = some row → Cycle resp row i s

section Group

variable {row : Row} {i : ℕ} {dt : ℤ} {h : List Visit} {v : Group} {s : Room}

theorem Kept.nextdat_chain (hv : Kept resp row i h v) {r : Row} (hr : v.nextdat = some r) :
    Chain resp row r := by
  cases hl : lastSpawn i h with
  | none =>
      rw [hv.first hl, Option.some.injEq] at hr
      exact hr ▸ .refl
  | some p =>
      obtain ⟨b, l⟩ := p
      have hb : v.dat = b := by rw [hv.dat, currentBatch, hl]; rfl
      rw [(hv.next b l hl).1] at hr
      exact (hb ▸ hv.chain).tail hr

theorem Kept.due (hv : Kept resp row i h v) {r : Row} (hr : v.nextdat = some r)
    (ht : v.remainTime ≤ 0) : Due resp row i h r := by
  unfold Due
  cases hl : lastSpawn i h with
  | none =>
      rw [hv.first hl, Option.some.injEq] at hr
      exact hr.symm
  | some p =>
      obtain ⟨b, l⟩ := p
      obtain ⟨hn, hrem⟩ := hv.next b l hl
      have hb : Next resp b r := hn.symm.trans hr
      exact ⟨hb, by omega⟩

/-- A batch that is missing is missing on the chain. -/
theorem Kept.not_closed (hv : Kept resp row i h v) (hr : v.nextdat = none) : ¬ Closed resp row := by
  intro hc
  cases hl : lastSpawn i h with
  | none => simp [hv.first hl] at hr
  | some p =>
      obtain ⟨b, l⟩ := p
      have hb : v.dat = b := by rw [hv.dat, currentBatch, hl]; rfl
      obtain ⟨r', hr'⟩ := hc b (hb ▸ hv.chain)
      rw [(hv.next b l hl).1, hr'] at hr
      cases hr

theorem Kept.spawn (hv : Kept resp row i h v) {r : Row} (hr : v.nextdat = some r)
    (l : List SpawnMonster) :
    Kept resp row i (.spawn i r l :: h)
      { dat := r, nextdat := resp.get r.n32NextBatch, remainTime := r.n32CDTime * 1000 } where
  dat := by simp
  chain := hv.nextdat_chain hr
  first hn := by simp at hn
  next b l' hb := by
    simp only [lastSpawn_spawn_self, Option.some.injEq, Prod.mk.injEq] at hb
    simp [← hb.1]

theorem Kept.wait (hv : Kept resp row i h v) (dt : ℤ) :
    Kept resp row i (.empty i dt :: h) { v with remainTime := v.remainTime - dt } where
  dat := hv.dat
  chain := hv.chain
  first := hv.first
  next b l hb := by
    obtain ⟨hn, hrem⟩ := hv.next b l hb
    exact ⟨hn, by simp only [waited_empty_self, hrem]; omega⟩

theorem mem_spawnList_map_create {serverId : ℤ} {nextdat : Row} {lt : List ℤ} {e : Entity}
    (he : e ∈ (spawnList serverId nextdat).map (create getHpMax nextdat lt)) :
    e.entityType = .monster ∧ e.batch = some nextdat.id ∧
      e.serverId ∈ (spawnList serverId nextdat).map SpawnMonster.serverId := by
  obtain ⟨m, hm, rfl⟩ := List.mem_map.mp he
  exact ⟨rfl, rfl, List.mem_map_of_mem hm⟩

/-- No monster of a batch is counted when none is in `entityList`. -/
theorem getMonsterCountByGroupId_eq_zero {gid : ℤ} :
    s.getMonsterCountByGroupId gid = 0 ↔
      ∀ e ∈ s.entityList, e.entityType = .monster → e.batch ≠ some gid := by
  simp only [getMonsterCountByGroupId, List.countP_eq_zero, decide_eq_true_eq]
  simp only [isOf, not_and, ne_eq]

end Group

section Steps

variable {s t : Room}

/-- The chains of the groups keep their monsters apart. -/
theorem not_ofChain_of_ne (hd : DistinctChains resp mapId) {i j : ℕ} {row row' r : Row} {e : Entity}
    (hij : i ≠ j) (hi : (batches resp mapId)[i]? = some row)
    (hj : (batches resp mapId)[j]? = some row') (hr : Chain resp row' r)
    (he : e.batch = some r.id) : ¬ ofChain resp row e := by
  rintro ⟨-, r', hr', he'⟩
  rw [he, Option.some.injEq] at he'
  exact hd i j row row' hij hi hj r' r hr' hr he'.symm

variable (resp getHpMax) in
theorem visit_cases (s : Room) (i : ℕ) (dt : ℤ) (v : Group) :
    (s.getMonsterCountByGroupId v.dat.id ≠ 0 ∧
      s.visit resp getHpMax i dt v =
        { s with phase := .groups i dt, history := .alive i dt :: s.history }) ∨
    (v.nextdat = none ∧ s.visit resp getHpMax i dt v = { s with phase := .raised i }) ∨
    (∃ r, s.getMonsterCountByGroupId v.dat.id = 0 ∧ v.nextdat = some r ∧ v.remainTime ≤ 0 ∧
      s.visit resp getHpMax i dt v = { s.spawn resp getHpMax i r with phase := .groups i dt }) ∨
    (0 < v.remainTime ∧ s.visit resp getHpMax i dt v =
        { s with
          groups := s.groups.set i { v with remainTime := v.remainTime - dt }
          phase := .groups i dt
          history := .empty i dt :: s.history }) := by
  by_cases hc : s.getMonsterCountByGroupId v.dat.id = 0
  · cases hn : v.nextdat with
    | none => exact .inr (.inl ⟨rfl, by simp [visit, hc, hn]⟩)
    | some r =>
        by_cases ht : v.remainTime ≤ 0
        · exact .inr (.inr (.inl ⟨r, hc, rfl, ht, by simp [visit, hc, hn, ht]⟩))
        · exact .inr (.inr (.inr ⟨by omega, by simp [visit, hc, hn, ht]⟩))
  · exact .inl ⟨hc, by simp [visit, hc]⟩

theorem Cycle.visit_other (hd : DistinctChains resp mapId) {i j : ℕ} {row row' : Row} {dt : ℤ}
    {v : Group} (hij : i ≠ j) (hi : (batches resp mapId)[i]? = some row)
    (hj : (batches resp mapId)[j]? = some row') (hc : Cycle resp row i s)
    (hv : Kept resp row' j s.history v) : Cycle resp row i (s.visit resp getHpMax j dt v) := by
  obtain ⟨⟨w, hw, hk⟩, hl, -⟩ := hc
  obtain ⟨-, he⟩ | ⟨-, he⟩ | ⟨r, -, hr, -, he⟩ | ⟨-, he⟩ :=
    visit_cases resp getHpMax s j dt v <;> rw [he]
  · exact ⟨⟨w, hw, hk.dat, hk.chain, hk.first, hk.next⟩, hl, by simp⟩
  · exact ⟨⟨w, hw, hk⟩, hl, fun hp => absurd (Phase.raised.inj hp).symm hij⟩
  · have hlast : lastSpawn i (.spawn j r (spawnList s.serverId r) :: s.history) =
        lastSpawn i s.history := lastSpawn_spawn_other hij.symm
    refine ⟨⟨w, ?_, ?_, hk.chain, ?_, ?_⟩, ?_, by simp⟩
    · simpa [spawn, List.getElem?_set_ne hij.symm] using hw
    · simpa [spawn, currentBatch, hlast] using hk.dat
    · simpa [spawn, hlast] using hk.first
    · simpa [spawn, hlast, waited_spawn_other hij.symm] using hk.next
    · intro e hmem hof
      rcases List.mem_append.mp hmem with hmem | hmem
      · obtain ⟨b, l, hb, hrest⟩ := hl e hmem hof
        exact ⟨b, l, hlast.trans hb, hrest⟩
      · have hbatch := (mem_spawnList_map_create hmem).2.1
        exact absurd hof (not_ofChain_of_ne hd hij hi hj (hv.nextdat_chain hr) hbatch)
  · refine ⟨⟨w, ?_, hk.dat, hk.chain, hk.first, ?_⟩, hl, by simp⟩
    · simpa [List.getElem?_set_ne hij.symm] using hw
    · simpa [waited_empty_other hij.symm] using hk.next

theorem Cycle.visit_self {i : ℕ} {row : Row} {dt : ℤ} {v : Group} (hc : Cycle resp row i s)
    (hv : s.groups[i]? = some v) : Cycle resp row i (s.visit resp getHpMax i dt v) := by
  obtain ⟨⟨w, hw, hk⟩, hl, -⟩ := hc
  obtain rfl : w = v := Option.some.inj (hw.symm.trans hv)
  have hlen : i < s.groups.length := (List.getElem?_eq_some_iff.mp hw).1
  obtain ⟨-, he⟩ | ⟨hn, he⟩ | ⟨r, hz, hr, -, he⟩ | ⟨-, he⟩ :=
    visit_cases resp getHpMax s i dt w <;> rw [he]
  · exact ⟨⟨w, hw, hk.dat, hk.chain, hk.first, hk.next⟩, hl, by simp⟩
  · exact ⟨⟨w, hw, hk⟩, hl, fun _ => hk.not_closed hn⟩
  · refine ⟨⟨_, List.getElem?_set_self hlen, hk.spawn hr _⟩, ?_, by simp⟩
    intro e hmem hof
    rcases List.mem_append.mp hmem with hmem | hmem
    · -- the count has just found none of the batch that every monster of the chain would be of
      obtain ⟨b, l, hb, hbatch, -⟩ := hl e hmem hof
      have hdat : w.dat = b := by rw [hk.dat, currentBatch, hb]; rfl
      exact absurd (hdat ▸ hbatch) (getMonsterCountByGroupId_eq_zero.mp hz e hmem hof.1)
    · obtain ⟨-, hbatch, hsid⟩ := mem_spawnList_map_create hmem
      exact ⟨r, _, lastSpawn_spawn_self, hbatch, hsid⟩
  · exact ⟨⟨_, List.getElem?_set_self hlen, hk.wait dt⟩, hl, by simp⟩

/-- The steps that touch neither the groups nor the history make no monsters either. -/
theorem Cycle.frame {i : ℕ} {row : Row} (hc : Cycle resp row i s) (hg : t.groups = s.groups)
    (hh : t.history = s.history) (hp : t.phase = .raised i → s.phase = .raised i)
    (he : ∀ e ∈ t.entityList, e.entityType = .monster → ∃ e' ∈ s.entityList,
      e'.entityType = .monster ∧ e'.batch = e.batch ∧ e'.serverId = e.serverId) :
    Cycle resp row i t := by
  refine ⟨by rw [hg, hh]; exact hc.group, ?_, fun h => hc.raised (hp h)⟩
  rintro e hmem ⟨htype, r, hr, hbatch⟩
  obtain ⟨e', hmem', htype', hb', hs'⟩ := he e hmem htype
  obtain ⟨b, l, hb, heb, hes⟩ := hc.latest e' hmem' ⟨htype', r, hr, hb'.trans hbatch⟩
  exact ⟨b, l, hh ▸ hb, hb' ▸ heb, hs' ▸ hes⟩

theorem Cycle.entities {i : ℕ} {row : Row} {es : List Entity} (hc : Cycle resp row i s)
    (he : ∀ e ∈ es, e.entityType = .monster → ∃ e' ∈ s.entityList,
      e'.entityType = .monster ∧ e'.batch = e.batch ∧ e'.serverId = e.serverId) :
    Cycle resp row i { s with entityList := es } := hc.frame rfl rfl id he

/-- What is written to one entity leaves what it is. -/
theorem Cycle.modify {i k : ℕ} {row : Row} (hc : Cycle resp row i s) (f : Entity → Entity)
    (hf : ∀ e, (f e).entityType = e.entityType ∧ (f e).batch = e.batch ∧
      (f e).serverId = e.serverId) :
    Cycle resp row i { s with entityList := s.entityList.modify k f } := by
  apply hc.entities
  intro e he htype
  obtain ⟨n, hn⟩ := List.mem_iff_getElem?.mp he
  rw [List.getElem?_modify, Option.map_eq_map, Option.map_eq_some_iff] at hn
  obtain ⟨e', he', rfl⟩ := hn
  refine ⟨e', List.mem_of_getElem? he', ?_⟩
  split_ifs at htype ⊢
  · exact ⟨(hf e').1 ▸ htype, (hf e').2.1.symm, (hf e').2.2.symm⟩
  · exact ⟨htype, rfl, rfl⟩

theorem Inv.init : Inv resp mapId (init resp mapId) where
  length := by simp [Room.init]
  cycle i row hrow := by
    refine ⟨⟨{ dat := row, nextdat := some row, remainTime := 0 }, ?_, ?_⟩, ?_, ?_⟩
    · simp [Room.init, hrow]
    · exact ⟨rfl, .refl, fun _ => rfl, fun b l hb => by simp [Room.init, lastSpawn] at hb⟩
    · simp [Room.init]
    · simp [Room.init]

theorem Inv.visit (hd : DistinctChains resp mapId) (hs : Inv resp mapId s) {j : ℕ} {dt : ℤ}
    {v : Group} (hv : s.groups[j]? = some v) : Inv resp mapId (s.visit resp getHpMax j dt v) where
  length := by
    obtain ⟨-, he⟩ | ⟨-, he⟩ | ⟨r, -, -, -, he⟩ | ⟨-, he⟩ :=
      visit_cases resp getHpMax s j dt v <;> rw [he]
    · exact hs.length
    · exact hs.length
    · simpa [spawn] using hs.length
    · simpa using hs.length
  cycle i row hrow := by
    by_cases hij : i = j
    · subst hij
      exact (hs.cycle i row hrow).visit_self hv
    · have hj : j < (batches resp mapId).length :=
        hs.length ▸ (List.getElem?_eq_some_iff.mp hv).1
      have hrow' := List.getElem?_eq_getElem hj
      obtain ⟨w, hw, hk⟩ := (hs.cycle j _ hrow').group
      obtain rfl : w = v := Option.some.inj (hw.symm.trans hv)
      exact (hs.cycle i row hrow).visit_other hd hij hrow hrow' hk

theorem Inv.step (hd : DistinctChains resp mapId) (hs : Inv resp mapId s) {l : Label}
    (h : s.step resp getHpMax l = some t) : Inv resp mapId t := by
  cases l with
  | updateEntities =>
      simp only [Room.step, Option.ite_none_right_eq_some, Option.some.injEq] at h
      obtain ⟨-, rfl⟩ := h
      exact ⟨hs.length, fun i row hrow => (hs.cycle i row hrow).frame rfl rfl (by simp)
        (fun e he htype => ⟨e, he, htype, rfl, rfl⟩)⟩
  | entity =>
      simp only [Room.step] at h
      split at h
      · obtain ⟨v, -, rfl⟩ := Option.map_eq_some_iff.mp h
        refine ⟨hs.length, fun i row hrow => (hs.cycle i row hrow).frame rfl rfl (by simp) ?_⟩
        intro e he htype
        refine ⟨e, ?_, htype, rfl, rfl⟩
        dsimp only at he
        split_ifs at he
        · exact List.mem_of_mem_eraseIdx he
        · exact he
      · cases h
  | updateGroups dt =>
      simp only [Room.step, Option.ite_none_right_eq_some, Option.some.injEq] at h
      obtain ⟨-, rfl⟩ := h
      exact ⟨hs.length, fun i row hrow => (hs.cycle i row hrow).frame rfl rfl (by simp)
        (fun e he htype => ⟨e, he, htype, rfl, rfl⟩)⟩
  | group =>
      simp only [Room.step] at h
      split at h
      · obtain ⟨v, hv, rfl⟩ := Option.map_eq_some_iff.mp h
        exact hs.visit hd hv
      · cases h
  | done =>
      simp only [Room.step] at h
      split at h <;> cases h
      all_goals
        exact ⟨hs.length, fun i row hrow => (hs.cycle i row hrow).frame rfl rfl (by simp)
          (fun e he htype => ⟨e, he, htype, rfl, rfl⟩)⟩
  | setHp k Hp =>
      cases h
      exact ⟨hs.length, fun i row hrow => (hs.cycle i row hrow).modify _ (fun _ => ⟨rfl, rfl, rfl⟩)⟩
  | setDead k =>
      cases h
      exact ⟨hs.length, fun i row hrow => (hs.cycle i row hrow).modify _ (fun _ => ⟨rfl, rfl, rfl⟩)⟩
  | addEntity v =>
      simp only [Room.step, Option.ite_none_left_eq_some, Option.some.injEq] at h
      obtain ⟨hv, rfl⟩ := h
      refine ⟨hs.length, fun i row hrow => (hs.cycle i row hrow).entities ?_⟩
      intro e he htype
      rcases List.mem_append.mp he with he | he
      · exact ⟨e, he, htype, rfl, rfl⟩
      · exact absurd (List.mem_singleton.mp he ▸ htype) hv
  | assin_server_id =>
      cases h
      exact ⟨hs.length, fun i row hrow => (hs.cycle i row hrow).frame rfl rfl id
        (fun e he htype => ⟨e, he, htype, rfl, rfl⟩)⟩

theorem Inv.of_reachable (hd : DistinctChains resp mapId)
    (hs : (room resp getHpMax mapId).Reachable s) : Inv resp mapId s :=
  hs.invariant Inv.init (fun _ _ _ hs _ h => hs.step hd h)

/-- Only a visit that found the group empty and its time over spawns. -/
theorem step_spawn {l : Label} {i : ℕ} {r : Row} {ret : List SpawnMonster}
    (h : s.step resp getHpMax l = some t) (ht : t.history = .spawn i r ret :: s.history) :
    ∃ v, s.groups[i]? = some v ∧ s.getMonsterCountByGroupId v.dat.id = 0 ∧ v.nextdat = some r ∧
      v.remainTime ≤ 0 := by
  have hkept : t.history ≠ s.history := by rw [ht]; exact List.cons_ne_self _ _
  cases l with
  | group =>
      simp only [Room.step] at h
      split at h
      · obtain ⟨v, hv, rfl⟩ := Option.map_eq_some_iff.mp h
        rename_i j dt _
        obtain ⟨-, he⟩ | ⟨-, he⟩ | ⟨r', hz, hr, hrem, he⟩ | ⟨-, he⟩ :=
          visit_cases resp getHpMax s j dt v <;> rw [he] at ht hkept
        · simp at ht
        · exact absurd rfl hkept
        · simp only [spawn, List.cons.injEq, and_true, Visit.spawn.injEq] at ht
          obtain ⟨rfl, rfl, -⟩ := ht
          exact ⟨v, hv, hz, hr, hrem⟩
        · simp at ht
      · cases h
  | updateEntities | updateGroups dt | addEntity v =>
      simp only [Room.step, Option.ite_none_right_eq_some, Option.ite_none_left_eq_some,
        Option.some.injEq] at h
      exact absurd (h.2 ▸ rfl) hkept
  | entity =>
      simp only [Room.step] at h
      split at h
      · obtain ⟨v, -, rfl⟩ := Option.map_eq_some_iff.mp h
        exact absurd rfl hkept
      · cases h
  | done =>
      simp only [Room.step] at h
      split at h <;> cases h <;> exact absurd rfl hkept
  | setHp k Hp => cases h; exact absurd rfl hkept
  | setDead k => cases h; exact absurd rfl hkept
  | assin_server_id => cases h; exact absurd rfl hkept

end Steps

/-- Every batch of a group is spawned into an empty group and when it is due; the monsters that are
left of a group are of its last spawn; and no update raises an error at a group whose chain is
closed. -/
theorem update_spawn_cycle (hd : DistinctChains resp mapId) {s : Room}
    (hs : (room resp getHpMax mapId).Reachable s) {i : ℕ} {row : Row}
    (hrow : (batches resp mapId)[i]? = some row) :
    (∀ l t r ret, (room resp getHpMax mapId).step s l = some t →
      t.history = .spawn i r ret :: s.history →
        (∀ e ∈ s.entityList, e.entityType = .monster →
          e.batch ≠ some (currentBatch row i s.history).id) ∧ Due resp row i s.history r) ∧
    (∀ e ∈ s.entityList, ofChain resp row e → Latest i s.history e) ∧
    (Closed resp row → s.phase ≠ .raised i) := by
  obtain ⟨⟨v, hv, hk⟩, hl, hraise⟩ := (Inv.of_reachable hd hs).cycle i row hrow
  refine ⟨?_, hl, fun hc hp => hraise hp hc⟩
  intro l t r ret h ht
  obtain ⟨w, hw, hz, hr, hrem⟩ := step_spawn h ht
  obtain rfl : v = w := Option.some.inj (hv.symm.trans hw)
  exact ⟨hk.dat ▸ getMonsterCountByGroupId_eq_zero.mp hz, hk.due hr hrem⟩

section Bounds

variable {s t : Room}

/-- The indices of the two loops are those of entries: nothing but the loop over the entities takes
entities out, and it only takes out the one it has just passed. -/
def InBounds (s : Room) : Prop :=
  match s.phase with
  | .entities i => i ≤ s.entityList.length
  | .groups i _ => i ≤ s.groups.length
  | _ => True

theorem InBounds.step {l : Label} (hs : InBounds s) (h : s.step resp getHpMax l = some t) :
    InBounds t := by
  cases l with
  | updateEntities | updateGroups dt =>
      simp only [Room.step, Option.ite_none_right_eq_some, Option.some.injEq] at h
      obtain ⟨-, rfl⟩ := h
      exact le_refl _
  | entity =>
      simp only [Room.step] at h
      split at h
      · rename_i i hp
        simp only [InBounds, hp] at hs
        obtain ⟨v, -, rfl⟩ := Option.map_eq_some_iff.mp h
        simp only [InBounds]
        split_ifs
        · rw [List.length_eraseIdx]
          split_ifs <;> omega
        · omega
      · cases h
  | group =>
      simp only [Room.step] at h
      split at h
      · rename_i i dt hp
        simp only [InBounds, hp] at hs
        obtain ⟨v, -, rfl⟩ := Option.map_eq_some_iff.mp h
        obtain ⟨-, he⟩ | ⟨-, he⟩ | ⟨r, -, -, -, he⟩ | ⟨-, he⟩ :=
          visit_cases resp getHpMax s i dt v <;> rw [he]
        · simp only [InBounds]
          omega
        · trivial
        · simp only [InBounds, spawn, List.length_set]
          omega
        · simp only [InBounds, List.length_set]
          omega
      · cases h
  | done =>
      simp only [Room.step] at h
      split at h <;> cases h <;> trivial
  | setHp k Hp =>
      cases h
      simpa only [InBounds, List.length_modify] using hs
  | setDead k =>
      cases h
      simpa only [InBounds, List.length_modify] using hs
  | addEntity v =>
      simp only [Room.step, Option.ite_none_left_eq_some, Option.some.injEq] at h
      obtain ⟨-, rfl⟩ := h
      cases hp : s.phase <;> simp only [InBounds, hp, List.length_append] at hs ⊢
      all_goals omega
  | assin_server_id =>
      cases h
      exact hs

/-- A loop that has entries to come has its next pass. -/
theorem pass_defined (hs : (room resp getHpMax mapId).Reachable s) {i : ℕ} :
    (s.phase = .entities (i + 1) → ∃ t, s.step resp getHpMax .entity = some t) ∧
    (∀ dt, s.phase = .groups (i + 1) dt → ∃ t, s.step resp getHpMax .group = some t) := by
  have hb : InBounds s :=
    hs.invariant (show InBounds (Room.init resp mapId) from trivial) (fun _ _ _ hs _ h => hs.step h)
  constructor
  · intro hp
    simp only [InBounds, hp] at hb
    have hi : i < s.entityList.length := by omega
    simp [Room.step, hp, hi]
  · intro dt hp
    simp only [InBounds, hp] at hb
    have hi : i < s.groups.length := by omega
    simp [Room.step, hp, hi]

end Bounds

section Example

/-- Two groups on map 3; the first goes to a batch of map 0 and back. -/
def twoGroups : SpawnTable where
  rows := [⟨1, 3, [21001], [(1, 2)], 30, 2, 0, rfl⟩, ⟨2, 0, [21004], [(1, 2)], 25, 1, 0, rfl⟩,
    ⟨5, 3, [21007], [(8, 9)], 40, 5, 0, rfl⟩]
  nodup := by decide

def firstRow : Row := ⟨1, 3, [21001], [(1, 2)], 30, 2, 0, rfl⟩

def secondRow : Row := ⟨2, 0, [21004], [(1, 2)], 25, 1, 0, rfl⟩

def otherRow : Row := ⟨5, 3, [21007], [(8, 9)], 40, 5, 0, rfl⟩

theorem chain_firstRow {r : Row} (h : Chain twoGroups firstRow r) :
    r = firstRow ∨ r = secondRow := by
  induction h with
  | refl => exact .inl rfl
  | tail _ hn ih =>
      rcases ih with rfl | rfl
      · exact .inr (Option.some.inj hn).symm
      · exact .inl (Option.some.inj hn).symm

theorem chain_otherRow {r : Row} (h : Chain twoGroups otherRow r) : r = otherRow := by
  induction h with
  | refl => rfl
  | tail _ hn ih =>
      subst ih
      exact (Option.some.inj hn).symm

theorem twoGroups_distinct : DistinctChains twoGroups 3 := by
  have hb : batches twoGroups 3 = [firstRow, otherRow] := by decide
  intro i j a b hij hi hj r r' hr hr'
  rw [hb] at hi hj
  have hapart : ∀ {r r' : Row}, Chain twoGroups firstRow r → Chain twoGroups otherRow r' →
      r.id ≠ r'.id := by
    intro r r' hr hr'
    rcases chain_firstRow hr with rfl | rfl <;> rw [chain_otherRow hr'] <;> decide
  match i, j, hij with
  | 0, 1, _ => cases hi; cases hj; exact hapart hr hr'
  | 1, 0, _ => cases hi; cases hj; exact (hapart hr' hr).symm
  | 0, 0, h | 1, 1, h => exact absurd rfl h
  | i + 2, _, _ => simp at hi
  | _, j + 2, _ => simp at hj

/-- The first batch of the first group is killed and its thirty seconds pass. -/
def secondDue : List Label :=
  [.updateGroups 30, .group, .group, .done, .setHp 1 0, .updateEntities, .entity, .entity, .done,
    .updateGroups 30000, .group, .group, .done, .updateGroups 30, .group]

def beforeSecond : Room :=
  ((room twoGroups (fun _ => 100) 3).run (Room.init twoGroups 3) secondDue).getD
    (Room.init twoGroups 3)

theorem beforeSecond_reachable : (room twoGroups (fun _ => 100) 3).Reachable beforeSecond :=
  System.reachable_of_run secondDue (by decide +kernel)

theorem update_spawn_cycle_second : Due twoGroups firstRow 0 beforeSecond.history secondRow :=
  ((update_spawn_cycle twoGroups_distinct beforeSecond_reachable
    (show (batches twoGroups 3)[0]? = some firstRow by decide)).1 .group
      (beforeSecond.visit twoGroups (fun _ => 100) 0 30
      ⟨firstRow, some secondRow, 0⟩) secondRow [⟨21004, 3, 1, 2⟩] (by decide +kernel)
      (by decide +kernel)).2

end Example

end Room

end GameServer.SpawnNpc
