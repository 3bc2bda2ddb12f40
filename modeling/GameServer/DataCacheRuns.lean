import GameServer.DataCache

/-!
# Runs of the data cache

The loop of `Add` ends exactly when some bucket has room or some clearing, which the buckets take in
turns, finds an entry that has expired. From there on the records agree along a run as long as
nothing is added under the name of the field `count`.
-/

namespace GameServer.DataCache

variable {U D : Type} [DecidableEq U]

/-! ## The loop of `Add` -/

/-- The bucket that `Add` clears when the last one is full. -/
def Cache.start (c : Cache U D) : ℕ := if c.clearPos = 0 then 1 else c.clearPos

/-- The bucket that is cleared at the k-th time in a row. -/
def Cache.turn (c : Cache U D) (k : ℕ) : ℕ := (c.start - 1 + k) % c.maxCache + 1

/-- Some bucket has room or will get it when it is cleared. -/
def Cache.Room (c : Cache U D) (clock : ℕ → ℤ) : Prop :=
  (∃ i, 1 ≤ i ∧ i ≤ c.maxCache ∧ (c.buckets i).entries.length < c.maxCacheCount) ∨
    ∃ k, ∃ e ∈ (c.buckets (c.turn k)).entries, clock k - e.2.lastUpdateTime > c.expireTime

/-- The cache after a round of the loop that clears a bucket. -/
def Cache.jumped (c : Cache U D) (curTime : ℤ) : Cache U D :=
  { c with clearPos := c.start, addPos := c.start }.cleared curTime

variable {count : U} {c : Cache U D}

omit [DecidableEq U] in
theorem start_range (h : Inv count c) : 1 ≤ c.start ∧ c.start ≤ c.maxCache := by
  have h1 := h.one_le_addPos
  have h2 := h.addPos_le
  have h3 := h.clearPos_le
  rw [Cache.start]
  split <;> omega

omit [DecidableEq U] in
theorem turn_zero (h : Inv count c) : c.turn 0 = c.start := by
  obtain ⟨h1, h2⟩ := start_range h
  rw [Cache.turn, Nat.add_zero, Nat.mod_eq_of_lt (by omega)]
  omega

theorem clearPos_jumped (c : Cache U D) (curTime : ℤ) :
    (c.jumped curTime).clearPos = if c.start = c.maxCache then 0 else c.start + 1 := rfl

theorem bucket_jumped (c : Cache U D) (curTime : ℤ) :
    ((c.jumped curTime).buckets c.start).entries = without (c.buckets c.start).entries
      (expired curTime c.expireTime (c.buckets c.start).entries) := by
  simp only [Cache.jumped, Cache.cleared, Cache.erase, Function.update_self]

theorem bucket_jumped_of_ne {curTime : ℤ} {i : ℕ} (hi : i ≠ c.start) :
    (c.jumped curTime).buckets i = c.buckets i := Function.update_of_ne hi _ _

theorem start_jumped (c : Cache U D) (curTime : ℤ) :
    (c.jumped curTime).start = if c.start = c.maxCache then 1 else c.start + 1 := by
  rw [Cache.start, clearPos_jumped]
  by_cases hlast : c.start = c.maxCache
  · rw [if_pos hlast, if_pos hlast, if_pos rfl]
  · rw [if_neg hlast, if_neg hlast, if_neg (Nat.succ_ne_zero _)]

theorem turn_jumped (h : Inv count c) (curTime : ℤ) (k : ℕ) :
    (c.jumped curTime).turn k = c.turn (k + 1) := by
  obtain ⟨h1, h2⟩ := start_range h
  have hmax : (c.jumped curTime).maxCache = c.maxCache := rfl
  rw [Cache.turn, Cache.turn, start_jumped, hmax]
  split
  · rename_i hlast
    have hsum : c.start - 1 + (k + 1) = k + c.maxCache := by omega
    rw [hsum, Nat.add_mod_right, Nat.sub_self, Nat.zero_add]
  · congr 2
    omega

theorem Inv.jumped (h : Inv count c) (curTime : ℤ) : Inv count (c.jumped curTime) := by
  obtain ⟨h1, h2⟩ := start_range h
  have hmoved : Inv count { c with clearPos := c.start, addPos := c.start } :=
    { h with one_le_addPos := h1, addPos_le := h2, clearPos_le := h2 }
  exact hmoved.cleared h1 curTime

theorem entries_jumped {curTime : ℤ}
    (hnone : ∀ e ∈ (c.buckets c.start).entries, ¬curTime - e.2.lastUpdateTime > c.expireTime)
    (i : ℕ) : ((c.jumped curTime).buckets i).entries = (c.buckets i).entries := by
  by_cases hi : i = c.start
  · have hexpired : expired curTime c.expireTime (c.buckets c.start).entries = [] := by
      rw [expired, List.filter_eq_nil_iff.mpr fun e he => by simpa using hnone e he]
      rfl
    rw [hi, bucket_jumped, hexpired, without_nil]
  · rw [bucket_jumped_of_ne hi]

theorem length_jumped_le (c : Cache U D) (curTime : ℤ) (i : ℕ) :
    ((c.jumped curTime).buckets i).entries.length ≤ (c.buckets i).entries.length := by
  by_cases hi : i = c.start
  · rw [hi, bucket_jumped]
    exact List.length_filter_le _ _
  · rw [bucket_jumped_of_ne hi]

theorem length_jumped_lt (h : Inv count c) {curTime : ℤ} {e : U × Record D}
    (he : e ∈ (c.buckets c.start).entries)
    (hold : curTime - e.2.lastUpdateTime > c.expireTime) :
    ((c.jumped curTime).buckets c.start).entries.length < c.maxCacheCount := by
  obtain ⟨h1, h2⟩ := start_range h
  have hsub := expired_sublist curTime c.expireTime (c.buckets c.start).entries
  have hlen := length_without (h.keys_nodup _ h1 h2)
    (hsub.nodup (h.keys_nodup _ h1 h2)) fun u hu => hsub.mem hu
  have hpos : 0 < (expired curTime c.expireTime (c.buckets c.start).entries).length :=
    List.length_pos_of_mem
      (List.mem_map_of_mem (f := Prod.fst) (List.mem_filter.mpr ⟨he, decide_eq_true hold⟩))
  have hle := h.length_le _ h1 h2
  rw [bucket_jumped]
  omega

section Loop

variable {UUID : Option U} {NewData : Record D} {n : ℕ} {clock : ℕ → ℤ}

omit [DecidableEq U] in
theorem count_addPos (h : Inv count c) :
    (c.buckets c.addPos).count = some ((c.buckets c.addPos).entries.length : ℤ) :=
  h.count_eq c.addPos h.one_le_addPos h.addPos_le

theorem addLoop_room (h : Inv count c)
    (hroom : (c.buckets c.addPos).entries.length < c.maxCacheCount) :
    addLoop (some ()) count UUID NewData (n + 1) clock c = some (place count UUID NewData c) := by
  simp only [addLoop, count_addPos h]
  exact if_pos (by exact_mod_cast hroom)

theorem addLoop_next (h : Inv count c)
    (hfull : ¬(c.buckets c.addPos).entries.length < c.maxCacheCount)
    (hnext : c.addPos < c.maxCache) :
    addLoop (some ()) count UUID NewData (n + 1) clock c =
      addLoop (some ()) count UUID NewData n clock { c with addPos := c.addPos + 1 } := by
  simp only [addLoop, count_addPos h]
  rw [if_neg (by exact_mod_cast hfull), if_pos hnext]

theorem addLoop_clear (h : Inv count c)
    (hfull : ¬(c.buckets c.addPos).entries.length < c.maxCacheCount)
    (hlast : c.addPos = c.maxCache) :
    addLoop (some ()) count UUID NewData (n + 1) clock c =
      addLoop (some ()) count UUID NewData n (fun k => clock (k + 1)) (c.jumped (clock 0)) := by
  obtain ⟨h1, h2⟩ := start_range h
  have hmoved : Inv count { c with clearPos := c.start, addPos := c.start } :=
    { h with one_le_addPos := h1, addPos_le := h2, clearPos_le := h2 }
  have hclear := Clear_eq hmoved h1 (clock 0)
  simp only [addLoop, count_addPos h]
  rw [if_neg (by exact_mod_cast hfull), if_neg (by omega), if_pos hlast]
  simp only [Cache.start] at hclear
  simp only [hclear]
  rfl

omit [DecidableEq U] in
theorem Inv.next (h : Inv count c) (hnext : c.addPos < c.maxCache) :
    Inv count { c with addPos := c.addPos + 1 } :=
  { h with one_le_addPos := Nat.succ_pos _, addPos_le := hnext }

theorem addLoop_spec (h : Inv count c) {r : Outcome U D}
    (hloop : addLoop (some ()) count UUID NewData n clock c = some r) :
    ∃ c' : Cache U D, Inv count c' ∧ (∀ u, c.UUID_CacheIDMap u = none →
      c'.UUID_CacheIDMap u = none) ∧
      (c'.buckets c'.addPos).entries.length < c'.maxCacheCount ∧
      r = place count UUID NewData c' := by
  induction n generalizing c clock with
  | zero => cases hloop
  | succ n ih =>
    by_cases hroom : (c.buckets c.addPos).entries.length < c.maxCacheCount
    · rw [addLoop_room h hroom] at hloop
      exact ⟨c, h, fun _ hu => hu, hroom, (Option.some.inj hloop).symm⟩
    · rcases Nat.lt_or_eq_of_le h.addPos_le with hnext | hlast
      · rw [addLoop_next h hroom hnext] at hloop
        have hspec := ih (h.next hnext) hloop
        exact hspec
      · rw [addLoop_clear h hroom hlast] at hloop
        obtain ⟨c', hinv, hids, hroom', hr⟩ := ih (h.jumped (clock 0)) hloop
        refine ⟨c', hinv, fun u hu => hids u ?_, hroom', hr⟩
        simp [Cache.jumped, Cache.cleared, Cache.erase, hu]

/-- A round with more rounds to go changes nothing. -/
theorem addLoop_succ {logs : Option Unit} {r : Outcome U D}
    (hloop : addLoop logs count UUID NewData n clock c = some r) :
    addLoop logs count UUID NewData (n + 1) clock c = some r := by
  induction n generalizing c clock with
  | zero => cases hloop
  | succ n ih =>
    rw [addLoop] at hloop ⊢
    cases hcount : (c.buckets c.addPos).count with
    | none =>
      simp only [hcount] at hloop ⊢
      exact hloop
    | some k =>
      simp only [hcount] at hloop ⊢
      generalize Clear (D := D) (U := U) logs (clock 0) _ = cleared at hloop ⊢
      split_ifs at hloop ⊢
      · exact hloop
      · exact ih hloop
      · cases cleared with
        | error _ => exact hloop
        | ok _ => exact ih hloop
      · exact ih hloop

theorem addLoop_mono {logs : Option Unit} {r : Outcome U D} {m : ℕ}
    (hloop : addLoop logs count UUID NewData n clock c = some r) (hnm : n ≤ m) :
    addLoop logs count UUID NewData m clock c = some r :=
  Nat.le_induction hloop (fun _ _ => addLoop_succ) m hnm

/-- The loop ends. -/
def Finds (count : U) (UUID : Option U) (NewData : Record D) (clock : ℕ → ℤ) (c : Cache U D) :
    Prop :=
  ∃ n r, addLoop (some ()) count UUID NewData n clock c = some r

/-- A bucket with room that is not behind is found. -/
theorem finds_of_addPos_le {c : Cache U D} (h : Inv count c) {i : ℕ} (hi : c.addPos ≤ i)
    (hmax : i ≤ c.maxCache) (hroom : (c.buckets i).entries.length < c.maxCacheCount) :
    Finds count UUID NewData clock c := by
  by_cases hhere : (c.buckets c.addPos).entries.length < c.maxCacheCount
  · exact ⟨1, _, addLoop_room h hhere⟩
  · have hne : c.addPos ≠ i := by
      rintro rfl
      exact hhere hroom
    have hnext : c.addPos < c.maxCache := by omega
    obtain ⟨n, r, hr⟩ := finds_of_addPos_le (c := { c with addPos := c.addPos + 1 })
      (h.next hnext) (Nat.lt_of_le_of_ne hi hne) hmax hroom
    exact ⟨n + 1, r, (addLoop_next h hhere hnext).trans hr⟩
termination_by i - c.addPos
decreasing_by omega

/-- What the loop finds after a clearing it finds. -/
theorem finds_of_jumped {c : Cache U D} (h : Inv count c)
    (hjumped : Finds count UUID NewData (fun k => clock (k + 1)) (c.jumped (clock 0))) :
    Finds count UUID NewData clock c := by
  by_cases hhere : (c.buckets c.addPos).entries.length < c.maxCacheCount
  · exact ⟨1, _, addLoop_room h hhere⟩
  · rcases Nat.lt_or_eq_of_le h.addPos_le with hnext | hlast
    · obtain ⟨n, r, hr⟩ := finds_of_jumped (c := { c with addPos := c.addPos + 1 })
        (h.next hnext) hjumped
      exact ⟨n + 1, r, (addLoop_next h hhere hnext).trans hr⟩
    · obtain ⟨n, r, hr⟩ := hjumped
      exact ⟨n + 1, r, (addLoop_clear h hhere hlast).trans hr⟩
termination_by c.maxCache - c.addPos
decreasing_by omega

theorem finds_of_expired {k : ℕ} (h : Inv count c) {e : U × Record D}
    (he : e ∈ (c.buckets (c.turn k)).entries)
    (hold : clock k - e.2.lastUpdateTime > c.expireTime) :
    Finds count UUID NewData clock c := by
  induction k generalizing c clock with
  | zero =>
    rw [turn_zero h] at he
    exact finds_of_jumped h (finds_of_addPos_le (h.jumped (clock 0)) le_rfl
      (h.jumped (clock 0)).addPos_le (length_jumped_lt h he hold))
  | succ k ih =>
    apply finds_of_jumped h
    by_cases hfirst : ∃ e' ∈ (c.buckets c.start).entries,
        clock 0 - e'.2.lastUpdateTime > c.expireTime
    · obtain ⟨e', he', hold'⟩ := hfirst
      exact finds_of_addPos_le (h.jumped (clock 0)) le_rfl
        (h.jumped (clock 0)).addPos_le (length_jumped_lt h he' hold')
    · refine ih (h.jumped (clock 0)) ?_ hold
      rw [turn_jumped h, entries_jumped fun e' he' hold' => hfirst ⟨e', he', hold'⟩]
      exact he

/-- A bucket with room is found at the latest when the clearing starts again from the first one. -/
theorem finds_of_room {c : Cache U D} {clock : ℕ → ℤ} (h : Inv count c) {i : ℕ} (hi : 1 ≤ i)
    (hmax : i ≤ c.maxCache) (hroom : (c.buckets i).entries.length < c.maxCacheCount) :
    Finds count UUID NewData clock c := by
  obtain ⟨h1, h2⟩ := start_range h
  have hjumped := h.jumped (clock 0)
  have hroom' : ((c.jumped (clock 0)).buckets i).entries.length < c.maxCacheCount :=
    (length_jumped_le c (clock 0) i).trans_lt hroom
  apply finds_of_jumped h
  by_cases hbehind : i < c.start
  · have hstart := start_jumped c (clock 0)
    by_cases hlast : c.start = c.maxCache
    · -- the next clearing is that of the first bucket
      rw [if_pos hlast] at hstart
      exact finds_of_jumped hjumped (finds_of_addPos_le (hjumped.jumped _) (hstart.trans_le hi) hmax
        ((length_jumped_le _ _ i).trans_lt hroom'))
    · rw [if_neg hlast] at hstart
      have hless : (c.jumped (clock 0)).maxCache - (c.jumped (clock 0)).start <
          c.maxCache - c.start := by
        rw [hstart]
        change c.maxCache - (c.start + 1) < c.maxCache - c.start
        omega
      exact finds_of_room hjumped hi hmax hroom'
  · exact finds_of_addPos_le hjumped (Nat.not_lt.mp hbehind) hmax hroom'
termination_by c.maxCache - c.start

omit [DecidableEq U] in
theorem room_next : Cache.Room { c with addPos := c.addPos + 1 } clock ↔ c.Room clock := Iff.rfl

theorem room_of_jumped (h : Inv count c)
    (hroom : (c.jumped (clock 0)).Room fun k => clock (k + 1)) : c.Room clock := by
  by_cases hfirst : ∃ e ∈ (c.buckets c.start).entries,
      clock 0 - e.2.lastUpdateTime > c.expireTime
  · exact Or.inr ⟨0, (turn_zero h).symm ▸ hfirst⟩
  · have hsame := entries_jumped fun e he hold => hfirst ⟨e, he, hold⟩
    rcases hroom with ⟨i, h1, h2, hlen⟩ | ⟨k, e, he, hold⟩
    · rw [hsame] at hlen
      exact Or.inl ⟨i, h1, h2, hlen⟩
    · rw [turn_jumped h, hsame] at he
      exact Or.inr ⟨k + 1, e, he, hold⟩

theorem room_of_addLoop (h : Inv count c) {r : Outcome U D}
    (hloop : addLoop (some ()) count UUID NewData n clock c = some r) : c.Room clock := by
  induction n generalizing c clock with
  | zero => cases hloop
  | succ n ih =>
    by_cases hhere : (c.buckets c.addPos).entries.length < c.maxCacheCount
    · exact Or.inl ⟨c.addPos, h.one_le_addPos, h.addPos_le, hhere⟩
    · rcases Nat.lt_or_eq_of_le h.addPos_le with hnext | hlast
      · rw [addLoop_next h hhere hnext] at hloop
        exact room_next.mp (ih (h.next hnext) hloop)
      · rw [addLoop_clear h hhere hlast] at hloop
        exact room_of_jumped h (ih (h.jumped (clock 0)) hloop)

/-- The loop of `Add` ends exactly when there is room or will be. -/
theorem finds_iff (h : Inv count c) : Finds count UUID NewData clock c ↔ c.Room clock := by
  constructor
  · rintro ⟨n, r, hloop⟩
    exact room_of_addLoop h hloop
  · rintro (⟨i, h1, h2, hlen⟩ | ⟨k, e, he, hold⟩)
    · exact finds_of_room h h1 h2 hlen
    · exact finds_of_expired h he hold

end Loop

/-! ## Runs -/

inductive Op (U D : Type) where
  | Add (UUID : Option U) (dataTable : Option D) (now : ℤ) (clock : ℕ → ℤ)
  | Load (UUID : Option U) (now : ℤ)
  | Del (UUID : Option U)
  | Clear (now : ℤ)

def Op.isAdd : Op U D → Bool
  | .Add .. => true
  | _ => false

def exec (logs : Option Unit) (count : U) (n : ℕ) : Op U D → Cache U D → Option (Outcome U D)
  | .Add UUID dataTable now clock, c => Add logs count n UUID dataTable now clock c
  | .Load UUID now, c => some ((Load logs UUID now c).map Prod.fst)
  | .Del UUID, c => some (Del logs UUID c)
  | .Clear now, c => some (Clear logs now c)

/-- The operations end one after the other, each `Add` in one of some ways, and the records agree in
every state that the run reaches. -/
def Runs (logs : Option Unit) (count : U) (Fine : Outcome U D → Prop) :
    Cache U D → List (Op U D) → Prop
  | c, [] => Consistent c
  | c, op :: ops => Consistent c ∧ ∃ n r, exec logs count n op c = some r ∧
      (op.isAdd = true → Fine r) ∧ Runs logs count Fine r.cache ops

/-- Each operation meets a condition on the state that it finds. -/
def AdmittedRun (logs : Option Unit) (count : U) (Admitted : Cache U D → Op U D → Prop) :
    Cache U D → List (Op U D) → Prop
  | _, [] => True
  | c, op :: ops => Admitted c op ∧ ∀ n r, exec logs count n op c = some r →
      AdmittedRun logs count Admitted r.cache ops

/-- `Add` ends, with an error or without. -/
def Ends (logs : Option Unit) (count : U) (c : Cache U D) : Op U D → Prop
  | .Add UUID dataTable _ clock => logs = none ∨ UUID = none ∧ dataTable = none ∨
      (∃ u, UUID = some u ∧ c.UUID_CacheIDMap u ≠ none) ∨ UUID ≠ some count ∧ c.Room clock
  | _ => True

/-- `Add` ends without an error. -/
def Returns (logs : Option Unit) (count : U) (c : Cache U D) : Op U D → Prop
  | .Add UUID dataTable _ clock => logs = some () ∧ (UUID = none ∧ dataTable = none ∨
      ∃ u, UUID = some u ∧ (c.UUID_CacheIDMap u ≠ none ∨ u ≠ count ∧ c.Room clock))
  | _ => True

variable {logs : Option Unit}

omit [DecidableEq U] in
theorem ends_of_returns {op : Op U D} (h : Returns logs count c op) : Ends logs count c op := by
  cases op with
  | Add UUID dataTable now clock =>
    obtain ⟨-, hnil | ⟨u, hu, hcached | ⟨hname, hroom⟩⟩⟩ := h
    · exact Or.inr (Or.inl hnil)
    · exact Or.inr (Or.inr (Or.inl ⟨u, hu, hcached⟩))
    · exact Or.inr (Or.inr (Or.inr ⟨by rw [hu]; simpa using hname, hroom⟩))
  | Load UUID now => trivial
  | Del UUID => trivial
  | Clear now => trivial

section Step

variable {n : ℕ} {UUID : Option U} {dataTable : Option D} {now : ℤ} {clock : ℕ → ℤ}

theorem add_nil (hnil : UUID = none ∧ dataTable = none) :
    Add (some ()) count n UUID dataTable now clock c = some (.ok c) := by
  obtain ⟨rfl, rfl⟩ := hnil
  rfl

theorem add_cached {u : U} {i : ℕ} (hu : c.UUID_CacheIDMap u = some i) :
    Add (some ()) count n (some u) dataTable now clock c =
      some (.ok (c.setBucket i ((c.buckets i).put count u ⟨dataTable, now⟩))) := by
  simp only [Add, reduceCtorEq, false_and, if_false, hu]

theorem add_new (hnil : ¬(UUID = none ∧ dataTable = none))
    (hnew : ∀ u, UUID = some u → c.UUID_CacheIDMap u = none) :
    Add (some ()) count n UUID dataTable now clock c =
      addLoop (some ()) count UUID ⟨dataTable, now⟩ n clock c := by
  rw [← Option.isNone_iff_eq_none (o := dataTable)] at hnil
  simp only [Add, if_neg hnil]
  cases UUID with
  | none => rfl
  | some u => simp only [hnew u rfl]

/-- An id that is cached is in its bucket and keeps its place. -/
theorem inv_add_cached (h : Inv count c) {u : U} {i : ℕ} (hu : c.UUID_CacheIDMap u = some i)
    (NewData : Record D) : Inv count (c.setBucket i ((c.buckets i).put count u NewData)) := by
  obtain ⟨h1, h2, hkey⟩ := (h.ids u i).mp hu
  have hname : u ≠ count := by
    rintro rfl
    exact Option.some_ne_none _ (hu.symm.trans h.count_not_cached)
  rw [Bucket.put, if_neg hname]
  exact h.setEntries h1 h2 (keys_setEntry_of_mem hkey _)

/-- Under the name of the field `count` the entry takes the place of that number. -/
theorem not_consistent_of_place (h : Inv count c) (NewData : Record D) :
    ¬Consistent (Outcome.cache (place count (some count) NewData c)) := by
  intro hafter
  have hcount := hafter.count_eq c.addPos h.one_le_addPos
  simp only [place, Bucket.put, if_true, Outcome.cache, Cache.setBucket,
    Function.update_self] at hcount
  exact Option.some_ne_none _ (hcount h.addPos_le).symm

/-- What `Add` leaves when it ends, unless the records disagree. -/
theorem exec_add (h : Inv count c) {r : Outcome U D}
    (hexec : Add logs count n UUID dataTable now clock c = some r) (hcons : Consistent r.cache) :
    Ends logs count c (.Add UUID dataTable now clock) ∧ Inv count r.cache ∧
      (r.isOk = true ↔ Returns logs count c (.Add UUID dataTable now clock)) := by
  cases logs with
  | none =>
    cases hexec
    exact ⟨Or.inl rfl, h, iff_of_false nofun nofun⟩
  | some _ =>
    by_cases hnil : UUID = none ∧ dataTable = none
    · rw [add_nil hnil] at hexec
      cases hexec
      exact ⟨Or.inr (Or.inl hnil), h, iff_of_true rfl ⟨rfl, Or.inl hnil⟩⟩
    · by_cases hnew : ∀ u, UUID = some u → c.UUID_CacheIDMap u = none
      · rw [add_new hnil hnew] at hexec
        have hroom := room_of_addLoop h hexec
        obtain ⟨c', h', hids, hlen, rfl⟩ := addLoop_spec h hexec
        cases UUID with
        | none =>
          refine ⟨Or.inr (Or.inr (Or.inr ⟨nofun, hroom⟩)), h', iff_of_false nofun ?_⟩
          rintro ⟨-, hnil' | ⟨u, hu, -⟩⟩
          · exact hnil hnil'
          · cases hu
        | some u =>
          have hname : u ≠ count := by
            rintro rfl
            exact not_consistent_of_place h' _ hcons
          obtain ⟨c'', hplace, h''⟩ := h'.place hname (hids u (hnew u rfl)) hlen ⟨dataTable, now⟩
          rw [hplace]
          exact ⟨ends_of_returns ⟨rfl, Or.inr ⟨u, rfl, Or.inr ⟨hname, hroom⟩⟩⟩, h'',
            iff_of_true rfl ⟨rfl, Or.inr ⟨u, rfl, Or.inr ⟨hname, hroom⟩⟩⟩⟩
      · push Not at hnew
        obtain ⟨u, rfl, hcached⟩ := hnew
        obtain ⟨i, hi⟩ := Option.ne_none_iff_exists'.mp hcached
        rw [add_cached hi] at hexec
        cases hexec
        exact ⟨ends_of_returns ⟨rfl, Or.inr ⟨u, rfl, Or.inl hcached⟩⟩, inv_add_cached h hi _,
          iff_of_true rfl ⟨rfl, Or.inr ⟨u, rfl, Or.inl hcached⟩⟩⟩

/-- Where `Add` should end it does, and the records still agree. -/
theorem add_of_ends (h : Inv count c) (hends : Ends logs count c (.Add UUID dataTable now clock)) :
    ∃ n r, Add logs count n UUID dataTable now clock c = some r ∧ Consistent r.cache := by
  cases logs with
  | none => exact ⟨0, .error c, rfl, h.toConsistent⟩
  | some _ =>
    by_cases hnil : UUID = none ∧ dataTable = none
    · exact ⟨0, .ok c, add_nil hnil, h.toConsistent⟩
    · by_cases hnew : ∀ u, UUID = some u → c.UUID_CacheIDMap u = none
      · have hroom : UUID ≠ some count ∧ c.Room clock := by
          rcases hends with hlogs | hnil' | ⟨u, hu, hcached⟩ | hroom
          · cases hlogs
          · exact absurd hnil' hnil
          · exact absurd (hnew u hu) hcached
          · exact hroom
        obtain ⟨n, r, hloop⟩ : Finds count UUID ⟨dataTable, now⟩ clock c :=
          (finds_iff h).mpr hroom.2
        refine ⟨n, r, (add_new hnil hnew).trans hloop, ?_⟩
        obtain ⟨c', h', hids, hlen, rfl⟩ := addLoop_spec h hloop
        cases UUID with
        | none => exact h'.toConsistent
        | some u =>
          have hname : u ≠ count := fun hname => hroom.1 (congrArg some hname)
          obtain ⟨c'', hplace, h''⟩ := h'.place hname (hids u (hnew u rfl)) hlen ⟨dataTable, now⟩
          rw [hplace]
          exact h''.toConsistent
      · push Not at hnew
        obtain ⟨u, rfl, hcached⟩ := hnew
        obtain ⟨i, hi⟩ := Option.ne_none_iff_exists'.mp hcached
        exact ⟨0, _, add_cached hi, (inv_add_cached h hi _).toConsistent⟩

end Step

/-- Every operation that leaves the records in agreement keeps what holds between operations. -/
theorem inv_exec (h : Inv count c) {n : ℕ} {op : Op U D} {r : Outcome U D}
    (hexec : exec logs count n op c = some r) (hcons : Consistent r.cache) : Inv count r.cache := by
  cases op with
  | Add UUID dataTable now clock => exact (exec_add h hexec hcons).2.1
  | Load UUID now =>
    cases hexec
    exact inv_Load h logs UUID now
  | Del UUID =>
    cases hexec
    exact inv_Del h logs UUID
  | Clear now =>
    cases hexec
    exact inv_Clear h logs now

theorem exec_mono {n m : ℕ} {op : Op U D} {r : Outcome U D}
    (hexec : exec logs count n op c = some r) (hnm : n ≤ m) :
    exec logs count m op c = some r := by
  cases op with
  | Add UUID dataTable now clock =>
    cases logs with
    | none => exact hexec
    | some _ =>
      by_cases hnil : UUID = none ∧ dataTable = none
      · exact (add_nil hnil).trans ((add_nil hnil).symm.trans hexec)
      · by_cases hnew : ∀ u, UUID = some u → c.UUID_CacheIDMap u = none
        · exact (add_new hnil hnew).trans (addLoop_mono ((add_new hnil hnew).symm.trans hexec) hnm)
        · push Not at hnew
          obtain ⟨u, rfl, hcached⟩ := hnew
          obtain ⟨i, hi⟩ := Option.ne_none_iff_exists'.mp hcached
          exact (add_cached hi).trans ((add_cached hi).symm.trans hexec)
  | Load UUID now => exact hexec
  | Del UUID => exact hexec
  | Clear now => exact hexec

/-- How many rounds a loop is given does not matter to its outcome. -/
theorem exec_unique {n m : ℕ} {op : Op U D} {r r' : Outcome U D}
    (hn : exec logs count n op c = some r) (hm : exec logs count m op c = some r') : r = r' :=
  Option.some.inj ((exec_mono hn (le_max_left n m)).symm.trans (exec_mono hm (le_max_right n m)))

/-- An operation ends well, and the records agree afterwards. -/
def Step (logs : Option Unit) (count : U) (Fine : Outcome U D → Prop) (c : Cache U D)
    (op : Op U D) : Prop :=
  ∃ n r, exec logs count n op c = some r ∧ (op.isAdd = true → Fine r) ∧ Consistent r.cache

/-- `Load`, `Del` and `Clear` have nothing to wait for. -/
theorem step_of_not_add (h : Inv count c) {Fine : Outcome U D → Prop} {op : Op U D}
    (hop : op.isAdd = false) : Step logs count Fine c op := by
  cases op with
  | Add UUID dataTable now clock => cases hop
  | Load UUID now => exact ⟨0, _, rfl, nofun, (inv_Load h logs UUID now).toConsistent⟩
  | Del UUID => exact ⟨0, _, rfl, nofun, (inv_Del h logs UUID).toConsistent⟩
  | Clear now => exact ⟨0, _, rfl, nofun, (inv_Clear h logs now).toConsistent⟩

theorem step_ends_iff (h : Inv count c) (op : Op U D) :
    Step logs count (fun _ => True) c op ↔ Ends logs count c op := by
  cases op with
  | Add UUID dataTable now clock =>
    constructor
    · rintro ⟨n, r, hexec, -, hcons⟩
      exact (exec_add h hexec hcons).1
    · intro hends
      obtain ⟨n, r, hexec, hcons⟩ := add_of_ends h hends
      exact ⟨n, r, hexec, fun _ => trivial, hcons⟩
  | Load UUID now => exact iff_of_true (step_of_not_add h rfl) trivial
  | Del UUID => exact iff_of_true (step_of_not_add h rfl) trivial
  | Clear now => exact iff_of_true (step_of_not_add h rfl) trivial

theorem step_returns_iff (h : Inv count c) (op : Op U D) :
    Step logs count (fun r => r.isOk = true) c op ↔ Returns logs count c op := by
  cases op with
  | Add UUID dataTable now clock =>
    constructor
    · rintro ⟨n, r, hexec, hok, hcons⟩
      exact (exec_add h hexec hcons).2.2.mp (hok rfl)
    · intro hreturns
      obtain ⟨n, r, hexec, hcons⟩ := add_of_ends h (ends_of_returns hreturns)
      exact ⟨n, r, hexec, fun _ => (exec_add h hexec hcons).2.2.mpr hreturns, hcons⟩
  | Load UUID now => exact iff_of_true (step_of_not_add h rfl) trivial
  | Del UUID => exact iff_of_true (step_of_not_add h rfl) trivial
  | Clear now => exact iff_of_true (step_of_not_add h rfl) trivial

theorem runs_iff_admittedRun {Fine : Outcome U D → Prop} {Admitted : Cache U D → Op U D → Prop}
    (hstep : ∀ (c : Cache U D) (op : Op U D), Inv count c →
      (Step logs count Fine c op ↔ Admitted c op))
    (h : Inv count c) (ops : List (Op U D)) :
    Runs logs count Fine c ops ↔ AdmittedRun logs count Admitted c ops := by
  induction ops generalizing c with
  | nil => exact iff_of_true h.toConsistent trivial
  | cons op ops ih =>
    constructor
    · rintro ⟨-, n, r, hexec, hfine, hruns⟩
      have hcons : Consistent r.cache := by
        cases ops with
        | nil => exact hruns
        | cons op' ops => exact hruns.1
      refine ⟨(hstep c op h).mp ⟨n, r, hexec, hfine, hcons⟩, fun m r' hexec' => ?_⟩
      rw [← exec_unique hexec hexec']
      exact (ih (inv_exec h hexec hcons)).mp hruns
    · rintro ⟨hadm, hrest⟩
      obtain ⟨n, r, hexec, hfine, hcons⟩ := (hstep c op h).mpr hadm
      exact ⟨h.toConsistent, n, r, hexec, hfine,
        (ih (inv_exec h hexec hcons)).mpr (hrest n r hexec)⟩

/-- From an empty cache the records agree and every `Add` ends, or returns, exactly as long as each
`Add` finds what it needs. -/
theorem runs_create_iff {maxCache : ℕ} (hmax : 1 ≤ maxCache) (maxCacheCount : ℕ) (expireTime : ℤ)
    (logs : Option Unit) (count : U) (ops : List (Op U D)) :
    (Runs logs count (fun _ => True) (create maxCache maxCacheCount expireTime) ops ↔
        AdmittedRun logs count (Ends logs count) (create maxCache maxCacheCount expireTime) ops) ∧
      (Runs logs count (fun r => r.isOk = true) (create maxCache maxCacheCount expireTime) ops ↔
        AdmittedRun logs count (Returns logs count) (create maxCache maxCacheCount expireTime)
          ops) := by
  have h := inv_create (D := D) hmax maxCacheCount expireTime count
  exact ⟨runs_iff_admittedRun (fun c op hc => step_ends_iff hc op) h ops,
    runs_iff_admittedRun (fun c op hc => step_returns_iff hc op) h ops⟩

/-- A second id finds room once the first has expired. -/
theorem runs_create_iff_expired :
    Runs (some ()) "count" (fun r => r.isOk = true) (create 1 1 500)
      [.Add (some "a") (some 1) 0 fun _ => 0, .Add (some "b") (some 2) 501 fun _ => 501,
        .Load (some "b") 502, .Clear 1100, .Del (some "b")] := by
  refine (runs_create_iff le_rfl 1 500 (some ()) "count" _).2.mpr
    ⟨⟨rfl, Or.inr ⟨"a", rfl, Or.inr ⟨by decide, Or.inl ⟨1, le_rfl, le_rfl, Nat.one_pos⟩⟩⟩⟩,
      fun n r hexec => ?_⟩
  have hr := exec_unique hexec (m := 1) rfl
  subst hr
  refine ⟨⟨rfl, Or.inr ⟨"b", rfl, Or.inr ⟨by decide, Or.inr ⟨0, ("a", ⟨some 1, 0⟩), ?_, ?_⟩⟩⟩⟩, ?_⟩
  · exact List.mem_singleton_self _
  · decide
  · exact fun _ _ _ =>
      ⟨trivial, fun _ _ _ => ⟨trivial, fun _ _ _ => ⟨trivial, fun _ _ _ => trivial⟩⟩⟩

/-- With one place that is taken and time at a stop `Add` does not end. -/
theorem runs_create_full :
    ¬Runs (some ()) "count" (fun _ => True) (create 1 1 500)
      [.Add (some "a") (some 1) 0 fun _ => 0, .Add (some "b") (some 2) 0 fun _ => 0] := by
  rw [runs_iff_admittedRun (fun c op hc => step_ends_iff hc op) (inv_create le_rfl 1 500 "count")]
  rintro ⟨-, hrest⟩
  obtain ⟨hends, -⟩ := hrest 1 _ rfl
  rcases hends with hlogs | ⟨hnil, -⟩ | ⟨u, hu, hcached⟩ | ⟨-, ⟨i, h1, h2, hlen⟩ | ⟨k, e, he, hold⟩⟩
  · cases hlogs
  · cases hnil
  · cases hu
    exact hcached rfl
  · obtain rfl : i = 1 := Nat.le_antisymm h2 h1
    exact absurd hlen (by decide)
  · have hturn : ∀ c : Cache String ℕ, c.maxCache = 1 → c.turn k = 1 := fun c hc => by
      rw [Cache.turn, hc, Nat.mod_one]
    rw [hturn _ rfl] at he
    obtain rfl := List.mem_singleton.mp he
    exact absurd (show (0 : ℤ) - 0 > 500 from hold) (by decide)

end GameServer.DataCache
