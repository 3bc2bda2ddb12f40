import Mathlib.Data.List.Nodup
import Mathlib.Logic.Function.Basic
import Mathlib.Tactic

/-!
# The data cache

Buckets hold entries by their ids, and the ids name their buckets. `Add` looks for a bucket with
room from the place of the last one on; when the last bucket is full, too, it goes on from the
bucket that is next to be cleared. An operation gives the cache that it returns with or, where it
raises an error, the cache that the error leaves behind; a loop gives nothing when its rounds do not
suffice. `pairs` goes through a bucket in the order of its list.
-/

namespace GameServer.DataCache

/-- What is kept of a data table, nil or not. -/
structure Record (D : Type) where
  data : Option D
  lastUpdateTime : ℤ

/-- A bucket with its field `count`, which is none when that is not a number. -/
structure Bucket (U D : Type) where
  entries : List (U × Record D)
  count : Option ℤ

structure Cache (U D : Type) where
  maxCache : ℕ
  maxCacheCount : ℕ
  expireTime : ℤ
  buckets : ℕ → Bucket U D
  UUID_CacheIDMap : U → Option ℕ
  addPos : ℕ
  clearPos : ℕ
  lastClearTime : ℤ

variable {U D : Type}

def create (maxCache maxCacheCount : ℕ) (expireTime : ℤ) : Cache U D where
  maxCache
  maxCacheCount
  expireTime
  buckets _ := ⟨[], some 0⟩
  UUID_CacheIDMap _ := none
  addPos := 1
  clearPos := 0
  lastClearTime := 0

/-- The operation returned with a cache or left one with an error. -/
abbrev Outcome (U D : Type) := Except (Cache U D) (Cache U D)

def Outcome.cache : Outcome U D → Cache U D
  | .ok c => c
  | .error c => c

def keys (l : List (U × Record D)) : List U := l.map Prod.fst

variable [DecidableEq U]

def setEntry (l : List (U × Record D)) (u : U) (r : Record D) : List (U × Record D) :=
  if u ∈ keys l then l.map fun e => if e.1 = u then (u, r) else e else l ++ [(u, r)]

def removeEntry (l : List (U × Record D)) (u : U) : List (U × Record D) :=
  l.filter fun e => e.1 ≠ u

def Cache.setBucket (c : Cache U D) (i : ℕ) (b : Bucket U D) : Cache U D :=
  { c with buckets := Function.update c.buckets i b }

def Cache.setId (c : Cache U D) (u : U) (i : Option ℕ) : Cache U D :=
  { c with UUID_CacheIDMap := Function.update c.UUID_CacheIDMap u i }

/-! ## Operations -/

section Operations

/- The functions of the global names `log`, `slog`, `logerror` and `printTable`; none where they are
not defined. -/
variable (logs : Option Unit)

/-- The loop over the bucket that is cleared. -/
def sweep (curTime : ℤ) (pos : ℕ) : List (U × Record D) → Cache U D → Outcome U D
  | [], c => .ok c
  | (i, v) :: rest, c =>
      if curTime - v.lastUpdateTime > c.expireTime then
        let c := c.setId i none
        let entries := removeEntry (c.buckets pos).entries i
        match (c.buckets pos).count with
        | none => .error (c.setBucket pos ⟨entries, none⟩)
        | some count => sweep curTime pos rest (c.setBucket pos ⟨entries, some (count - 1)⟩)
      else sweep curTime pos rest c

def Clear (curTime : ℤ) (c : Cache U D) : Outcome U D :=
  if 1 ≤ c.clearPos ∧ c.clearPos ≤ c.maxCache then
    match logs with
    | none => .error c
    | some () =>
        match sweep curTime c.clearPos (c.buckets c.clearPos).entries c with
        | .error c => .error c
        | .ok c =>
            .ok { c with
              lastClearTime := curTime
              clearPos := if c.clearPos = c.maxCache then 0 else c.clearPos + 1 }
  else .ok c

/- The text `count`, which is also the name of a field of each bucket. -/
variable (count : U)

/-- The bucket with `NewData` under an id. -/
def Bucket.put (b : Bucket U D) (u : U) (NewData : Record D) : Bucket U D :=
  if u = count then { b with count := none } else { b with entries := setEntry b.entries u NewData }

/-- What `Add` does in a bucket with room. -/
def place (UUID : Option U) (NewData : Record D) (c : Cache U D) : Outcome U D :=
  match UUID with
  | none => .error c
  | some u =>
      let b := (c.buckets c.addPos).put count u NewData
      match b.count with
      | none => .error (c.setBucket c.addPos b)
      | some n => .ok ((c.setBucket c.addPos { b with count := some (n + 1) }).setId u c.addPos)

/-- The loop of `Add`, with the clock as each `Clear` reads it. -/
def addLoop (UUID : Option U) (NewData : Record D) :
    ℕ → (ℕ → ℤ) → Cache U D → Option (Outcome U D)
  | 0, _, _ => none
  | n + 1, clock, c =>
      match (c.buckets c.addPos).count with
      | none => some (.error c)
      | some k =>
          if k < c.maxCacheCount then some (place count UUID NewData c)
          else if c.addPos < c.maxCache then
            addLoop UUID NewData n clock { c with addPos := c.addPos + 1 }
          else if c.addPos = c.maxCache then
            let clearPos := if c.clearPos = 0 then 1 else c.clearPos
            match Clear logs (clock 0) { c with clearPos, addPos := clearPos } with
            | .error c => some (.error c)
            | .ok c => addLoop UUID NewData n (fun k => clock (k + 1)) c
          else addLoop UUID NewData n clock c

/-- Whatever `Add` does, it logs first. -/
def Add (n : ℕ) (UUID : Option U) (dataTable : Option D) (now : ℤ) (clock : ℕ → ℤ)
    (c : Cache U D) : Option (Outcome U D) :=
  match logs with
  | none => some (.error c)
  | some () =>
      if UUID = none ∧ dataTable.isNone then some (.ok c)
      else
        let NewData : Record D := ⟨dataTable, now⟩
        match UUID with
        | none => addLoop logs count none NewData n clock c
        | some u =>
            match c.UUID_CacheIDMap u with
            | none => addLoop logs count (some u) NewData n clock c
            | some i => some (.ok (c.setBucket i ((c.buckets i).put count u NewData)))

/-- `Load`, with the data that it returns. -/
def Load (UUID : Option U) (now : ℤ) (c : Cache U D) : Except (Cache U D) (Cache U D × Option D) :=
  match UUID.bind fun u => (c.UUID_CacheIDMap u).map (u, ·) with
  | none =>
      match logs with
      | none => .error c
      | some () => .ok (c, none)
  | some (u, i) =>
      match (c.buckets i).entries.find? fun e => e.1 = u with
      | none => .error c
      | some (_, r) =>
          let entries := setEntry (c.buckets i).entries u { r with lastUpdateTime := now }
          .ok (c.setBucket i { c.buckets i with entries }, r.data)

def Del (UUID : Option U) (c : Cache U D) : Outcome U D :=
  match UUID.bind fun u => (c.UUID_CacheIDMap u).map (u, ·) with
  | none =>
      match logs with
      | none => .error c
      | some () => .ok c
  | some (u, i) =>
      let entries := removeEntry (c.buckets i).entries u
      match (c.buckets i).count with
      | none => .error (c.setBucket i ⟨entries, none⟩)
      | some n => .ok ((c.setBucket i ⟨entries, some (n - 1)⟩).setId u none)

end Operations

/-! ## Agreement of the records -/

/-- The records agree: each `count` is the number of entries, which do not exceed the bound, and the
ids that are in the map are those of the entries of the bucket that it names. -/
structure Consistent (c : Cache U D) : Prop where
  keys_nodup : ∀ i, 1 ≤ i → i ≤ c.maxCache → (keys (c.buckets i).entries).Nodup
  count_eq : ∀ i, 1 ≤ i → i ≤ c.maxCache →
    (c.buckets i).count = some ((c.buckets i).entries.length : ℤ)
  length_le : ∀ i, 1 ≤ i → i ≤ c.maxCache → (c.buckets i).entries.length ≤ c.maxCacheCount
  ids : ∀ u i, c.UUID_CacheIDMap u = some i ↔
    1 ≤ i ∧ i ≤ c.maxCache ∧ u ∈ keys (c.buckets i).entries

/-- What holds between operations: besides, the two positions are those of buckets, or 0, and no
entry has the name of the field `count`. -/
structure Inv (count : U) (c : Cache U D) : Prop extends Consistent c where
  one_le_addPos : 1 ≤ c.addPos
  addPos_le : c.addPos ≤ c.maxCache
  clearPos_le : c.clearPos ≤ c.maxCache
  count_not_cached : c.UUID_CacheIDMap count = none

omit [DecidableEq U] in
theorem inv_create {maxCache : ℕ} (h : 1 ≤ maxCache) (maxCacheCount : ℕ) (expireTime : ℤ)
    (count : U) : Inv count (create maxCache maxCacheCount expireTime : Cache U D) where
  keys_nodup _ _ _ := List.nodup_nil
  count_eq _ _ _ := rfl
  length_le _ _ _ := Nat.zero_le _
  ids u i := by simp [create, keys]
  one_le_addPos := le_refl 1
  addPos_le := h
  clearPos_le := Nat.zero_le _
  count_not_cached := rfl

theorem keys_setEntry_of_mem {l : List (U × Record D)} {u : U} (h : u ∈ keys l) (r : Record D) :
    keys (setEntry l u r) = keys l := by
  rw [setEntry, if_pos h, keys, keys, List.map_map]
  refine List.map_congr_left fun e _ => ?_
  by_cases he : e.1 = u
  · simp [he]
  · simp [he]

theorem keys_setEntry_of_not_mem {l : List (U × Record D)} {u : U} (h : u ∉ keys l)
    (r : Record D) : keys (setEntry l u r) = keys l ++ [u] := by
  rw [setEntry, if_neg h, keys, List.map_append]
  rfl

omit [DecidableEq U] in
@[simp] theorem length_keys (l : List (U × Record D)) : (keys l).length = l.length :=
  List.length_map _

omit [DecidableEq U] in
/-- The records still agree when one bucket changes and the map names it for its keys only. -/
theorem Consistent.update {c : Cache U D} (h : Consistent c) {i : ℕ} (h1 : 1 ≤ i)
    (h2 : i ≤ c.maxCache) {l : List (U × Record D)} {m : U → Option ℕ}
    (hnodup : (keys l).Nodup) (hlen : l.length ≤ c.maxCacheCount)
    (hids : ∀ u j, m u = some j ↔ if j = i then u ∈ keys l else c.UUID_CacheIDMap u = some j) :
    Consistent { c with
      buckets := Function.update c.buckets i ⟨l, some (l.length : ℤ)⟩
      UUID_CacheIDMap := m } := by
  refine ⟨fun j hj1 hj2 => ?_, fun j hj1 hj2 => ?_, fun j hj1 hj2 => ?_, fun u j => ?_⟩
  · by_cases hj : j = i
    · simpa [hj] using hnodup
    · simpa [hj] using h.keys_nodup j hj1 hj2
  · by_cases hj : j = i
    · simp [hj]
    · simpa [hj] using h.count_eq j hj1 hj2
  · by_cases hj : j = i
    · simpa [hj] using hlen
    · simpa [hj] using h.length_le j hj1 hj2
  · by_cases hj : j = i
    · simp [hids, hj, h1, h2]
    · simpa [hids, hj] using h.ids u j

omit [DecidableEq U] in
/-- Entries with the same keys do not matter to the records. -/
theorem Inv.setEntries {count : U} {c : Cache U D} (h : Inv count c) {i : ℕ} (h1 : 1 ≤ i)
    (h2 : i ≤ c.maxCache) {entries : List (U × Record D)}
    (hkeys : keys entries = keys (c.buckets i).entries) :
    Inv count (c.setBucket i { c.buckets i with entries }) := by
  have hlen : entries.length = (c.buckets i).entries.length := by
    rw [← length_keys, hkeys, length_keys]
  have hupdate := h.toConsistent.update h1 h2 (hkeys ▸ h.keys_nodup i h1 h2)
    (hlen ▸ h.length_le i h1 h2) (m := c.UUID_CacheIDMap) fun u j => by
      by_cases hj : j = i
      · simp [hj, hkeys, h.ids, h1, h2]
      · simp [hj]
  rw [hlen, ← h.count_eq i h1 h2] at hupdate
  exact { hupdate, h with }

/-- An entry of a new id in a bucket with room. -/
theorem Inv.place {count : U} {c : Cache U D} (h : Inv count c) {u : U} (hcount : u ≠ count)
    (hnew : c.UUID_CacheIDMap u = none)
    (hroom : (c.buckets c.addPos).entries.length < c.maxCacheCount) (NewData : Record D) :
    ∃ c', place count (some u) NewData c = .ok c' ∧ Inv count c' := by
  have hc := h.count_eq c.addPos h.one_le_addPos h.addPos_le
  have hkey : u ∉ keys (c.buckets c.addPos).entries := fun hkey =>
    Option.some_ne_none _
      (((h.ids u c.addPos).mpr ⟨h.one_le_addPos, h.addPos_le, hkey⟩).symm.trans hnew)
  have hkeys := keys_setEntry_of_not_mem hkey NewData
  have hlen : (setEntry (c.buckets c.addPos).entries u NewData).length =
      (c.buckets c.addPos).entries.length + 1 := by
    rw [← length_keys, hkeys, List.length_append, length_keys, List.length_singleton]
  have hnodup : (keys (setEntry (c.buckets c.addPos).entries u NewData)).Nodup := by
    rw [hkeys, ← List.concat_eq_append]
    exact (h.keys_nodup c.addPos h.one_le_addPos h.addPos_le).concat hkey
  have hupdate := h.toConsistent.update h.one_le_addPos h.addPos_le hnodup (by omega)
    (m := Function.update c.UUID_CacheIDMap u (some c.addPos)) fun v j => by
      by_cases hv : v = u
      · subst hv
        by_cases hj : j = c.addPos
        · simp [hj, hkeys]
        · simp [hj, hnew, Ne.symm hj]
      · by_cases hj : j = c.addPos
        · simp [hv, hj, hkeys, h.ids, h.one_le_addPos, h.addPos_le]
        · simp [hv, hj]
  refine ⟨_, ?_, { hupdate, h with count_not_cached := ?_ }⟩
  · rw [hlen]
    simp only [DataCache.place, Bucket.put, if_neg hcount, hc]
    rfl
  · simpa [Ne.symm hcount] using h.count_not_cached

/-! ### Removal of entries -/

/-- The entries without some keys. -/
def without (l : List (U × Record D)) (us : List U) : List (U × Record D) :=
  l.filter fun e => e.1 ∉ us

@[simp] theorem keys_without (l : List (U × Record D)) (us : List U) :
    keys (without l us) = (keys l).filter (· ∉ us) := by
  rw [keys, keys, List.filter_map]
  rfl

theorem without_nil (l : List (U × Record D)) : without l [] = l :=
  List.filter_eq_self.mpr fun _ _ => decide_eq_true List.not_mem_nil

theorem without_without (l : List (U × Record D)) (u : U) (us : List U) :
    without (without l [u]) us = without l (u :: us) := by
  rw [without, without, without, List.filter_filter]
  refine List.filter_congr fun e _ => ?_
  by_cases he : e.1 = u <;> simp [he]

/-- Distinct keys that are there are as many fewer as are taken out. -/
theorem length_without {l : List (U × Record D)} {us : List U} (hl : (keys l).Nodup)
    (hus : us.Nodup) (h : ∀ u ∈ us, u ∈ keys l) : (without l us).length + us.length = l.length := by
  have hperm : ((keys l).filter (· ∈ us)).Perm us := by
    refine (List.perm_ext_iff_of_nodup (hl.filter _) hus).mpr fun u => ?_
    simpa using h u
  have hsplit := List.length_eq_countP_add_countP (· ∈ us) (l := keys l)
  rw [List.countP_eq_length_filter, List.countP_eq_length_filter, hperm.length_eq] at hsplit
  rw [← length_keys, keys_without, ← length_keys l, hsplit, Nat.add_comm]
  simp

/-- The cache without some ids of a bucket. -/
def Cache.erase (c : Cache U D) (i : ℕ) (us : List U) : Cache U D :=
  { c with
    buckets := Function.update c.buckets i
      ⟨without (c.buckets i).entries us, (c.buckets i).count.map (· - (us.length : ℤ))⟩
    UUID_CacheIDMap := fun u => if u ∈ us then none else c.UUID_CacheIDMap u }

theorem Cache.erase_nil (c : Cache U D) (i : ℕ) : c.erase i [] = c := by
  simp [Cache.erase, without_nil]

theorem Cache.erase_erase (c : Cache U D) (i : ℕ) (u : U) (us : List U) :
    (c.erase i [u]).erase i us = c.erase i (u :: us) := by
  have hids : (fun v => if v ∈ us then none else if v ∈ [u] then none else c.UUID_CacheIDMap v) =
      fun v => if v ∈ u :: us then none else c.UUID_CacheIDMap v := by
    funext v
    by_cases hv : v = u <;> by_cases hus : v ∈ us <;> simp [hv, hus]
  have hcount : ((c.buckets i).count.map (· - (([u] : List U).length : ℤ))).map
      (· - (us.length : ℤ)) = (c.buckets i).count.map (· - ((u :: us).length : ℤ)) := by
    cases (c.buckets i).count with
    | none => rfl
    | some n =>
      simp only [Option.map_some, List.length_cons, List.length_nil]
      congr 1
      omega
  simp only [Cache.erase, Function.update_self, Function.update_idem, without_without, hcount, hids]

theorem Inv.erase {count : U} {c : Cache U D} (h : Inv count c) {i : ℕ} (h1 : 1 ≤ i)
    (h2 : i ≤ c.maxCache) {us : List U} (hus : us.Nodup)
    (hmem : ∀ u ∈ us, u ∈ keys (c.buckets i).entries) : Inv count (c.erase i us) := by
  have hlen := length_without (h.keys_nodup i h1 h2) hus hmem
  have hle := h.length_le i h1 h2
  have hupdate := h.toConsistent.update h1 h2 (l := without (c.buckets i).entries us)
    (m := (c.erase i us).UUID_CacheIDMap)
    (by
      rw [keys_without]
      exact (h.keys_nodup i h1 h2).filter _)
    (by omega) fun u j => by
      by_cases hu : u ∈ us
      · -- an id that is taken out was cached in this bucket and in no other
        have honly : c.UUID_CacheIDMap u = some i := (h.ids u i).mpr ⟨h1, h2, hmem u hu⟩
        by_cases hj : j = i
        · simp [Cache.erase, hu, hj]
        · simp [Cache.erase, hu, hj, honly, Ne.symm hj]
      · by_cases hj : j = i
        · simp [Cache.erase, hu, hj, h.ids, h1, h2]
        · simp [Cache.erase, hu, hj]
  have hcount : (c.buckets i).count.map (· - (us.length : ℤ)) =
      some ((without (c.buckets i).entries us).length : ℤ) := by
    rw [h.count_eq i h1 h2, Option.map_some]
    congr 1
    omega
  rw [← hcount] at hupdate
  exact { hupdate, h with count_not_cached := by simp [Cache.erase, h.count_not_cached] }

/-- The keys of the entries that have expired. -/
def expired (curTime expireTime : ℤ) (l : List (U × Record D)) : List U :=
  keys (l.filter fun e => curTime - e.2.lastUpdateTime > expireTime)

/-- To take one entry out of its bucket and of the map is to erase it. -/
theorem Cache.erase_one (c : Cache U D) {i : ℕ} {n : ℤ} (hcount : (c.buckets i).count = some n)
    (u : U) : (c.setId u none).setBucket i ⟨removeEntry (c.buckets i).entries u, some (n - 1)⟩ =
      c.erase i [u] := by
  have hentries : removeEntry (c.buckets i).entries u = without (c.buckets i).entries [u] :=
    List.filter_congr fun e _ => by simp
  have hids : Function.update c.UUID_CacheIDMap u none =
      fun v => if v ∈ [u] then none else c.UUID_CacheIDMap v := by
    funext v
    by_cases hv : v = u <;> simp [hv]
  simp only [Cache.erase, Cache.setId, Cache.setBucket, hcount, hentries, hids]
  rfl

theorem sweep_eq (curTime : ℤ) (pos : ℕ) (l : List (U × Record D)) (c : Cache U D)
    (hcount : (c.buckets pos).count ≠ none) :
    sweep curTime pos l c = .ok (c.erase pos (expired curTime c.expireTime l)) := by
  induction l generalizing c with
  | nil => exact congrArg _ (c.erase_nil pos).symm
  | cons e rest ih =>
    obtain ⟨i, v⟩ := e
    obtain ⟨n, hn⟩ := Option.ne_none_iff_exists'.mp hcount
    by_cases hold : curTime - v.lastUpdateTime > c.expireTime
    · have hexpired : expired curTime c.expireTime ((i, v) :: rest) =
          i :: expired curTime c.expireTime rest := by
        simp [expired, keys, hold]
      have hrest : ((c.erase pos [i]).buckets pos).count ≠ none := by
        simp [Cache.erase, hn]
      calc sweep curTime pos ((i, v) :: rest) c
          = sweep curTime pos rest ((c.setId i none).setBucket pos
              ⟨removeEntry (c.buckets pos).entries i, some (n - 1)⟩) := by
            rw [sweep, if_pos hold]
            simp only [Cache.setId, hn]
        _ = sweep curTime pos rest (c.erase pos [i]) := by rw [c.erase_one hn]
        _ = .ok ((c.erase pos [i]).erase pos (expired curTime c.expireTime rest)) := ih _ hrest
        _ = .ok (c.erase pos (expired curTime c.expireTime ((i, v) :: rest))) := by
            rw [Cache.erase_erase, hexpired]
    · have hexpired : expired curTime c.expireTime ((i, v) :: rest) =
          expired curTime c.expireTime rest := by
        simp [expired, hold]
      rw [sweep, if_neg hold, hexpired, ih c hcount]

omit [DecidableEq U] in
theorem expired_sublist (curTime expireTime : ℤ) (l : List (U × Record D)) :
    (expired curTime expireTime l).Sublist (keys l) :=
  List.filter_sublist.map _

/-- The place after one, where 0 stands for the end. -/
def Cache.nextPos (c : Cache U D) : ℕ := if c.clearPos = c.maxCache then 0 else c.clearPos + 1

/-- The cache after `Clear` at a place. -/
def Cache.cleared (c : Cache U D) (curTime : ℤ) : Cache U D :=
  { c.erase c.clearPos
      (expired curTime c.expireTime (c.buckets c.clearPos).entries) with
    lastClearTime := curTime
    clearPos := c.nextPos }

theorem Clear_eq {count : U} {c : Cache U D} (h : Inv count c) (hpos : 1 ≤ c.clearPos)
    (curTime : ℤ) : Clear (some ()) curTime c = .ok (c.cleared curTime) := by
  have hcount : (c.buckets c.clearPos).count ≠ none := by
    rw [h.count_eq c.clearPos hpos h.clearPos_le]
    exact Option.some_ne_none _
  rw [Clear, if_pos ⟨hpos, h.clearPos_le⟩]
  simp only [sweep_eq curTime c.clearPos _ c hcount]
  rfl

theorem Inv.cleared {count : U} {c : Cache U D} (h : Inv count c) (hpos : 1 ≤ c.clearPos)
    (curTime : ℤ) : Inv count (c.cleared curTime) := by
  have hsub := expired_sublist curTime c.expireTime (c.buckets c.clearPos).entries
  have herase := h.erase hpos h.clearPos_le
    (hsub.nodup (h.keys_nodup c.clearPos hpos h.clearPos_le)) fun u hu => hsub.mem hu
  exact
    { herase with
      clearPos_le := by
        have hle := h.clearPos_le
        simp only [Cache.cleared, Cache.nextPos, Cache.erase]
        split
        · exact Nat.zero_le _
        · omega }

theorem Clear_of_clearPos_eq_zero (logs : Option Unit) (curTime : ℤ) {c : Cache U D}
    (h : c.clearPos = 0) : Clear logs curTime c = .ok c := by
  have hpos : ¬(1 ≤ c.clearPos ∧ c.clearPos ≤ c.maxCache) := by omega
  simp only [Clear, if_neg hpos]

/-- What `Clear` leaves, also where it has nothing to report to. -/
theorem inv_Clear {count : U} {c : Cache U D} (h : Inv count c) (logs : Option Unit)
    (curTime : ℤ) : Inv count (Clear logs curTime c).cache := by
  rcases Nat.eq_zero_or_pos c.clearPos with hpos | hpos
  · rw [Clear_of_clearPos_eq_zero logs curTime hpos]
    exact h
  · cases logs with
    | none =>
      rw [Clear, if_pos ⟨hpos, h.clearPos_le⟩]
      exact h
    | some _ =>
      rw [Clear_eq h hpos]
      exact h.cleared hpos curTime

/-! ### The other operations -/

theorem inv_Del {count : U} {c : Cache U D} (h : Inv count c) (logs : Option Unit)
    (UUID : Option U) : Inv count (Del logs UUID c).cache := by
  unfold Del
  cases hcached : UUID.bind fun u => (c.UUID_CacheIDMap u).map (u, ·) with
  | none => cases logs <;> exact h
  | some found =>
    obtain ⟨u, -, hu⟩ := Option.bind_eq_some_iff.mp hcached
    obtain ⟨i, hi, rfl⟩ := Option.map_eq_some_iff.mp hu
    obtain ⟨h1, h2, hkey⟩ := (h.ids u i).mp hi
    simp only [h.count_eq i h1 h2]
    have herase := c.erase_one (h.count_eq i h1 h2) u
    simp only [Cache.setId, Cache.setBucket, Outcome.cache] at herase ⊢
    rw [herase]
    exact h.erase h1 h2 (List.nodup_singleton u) fun v hv => List.mem_singleton.mp hv ▸ hkey

theorem inv_Load {count : U} {c : Cache U D} (h : Inv count c) (logs : Option Unit)
    (UUID : Option U) (now : ℤ) :
    Inv count (Outcome.cache ((Load logs UUID now c).map Prod.fst)) := by
  unfold Load
  cases hcached : UUID.bind fun u => (c.UUID_CacheIDMap u).map (u, ·) with
  | none => cases logs <;> exact h
  | some found =>
    obtain ⟨u, -, hu⟩ := Option.bind_eq_some_iff.mp hcached
    obtain ⟨i, hi, rfl⟩ := Option.map_eq_some_iff.mp hu
    obtain ⟨h1, h2, hkey⟩ := (h.ids u i).mp hi
    cases hfind : (c.buckets i).entries.find? fun e => e.1 = u with
    | none =>
      simp only [hfind]
      exact h
    | some e =>
      simp only [hfind]
      exact h.setEntries h1 h2 (keys_setEntry_of_mem hkey _)

end GameServer.DataCache
