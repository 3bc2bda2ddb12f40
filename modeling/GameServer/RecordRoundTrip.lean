import GameServer.Records

/-!
# Records across a load

Every update leaves the store with the text of all fields of the unit in memory. What a load gives
back is then decided by the list of fields of its loader: that of the skills does not have `flag`.
-/

namespace GameServer.Records

open Goods Agent Transition
open AgentService (Macro_GetMissionSerialId)

variable {env : Env} {listing : Listing} {s s' : Account} {store store' : Store} {kind : Kind}
  {name uuid : String} {fields written : Fields} {names : List Field} {f : Field} {v : Value}
  {changes : List (Field × Value)} {hash : Option Hash} {key : Key} {item : Item}

/-! ## What an update writes -/

/-- The hash has the text of every field. -/
def Holds (hash : Option Hash) (fields : Fields) : Prop :=
  ∃ h, hash = some h ∧ ∀ f v, fields f = some v → h f = some v.tostring

/-- The effect of a call on a kind: one hash is written, and its number is listed. -/
structure Writes (store store' : Store) (kind : Kind) (name : String) (written : Fields) :
    Prop where
  hashes : store'.hashes = Function.update store.hashes (kind.key name)
    (some fun f =>
      ((written f).map Value.tostring).or ((store.hashes (kind.key name)).bind (· f)))
  mem : ∀ other uuid, uuid ∈ store'.sets other ↔
    uuid ∈ store.sets other ∨ (other = kind ∧ uuid = name ∧ kind.key name = .unit name)

theorem packdb_all : packdb fields [] = some fields := if_pos rfl

/-- A named field is written as it is in the unit. -/
theorem packdb_of_named (h : packdb fields names = some written) (hnamed : names = [] ∨ f ∈ names)
    (hf : fields f = some v) : written f = some v := by
  unfold packdb at h
  split at h
  · cases h
    exact hf
  · split at h
    · cases h
      simp [hnamed.resolve_left ‹_›, hf]
    · cases h

theorem packdb_of_unnamed (h : packdb fields names = some written)
    (hnamed : ¬ (names = [] ∨ f ∈ names)) : written f = none := by
  obtain ⟨hsome, hnot⟩ := not_or.mp hnamed
  unfold packdb at h
  rw [if_neg hsome] at h
  split at h
  · cases h
    exact if_neg hnot
  · cases h

theorem packdb_isSome (h : ∀ f ∈ names, (fields f).isSome) : (packdb fields names).isSome := by
  unfold packdb
  rw [if_pos h]
  split <;> rfl

theorem update_isSome (hpack : (packdb fields names).isSome) :
    (store.update kind name fields names).isSome := by
  obtain ⟨written, hwritten⟩ := Option.isSome_iff_exists.mp hpack
  cases kind with
  | mails =>
      simp only [Store.update, Store.mailsUpdate, hwritten]
      split <;> rfl
  | _ =>
      simp only [Store.update, Store.put, Store.add, hwritten]
      rfl

theorem mem_sadd (other : Kind) :
    uuid ∈ (store.sadd kind name).sets other ↔
      uuid ∈ store.sets other ∨ (other = kind ∧ uuid = name) := by
  unfold Store.sadd
  by_cases ho : other = kind
  · subst ho
    simp [or_comm]
  · simp [ho]

theorem writes_put (kind : Kind) (hkey : kind.key name ≠ .unit name)
    (h : store.put (kind.key name) fields names = some store') :
    ∃ written, packdb fields names = some written ∧ Writes store store' kind name written := by
  obtain ⟨written, hpack, h⟩ := Option.bind_eq_some_iff.mp h
  cases h
  exact ⟨written, hpack, rfl, fun other uuid => by simp [Store.hmset, hkey]⟩

theorem writes_add (hkey : kind.key name = .unit name)
    (h : store.add kind name fields names = some store') :
    ∃ written, packdb fields names = some written ∧ Writes store store' kind name written := by
  obtain ⟨written, hpack, h⟩ := Option.bind_eq_some_iff.mp h
  cases h
  refine ⟨written, hpack, ?_, fun other uuid => ?_⟩
  · rw [hkey]
    rfl
  · exact (mem_sadd other).trans (by simp [hkey])

theorem writes_create (h : store.create kind name fields = some store') :
    Writes store store' kind name fields := by
  have hwrites : ∃ written, packdb fields [] = some written ∧
      Writes store store' kind name written := by
    cases kind with
    | activity => exact writes_put .activity (by simp [Kind.key]) h
    | cooldown => exact writes_put .cooldown (by simp [Kind.key]) h
    | cards => exact writes_add rfl h
    | skills => exact writes_add rfl h
    | missions => exact writes_add rfl h
    | explores => exact writes_add rfl h
    | mails => exact writes_add rfl h
  obtain ⟨written, hpack, hwrites⟩ := hwrites
  rw [packdb_all, Option.some.injEq] at hpack
  exact hpack ▸ hwrites

/-- An update of a unit that is stored and listed. -/
theorem writes_update (hthere : (store.hashes (kind.key name)).isSome)
    (hlisted : kind.key name = .unit name → name ∈ store.sets kind)
    (h : store.update kind name fields names = some store') :
    ∃ written, packdb fields names = some written ∧ Writes store store' kind name written := by
  cases kind with
  | activity => exact writes_put .activity (by simp [Kind.key]) h
  | cooldown => exact writes_put .cooldown (by simp [Kind.key]) h
  | cards => exact writes_add rfl h
  | skills => exact writes_add rfl h
  | missions => exact writes_add rfl h
  | explores => exact writes_add rfl h
  | mails =>
      simp only [Store.update, Store.mailsUpdate] at h
      rw [if_pos (show (store.hashes (.unit name)).isSome from hthere)] at h
      obtain ⟨written, hpack, h⟩ := Option.bind_eq_some_iff.mp h
      cases h
      refine ⟨written, hpack, rfl, fun other uuid => ?_⟩
      constructor
      · exact Or.inl
      · rintro (hmem | ⟨rfl, rfl, hkey⟩)
        · exact hmem
        · exact hlisted hkey

/-! ## Every run -/

/-- The store has every unit in memory. -/
structure Saved (env : Env) (s : Account) : Prop where
  holds : ∀ key item, s.memory key = some item → Holds (s.store.hashes key) item.fields
  typed : ∀ key item, s.memory key = some item → ∀ f v, item.fields f = some v → f.holds v
  made : ∀ key item, s.memory key = some item →
    ∃ fields, item.origin.init env = some fields ∧
      ∀ f, (fields f).isSome → (item.fields f).isSome
  keyed : ∀ key item, s.memory key = some item → ∃ name, key = item.origin.kind.key name
  listed : ∀ uuid item, s.memory (.unit uuid) = some item → uuid ∈ s.store.sets item.origin.kind
  known : ∀ uuid kind, uuid ∈ s.store.sets kind →
    ∃ item, s.memory (.unit uuid) = some item ∧ item.origin.kind = kind

theorem Saved.init : Saved env (records env).init where
  holds _ _ h := nomatch h
  typed _ _ h := nomatch h
  made _ _ h := nomatch h
  keyed _ _ h := nomatch h
  listed _ _ h := nomatch h
  known _ _ h := absurd h List.not_mem_nil

theorem mem_of_lookup (h : changes.lookup f = some v) : (f, v) ∈ changes := by
  induction changes with
  | nil => exact absurd h (by simp)
  | cons e changes ih =>
      rw [List.lookup_cons] at h
      by_cases he : f = e.1
      · simp only [he, beq_self_eq_true, Option.some.injEq] at h
        rw [he, ← h]
        exact List.mem_cons_self
      · rw [beq_false_of_ne he] at h
        exact List.mem_cons_of_mem e (ih h)

/-- A field is as it was or has been changed. -/
theorem assign_eq_some (h : assign fields changes f = some v) :
    (f, v) ∈ changes ∨ fields f = some v := by
  unfold assign at h
  cases hlookup : changes.lookup f with
  | none =>
      rw [hlookup, Option.none_or] at h
      exact Or.inr h
  | some w =>
      rw [hlookup, Option.some_or] at h
      exact Or.inl (mem_of_lookup (hlookup.trans h))

theorem assign_typed (hfields : ∀ f v, fields f = some v → f.holds v)
    (hchanges : changes.all fun e => e.1.holds e.2) (h : assign fields changes f = some v) :
    f.holds v := by
  obtain hmem | hold := assign_eq_some h
  · exact List.all_eq_true.mp hchanges _ hmem
  · exact hfields f v hold

theorem isSome_assign (h : (fields f).isSome) : (assign fields changes f).isSome := by
  unfold assign
  cases changes.lookup f with
  | none => exact h
  | some v => rfl

theorem key_eq_unit (h : kind.key name = .unit uuid) : name = uuid := by
  cases kind <;> cases h
  all_goals rfl

theorem init_typed {origin : Creation} (h : origin.init env = some fields)
    (hf : fields f = some v) : f.holds v := by
  cases origin with
  | card dataId =>
      obtain ⟨gained, -, h⟩ := Option.bind_eq_some_iff.mp h
      cases h
      cases f <;> simp only [Option.ite_none_right_eq_some, reduceCtorEq] at hf
      case skill i =>
        cases hf.2
        rfl
      all_goals
        cases hf
        rfl
  | explore dataId att cam =>
      cases h
      cases f <;> simp only [initExplore, Option.ite_none_right_eq_some, reduceCtorEq] at hf
      case att i =>
        cases hf.2
        rfl
      case cam i =>
        cases hf.2
        rfl
      case uuid i =>
        cases hf.2
        rfl
      all_goals
        cases hf
        rfl
  | _ =>
      cases h
      cases f <;> cases hf
      all_goals rfl

theorem update_eq_some {α β : Type*} [DecidableEq α] {m : α → Option β} {a a' : α} {b b' : β}
    (h : Function.update m a (some b) a' = some b') : (a' = a ∧ b' = b) ∨
    (a' ≠ a ∧ m a' = some b') := by
  by_cases ha : a' = a
  · subst ha
    rw [Function.update_self, Option.some.injEq] at h
    exact Or.inl ⟨rfl, h.symm⟩
  · rw [Function.update_of_ne ha] at h
    exact Or.inr ⟨ha, h⟩

/-- A unit is put in memory and the store gets those of its fields that it does not have yet. -/
theorem Saved.put (hs : Saved env s) (item : Item) (hkind : item.origin.kind = kind)
    (htyped : ∀ f v, item.fields f = some v → f.holds v)
    (hmade : ∃ fields, item.origin.init env = some fields ∧
      ∀ f, (fields f).isSome → (item.fields f).isSome)
    (hwrites : Writes s.store store' kind name written)
    (hfields : ∀ f v, item.fields f = some v → written f = some v ∨
      (written f = none ∧ (s.store.hashes (kind.key name)).bind (· f) = some v.tostring))
    (hown : ∀ old, s.memory (kind.key name) = some old → kind.key name = .unit name →
      old.origin.kind = kind) :
    Saved env {
      memory := Function.update s.memory (kind.key name) (some item)
      store := store' } where
  holds key item' h := by
    rw [hwrites.hashes]
    obtain ⟨rfl, rfl⟩ | ⟨hkey, h⟩ := update_eq_some h
    · rw [Function.update_self]
      refine ⟨_, rfl, fun f v hf => ?_⟩
      obtain hnew | ⟨hnone, hold⟩ := hfields f v hf
      · rw [hnew]
        rfl
      · rw [hnone, hold]
        rfl
    · rw [Function.update_of_ne hkey]
      exact hs.holds key item' h
  typed key item' h := by
    obtain ⟨rfl, rfl⟩ | ⟨hkey, h⟩ := update_eq_some h
    · exact htyped
    · exact hs.typed key item' h
  made key item' h := by
    obtain ⟨rfl, rfl⟩ | ⟨hkey, h⟩ := update_eq_some h
    · exact hmade
    · exact hs.made key item' h
  keyed key item' h := by
    obtain ⟨rfl, rfl⟩ | ⟨hkey, h⟩ := update_eq_some h
    · exact ⟨name, by rw [hkind]⟩
    · exact hs.keyed key item' h
  listed uuid item' h := by
    apply (hwrites.mem _ _).mpr
    obtain ⟨hkey, rfl⟩ | ⟨hkey, h⟩ := update_eq_some h
    · obtain rfl := key_eq_unit hkey.symm
      exact Or.inr ⟨hkind, rfl, hkey.symm⟩
    · exact Or.inl (hs.listed uuid item' h)
  known uuid other hmem := by
    obtain hmem | ⟨rfl, rfl, hkey⟩ := (hwrites.mem other uuid).mp hmem
    · obtain ⟨old, hold, hother⟩ := hs.known uuid other hmem
      by_cases hkey : Key.unit uuid = kind.key name
      · have huuid : name = uuid := key_eq_unit hkey.symm
        subst huuid
        refine ⟨item, ?_, ?_⟩
        · rw [hkey]
          exact Function.update_self _ _ _
        · rw [hkind, ← hother]
          exact (hown old (hkey ▸ hold) hkey.symm).symm
      · exact ⟨old, (Function.update_of_ne hkey _ _).trans hold, hother⟩
    · refine ⟨item, ?_, hkind⟩
      rw [hkey]
      exact Function.update_self _ _ _

theorem Saved.step (hs : Saved env s) {e : Event} (hnames : s.Names e)
    (hstep : s.step env e = some s') : Saved env s' := by
  cases e with
  | create name origin changes =>
      obtain ⟨fields, hinit, hstep⟩ := Option.bind_eq_some_iff.mp hstep
      obtain ⟨_, hchanges, hstep⟩ := Option.bind_eq_some_iff.mp hstep
      obtain ⟨_, hfree, hstep⟩ := Option.bind_eq_some_iff.mp hstep
      obtain ⟨store', hstore, hstep⟩ := Option.bind_eq_some_iff.mp hstep
      rw [Option.guard_eq_some'] at hchanges hfree
      cases hstep
      apply hs.put { origin, fields := assign fields changes } rfl
      · exact fun f v => assign_typed (fun f v => init_typed hinit) hchanges
      · exact ⟨fields, hinit, fun f => isSome_assign⟩
      · exact writes_create hstore
      · exact fun f v hf => Or.inl hf
      · intro old hold hkey
        rw [hfree hkey] at hold
        exact absurd hold (by simp)
  | update kind name changes names =>
      obtain ⟨item, hitem, hstep⟩ := Option.bind_eq_some_iff.mp hstep
      obtain ⟨_, hkind, hstep⟩ := Option.bind_eq_some_iff.mp hstep
      obtain ⟨_, hchanges, hstep⟩ := Option.bind_eq_some_iff.mp hstep
      rw [Option.guard_eq_some'] at hchanges hkind
      cases hstep
      have hpacked : (packdb (assign item.fields changes) names).isSome := by
        rcases hnames with rfl | ⟨-, hsome⟩
        · rw [packdb_all]
          rfl
        · exact packdb_isSome (hsome item hitem)
      obtain ⟨store', hstore⟩ :=
        Option.isSome_iff_exists.mp (update_isSome hpacked)
      rw [hstore, Option.getD_some]
      obtain ⟨h, hhash, hhas⟩ := hs.holds _ item hitem
      have hlisted (hkey : kind.key name = .unit name) : name ∈ s.store.sets kind := by
        rw [hkey] at hitem
        exact hkind ▸ hs.listed name item hitem
      obtain ⟨written, hpack, hwrites⟩ :=
        writes_update (by rw [hhash]; rfl) hlisted hstore
      apply hs.put { item with fields := assign item.fields changes } hkind _ _ hwrites
      · intro f v hf
        by_cases hnamed : names = [] ∨ f ∈ names
        · exact Or.inl (packdb_of_named hpack hnamed hf)
        · obtain hchanged | hkept := assign_eq_some hf
          · obtain hall | hsome := hnames
            · exact absurd (Or.inl hall) hnamed
            · exact absurd (Or.inr (hsome.1 _ hchanged)) hnamed
          · refine Or.inr ⟨packdb_of_unnamed hpack hnamed, ?_⟩
            rw [hhash]
            exact hhas f v hkept
      · intro old hold _
        rw [hitem, Option.some.injEq] at hold
        exact hold ▸ hkind
      · exact fun f v => assign_typed (hs.typed _ item hitem) hchanges
      · obtain ⟨fields, hinit, hthere⟩ := hs.made _ item hitem
        exact ⟨fields, hinit, fun f hf => isSome_assign (hthere f hf)⟩

/-- In a run whose updates name what they change the store has every unit. -/
theorem saved (hs : (records env).Runs Account.Names s) : Saved env s :=
  hs.invariant .init fun _ _ _ hs hnames hstep => hs.step hnames hstep

/-! ## What a load gives back -/

/-- The loader of the kind reads all that was created: there is no field beside those it lists. -/
def Covered (env : Env) : Creation → Prop
  | .card dataId =>
    ∀ gained ∈ autoSkills env (env.data.heroRepository dataId) env.data.autoGainSkills,
      gained.length ≤ 8
  | .skill _ => False
  | _ => True

theorem tonumber_repr (n : ℤ) : tonumber n.repr = some n := Int.toInt?_repr n

/-- Text that a field of a type was turned into is read as the field. -/
theorem read_tostring {read : Read} (hread : f.read = some read) (hholds : f.holds v) :
    read.read (some v.tostring) = some v := by
  unfold Field.holds at hholds
  rw [hread] at hholds
  cases read <;> cases v <;> simp_all [Read.read, Value.tostring, tonumber_repr]

theorem read_of_reads {read : Read} (h : kind.reads f = some read) : f.read = some read := by
  cases kind with
  | cards =>
      cases f <;> simp only [Kind.reads, Cards.reads, Option.ite_none_right_eq_some,
        reduceCtorEq] at h
      case skill i => exact h.2
      all_goals exact h
  | explores =>
      cases f <;>
        simp only [Kind.reads, Explores.reads, Option.ite_none_right_eq_some, reduceCtorEq] at h
      case att i => exact h.2
      case cam i => exact h.2
      case uuid i => exact h.2
      all_goals exact h
  | _ => cases f <;> cases h <;> rfl

theorem loaded_eq_iff (hhash : Holds hash fields) (htyped : ∀ f v, fields f = some v → f.holds v)
    (hf : fields f = some v) :
    loaded kind.reads hash f = some v ↔ (kind.reads f).isSome := by
  obtain ⟨h, rfl, hhas⟩ := hhash
  unfold loaded
  cases hreads : kind.reads f with
  | none => simp
  | some read =>
      have hread := read_tostring (read_of_reads hreads) (htyped f v hf)
      simp only [Option.bind_eq_bind, Option.bind_some, hhas f v hf, hread, Option.isSome_some]

/-- The fields of a new unit that its loader reads. -/
theorem covered_iff {origin : Creation} (h : origin.init env = some fields) :
    (∀ f, (fields f).isSome → (origin.kind.reads f).isSome) ↔ Covered env origin := by
  cases origin with
  | card dataId =>
      obtain ⟨gained, hgained, h⟩ := Option.bind_eq_some_iff.mp h
      cases h
      constructor
      · intro hall gained' hgained'
        obtain rfl := Option.some.inj (hgained.symm.trans hgained')
        by_contra hmore
        have hread := hall (.skill 8) (by simp; omega)
        exact absurd hread Bool.false_ne_true
      · intro hfew f hf
        have hlength := hfew gained hgained
        cases f <;> simp_all [Creation.kind, Kind.reads, Cards.reads]
  | skill dataId =>
      cases h
      apply iff_of_false
      · intro hall
        exact absurd (hall .flag rfl) Bool.false_ne_true
      · exact id
  | explore dataId att cam =>
      cases h
      apply iff_of_true
      · intro f hf
        cases f <;> simp_all [initExplore, Creation.kind, Kind.reads, Explores.reads]
      · trivial
  | _ =>
      cases h
      apply iff_of_true
      · intro f hf
        cases f <;> first | rfl | cases hf
      · trivial

/-! ## Which units a load finds -/

/-- The series of a mission in memory. -/
def Account.series (s : Account) (uuid : String) : Option ℤ :=
  match (s.memory (.unit uuid)).bind fun item => item.fields .dataId with
  | some (.number dataId) => some (Macro_GetMissionSerialId dataId)
  | _ => none

/-- No mission of the series stands behind this one in the set of the account. -/
def LastOfSeries (listing : Listing) (s : Account) (uuid : String) : Prop :=
  ∃ before after, listing.smembers (s.store.sets .missions) = before ++ uuid :: after ∧
    ∀ v ∈ after, s.series v ≠ s.series uuid

theorem append_eq_cons_append {α : Type*} {l before after : List α} {x a : α}
    (h : l ++ [x] = before ++ a :: after) :
    (a = x ∧ after = []) ∨ ∃ after', after = after' ++ [x] ∧ l = before ++ a :: after' := by
  obtain rfl | ⟨after', y, rfl⟩ := List.eq_nil_or_concat after
  · exact Or.inl ⟨by simpa using (List.append_inj' h rfl).2.symm, rfl⟩
  · have hsplit : l ++ [x] = (before ++ a :: after') ++ [y] := by simpa using h
    obtain ⟨hl, hx⟩ := List.append_inj' hsplit rfl
    rw [List.singleton_inj] at hx
    exact Or.inr ⟨after', by simp [hx], hl⟩

/-- A table that is filled in one go holds under a key the last of those that go there. -/
theorem foldl_update_eq_some {α β γ : Type*} [DecidableEq β] (k : α → β) (g : α → γ) (l : List α)
    (key : β) (c : γ) :
    l.foldl (fun m a => Function.update m (k a) (some (g a))) (fun _ => none) key = some c ↔
      ∃ before a after, l = before ++ a :: after ∧ k a = key ∧ g a = c ∧
        ∀ b ∈ after, k b ≠ key := by
  induction l using List.reverseRecOn with
  | nil => simp
  | append_singleton l x ih =>
      rw [List.foldl_append, List.foldl_cons, List.foldl_nil]
      by_cases hx : k x = key
      · subst hx
        rw [Function.update_self, Option.some.injEq]
        constructor
        · intro hc
          exact ⟨l, x, [], rfl, rfl, hc, by simp⟩
        · rintro ⟨before, a, after, hl, hka, hc, hafter⟩
          obtain ⟨hlast, -⟩ | ⟨after', rfl, -⟩ := append_eq_cons_append hl
          · exact hlast ▸ hc
          · exact absurd rfl (hafter x (by simp))
      · rw [Function.update_of_ne (Ne.symm hx), ih]
        constructor
        · rintro ⟨before, a, after, rfl, hka, hc, hafter⟩
          refine ⟨before, a, after ++ [x], by simp, hka, hc, fun b hb => ?_⟩
          obtain hb | hb := List.mem_append.mp hb
          · exact hafter b hb
          · exact List.mem_singleton.mp hb ▸ hx
        · rintro ⟨before, a, after, hl, hka, hc, hafter⟩
          obtain ⟨rfl, -⟩ | ⟨after', rfl, hbefore⟩ := append_eq_cons_append hl
          · exact absurd hka hx
          · exact ⟨before, a, after', hbefore, hka, hc,
              fun b hb => hafter b (List.mem_append_left _ hb)⟩

/-- The store has the number of every field that the unit was created with. -/
theorem Saved.number (hs : Saved env s) (hitem : s.memory (.unit uuid) = some item)
    (hread : f.read = some .number) (hmade : ∀ made, item.origin.init env = some made →
      (made f).isSome) :
    ∃ n, s.store.number uuid f = some n ∧ item.fields f = some (.number n) := by
  obtain ⟨made, hinit, hthere⟩ := hs.made _ item hitem
  obtain ⟨h, hhash, hhas⟩ := hs.holds _ item hitem
  obtain ⟨v, hv⟩ := Option.isSome_iff_exists.mp (hthere _ (hmade made hinit))
  have htyped := hs.typed _ item hitem _ _ hv
  unfold Field.holds at htyped
  rw [hread] at htyped
  cases v with
  | text s => exact absurd htyped Bool.false_ne_true
  | number n =>
      refine ⟨n, ?_, hv⟩
      rw [Store.number, hhash, Option.bind_some, hhas _ _ hv]
      exact tonumber_repr n

theorem Saved.dataId (hs : Saved env s) (hmem : uuid ∈ s.store.sets .missions) :
    ∃ dataId, s.store.number uuid .dataId = some dataId ∧
      s.series uuid = some (Macro_GetMissionSerialId dataId) := by
  obtain ⟨item, hitem, hkind⟩ := hs.known uuid .missions hmem
  have hmade : ∀ made, item.origin.init env = some made → (made .dataId).isSome := by
    intro made hinit
    cases horigin : item.origin with
    | mission dataId =>
        rw [horigin] at hinit
        cases hinit
        rfl
    | _ =>
        rw [horigin] at hkind
        cases hkind
  obtain ⟨n, hnumber, hfield⟩ := hs.number hitem rfl hmade
  refine ⟨n, hnumber, ?_⟩
  simp only [Account.series, hitem, Option.bind_some, hfield]

theorem loadEach_eq (store : Store) {st : List String} (serId : String → ℤ)
    (h : ∀ v ∈ st, ∃ dataId, store.number v .dataId = some dataId ∧
      serId v = Macro_GetMissionSerialId dataId) (missions : ℤ → Option (String × Fields)) :
    store.loadEach st missions = some (st.foldl
      (fun m v => Function.update m (serId v)
        (some (v, loaded Missions.reads (store.hashes (.unit v))))) missions) := by
  induction st generalizing missions with
  | nil => rfl
  | cons v st ih =>
      obtain ⟨dataId, hnumber, hserId⟩ := h v List.mem_cons_self
      rw [Store.loadEach, hnumber, Option.bind_eq_bind, Option.bind_some,
        ih fun u hu => h u (List.mem_cons_of_mem v hu), List.foldl_cons, hserId]

/-- A load finds every unit in memory, but of a series of missions only the last. -/
theorem loads_iff (hs : Saved env s) (hitem : s.memory (item.origin.kind.key name) = some item) :
    s.store.Loads listing item.origin.kind name fields ↔
      loaded item.origin.kind.reads (s.store.hashes (item.origin.kind.key name)) = fields ∧
        (item.origin.kind = .missions → LastOfSeries listing s name) := by
  have hmember (kind : Kind) (hkind : item.origin.kind = kind) (hkey : kind.key name = .unit name) :
      s.store.loadMember listing kind name = some fields ↔
        loaded kind.reads (s.store.hashes (kind.key name)) = fields := by
    have hmem : name ∈ listing.smembers (s.store.sets kind) := by
      rw [hkind, hkey] at hitem
      exact (listing.perm _).mem_iff.mpr (hkind ▸ hs.listed name item hitem)
    rw [Store.loadMember, if_pos hmem, hkey, Option.some.injEq]
  have hunit (kind : Kind) (hkind : item.origin.kind = kind) :
      s.store.loadUnit kind name = some fields ↔
        loaded kind.reads (s.store.hashes (kind.key name)) = fields := by
    obtain ⟨h, hhash, -⟩ := hs.holds _ item hitem
    rw [hkind] at hhash
    rw [Store.loadUnit, hhash, Option.map_some, Option.some.injEq]
  cases hkind : item.origin.kind with
  | activity => simpa [Store.Loads] using hunit .activity hkind
  | cooldown => simpa [Store.Loads] using hunit .cooldown hkind
  | cards => simpa [Store.Loads] using hmember .cards hkind rfl
  | skills => simpa [Store.Loads] using hmember .skills hkind rfl
  | explores => simpa [Store.Loads] using hmember .explores hkind rfl
  | mails => simpa [Store.Loads] using hmember .mails hkind rfl
  | missions =>
      rw [hkind] at hitem
      have hmem : name ∈ s.store.sets .missions := hkind ▸ hs.listed name item hitem
      have hdata : ∀ v ∈ listing.smembers (s.store.sets .missions),
          ∃ dataId, s.store.number v .dataId = some dataId ∧
            (s.series v).getD 0 = Macro_GetMissionSerialId dataId ∧ (s.series v).isSome := by
        intro v hv
        obtain ⟨dataId, hnumber, hseries⟩ := hs.dataId ((listing.perm _).mem_iff.mp hv)
        exact ⟨dataId, hnumber, by rw [hseries]; rfl, by rw [hseries]; rfl⟩
      have hsame {u v : String} (hu : u ∈ listing.smembers (s.store.sets .missions))
          (hv : v ∈ listing.smembers (s.store.sets .missions)) :
          (s.series u).getD 0 = (s.series v).getD 0 ↔ s.series u = s.series v := by
        obtain ⟨_, -, -, husome⟩ := hdata u hu
        obtain ⟨_, -, -, hvsome⟩ := hdata v hv
        obtain ⟨m, hm⟩ := Option.isSome_iff_exists.mp husome
        obtain ⟨n, hn⟩ := Option.isSome_iff_exists.mp hvsome
        simp [hm, hn]
      have hload := loadEach_eq s.store (fun v => (s.series v).getD 0)
        (fun v hv => by
          obtain ⟨dataId, hnumber, hserId, -⟩ := hdata v hv
          exact ⟨dataId, hnumber, hserId⟩) fun _ => none
      constructor
      · rintro ⟨missions, serId, hmissions, hentry⟩
        rw [Store.missionsLoad, hload, Option.some.injEq] at hmissions
        subst hmissions
        obtain ⟨before, v, after, hl, rfl, hpair, hafter⟩ :=
          (foldl_update_eq_some _ _ _ _ _).mp hentry
        cases hpair
        refine ⟨rfl, fun _ => ⟨before, after, hl, fun u hu hseries => hafter u hu ?_⟩⟩
        rw [hseries]
      · rintro ⟨rfl, hlast⟩
        obtain ⟨before, after, hl, hafter⟩ := hlast rfl
        refine ⟨_, (s.series name).getD 0, hload, (foldl_update_eq_some _ _ _ _ _).mpr
          ⟨before, name, after, hl, rfl, rfl, fun u hu hserId => hafter u hu ?_⟩⟩
        apply (hsame _ _).mp hserId
        · simp [hl, hu]
        · simp [hl]

/-- A load gives a unit back with every field that it was created with exactly when its loader reads
them all and, if it is a mission, no later one of its series hides it. -/
theorem load_eq_iff (listing : Listing) (hs : (records env).Runs Account.Names s)
    (hitem : s.memory (item.origin.kind.key name) = some item) :
    (∃ unit, s.store.Loads listing item.origin.kind name unit ∧
      ∀ created ∈ item.origin.init env, ∀ f, (created f).isSome → unit f = item.fields f) ↔
      Covered env item.origin ∧
        (item.origin.kind = .missions → LastOfSeries listing s name) := by
  have hsaved := saved hs
  obtain ⟨created, hinit, hthere⟩ := hsaved.made _ item hitem
  have hsame : (∀ f, (created f).isSome →
      loaded item.origin.kind.reads (s.store.hashes (item.origin.kind.key name)) f =
        item.fields f) ↔ Covered env item.origin := by
    rw [← covered_iff hinit]
    apply forall₂_congr
    intro f hf
    obtain ⟨v, hv⟩ := Option.isSome_iff_exists.mp (hthere f hf)
    rw [hv]
    exact loaded_eq_iff (hsaved.holds _ item hitem) (hsaved.typed _ item hitem) hv
  constructor
  · rintro ⟨unit, hloads, hequal⟩
    obtain ⟨rfl, hlast⟩ := (loads_iff hsaved hitem).mp hloads
    exact ⟨hsame.mp (hequal created hinit), hlast⟩
  · rintro ⟨hcovered, hlast⟩
    refine ⟨_, (loads_iff hsaved hitem).mpr ⟨rfl, hlast⟩, ?_⟩
    intro created' hinit'
    obtain rfl := Option.some.inj (hinit.symm.trans hinit')
    exact hsame.mpr hcovered

/-- A mission is created and makes progress. -/
def advance : List Event :=
  [.create "7001" (.mission 200001) [(.flag, .number 200001)],
    .update .missions "7001" [(.progress, .number 3)] [.progress]]

def inOrder : Listing where
  smembers := id
  perm := List.Perm.refl

theorem load_eq_iff_mission :
    ∃ s item, (records quiet).run (records quiet).init advance = some s ∧
      s.memory (.unit "7001") = some item ∧
      ∃ unit, s.store.Loads inOrder .missions "7001" unit ∧
        ∀ created ∈ item.origin.init quiet, ∀ f, (created f).isSome → unit f = item.fields f := by
  have hrun : ∃ s item, (records quiet).run (records quiet).init advance = some s ∧
      s.memory (.unit "7001") = some item ∧ item.origin = .mission 200001 ∧
      s.store.sets .missions = ["7001"] := ⟨_, _, rfl, rfl, rfl, rfl⟩
  obtain ⟨s, item, hrun, hitem, horigin, hset⟩ := hrun
  have hruns : (records quiet).Runs Account.Names s := by
    apply System.Runs.of_run .init _ hrun
    intro e he _
    fin_cases he
    · trivial
    · refine Or.inr ⟨by decide, fun item _ f hf => ?_⟩
      obtain rfl := List.mem_singleton.mp hf
      rfl
  have hkey : s.memory (item.origin.kind.key "7001") = some item := by
    rw [horigin]
    exact hitem
  have hload := (load_eq_iff inOrder hruns hkey).mpr (by
    rw [horigin]
    exact ⟨trivial, fun _ => ⟨[], [], hset, by simp⟩⟩)
  rw [horigin] at hload
  exact ⟨s, item, hrun, hitem, by rw [horigin]; exact hload⟩

/-- A loaded skill has no `flag`. -/
theorem load_skill_flag :
    ∃ s item, (records quiet).run (records quiet).init [.create "5001" (.skill 10001001) []] =
        some s ∧ s.memory (.unit "5001") = some item ∧
      ¬ ∃ unit, s.store.Loads inOrder .skills "5001" unit ∧
        ∀ created ∈ item.origin.init quiet, ∀ f, (created f).isSome → unit f = item.fields f := by
  refine ⟨_, _, rfl, rfl, ?_⟩
  rintro ⟨unit, hloads, hequal⟩
  have hflag : unit .flag = some (.number 0) := hequal _ rfl .flag rfl
  cases hloads
  cases hflag

end GameServer.Records
