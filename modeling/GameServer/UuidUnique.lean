import GameServer.UuidPacking

/-!
# Uniqueness of identifiers over runs of the process

Two modules that hold the same service number issue the same identifiers. Numbers repeat because
every load of the module zeroes the shared counter. The results below say that this, and a number
too large for its bits, are the only ways to a collision: in a run in which no module takes a
number that another one holds or one of 16 bits, all identifiers differ and `split` recovers the
fields of each.
-/

namespace GameServer.Uuid

open Transition

/-- The timestamp fits its bits, and a number taken from the counter fits its bits and is not held
by another module. -/
def Orderly (p : Process) : Label → Prop
  | .gen i => p.osTime < 2 ^ 33 ∧ ∀ m k, p.modules[i]? = some m → m.service = none →
      (lsid p.sid).2 = some k →
        k < 2 ^ 15 ∧ ∀ m' ∈ p.modules, m'.service ≠ none → m'.sid ≠ k
  | _ => True

/-- `e` was issued before anything that `m` can still issue. -/
def Before (clock : ℕ) (m : Module) (e : Issue) : Prop :=
  match m.timestamp with
  | none => e.stamp < clock / 100
  | some _ => e.stamp < m.stamp ∨ (e.stamp = m.stamp ∧ e.sequence ≤ m.sequence)

def Issue.key (e : Issue) : ℕ × ℕ × ℕ := (e.stamp, e.sid, e.sequence)

/-- What holds of one module table. -/
structure ModuleInv (harbor : LuaInt) (clock : ℕ) (issued : List Issue) (m : Module) : Prop where
  packed : ∀ s, m.service = some s → s = packService harbor m.sid ∧ m.sid < 2 ^ 15
  stamped : ∀ t, m.timestamp = some t → m.service ≠ none ∧
    t = ((BitVec.ofNat 64 m.stamp <<< 31) ||| packService harbor m.sid) ∧
    m.stamp = m.cachedAt / 100 ∧ m.stamp < 2 ^ 33 ∧ m.cachedAt ≤ clock
  past : m.service ≠ none → ∀ e ∈ issued, e.sid = m.sid → Before clock m e

structure Issue.Valid (harbor : LuaInt) (e : Issue) : Prop where
  number_eq : e.number = Uuid.number harbor e.stamp e.sid e.sequence
  id_eq : e.id = idString e.number
  stamp_lt : e.stamp < 2 ^ 33
  sid_lt : e.sid < 2 ^ 15
  sequence_lt : e.sequence < 2 ^ 10

structure Inv (p : Process) : Prop where
  modules : ∀ (i : ℕ) m, p.modules[i]? = some m → ModuleInv p.harbor p.clock p.issued m
  distinct : ∀ (i j : ℕ) a b, p.modules[i]? = some a → p.modules[j]? = some b → i ≠ j →
    a.service ≠ none → b.service ≠ none → a.sid ≠ b.sid
  owner : ∀ e ∈ p.issued, ∃ (i : ℕ) (m : Module),
    p.modules[i]? = some m ∧ m.service ≠ none ∧ m.sid = e.sid
  valid : ∀ e ∈ p.issued, e.Valid p.harbor
  nodup : (p.issued.map Issue.key).Nodup

theorem Before.mono {clock clock' : ℕ} {m : Module} {e : Issue} (h : Before clock m e)
    (hc : clock ≤ clock') : Before clock' m e := by
  unfold Before at h ⊢
  split at h
  · exact h.trans_le (Nat.div_le_div_right hc)
  · exact h

theorem ModuleInv.mono {harbor : LuaInt} {clock clock' : ℕ} {issued : List Issue} {m : Module}
    (h : ModuleInv harbor clock issued m) (hc : clock ≤ clock') :
    ModuleInv harbor clock' issued m where
  packed := h.packed
  stamped t ht := by
    obtain ⟨h1, h2, h3, h4, h5⟩ := h.stamped t ht
    exact ⟨h1, h2, h3, h4, h5.trans hc⟩
  past hs e he hsid := (h.past hs e he hsid).mono hc

theorem inv_init (harbor : LuaInt) (clock : ℕ) : Inv { harbor, clock } where
  modules i m h := by simp at h
  distinct i j a b h := by simp at h
  owner e he := by simp at he
  valid e he := by simp at he
  nodup := List.nodup_nil

theorem inv_load {p : Process} (h : Inv p) :
    Inv { p with sid := 0, modules := p.modules ++ [{}] } := by
  -- a fresh module holds no number, so it meets every clause
  have fresh : ∀ (i : ℕ) m, (p.modules ++ [({} : Module)])[i]? = some m → m.service ≠ none →
      p.modules[i]? = some m := by
    intro i m hi hm
    rw [List.getElem?_append] at hi
    split at hi
    · exact hi
    · rw [List.getElem?_singleton] at hi
      split at hi
      · cases hi; exact absurd rfl hm
      · cases hi
  refine ⟨?_, ?_, ?_, h.valid, h.nodup⟩
  · intro i m hi
    by_cases hm : m.service = none
    · have hm' : p.modules[i]? = some m ∨ m = {} := by
        dsimp only at hi
        rw [List.getElem?_append] at hi
        split at hi
        · exact .inl hi
        · rw [List.getElem?_singleton] at hi
          split at hi
          · cases hi; exact .inr rfl
          · cases hi
      rcases hm' with hi' | rfl
      · exact h.modules i m hi'
      · exact ⟨fun s hs => by simp at hs, fun t ht => by simp at ht, fun hs => absurd rfl hs⟩
    · exact h.modules i m (fresh i m hi hm)
  · intro i j a b hi hj hij ha hb
    exact h.distinct i j a b (fresh i a hi ha) (fresh j b hj hb) hij ha hb
  · intro e he
    obtain ⟨i, m, hi, hs, hsid⟩ := h.owner e he
    refine ⟨i, m, ?_, hs, hsid⟩
    rw [List.getElem?_append_left (List.getElem?_eq_some_iff.mp hi).1]
    exact hi

theorem inv_tick {p : Process} (h : Inv p) : Inv { p with clock := p.clock + 1 } :=
  ⟨fun i m hi => (h.modules i m hi).mono (Nat.le_succ _), h.distinct, h.owner, h.valid, h.nodup⟩

/-- Changing one module table is harmless when the new table meets the module clauses, keeps the
number it had, and holds no number of another module. -/
theorem inv_set {p : Process} (h : Inv p) {i : ℕ} {m m' : Module} (sid' : ℕ)
    (hi : p.modules[i]? = some m) (hm : ModuleInv p.harbor p.clock p.issued m')
    (hkeep : m.service ≠ none → m'.service ≠ none ∧ m'.sid = m.sid)
    (hother : m'.service ≠ none → ∀ (j : ℕ) b, p.modules[j]? = some b → j ≠ i →
      b.service ≠ none → b.sid ≠ m'.sid) :
    Inv { p with sid := sid', modules := p.modules.set i m' } := by
  have hlen : i < p.modules.length := (List.getElem?_eq_some_iff.mp hi).1
  have hget : ∀ (j : ℕ) b, (p.modules.set i m')[j]? = some b →
      (j = i ∧ b = m') ∨ (j ≠ i ∧ p.modules[j]? = some b) := by
    intro j b hj
    by_cases hji : j = i
    · subst hji
      rw [List.getElem?_set_self hlen] at hj
      exact .inl ⟨rfl, (Option.some.inj hj).symm⟩
    · rw [List.getElem?_set_ne (Ne.symm hji)] at hj
      exact .inr ⟨hji, hj⟩
  refine ⟨?_, ?_, ?_, h.valid, h.nodup⟩
  · intro j b hj
    rcases hget j b hj with ⟨_, rfl⟩ | ⟨_, hj'⟩
    · exact hm
    · exact h.modules j b hj'
  · intro j k a b hj hk hjk ha hb
    rcases hget j a hj with ⟨rfl, rfl⟩ | ⟨hji, hj'⟩ <;>
      rcases hget k b hk with ⟨rfl, rfl⟩ | ⟨hki, hk'⟩
    · exact absurd rfl hjk
    · exact (hother ha k b hk' hki hb).symm
    · exact hother hb j a hj' hji ha
    · exact h.distinct j k a b hj' hk' hjk ha hb
  · intro e he
    obtain ⟨j, b, hj, hs, hsid⟩ := h.owner e he
    by_cases hji : j = i
    · subst hji
      rw [hi, Option.some.injEq] at hj
      subst hj
      exact ⟨j, m', List.getElem?_set_self hlen, (hkeep hs).1, (hkeep hs).2.trans hsid⟩
    · exact ⟨j, b, by rw [List.getElem?_set_ne (Ne.symm hji)]; exact hj, hs, hsid⟩

theorem initService_cases (harbor : LuaInt) (sid : ℕ) (m : Module) :
    (m.service = none ∧ (initService harbor sid m).2 = none) ∨
    (∃ s, m.service = some s ∧ initService harbor sid m = (sid, some (s, m))) ∨
    (∃ k, m.service = none ∧ (lsid sid).2 = some k ∧ (initService harbor sid m).2 =
      some (packService harbor k,
        { m with service := some (packService harbor k), sid := k })) := by
  unfold initService
  cases hs : m.service with
  | some s => exact .inr (.inl ⟨s, rfl, rfl⟩)
  | none =>
      cases hk : lsid sid with
      | mk sid' r =>
          cases r with
          | none => exact .inl ⟨rfl, rfl⟩
          | some k => exact .inr (.inr ⟨k, rfl, rfl, rfl⟩)

/-- A module that has just taken the number `k` still meets the module clauses. -/
theorem inv_initService {p : Process} (h : Inv p) {i : ℕ} {m : Module} {k : ℕ} (sid' : ℕ)
    (hi : p.modules[i]? = some m) (hs : m.service = none) (hk : k < 2 ^ 15)
    (hfresh : ∀ m' ∈ p.modules, m'.service ≠ none → m'.sid ≠ k) :
    Inv { p with
      sid := sid',
      modules := p.modules.set i
        { m with service := some (packService p.harbor k), sid := k } } := by
  have hnone : m.timestamp = none := by
    by_contra hne
    obtain ⟨t, ht⟩ := Option.ne_none_iff_exists'.mp hne
    exact ((h.modules i m hi).stamped t ht).1 hs
  refine inv_set h sid' hi ⟨?_, ?_, ?_⟩ (fun hne => absurd hs hne) ?_
  · intro s hs'
    exact ⟨(Option.some.inj hs').symm, hk⟩
  · intro t ht
    exact absurd (hnone.symm.trans ht) (by simp)
  · intro _ e he hsid
    obtain ⟨j, b, hj, hb, hbe⟩ := h.owner e he
    exact absurd (hbe.trans hsid) (hfresh b (List.mem_of_getElem? hj) hb)
  · intro _ j b hj _ hb
    exact hfresh b (List.mem_of_getElem? hj) hb

theorem inv_cacheTimestamp {p : Process} (h : Inv p) {i : ℕ} {m : Module} {s : LuaInt}
    (hi : p.modules[i]? = some m) (hs : m.service = some s) (hclock : p.osTime < 2 ^ 33) :
    Inv { p with modules := p.modules.set i (cacheTimestamp p.clock s m).2 } := by
  have hm := h.modules i m hi
  have hother : ∀ (j : ℕ) b, p.modules[j]? = some b → j ≠ i → b.service ≠ none → b.sid ≠ m.sid :=
    fun j b hj hji hb => h.distinct j i b m hj hi hji hb (by simp [hs])
  unfold cacheTimestamp
  cases ht : m.timestamp with
  | some t => exact inv_set h p.sid hi hm (fun hne => ⟨hne, rfl⟩) (fun _ => hother)
  | none =>
      refine inv_set h p.sid hi ⟨hm.packed, ?_, ?_⟩ (fun hne => ⟨hne, rfl⟩) (fun _ => hother)
      · intro t ht'
        refine ⟨by simp [hs], ?_, rfl, hclock, le_refl _⟩
        rw [← (hm.packed s hs).1]
        exact (Option.some.inj ht').symm
      · intro hne e he hsid
        have hb := hm.past hne e he hsid
        simp only [Before, ht] at hb
        exact .inl hb

/-- One more identifier from a module with a cached timestamp: the sequence moves past every
identifier of that second, and the new one, if issued, is the largest. -/
theorem inv_issue {p : Process} (h : Inv p) {i : ℕ} {m : Module} {s t : LuaInt}
    (hi : p.modules[i]? = some m) (hs : m.service = some s) (ht : m.timestamp = some t)
    (out : Option LuaInt)
    (hout : ∀ n ∈ out, m.sequence + 1 < 1024 ∧ n = t ||| BitVec.ofNat 64 (m.sequence + 1)) :
    let m' := { m with sequence := m.sequence + 1 }
    Inv { p with modules := p.modules.set i m',
                 issued := p.issued ++ (out.map (issueOf m')).toList } := by
  intro m'
  have hm := h.modules i m hi
  have hne : m.service ≠ none := by simp [hs]
  have hold : ∀ e ∈ p.issued, e.sid = m.sid → e.stamp < m.stamp ∨
      (e.stamp = m.stamp ∧ e.sequence ≤ m.sequence) := by
    intro e he hsid
    have hb := hm.past hne e he hsid
    simpa only [Before, ht] using hb
  have hset : Inv { p with modules := p.modules.set i m' } := by
    refine inv_set h p.sid hi ⟨hm.packed, hm.stamped, ?_⟩ (fun hn => ⟨hn, rfl⟩)
      (fun _ j b hj hji hb => h.distinct j i b m hj hi hji hb hne)
    intro _ e he hsid
    simp only [Before, m', ht]
    rcases hold e he hsid with hlt | ⟨heq, hle⟩
    · exact .inl hlt
    · exact .inr ⟨heq, hle.trans (Nat.le_succ _)⟩
  have hlen : i < p.modules.length := (List.getElem?_eq_some_iff.mp hi).1
  have hself : (p.modules.set i m')[i]? = some m' := List.getElem?_set_self hlen
  cases out with
  | none => simpa using hset
  | some n =>
      obtain ⟨hseq, hn⟩ := hout n rfl
      obtain ⟨_, htimestamp, _, hstamp, _⟩ := hm.stamped t ht
      have hsidlt := (hm.packed s hs).2
      have hnew : ∀ e ∈ (Option.map (issueOf m') (some n)).toList, e = issueOf m' n := by simp
      refine ⟨?_, hset.distinct, ?_, ?_, ?_⟩
      · intro j b hj
        have hb := hset.modules j b hj
        refine ⟨hb.packed, hb.stamped, ?_⟩
        intro hbs e he hsid
        rcases List.mem_append.mp he with he | he
        · exact hb.past hbs e he hsid
        · -- only the issuing module holds the number of the new identifier
          obtain rfl := hnew e he
          by_cases hji : j = i
          · subst hji
            rw [hself, Option.some.injEq] at hj
            subst hj
            simp [Before, m', ht, issueOf]
          · exact absurd hsid.symm (hset.distinct j i b m' hj hself hji hbs hne)
      · intro e he
        rcases List.mem_append.mp he with he | he
        · exact hset.owner e he
        · obtain rfl := hnew e he
          exact ⟨i, m', hself, hne, rfl⟩
      · intro e he
        rcases List.mem_append.mp he with he | he
        · exact h.valid e he
        · obtain rfl := hnew e he
          refine ⟨?_, rfl, hstamp, hsidlt, hseq⟩
          simp only [issueOf, number, m', hn, htimestamp]
      · have hkey : (issueOf m' n).key ∉ p.issued.map Issue.key := by
          intro hmem
          obtain ⟨e, he, hek⟩ := List.mem_map.mp hmem
          simp only [Issue.key, issueOf, m', Prod.mk.injEq] at hek
          have := hold e he hek.2.1
          omega
        simp only [Option.map_some, Option.toList_some, List.map_append, List.map_cons,
          List.map_nil]
        exact List.nodup_append.mpr ⟨h.nodup, List.nodup_singleton _, fun a ha b hb hab =>
          hkey (List.mem_singleton.mp hb ▸ hab ▸ ha)⟩

theorem inv_reset {p : Process} (h : Inv p) {i : ℕ} {m : Module} (hi : p.modules[i]? = some m)
    (ht : m.timestamp.isSome) (hc : m.cachedAt + 100 ≤ p.clock) :
    Inv { p with modules := p.modules.set i { m with timestamp := none } } := by
  have hm := h.modules i m hi
  obtain ⟨t, ht'⟩ := Option.isSome_iff_exists.mp ht
  obtain ⟨hne, _, hstamp, _, _⟩ := hm.stamped t ht'
  refine inv_set h p.sid hi ⟨hm.packed, fun t ht => by simp at ht, ?_⟩ (fun hn => ⟨hn, rfl⟩)
    (fun _ j b hj hji hb => h.distinct j i b m hj hi hji hb hne)
  intro hs e he hsid
  have hb := hm.past hs e he hsid
  simp only [Before, ht'] at hb
  change e.stamp < p.clock / 100
  omega

theorem cacheTimestamp_timestamp (clock : ℕ) (s : LuaInt) (m : Module) :
    (cacheTimestamp clock s m).2.timestamp = some (cacheTimestamp clock s m).1 := by
  unfold cacheTimestamp
  cases ht : m.timestamp with
  | some t => exact ht
  | none => rfl

theorem cacheTimestamp_service (clock : ℕ) (s : LuaInt) (m : Module) :
    (cacheTimestamp clock s m).2.service = m.service := by
  unfold cacheTimestamp
  cases m.timestamp <;> rfl

/-- One call of `uuid.gen`, as its three stages on the module table. -/
theorem gen_stages (harbor : LuaInt) (clock sid : ℕ) (m : Module) :
    (∃ sid', gen harbor clock sid m = (sid', m, none) ∧
      (initService harbor sid m).2 = none) ∨
    ∃ sid' s m₁, initService harbor sid m = (sid', some (s, m₁)) ∧ m₁.service = some s ∧
      ∃ out, gen harbor clock sid m = (sid',
        { (cacheTimestamp clock s m₁).2 with
          sequence := (cacheTimestamp clock s m₁).2.sequence + 1 }, out) ∧
        ∀ n ∈ out, (cacheTimestamp clock s m₁).2.sequence + 1 < 1024 ∧
          n = (cacheTimestamp clock s m₁).1 |||
            BitVec.ofNat 64 ((cacheTimestamp clock s m₁).2.sequence + 1) := by
  have hservice : ∀ sid' s m₁, initService harbor sid m = (sid', some (s, m₁)) →
      m₁.service = some s := by
    intro sid' s m₁ hr
    rcases initService_cases harbor sid m with
      ⟨_, hno⟩ | ⟨s', hs', hsome⟩ | ⟨k, _, _, htake⟩
    · rw [hr] at hno
      cases hno
    · rw [hr] at hsome
      cases hsome
      exact hs'
    · rw [hr] at htake
      cases htake
      rfl
  rcases hr : initService harbor sid m with ⟨sid', _ | ⟨s, m₁⟩⟩
  · exact .inl ⟨sid', by simp only [gen, hr], rfl⟩
  · refine .inr ⟨sid', s, m₁, rfl, hservice sid' s m₁ hr, ?_⟩
    by_cases hseq : (cacheTimestamp clock s m₁).2.sequence + 1 < 1024
    · refine ⟨some _, by simp only [gen, hr, if_pos hseq]; rfl, ?_⟩
      intro n hn
      exact ⟨hseq, (Option.some.inj hn).symm⟩
    · exact ⟨none, by simp only [gen, hr, if_neg hseq], by simp⟩

theorem inv_gen {p : Process} (h : Inv p) {i : ℕ} {m : Module} (hi : p.modules[i]? = some m)
    (hok : Orderly p (.gen i)) :
    Inv { p with
      sid := (gen p.harbor p.clock p.sid m).1,
      modules := p.modules.set i (gen p.harbor p.clock p.sid m).2.1,
      issued := p.issued ++ ((gen p.harbor p.clock p.sid m).2.2.map
        (issueOf (gen p.harbor p.clock p.sid m).2.1)).toList } := by
  have hlen : i < p.modules.length := (List.getElem?_eq_some_iff.mp hi).1
  rcases gen_stages p.harbor p.clock p.sid m with
    ⟨sid', hg, _⟩ | ⟨sid', s, m₁, hinit, hs₁, out, hg, hout⟩
  · rw [hg]
    simpa using inv_set h sid' hi (h.modules i m hi) (fun hn => ⟨hn, rfl⟩)
      (fun hn j b hj hji hb => h.distinct j i b m hj hi hji hb hn)
  · rw [hg]
    -- the number first, then the timestamp, then the identifier
    have h₁ : Inv { p with sid := sid', modules := p.modules.set i m₁ } := by
      rcases initService_cases p.harbor p.sid m with
        ⟨_, hno⟩ | ⟨s', hs', hsome⟩ | ⟨k, hnone, hk, htake⟩
      · rw [hinit] at hno
        cases hno
      · rw [hinit] at hsome
        cases hsome
        exact inv_set h p.sid hi (h.modules i m hi) (fun hn => ⟨hn, rfl⟩)
          (fun hn j b hj hji hb => h.distinct j i b m hj hi hji hb hn)
      · rw [hinit] at htake
        cases htake
        obtain ⟨hk15, hfresh⟩ := hok.2 m k hi hnone hk
        exact inv_initService h sid' hi hnone hk15 hfresh
    have hi₁ : (p.modules.set i m₁)[i]? = some m₁ := List.getElem?_set_self hlen
    have h₂ := inv_cacheTimestamp h₁ hi₁ hs₁ hok.1
    simp only [List.set_set] at h₂
    have hi₂ : (p.modules.set i (cacheTimestamp p.clock s m₁).2)[i]? =
        some (cacheTimestamp p.clock s m₁).2 := List.getElem?_set_self hlen
    have h₃ := inv_issue h₂ hi₂ ((cacheTimestamp_service _ _ _).trans hs₁)
      (cacheTimestamp_timestamp _ _ _) out hout
    simpa only [List.set_set] using h₃

theorem inv_step {p q : Process} {l : Label} (h : Inv p) (hok : Orderly p l)
    (hstep : step p l = some q) : Inv q := by
  cases l with
  | load => cases hstep; exact inv_load h
  | tick => cases hstep; exact inv_tick h
  | gen i =>
      cases hi : p.modules[i]? with
      | none => simp [step, hi] at hstep
      | some m =>
          simp only [step, hi, Option.some.injEq] at hstep
          subst hstep
          exact inv_gen h hi hok
  | reset i =>
      cases hi : p.modules[i]? with
      | none => simp [step, hi] at hstep
      | some m =>
          simp only [step, hi] at hstep
          split_ifs at hstep with hc
          cases hstep
          exact inv_reset h hi hc.1 hc.2

theorem inv_runs {harbor : LuaInt} {clock : ℕ} {p : Process}
    (h : (process harbor clock).Runs Orderly p) : Inv p :=
  h.invariant (inv_init harbor clock) (fun _ _ _ hp hok hs => inv_step hp hok hs)

theorem harbor_eq {harbor : LuaInt} {clock : ℕ} {p : Process}
    (h : (process harbor clock).Reachable p) : p.harbor = harbor := by
  refine System.Runs.invariant (P := fun p => p.harbor = harbor) rfl ?_ h
  intro p l q hp _ hs
  cases l <;> simp only [process, step] at hs
  · cases hs; exact hp
  · split at hs
    · cases hs
    · cases hs; exact hp
  · cases hs; exact hp
  · split at hs
    · cases hs
    · split_ifs at hs
      cases hs
      exact hp

theorem Issue.Valid.key_eq {harbor : LuaInt} {e e' : Issue} (h : e.Valid harbor)
    (h' : e'.Valid harbor) (hid : e.id = e'.id) : e.key = e'.key := by
  rw [h.id_eq, h'.id_eq] at hid
  have hn := idString_injective hid
  rw [h.number_eq, h'.number_eq] at hn
  have hnat := congrArg BitVec.toNat hn
  have hh : harbor.toNat % 2 ^ 6 < 2 ^ 6 := Nat.mod_lt _ (by omega)
  rw [number_toNat harbor h.stamp_lt h.sid_lt h.sequence_lt,
    number_toNat harbor h'.stamp_lt h'.sid_lt h'.sequence_lt] at hnat
  have h1 := h.sid_lt
  have h2 := h'.sid_lt
  have h3 := h.sequence_lt
  have h4 := h'.sequence_lt
  simp only [Issue.key, Prod.mk.injEq]
  omega

/-- In an orderly run no two calls of `uuid.gen` return the same string, and `split` recovers the
timestamp, the harbor, the service number and the sequence of each. -/
theorem gen_ids_unique {harbor : LuaInt} {clock : ℕ} {p : Process}
    (h : (process harbor clock).Runs Orderly p) :
    (p.issued.map Issue.id).Nodup ∧
      ∀ e ∈ p.issued, split e.number = (BitVec.ofNat 64 e.stamp, harbor &&& 0x3f#64,
        BitVec.ofNat 64 e.sid, BitVec.ofNat 64 e.sequence) := by
  have hinv := inv_runs h
  have hharbor := harbor_eq h.reachable
  refine ⟨?_, ?_⟩
  · refine List.Nodup.map_on ?_ hinv.nodup.of_map
    intro e he e' he' hid
    exact List.inj_on_of_nodup_map hinv.nodup he he'
      ((hinv.valid e he).key_eq (hinv.valid e' he') hid)
  · intro e he
    have hv := hinv.valid e he
    rw [hv.number_eq, hharbor]
    exact split_number harbor hv.stamp_lt hv.sid_lt hv.sequence_lt

/-- Two services that load the module one after the other take turns on a fresh clock second. -/
theorem gen_ids_unique_two_services : ∃ p, (process 5#64 100).Runs Orderly p ∧
    p.issued.length = 2 ∧ (p.issued.map Issue.id).Nodup := by
  have h₁ : (process 5#64 100).Runs Orderly ⟨5#64, 100, 0, [{}], []⟩ :=
    .step (i := .load) .init trivial rfl
  have h₂ : (process 5#64 100).Runs Orderly ⟨5#64, 100, 0, [{}, {}], []⟩ :=
    .step (i := .load) h₁ trivial rfl
  have ok₀ : Orderly ⟨5#64, 100, 0, [{}, {}], []⟩ (.gen 0) := by
    refine ⟨by decide, ?_⟩
    simp [lsid]
  have h₃ : (process 5#64 100).Runs Orderly ⟨5#64, 100, 1,
      [⟨some 167773184#64, some 2315256832#64, 1, 100, 1, 1⟩, {}],
      [⟨idString 2315256833#64, 2315256833#64, 1, 1, 1⟩]⟩ := .step h₂ ok₀ rfl
  have ok₁ : Orderly ⟨5#64, 100, 1, [⟨some 167773184#64, some 2315256832#64, 1, 100, 1, 1⟩, {}],
      [⟨idString 2315256833#64, 2315256833#64, 1, 1, 1⟩]⟩ (.gen 1) := by
    refine ⟨by decide, ?_⟩
    simp [lsid]
  have h₄ := System.Runs.step h₃ ok₁ rfl
  exact ⟨_, h₄, rfl, (gen_ids_unique h₄).1⟩

/-- A service that loads the module after another one has taken its number gets the same number
and, within the same second, the same identifiers. -/
theorem gen_ids_collide :
    ∃ p, (process 0#64 100).Reachable p ∧ ¬ (p.issued.map Issue.id).Nodup := by
  have h : (process 0#64 100).run (process 0#64 100).init [.load, .gen 0, .load, .gen 1] = some
      ⟨0#64, 100, 1,
        [⟨some 1024#64, some 2147484672#64, 1, 100, 1, 1⟩,
         ⟨some 1024#64, some 2147484672#64, 1, 100, 1, 1⟩],
        [⟨idString 2147484673#64, 2147484673#64, 1, 1, 1⟩,
         ⟨idString 2147484673#64, 2147484673#64, 1, 1, 1⟩]⟩ := rfl
  exact ⟨_, System.reachable_of_run _ h, by simp⟩

/-- Service numbers of sixteen bits, which `lsid` hands out from 32768 on, are never recovered. -/
theorem split_service_ne {harbor : LuaInt} {stamp sid sequence : ℕ} (hs : 2 ^ 15 ≤ sid)
    (hmax : sid ≤ 0xffff) :
    (split (number harbor stamp sid sequence)).2.2.1 ≠ BitVec.ofNat 64 sid := by
  intro h
  have hnat := congrArg BitVec.toNat h
  have hmask := toNat_and_mask (x := number harbor stamp sid sequence) 0x1ffffff#64 25 rfl
  simp only [split, BitVec.toNat_ushiftRight, hmask, Nat.shiftRight_eq_div_pow,
    BitVec.toNat_ofNat] at hnat
  omega

end GameServer.Uuid
