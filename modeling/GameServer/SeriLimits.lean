import GameServer.SeriRuns

/-!
# What is refused

Packing fails on a value that cannot be sent and on what lies deeper than 32 tables; a table that
can be reached from itself lies at every depth, so packing it ends with an error.
-/

namespace GameServer.Seri

/-! ## The depth of a value -/

/-- Going through `depth` tables one gets from one value to the other. -/
inductive Inside (H : Heap) : ℕ → Value → Value → Prop
  | refl (v : Value) : Inside H 0 v v
  | key {depth address : ℕ} {e : Value × Value} {w : Value} : e ∈ (H address).content →
      Inside H depth e.1 w → Inside H (depth + 1) (.table address) w
  | value {depth address : ℕ} {e : Value × Value} {w : Value} : e ∈ (H address).content →
      Inside H depth e.2 w → Inside H (depth + 1) (.table address) w

variable {H : Heap} {n m k : ℕ} {u v w : Value} {t : Table} {b : WriteBlock}

theorem Inside.trans (h : Inside H m u v) (h' : Inside H k v w) : Inside H (m + k) u w := by
  induction h with
  | refl v => rwa [Nat.zero_add]
  | key he _ ih =>
      rw [Nat.add_right_comm]
      exact .key he (ih h')
  | value he _ ih =>
      rw [Nat.add_right_comm]
      exact .value he (ih h')

theorem Inside.cycle (h : Inside H m v v) (j : ℕ) : Inside H (j * m) v v := by
  induction j with
  | zero =>
      rw [Nat.zero_mul]
      exact .refl v
  | succ j ih =>
      rw [Nat.succ_mul]
      exact ih.trans h

theorem bind_isOk {α β : Type} {x : Except Error α} {f : α → Except Error β} {P Q : Prop}
    (hx : (∃ a, x = .ok a) ↔ P) (hf : ∀ a, (∃ c, f a = .ok c) ↔ Q) :
    (∃ c, x >>= f = .ok c) ↔ P ∧ Q := by
  constructor
  · rintro ⟨c, hc⟩
    obtain ⟨a, ha, hfa⟩ := bind_ok hc
    exact ⟨hx.mp ⟨a, ha⟩, (hf a).mp ⟨c, hfa⟩⟩
  · rintro ⟨hP, hQ⟩
    obtain ⟨a, rfl⟩ := hx.mpr hP
    exact (hf a).mpr hQ

theorem foldlM_isOk {α : Type} {f : WriteBlock → α → Except Error WriteBlock} {P : α → Prop}
    {l : List α} (hf : ∀ a ∈ l, ∀ b, (∃ b', f b a = .ok b') ↔ P a) (b : WriteBlock) :
    (∃ b', l.foldlM f b = .ok b') ↔ ∀ a ∈ l, P a := by
  induction l generalizing b with
  | nil => exact ⟨fun _ _ ha => absurd ha List.not_mem_nil, fun _ => ⟨b, rfl⟩⟩
  | cons a l ih =>
      rw [List.foldlM_cons, List.forall_mem_cons]
      exact bind_isOk (hf a List.mem_cons_self b) (ih fun x hx => hf x (List.mem_cons_of_mem _ hx))

section

variable {f : WriteBlock → Value → Except Error WriteBlock} {P : Value → Prop}

theorem packPair_isOk (hf : ∀ v b, (∃ b', f b v = .ok b') ↔ P v) (e : Value × Value)
    (b : WriteBlock) : (∃ b', packPair f b e = .ok b') ↔ P e.1 ∧ P e.2 :=
  bind_isOk (hf e.1 b) (hf e.2)

theorem wbNil_isOk (b : WriteBlock) :
    (∃ b', (pure (wbNil b) : Except Error WriteBlock) = .ok b') ↔ True :=
  ⟨fun _ => trivial, fun _ => ⟨_, rfl⟩⟩

/-- A table is packed when its keys and values are. -/
theorem wbTable_isOk (ht : t.Proper) (hf : ∀ v b, (∃ b', f b v = .ok b') ↔ P v)
    (hbase : ∀ v, P v → P .nil ∧ ∀ a, P (.atom a)) (b : WriteBlock) :
    (∃ b', wbTable f b t = .ok b') ↔ ∀ e ∈ t.content, P e.1 ∧ P e.2 := by
  unfold wbTable
  cases hmeta : t.metapairs with
  | some pairs =>
      have hcontent : t.content = pairs := by rw [Table.content, hmeta]; rfl
      rw [hcontent]
      exact (bind_isOk (foldlM_isOk (fun e _ b => packPair_isOk hf e b) _) wbNil_isOk).trans
        (iff_of_eq (and_true _))
  | none =>
      have hcontent : t.content = t.entries := by rw [Table.content, hmeta]; rfl
      have hrawlen := ht.rawlen
      have harray : ∀ b, (∃ b', wbTableArray f b t (toInt t.rawlen) = .ok b') ↔
          ∀ i ∈ List.range' 1 t.rawlen, P (t.rawgeti i) := by
        intro b
        unfold wbTableArray
        rw [toInt_of_lt ht.rawlen, Int.toNat_natCast]
        exact foldlM_isOk (fun i _ b => hf (t.rawgeti i) b) _
      have hhash : ∀ b, (∃ b', wbTableHash f b t (toInt t.rawlen) = .ok b') ↔
          ∀ e ∈ t.entries.filter (fun e => !inArray t.rawlen e.1), P e.1 ∧ P e.2 := by
        intro b
        unfold wbTableHash
        rw [toInt_of_lt ht.rawlen, foldlM_skip]
        exact (bind_isOk (foldlM_isOk (fun e _ b => packPair_isOk hf e b) _) wbNil_isOk).trans
          (iff_of_eq (and_true _))
      refine (bind_isOk (harray b) hhash).trans ?_
      rw [hcontent]
      constructor
      · rintro ⟨hslots, hothers⟩ e he
        cases hin : inArray t.rawlen e.1 with
        | false => exact hothers e (List.mem_filter.mpr ⟨he, by rw [hin]; rfl⟩)
        | true =>
            obtain ⟨i, hpos, hle, hkey⟩ := inArray_cases hin
            have hv := (ht.values e (hcontent ▸ he)).1
            have hget : t.rawgeti i = e.2 := (ht.rawgeti hmeta hv).mpr (hkey ▸ he)
            have hP := hslots i (List.mem_range'_1.mpr (by omega))
            rw [hget] at hP
            exact ⟨hkey ▸ (hbase _ hP).2 _, hP⟩
      · intro hall
        have hget : ∀ i, t.rawgeti i ≠ .nil → P (t.rawgeti i) := fun i hv =>
          (hall _ ((ht.rawgeti hmeta hv).mp rfl)).2
        constructor
        · intro i hi
          rw [List.mem_range'_1] at hi
          by_cases hnil : t.rawgeti i = .nil
          · rw [hnil]
            exact (hbase _ (hget t.rawlen (ht.border hmeta (by omega)))).1
          · exact hget i hnil
        · exact fun e he => hall e (List.mem_of_mem_filter he)

end

/-- A value is packed when everything inside it may be, above the last depth. -/
theorem packOne_isOk (hH : ∀ address, (H address).Proper) (n : ℕ) (v : Value) (b : WriteBlock) :
    (∃ b', packOne H n b v = .ok b') ↔ ∀ m w, Inside H m v w → m < n ∧ w ≠ .other := by
  induction n generalizing v b with
  | zero =>
      constructor
      · rintro ⟨_, h⟩
        cases h
      · intro h
        exact absurd (h 0 v (.refl v)).1 (Nat.lt_irrefl 0)
  | succ n ih =>
      have hleaf : ∀ (b' : WriteBlock), packOne H (n + 1) b v = .ok b' → v ≠ .other →
          (∀ address, v ≠ .table address) → ((∃ b', packOne H (n + 1) b v = .ok b') ↔
            ∀ m w, Inside H m v w → m < n + 1 ∧ w ≠ .other) := by
        intro b' hok hother htable
        refine ⟨fun _ m w h => ?_, fun _ => ⟨b', hok⟩⟩
        cases h with
        | refl => exact ⟨Nat.succ_pos n, hother⟩
        | key | value => exact absurd rfl (htable _)
      cases v with
      | nil => exact hleaf _ rfl nofun nofun
      | other =>
          constructor
          · rintro ⟨_, h⟩
            cases h
          · exact fun h => absurd rfl (h 0 _ (.refl _)).2
      | atom a => cases a <;> exact hleaf _ rfl nofun nofun
      | table address =>
          have hbase : ∀ v, (∀ m w, Inside H m v w → m < n ∧ w ≠ .other) →
              (∀ m w, Inside H m .nil w → m < n ∧ w ≠ .other) ∧
              ∀ a, ∀ m w, Inside H m (.atom a) w → m < n ∧ w ≠ .other := by
            intro v hv
            have hpos := (hv 0 v (.refl v)).1
            constructor
            · rintro m w ⟨⟩
              exact ⟨hpos, nofun⟩
            · rintro a m w ⟨⟩
              exact ⟨hpos, nofun⟩
          refine (wbTable_isOk (hH address) ih hbase b).trans ?_
          constructor
          · intro hall m w h
            cases h with
            | refl => exact ⟨Nat.succ_pos n, nofun⟩
            | key he h =>
                have hw := (hall _ he).1 _ w h
                exact ⟨Nat.succ_lt_succ hw.1, hw.2⟩
            | value he h =>
                have hw := (hall _ he).2 _ w h
                exact ⟨Nat.succ_lt_succ hw.1, hw.2⟩
          · intro hall e he
            constructor
            · intro m w h
              have hw := hall (m + 1) w (.key he h)
              exact ⟨Nat.lt_of_succ_lt_succ hw.1, hw.2⟩
            · intro m w h
              have hw := hall (m + 1) w (.value he h)
              exact ⟨Nat.lt_of_succ_lt_succ hw.1, hw.2⟩

/-- The values are walked through without an error exactly when nothing inside them is of another
type or deeper than `MAX_DEPTH`. -/
theorem pack_ok_iff (hH : ∀ address, (H address).Proper) (values : List Value) :
    (∃ b, packFrom H values = .ok b) ↔ ∀ v ∈ values, ∀ depth w,
      Inside H depth v w → depth ≤ MAX_DEPTH ∧ w ≠ .other := by
  refine (foldlM_isOk (fun v _ b => packOne_isOk hH (MAX_DEPTH + 1) v b) .init).trans ?_
  simp only [Nat.lt_succ_iff]

theorem pack_ok_iff_sample : (∃ b, packFrom sample [.table 0] = .ok b) ∧
    ∀ depth w, Inside sample depth (.table 0) w → depth ≤ MAX_DEPTH ∧ w ≠ .other := by
  have hpack : ∃ b, packFrom sample [.table 0] = .ok b := ⟨_, rfl⟩
  have hall := (pack_ok_iff sample_proper [.table 0]).mp hpack
  exact ⟨hpack, hall (.table 0) (List.mem_singleton_self _)⟩

theorem pack_cycle (hH : ∀ address, (H address).Proper) {values : List Value} (hv : v ∈ values)
    (hreach : Inside H m v u) (hcycle : Inside H (k + 1) u u) :
    ∃ e, luaseriPack H values = .error e := by
  have hnot : ¬ ∃ b, packFrom H values = .ok b := by
    intro hpack
    have hdeep := (pack_ok_iff hH values).mp hpack v hv _ u
      (hreach.trans (hcycle.cycle (MAX_DEPTH + 1)))
    have hle : MAX_DEPTH + 1 ≤ (MAX_DEPTH + 1) * (k + 1) := Nat.le_mul_of_pos_right _ k.succ_pos
    omega
  unfold luaseriPack
  cases hpack : packFrom H values with
  | error e => exact ⟨e, rfl⟩
  | ok b => exact absurd ⟨b, hpack⟩ hnot

end GameServer.Seri
