import GameServer.RecordRoundTrip

/-!
# One card by its series

`cards.loadBySerialId` reads the cards of an account up to the first of a series. The skills of that
card go to the module table `cards` and not to `card`, so the card that is returned has none.
-/

namespace GameServer.Records

open Goods Agent Transition

/-- The entries `skill0` and on of the module table. -/
abbrev Slots := ℕ → Option ℤ

namespace Store

variable (s : Store)

/-- The fields that `loadBySerialId` gives a card. -/
def card (v : String) : Fields
  | .dataId => (s.number v .dataId).map .number
  | .count => (s.number v .count).map .number
  | .explore => (s.number v .explore).map .number
  | _ => none

/-- The loop over the members. A card without `dataId` is an error of `Macro_GetCardSerialId`. -/
def findSerialId (serId : ℤ) : List String → Slots → Option (Option (String × Fields) × Slots)
  | [], cards => some (none, cards)
  | v :: st, cards => do
    let dataId ← s.number v .dataId
    if serId = Macro_GetCardSerialId dataId then
      some (some (v, s.card v), fun i => if i < 8 then s.number v (.skill i) else cards i)
    else findSerialId serId st cards

/-- The card with its number, and the module table after the call. -/
def loadBySerialId (listing : Listing) (serId : ℤ) (cards : Slots) :
    Option (Option (String × Fields) × Slots) :=
  if s.sets .cards ≠ [] then s.findSerialId serId (listing.smembers (s.sets .cards)) cards
  else some (none, cards)

def cardSeries (v : String) : Option ℤ := (s.number v .dataId).map Macro_GetCardSerialId

/-- Every card has its `dataId`. -/
def Stored : Prop := ∀ v ∈ s.sets .cards, (s.number v .dataId).isSome

/-- Each series occurs at most once. -/
def OncePerSeries : Prop :=
  ∀ v ∈ s.sets .cards, ∀ w ∈ s.sets .cards, s.cardSeries v = s.cardSeries w → v = w

/-- The loaded card is of the series. -/
def OfSeries (fields : Fields) (serId : ℤ) : Prop :=
  ∃ dataId, fields .dataId = some (.number dataId) ∧ Macro_GetCardSerialId dataId = serId

/-- The call returns what `cards.load` has of the series, and leaves the module table alone. -/
def Agrees (listing : Listing) (serId : ℤ) (cards : Slots) : Prop :=
  ∃ found, s.loadBySerialId listing serId cards = some (found, cards) ∧
    (found = none ↔
      ∀ v fields, s.loadMember listing .cards v = some fields → ¬ OfSeries fields serId) ∧
    ∀ v fields, found = some (v, fields) →
      s.loadMember listing .cards v = some fields ∧ OfSeries fields serId

end Store

variable {env : Env} {listing : Listing} {s : Store} {serId : ℤ} {cards : Slots} {v : String}
  {st : List String} {fields : Fields}

open Store

theorem loaded_number {f : Field} (hf : Cards.reads f = some .number) (v : String) :
    loaded Cards.reads (s.hashes (.unit v)) f = (s.number v f).map .number := by
  rw [loaded, hf]
  rfl

theorem loaded_skill (v : String) {i : ℕ} (hi : i < 8) :
    loaded Cards.reads (s.hashes (.unit v)) (.skill i) = (s.number v (.skill i)).map .number := by
  have hread : Cards.reads (.skill i) = some .number := if_pos hi
  exact loaded_number hread v

theorem card_eq_loaded_iff (v : String) :
    s.card v = loaded Cards.reads (s.hashes (.unit v)) ↔
      ∀ i < 8, s.number v (.skill i) = none := by
  constructor
  · intro heq i hi
    have hskill := congrFun heq (.skill i)
    rw [loaded_skill v hi] at hskill
    exact Option.map_eq_none_iff.mp hskill.symm
  · intro hnone
    funext f
    cases f with
    | dataId | count | explore => exact (loaded_number rfl v).symm
    | skill i =>
        by_cases hi : i < 8
        · rw [loaded_skill v hi, hnone i hi]
          rfl
        · simp [Store.card, loaded, Cards.reads, hi]
    | _ => rfl

theorem loadMember_eq_some_iff : s.loadMember listing .cards v = some fields ↔
    v ∈ s.sets .cards ∧ loaded Cards.reads (s.hashes (.unit v)) = fields := by
  rw [Store.loadMember, Option.ite_none_right_eq_some, Option.some.injEq,
    (listing.perm _).mem_iff]
  rfl

theorem ofSeries_loaded_iff (v : String) :
    OfSeries (loaded Cards.reads (s.hashes (.unit v))) serId ↔ s.cardSeries v = some serId := by
  rw [OfSeries, loaded_number rfl, Store.cardSeries, Option.map_eq_some_iff]
  refine exists_congr fun dataId => and_congr_left fun _ => ?_
  rw [Option.map_eq_some_iff]
  constructor
  · rintro ⟨n, hn, heq⟩
    exact Value.number.inj heq ▸ hn
  · exact fun h => ⟨dataId, h, rfl⟩

/-- The loop ends at the first card of the series. -/
theorem findSerialId_spec (serId : ℤ) (cards : Slots)
    (hstored : ∀ v ∈ st, (s.number v .dataId).isSome) :
    (s.findSerialId serId st cards = some (none, cards) ∧
        ∀ v ∈ st, s.cardSeries v ≠ some serId) ∨
      ∃ v ∈ st, s.cardSeries v = some serId ∧
        s.findSerialId serId st cards =
          some (some (v, s.card v), fun i => if i < 8 then s.number v (.skill i) else cards i) := by
  induction st with
  | nil => exact Or.inl ⟨rfl, fun v hv => absurd hv List.not_mem_nil⟩
  | cons v st ih =>
      obtain ⟨dataId, hdata⟩ := Option.isSome_iff_exists.mp (hstored v List.mem_cons_self)
      have hseries : s.cardSeries v = some (Macro_GetCardSerialId dataId) := by
        rw [Store.cardSeries, hdata, Option.map_some]
      rw [Store.findSerialId, hdata, Option.bind_eq_bind, Option.bind_some]
      by_cases hser : serId = Macro_GetCardSerialId dataId
      · rw [if_pos hser]
        exact Or.inr ⟨v, List.mem_cons_self, by rw [hseries, hser], rfl⟩
      · rw [if_neg hser]
        rcases ih fun w hw => hstored w (List.mem_cons_of_mem v hw) with
          ⟨hnone, hall⟩ | ⟨w, hw, hwseries, hfound⟩
        · refine Or.inl ⟨hnone, List.forall_mem_cons.mpr ⟨?_, hall⟩⟩
          rw [hseries]
          exact fun heq => hser (Option.some.inj heq).symm
        · exact Or.inr ⟨w, List.mem_cons_of_mem v hw, hwseries, hfound⟩

theorem loadBySerialId_spec (hstored : s.Stored) :
    (s.loadBySerialId listing serId cards = some (none, cards) ∧
        ∀ v ∈ s.sets .cards, s.cardSeries v ≠ some serId) ∨
      ∃ v ∈ s.sets .cards, s.cardSeries v = some serId ∧
        s.loadBySerialId listing serId cards =
          some (some (v, s.card v), fun i => if i < 8 then s.number v (.skill i) else cards i) := by
  have hmem : ∀ v, v ∈ listing.smembers (s.sets .cards) ↔ v ∈ s.sets .cards :=
    fun v => (listing.perm _).mem_iff
  rw [Store.loadBySerialId]
  by_cases hset : s.sets .cards = []
  · rw [if_neg (not_not_intro hset), hset]
    exact Or.inl ⟨rfl, fun v hv => absurd hv List.not_mem_nil⟩
  · rw [if_pos hset]
    rcases findSerialId_spec serId cards
      fun v hv => hstored v ((hmem v).mp hv) with ⟨hnone, hall⟩ | ⟨v, hv, hseries, hfound⟩
    · exact Or.inl ⟨hnone, fun v hv => hall v ((hmem v).mpr hv)⟩
    · exact Or.inr ⟨v, (hmem v).mp hv, hseries, hfound⟩

/-- What the code stores has the `dataId` of every card. -/
theorem Saved.stored {account : Account} (hs : Saved env account) : account.store.Stored := by
  intro v hv
  obtain ⟨item, hitem, hkind⟩ := hs.known v .cards hv
  have hmade : ∀ made, item.origin.init env = some made → (made .dataId).isSome := by
    intro made hinit
    cases horigin : item.origin with
    | card dataId =>
        rw [horigin] at hinit
        obtain ⟨gained, -, hcard⟩ := Option.bind_eq_some_iff.mp hinit
        cases hcard
        rfl
    | _ =>
        rw [horigin] at hkind
        cases hkind
  obtain ⟨n, hnumber, -⟩ := hs.number hitem rfl hmade
  exact Option.isSome_of_eq_some hnumber

/-- The call agrees with the full load exactly when the account has no card of the series, or one
without skills while the module table has no skills either. -/
theorem loadBySerialId_agrees_iff (s : Store) (listing : Listing) (serId : ℤ) (cards : Slots)
    (hstored : s.Stored) (honce : s.OncePerSeries) :
    s.Agrees listing serId cards ↔ ∀ v ∈ s.sets .cards, s.cardSeries v = some serId →
      ∀ i < 8, s.number v (.skill i) = none ∧ cards i = none := by
  rw [Store.Agrees]
  constructor
  · rintro ⟨found, hload, -, hcard⟩ v hv hseries i hi
    rcases loadBySerialId_spec hstored with ⟨-, hnone⟩ | ⟨w, hw, hwseries, hload'⟩
    · exact absurd hseries (hnone v hv)
    · obtain rfl := honce v hv w hw (hseries.trans hwseries.symm)
      rw [hload, Option.some.injEq, Prod.mk.injEq] at hload'
      obtain ⟨rfl, hslots⟩ := hload'
      obtain ⟨hmember, -⟩ := hcard v _ rfl
      have hskill := (card_eq_loaded_iff v).mp (loadMember_eq_some_iff.mp hmember).2.symm i hi
      have hslot := congrFun hslots i
      rw [if_pos hi, hskill] at hslot
      exact ⟨hskill, hslot⟩
  · intro hnone
    rcases loadBySerialId_spec hstored with ⟨hload, hall⟩ | ⟨v, hv, hseries, hload⟩
    · refine ⟨none, hload, iff_of_true rfl fun v fields hmember hof => ?_, fun v fields h => ?_⟩
      · obtain ⟨hv, rfl⟩ := loadMember_eq_some_iff.mp hmember
        exact hall v hv ((ofSeries_loaded_iff v).mp hof)
      · cases h
    · have hbare := hnone v hv hseries
      have hcard := (card_eq_loaded_iff v).mpr fun i hi => (hbare i hi).1
      have hslots : (fun i => if i < 8 then s.number v (.skill i) else cards i) = cards := by
        funext i
        split_ifs with hi
        · rw [(hbare i hi).1, (hbare i hi).2]
        · rfl
      have hof : OfSeries (s.card v) serId := hcard ▸ (ofSeries_loaded_iff v).mpr hseries
      rw [hslots] at hload
      refine ⟨_, hload, iff_of_false (Option.some_ne_none _) fun h => ?_, fun w fields h => ?_⟩
      · exact h v _ (loadMember_eq_some_iff.mpr ⟨hv, hcard.symm⟩) hof
      · obtain ⟨rfl, rfl⟩ := Prod.mk.inj (Option.some.inj h)
        exact ⟨loadMember_eq_some_iff.mpr ⟨hv, hcard.symm⟩, hof⟩

/-- One card of series 1101, with the skill given in the first place. -/
def oneCard (skill : Option ℤ) : Store where
  sets
    | .cards => ["3001"]
    | _ => []
  hashes
    | .unit "3001" => some fun
      | .dataId => some (110100 : ℤ).repr
      | .count => some (5 : ℤ).repr
      | .explore => some (0 : ℤ).repr
      | .skill 0 => skill.map Int.repr
      | _ => none
    | _ => none

theorem number_oneCard (skill : Option ℤ) :
    (oneCard skill).number "3001" .dataId = some 110100 ∧
      (oneCard skill).number "3001" (.skill 0) = skill := by
  refine ⟨tonumber_repr 110100, ?_⟩
  cases skill with
  | none => rfl
  | some n => exact tonumber_repr n

theorem loadBySerialId_agrees_bare : (oneCard none).Agrees inOrder 1101 fun _ => none := by
  have hnumber := number_oneCard none
  refine (loadBySerialId_agrees_iff (oneCard none) inOrder 1101 (fun _ => none)
    (fun v hv => ?_) (fun v hv w hw _ => ?_)).mpr fun v hv _ i _ => ⟨?_, rfl⟩
  · obtain rfl := List.mem_singleton.mp hv
    rw [hnumber.1]
    rfl
  · rw [List.mem_singleton.mp hv, List.mem_singleton.mp hw]
  · obtain rfl := List.mem_singleton.mp hv
    cases i with
    | zero => exact hnumber.2
    | succ i => rfl

/-- The skill of the card goes to the module table. -/
theorem loadBySerialId_loses_skill :
    (oneCard (some 60103001)).Stored ∧ (oneCard (some 60103001)).OncePerSeries ∧
      ¬ (oneCard (some 60103001)).Agrees inOrder 1101 fun _ => none := by
  have hnumber := number_oneCard (some 60103001)
  refine ⟨fun v hv => ?_, fun v hv w hw _ => ?_, fun ⟨found, hload, _⟩ => ?_⟩
  · obtain rfl := List.mem_singleton.mp hv
    rw [hnumber.1]
    rfl
  · rw [List.mem_singleton.mp hv, List.mem_singleton.mp hw]
  · have hset : (oneCard (some 60103001)).sets .cards = ["3001"] := rfl
    have hmembers : inOrder.smembers ["3001"] = ["3001"] := rfl
    rw [Store.loadBySerialId, hset, if_pos (List.cons_ne_nil _ _), hmembers, Store.findSerialId,
      hnumber.1, Option.bind_eq_bind, Option.bind_some, if_pos (by decide), Option.some.injEq,
      Prod.mk.injEq] at hload
    have hslot := congrFun hload.2 0
    rw [if_pos (by decide), hnumber.2] at hslot
    cases hslot

end GameServer.Records
