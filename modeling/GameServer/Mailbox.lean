import GameServer.AgentFrame

/-!
# Items of mails

`REQUEST.recvMailItems` while mails arrive. The received bit of the flag is set before the first
call, and no mail is delivered twice, so the items of a mail are handed out once. A text that
cannot be read loses its items. What `tonumber` gives is a parameter; numbers are whole.
-/

namespace GameServer.Mailbox

open Goods Agent Cooperative Coroutine AgentService Transition

/-- Where a request waits: in `addFlag`, then in `addItems`. -/
inductive Place
  | addFlag (uuid : String)
  | addItems (uuid : String)
  deriving DecidableEq

variable (tonumber : String → Option ℤ) {w : World}

/-- The history is the mails whose items were passed to `addItems`. -/
abbrev State (w : World) := Session w Place (List String)

/-- `bit(n)` -/
def bit (n : ℕ) : BitVec 64 := 1#64 <<< n

def addFlag (op : Place) (uuid : String) (flag : BitVec 64) : Code w Place (List String) Unit := do
  let s ← get
  match s.mails uuid with
  | none => .raise
  | some unit =>
      set { s with mails :=
        Function.update s.mails uuid (some { unit with flag := unit.flag ||| flag }) }
      Coroutine.call op

/-- `string.split(s, ",")`: the runs of other characters. -/
def split (s : String) : List String :=
  ((s.toList.splitOn ',').filter fun piece => piece ≠ []).map String.ofList

/-- `items[k] = v`: a key that is `nil` is an error, and a value that is `nil` removes the entry. -/
def assign (items : IntTable) (k v : Option ℤ) : Option IntTable :=
  k.map fun k =>
    match v with
    | some v => items.set k v
    | none => items.filter fun e => e.1 ≠ k

/-- The loop over the pieces; the last one may lack its partner. -/
def readItems : List String → IntTable → Option IntTable
  | [], items => some items
  | [a], items => assign items (tonumber a) none
  | a :: b :: rest, items =>
      (assign items (tonumber a) (tonumber b)).bind fun items => readItems rest items

def recvMailItems (uuid : String) : Code w Place (List String) ℤ := do
  let s ← get
  match s.mails uuid with
  | none => return -1
  | some mail =>
      if mail.flag &&& bit 1 ≠ 0 then return -1
      else if mail.items = "" then return -1
      else
        addFlag (.addFlag uuid) uuid (bit 1)
        match readItems tonumber (split mail.items) [] with
        | none => .raise
        | some items =>
            modify fun s => { s with history := s.history ++ [uuid] }
            match ← addItems (.addItems uuid) items with
            | none => .raise
            | some _ => return 0

/-- A request is the identifier of a mail; the change from outside is a new mail. -/
def server (w : World) : Server (State w) Place String Mail where
  handle uuid := discard (recvMailItems tonumber uuid)
  outside mail s := { s with mails := Function.update s.mails mail.uuid (some mail) }

/-- Mails are delivered once: the identifier of a delivered mail is not in the mailbox. -/
def guard (w : World) : Server.Guard (State w) Place String Mail where
  request _ _ _ := True
  resume _ _ _ := True
  outside s _ mail := s.mails mail.uuid = none

def Received (s : State w) (uuid : String) : Prop :=
  ∃ mail, s.mails uuid = some mail ∧ mail.flag &&& bit 1 ≠ 0

/-- A mail is handed out, or about to be, at most once, and is then received. -/
structure Inv (s : State w) (m : Multiset Place) : Prop where
  once : ∀ uuid, s.history.count uuid + m.count (.addFlag uuid) ≤ 1
  received : ∀ uuid, uuid ∈ s.history ∨ Place.addFlag uuid ∈ m → Received s uuid

variable {tonumber} {s s' : State w} {m : Multiset Place} {uuid : String}

theorem Inv.of_mails (h : Inv s m) (hmails : s'.mails = s.mails)
    (hhistory : s'.history = s.history) :
    Inv s' m :=
  ⟨fun u => hhistory ▸ h.once u, fun u hu => by
    obtain ⟨mail, hmail, hflag⟩ := h.received u (hhistory ▸ hu)
    exact ⟨mail, hmails ▸ hmail, hflag⟩⟩

theorem inv_addItems : Inv s (.addItems uuid ::ₘ m) ↔ Inv s m := by
  have hcount : ∀ u, (Place.addItems uuid ::ₘ m).count (.addFlag u) = m.count (.addFlag u) :=
    fun u => Multiset.count_cons_of_ne (by simp) m
  have hmem : ∀ u, Place.addFlag u ∈ Place.addItems uuid ::ₘ m ↔ Place.addFlag u ∈ m :=
    fun u => by simp
  constructor
  · rintro ⟨h, h'⟩
    exact ⟨fun u => hcount u ▸ h u, fun u hu => h' u (hu.imp_right (hmem u).mpr)⟩
  · rintro ⟨h, h'⟩
    exact ⟨fun u => (hcount u).symm ▸ h u, fun u hu => h' u (hu.imp_right (hmem u).mp)⟩

/-- Setting the bit of a mail that is not received claims its items. -/
theorem Inv.claim (h : Inv s m) {mail : Mail} (hmail : s.mails uuid = some mail)
    (hflag : ¬ mail.flag &&& bit 1 ≠ 0) :
    Inv { s with mails :=
      Function.update s.mails uuid (some { mail with flag := mail.flag ||| bit 1 }) }
      (.addFlag uuid ::ₘ m) := by
  have hnot : ¬ Received s uuid := by
    rintro ⟨mail', hmail', hflag'⟩
    rw [hmail, Option.some.injEq] at hmail'
    exact hflag (hmail' ▸ hflag')
  have hnew : ¬ (uuid ∈ s.history ∨ Place.addFlag uuid ∈ m) := fun hu => hnot (h.received uuid hu)
  rw [not_or] at hnew
  refine ⟨fun u => ?_, fun u hu => ?_⟩
  · by_cases hu : u = uuid
    · subst hu
      rw [List.count_eq_zero_of_not_mem hnew.1, Multiset.count_cons_self,
        Multiset.count_eq_zero_of_notMem hnew.2]
    · rw [Multiset.count_cons_of_ne (by simpa using hu)]
      exact h.once u
  · by_cases huu : u = uuid
    · subst huu
      refine ⟨_, Function.update_self .., ?_⟩
      have hbit : (mail.flag ||| bit 1) &&& bit 1 = bit 1 := by
        ext i hi
        simp +contextual
      rw [hbit]
      decide
    · obtain ⟨mail', hmail', hflag'⟩ :=
        h.received u (hu.imp_right fun hm => by simpa [huu] using hm)
      exact ⟨mail', (Function.update_of_ne huu ..).trans hmail', hflag'⟩

/-- The text of a claimed mail cannot be read. -/
theorem Inv.drop (h : Inv s (.addFlag uuid ::ₘ m)) : Inv s m :=
  ⟨fun u => (Nat.add_le_add_left (Multiset.count_le_count_cons _ _ _) _).trans (h.once u),
    fun u hu => h.received u (hu.imp_right (Multiset.mem_cons_of_mem ·))⟩

theorem Inv.paid (h : Inv s (.addFlag uuid ::ₘ m)) :
    Inv { s with history := s.history ++ [uuid] } m := by
  refine ⟨fun u => ?_, fun u hu => h.received u ?_⟩
  · have hu := h.once u
    rw [List.count_append, List.count_singleton]
    by_cases huu : uuid = u
    · subst huu
      rw [Multiset.count_cons_self] at hu
      simp only [beq_self_eq_true, if_true]
      omega
    · rw [Multiset.count_cons_of_ne (by simpa using Ne.symm huu)] at hu
      simpa [huu] using hu
  · rcases hu with hu | hu
    · rcases List.mem_append.mp hu with hu | hu
      · exact .inl hu
      · obtain rfl := List.mem_singleton.mp hu
        exact .inr (Multiset.mem_cons_self _ _)
    · exact .inr (Multiset.mem_cons_of_mem hu)

theorem recvMailItems_safe (h : Inv s m) :
    (recvMailItems tonumber uuid).Safe Inv (guard w).resume (fun _ => Inv) s m := by
  unfold recvMailItems
  refine safe_bind.mpr (safe_get.mpr ?_)
  cases hmail : s.mails uuid with
  | none => exact h
  | some mail =>
      simp only
      split
      · exact h
      · next hflag =>
          split
          · exact h
          · refine safe_bind.mpr (safe_bind.mpr (safe_get.mpr ?_))
            simp only [hmail]
            refine safe_bind.mpr (safe_set.mpr (safe_call.mpr ⟨h.claim hmail hflag, ?_⟩))
            intro s m hs _
            cases readItems tonumber (split mail.items) [] with
            | none => exact hs.drop
            | some items =>
                refine safe_bind.mpr (safe_modify.mpr ?_)
                refine (stays_addItems _).then_safe (fun s s' m hg hs => ?_) (fun _ s m hs => ?_)
                  (inv_addItems.mpr hs.paid) fun rets s m hs => ?_
                · exact hs.of_mails hg.mails hg.history
                · exact inv_addItems.mp hs
                · have hs' := inv_addItems.mp hs
                  cases rets with
                  | none => exact hs'
                  | some _ => exact hs'

/-- The items of a mail are passed to `addItems` at most once, and from then on the mail is
received. -/
theorem mail_items_once (s₀ : State w) {p : Pool (State w) Place}
    (h : ((server tonumber w).system { s₀ with history := [] }).Runs (guard w).Admits p)
    (uuid : String) :
    p.shared.history.count uuid ≤ 1 ∧ (uuid ∈ p.shared.history → Received p.shared uuid) := by
  have hinv : Inv p.shared p.places := by
    refine Server.invariant _ ⟨by simp, by simp⟩ (fun s m r hs _ => ?_)
      (fun s m mail hs hnew => ?_) h
    · exact safe_bind.mpr (recvMailItems_safe hs)
    · refine ⟨hs.once, fun u hu => ?_⟩
      obtain ⟨mail', hmail', hflag⟩ := hs.received u hu
      have hne : u ≠ mail.uuid := fun he => by
        rw [he] at hmail'
        exact Option.some_ne_none _ (hmail'.symm.trans hnew)
      exact ⟨mail', (Function.update_of_ne hne ..).trans hmail', hflag⟩
  exact ⟨(Nat.le_add_right _ _).trans (hinv.once uuid), fun hu => hinv.received uuid (.inl hu)⟩

def readNumber (s : String) : Option ℤ :=
  s.toList.foldl (fun n c => n.bind fun n =>
    if c.isDigit then some (10 * n + (c.toNat - 48)) else none) (some 0)

/-- A mail with twenty gold arrives; two requests for it overlap. -/
theorem mail_items_once_gift :
    let w : World := { (default : World) with itemRepository := fun _ => some ⟨5, 0, []⟩ }
    ∃ p, ((server readNumber w).system { (default : State w) with history := [] }).Runs
      (guard w).Admits p ∧ p.shared.user.account.gold = (20 : ℤ) ∧ "gift" ∈ p.shared.history ∧
      p.shared.history.count "gift" ≤ 1 ∧ Received p.shared "gift" := by
  intro w
  have hrun : ∃ p, ((server readNumber w).system { (default : State w) with history := [] }).Runs
      (guard w).Admits p ∧ p.shared.user.account.gold = (20 : ℤ) ∧ "gift" ∈ p.shared.history := by
    refine ⟨_, .step (i := .resume 0) (.step (i := .request "gift") (.step (i := .request "gift")
      (.step (i := .outside ⟨"gift", "1,20", 0⟩) .init rfl rfl) trivial rfl) trivial rfl)
      (fun _ _ => trivial) rfl, rfl, List.mem_singleton.mpr rfl⟩
  obtain ⟨p, hp, hgold, hmem⟩ := hrun
  have h := mail_items_once default hp "gift"
  exact ⟨p, hp, hgold, hmem, h.1, h.2 hmem⟩

end GameServer.Mailbox
