import GameServer.GrantLog
import GameServer.Mailbox

/-!
# What the items of a mail are worth

A mail holds its items as a text, pairs of an id and a count with commas between them.
`REQUEST.recvMailItems` sets the received bit, reads the pairs into a table by id and hands the
table to `addItems`; a later pair for an id replaces an earlier one, and a package is opened once
whatever its count. The request runs alone. What `tonumber` gives is a parameter; numbers are whole.
-/

namespace GameServer.MailGrant

open Goods Agent Abort
open Mailbox (bit split assign readItems readNumber)
open Shop (goodOf isPackage total_nil total_cons total_append)

structure Mail where
  items : String
  flag : BitVec 64
  deriving DecidableEq

/-- `log` is history: what each call of `addItems` handed out. -/
structure Receiver where
  user : User
  mails : String → Option Mail
  log : List Log

variable (tonumber : String → Option ℤ) (env : Env)

def addFlag (uuid : String) (flag : BitVec 64) : Run Receiver Unit := do
  let s ← get
  match s.mails uuid with
  | none => failure
  | some unit =>
      set { s with mails :=
        Function.update s.mails uuid (some { unit with flag := unit.flag ||| flag }) }

/-- `addItems` with its log; what it did before an error is left out. -/
def addItems (items : IntTable) : Run Receiver (Option IntTable) := fun s =>
  match (logAt env s.user.level 2 items).run s.user.drawn with
  | none => (none, s)
  | some ((rets, log), drawn) =>
      match credit env log.bill { s.user with drawn } with
      | none => (none, s)
      | some (_, user) => (some rets, { s with user, log := s.log ++ [log] })

structure Reply where
  errorCode : ℤ
  uuid : String
  items : IntTable
  deriving DecidableEq

def recvMailItems (uuid : String) : Run Receiver Reply := do
  let s ← get
  match s.mails uuid with
  | none => return ⟨-1, uuid, []⟩
  | some mail =>
      if mail.flag &&& bit 1 ≠ 0 then return ⟨-1, uuid, []⟩
      else if mail.items = "" then return ⟨-1, uuid, []⟩
      else
        addFlag uuid (bit 1)
        match readItems tonumber (split mail.items) [] with
        | none => failure
        | some items =>
            match ← addItems env items with
            | none => failure
            | some rets => return ⟨0, uuid, env.pairs rets⟩

/-- The check of `sendMail`. -/
def validItems : List String → Bool
  | [] => true
  | [_] => false
  | itemid :: itemnum :: rest =>
      ((tonumber itemid).any fun id => (env.data.itemRepository id).isSome) &&
        ((tonumber itemnum).any fun num => 0 < num && num ≤ maxint32) && validItems rest

/-! ## What a mail should give -/

/-- The pairs of a text whose pieces are numbers. -/
def listed : List String → Option (List (ℤ × ℤ))
  | [] => some []
  | [_] => none
  | a :: b :: rest => do
      let k ← tonumber a
      let v ← tonumber b
      let l ← listed rest
      some ((k, v) :: l)

/-- What one of an item is. -/
def worth (k : ℤ) : Option Good :=
  (env.data.itemRepository k).bind fun item =>
    if item.n32Type = 4 then some (.opening k) else goodOf item

/-- What the pairs come to. -/
def owed (l : List (ℤ × ℤ)) (good : Good) : ℤ := IntTable.sumOf (fun k => worth env k = some good) l

/-- Every pair is worth something, and `addItems` gave by itself what the pairs come to. -/
def Granted (text : String) (s s' : Receiver) : Prop :=
  ∃ l log, listed tonumber (split text) = some l ∧ s'.log = s.log ++ [log] ∧
    (∀ e ∈ l, (worth env e.1).isSome) ∧ ∀ good, total (log.atLevel 1) good = owed env l good

/-- The items are granted; a request for a text that `sendMail` would not send may also fail, and
changes nothing then. -/
def Exact (uuid text : String) (s : Receiver) : Prop :=
  let r := (recvMailItems tonumber env uuid).run s
  (∃ reply, r.1 = some reply ∧ reply.errorCode = 0 ∧ Granted tonumber env text s r.2) ∨
    ¬ (text ≠ "" ∧ validItems tonumber env (split text)) ∧
      (∀ reply, r.1 = some reply → reply.errorCode ≠ 0) ∧ r.2 = s

/-! ## When it does -/

/-- The table that is made of the pairs. -/
def table (l : List (ℤ × ℤ)) : IntTable := l.foldl (fun t e => t.set e.1 e.2) []

/-- Every pair is worth something, the table gives what the pairs come to, and there is no error in
handing it out. -/
def Deliverable (l : List (ℤ × ℤ)) (user : User) : Prop :=
  (∀ e ∈ l, (worth env e.1).isSome) ∧
    (∀ good, total (topBill env (table l)) good = owed env l good) ∧
    (Agent.addItems env (table l) user).isSome

/-! ## Runs -/

variable {tonumber env} {s s' : Receiver} {uuid text : String} {mail : Mail} {items : IntTable}
  {l : List (ℤ × ℤ)} {good : Good} {k v : ℤ}

theorem run_addItems (items : IntTable) (s : Receiver) :
    (addItems env items).run s =
      match (logAt env s.user.level 2 items).run s.user.drawn with
      | none => (none, s)
      | some ((rets, log), drawn) =>
          match credit env log.bill { s.user with drawn } with
          | none => (none, s)
          | some (_, user) => (some rets, { s with user, log := s.log ++ [log] }) := rfl

/-- A call that comes back is one of `Agent.addItems`, and when it returns a table the highest level
of its log is what the items give by themselves. -/
theorem addItems_eq_some {rets : Option IntTable}
    (h : (addItems env items).run s = (some rets, s')) : ∃ log user,
      s' = { s with user, log := s.log ++ [log] } ∧
      Agent.addItems env items s.user = some ((), user) ∧
      (rets.isSome ↔ ∀ e ∈ items, (env.data.itemRepository e.1).isSome) ∧
      (rets.isSome → log.atLevel 1 = topBill env items) := by
  rw [run_addItems] at h
  split at h
  · cases h
  · next rets' log drawn hlog =>
    split at h
    · cases h
    · next user hcredit =>
      cases h
      obtain ⟨hsome, htop⟩ := logAt_top hlog
      refine ⟨log, user, rfl, ?_, hsome, htop⟩
      rw [Agent.addItems, addItemsAt_logged, hlog, Option.bind_some, hcredit]
      rfl

theorem run_addItems_of_some {user : User}
    (h : Agent.addItems env items s.user = some ((), user)) :
    ∃ rets log, (addItems env items).run s =
      (some rets, { s with user, log := s.log ++ [log] }) := by
  rw [Agent.addItems, addItemsAt_logged] at h
  obtain ⟨⟨⟨rets, log⟩, drawn⟩, hlog, h⟩ := Option.bind_eq_some_iff.mp h
  obtain ⟨⟨_, user'⟩, hcredit, heq⟩ := Option.map_eq_some_iff.mp h
  cases heq
  refine ⟨rets, log, ?_⟩
  rw [run_addItems, hlog]
  dsimp only
  rw [hcredit]

/-- The mail with its bit, and everything else as it was. -/
def received (s : Receiver) (uuid : String) (mail : Mail) : Receiver :=
  { s with mails := Function.update s.mails uuid (some { mail with flag := mail.flag ||| bit 1 }) }

theorem run_addFlag (h : s.mails uuid = some mail) :
    (addFlag uuid (bit 1)).run s = (some (), received s uuid mail) := by
  unfold addFlag
  rw [run_get_bind, h]
  rfl

/-- The part of the request behind the bit. -/
def handOver (tonumber : String → Option ℤ) (env : Env) (uuid text : String) : Run Receiver Reply :=
  match readItems tonumber (split text) [] with
  | none => failure
  | some items => do
      match ← addItems env items with
      | none => failure
      | some rets => return ⟨0, uuid, env.pairs rets⟩

theorem run_recvMailItems (h : s.mails uuid = some mail) (hnew : mail.flag &&& bit 1 = 0)
    (hitems : mail.items ≠ "") : (recvMailItems tonumber env uuid).run s =
      (handOver tonumber env uuid mail.items).run (received s uuid mail) := by
  unfold recvMailItems
  rw [run_get_bind, h]
  dsimp only
  rw [if_neg (not_not.mpr hnew), if_neg hitems, run_bind_some (run_addFlag h)]
  unfold handOver
  cases readItems tonumber (split mail.items) [] <;> rfl

theorem handOver_mails (s : Receiver) :
    ((handOver tonumber env uuid text).run s).2.mails = s.mails := by
  have hadd : ∀ items, ((addItems env items).run s).2.mails = s.mails := fun items => by
    rw [run_addItems]
    split
    · rfl
    · split <;> rfl
  unfold handOver
  cases readItems tonumber (split text) [] with
  | none => rfl
  | some items =>
      have hitems := hadd items
      rw [run_bind]
      split
      · next rets s' hrun =>
        rw [hrun] at hitems
        cases rets <;> exact hitems
      · next s' hrun =>
        rw [hrun] at hitems
        exact hitems

theorem received_ne (h : s.mails uuid = some mail) (hnew : mail.flag &&& bit 1 = 0) :
    (received s uuid mail).mails ≠ s.mails := fun heq => by
  have hmail : some { mail with flag := mail.flag ||| bit 1 } = some mail := by
    rw [← h, ← heq]
    exact (Function.update_self uuid _ s.mails).symm
  have hflag : mail.flag ||| bit 1 = mail.flag := congrArg Mail.flag (Option.some.inj hmail)
  have hbit : (mail.flag ||| bit 1) &&& bit 1 = bit 1 := by
    ext i hi
    simp +contextual
  rw [hflag, hnew] at hbit
  exact absurd hbit (by decide)

/-! ## The table -/

theorem readItems_of_listed {pieces : List String} (h : listed tonumber pieces = some l)
    (items : IntTable) :
    readItems tonumber pieces items = some (l.foldl (fun t e => t.set e.1 e.2) items) := by
  induction pieces using listed.induct generalizing l items with
  | case1 =>
      cases h
      rfl
  | case2 a => cases h
  | case3 a b rest ih =>
      obtain ⟨k, hk, h⟩ := Option.bind_eq_some_iff.mp h
      obtain ⟨v, hv, h⟩ := Option.bind_eq_some_iff.mp h
      obtain ⟨l', hl', h⟩ := Option.bind_eq_some_iff.mp h
      cases h
      rw [readItems, hk, hv]
      exact ih hl' (items.set k v)

theorem table_append (l : List (ℤ × ℤ)) (e : ℤ × ℤ) :
    table (l ++ [e]) = (table l).set e.1 e.2 := by
  rw [table, List.foldl_append]
  rfl

theorem nodup_table (l : List (ℤ × ℤ)) : (IntTable.keys (table l)).Nodup := by
  induction l using List.reverseRecOn with
  | nil => exact List.nodup_nil
  | append_singleton l e ih =>
      rw [table_append]
      exact IntTable.nodup_set _ _ ih

theorem mem_keys_table : k ∈ IntTable.keys (table l) ↔ k ∈ IntTable.keys l := by
  induction l using List.reverseRecOn with
  | nil => exact Iff.rfl
  | append_singleton l e ih =>
      rw [table_append, IntTable.mem_keys_set, ih, IntTable.keys_append, List.mem_append, or_comm]
      exact or_congr_right List.mem_singleton.symm

theorem known_of_worth (h : ∀ e ∈ l, (worth env e.1).isSome) :
    ∀ e ∈ table l, (env.data.itemRepository e.1).isSome := fun e he => by
  have hkey : e.1 ∈ IntTable.keys l := mem_keys_table.mp (List.mem_map_of_mem he)
  obtain ⟨e', he', heq⟩ := List.mem_map.mp hkey
  have hworth := h e' he'
  rw [heq, worth] at hworth
  cases hitem : env.data.itemRepository e.1 with
  | none =>
      rw [hitem] at hworth
      cases hworth
  | some item => rfl

/-! ## Exactness -/

theorem deliverable_of_handOver {reply : Reply}
    (hrun : (handOver tonumber env uuid text).run s = (some reply, s'))
    (hgranted : Granted tonumber env text s s') :
    ∃ l, listed tonumber (split text) = some l ∧ Deliverable env l s.user := by
  obtain ⟨l, log, hlisted, hlog, hworth, htotal⟩ := hgranted
  refine ⟨l, hlisted, hworth, ?_⟩
  have hitems : readItems tonumber (split text) [] = some (table l) :=
    readItems_of_listed hlisted []
  unfold handOver at hrun
  rw [hitems] at hrun
  obtain ⟨rets, s₁, hadd, hrest⟩ := run_bind_eq_some hrun
  obtain ⟨log', user, rfl, huser, -, htop⟩ := addItems_eq_some hadd
  cases rets with
  | none => cases hrest
  | some rets =>
      cases hrest
      obtain rfl : log' = log := by simpa using hlog
      rw [htop rfl] at htotal
      refine ⟨htotal, ?_⟩
      rw [huser]
      rfl

theorem handOver_of_deliverable (hlisted : listed tonumber (split text) = some l)
    (h : Deliverable env l s.user) : ∃ reply s',
      (handOver tonumber env uuid text).run s = (some reply, s') ∧ reply.errorCode = 0 ∧
        Granted tonumber env text s s' := by
  obtain ⟨hworth, htotal, huser⟩ := h
  obtain ⟨⟨_, user⟩, huser⟩ := Option.isSome_iff_exists.mp huser
  obtain ⟨rets, log, hadd⟩ := run_addItems_of_some huser
  obtain ⟨log', user', heq, -, hsome, htop⟩ := addItems_eq_some hadd
  have hrets : rets.isSome := hsome.mpr (known_of_worth hworth)
  obtain rfl : log = log' := by
    have := congrArg Receiver.log heq
    simpa using this
  have hitems : readItems tonumber (split text) [] = some (table l) :=
    readItems_of_listed hlisted []
  obtain ⟨rets, rfl⟩ := Option.isSome_iff_exists.mp hrets
  refine ⟨⟨0, uuid, env.pairs rets⟩, { s with user, log := s.log ++ [log] }, ?_, rfl, l, log,
    hlisted, rfl, hworth, ?_⟩
  · unfold handOver
    rw [hitems]
    exact run_bind_some hadd
  · rw [htop rfl]
    exact htotal

theorem exact_iff (h : s.mails uuid = some mail) (hnew : mail.flag &&& bit 1 = 0) :
    Exact tonumber env uuid mail.items s ↔ mail.items = "" ∨
      ∃ l, listed tonumber (split mail.items) = some l ∧ Deliverable env l s.user := by
  by_cases hitems : mail.items = ""
  · refine iff_of_true (Or.inr ⟨fun hvalid => hvalid.1 hitems, ?_⟩) (Or.inl hitems)
    have hrun : (recvMailItems tonumber env uuid).run s = (some ⟨-1, uuid, []⟩, s) := by
      unfold recvMailItems
      rw [run_get_bind, h]
      dsimp only
      rw [if_neg (not_not.mpr hnew), if_pos hitems]
      rfl
    rw [hrun]
    refine ⟨fun reply hreply => ?_, rfl⟩
    cases hreply
    exact (by decide : (-1 : ℤ) ≠ 0)
  · rw [Exact, run_recvMailItems h hnew hitems, or_iff_right hitems]
    constructor
    · rintro (⟨reply, hreply, -, hgranted⟩ | ⟨-, -, hsame⟩)
      · have hfrom : Granted tonumber env mail.items (received s uuid mail) _ := hgranted
        obtain ⟨l, hlisted, hdeliver⟩ := deliverable_of_handOver (Prod.ext hreply rfl) hfrom
        exact ⟨l, hlisted, hdeliver⟩
      · -- the bit is set by now
        have hmails : ((handOver tonumber env uuid mail.items).run (received s uuid mail)).2.mails =
            (received s uuid mail).mails := handOver_mails _
        rw [hsame] at hmails
        exact absurd hmails.symm (received_ne h hnew)
    · rintro ⟨l, hlisted, hdeliver⟩
      obtain ⟨reply, s', hrun, hok, hgranted⟩ := handOver_of_deliverable hlisted
        (s := received s uuid mail) hdeliver
      rw [hrun]
      exact Or.inl ⟨reply, rfl, hok, hgranted⟩

/-! ## Pairs with positive counts -/

def isOpening : Good → Bool
  | .opening _ => true
  | _ => false

/-- No id twice, packages one at a time, and sums that are Lua integers. -/
structure Simple (env : Env) (l : List (ℤ × ℤ)) : Prop where
  distinct : (IntTable.keys l).Nodup
  single : ∀ e ∈ l, isPackage env e.1 → e.2 = 1
  small : ∀ good, isOpening good = false → owed env l good ≤ maxinteger

theorem table_of_nodup (h : (IntTable.keys l).Nodup) : table l = l := by
  induction l using List.reverseRecOn with
  | nil => rfl
  | append_singleton l e ih =>
      rw [IntTable.keys_append] at h
      have hnew : e.1 ∉ IntTable.keys l := fun hmem =>
        List.disjoint_of_nodup_append h hmem (List.mem_singleton.mpr rfl)
      rw [table_append, ih (List.Nodup.of_append_left h), IntTable.set_of_not_mem hnew]

theorem mem_table {e : ℤ × ℤ} (h : e ∈ table l) : e ∈ l := by
  induction l using List.reverseRecOn with
  | nil => exact absurd h List.not_mem_nil
  | append_singleton l e' ih =>
      rw [table_append] at h
      apply List.mem_append.mpr
      rcases IntTable.mem_set h with heq | he
      · exact Or.inr (List.mem_singleton.mpr heq)
      · exact Or.inl (ih he)

theorem owed_append (l : List (ℤ × ℤ)) (e : ℤ × ℤ) (good : Good) :
    owed env (l ++ [e]) good =
      owed env l good + if worth env e.1 = some good then e.2 else 0 := by
  rw [owed, IntTable.sumOf_append, IntTable.sumOf_cons, IntTable.sumOf_nil, add_zero]
  rfl

/-- A pair for an id that was listed before takes from the sum what the earlier pair was worth. -/
theorem owed_table (hpos : ∀ e ∈ l, 0 < e.2) :
    (∀ good, owed env (table l) good ≤ owed env l good) ∧
      ((∀ e ∈ l, (worth env e.1).isSome) → (∀ good, owed env (table l) good = owed env l good) →
        (IntTable.keys l).Nodup) := by
  induction l using List.reverseRecOn with
  | nil => exact ⟨fun good => le_rfl, fun _ _ => List.nodup_nil⟩
  | append_singleton l e ih =>
      have hposl : ∀ e' ∈ l, 0 < e'.2 := fun e' he' => hpos e' (List.mem_append_left _ he')
      obtain ⟨hle, hnodup⟩ := ih hposl
      have hsum : ∀ good, owed env (l ++ [e]) good =
          owed env l good + if worth env e.1 = some good then e.2 else 0 := owed_append l e
      have hset : ∀ good, owed env (table (l ++ [e])) good = owed env (table l) good +
          if worth env e.1 = some good then e.2 - ((table l).get e.1).getD 0 else 0 :=
            fun good => by
        rw [table_append]
        exact IntTable.sumOf_set (nodup_table l) e.1 e.2
      have hold : 0 ≤ ((table l).get e.1).getD 0 := by
        cases hget : (table l).get e.1 with
        | none => exact le_rfl
        | some old => exact (hposl _ (mem_table (IntTable.mem_of_get hget))).le
      refine ⟨fun good => ?_, fun hworth heq => ?_⟩
      · rw [hsum, hset]
        have := hle good
        split_ifs <;> omega
      · have hsame : ∀ good, owed env (table l) good = owed env l good := fun good => by
          have h₁ := heq good
          rw [hsum, hset] at h₁
          have h₂ := hle good
          split_ifs at h₁ <;> omega
        obtain ⟨good, hgood⟩ := Option.isSome_iff_exists.mp (hworth e (by simp))
        have hnone : (table l).get e.1 = none := by
          have h₁ := heq good
          rw [hsum, hset, hsame good, if_pos hgood, if_pos hgood] at h₁
          cases hget : (table l).get e.1 with
          | none => rfl
          | some old =>
              have hpositive : 0 < old := hposl _ (mem_table (IntTable.mem_of_get hget))
              rw [hget, Option.getD_some] at h₁
              omega
        have hnew : e.1 ∉ IntTable.keys l := fun hmem =>
          IntTable.get_eq_none.mp hnone (mem_keys_table.mpr hmem)
        rw [IntTable.keys_append]
        refine List.nodup_append_comm.mp (List.nodup_cons.mpr ⟨hnew, ?_⟩)
        exact hnodup (fun e' he' => hworth e' (List.mem_append_left _ he')) hsame

/-! ## What a table gives by itself -/

/-- What the loop has gathered of a good. -/
def amount (g : Gathered) : Good → ℤ
  | .gold => g.gold
  | .money => g.money
  | .card dataId => (g.cards.get dataId).getD 0
  | .skill dataId => (g.skillMats.get dataId).getD 0
  | .opening _ => 0

theorem amount_collect (g : Gathered) {e : ℤ × ℤ} (hv : wrap e.2 = e.2)
    (hgood : isOpening good = false) :
    amount (collect env g e) good =
      if worth env e.1 = some good then wrap (amount g good + e.2) else amount g good := by
  unfold collect worth goodOf
  cases env.data.itemRepository e.1 with
  | none => rfl
  | some item =>
      rw [Option.bind_some]
      dsimp only
      by_cases h4 : item.n32Type = 4
      · have hne : some (.opening e.1) ≠ some good := fun heq => by
          rw [← Option.some.inj heq] at hgood
          cases hgood
        rw [if_neg (by omega), if_pos h4, if_pos h4, if_neg hne]
      rw [if_neg h4, if_neg h4]
      by_cases h3 : item.n32Type = 3
      · rw [if_pos h3, if_pos h3]
        cases good with
        | card dataId =>
            rw [amount, IntTable.getD_add _ _ _ hv]
            simp only [Option.some.injEq, Good.card.injEq, eq_comm (a := dataId)]
            split_ifs with hid
            · rw [amount, hid]
            · rfl
        | opening k => cases hgood
        | _ => rfl
      rw [if_neg h3, if_neg h3]
      by_cases h5 : item.n32Type = 5
      · rw [if_pos h5, if_pos h5]
        cases good <;> rfl
      rw [if_neg h5, if_neg h5]
      by_cases h6 : item.n32Type = 6
      · rw [if_pos h6, if_pos h6]
        cases good <;> rfl
      rw [if_neg h6, if_neg h6]
      by_cases h7 : item.n32Type = 7
      · rw [if_pos h7, if_pos h7]
        cases good with
        | skill dataId =>
            rw [amount, IntTable.getD_add _ _ _ hv]
            simp only [Option.some.injEq, Good.skill.injEq, eq_comm (a := dataId)]
            split_ifs with hid
            · rw [amount, hid]
            · rfl
        | opening k => cases hgood
        | _ => rfl
      rw [if_neg h7, if_neg h7]
      rfl

theorem amount_foldl (hv : ∀ e ∈ l, wrap e.2 = e.2) (hgood : isOpening good = false) :
    amount (l.foldl (collect env) {}) good = wrap (owed env l good) := by
  induction l using List.reverseRecOn with
  | nil => cases good <;> rfl
  | append_singleton l e ih =>
      have hprevious := ih fun e' he' => hv e' (List.mem_append_left _ he')
      rw [List.foldl_append, List.foldl_cons, List.foldl_nil,
        amount_collect _ (hv e (by simp)) hgood, hprevious, owed_append]
      split_ifs
      · exact Int.bmod_add_bmod
      · rw [add_zero]

theorem nodup_foldl (l : List (ℤ × ℤ)) :
    (IntTable.keys (l.foldl (collect env) {}).cards).Nodup ∧
      (IntTable.keys (l.foldl (collect env) {}).skillMats).Nodup := by
  induction l using List.reverseRecOn with
  | nil => exact ⟨List.nodup_nil, List.nodup_nil⟩
  | append_singleton l e ih =>
      rw [List.foldl_append, List.foldl_cons, List.foldl_nil]
      generalize l.foldl (collect env) {} = g at ih ⊢
      unfold collect
      cases env.data.itemRepository e.1 with
      | none => exact ih
      | some item =>
          dsimp only
          split_ifs
          · exact ⟨IntTable.nodup_add _ _ ih.1, ih.2⟩
          · exact ih
          · exact ih
          · exact ih
          · exact ⟨ih.1, IntTable.nodup_add _ _ ih.2⟩
          · exact ih

/-- The entries that are handed out, under the goods of their keys. -/
theorem total_entries {mk : ℤ → Good} (hmk : Function.Injective mk) (ht : (IntTable.keys l).Nodup)
    (k : ℤ) : total ((l.filter fun e => 0 < e.2).map fun e => (mk e.1, e.2)) (mk k) =
      max ((IntTable.get l k).getD 0) 0 := by
  induction l with
  | nil => rfl
  | cons e l ih =>
      rw [IntTable.keys, List.map_cons, List.nodup_cons] at ht
      have hrest := ih ht.2
      rw [IntTable.get_cons, List.filter_cons]
      by_cases hk : e.1 = k
      · have hnone : IntTable.get l k = none := IntTable.get_eq_none.mpr (hk ▸ ht.1)
        rw [hnone] at hrest
        rw [if_pos hk]
        by_cases hpos : 0 < e.2
        · rw [if_pos (decide_eq_true hpos), List.map_cons, total_cons, hrest, hk, if_pos rfl,
            Option.getD_some, max_eq_left hpos.le]
          exact add_zero e.2
        · rw [if_neg (mt of_decide_eq_true hpos), hrest, Option.getD_some,
            max_eq_right (not_lt.mp hpos)]
          rfl
      · rw [if_neg hk, ← hrest]
        split_ifs
        · rw [List.map_cons, total_cons, if_neg fun heq => hk (hmk heq), zero_add]
        · rfl

theorem total_entries_of_ne {mk : ℤ → Good} (hmk : ∀ k, mk k ≠ good) (l : List (ℤ × ℤ)) :
    total (l.map fun e => (mk e.1, e.2)) good = 0 := by
  induction l with
  | nil => rfl
  | cons e l ih => rw [List.map_cons, total_cons, if_neg (hmk e.1), ih, add_zero]

theorem total_one (first good : Good) (n : ℤ) :
    total (if n > 0 then [(first, n)] else []) good = if first = good then max n 0 else 0 := by
  by_cases hpos : n > 0
  · rw [if_pos hpos, total_cons, total_nil, add_zero, max_eq_left hpos.le]
  · rw [if_neg hpos, total_nil, max_eq_right (not_lt.mp hpos), ite_self]

theorem total_billHandedOut {g : Gathered} (hcards : (IntTable.keys g.cards).Nodup)
    (hskills : (IntTable.keys g.skillMats).Nodup) (good : Good) :
    total (billHandedOut env g) good = max (amount g good) 0 := by
  have hperm : ∀ t : IntTable, (IntTable.keys t).Nodup → (IntTable.keys (env.pairs t)).Nodup ∧
      ∀ k, IntTable.get (env.pairs t) k = t.get k := fun t ht => by
    have hkeys := (((env.pairs_perm t).map Prod.fst).nodup_iff).mpr ht
    exact ⟨hkeys, fun k => IntTable.get_perm (env.pairs_perm t) hkeys k⟩
  obtain ⟨hcards, hgetCard⟩ := hperm g.cards hcards
  obtain ⟨hskills, hgetSkill⟩ := hperm g.skillMats hskills
  have hcard : ∀ good, (∀ k, .card k ≠ good) → total (((env.pairs g.cards).filter fun e =>
      0 < e.2).map fun e => (.card e.1, e.2)) good = 0 := fun _ h => total_entries_of_ne h _
  have hskill : ∀ good, (∀ k, .skill k ≠ good) → total (((env.pairs g.skillMats).filter fun e =>
      0 < e.2).map fun e => (.skill e.1, e.2)) good = 0 := fun _ h => total_entries_of_ne h _
  rw [billHandedOut, total_append, total_append, total_append, total_one, total_one]
  cases good with
  | gold => simp [hcard, hskill, amount]
  | money => simp [hcard, hskill, amount]
  | card dataId =>
      rw [total_entries (fun _ _ h => Good.card.inj h) hcards, hgetCard, hskill _ (by simp)]
      simp [amount]
  | skill dataId =>
      rw [total_entries (fun _ _ h => Good.skill.inj h) hskills, hgetSkill, hcard _ (by simp)]
      simp [amount]
  | opening k => simp [hcard, hskill, amount]

/-- The openings of a table. -/
def openings (env : Env) (t : IntTable) (good : Good) : ℤ :=
  total ((t.filter fun e => isPackage env e.1).map fun e => (.opening e.1, 1)) good

theorem total_topBill {t : IntTable} (hv : ∀ e ∈ t, wrap e.2 = e.2) (good : Good) :
    total (topBill env t) good = openings env t good +
      if isOpening good then 0 else max (wrap (owed env t good)) 0 := by
  obtain ⟨hcards, hskills⟩ : (IntTable.keys ((env.pairs t).foldl (collect env) {}).cards).Nodup ∧
      (IntTable.keys ((env.pairs t).foldl (collect env) {}).skillMats).Nodup := nodup_foldl _
  have hopenings : total (((env.pairs t).filter fun e => isPackage env e.1).map fun e =>
      (.opening e.1, 1)) good = openings env t good :=
    ((((env.pairs_perm t).filter _).map _).map _).sum_eq
  have howed : owed env (env.pairs t) good = owed env t good :=
    IntTable.sumOf_perm (env.pairs_perm t)
  have hvalues : ∀ e ∈ env.pairs t, wrap e.2 = e.2 := fun e he =>
    hv e ((env.pairs_perm t).mem_iff.mp he)
  rw [topBill, total_append, hopenings, total_billHandedOut hcards hskills]
  cases hgood : isOpening good with
  | false => rw [amount_foldl hvalues hgood, howed, if_neg (by decide)]
  | true =>
      rw [if_pos rfl]
      cases good with
      | opening k => rfl
      | _ => cases hgood

theorem worth_eq_opening {k' : ℤ} :
    worth env k = some (.opening k') ↔ isPackage env k = true ∧ k = k' := by
  unfold worth isPackage goodOf
  cases env.data.itemRepository k with
  | none => simp
  | some item =>
      rw [Option.bind_some]
      by_cases h4 : item.n32Type = 4
      · simp [h4]
      · rw [if_neg h4]
        simp only [Option.any_some, h4, decide_false, Bool.false_eq_true, false_and, iff_false]
        split_ifs <;> simp

theorem openings_cons (e : ℤ × ℤ) (t : IntTable) (k : ℤ) : openings env (e :: t) (.opening k) =
    (if worth env e.1 = some (.opening k) then 1 else 0) + openings env t (.opening k) := by
  unfold openings
  rw [List.filter_cons]
  simp only [worth_eq_opening]
  by_cases hpackage : isPackage env e.1 = true
  · rw [if_pos hpackage, List.map_cons, total_cons]
    simp [hpackage]
  · rw [if_neg hpackage, if_neg fun h => hpackage h.1, zero_add]

theorem openings_of_not (hgood : isOpening good = false) (t : IntTable) :
    openings env t good = 0 := by
  unfold openings
  induction t.filter fun e => isPackage env e.1 with
  | nil => rfl
  | cons e t ih =>
      rw [List.map_cons, total_cons, ih, add_zero]
      refine if_neg fun h => ?_
      rw [← h] at hgood
      cases hgood

theorem openings_le (hpos : ∀ e ∈ l, 0 < e.2) (k : ℤ) :
    openings env l (.opening k) ≤ owed env l (.opening k) ∧
      (openings env l (.opening k) = owed env l (.opening k) ↔
        ∀ e ∈ l, worth env e.1 = some (.opening k) → e.2 = 1) := by
  induction l with
  | nil => exact ⟨le_rfl, by simp [openings, owed, IntTable.sumOf_nil, total_nil]⟩
  | cons e l ih =>
      obtain ⟨hle, heq⟩ := ih fun e' he' => hpos e' (List.mem_cons_of_mem _ he')
      have hfirst := hpos e List.mem_cons_self
      rw [openings_cons, owed, IntTable.sumOf_cons, List.forall_mem_cons, ← heq]
      change _ ≤ _ + owed env l _ ∧ (_ = _ + owed env l _ ↔ _)
      split_ifs with hworth
      · refine ⟨by omega, fun h => ⟨fun _ => by omega, by omega⟩, fun h => ?_⟩
        have hone := h.1 hworth
        omega
      · refine ⟨by omega, fun h => ⟨fun h' => absurd h' hworth, by omega⟩, fun h => ?_⟩
        omega

theorem wrap_le {n : ℤ} (h : 0 ≤ n) : wrap n ≤ n ∧ wrap n ≤ maxinteger := by
  unfold wrap maxinteger
  have hlt := Int.bmod_lt (x := n) (m := 2 ^ 64) (by decide)
  have hle : Int.bmod n (2 ^ 64) ≤ n := by
    rw [Int.bmod_def]
    split_ifs <;> omega
  exact ⟨hle, by omega⟩

/-- With positive counts the table gives what the pairs come to exactly for simple pairs. -/
theorem simple_iff (hpos : ∀ e ∈ l, 0 < e.2 ∧ e.2 ≤ maxint32)
    (hworth : ∀ e ∈ l, (worth env e.1).isSome) :
    (∀ good, total (topBill env (table l)) good = owed env l good) ↔ Simple env l := by
  have hwrap : ∀ e ∈ table l, wrap e.2 = e.2 := fun e he => by
    obtain ⟨hlow, hhigh⟩ := hpos e (mem_table he)
    unfold maxint32 at hhigh
    exact wrap_of_range (by omega) (by omega)
  have hposl : ∀ e ∈ l, 0 < e.2 := fun e he => (hpos e he).1
  have hpost : ∀ e ∈ table l, 0 < e.2 := fun e he => hposl e (mem_table he)
  obtain ⟨hle, hnodup⟩ := @owed_table env l hposl
  constructor
  · intro h
    have hsame : ∀ good, owed env (table l) good = owed env l good ∧
        (isOpening good = false → owed env l good ≤ maxinteger) := fun good => by
      have hgood := h good
      have hless := hle good
      have hnonneg : 0 ≤ owed env (table l) good :=
        IntTable.sumOf_nonneg fun e he => (hpost e he).le
      rw [total_topBill hwrap] at hgood
      cases hopening : isOpening good with
      | false =>
          obtain ⟨hself, hmax⟩ := wrap_le hnonneg
          rw [hopening, if_neg (by decide), openings_of_not hopening] at hgood
          unfold maxinteger at *
          refine ⟨by omega, fun _ => by omega⟩
      | true =>
          cases good with
          | opening k =>
              have hopened := (@openings_le env _ hpost k).1
              rw [hopening, if_pos rfl] at hgood
              exact ⟨by omega, fun hfalse => by cases hfalse⟩
          | _ => cases hopening
    have hdistinct := hnodup hworth fun good => (hsame good).1
    refine ⟨hdistinct, fun e he hpackage => ?_, fun good => (hsame good).2⟩
    have hopened := h (.opening e.1)
    rw [total_topBill hwrap, isOpening, if_pos rfl, add_zero, table_of_nodup hdistinct] at hopened
    exact (openings_le hposl e.1).2.mp hopened e he (worth_eq_opening.mpr ⟨hpackage, rfl⟩)
  · rintro ⟨hdistinct, hsingle, hsmall⟩ good
    rw [total_topBill hwrap, table_of_nodup hdistinct]
    have hnonneg : 0 ≤ owed env l good := IntTable.sumOf_nonneg fun e he => (hposl e he).le
    cases hopening : isOpening good with
    | false =>
        have hle := hsmall good hopening
        unfold maxinteger at hle
        rw [openings_of_not hopening, if_neg (by decide), zero_add,
          wrap_of_range (by omega) (by omega), max_eq_left hnonneg]
    | true =>
        cases good with
        | opening k =>
            rw [if_pos rfl, add_zero]
            refine (openings_le hposl k).2.mpr fun e he hw => ?_
            exact hsingle e he (worth_eq_opening.mp hw).1
        | _ => cases hopening

/-- The pairs of a text that `sendMail` sends. -/
theorem listed_of_valid {pieces : List String} (h : validItems tonumber env pieces = true) :
    ∃ l, listed tonumber pieces = some l ∧ ∀ e ∈ l, 0 < e.2 ∧ e.2 ≤ maxint32 := by
  induction pieces using listed.induct with
  | case1 => exact ⟨[], rfl, fun e he => absurd he List.not_mem_nil⟩
  | case2 a => cases h
  | case3 a b rest ih =>
      rw [validItems, Bool.and_eq_true, Bool.and_eq_true] at h
      obtain ⟨⟨hid, hnum⟩, hrest⟩ := h
      obtain ⟨k, hk, -⟩ := (Option.any_eq_true _ _).mp hid
      obtain ⟨v, hv, hrange⟩ := (Option.any_eq_true _ _).mp hnum
      obtain ⟨l, hl, hpos⟩ := ih hrest
      rw [Bool.and_eq_true, decide_eq_true_iff, decide_eq_true_iff] at hrange
      refine ⟨(k, v) :: l, ?_, List.forall_mem_cons.mpr ⟨hrange, hpos⟩⟩
      rw [listed, hk, hv, hl]
      rfl

/-- For a text that `sendMail` sends the condition is about the pairs. -/
theorem deliverable_iff {user : User} (hvalid : validItems tonumber env (split text) = true)
    (hlisted : listed tonumber (split text) = some l) : Deliverable env l user ↔
      (∀ e ∈ l, (worth env e.1).isSome) ∧ Simple env l ∧ (Agent.addItems env l user).isSome := by
  obtain ⟨l', hl', hpos⟩ := listed_of_valid hvalid
  obtain rfl : l' = l := Option.some.inj (hl'.symm.trans hlisted)
  constructor
  · rintro ⟨hworth, htotal, huser⟩
    have hsimple := (simple_iff hpos hworth).mp htotal
    rw [table_of_nodup hsimple.distinct] at huser
    exact ⟨hworth, hsimple, huser⟩
  · rintro ⟨hworth, hsimple, huser⟩
    refine ⟨hworth, (simple_iff hpos hworth).mpr hsimple, ?_⟩
    rw [table_of_nodup hsimple.distinct]
    exact huser

theorem recvMailItems_exact_iff (h : s.mails uuid = some mail) (hnew : mail.flag &&& bit 1 = 0) :
    (Exact tonumber env uuid mail.items s ↔ mail.items = "" ∨
      ∃ l, listed tonumber (split mail.items) = some l ∧ Deliverable env l s.user) ∧
    (validItems tonumber env (split mail.items) = true →
      ∀ l, listed tonumber (split mail.items) = some l → (Deliverable env l s.user ↔
        (∀ e ∈ l, (worth env e.1).isSome) ∧ Simple env l ∧
          (Agent.addItems env l s.user).isSome)) :=
  ⟨exact_iff h hnew, fun hvalid _ hlisted => deliverable_iff hvalid hlisted⟩

/-! ## A purse of gold -/

/-- Item 101 is a piece of gold. -/
def purse : Env := { quiet with data := { quiet.data with
  itemRepository := fun k => if k = 101 then some ⟨5, 0, []⟩ else none } }

def newcomer (items : String) : Receiver where
  user := {
    account := ⟨⟨0, zero_balance⟩, ⟨0, zero_balance⟩, 20, 20, 86400⟩
    cards := []
    skills := []
    activitys := fun _ => none
    cooldowns := fun _ => none
    level := 1 }
  mails := fun uuid => if uuid = "m" then some ⟨items, 0⟩ else none
  log := []

theorem recvMailItems_one_purse : Exact readNumber purse "m" "101,5" (newcomer "101,5") := by
  obtain ⟨hexact, hdeliver⟩ :=
    @recvMailItems_exact_iff readNumber purse (newcomer "101,5") "m" ⟨"101,5", 0⟩ rfl (by decide)
  have hlisted : listed readNumber (split "101,5") = some [(101, 5)] := by decide
  refine hexact.mpr (Or.inr ⟨_, hlisted, (hdeliver (by decide) _ hlisted).mpr ⟨by decide, ?_, rfl⟩⟩)
  refine ⟨by decide, by decide, fun good _ => ?_⟩
  rw [owed, IntTable.sumOf_cons, IntTable.sumOf_nil]
  split_ifs <;> decide

theorem recvMailItems_two_purses :
    ¬ ∀ (tonumber : String → Option ℤ) (env : Env) (uuid : String) (mail : Mail) (s : Receiver),
      s.mails uuid = some mail → mail.flag &&& bit 1 = 0 → mail.items ≠ "" →
        validItems tonumber env (split mail.items) = true →
          Exact tonumber env uuid mail.items s := fun h => by
  have hvalid : validItems readNumber purse (split "101,5,101,5") = true := by decide
  have hexact := h readNumber purse "m" ⟨"101,5,101,5", 0⟩ (newcomer "101,5,101,5") rfl (by decide)
    (by decide) hvalid
  rcases (exact_iff rfl (by decide)).mp hexact with hempty | ⟨l, hlisted, hdeliver⟩
  · exact absurd hempty (by decide)
  · obtain ⟨-, hsimple, -⟩ := (deliverable_iff hvalid hlisted).mp hdeliver
    have htwo : listed readNumber (split "101,5,101,5") = some [(101, 5), (101, 5)] := by decide
    obtain rfl := Option.some.inj (htwo.symm.trans hlisted)
    exact absurd hsimple.distinct (by decide)

end GameServer.MailGrant
