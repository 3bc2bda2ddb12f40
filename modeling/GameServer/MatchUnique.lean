import GameServer.MatchRuns

/-!
# No duplicates in the match service

In orderly runs an account is listed once and in one undelivered match. Without the order it is
not: two requests of one player pass the test of `nowInMatchers` before either of them sets it.
-/

namespace GameServer.Match

open Transition

/-- The match a call works on, until everybody in it has been sent the match. -/
def Work.undelivered : Work → Option (List Player)
  | .handleMatch t | .newservice t | .init _ t | .enter _ t _ | .enterPickHero _ t _
  | .send t _ | .sendRequest t _ => some t
  | _ => none

def Handler.undelivered (h : Handler) : Option (List Player) := h.work.bind Work.undelivered

namespace Service

variable {s : Service}

/-- The matches on their way. -/
def undelivered (s : Service) : List (List Player) :=
  s.handlers.filterMap Handler.undelivered

structure NoDuplicates (s : Service) : Prop where
  queue : ((s.keep_list ++ s.strict_list ++ s.loose_list).map (·.account)).Nodup
  delivered_once : ∀ account : String,
    s.undelivered.countP (fun t => decide (account ∈ t.map (·.account))) ≤ 1

theorem undelivered_members {h : Handler} {t : List Player}
    (ht : h.undelivered = some t) : h.members true = t := by
  obtain ⟨w, hw, ht⟩ := Option.bind_eq_some_iff.mp ht
  cases w <;> simp_all [Work.undelivered, Handler.members, Work.members]

/-- Members count once, so an account is in one match. -/
theorem countP_undelivered {hs : List Handler} (a : String)
    (hnd : ((membersOf true hs).map (·.account)).Nodup) :
    (hs.filterMap Handler.undelivered).countP
      (fun t => decide (a ∈ t.map (·.account))) ≤ 1 := by
  suffices hcount : (hs.filterMap Handler.undelivered).countP
      (fun t => decide (a ∈ t.map (·.account))) ≤ ((membersOf true hs).map (·.account)).count a from
    hcount.trans (List.nodup_iff_count_le_one.mp hnd a)
  clear hnd
  induction hs with
  | nil => simp
  | cons h hs ih =>
      have hsplit : membersOf true (h :: hs) = h.members true ++ membersOf true hs := rfl
      rw [hsplit, List.map_append, List.count_append]
      cases ht : h.undelivered with
      | none =>
          rw [List.filterMap_cons_none ht]
          exact ih.trans (Nat.le_add_left _ _)
      | some t =>
          rw [List.filterMap_cons_some ht, List.countP_cons, undelivered_members ht]
          by_cases ha : a ∈ t.map (·.account)
          · have hpos : 0 < (t.map (·.account)).count a := List.count_pos_iff.mpr ha
            simp only [ha, decide_true, if_true]
            omega
          · simp only [ha, decide_false, Bool.false_eq_true, if_false]
            omega

theorem Inv.noDuplicates (h : s.Inv true) : s.NoDuplicates where
  queue := by
    rw [h.loose, List.append_nil]
    exact h.sound.accounts
  delivered_once a := countP_undelivered a (h.sound.single rfl)

/-- Each account is listed once and in at most one undelivered match, in every state of an orderly
run. -/
theorem no_duplicates (h : system.Runs (Orderly true) s) : s.NoDuplicates :=
  (h.invariant (P := Inv true) (inv_start true) fun _ _ _ hinv hok hs =>
    hinv.step hok hs).noDuplicates

def player : Info := ⟨1, "a", "a", 1000, 1⟩

/-- A player asks for a match, is found not to wait yet, and joins `keep_list`. -/
def requestRun : List Label :=
  [.requestMatch 1, .reply 0 (.matchinfo player), .reply 0 (.service 9), .reply 0 .done]

theorem no_duplicates_requestRun : ∃ s,
    (system.guarded (Orderly true)).run start requestRun = some s ∧
    s.keep_list = [⟨player, 0⟩] ∧ s.NoDuplicates :=
  ⟨_, rfl, rfl, no_duplicates (System.Runs.of_guarded_run requestRun .init rfl)⟩

def twiceRun : List Label :=
  [.requestMatch 1, .requestMatch 1, .reply 0 (.matchinfo player), .reply 0 (.matchinfo player),
    .reply 0 (.service 9), .reply 0 (.service 9), .reply 0 .done, .go [], .reply 0 .done]

/-- Two requests of one player pass the test of `nowInMatchers` before either of them sets it. -/
theorem requestMatch_twice : ¬ ∀ s, system.Reachable s → s.NoDuplicates := fun hall => by
  have hreach : ∃ s, system.Reachable s ∧ s.keep_list = [⟨player, 0⟩, ⟨player, 1⟩] :=
    ⟨_, System.reachable_of_run twiceRun rfl, rfl⟩
  obtain ⟨s, hs, hkeep⟩ := hreach
  have hqueue := (hall s hs).queue
  rw [hkeep] at hqueue
  simp at hqueue

end Service

end GameServer.Match
