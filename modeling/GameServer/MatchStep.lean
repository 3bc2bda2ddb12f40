import GameServer.MatchKept

/-!
# One search

A strict search appends the player or forms a match of six, as the number of queued players in
range decides. A loose search that finds enough players fails on the name `mathers`.
-/

namespace GameServer.Match.Service

variable (s : Service) (p : Player) (loop : Loop)

def inStrictRange (v : Player) : Bool := inRange p (s.range p eloStrict) v

/-- No account stands twice, and that of the player does not stand at all. -/
def Distinct : Prop := ((s.queue ++ [p]).map fun v => v.account).Nodup

instance : Decidable (s.Distinct p) := inferInstanceAs (Decidable (List.Nodup _))

/-- The player joins `strict_list`, and nothing else changes in the lists. -/
structure Appended (s' : Service) : Prop where
  running : s'.running = some ⟨none, loop⟩
  strict_list : s'.strict_list = s.strict_list ++ [p]
  keep_list : s'.keep_list = s.keep_list
  loose_list : s'.loose_list = s.loose_list

/-- `handleMatch` gets a match of the player, whose other members leave the lists. -/
structure Matched (t : List Player) (s' : Service) : Prop where
  running : s'.running = some ⟨some (.handleMatch t), loop⟩
  length : t.length = MATCH_NUM
  distinct : (t.map fun v => v.account).Nodup
  mem : p ∈ t
  inRange : ∀ v ∈ t, s.inStrictRange p v
  queued : ∀ v ∈ t, v ≠ p → v ∈ s.queue
  lists : ∀ q, s'.list q = (s.list q).filter fun v => v ∉ t

/-- The order is one that `table.sort` may make of the chosen ones. -/
def Sorts (order : List Player) : Prop :=
  order.Perm ((s.found p (s.range p eloStrict)).take (MATCH_NUM - 1)) ∧
    order.Pairwise fun a b => (s.marked p (s.range p eloStrict) b).index_list ≤
      (s.marked p (s.range p eloStrict) a).index_list

variable {s p loop} {s' : Service} {order : List Player}

theorem exists_sorts : ∃ order, s.Sorts p order := by
  let le : Player → Player → Bool := fun a b =>
    decide ((s.marked p (s.range p eloStrict) b).index_list ≤
      (s.marked p (s.range p eloStrict) a).index_list)
  let chosen := (s.found p (s.range p eloStrict)).take (MATCH_NUM - 1)
  have hsorted : (chosen.mergeSort le).Pairwise fun a b => le a b = true := by
    refine List.pairwise_mergeSort (fun a b c hab hbc => ?_) (fun a b => ?_) chosen
    · simp only [le, decide_eq_true_eq] at hab hbc ⊢
      exact hbc.trans hab
    · simp only [le, Bool.or_eq_true, decide_eq_true_eq]
      exact le_total _ _
  exact ⟨chosen.mergeSort le, List.mergeSort_perm _ _, hsorted.imp of_decide_eq_true⟩

theorem apart_of_nodup (h : s.queue.Nodup) : s.Apart := by
  rw [queue, List.nodup_append', List.nodup_append'] at h
  obtain ⟨⟨hkeep, hstrict, hks⟩, hloose, hl⟩ := h
  refine ⟨fun q => ?_, fun q q' hq v hv hv' => ?_⟩
  · cases q with
    | keep_list => exact hkeep
    | strict_list => exact hstrict
    | loose_list => exact hloose
  · have hkl : v ∈ s.keep_list → v ∉ s.loose_list := fun hk => hl (List.mem_append_left _ hk)
    have hsl : v ∈ s.strict_list → v ∉ s.loose_list := fun hs => hl (List.mem_append_right _ hs)
    cases q <;> cases q' <;> simp only [list] at hv hv'
    · exact hq rfl
    · exact hks hv hv'
    · exact hkl hv hv'
    · exact hks hv' hv
    · exact hq rfl
    · exact hsl hv hv'
    · exact hkl hv' hv
    · exact hsl hv' hv
    · exact hq rfl

theorem Distinct.nodup (h : s.Distinct p) : (s.queue ++ [p]).Nodup := List.Nodup.of_map _ h

theorem Distinct.apart (h : s.Distinct p) : s.Apart :=
  apart_of_nodup (List.nodup_append'.mp h.nodup).1

theorem Distinct.not_mem (h : s.Distinct p) : p ∉ s.queue := fun hp =>
  (List.nodup_append'.mp h.nodup).2.2 hp List.mem_cons_self

theorem mem_queue_iff {v : Player} :
    v ∈ s.queue ↔ v ∈ s.strict_list ++ s.keep_list ++ s.loose_list := by
  simp only [queue, List.mem_append]
  tauto

theorem found_length (s : Service) (p : Player) :
    (s.found p (s.range p eloStrict)).length = (s.queue.filter (s.inStrictRange p)).length := by
  rw [(s.found_perm p _).length_eq, queue]
  simp only [List.filter_append, List.length_append]
  rw [Nat.add_comm (s.strict_list.filter _).length]
  rfl

theorem mem_found {v : Player} :
    v ∈ s.found p (s.range p eloStrict) ↔ v ∈ s.queue ∧ s.inStrictRange p v := by
  rw [(s.found_perm p _).mem_iff, List.mem_filter, mem_queue_iff]
  rfl

/-- Where someone else is in range, so is the player itself. -/
theorem inStrictRange_self {v : Player} (h : s.inStrictRange p v) : s.inStrictRange p p := by
  simp only [inStrictRange, inRange, Bool.and_eq_true, decide_eq_true_eq] at h ⊢
  omega

theorem takeOut_sorts (h : s.Apart) (horder : s.Sorts p order) :
    ({ s with vars := s.marked p (s.range p eloStrict) } : Service).takeOut order =
      (({ s with vars := s.marked p (s.range p eloStrict) } : Service).without order, true) := by
  obtain ⟨hperm, hsorted⟩ := horder
  have hnodup : order.Nodup := by
    have hall := (s.found_perm p (s.range p eloStrict)).nodup_iff.mpr (h.append_nodup.filter _)
    exact hperm.nodup_iff.mpr (hall.sublist (List.take_sublist _ _))
  exact takeOut_spec hnodup ⟨h.nodup, h.disjoint⟩
    (fun v hv => h.noted (List.mem_of_mem_take (hperm.mem_iff.mp hv))) hsorted

theorem appended_of_step (loop : Loop)
    (hfew : (s.queue.filter (s.inStrictRange p)).length < MATCH_NUM - 1)
    (order : List Player) : ∃ s', s.stepStictlist p loop order = some s' ∧
      s.Appended p loop s' := by
  rw [← found_length] at hfew
  refine ⟨_, if_pos hfew, rfl, rfl, rfl, rfl⟩

theorem step_of_sorts (loop : Loop) (h : s.Apart)
    (hmany : ¬ (s.found p (s.range p eloStrict)).length < MATCH_NUM - 1)
    (horder : s.Sorts p order) : s.stepStictlist p loop order = some
      ({ ({ s with vars := s.marked p (s.range p eloStrict) } : Service).without order with
        matched := s.matched ++ (order ++ [p]) }.run
          ⟨some (.handleMatch (order ++ [p])), loop⟩) := by
  simp only [stepStictlist, if_neg hmany]
  rw [if_pos (And.intro horder.1 horder.2), takeOut_sorts h horder]
  rfl

theorem matched_of_step (loop : Loop) (h : s.Distinct p)
    (hmany : ¬ (s.queue.filter (s.inStrictRange p)).length < MATCH_NUM - 1)
    (horder : s.Sorts p order) : ∃ s', s.stepStictlist p loop order = some s' ∧
      s.Matched p loop (order ++ [p]) s' := by
  rw [← found_length] at hmany
  have hstep := step_of_sorts loop h.apart hmany horder
  have hfound : ∀ v ∈ order, v ∈ s.queue ∧ s.inStrictRange p v := fun v hv =>
    mem_found.mp (List.mem_of_mem_take (horder.1.mem_iff.mp hv))
  have hlength : order.length = MATCH_NUM - 1 := by
    rw [horder.1.length_eq, List.length_take, Nat.min_eq_left (not_lt.mp hmany)]
  have hnodup : (order ++ [p]).Nodup := by
    have hall := (s.found_perm p (s.range p eloStrict)).nodup_iff.mpr
      (h.apart.append_nodup.filter _)
    have horder := horder.1.nodup_iff.mpr (hall.sublist (List.take_sublist _ _))
    exact List.nodup_append_comm.mp
      (List.nodup_cons.mpr ⟨fun hp => h.not_mem (hfound p hp).1, horder⟩)
  have hsub : order ++ [p] ⊆ s.queue ++ [p] := fun v hv =>
    (List.mem_append.mp hv).elim (fun hv => List.mem_append_left _ (hfound v hv).1)
      (fun hv => List.mem_append_right _ hv)
  refine ⟨_, hstep, rfl, ?_, ?_, List.mem_append_right _ List.mem_cons_self, ?_, ?_, ?_⟩
  · rw [List.length_append, hlength]
    rfl
  · exact hnodup.map_on fun u hu v hv => List.inj_on_of_nodup_map h (hsub hu) (hsub hv)
  · intro v hv
    obtain hv | hv := List.mem_append.mp hv
    · exact (hfound v hv).2
    · obtain ⟨u, hu⟩ := List.exists_mem_of_length_pos (l := order) (by rw [hlength]; decide)
      obtain rfl := List.mem_singleton.mp hv
      exact inStrictRange_self (hfound u hu).2
  · intro v hv hne
    obtain hv | hv := List.mem_append.mp hv
    · exact (hfound v hv).1
    · exact absurd (List.mem_singleton.mp hv) hne
  · have hfilter : ∀ l : List Player, l ⊆ s.queue →
        (l.filter fun v => v ∉ order) = l.filter fun v => v ∉ order ++ [p] := by
      intro l hl
      refine List.filter_congr fun v hv => ?_
      have hne : v ≠ p := fun e => h.not_mem (e ▸ hl hv)
      simp [hne]
    intro q
    cases q with
    | keep_list =>
        exact hfilter _ fun v hv => List.mem_append_left _ (List.mem_append_left _ hv)
    | strict_list =>
        exact hfilter _ fun v hv => List.mem_append_left _ (List.mem_append_right _ hv)
    | loose_list => exact hfilter _ fun v hv => List.mem_append_right _ hv

/-- A strict search appends the player where fewer than five others are in range, and makes a match
of six in range otherwise. -/
theorem stepStictlist_matches (s : Service) (p : Player) (loop : Loop) (h : s.Distinct p) :
    (∃ order, (s.stepStictlist p loop order).isSome) ∧
      ∀ order s', s.stepStictlist p loop order = some s' →
        if (s.queue.filter (s.inStrictRange p)).length < MATCH_NUM - 1 then s.Appended p loop s'
        else ∃ t, s.Matched p loop t s' := by
  by_cases hfew : (s.queue.filter (s.inStrictRange p)).length < MATCH_NUM - 1
  · refine ⟨⟨[], ?_⟩, fun order s' hs => ?_⟩
    · obtain ⟨s', hs, -⟩ := appended_of_step loop hfew []
      rw [hs, Option.isSome_some]
    · rw [if_pos hfew]
      obtain ⟨t, ht, happended⟩ := appended_of_step loop hfew order
      exact Option.some.inj (ht.symm.trans hs) ▸ happended
  · refine ⟨?_, fun order s' hs => ?_⟩
    · obtain ⟨order, horder⟩ := exists_sorts (s := s) (p := p)
      obtain ⟨s', hs, -⟩ := matched_of_step loop h hfew horder
      exact ⟨order, by rw [hs, Option.isSome_some]⟩
    · rw [if_neg hfew]
      have horder : s.Sorts p order := by
        rw [← found_length] at hfew
        simp only [stepStictlist, if_neg hfew] at hs
        split at hs
        · assumption
        · cases hs
      obtain ⟨t, ht, hmatched⟩ := matched_of_step loop h hfew horder
      exact ⟨_, Option.some.inj (ht.symm.trans hs) ▸ hmatched⟩

/-- A player by its number, elo and level. -/
def playerOf (n : ℕ) (eloValue fightLevel : ℤ) : Player :=
  ⟨⟨n, toString n, toString n, eloValue, fightLevel⟩, n⟩

/-- Players in all three lists. -/
def queued : Service :=
  { start with
    strict_list := [playerOf 1 1000 1, playerOf 2 5000 1]
    keep_list := [playerOf 3 1100 2, playerOf 4 1200 1]
    loose_list := [playerOf 5 900 2, playerOf 6 800 2, playerOf 7 700 3] }

theorem stepStictlist_matches_queued : ∃ order s',
    queued.stepStictlist (playerOf 8 1000 2) .requestMatch order = some s' ∧
      s'.keep_list = [] ∧ s'.strict_list = [playerOf 2 5000 1] ∧
      s'.loose_list = [playerOf 7 700 3] ∧
      (if (queued.queue.filter (queued.inStrictRange (playerOf 8 1000 2))).length < MATCH_NUM - 1
        then queued.Appended (playerOf 8 1000 2) .requestMatch s'
        else ∃ t, queued.Matched (playerOf 8 1000 2) .requestMatch t s') := by
  have hrun : (queued.stepStictlist (playerOf 8 1000 2) .requestMatch
      [playerOf 6 800 2, playerOf 4 1200 1, playerOf 5 900 2, playerOf 3 1100 2,
        playerOf 1 1000 1]).map (fun s' => (s'.keep_list, s'.strict_list, s'.loose_list)) =
      some ([], [playerOf 2 5000 1], [playerOf 7 700 3]) := by decide +kernel
  obtain ⟨s', hs, hread⟩ := Option.map_eq_some_iff.mp hrun
  simp only [Prod.mk.injEq] at hread
  obtain ⟨hkeep, hstrict, hloose⟩ := hread
  exact ⟨_, s', hs, hkeep, hstrict, hloose,
    (stepStictlist_matches queued (playerOf 8 1000 2) .requestMatch (by decide +kernel)).2 _ _ hs⟩

/-! ## The loose search -/

/-- The loose search that finds enough players: `handleMatch` gets five of them with the player, and
they leave the list. -/
structure LooseMatched (s : Service) (p : Player) (loop : Loop) (t : List Player) (s' : Service) :
    Prop where
  running : s'.running = some ⟨some (.handleMatch (t ++ [p])), loop⟩
  failed : s'.failed = s.failed
  length : t.length = MATCH_NUM - 1
  nodup : t.Nodup
  inRange : ∀ v ∈ t, v ∈ s.loose_list ∧ inRange p (s.range p eloLoose) v
  loose_list : s'.loose_list = s.loose_list.filter fun v => v ∉ t

theorem takeOut_frame (s : Service) (l : List Player) :
    (s.takeOut l).1.running = s.running ∧ (s.takeOut l).1.failed = s.failed := by
  induction l generalizing s with
  | nil => exact ⟨rfl, rfl⟩
  | cons v l ih =>
      rw [takeOut]
      split
      · exact ⟨rfl, rfl⟩
      · next q _ =>
          split
          · exact ⟨rfl, rfl⟩
          · next l' _ =>
              obtain ⟨hrunning, hfailed⟩ := ih (s.setList q l')
              rw [hrunning, hfailed]
              cases q <;> exact ⟨rfl, rfl⟩

/-- Where a loose search finds enough players, it ends in an error. -/
theorem failed_of_stepLooselist (loop : Loop)
    (h : MATCH_NUM - 1 ≤ (s.loose_list.filter (inRange p (s.range p eloLoose))).length) :
    (s.stepLooselist p loop).running = none ∧
      (s.stepLooselist p loop).failed = s.failed ++ [⟨some (.addtoLooselist p), loop⟩] := by
  have hlength := (collect_perm p (s.range p eloLoose) [] s.loose_list).length_eq
  rw [List.nil_append] at hlength
  rw [stepLooselist]
  simp only [hlength, if_neg (not_lt.mpr h)]
  refine ⟨rfl, ?_⟩
  rw [fail]
  dsimp only
  rw [(takeOut_frame _ _).2]

/-- No loose search that finds enough players makes a match. -/
theorem stepLooselist_fails (s : Service) (p : Player) (loop : Loop)
    (h : MATCH_NUM - 1 ≤ (s.loose_list.filter (inRange p (s.range p eloLoose))).length) :
    (s.stepLooselist p loop).failed = s.failed ++ [⟨some (.addtoLooselist p), loop⟩] ∧
      ¬ ∃ t, LooseMatched s p loop t (s.stepLooselist p loop) := by
  obtain ⟨hrunning, hfailed⟩ := failed_of_stepLooselist loop h
  refine ⟨hfailed, fun ⟨t, ht⟩ => ?_⟩
  have hnone := hrunning.symm.trans ht.running
  cases hnone

/-- Five players of another level than the one who searches. -/
def loose : Service :=
  { start with
    loose_list := [playerOf 1 1000 1, playerOf 2 1000 1, playerOf 3 1000 1, playerOf 4 1000 1,
      playerOf 5 1000 1] }

theorem stepLooselist_fails_loose :
    (loose.stepLooselist (playerOf 6 1000 2) (.relistLoose [])).failed =
        [⟨some (.addtoLooselist (playerOf 6 1000 2)), .relistLoose []⟩] ∧
      ¬ ∃ t, LooseMatched loose (playerOf 6 1000 2) (.relistLoose []) t
        (loose.stepLooselist (playerOf 6 1000 2) (.relistLoose [])) :=
  stepLooselist_fails loose (playerOf 6 1000 2) (.relistLoose []) (by decide +kernel)

/-- The removals shift the indices ahead: of the five players two stay, and then an index is beyond
the end of the list. -/
theorem stepLooselist_shifted :
    (loose.stepLooselist (playerOf 6 1000 2) (.relistLoose [])).loose_list =
        [playerOf 2 1000 1, playerOf 4 1000 1] ∧
      ¬ ∃ t, LooseMatched loose (playerOf 6 1000 2) (.relistLoose []) t
        (loose.stepLooselist (playerOf 6 1000 2) (.relistLoose [])) := by
  refine ⟨by decide +kernel, fun ⟨t, ht⟩ => ?_⟩
  have hfailed := ht.failed
  rw [(failed_of_stepLooselist _ (by decide +kernel)).2] at hfailed
  cases hfailed

end GameServer.Match.Service
