import GameServer.MatchRuns

/-!
# No player lost by the match service

A player is *placed* while it is listed or the running handler searches a match for it. In orderly
runs a placed player stays placed, but for its own cancellation, a match that is formed, and the
removal of a player that ran out of time, whose match with robots has been formed before.
-/

namespace GameServer.Match

open Transition Entries

/-- The player to remove has its match, unless the handler is still about to form it. -/
def Handler.Settled (matched : List Player) (h : Handler) : Prop :=
  ∀ p ∈ h.pending, p ∈ matched ∨ h.work = some (.addtoLooselist p) ∨
    h.work = some (.uniqueservice p) ∨ h.work = some (.getPvpAIs p)

namespace Service

variable {full : Bool} {s t : Service} {h h' : Handler} {p : Player} {l : Label}

def queue (s : Service) : List Player := s.keep_list ++ s.strict_list ++ s.loose_list

def Placed (s : Service) (p : Player) : Prop :=
  p ∈ s.queue ∨ ∃ loop, s.running = some ⟨some (.addtoStictlist p), loop⟩

def Settled (s : Service) : Prop := ∀ h ∈ s.handlers, h.Settled s.matched

/-- A step may take a player out: its own cancellation or disconnect, a match it is a member of, or
the removal behind its match with robots. -/
def Moved (s : Service) (l : Label) (t : Service) (p : Player) : Prop :=
  match l with
  | .cancelMatch agent | .disconnect agent => p.agent = agent ∧ p ∈ t.withdrawn
  | .go _ =>
    (∃ m loop, t.running = some ⟨some (.handleMatch m), loop⟩ ∧ p ∈ m ∧ p ∈ t.matched) ∨
      ∃ i relist, s.running = some ⟨none, .removeStrict i relist p⟩
  | _ => False

structure Keeps (s : Service) (l : Label) (t : Service) : Prop where
  admitted : ∀ p ∈ t.admitted, p ∈ s.admitted ∨ t.Placed p
  withdrawn : s.withdrawn ⊆ t.withdrawn
  matched : s.matched ⊆ t.matched
  stays : ∀ p, s.Placed p → t.Placed p ∨ Moved s l t p
  handlers : ∀ h ∈ t.handlers, h ∈ s.handlers ∨ (s.Settled → h.Settled t.matched)

/-- A step that leaves the lists as they are, while no search runs. -/
theorem Keeps.quiet (hk : t.keep_list = s.keep_list) (hst : t.strict_list = s.strict_list)
    (hl : t.loose_list = s.loose_list) (ha : t.admitted = s.admitted)
    (hw : t.withdrawn = s.withdrawn) (hm : s.matched ⊆ t.matched)
    (hrun : ∀ p loop, s.running ≠ some ⟨some (.addtoStictlist p), loop⟩)
    (hh : ∀ h ∈ t.handlers, h ∈ s.handlers ∨ (s.Settled → h.Settled t.matched)) :
    Keeps s l t where
  admitted p hp := .inl (ha ▸ hp)
  withdrawn := hw ▸ List.Subset.refl _
  matched := hm
  stays p hp := by
    rcases hp with hp | ⟨loop, hp⟩
    · refine .inl (.inl ?_)
      rw [queue, hk, hst, hl]
      exact hp
    · exact absurd hp (hrun p loop)
  handlers := hh

/-- The player to remove stays settled while the handler goes on in the same loop. -/
theorem settled_goOn (hs : s.Settled) (hh : h ∈ s.handlers) (hm : s.matched ⊆ t.matched)
    (hloop : h'.loop = h.loop)
    (hwork : ∀ p, h.work = some (.addtoLooselist p) ∨ h.work = some (.uniqueservice p) ∨
      h.work = some (.getPvpAIs p) →
      p ∈ t.matched ∨ h'.work = some (.uniqueservice p) ∨ h'.work = some (.getPvpAIs p)) :
    h'.Settled t.matched := fun p hp => by
  have hp' : p ∈ h.pending := by
    rw [Handler.pending, ← hloop]
    exact hp
  rcases hs h hh p hp' with hmem | hw
  · exact .inl (hm hmem)
  · rcases hwork p hw with hmem | hw'
    · exact .inl hmem
    · exact .inr (.inr hw')

theorem mem_run {g : Handler} (hg : g ∈ (s.run h).handlers) : g = h ∨ g ∈ s.suspended ++ s.failed :=
  List.mem_cons.mp hg

theorem mem_park {g : Handler} (hg : g ∈ (s.park h).handlers) :
    g = h ∨ g ∈ s.suspended ++ s.failed := by
  have hg' : g ∈ s.suspended ++ [h] ++ s.failed := hg
  rw [List.append_assoc] at hg'
  exact List.mem_cons.mp (List.perm_middle.mem_iff.mp hg')

theorem mem_fail {g : Handler} (hg : g ∈ (s.fail h).handlers) :
    g = h ∨ g ∈ s.suspended ++ s.failed := by
  have hg' : g ∈ s.suspended ++ (s.failed ++ [h]) := hg
  rw [← List.append_assoc] at hg'
  exact List.mem_cons.mp ((List.perm_append_singleton h _).mem_iff.mp hg')

theorem mem_handlers {g : Handler} (hg : g ∈ s.suspended ++ s.failed) : g ∈ s.handlers :=
  List.mem_append_right _ hg

/-- The handlers after a step that changes one of them. -/
theorem handlers_step (h' : Handler) (hnew : s.Settled → h'.Settled t.matched)
    (hsub : ∀ g ∈ t.handlers, g = h' ∨ g ∈ s.suspended ++ s.failed) :
    ∀ g ∈ t.handlers, g ∈ s.handlers ∨ (s.Settled → g.Settled t.matched) := fun g hg =>
  (hsub g hg).elim (fun he => .inr (he ▸ hnew)) fun hg => .inl (mem_handlers hg)

theorem mem_running (hrun : s.running = some h) : h ∈ s.handlers := by
  simp [handlers, hrun]

/-! ## The running handler -/

theorem keeps_stepStictlist (hinv : s.Inv full) {loop : Loop} {order : List Player}
    (hrun : s.running = some ⟨some (.addtoStictlist p), loop⟩)
    (hs : s.stepStictlist p loop order = some t) : Keeps s (.go order) t := by
  have hcarried : ∀ q, s.Placed q → q ∈ s.queue ∨ q = p := fun q hq => by
    rcases hq with hq | ⟨loop', hq⟩
    · exact .inl hq
    · rw [hrun] at hq
      simp only [Option.some.injEq, Handler.mk.injEq, Work.addtoStictlist.injEq] at hq
      exact .inr hq.1.symm
  rcases stepStictlist_cases hinv.apart hs with ⟨vars, rfl⟩ | ⟨vars, -, hmem, rfl⟩
  · refine ⟨fun q hq => .inl hq, List.Subset.refl _, List.Subset.refl _, fun q hq => .inl (.inl ?_),
      handlers_step ⟨none, loop⟩ (fun hset => settled_goOn hset (mem_running hrun)
        (List.Subset.refl _) rfl (by simp)) fun g hg => mem_run (s := s) hg⟩
    rcases hcarried q hq with hq | rfl
    · simp only [queue, List.mem_append, List.mem_singleton] at hq ⊢
      tauto
    · simp [queue]
  · have hgrow : s.matched ⊆ s.matched ++ (order ++ [p]) := List.subset_append_left _ _
    refine ⟨fun q hq => .inl hq, List.Subset.refl _, hgrow, fun q hq => ?_,
      handlers_step ⟨some (.handleMatch (order ++ [p])), loop⟩
        (fun hset => settled_goOn hset (mem_running hrun) hgrow rfl (by simp))
        fun g hg => mem_run (s := s) hg⟩
    by_cases hout : q ∈ order ++ [p]
    · exact .inr (.inl ⟨_, _, rfl, hout, List.mem_append_right _ hout⟩)
    · refine .inl (.inl ?_)
      simp only [List.mem_append, List.mem_singleton, not_or] at hout
      rcases hcarried q hq with hq | rfl
      · simp only [queue, without, List.mem_append, List.mem_filter] at hq ⊢
        simp only [hout.1, not_false_eq_true, decide_true, and_true]
        exact hq
      · exact absurd rfl hout.2

theorem keeps_stepWork (hinv : s.Inv full) {w : Work} {loop : Loop} {order : List Player}
    (hrun : s.running = some ⟨some w, loop⟩) (hs : s.stepWork w loop order = some t) :
    Keeps s (.go order) t := by
  have hon : ∀ w' : Option Work, (∀ q, some w = some (.addtoLooselist q) ∨
      some w = some (.uniqueservice q) ∨ some w = some (.getPvpAIs q) →
      q ∈ s.matched ∨ w' = some (.uniqueservice q) ∨ w' = some (.getPvpAIs q)) →
      s.Settled → (Handler.mk w' loop).Settled s.matched := fun w' hw hset =>
    settled_goOn hset (mem_running hrun) (List.Subset.refl _) rfl hw
  cases w with
  | addtoStictlist p => exact keeps_stepStictlist hinv hrun hs
  | addtoLooselist p =>
      simp only [Service.stepWork, Option.some.injEq] at hs
      obtain ⟨vars, heq⟩ := stepLooselist_eq hinv.loose p loop
      rw [← hs, heq]
      exact .quiet rfl rfl rfl rfl rfl (List.Subset.refl _) (by simp [hrun])
        (handlers_step _ (hon _ (by simp)) fun g hg => mem_park hg)
  | handleMatch m =>
      simp only [Service.stepWork, Option.some.injEq] at hs
      rw [← hs]
      exact .quiet rfl rfl rfl rfl rfl (List.Subset.refl _) (by simp [hrun])
        (handlers_step _ (hon _ (by simp)) fun g hg => mem_park hg)
  | enter s_pickHero m i =>
      simp only [Service.stepWork] at hs
      split at hs
      · simp only [Option.some.injEq] at hs
        rw [← hs]
        exact .quiet rfl rfl rfl rfl rfl (List.Subset.refl _) (by simp [hrun])
          (handlers_step _ (hon _ (by simp)) fun g hg => mem_park hg)
      · simp only [Option.some.injEq] at hs
        rw [← hs]
        exact .quiet rfl rfl rfl rfl rfl (List.Subset.refl _) (by simp [hrun])
          (handlers_step _ (hon _ (by simp)) fun g hg => mem_run hg)
  | send m i =>
      simp only [Service.stepWork] at hs
      split at hs
      · simp only [Option.some.injEq] at hs
        rw [← hs]
        exact .quiet rfl rfl rfl rfl rfl (List.Subset.refl _) (by simp [hrun])
          (handlers_step _ (hon _ (by simp)) fun g hg => mem_park hg)
      · simp only [Option.some.injEq] at hs
        rw [← hs]
        exact .quiet rfl rfl rfl rfl rfl (List.Subset.refl _) (by simp [hrun])
          (handlers_step _ (hon _ (by simp)) fun g hg => mem_run hg)
  | _ => simp [Service.stepWork] at hs

theorem Keeps.take {loop : Loop} {w : Option Work} {keep strict : List Player}
    {vars : Player → Vars} (hw : ∀ q, w ≠ some (.addtoStictlist q))
    (hrun : s.running = some ⟨w, loop⟩) {loop' : Loop} (hpend : loop'.pending = [])
    (hq : ∀ q ∈ s.queue, q ∈ keep ++ strict ++ s.loose_list ∨ q = p) :
    Keeps s l { s with
      keep_list := keep, strict_list := strict, vars := vars
      running := some ⟨some (.addtoStictlist p), loop'⟩ } where
  admitted q hq := .inl hq
  withdrawn := List.Subset.refl _
  matched := List.Subset.refl _
  stays q hplaced := by
    rcases hplaced with hplaced | ⟨loop'', hplaced⟩
    · rcases hq q hplaced with hstay | rfl
      · exact .inl (.inl hstay)
      · exact .inl (.inr ⟨_, rfl⟩)
    · rw [hrun] at hplaced
      simp only [Option.some.injEq, Handler.mk.injEq] at hplaced
      exact absurd hplaced.1 (hw q)
  handlers := handlers_step ⟨some (.addtoStictlist p), loop'⟩
    (fun _ q hq => by simp [Handler.pending, hpend] at hq) fun _ hg => mem_run (s := s) hg

theorem tableRemove_behind {l l' : List Player} {i : ℕ} (hi : l[i]? = none)
    (hl : tableRemove l (i + 1) = some l') : l' = l := by
  have hlen : l.length ≤ i := List.getElem?_eq_none_iff.mp hi
  simp only [tableRemove, show ¬ (1 ≤ i + 1 ∧ i + 1 ≤ l.length) by omega, if_false] at hl
  split at hl
  · exact (Option.some.inj hl).symm
  · simp at hl

/-- Taking a player off the strict list leaves the others. -/
theorem keeps_stepRemove {i : ℕ} {relist order : List Player} {p : Player}
    (hrun : s.running = some ⟨none, .removeStrict i relist p⟩)
    (hok : s.Orderly false (.go order)) :
    Keeps s (.go order) (s.stepLoop (.removeStrict i relist p)) := by
  have hsearch : ∀ q loop', s.running ≠ some ⟨some (.addtoStictlist q), loop'⟩ := by simp [hrun]
  simp only [Orderly, hrun, OrderlyLoop] at hok
  have hother := hok.1 trivial
  simp only [Service.stepLoop]
  cases hl : tableRemove s.strict_list (i + 1) with
  | none =>
      exact .quiet rfl rfl rfl rfl rfl (List.Subset.refl _) hsearch fun g hg =>
        .inl (mem_handlers hg)
  | some rest =>
      refine ⟨fun q hq => .inl hq, List.Subset.refl _, List.Subset.refl _, fun q hq => ?_,
        handlers_step _ (fun _ q hq => absurd hq List.not_mem_nil) fun g hg => mem_run hg⟩
      rcases hq with hq | ⟨loop', hq⟩
      · by_cases hqp : q = p
        · exact .inr (.inr ⟨i, relist, hqp ▸ hrun⟩)
        · refine .inl (.inl ?_)
          simp only [queue, List.mem_append] at hq ⊢
          rcases hq with (hq | hq) | hq
          · exact .inl (.inl hq)
          · refine .inl (.inr ?_)
            cases hi : s.strict_list[i]? with
            | none => exact tableRemove_behind hi hl ▸ hq
            | some u =>
                rw [tableRemove_noted hi, Option.some.injEq] at hl
                have hu : u = p := hother u hi
                rw [← hl]
                exact (eq_or_mem_eraseIdx hi hq).resolve_left (hu ▸ hqp)
          · exact .inr hq
      · exact absurd hq (hsearch q loop')

theorem keeps_stepLoop (hinv : s.Inv false) {loop : Loop} {order : List Player}
    (hrun : s.running = some ⟨none, loop⟩) (hok : s.Orderly false (.go order)) :
    Keeps s (.go order) (s.stepLoop loop) := by
  have hsearch : ∀ q loop', s.running ≠ some ⟨some (.addtoStictlist q), loop'⟩ := by simp [hrun]
  have hgo : ∀ h' : Handler, h'.pending = [] → s.Settled → h'.Settled s.matched :=
    fun h' hp _ q hq => absurd hq (hp ▸ List.not_mem_nil)
  have hstop : Keeps s (.go order) s.stop :=
    .quiet rfl rfl rfl rfl rfl (List.Subset.refl _) hsearch fun g hg => .inl (mem_handlers hg)
  have hrunOn : ∀ (vars : Player → Vars) (loop' : Loop), loop'.pending = [] →
      Keeps s (.go order) ({ s with vars := vars }.run ⟨none, loop'⟩) := fun vars loop' hp =>
    .quiet rfl rfl rfl rfl rfl (List.Subset.refl _) hsearch
      (handlers_step _ (hgo ⟨none, loop'⟩ hp) fun g hg => mem_run hg)
  cases loop with
  | requestMatch => exact hstop
  | updateKeeplist i =>
      cases i with
      | zero => exact hrunOn s.vars _ rfl
      | succ i =>
          simp only [Service.stepLoop]
          cases hp : s.keep_list[i]? with
          | none => exact hstop
          | some p =>
              simp only
              split
              · refine Keeps.take (by simp) hrun rfl fun q hq => ?_
                simp only [queue, List.mem_append] at hq ⊢
                rcases hq with (hq | hq) | hq
                · exact (eq_or_mem_eraseIdx hp hq).symm.imp_left fun hq => .inl (.inl hq)
                · exact .inl (.inl (.inr hq))
                · exact .inl (.inr hq)
              · exact hrunOn _ _ rfl
  | updateStictlist i relist =>
      cases i with
      | zero => exact hrunOn s.vars _ rfl
      | succ i =>
          simp only [Service.stepLoop]
          cases hp : s.strict_list[i]? with
          | none => exact hstop
          | some p =>
              simp only
              split
              · refine .quiet rfl rfl rfl rfl rfl (List.Subset.refl _) hsearch
                  (handlers_step _ (fun _ q hq => ?_) fun g hg => mem_run hg)
                obtain rfl : q = p := List.mem_singleton.mp hq
                exact .inr (.inl rfl)
              · exact hrunOn _ _ rfl
  | removeStrict i relist p =>
      exact keeps_stepRemove hrun hok
  | relistStrict relist =>
      cases relist with
      | nil => exact hrunOn s.vars _ rfl
      | cons v relist =>
          simp only [Service.stepLoop]
          split
          · next hsrc =>
              simp only [Orderly, hrun, OrderlyLoop] at hok
              obtain ⟨hmem, -⟩ := hok hsrc
              refine Keeps.take (by simp) hrun rfl fun q hq => ?_
              simp only [queue, List.mem_append, List.mem_filter] at hq ⊢
              rcases hq with (hq | hq) | hq
              · exact .inl (.inl (.inl hq))
              · by_cases hqv : q.account = v.account
                · exact .inr (hinv.sound.eq_of_account (List.mem_append_right _ hq)
                    (List.mem_append_right _ hmem) hqv)
                · exact .inl (.inl (.inr ⟨hq, by simpa using hqv⟩))
              · exact .inl (.inr hq)
          · exact hrunOn s.vars _ rfl
  | updateLooselist i relist =>
      cases i with
      | zero => exact hrunOn s.vars _ rfl
      | succ i =>
          simp only [Service.stepLoop, hinv.loose, List.getElem?_nil]
          exact hstop
  | relistLoose relist =>
      have hsound := hinv.sound
      simp only [handlers, hrun, Option.toList_some, List.singleton_append] at hsound
      have hnil : relist = [] := hsound.relists _ List.mem_cons_self
      rw [hnil]
      exact hstop

/-! ## Messages and replies -/

theorem keeps_resume {k : ℕ} {r : Reply} (hidle : s.running = none)
    (hk : s.suspended[k]? = some h)
    (hs : ({ s with suspended := s.suspended.eraseIdx k } : Service).resume h r = some t) :
    Keeps s (.reply k r) t := by
  have hsearch : ∀ q loop', s.running ≠ some ⟨some (.addtoStictlist q), loop'⟩ := by simp [hidle]
  have hmem : h ∈ s.handlers :=
    mem_handlers (List.mem_append_left _ (List.mem_of_getElem? hk))
  have hrest : ∀ {h' : Handler} (m : List Handler),
      (∀ g ∈ m, g = h' ∨ g ∈ s.suspended.eraseIdx k ++ s.failed) →
      ∀ g ∈ m, g = h' ∨ g ∈ s.suspended ++ s.failed := fun m hsub g hg =>
    (hsub g hg).imp_right fun hg => ((List.eraseIdx_sublist _ _).append_right _).subset hg
  obtain ⟨w, loop⟩ := h
  have hon : ∀ w' : Option Work, (∀ q, w = some (.addtoLooselist q) ∨
      w = some (.uniqueservice q) ∨ w = some (.getPvpAIs q) →
      q ∈ s.matched ∨ w' = some (.uniqueservice q) ∨ w' = some (.getPvpAIs q)) →
      s.Settled → (Handler.mk w' loop).Settled s.matched := fun w' hw hset =>
    settled_goOn hset hmem (List.Subset.refl _) rfl hw
  have hstay : ∀ q, s.Placed q → q ∈ s.queue := fun q hq =>
    hq.resolve_right fun ⟨loop', hq⟩ => hsearch q loop' hq
  cases resume_cases hs with
  | fail =>
      exact .quiet rfl rfl rfl rfl rfl (List.Subset.refl _) hsearch
        (handlers_step _ (fun hset => hset _ hmem) (hrest _ fun g hg => mem_fail hg))
  | keep p hstrict =>
      refine ⟨fun q hq => ?_, List.Subset.refl _, List.Subset.refl _,
        fun q hq => .inl (.inl ?_),
        handlers_step ⟨none, loop⟩ (hon none (by simp)) (hrest _ fun g hg => mem_run hg)⟩
      · rcases List.mem_append.mp hq with hq | hq
        · exact .inl hq
        · obtain rfl := List.mem_singleton.mp hq
          exact .inr (.inl (by simp [queue, run, addtoKeeplist, setVars]))
      · have hq' := hstay q hq
        simp only [queue, run, addtoKeeplist, setVars, List.mem_append,
          List.mem_singleton] at hq' ⊢
        tauto
  | search p =>
      refine ⟨fun q hq => ?_, List.Subset.refl _, List.Subset.refl _,
        fun q hq => .inl (.inl (hstay q hq)),
        handlers_step ⟨some (.addtoStictlist p), loop⟩ (hon _ (by simp))
          (hrest _ fun g hg => mem_run hg)⟩
      rcases List.mem_append.mp hq with hq | hq
      · exact .inl hq
      · obtain rfl := List.mem_singleton.mp hq
        exact .inr (.inr ⟨_, rfl⟩)
  | init s_pickHero m | enter s_pickHero m i | send m i | known agent info =>
      exact .quiet rfl rfl rfl rfl rfl (List.Subset.refl _) hsearch
        (handlers_step _ (hon _ (by simp)) (hrest _ fun g hg => mem_run hg))
  | fresh agent info | monitor p address | uniqueservice p address | newservice m address =>
      exact .quiet rfl rfl rfl rfl rfl (List.Subset.refl _) hsearch
        (handlers_step _ (hon _ (by simp)) (hrest _ fun g hg => mem_park hg))
  | robots p infos =>
      have hgrow : s.matched ⊆ s.matched ++ (s.newPlayers infos ++ [p]) :=
        List.subset_append_left _ _
      refine .quiet rfl rfl rfl rfl rfl hgrow hsearch
        (handlers_step ⟨some (.handleMatch (s.newPlayers infos ++ [p])), loop⟩
          (fun hset => settled_goOn hset hmem hgrow rfl fun q hq => ?_)
          (hrest _ fun g hg => mem_run (s := { s with suspended := _ }) hg))
      simp only [Option.some.injEq, reduceCtorEq, false_or, Work.getPvpAIs.injEq] at hq
      rw [← hq]
      exact .inl (by simp [run])

theorem keeps_removePlayerFromMatch (hidle : s.running = none) (agent : ℕ)
    (hmoved : ∀ q, Moved s l (s.removePlayerFromMatch agent) q ↔
      q.agent = agent ∧ q ∈ (s.removePlayerFromMatch agent).withdrawn) :
    Keeps s l (s.removePlayerFromMatch agent) := by
  have hstay : ∀ q, s.Placed q → q ∈ s.queue := fun q hq =>
    hq.resolve_right fun ⟨loop', hq⟩ => by simp [hidle] at hq
  rcases removePlayerFromMatch_cases s agent with heq | ⟨which, p, rest, i, hp, hi, rfl, heq⟩
  · rw [heq]
    exact .quiet rfl rfl rfl rfl rfl (List.Subset.refl _) (by simp [hidle]) fun g hg => .inl hg
  · have hgone : p ∈ (s.removePlayerFromMatch agent).withdrawn := by
      rw [heq]
      exact List.mem_append_right _ (List.mem_singleton_self p)
    refine ⟨fun q hq => .inl ?_, ?_, ?_, fun q hq => ?_, fun g hg => .inl ?_⟩
    · rw [heq] at hq
      cases which <;> exact hq
    · rw [heq]
      cases which <;> exact List.subset_append_left _ _
    · rw [heq]
      cases which <;> exact List.Subset.refl _
    · by_cases hqp : q = p
      · exact .inr ((hmoved q).mpr (hqp ▸ ⟨hp, hgone⟩))
      · refine .inl (.inl ?_)
        rw [heq]
        have hq' := hstay q hq
        simp only [queue, List.mem_append] at hq' ⊢
        have hother : ∀ l : List Player, l[i]? = some p → q ∈ l → q ∈ l.eraseIdx i :=
          fun l hl hql => (eq_or_mem_eraseIdx hl hql).resolve_left hqp
        cases which with
        | keep_list => exact hq'.imp_left fun hq' => hq'.imp_left (hother _ hi)
        | strict_list => exact hq'.imp_left fun hq' => hq'.imp_right (hother _ hi)
        | loose_list => exact hq'.imp_right (hother _ hi)
    · rw [heq] at hg
      cases which <;> exact hg

theorem keeps_step (hinv : s.Inv false) (hok : s.Orderly false l) (hs : s.step l = some t) :
    Keeps s l t := by
  cases l with
  | requestMatch agent =>
      simp only [Service.step] at hs
      split at hs
      · next hidle =>
          simp only [Option.some.injEq] at hs
          rw [← hs]
          exact .quiet rfl rfl rfl rfl rfl (List.Subset.refl _) (by simp [hidle])
            (handlers_step _ (fun _ q hq => absurd hq List.not_mem_nil) fun g hg => mem_park hg)
      · simp at hs
  | cancelMatch agent =>
      simp only [Service.step] at hs
      split at hs
      · next hidle =>
          exact Option.some.inj hs ▸ keeps_removePlayerFromMatch hidle agent fun _ => Iff.rfl
      · simp at hs
  | disconnect source =>
      simp only [Service.step] at hs
      split at hs
      · next hidle =>
          exact Option.some.inj hs ▸ keeps_removePlayerFromMatch hidle source fun _ => Iff.rfl
      · simp at hs
  | tick =>
      simp only [Service.step] at hs
      split at hs
      · next hidle =>
          simp only [Option.some.injEq] at hs
          rw [← hs]
          exact .quiet rfl rfl rfl rfl rfl (List.Subset.refl _) (by simp [hidle])
            (handlers_step _ (fun _ q hq => absurd hq List.not_mem_nil) fun g hg => mem_run hg)
      · simp at hs
  | updateListTimeout =>
      simp only [Service.step] at hs
      split at hs
      · next hidle =>
          simp only [Option.some.injEq, Service.updateListTimeout] at hs
          split at hs <;>
            exact hs ▸ .quiet rfl rfl rfl rfl rfl (List.Subset.refl _) (by simp [hidle])
              fun g hg => .inl hg
      · simp at hs
  | reply k r =>
      simp only [Service.step] at hs
      split at hs
      · next hidle =>
          cases hk : s.suspended[k]? with
          | none => simp [hk] at hs
          | some h =>
              simp only [hk] at hs
              exact keeps_resume hidle hk hs
      · simp at hs
  | go order =>
      simp only [Service.step] at hs
      split at hs
      · simp at hs
      · next loop hrun => exact Option.some.inj hs ▸ keeps_stepLoop hinv hrun hok
      · next w loop hrun => exact keeps_stepWork hinv hrun hs

/-! ## Runs -/

structure Kept (s : Service) : Prop where
  inv : s.Inv false
  settled : s.Settled
  admitted : ∀ p ∈ s.admitted, s.Placed p ∨ p ∈ s.withdrawn ∨ p ∈ s.matched

theorem kept_start : start.Kept where
  inv := inv_start false
  settled _ hh := absurd hh List.not_mem_nil
  admitted _ hp := absurd hp List.not_mem_nil

theorem Kept.step (hkept : s.Kept) (hok : s.Orderly false l) (hs : s.step l = some t) : t.Kept := by
  have hkeeps := keeps_step hkept.inv hok hs
  refine ⟨hkept.inv.step hok hs, fun g hg => ?_, fun p hp => ?_⟩
  · rcases hkeeps.handlers g hg with hold | hnew
    · exact fun q hq => (hkept.settled g hold q hq).imp_left fun hm => hkeeps.matched hm
    · exact hnew hkept.settled
  · rcases hkeeps.admitted p hp with hold | hnew
    · rcases hkept.admitted p hold with hplaced | hw | hm
      · rcases hkeeps.stays p hplaced with hstay | hmoved
        · exact .inl hstay
        · cases l with
          | cancelMatch agent | disconnect agent => exact .inr (.inl hmoved.2)
          | go order =>
              rcases hmoved with ⟨m, loop, -, -, hm⟩ | ⟨i, relist, hrun⟩
              · exact .inr (.inr hm)
              · have hset := hkept.settled _ (mem_running hrun) p List.mem_cons_self
                simp only [reduceCtorEq, or_false] at hset
                exact .inr (.inr (hkeeps.matched hset))
          | _ => exact hmoved.elim
      · exact .inr (.inl (hkeeps.withdrawn hw))
      · exact .inr (.inr (hkeeps.matched hm))
    · exact .inl hnew

theorem runs_kept (h : system.Runs (Orderly false) s) : s.Kept :=
  h.invariant (P := Kept) kept_start fun _ _ _ hkept hok hs => hkept.step hok hs

/-- Nobody is lost in an orderly run: when no handler is suspended, an admitted player is in one
list, has cancelled, or is in a match; and no step takes another player from the lists than one
that cancels, that is moved, or whose match is formed. -/
theorem none_lost (h : system.Runs (Orderly false) s) :
    (s.running = none → s.suspended = [] → ∀ p ∈ s.admitted,
      s.queue.count p = 1 ∨ p ∈ s.withdrawn ∨ p ∈ s.matched) ∧
    ∀ l t, s.Orderly false l → s.step l = some t → ∀ p ∈ s.queue, p ∉ t.queue →
      (∃ loop, t.running = some ⟨some (.addtoStictlist p), loop⟩) ∨ Moved s l t p := by
  have hkept := runs_kept h
  refine ⟨fun hidle _ p hp => ?_, fun l t hok hs p hp hgone => ?_⟩
  · refine (hkept.admitted p hp).imp_left fun hplaced => ?_
    have hmem : p ∈ s.queue := hplaced.resolve_right fun ⟨loop, hrun⟩ => by simp [hidle] at hrun
    have hnd : s.queue.Nodup := by
      rw [queue, hkept.inv.loose, List.append_nil]
      exact hkept.inv.sound.queue_nodup
    exact List.count_eq_one_of_mem hnd hmem
  · rcases (keeps_step hkept.inv hok hs).stays p (.inl hp) with (hin | hrun) | hmoved
    · exact absurd hin hgone
    · exact .inl hrun
    · exact .inr hmoved

def guest (agent : ℕ) : Info := ⟨agent, if agent = 1 then "a" else "b", "", 1000, 1⟩

def goOn (n : ℕ) : List Label := List.replicate n (.go [])

/-- A player asks for a match, and `n` steps end the request. -/
def joinRun (agent n : ℕ) : List Label :=
  [.requestMatch agent, .reply 0 (.matchinfo (guest agent)), .reply 0 (.service 9),
    .reply 0 .done] ++ goOn n

theorem none_lost_joinRun : ∃ s, (system.guarded (Orderly false)).run start (joinRun 1 1) = some s ∧
    s.admitted = [⟨guest 1, 0⟩] ∧
    ∀ p ∈ s.admitted, s.queue.count p = 1 ∨ p ∈ s.withdrawn ∨ p ∈ s.matched :=
  ⟨_, rfl, rfl, (none_lost (System.Runs.of_guarded_run (joinRun 1 1) .init rfl)).1 rfl rfl⟩

def tickRun (steps : List ℕ) : List Label := steps.flatMap fun n => .tick :: goOn n

def robots : List Info :=
  ["r1", "r2", "r3", "r4", "r5"].map fun account => ⟨0, account, "", 1000, 1⟩

/-- The match with robots of the player that ran out of time, from `skynet.uniqueservice` on. -/
def robotsRun : List Label :=
  [.reply 0 (.service 3), .reply 0 (.robots robots), .go [], .reply 0 (.service 5),
    .reply 0 .done] ++ (List.replicate 6 [.go [], .reply 0 .done]).flatten ++ [.go []] ++
    (List.replicate 6 [.go [], .reply 0 .done]).flatten

/-- Two players wait in `strict_list`; the first runs out of time and cancels while its match with
robots is made. The tick then removes the other player. -/
def staleRun : List Label :=
  joinRun 1 1 ++ tickRun [6, 6, 6, 6, 6, 8, 6] ++ joinRun 2 2 ++
    tickRun [7, 7, 7, 9, 7, 9, 7, 7, 4] ++ [.cancelMatch 1] ++ robotsRun ++ goOn 6

theorem staleRun_lost : ∃ s ∈ system.run start staleRun, s.running = none ∧ s.suspended = [] ∧
    s.queue = [] ∧ s.admitted = [⟨guest 1, 0⟩, ⟨guest 2, 1⟩] ∧ s.withdrawn = [⟨guest 1, 0⟩] ∧
    s.matched.map (·.account) = ["r1", "r2", "r3", "r4", "r5", "a"] := by
  decide +kernel

/-- The index a tick remembers is stale when players left the list meanwhile. -/
theorem tick_removes_other : ¬ ∀ s, system.Reachable s →
    s.running = none → s.suspended = [] → ∀ p ∈ s.admitted,
      s.queue.count p = 1 ∨ p ∈ s.withdrawn ∨ p ∈ s.matched := fun hall => by
  obtain ⟨s, hs, hrun, hsusp, hqueue, hadm, hw, hm⟩ := staleRun_lost
  have hmem : (⟨guest 2, 1⟩ : Player) ∈ s.admitted := by simp [hadm]
  rcases hall s (System.reachable_of_run staleRun hs) hrun hsusp _ hmem with h | h | h
  · simp [hqueue] at h
  · simp [hw] at h
  · have hacc : (guest 2).account ∈ s.matched.map (·.account) := List.mem_map_of_mem h
    simp [hm, guest] at hacc

end Service

end GameServer.Match
