import GameServer.MatchInvariant

/-!
# Orderly runs of the match service

The steps of `Orderly` runs keep `Inv`: a request is admitted only while no unfinished handler has
its account, a player relisted by a tick is still in `strict_list`, the index a tick remembers still
is its player's, and robots do not use the accounts of players.
-/

namespace GameServer.Match.Service

variable {full : Bool} {s s' : Service} {h : Handler} {p : Player}

def handlers (s : Service) : List Handler := s.running.toList ++ (s.suspended ++ s.failed)

/-- Everybody an unfinished handler has. -/
def held (s : Service) (full : Bool) : List Player :=
  carriedBy s.handlers ++ membersOf full s.handlers ++ pendingIn s.handlers

section Orderly

variable (full : Bool) (s : Service)

/-- With `full` nobody who is pending is chosen. -/
def OrderlyWork (order : List Player) : Work → Prop
  | .addtoStictlist _ => full = true → ∀ v ∈ order, v ∉ pendingIn s.handlers
  | _ => True

/-- A player to insert again is still listed and not pending. The player to remove is at the
remembered index, if it is listed; without `full` nobody else is there. With `full` nobody runs out
of time twice. -/
def OrderlyLoop : Loop → Prop
  | .updateStictlist (i + 1) _ =>
    full = true → ∀ p ∈ s.strict_list[i]?,
      s.listTimeouts.strict < (s.vars p).time + dt → p ∉ pendingIn s.handlers
  | .relistStrict (v :: _) =>
    (s.vars v).src_list.isSome → v ∈ s.strict_list ∧ v ∉ pendingIn s.handlers
  | .removeStrict i _ p =>
    (full = false → ∀ q ∈ s.strict_list[i]?, q = p) ∧
      (p ∈ s.strict_list → s.strict_list[i]? = some p)
  | _ => True

/-- An account that comes in is not held. -/
def Orderly : Label → Prop
  | .reply _ (.matchinfo info) =>
    s.nowInMatchers info.account = false → ∀ q ∈ s.held full, q.account ≠ info.account
  | .reply _ (.robots infos) =>
    (∀ info ∈ infos, ∀ q ∈ carriedBy s.handlers ++ (s.keep_list ++ s.strict_list),
      q.account ≠ info.account) ∧
    (full = true → (infos.map (·.account)).Nodup ∧
      ∀ info ∈ infos, ∀ q ∈ membersOf full s.handlers, q.account ≠ info.account)
  | .go order =>
    match s.running with
    | some ⟨some w, _⟩ => OrderlyWork full s order w
    | some ⟨none, loop⟩ => OrderlyLoop full s loop
    | none => True
  | _ => True

instance (order : List Player) : (w : Work) → Decidable (OrderlyWork full s order w)
  | .addtoStictlist _ => inferInstanceAs (Decidable (full = true → _))
  | .getmatchinfo _ | .monitor _ | .watch _ | .addtoLooselist _ | .uniqueservice _
  | .getPvpAIs _ | .handleMatch _ | .newservice _ | .init _ _ | .enter _ _ _
  | .enterPickHero _ _ _ | .send _ _ | .sendRequest _ _ => inferInstanceAs (Decidable True)

instance : (loop : Loop) → Decidable (OrderlyLoop full s loop)
  | .updateStictlist (i + 1) _ => inferInstanceAs
      (Decidable (full = true → ∀ p ∈ s.strict_list[i]?, _ < _ → p ∉ pendingIn s.handlers))
  | .relistStrict (v :: _) => inferInstanceAs (Decidable ((s.vars v).src_list.isSome → _ ∧ _))
  | .removeStrict i _ p => inferInstanceAs
      (Decidable ((full = false → ∀ q ∈ s.strict_list[i]?, q = p) ∧ (_ → _)))
  | .requestMatch | .updateKeeplist _ | .updateStictlist 0 _ | .relistStrict []
  | .updateLooselist _ _ | .relistLoose _ => inferInstanceAs (Decidable True)

instance : (l : Label) → Decidable (Orderly full s l)
  | .reply _ (.matchinfo info) =>
    inferInstanceAs (Decidable (s.nowInMatchers info.account = false → _))
  | .reply _ (.robots infos) =>
    inferInstanceAs (Decidable ((∀ info ∈ infos, _) ∧ (full = true → _ ∧ _)))
  | .go order =>
    match h : s.running with
    | some ⟨some w, _⟩ => decidable_of_iff (OrderlyWork full s order w) (by rw [Orderly, h])
    | some ⟨none, loop⟩ => decidable_of_iff (OrderlyLoop full s loop) (by rw [Orderly, h])
    | none => isTrue (by rw [Orderly, h]; trivial)
  | .reply _ .fail | .reply _ .done | .reply _ (.service _) | .requestMatch _ | .cancelMatch _
  | .disconnect _ | .tick | .updateListTimeout => inferInstanceAs (Decidable True)

end Orderly

structure Inv (full : Bool) (s : Service) : Prop where
  sound : Sound full s.keep_list s.strict_list s.nowInMatchers s.handlers
  loose : s.loose_list = []
  waits : ∀ h ∈ s.suspended ++ s.failed, h.Waits

theorem Inv.run (hs : Sound full s.keep_list s.strict_list s.nowInMatchers
    (h :: (s.suspended ++ s.failed))) (hl : s.loose_list = [])
    (hw : ∀ g ∈ s.suspended ++ s.failed, g.Waits) : (s.run h).Inv full :=
  ⟨hs, hl, hw⟩

theorem Inv.stop (hs : Sound full s.keep_list s.strict_list s.nowInMatchers
    (s.suspended ++ s.failed)) (hl : s.loose_list = [])
    (hw : ∀ g ∈ s.suspended ++ s.failed, g.Waits) : s.stop.Inv full :=
  ⟨hs, hl, hw⟩

theorem Inv.park (hs : Sound full s.keep_list s.strict_list s.nowInMatchers
    (h :: (s.suspended ++ s.failed))) (hl : s.loose_list = [])
    (hw : ∀ g ∈ s.suspended ++ s.failed, g.Waits) (hh : h.Waits) : (s.park h).Inv full := by
  have hperm : (h :: (s.suspended ++ s.failed)).Perm (s.suspended ++ [h] ++ s.failed) := by
    rw [List.append_assoc]
    exact List.perm_middle.symm
  refine ⟨hs.perm hperm, hl, fun g hg => ?_⟩
  rcases List.mem_cons.mp (hperm.mem_iff.mpr hg) with rfl | hg
  · exact hh
  · exact hw g hg

theorem Inv.fail (hs : Sound full s.keep_list s.strict_list s.nowInMatchers
    (h :: (s.suspended ++ s.failed))) (hl : s.loose_list = [])
    (hw : ∀ g ∈ s.suspended ++ s.failed, g.Waits) (hh : h.Waits) : (s.fail h).Inv full := by
  have hperm : (h :: (s.suspended ++ s.failed)).Perm (s.suspended ++ (s.failed ++ [h])) := by
    rw [← List.append_assoc]
    exact (List.perm_append_singleton h _).symm
  refine ⟨hs.perm hperm, hl, fun g hg => ?_⟩
  rcases List.mem_cons.mp (hperm.mem_iff.mpr hg) with rfl | hg
  · exact hh
  · exact hw g hg

theorem Inv.apart (h : s.Inv full) : s.Apart := by
  have hnd := h.sound.queue_nodup
  rw [List.nodup_append'] at hnd
  obtain ⟨hkeep, hstrict, hdis⟩ := hnd
  refine ⟨fun q => ?_, fun q q' hq v hv hv' => ?_⟩
  · cases q with
    | keep_list => exact hkeep
    | strict_list => exact hstrict
    | loose_list => simp [list, h.loose]
  · cases q <;> cases q' <;> simp only [list, h.loose] at hv hv' <;>
      first
      | exact hq rfl
      | exact hdis hv hv'
      | exact hdis hv' hv
      | exact absurd hv List.not_mem_nil
      | exact absurd hv' List.not_mem_nil

/-! ## The running handler -/

theorem Inv.stepStictlist (hinv : s.Inv full) {loop : Loop} {order : List Player}
    (hrun : s.running = some ⟨some (.addtoStictlist p), loop⟩)
    (hok : s.Orderly full (.go order)) (hs : s.stepStictlist p loop order = some s') :
    s'.Inv full := by
  have hsound := hinv.sound
  simp only [handlers, hrun, Option.toList_some, List.singleton_append] at hsound
  simp only [Orderly, hrun, OrderlyWork, handlers, Option.toList_some,
    List.singleton_append] at hok
  rcases stepStictlist_cases hinv.apart hs with ⟨vars, rfl⟩ | ⟨vars, hnd, hmem, rfl⟩
  · refine ⟨?_, hinv.loose, hinv.waits⟩
    have hflag := hsound.searching _ List.mem_cons_self p rfl
    refine hsound.join rfl rfl (List.Sublist.refl _) rfl hflag
      (fun q hq => .inr hq) ?_
    rw [← List.append_assoc]
    exact List.perm_append_singleton p _
  · refine ⟨?_, by simp [without, hinv.loose], hinv.waits⟩
    refine hsound.form hnd (fun v hv => ?_) hok
    have hv' := hmem v hv
    rw [hinv.loose, List.append_nil] at hv'
    exact (List.perm_append_comm.mem_iff).mp hv'

theorem Inv.stepWork (hinv : s.Inv full) {w : Work} {loop : Loop} {order : List Player}
    (hrun : s.running = some ⟨some w, loop⟩) (hok : s.Orderly full (.go order))
    (hs : s.stepWork w loop order = some s') : s'.Inv full := by
  have hsound := hinv.sound
  simp only [handlers, hrun, Option.toList_some, List.singleton_append] at hsound
  have hloose := hsound.relists _ List.mem_cons_self
  cases w with
  | addtoStictlist p => exact hinv.stepStictlist hrun hok hs
  | addtoLooselist p =>
      simp only [Service.stepWork, Option.some.injEq] at hs
      obtain ⟨vars, heq⟩ := stepLooselist_eq hinv.loose p loop
      rw [← hs, heq]
      refine Inv.park (s := { s with vars := vars }) ?_ hinv.loose hinv.waits ⟨_, rfl, trivial⟩
      exact hsound.goOn (List.Sublist.refl _) (List.Sublist.refl _) rfl hloose (by simp)
  | handleMatch t =>
      simp only [Service.stepWork, Option.some.injEq] at hs
      rw [← hs]
      refine Inv.park (s := { s with vars := assign s.vars t }) ?_ hinv.loose hinv.waits
        ⟨_, rfl, trivial⟩
      exact hsound.goOn (List.Sublist.refl _) (List.Sublist.refl _) rfl hloose (by simp)
  | enter s_pickHero t i =>
      simp only [Service.stepWork] at hs
      cases ht : t[i]? with
      | none =>
          simp only [ht, Option.some.injEq] at hs
          rw [← hs]
          refine Inv.run ?_ hinv.loose hinv.waits
          refine hsound.goOn (List.Sublist.refl _) ?_ rfl hloose (by simp)
          cases full with
          | true => exact List.Sublist.refl _
          | false => exact List.nil_sublist _
      | some v =>
          simp only [ht, Option.some.injEq] at hs
          rw [← hs]
          obtain ⟨hlt, hti⟩ := List.getElem?_eq_some_iff.mp ht
          have hv : v ∈ (Handler.mk (some (.enter s_pickHero t i)) loop).members full := by
            cases full with
            | true => exact List.mem_of_getElem? ht
            | false =>
                change v ∈ t.drop i
                rw [List.drop_eq_getElem_cons hlt, hti]
                exact List.mem_cons_self
          refine Inv.park
            (s := { s with nowInMatchers := Function.update s.nowInMatchers v.account false })
            ?_ hinv.loose hinv.waits ⟨_, rfl, trivial⟩
          refine hsound.release hv rfl ?_ rfl
          cases full with
          | true => exact List.Sublist.refl _
          | false =>
              change (t.drop (i + 1)).Sublist (t.drop i)
              rw [List.drop_eq_getElem_cons hlt]
              exact List.sublist_cons_self _ _
  | send t i =>
      simp only [Service.stepWork] at hs
      split at hs
      · simp only [Option.some.injEq] at hs
        rw [← hs]
        refine Inv.park ?_ hinv.loose hinv.waits ⟨_, rfl, trivial⟩
        exact hsound.goOn (List.Sublist.refl _) (List.Sublist.refl _) rfl hloose (by simp)
      · simp only [Option.some.injEq] at hs
        rw [← hs]
        refine Inv.run ?_ hinv.loose hinv.waits
        exact hsound.goOn (List.Sublist.refl _) (List.nil_sublist _) rfl hloose (by simp)
  | _ => simp [Service.stepWork] at hs

/-- The noted position still is the player's, or the player is gone. -/
theorem Inv.stepRemove (hinv : s.Inv full) {i : ℕ} {relist order : List Player} {p : Player}
    (hrun : s.running = some ⟨none, .removeStrict i relist p⟩)
    (hok : s.Orderly full (.go order)) : (s.stepLoop (.removeStrict i relist p)).Inv full := by
  have hsound := hinv.sound
  simp only [handlers, hrun, Option.toList_some, List.singleton_append] at hsound
  simp only [Orderly, hrun, OrderlyLoop] at hok
  obtain ⟨-, hindex⟩ := hok
  have hnd : s.strict_list.Nodup := hinv.apart.nodup .strict_list
  simp only [Service.stepLoop]
  cases hl : tableRemove s.strict_list (i + 1) with
  | none =>
      refine Inv.stop (hsound.stop fun q hq hmem => ?_) hinv.loose hinv.waits
      have hq' : q ∈ [p] := hq
      obtain rfl := List.mem_singleton.mp hq'
      rcases List.mem_append.mp hmem with hk | hs
      · exact hsound.keep_pending q hk List.mem_cons_self
      · rw [tableRemove_noted (hindex hs)] at hl
        simp at hl
  | some l =>
      have hsub : l.Sublist s.strict_list := by
        simp only [tableRemove] at hl
        split at hl
        · exact Option.some.inj hl ▸ List.eraseIdx_sublist _ _
        · split at hl
          · exact Option.some.inj hl ▸ List.Sublist.refl _
          · simp at hl
      refine Inv.run (s := { s with strict_list := l }) (hsound.removed hsub fun hgone => ?_)
        hinv.loose hinv.waits
      have hi := hindex (hsub.subset hgone)
      rw [tableRemove_noted hi, Option.some.injEq, eraseIdx_eq_filter hnd hi] at hl
      rw [← hl] at hgone
      exact of_decide_eq_true (List.mem_filter.mp hgone).2 rfl

theorem Inv.stepLoop (hinv : s.Inv full) {loop : Loop} {order : List Player}
    (hrun : s.running = some ⟨none, loop⟩) (hok : s.Orderly full (.go order)) :
    (s.stepLoop loop).Inv full := by
  have hsound := hinv.sound
  simp only [handlers, hrun, Option.toList_some, List.singleton_append] at hsound
  have hloose := hsound.relists _ List.mem_cons_self
  have hgo : ∀ loop' : Loop, loop'.pending = loop.pending → loop'.looseRelist = [] →
      Sound full s.keep_list s.strict_list s.nowInMatchers
        (⟨none, loop'⟩ :: (s.suspended ++ s.failed)) := fun loop' hp hl =>
    hsound.goOn (List.Sublist.refl _) (List.Sublist.refl _) hp hl (by simp)
  have hstop : loop.pending = [] → s.stop.Inv full := fun hp =>
    Inv.stop (hsound.stop (by simp [Handler.pending, hp])) hinv.loose hinv.waits
  cases loop with
  | requestMatch => exact hstop rfl
  | updateKeeplist i =>
      cases i with
      | zero => exact Inv.run (hgo _ rfl rfl) hinv.loose hinv.waits
      | succ i =>
          simp only [Service.stepLoop]
          cases hp : s.keep_list[i]? with
          | none => exact hstop rfl
          | some p =>
              have hmem : p ∈ s.keep_list := List.mem_of_getElem? hp
              simp only
              split
              · refine Inv.run ?_ hinv.loose hinv.waits
                refine hsound.take rfl rfl (List.Sublist.refl _) rfl rfl
                  (List.mem_append_left _ hmem) (hsound.keep_pending p hmem)
                  (List.eraseIdx_sublist _ _) (List.Sublist.refl _) fun hgone => ?_
                have hnd := hsound.queue_nodup
                rw [List.nodup_append'] at hnd
                rcases List.mem_append.mp hgone with hk | hs
                · rw [eraseIdx_eq_filter hnd.1 hp] at hk
                  exact of_decide_eq_true (List.mem_filter.mp hk).2 rfl
                · exact hnd.2.2 hmem hs
              · exact Inv.run (hgo _ rfl rfl) hinv.loose hinv.waits
  | updateStictlist i relist =>
      cases i with
      | zero => exact Inv.run (hgo _ rfl rfl) hinv.loose hinv.waits
      | succ i =>
          simp only [Service.stepLoop]
          cases hp : s.strict_list[i]? with
          | none => exact hstop rfl
          | some p =>
              simp only
              split
              · next hlate =>
                  simp only [Orderly, hrun, OrderlyLoop, handlers, Option.toList_some,
                    List.singleton_append] at hok
                  refine Inv.run ?_ hinv.loose hinv.waits
                  exact hsound.expire (List.mem_of_getElem? hp) fun hf => hok hf p hp hlate
              · exact Inv.run (hgo _ rfl rfl) hinv.loose hinv.waits
  | removeStrict i relist p =>
      exact hinv.stepRemove hrun hok
  | relistStrict relist =>
      cases relist with
      | nil => exact Inv.run (hgo _ rfl rfl) hinv.loose hinv.waits
      | cons v relist =>
          simp only [Service.stepLoop]
          split
          · next hsrc =>
              simp only [Orderly, hrun, OrderlyLoop] at hok
              obtain ⟨hmem, hfree⟩ := hok hsrc
              simp only [handlers, hrun, Option.toList_some, List.singleton_append] at hfree
              refine Inv.run
                (s := { s with strict_list := s.strict_list.filter fun p => p.account ≠ v.account })
                ?_ hinv.loose hinv.waits
              refine hsound.take rfl rfl (List.Sublist.refl _) rfl rfl
                (List.mem_append_right _ hmem) hfree (List.Sublist.refl _) List.filter_sublist
                fun hgone => ?_
              rcases List.mem_append.mp hgone with hk | hs
              · exact hinv.apart.disjoint .keep_list .strict_list (by decide) v hk hmem
              · exact of_decide_eq_true (List.mem_filter.mp hs).2 rfl
          · exact Inv.run (hgo _ rfl rfl) hinv.loose hinv.waits
  | updateLooselist i relist =>
      have hnil : relist = [] := hloose
      cases i with
      | zero => exact Inv.run (hgo _ rfl hnil) hinv.loose hinv.waits
      | succ i =>
          simp only [Service.stepLoop, hinv.loose, List.getElem?_nil]
          exact hstop rfl
  | relistLoose relist =>
      have hnil : relist = [] := hloose
      subst hnil
      exact hstop rfl

/-! ## Messages and replies -/

theorem handlers_idle (h : s.running = none) : s.handlers = s.suspended ++ s.failed := by
  simp [handlers, h]

theorem newPlayers_accounts (s : Service) (infos : List Info) :
    (s.newPlayers infos).map (·.account) = infos.map (·.account) := by
  refine List.ext_getElem (by simp [newPlayers]) fun k _ _ => ?_
  simp [newPlayers]

theorem Inv.resume (hinv : s.Inv full) {k : ℕ} {r : Reply} (hidle : s.running = none)
    (hk : s.suspended[k]? = some h) (hok : s.Orderly full (.reply k r))
    (hs : ({ s with suspended := s.suspended.eraseIdx k } : Service).resume h r = some s') :
    s'.Inv full := by
  have hperm : s.handlers.Perm (h :: (s.suspended.eraseIdx k ++ s.failed)) := by
    obtain ⟨hlt, rfl⟩ := List.getElem?_eq_some_iff.mp hk
    rw [handlers_idle hidle, ← List.cons_append]
    exact (List.getElem_cons_eraseIdx_perm hlt).symm.append_right _
  have hsound := hinv.sound.perm hperm
  have hw : ∀ g ∈ s.suspended.eraseIdx k ++ s.failed, g.Waits := fun g hg => by
    refine hinv.waits g ?_
    rw [← handlers_idle hidle]
    exact hperm.mem_iff.mpr (List.mem_cons_of_mem _ hg)
  have hh : h.Waits := hinv.waits h (List.mem_append_left _ (List.mem_of_getElem? hk))
  have hloose := hsound.relists h List.mem_cons_self
  obtain ⟨w, loop⟩ := h
  have hgo : ∀ w' : Option Work, (∀ p, w' ≠ some (.addtoStictlist p)) →
      (Handler.mk w' loop).carried.Sublist (Handler.mk w loop).carried →
      ((Handler.mk w' loop).members full).Sublist ((Handler.mk w loop).members full) →
      Sound full s.keep_list s.strict_list s.nowInMatchers
        (⟨w', loop⟩ :: (s.suspended.eraseIdx k ++ s.failed)) := fun w' hsearch hcar hmem =>
    hsound.goOn hcar hmem rfl hloose fun q hq => absurd hq (hsearch q)
  cases resume_cases hs with
  | fail => exact Inv.fail hsound hinv.loose hw hh
  | keep p hstrict =>
      have hraised := hsound.raise p.account
      have hflag : Function.update s.nowInMatchers p.account true p.account = true :=
        Function.update_self ..
      refine Inv.run (s := Service.addtoKeeplist _ p) ?_ hinv.loose hw
      refine hraised.join rfl rfl (List.Sublist.refl _) rfl hflag (fun q hq => ?_) ?_
      · rcases List.mem_append.mp hq with hq | hq
        · exact .inr hq
        · exact .inl (List.mem_singleton.mp hq)
      · exact (List.perm_append_singleton p s.keep_list).append_right s.strict_list
  | search p =>
      have hraised := hsound.raise p.account
      have hflag : Function.update s.nowInMatchers p.account true p.account = true :=
        Function.update_self ..
      refine Inv.run ?_ hinv.loose hw
      refine hraised.goOn (List.Sublist.refl _) (List.Sublist.refl _) rfl hloose fun q hq => ?_
      obtain rfl : p = q := by simpa using hq
      exact hflag
  | init s_pickHero t =>
      refine Inv.run (hgo _ (by simp) (List.Sublist.refl _) ?_) hinv.loose hw
      cases full with
      | true => exact List.Sublist.refl _
      | false => exact List.Sublist.refl _
  | enter s_pickHero t i | send t i | known agent info =>
      exact Inv.run (hgo _ (by simp) (List.Sublist.refl _) (List.Sublist.refl _)) hinv.loose hw
  | fresh agent info hflag =>
      refine Inv.park ?_ hinv.loose hw ⟨_, rfl, trivial⟩
      refine hsound.admission rfl rfl (List.Sublist.refl _) rfl (by simp) hflag
        fun q hq => hok hflag q ?_
      have hcar := (hperm.flatMap_right Handler.carried).mem_iff (a := q)
      have hmem := (hperm.flatMap_right (Handler.members full)).mem_iff (a := q)
      have hpend := (hperm.flatMap_right Handler.pending).mem_iff (a := q)
      rcases List.mem_append.mp hq with hq | hq
      · rcases List.mem_append.mp hq with hq | hq
        · exact List.mem_append_left _ (List.mem_append_left _ (hcar.mpr hq))
        · exact List.mem_append_left _ (List.mem_append_right _ (hmem.mpr hq))
      · exact List.mem_append_right _ (hpend.mpr hq)
  | monitor p address | uniqueservice p address | newservice t address =>
      exact Inv.park (hgo _ (by simp) (List.Sublist.refl _) (List.Sublist.refl _))
        hinv.loose hw ⟨_, rfl, trivial⟩
  | robots p infos =>
      obtain ⟨hother, hfull⟩ := hok
      refine Inv.run (hsound.robots (fun m hm q hq => ?_) fun hf => ⟨?_, ?_⟩) hinv.loose hw
      · obtain ⟨k', hk', rfl⟩ := List.mem_mapIdx.mp hm
        refine hother infos[k'] (List.getElem_mem hk') q ?_
        have hcar := (hperm.flatMap_right Handler.carried).mem_iff (a := q)
        rcases List.mem_append.mp hq with hq | hq
        · exact List.mem_append_left _ (hcar.mpr hq)
        · exact List.mem_append_right _ hq
      · rw [newPlayers_accounts]
        exact (hfull hf).1
      · intro m hm q hq
        obtain ⟨k', hk', rfl⟩ := List.mem_mapIdx.mp hm
        have hmem := (hperm.flatMap_right (Handler.members full)).mem_iff (a := q)
        exact (hfull hf).2 infos[k'] (List.getElem_mem hk') q (hmem.mpr hq)

/-- What `removePlayerFromMatch` does: nothing, or one entry of the agent leaves its list. -/
theorem removePlayerFromMatch_cases (s : Service) (agent : ℕ) :
    s.removePlayerFromMatch agent = s ∨
    ∃ q p l i, p.agent = agent ∧ (s.list q)[i]? = some p ∧ l = (s.list q).eraseIdx i ∧
      s.removePlayerFromMatch agent = { s.setList q l with
        nowInMatchers := Function.update s.nowInMatchers p.account false
        withdrawn := s.withdrawn ++ [p] } := by
  have hfind : ∀ (l : List Player) (n i : ℕ) (p : Player),
      findAgent agent l n = some (i, p) → l[i]? = some p ∧ p.agent = agent := by
    intro l n
    induction n with
    | zero => simp [findAgent]
    | succ n ih =>
        intro i p hp
        simp only [findAgent] at hp
        cases hl : l[n]? with
        | none =>
            simp only [hl] at hp
            exact ih i p hp
        | some u =>
            simp only [hl] at hp
            split at hp
            · next hu =>
                simp only [Option.some.injEq, Prod.mk.injEq] at hp
                obtain ⟨rfl, rfl⟩ := hp
                exact ⟨hl, hu⟩
            · exact ih i p hp
  have hfrom : ∀ q t, s.removeFrom agent q = some t → ∃ q p l i, p.agent = agent ∧
      (s.list q)[i]? = some p ∧ l = (s.list q).eraseIdx i ∧ t = { s.setList q l with
        nowInMatchers := Function.update s.nowInMatchers p.account false
        withdrawn := s.withdrawn ++ [p] } := by
    intro q t ht
    obtain ⟨⟨i, p⟩, hip, rfl⟩ := Option.map_eq_some_iff.mp ht
    obtain ⟨hi, hp⟩ := hfind _ _ _ _ hip
    exact ⟨q, p, _, i, hp, hi, rfl, rfl⟩
  unfold removePlayerFromMatch
  cases hk : s.removeFrom agent .keep_list with
  | some t => exact .inr (by simpa using hfrom _ t hk)
  | none =>
      cases hs : s.removeFrom agent .strict_list with
      | some t => exact .inr (by simpa using hfrom _ t hs)
      | none =>
          cases hl : s.removeFrom agent .loose_list with
          | some t => exact .inr (by simpa using hfrom _ t hl)
          | none => exact .inl (by simp)

theorem Inv.removePlayerFromMatch (hinv : s.Inv full) (hidle : s.running = none) (agent : ℕ) :
    (s.removePlayerFromMatch agent).Inv full := by
  rcases removePlayerFromMatch_cases s agent with heq | ⟨q, p, l, i, -, hi, rfl, heq⟩
  · rw [heq]
    exact hinv
  · rw [heq]
    have hmem := List.mem_of_getElem? hi
    have hnd := hinv.apart.nodup q
    have hgone : p ∉ (s.list q).eraseIdx i := fun hp => by
      rw [eraseIdx_eq_filter hnd hi] at hp
      exact of_decide_eq_true (List.mem_filter.mp hp).2 rfl
    have hquiet : ∀ g ∈ s.handlers, ∀ u, g.work = some (.addtoStictlist u) →
        u.account ≠ p.account := fun g hg u hu => by
      rw [handlers_idle hidle] at hg
      obtain ⟨w, hw, hwait⟩ := hinv.waits g hg
      rw [hw, Option.some.injEq] at hu
      rw [hu] at hwait
      exact hwait.elim
    cases q with
    | keep_list =>
        refine ⟨?_, hinv.loose, hinv.waits⟩
        refine hinv.sound.withdraw (List.eraseIdx_sublist _ _) (List.Sublist.refl _)
          (List.mem_append_left _ hmem) (fun hp => ?_) hquiet
        rcases List.mem_append.mp hp with hp | hp
        · exact hgone hp
        · exact hinv.apart.disjoint .keep_list .strict_list (by decide) p hmem hp
    | strict_list =>
        refine ⟨?_, hinv.loose, hinv.waits⟩
        refine hinv.sound.withdraw (List.Sublist.refl _) (List.eraseIdx_sublist _ _)
          (List.mem_append_right _ hmem) (fun hp => ?_) hquiet
        rcases List.mem_append.mp hp with hp | hp
        · exact hinv.apart.disjoint .keep_list .strict_list (by decide) p hp hmem
        · exact hgone hp
    | loose_list => simp [list, hinv.loose] at hmem

theorem Inv.step (hinv : s.Inv full) {l : Label} (hok : s.Orderly full l)
    (hs : s.step l = some s') : s'.Inv full := by
  cases l with
  | requestMatch agent =>
      simp only [Service.step] at hs
      split at hs
      · next hidle =>
          simp only [Option.some.injEq] at hs
          rw [← hs]
          have hsound := hinv.sound
          rw [handlers_idle hidle] at hsound
          refine Inv.park ?_ hinv.loose hinv.waits ⟨_, rfl, trivial⟩
          exact hsound.enter rfl rfl rfl rfl (by simp)
      · simp at hs
  | cancelMatch agent =>
      simp only [Service.step] at hs
      split at hs
      · next hidle => exact Option.some.inj hs ▸ hinv.removePlayerFromMatch hidle agent
      · simp at hs
  | disconnect source =>
      simp only [Service.step] at hs
      split at hs
      · next hidle => exact Option.some.inj hs ▸ hinv.removePlayerFromMatch hidle source
      · simp at hs
  | tick =>
      simp only [Service.step] at hs
      split at hs
      · next hidle =>
          simp only [Option.some.injEq] at hs
          rw [← hs]
          have hsound := hinv.sound
          rw [handlers_idle hidle] at hsound
          exact Inv.run (hsound.enter rfl rfl rfl rfl (by simp)) hinv.loose hinv.waits
      · simp at hs
  | updateListTimeout =>
      simp only [Service.step] at hs
      split at hs
      · simp only [Option.some.injEq, Service.updateListTimeout] at hs
        split at hs
        · exact hs ▸ ⟨hinv.sound, hinv.loose, hinv.waits⟩
        · exact hs ▸ hinv
      · simp at hs
  | reply k r =>
      simp only [Service.step] at hs
      split at hs
      · next hidle =>
          cases hk : s.suspended[k]? with
          | none => simp [hk] at hs
          | some h =>
              simp only [hk] at hs
              exact hinv.resume hidle hk hok hs
      · simp at hs
  | go order =>
      simp only [Service.step] at hs
      split at hs
      · simp at hs
      · next loop hrun => exact Option.some.inj hs ▸ hinv.stepLoop hrun hok
      · next w loop hrun => exact hinv.stepWork hrun hok hs

theorem inv_start (full : Bool) : start.Inv full where
  sound :=
    { accounts := List.nodup_nil
      carried := List.nodup_nil
      carried_members := fun _ hc => absurd hc List.not_mem_nil
      carried_queue := fun _ hc => absurd hc List.not_mem_nil
      carried_pending := fun _ hc => absurd hc List.not_mem_nil
      members_queue := fun _ hm => absurd hm List.not_mem_nil
      flags := fun _ hp => absurd hp List.not_mem_nil
      keep_pending := fun _ hp => absurd hp List.not_mem_nil
      searching := fun _ hh => absurd hh List.not_mem_nil
      relists := fun _ hh => absurd hh List.not_mem_nil
      single := fun _ => List.nodup_nil }
  loose := rfl
  waits _ hh := absurd hh List.not_mem_nil

end GameServer.Match.Service
