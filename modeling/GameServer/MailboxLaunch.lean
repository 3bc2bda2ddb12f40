import GameServer.MailboxRuns

/-!
# The use of a context behind its release

`skynet_context_new` gives its reference to the new context back and goes on with it: it sets
`ctx->init` and writes to the log. Until it returns only the handle keeps the context there. This is
the one place where a step may touch freed memory, and only if somebody retires the service before.
-/

namespace GameServer

namespace Mailboxes

variable {μ : Type*}

/-- The services whose launch is the thread's. -/
def Thread.starts : Thread μ → List ℕ
  | launching q | starting q | pushing q _ | logging q | retiring q => [q]
  | _ => []

theorem Thread.launches_sublist (t : Thread μ) : t.launches.Sublist t.starts := by
  cases t with
  | pushing q ret => cases ret <;> simp [launches, starts]
  | _ => simp [launches, starts]

namespace Node

variable {s : Node μ} {q i : ℕ} {t : Thread μ}

/-- A launch is the business of one thread. -/
structure Single (s : Node μ) : Prop where
  one : ∀ q, (s.threads.flatMap Thread.starts).count q ≤ 1
  unborn : ∀ q, s.total ≤ q → (s.threads.flatMap Thread.starts).count q = 0

theorem single_init (workers : ℕ) : (init workers : Node μ).Single where
  one q := by
    rw [init, flatMap_idle Thread.starts rfl]
    exact Nat.zero_le _
  unborn q _ := by
    rw [init, flatMap_idle Thread.starts rfl]
    rfl

/-- A thread that still launches a service is the only one, so no other fails to launch it. -/
theorem Single.not_retiring {j : ℕ} {u : Thread μ} (h : s.Single)
    (ht : s.threads[i]? = some (.retiring q)) (hu : s.threads[j]? = some u)
    (hq : q ∈ u.launches) : False := by
  have hne : i ≠ j := by
    rintro rfl
    obtain rfl := Option.some.inj (ht.symm.trans hu)
    simp [Thread.launches] at hq
  have hu' : (s.threads.set i .idle)[j]? = some u := by
    rwa [List.getElem?_set_ne hne]
  have hset := count_flatMap_set Thread.starts ht .idle q
  have hrest := le_count_flatMap Thread.starts hu' q
  have hpos : 0 < u.starts.count q := List.count_pos_iff.mpr (u.launches_sublist.subset hq)
  have hone := h.one q
  have hidle : (Thread.idle : Thread μ).starts.count q = 0 := rfl
  have hretiring : (Thread.retiring q : Thread μ).starts.count q = 1 := by
    rw [Thread.starts, count_single, if_pos rfl]
  omega

theorem registered_setService {a : ℕ} {v : Service μ}
    (h : v.registered = (s.service a).registered) (q : ℕ) :
    ((s.setService a v).service q).registered = (s.service q).registered := by
  obtain rfl | hne := eq_or_ne q a
  · rw [service_setService_self, h]
  · rw [service_setService_of_ne _ hne]

theorem registered_dropped (a q : ℕ) :
    ((s.dropped a).service q).registered = (s.service q).registered := by
  rw [dropped_eq]
  exact registered_setService (by rfl) q

theorem registered_retire {a : ℕ} (h : q ≠ a) :
    ((s.retire a).service q).registered = (s.service q).registered := by
  unfold retire
  split_ifs
  · exact congrArg Service.registered (service_setService_of_ne _ h)
  · rfl

theorem of_bind.{v} {α β : Type v} {x : Except Fault α} {f : α → Except Fault β} {b : β}
    (h : x >>= f = .ok b) : ∃ a, x = .ok a ∧ f a = .ok b := by
  cases x with
  | error fault => cases h
  | ok a => exact ⟨a, rfl, h⟩

theorem of_globalPush {s' : Node μ} (h : s.globalPush q = .ok s') :
    s' = { s with globalmq := s.globalmq ++ [q] } := by
  unfold globalPush at h
  split_ifs at h
  exact (Except.ok.inj h).symm

theorem of_drop {s' : Node μ} (h : s.drop q = .ok s') : s' = s.dropped q := by
  unfold drop at h
  split_ifs at h
  exact (Except.ok.inj h).symm

theorem starts_after (worker : Bool) : (Thread.after worker : Thread μ).starts = [] := by
  cases worker <;> rfl

theorem launches_after (worker : Bool) : (Thread.after worker : Thread μ).launches = [] := by
  cases worker <;> rfl

/-! ## What a step does -/

variable [Inhabited μ]

/-- What a step does to the launches: one thread goes on, and a handle is only taken away by
`skynet_handle_retire`. -/
inductive Moves (s : Node μ) (e : Event μ) : Node μ → Prop
  | create : Moves s e s.create
  | stay {s' : Node μ} (total : s'.total = s.total) (threads : s'.threads = s.threads)
      (registered : ∀ q, e ≠ .retire q →
        (s'.service q).registered = (s.service q).registered) : Moves s e s'
  | move {s' : Node μ} {i : ℕ} {t t' : Thread μ} (thread : s.threads[i]? = some t)
      (total : s'.total = s.total) (threads : s'.threads = s.threads.set i t')
      (starts : t'.starts.Sublist t.starts) (launches : t'.launches.Sublist t.launches)
      (registered : ∀ q, t ≠ .retiring q →
        (s'.service q).registered = (s.service q).registered) : Moves s e s'

section

variable {e : Event μ} {s' : Node μ} {t' : Thread μ}

/-- The thread `i` goes on, and no handle is taken away. -/
theorem Moves.become (ht : s.threads[i]? = some t) (hthreads : s'.threads = s.threads)
    (htotal : s'.total = s.total)
    (hregistered : ∀ q, (s'.service q).registered = (s.service q).registered)
    (hstarts : t'.starts.Sublist t.starts) (hlaunches : t'.launches.Sublist t.launches) :
    Moves s e (s'.become i t') :=
  .move ht htotal (congrArg (·.set i t') hthreads) hstarts hlaunches fun q _ => hregistered q

theorem moves_self (e : Event μ) : Moves s e s := .stay rfl rfl fun _ _ => rfl

theorem launched_moves {ok : Bool} (h : s.launched i ok = .ok s') : Moves s e s' := by
  unfold launched at h
  split at h
  case h_1 q ht =>
    cases ok with
    | false =>
        obtain rfl := Except.ok.inj h
        exact .become ht rfl rfl (fun _ => rfl) (List.Sublist.refl _) (List.nil_sublist _)
    | true =>
        rw [if_pos rfl] at h
        obtain ⟨s1, hdrop, h⟩ := of_bind h
        obtain rfl := of_drop hdrop
        obtain rfl := Except.ok.inj h
        apply Moves.become ht (threads_dropped q) (total_dropped q) (registered_dropped q)
        · split_ifs <;> exact List.Sublist.refl _
        · split_ifs
          · exact List.nil_sublist _
          · exact List.Sublist.refl _
  all_goals
    obtain rfl := Except.ok.inj h
    exact moves_self e

theorem push_moves {k : ℕ} (h : s.push k = .ok s') : Moves s e s' := by
  unfold push at h
  split at h
  case h_1 q message hk =>
    split_ifs at h
    obtain ⟨b, hq, h⟩ := of_bind h
    dsimp only at h
    split_ifs at h
    · rw [ok_bind] at h
      obtain rfl := Except.ok.inj h
      exact .stay rfl rfl fun a _ => registered_setService (by rfl) a
    · obtain ⟨s1, hpush, h⟩ := of_bind h
      obtain rfl := of_globalPush hpush
      obtain rfl := Except.ok.inj h
      exact .stay rfl rfl fun a _ => registered_setService (by rfl) a
  case h_2 =>
    obtain rfl := Except.ok.inj h
    exact moves_self e

theorem release_moves {k : ℕ} (h : s.release k = .ok s') : Moves s e s' := by
  unfold release at h
  split at h
  case h_1 q hk =>
    obtain rfl := of_drop h
    exact .stay (total_dropped q) (threads_dropped q) fun a _ => registered_dropped q a
  case h_2 =>
    obtain rfl := Except.ok.inj h
    exact moves_self e

theorem mark_moves {k : ℕ} (h : s.mark k = .ok s') : Moves s e s' := by
  unfold mark at h
  split at h
  case h_1 q hk =>
    obtain ⟨b, hq, h⟩ := of_bind h
    split_ifs at h
    · obtain rfl := Except.ok.inj h
      exact .stay rfl rfl fun a _ => registered_setService (by rfl) a
    · obtain rfl := of_globalPush h
      exact .stay rfl rfl fun a _ => registered_setService (by rfl) a
  case h_2 =>
    obtain rfl := Except.ok.inj h
    exact moves_self e

theorem work_moves {weight : ℤ} (h : s.work weight i = .ok s') : Moves s e s' := by
  unfold work at h
  split at h
  case h_1 ht =>
    split at h
    · obtain rfl := Except.ok.inj h
      exact moves_self e
    · obtain rfl := Except.ok.inj h
      exact .become ht rfl rfl (fun _ => rfl) (List.nil_sublist _) (List.nil_sublist _)
  case h_2 q ht =>
    obtain ⟨b, hq, h⟩ := of_bind h
    unfold grab at h
    split_ifs at h
    · obtain rfl := Except.ok.inj h
      exact .become ht rfl rfl (registered_setService (by rfl)) (List.nil_sublist _)
        (List.nil_sublist _)
    · obtain rfl := Except.ok.inj h
      exact .become ht rfl rfl (fun _ => rfl) (List.nil_sublist _) (List.nil_sublist _)
  case h_3 q k n ht =>
    split_ifs at h
    · obtain ⟨b, hq, h⟩ := of_bind h
      split at h
      all_goals
        obtain rfl := Except.ok.inj h
        exact .become ht rfl rfl (registered_setService (by rfl)) (List.nil_sublist _)
          (List.nil_sublist _)
    · obtain rfl := Except.ok.inj h
      exact .become ht rfl rfl (fun _ => rfl) (List.nil_sublist _) (List.nil_sublist _)
  case h_4 q k n message ht =>
    obtain ⟨b, hq, h⟩ := of_bind h
    split_ifs at h
    all_goals
      obtain rfl := Except.ok.inj h
      exact .become ht rfl rfl (registered_setService (by rfl)) (List.nil_sublist _)
        (List.nil_sublist _)
  case h_5 q ht =>
    split at h
    all_goals
      obtain rfl := Except.ok.inj h
      exact .become ht rfl rfl (fun _ => rfl) (List.nil_sublist _) (List.nil_sublist _)
  case h_6 q nq ht =>
    obtain ⟨b, hq, h⟩ := of_bind h
    obtain ⟨s1, hpush, h⟩ := of_bind h
    obtain rfl := of_globalPush hpush
    obtain rfl := Except.ok.inj h
    exact .become ht rfl rfl (fun _ => rfl) (List.nil_sublist _) (List.nil_sublist _)
  case h_7 q ht =>
    split_ifs at h
    obtain rfl := Except.ok.inj h
    exact .become ht rfl rfl (fun _ => rfl) (List.Sublist.refl _) (List.Sublist.refl _)
  case h_8 q ret ht =>
    obtain ⟨b, hq, h⟩ := of_bind h
    obtain ⟨s1, hpush, h⟩ := of_bind h
    obtain rfl := of_globalPush hpush
    obtain rfl := Except.ok.inj h
    refine .become ht rfl rfl (fun _ => rfl) ?_ ?_
    all_goals
      cases ret
      · exact List.nil_sublist _
      · exact List.Sublist.refl _
  case h_9 q ht =>
    split_ifs at h
    obtain rfl := Except.ok.inj h
    exact .become ht rfl rfl (fun _ => rfl) (List.nil_sublist _) (List.nil_sublist _)
  case h_10 q ht =>
    obtain rfl := Except.ok.inj h
    have htotal : (s.retire q).total = s.total := by
      unfold retire
      split_ifs <;> rfl
    have hsame : (s.retire q).threads = s.threads := by
      unfold retire
      split_ifs <;> rfl
    have hthreads : ((s.retire q).become i (.releasing q false)).threads =
        s.threads.set i (.releasing q false) := congrArg (·.set i (.releasing q false)) hsame
    refine .move ht htotal hthreads (List.nil_sublist _) (List.nil_sublist _) fun a hne => ?_
    exact registered_retire fun heq => hne (heq ▸ rfl)
  case h_11 q worker ht =>
    obtain ⟨b, hq, h⟩ := of_bind h
    split_ifs at h
    · obtain rfl := Except.ok.inj h
      exact .become ht rfl rfl (fun _ => rfl) (List.nil_sublist _) (List.nil_sublist _)
    · obtain ⟨s1, hpush, h⟩ := of_bind h
      obtain rfl := of_globalPush hpush
      obtain rfl := Except.ok.inj h
      refine .become ht rfl rfl (fun _ => rfl) ?_ ?_
      · rw [starts_after]
        exact List.nil_sublist _
      · rw [launches_after]
        exact List.nil_sublist _
  case h_12 q worker ht =>
    obtain ⟨b, hq, h⟩ := of_bind h
    split at h
    · obtain rfl := Except.ok.inj h
      exact .stay rfl rfl fun a _ => registered_setService (by rfl) a
    · split_ifs at h
      obtain rfl := Except.ok.inj h
      refine .become ht rfl rfl (registered_setService (by rfl)) ?_ ?_
      · rw [starts_after]
        exact List.nil_sublist _
      · rw [launches_after]
        exact List.nil_sublist _
  all_goals
    obtain rfl := Except.ok.inj h
    exact moves_self e

theorem step_moves {weight : ℕ → ℤ} (h : s.step weight e = .ok s') :
    Moves s e s' := by
  cases e with
  | create =>
      obtain rfl := Except.ok.inj h
      exact .create
  | launched i => exact launched_moves h
  | failed i => exact launched_moves h
  | retire q =>
      obtain rfl := Except.ok.inj h
      refine .stay ?_ ?_ fun a hne => registered_retire fun heq => hne (heq ▸ rfl)
      all_goals
        unfold retire
        split_ifs <;> rfl
  | grab q message =>
      simp only [step, grab] at h
      split_ifs at h
      · obtain rfl := Except.ok.inj h
        exact .stay rfl rfl fun a _ => registered_setService (by rfl) a
      · obtain rfl := Except.ok.inj h
        exact moves_self _
  | push k => exact push_moves h
  | release k => exact release_moves h
  | mark k => exact mark_moves h
  | work i => exact work_moves h

end

/-! ## Runs -/

theorem Single.moves {e : Event μ} {s' : Node μ} (h : s.Single) (hm : Moves s e s') :
    s'.Single := by
  cases hm with
  | create =>
      have hcount (q : ℕ) : (s.create.threads.flatMap Thread.starts).count q =
          (s.threads.flatMap Thread.starts).count q + if s.total = q then 1 else 0 := by
        simp only [create, List.flatMap_append, List.flatMap_cons, List.flatMap_nil,
          List.append_nil, List.count_append, Thread.starts, count_single]
      constructor
      · intro q
        have hone := h.one q
        rw [hcount]
        split_ifs with hq
        · rw [h.unborn q hq.le]
        · exact hone
      · intro q hq
        change s.total + 1 ≤ q at hq
        rw [hcount, h.unborn q (by omega), if_neg (by omega)]
  | stay total threads _ =>
      constructor
      · intro q
        rw [threads]
        exact h.one q
      · intro q hq
        rw [threads]
        exact h.unborn q (total ▸ hq)
  | @move _ i t t' thread total threads starts _ _ =>
      constructor
      · intro q
        have hset := count_flatMap_set Thread.starts thread t' q
        have hle := starts.count_le q
        have hone := h.one q
        rw [threads]
        omega
      · intro q hq
        have hset := count_flatMap_set Thread.starts thread t' q
        have hle := starts.count_le q
        have hzero := h.unborn q (total ▸ hq)
        rw [threads]
        omega

/-- The service `q` was retired while its launch was on. -/
def Disturbed (weight : ℕ → ℤ) (s : Node μ) (events : List (Event μ)) (q : ℕ) :
    Prop :=
  ∃ first last s', events = first ++ .retire q :: last ∧ s.run weight first = .ok s' ∧
    ∃ t ∈ s'.threads, q ∈ t.launches

variable {weight : ℕ → ℤ} {events : List (Event μ)} {s' : Node μ}

theorem Disturbed.append (h : Disturbed weight s events q) (more : List (Event μ)) :
    Disturbed weight s (events ++ more) q := by
  obtain ⟨first, last, s', rfl, hrun, ht⟩ := h
  exact ⟨first, last ++ more, s', by simp, hrun, ht⟩

theorem run_append (s : Node μ) (first last : List (Event μ)) :
    s.run weight (first ++ last) = s.run weight first >>= fun s' => s'.run weight last :=
  List.foldlM_append

theorem of_run_concat {e : Event μ} (h : s.run weight (events ++ [e]) = .ok s') :
    ∃ s1, s.run weight events = .ok s1 ∧ s1.step weight e = .ok s' := by
  rw [run_append] at h
  obtain ⟨s1, hrun, hlast⟩ := of_bind h
  rw [run_cons] at hlast
  obtain ⟨s2, hstep, hnil⟩ := of_bind hlast
  obtain rfl := Except.ok.inj hnil
  exact ⟨s1, hrun, hstep⟩

theorem run_single (h : s.Single) (hrun : s.run weight events = .ok s') : s'.Single := by
  induction events using List.reverseRecOn generalizing s' with
  | nil =>
      obtain rfl := Except.ok.inj hrun
      exact h
  | append_singleton events e ih =>
      obtain ⟨s1, hbefore, hstep⟩ := of_run_concat hrun
      exact (ih hbefore).moves (step_moves hstep)

/-- As long as its launch is on, a service that nobody retired has its handle. -/
theorem registered_of_launches {workers : ℕ} {t : Thread μ}
    (hrun : (init workers).run weight events = .ok s) (ht : t ∈ s.threads)
    (hq : q ∈ t.launches) :
    (s.service q).registered = true ∨ Disturbed weight (init workers) events q := by
  induction events using List.reverseRecOn generalizing s t with
  | nil =>
      obtain rfl := Except.ok.inj hrun
      obtain rfl := List.eq_of_mem_replicate ht
      simp [Thread.launches] at hq
  | append_singleton events e ih =>
      obtain ⟨s1, hbefore, hstep⟩ := of_run_concat hrun
      cases step_moves hstep with
      | create =>
          obtain rfl | hne := eq_or_ne q s1.total
          · exact Or.inl (congrArg Service.registered (service_setService_self _))
          · have hsame : (s1.create.service q) = s1.service q := service_setService_of_ne _ hne
            rw [hsame]
            rcases List.mem_append.mp ht with ht | ht
            · exact (ih hbefore ht hq).imp_right (·.append _)
            · obtain rfl := List.mem_singleton.mp ht
              exact absurd (List.mem_singleton.mp hq) hne
      | stay _ threads registered =>
          rw [threads] at ht
          by_cases he : e = .retire q
          · subst he
            exact Or.inr ⟨events, [], s1, rfl, hbefore, t, ht, hq⟩
          · rw [registered q he]
            exact (ih hbefore ht hq).imp_right (·.append _)
      | @move _ i u u' thread _ threads _ launches registered =>
          obtain ⟨j, hj⟩ := List.getElem?_of_mem ht
          obtain ⟨j, v, hv, hqv⟩ : ∃ (j : ℕ) (v : Thread μ),
              s1.threads[j]? = some v ∧ q ∈ v.launches := by
            rw [threads] at hj
            obtain rfl | hne := eq_or_ne i j
            · have hi := (List.getElem?_eq_some_iff.mp thread).1
              rw [List.getElem?_set_self hi] at hj
              obtain rfl := Option.some.inj hj
              exact ⟨i, u, thread, launches.subset hq⟩
            · rw [List.getElem?_set_ne hne] at hj
              exact ⟨j, t, hj, hq⟩
          have hkeep : u ≠ .retiring q := by
            rintro rfl
            exact (run_single (single_init workers) hbefore).not_retiring thread hv hqv
          rw [registered q hkeep]
          exact (ih hbefore (List.mem_of_getElem? hv) hqv).imp_right (·.append _)

theorem of_run_error {fault : Fault} (h : s.run weight events = .error fault) :
    ∃ first e last s', events = first ++ e :: last ∧ s.run weight first = .ok s' ∧
      s'.step weight e = .error fault := by
  induction events generalizing s with
  | nil => cases h
  | cons e events ih =>
      rw [run_cons] at h
      cases hstep : s.step weight e with
      | error fault' =>
          rw [hstep] at h
          obtain rfl := Except.error.inj h
          exact ⟨[], e, events, s, rfl, rfl, hstep⟩
      | ok s1 =>
          rw [hstep, ok_bind] at h
          obtain ⟨first, e', last, s', rfl, hrun, hfault⟩ := ih h
          refine ⟨e :: first, e', last, s', rfl, ?_, hfault⟩
          rw [run_cons, hstep, ok_bind]
          exact hrun

end Node

open Node

section

variable [Inhabited μ] {weight : ℕ → ℤ} {workers : ℕ} {events : List (Event μ)}

/-- However the steps of the threads follow each other, no assertion fails and no mailbox is freed
twice. Freed memory is touched at one place only: when `skynet_context_new` goes on with a context
behind its release, and only if the service was retired before it returns. -/
theorem faults_late {fault : Fault} (h : (init workers).run weight events = .error fault) :
    fault = .freed ∧ ∃ first i last s q, events = first ++ .work i :: last ∧
      (init workers).run weight first = .ok s ∧ s.Late i q ∧
        Disturbed weight (init workers) first q := by
  obtain ⟨first, e, last, s, rfl, hrun, hfault⟩ := of_run_error h
  have hsteady := run_steady (steady_init workers) hrun
  by_cases hlate : ∃ i q, e = .work i ∧ s.Late i q
  · obtain ⟨i, q, rfl, hlate⟩ := hlate
    rw [step_late weight hlate] at hfault
    refine ⟨(Except.error.inj hfault).symm, first, i, last, s, q, rfl, hrun, hlate, ?_⟩
    obtain ⟨ht, hzero⟩ := hlate
    obtain ⟨t, ht, hq⟩ : ∃ t ∈ s.threads, q ∈ t.launches := by
      rcases ht with ht | ht
      all_goals exact ⟨_, List.mem_of_getElem? ht, by simp [Thread.launches]⟩
    rcases registered_of_launches hrun ht hq with hreg | hdisturbed
    · have href := (hsteady.good q).ref
      rw [hzero, Service.handle, if_pos hreg] at href
      omega
    · exact hdisturbed
  · obtain ⟨s', hok, _⟩ := step_ok weight hsteady e fun i q he hl => hlate ⟨i, q, he, hl⟩
    rw [hok] at hfault
    cases hfault

/-- A run in which no service is retired before its launch is over meets no fault. -/
theorem never_faults (h : ∀ q, ¬ Disturbed weight (init workers) events q) :
    ∃ s, (init workers).run weight events = .ok s := by
  cases hrun : (init workers).run weight events with
  | ok s => exact ⟨s, rfl⟩
  | error fault =>
      obtain ⟨_, first, i, last, s, q, rfl, _, _, hdisturbed⟩ := faults_late hrun
      exact absurd (hdisturbed.append _) (h q)

end

/-- A service that leaves with its first message, before its launch is in the log. -/
def leavesEarly : List (Event ℕ) :=
  [.create, .launched 1, .work 1, .work 1, .work 0, .retire 0, .release 0, .work 1]

end Mailboxes

end GameServer
