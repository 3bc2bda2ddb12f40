import GameServer.Wiring

/-!
# Runs keep the wiring

Every handler keeps the wiring wherever it waits, so it holds in every state of every run.
-/

namespace GameServer.Watchdog

open Cooperative Coroutine Transition

variable {s s' : Game} {m m' : Multiset Place} {p p' : Place} {fd : Fd} {a : Address}
  {account : Account}

/-- Handlers may be resumed at any time. -/
def anyTime (_ : Game) (_ : Multiset Place) (_ : Place) : Prop := True

section Alive

variable {inv : Game → Multiset Place → Prop} {ok : Game → Multiset Place → Place → Prop}
  {Q : Unit → Game → Multiset Place → Prop}

theorem alive_safe (hraise : (s.agents a).exited = true → inv s m)
    (h : (s.agents a).exited = false → Q () s m) : (alive a).Safe inv ok Q s m := by
  refine safe_bind.mpr (safe_get.mpr ?_)
  unfold Coroutine.when
  split
  · next hexited => exact hraise hexited
  · next hexited => exact h (Bool.eq_false_of_not_eq_true hexited)

end Alive

/-! ## Closing -/

/-- A place that names nothing but what its `userEnter` names. -/
theorem admitted_of_entry {w : Wait} {entry : Option Entry} (hnames : w.names = [])
    (howed : w.owed = []) (hforward : ∀ fd a, w ≠ .forward fd a) (hnew : w.newAgent = none)
    (hentry : ∀ e, entry = some e → s.counted e.fd ≠ none) : Place.Admitted s ⟨w, entry⟩ := by
  refine ⟨fun fd hfd => ?_, fun a ha => ?_, fun fd a hwait => absurd hwait (hforward fd a), hnew⟩
  · unfold Place.names at hfd
    rw [hnames, List.nil_append] at hfd
    obtain ⟨e, he, rfl⟩ := List.mem_map.mp hfd
    exact hentry e (Option.mem_toList.mp he)
  · rw [howed] at ha
    exact absurd ha List.not_mem_nil

theorem Known.entry (h : Known s (p ::ₘ m)) {e : Entry} (he : p.entry = some e) :
    s.counted e.fd ≠ none := by
  refine h.names p (Multiset.mem_cons_self _ _) e.fd (List.mem_append_right _ ?_)
  exact List.mem_map.mpr ⟨e, Option.mem_toList.mpr he, rfl⟩

theorem Wired.closing (h : Wired s m) (hfd : s.counted fd ≠ none) :
    Wired s (⟨.closing fd, none⟩ ::ₘ m) := by
  refine h.add (fun _ => rfl) ⟨fun f hf => ?_, ?_, fun f b hwait => (by cases hwait), rfl⟩
  · obtain rfl := List.mem_singleton.mp hf
    exact hfd
  · exact fun b hb => absurd hb List.not_mem_nil

theorem closeAgent_safe {entry : Option Entry} (h : Wired s (⟨.closing fd, none⟩ ::ₘ m))
    (hentry : ∀ e, entry = some e → s.counted e.fd ≠ none) :
    (closeAgent fd entry).Safe Wired anyTime
      (fun _ s m => Wired s m ∧ ∀ e, entry = some e → s.counted e.fd ≠ none) s m := by
  refine safe_bind.mpr (safe_get.mpr (safe_bind.mpr (safe_modify.mpr ?_)))
  cases hmap : s.agentfd fd with
  | none => exact ⟨h.unwatch hmap, hentry⟩
  | some a =>
      refine safe_bind.mpr (safe_call.mpr ⟨h.leave hmap hentry, fun s₁ m₁ h₁ _ => ?_⟩)
      refine safe_bind.mpr (safe_modify.mpr (safe_bind.mpr (safe_call.mpr
        ⟨h₁.kick, fun s₂ m₂ h₂ _ => ?_⟩)))
      have hrole : ∀ f, Wait.role f (.release fd a) = if fd = f then some (.leaving a) else none :=
        fun _ => rfl
      refine safe_bind.mpr (alive_safe (fun hexited => ?_) fun _ => ?_)
      · exact h₂.abandon (p := ⟨.release fd a, entry⟩) trivial hrole fun hholds =>
          .kept a hholds.1 hholds.2.1 hholds.2.2 hexited
      · have hnames : ∀ e, entry = some e → s₂.counted e.fd ≠ none := fun e he => h₂.known.entry he
        refine safe_bind.mpr (safe_modify.mpr (safe_bind.mpr (safe_get.mpr
          (safe_bind.mpr (safe_call.mpr ⟨?_, fun s₃ m₃ h₃ _ => ?_⟩)))))
        · exact h₂.release.add (fun _ => rfl) (admitted_of_entry rfl rfl (by simp) rfl hnames)
        · have hdrop := h₃.drop trivial fun _ => rfl
          have hnames' : ∀ e, entry = some e → s₃.counted e.fd ≠ none := fun e he =>
            h₃.known.entry he
          unfold Coroutine.when
          split
          · exact ⟨hdrop.calm (calm_tell a), hnames'⟩
          · exact ⟨hdrop, hnames'⟩

theorem kickSelf_safe (h : Wired s m) : (kickSelf a).Safe Wired anyTime (fun _ => Wired) s m := by
  refine safe_bind.mpr (safe_get.mpr ?_)
  cases huser : (s.agents a).userFd with
  | none => exact h
  | some fd =>
      have hsome : s.counted fd ≠ none := by
        rw [h.known.userFd a fd huser]
        exact Option.some_ne_none a
      refine safe_bind.mpr (safe_call.mpr ⟨h.closing hsome, fun s₁ m₁ h₁ _ => ?_⟩)
      exact (closeAgent_safe h₁ fun e he => by cases he).mono fun _ _ _ hpost => hpost.1

theorem socketClosed_safe (h : Wired s m) :
    (socketClosed fd).Safe Wired anyTime (fun _ => Wired) s m := by
  refine safe_bind.mpr (safe_get.mpr ?_)
  unfold Coroutine.when
  split
  · next hclosed =>
      refine safe_bind.mpr (safe_modify.mpr (safe_bind.mpr (safe_call.mpr
        ⟨h.hear hclosed.1, fun s₁ m₁ h₁ _ => ?_⟩)))
      exact (closeAgent_safe h₁ fun e he => by cases he).mono fun _ _ _ hpost => hpost.1
  · exact h

/-! ## Logins -/

theorem forward_safe (h : Wired s (⟨.forward fd a, none⟩ ::ₘ m)) :
    (forward fd a).Safe Wired anyTime (fun _ => Wired) s m := by
  refine safe_bind.mpr (safe_call.mpr ⟨h, fun s₁ m₁ h₁ _ => safe_bind.mpr (safe_get.mpr ?_)⟩)
  cases hc : s₁.connection fd with
  | some c => exact h₁.forward hc
  | none =>
      refine safe_bind.mpr (safe_call.mpr ⟨?_, fun s₂ m₂ h₂ _ => ?_⟩)
      · exact (h₁.fail hc).add (fun _ => rfl)
          (admitted_of_entry rfl rfl (by simp) rfl fun e he => by cases he)
      · exact kickSelf_safe (h₂.drop trivial fun _ => rfl)

theorem start_safe {o : Option Fd} (h : Wired s (⟨.starting a o, none⟩ ::ₘ m)) :
    (Start a o).Safe Wired anyTime (fun _ => Wired) s m := by
  refine safe_bind.mpr (safe_call.mpr ⟨h, fun s₁ m₁ h₁ _ => safe_bind.mpr (safe_modify.mpr ?_)⟩)
  cases o with
  | none => exact h₁.startAi
  | some fd => exact forward_safe h₁.start

theorem enterNew_safe {o : Option Fd} (h : Wired s (⟨.making o account, none⟩ ::ₘ m)) :
    (enterNew o account).Safe Wired anyTime (fun _ => Wired) s m := by
  refine safe_bind.mpr (safe_call.mpr ⟨h, fun s₁ m₁ h₁ _ => safe_bind.mpr (safe_get.mpr
    (safe_bind.mpr (safe_modify.mpr (safe_bind.mpr ?_))))⟩)
  cases o with
  | none => exact start_safe h₁.makeAi
  | some fd => exact start_safe h₁.make

theorem enterAgain_safe (h : Wired s (⟨.found fd a, none⟩ ::ₘ m)) :
    (enterAgain fd a).Safe Wired anyTime (fun _ => Wired) s m := by
  refine safe_bind.mpr (safe_call.mpr ⟨h, fun s₁ m₁ h₁ _ => safe_bind.mpr (safe_modify.mpr ?_)⟩)
  refine safe_bind.mpr (safe_call.mpr ⟨h₁.again, fun s₂ m₂ h₂ _ => safe_bind.mpr (alive_safe
    (fun hexited => ?_) fun _ => safe_bind.mpr (safe_modify.mpr (forward_safe h₂.reconnect)))⟩)
  have hstarted : (s₂.agents a).started = true :=
    h₂.born.owed _ (Multiset.mem_cons_self _ _) a (List.mem_singleton_self a)
  exact h₂.abandon (p := ⟨.returning a fd, none⟩) trivial (fun _ => rfl) fun hholds =>
    .lost a hholds.1 hholds.2.1 hstarted hexited

/-- A login goes on: it finds an agent or not. -/
theorem getAgent_safe (h : Wired s (⟨.asked fd account, none⟩ ::ₘ m)) :
    (getAgent fd account).Safe Wired anyTime (fun agent s m =>
      Wired s (⟨.asked fd account, none⟩ ::ₘ m) ∧
        ∀ a, agent = some a → (s.agents a).started = true) s m := by
  refine safe_bind.mpr (safe_get.mpr ?_)
  cases s.roomAccount.lookup account with
  | none => exact ⟨h, fun a ha => by cases ha⟩
  | some map =>
      have hlogin : ∀ {s m} {w w' : Wait}, Wired s (⟨w, none⟩ ::ₘ m) → w.Still →
          (∀ f, w.role f = if fd = f then some .login else none) →
          (∀ f, w'.role f = if fd = f then some .login else none) → w'.names = [] → w'.owed = [] →
          (∀ fd a, w' ≠ .forward fd a) → w'.newAgent = none → Wired s (⟨w', none⟩ ::ₘ m) := by
        intro s m w w' hw hstill hrole hrole' hnames howed hforward hnew
        refine hw.replace hstill (fun f => (hrole' f).trans (hrole f).symm) ?_
        exact admitted_of_entry hnames howed hforward hnew fun e he => by cases he
      refine safe_bind.mpr (safe_call.mpr ⟨hlogin h trivial (fun _ => rfl) (fun _ => rfl) rfl rfl
        (by simp) rfl, fun s₁ m₁ h₁ _ => safe_bind.mpr (safe_get.mpr ?_)⟩)
      cases s₁.rooms map with
      | none =>
          exact h₁.abandon (p := ⟨.seeking fd account map, none⟩) trivial (fun _ => rfl)
            fun hholds => .idle hholds.1 hholds.2.1
      | some players =>
          cases s₁.offLineTime map account with
          | none =>
              exact h₁.abandon (p := ⟨.seeking fd account map, none⟩) trivial (fun _ => rfl)
                fun hholds => .idle hholds.1 hholds.2.1
          | some offLinetime =>
              refine safe_bind.mpr (safe_call.mpr ⟨hlogin h₁ trivial (fun _ => rfl) (fun _ => rfl)
                rfl rfl (by simp) rfl, fun s₂ m₂ h₂ _ => safe_bind.mpr (safe_get.mpr ⟨?_, ?_⟩)⟩)
              · exact hlogin h₂ trivial (fun _ => rfl) (fun _ => rfl) rfl rfl (by simp) rfl
              · intro a ha
                split at ha
                · exact h₂.born.roomAgent account a ha
                · cases ha

theorem auth_safe (h : Wired s m) : (auth account).Safe Wired anyTime (fun _ => Wired) s m := by
  refine safe_bind.mpr (safe_get.mpr (safe_bind.mpr (safe_modify.mpr (safe_bind.mpr (safe_call.mpr
    ⟨h.connect account, fun s₁ m₁ h₁ _ => safe_bind.mpr ((getAgent_safe h₁).mono ?_)⟩)))))
  rintro (_ | a) s₂ m₂ ⟨h₂, hagent⟩
  · refine enterNew_safe (h₂.replace trivial (fun f => ?_) ?_)
    · simp [Wait.role]
    · exact admitted_of_entry rfl rfl (by simp) rfl fun e he => by cases he
  · refine enterAgain_safe (h₂.replace trivial (fun _ => rfl)
      ⟨fun f hf => absurd hf List.not_mem_nil, fun b hb => ?_,
        fun f b hwait => (by cases hwait), rfl⟩)
    obtain rfl := List.mem_singleton.mp hb
    exact hagent b rfl

theorem authAi_safe (h : Wired s m) : (authAi account).Safe Wired anyTime (fun _ => Wired) s m :=
  enterNew_safe (h.add (fun _ => rfl)
    (admitted_of_entry rfl rfl (by simp) rfl fun e he => by cases he))

theorem disconnect_safe (h : Wired s m) :
    (disconnect a).Safe Wired anyTime (fun _ => Wired) s m := by
  refine safe_bind.mpr (safe_get.mpr ?_)
  unfold Coroutine.when
  split
  · split
    · refine safe_bind.mpr (safe_call.mpr ⟨?_, fun s₁ m₁ h₁ _ => safe_modify.mpr ?_⟩)
      · exact h.add (fun _ => rfl) (admitted_of_entry rfl rfl (by simp) rfl fun e he => by cases he)
      · exact (h₁.drop trivial fun _ => rfl).calm (calm_exit a)
    · exact safe_bind.mpr (h.calm (calm_exit a))
  · exact h

/-! ## Entering -/

theorem closeOthers_safe {fd origin : Fd} {keys : List Fd} (h : Wired s m)
    (hfd : s.counted fd ≠ none) :
    (closeOthers account fd origin keys).Safe Wired anyTime
      (fun _ s m => Wired s m ∧ s.counted fd ≠ none) s m := by
  induction keys generalizing s m with
  | nil => exact ⟨h, hfd⟩
  | cons k rest ih =>
      refine safe_bind.mpr (safe_get.mpr (safe_bind.mpr ?_))
      unfold Coroutine.when
      split
      · next hkey =>
          have hk : s.counted k ≠ none :=
            h.known.account k (AList.lookup_isSome.mp (by rw [hkey]; rfl))
          refine (closeAgent_safe (h.closing hk) ?_).mono fun _ s₁ m₁ hpost => ih hpost.1
            (hpost.2 _ rfl)
          rintro e he
          obtain rfl := Option.some.inj he
          exact hfd
      · exact ih h hfd

variable {order : Order}

theorem userEnter_safe {fd origin : Fd} (h : Wired s m) (hfd : s.counted fd ≠ none) :
    (userEnter order account fd origin).Safe Wired anyTime (fun _ => Wired) s m := by
  refine safe_bind.mpr (safe_call.mpr ⟨?_, fun s₁ m₁ h₁ _ => safe_bind.mpr (safe_get.mpr
    (safe_bind.mpr (safe_modify.mpr (safe_bind.mpr ?_))))⟩)
  · refine h.add (fun _ => rfl) ⟨fun f hf => ?_, ?_, fun f b hwait => (by cases hwait), rfl⟩
    · obtain rfl := List.mem_singleton.mp hf
      exact hfd
    · exact fun b hb => absurd hb List.not_mem_nil
  · have hfd₁ : s₁.counted fd ≠ none :=
      h₁.known.names _ (Multiset.mem_cons_self _ _) fd List.mem_cons_self
    have hdrop : Wired s₁.scan m₁ := (h₁.drop trivial fun _ => rfl).calm calm_rest
    exact (closeOthers_safe hdrop hfd₁).mono fun _ _ _ hpost =>
      safe_modify.mpr (hpost.1.calm (calm_enter hpost.2))

theorem enterGame_safe (h : Wired s m) :
    (enterGame order fd).Safe Wired anyTime (fun _ => Wired) s m := by
  refine safe_bind.mpr (safe_get.mpr ?_)
  split
  · next a _ =>
      unfold Coroutine.when
      split
      · refine safe_bind.mpr (safe_call.mpr ⟨?_, fun s₁ m₁ h₁ _ => ?_⟩)
        · exact h.add (fun _ => rfl) (admitted_of_entry rfl rfl (by simp) rfl
            fun e he => by cases he)
        · have hdrop := h₁.drop trivial fun _ => rfl
          refine safe_bind.mpr (alive_safe (fun _ => hdrop) fun _ => safe_bind.mpr
            (safe_get.mpr ?_))
          dsimp only
          split
          · next huser =>
              cases hfd : (s₁.agents a).fd with
              | none => exact hdrop
              | some userFd =>
                  refine userEnter_safe hdrop ?_
                  rw [hdrop.known.fd a userFd huser.1 hfd]
                  exact Option.some_ne_none a
          · exact hdrop
      · exact h
  · exact h

/-! ## Rooms -/

theorem admitted_of_owed {w : Wait} (hnames : w.names = []) (hforward : ∀ fd a, w ≠ .forward fd a)
    (hnew : w.newAgent = none) (howed : ∀ a ∈ w.owed, (s.agents a).started = true) :
    Place.Admitted s ⟨w, none⟩ := by
  refine ⟨fun fd hfd => ?_, howed, fun fd a hwait => absurd hwait (hforward fd a), hnew⟩
  unfold Place.names at hfd
  rw [hnames] at hfd
  exact absurd hfd List.not_mem_nil

theorem seatAll_safe {room : Room} {players : List Address} (h : Wired s m)
    (hplayers : ∀ a ∈ players, (s.agents a).started = true) :
    (seatAll room players).Safe Wired anyTime (fun _ => Wired) s m := by
  induction players generalizing s m with
  | nil => exact h
  | cons a rest ih =>
      refine safe_bind.mpr (safe_modify.mpr (safe_bind.mpr (safe_call.mpr
        ⟨?_, fun s₁ m₁ h₁ _ => ?_⟩)))
      · exact (h.calm (calm_setRoom (hplayers a List.mem_cons_self))).add (fun _ => rfl)
          (admitted_of_owed rfl (by simp) rfl hplayers)
      · have hdrop := h₁.drop trivial fun _ => rfl
        have hrest : ∀ b ∈ rest, (s₁.agents b).started = true := fun b hb =>
          h₁.born.owed _ (Multiset.mem_cons_self _ _) b (List.mem_cons_of_mem a hb)
        refine safe_bind.mpr (alive_safe (fun _ => hdrop) fun _ => safe_bind.mpr (safe_modify.mpr
          (safe_bind.mpr (safe_call.mpr ⟨?_, fun s₂ m₂ h₂ _ => ?_⟩))))
        · refine (hdrop.calm (calm_sit a)).add (fun _ => rfl)
            (admitted_of_owed rfl (by simp) rfl fun b hb => ?_)
          rw [(calm_sit a).started]
          exact hrest b hb
        · exact ih (h₂.drop trivial fun _ => rfl) fun b hb =>
            h₂.born.owed _ (Multiset.mem_cons_self _ _) b hb

theorem roomstart_safe {players : List Address} (h : Wired s m) :
    (roomstart players).Safe Wired anyTime (fun _ => Wired) s m := by
  refine safe_bind.mpr (safe_get.mpr ?_)
  unfold Coroutine.when
  split
  · next hplayers =>
      refine safe_bind.mpr (safe_modify.mpr (safe_bind.mpr (safe_call.mpr
        ⟨?_, fun s₁ m₁ h₁ _ => ?_⟩)))
      · exact (h.calm calm_rest).add (fun _ => rfl) (admitted_of_owed rfl (by simp) rfl hplayers)
      · exact seatAll_safe (h₁.drop trivial fun _ => rfl) fun b hb =>
          h₁.born.owed _ (Multiset.mem_cons_self _ _) b hb
  · exact h

theorem clearAll_safe {room : Room} {keys : List Account} (h : Wired s m) :
    (clearAll room keys).Safe Wired anyTime (fun _ => Wired) s m := by
  induction keys generalizing s m with
  | nil => exact h
  | cons k rest ih =>
      refine safe_bind.mpr (safe_get.mpr (safe_bind.mpr ?_))
      unfold Coroutine.when
      split
      · cases s.roomAgent k with
        | none => exact h
        | some a =>
            have hadmitted : ∀ {s} {w : Wait}, w.names = [] → w.owed = [] →
                (∀ fd a, w ≠ .forward fd a) →
                w.newAgent = none → Place.Admitted s ⟨w, none⟩ := fun hnames howed hforward hnew =>
              admitted_of_entry hnames howed hforward hnew fun e he => by cases he
            refine safe_bind.mpr (safe_call.mpr
              ⟨h.add (fun _ => rfl) (hadmitted rfl rfl (by simp) rfl), fun s₁ m₁ h₁ _ => ?_⟩)
            have hdrop := h₁.drop trivial fun _ => rfl
            refine safe_bind.mpr (alive_safe (fun _ => hdrop) fun _ => safe_bind.mpr
              (safe_modify.mpr
              (safe_bind.mpr (safe_get.mpr (safe_bind.mpr (safe_call.mpr
                ⟨(hdrop.calm (calm_rise k a)).add (fun _ => rfl) (hadmitted rfl rfl (by simp) rfl),
                  fun s₂ m₂ h₂ _ => ?_⟩))))))
            have hdrop' := h₂.drop trivial fun _ => rfl
            refine safe_bind.mpr (safe_get.mpr (safe_bind.mpr ?_))
            split
            · cases s₂.roomAgent k with
              | none => exact hdrop'
              | some b => exact ih ((hdrop'.calm (calm_tell b)).calm (calm_clearRoom k))
            · exact ih (hdrop'.calm (calm_clearRoom k))
      · exact ih h

theorem roomend_safe {room : Room} (h : Wired s m) :
    (roomend order room).Safe Wired anyTime (fun _ => Wired) s m := by
  refine safe_bind.mpr (safe_get.mpr ?_)
  unfold Coroutine.when
  split
  · refine safe_bind.mpr (safe_modify.mpr
      (safe_bind.mpr (safe_call.mpr ⟨?_, fun s₁ m₁ h₁ _ => ?_⟩)))
    · exact (h.calm calm_rest).add (fun _ => rfl)
        (admitted_of_entry rfl rfl (by simp) rfl fun e he => by cases he)
    · refine safe_bind.mpr (safe_get.mpr (safe_bind.mpr (safe_modify.mpr ?_)))
      exact clearAll_safe ((h₁.drop trivial fun _ => rfl).calm calm_rest)
  · exact h

/-! ## Runs -/

theorem wired_of_reachable {pool : Pool Game Place}
    (h : ((server order).system nobody).Reachable pool) : Wired pool.shared pool.places := by
  refine Server.invariant (G := ⟨fun _ _ _ => True, anyTime, fun _ _ _ => True⟩) Wired ?_
    (fun s m r hs _ => ?_) (fun s m e hs _ => ?_) (h.mono fun pool l _ => ?_)
  · refine ⟨fun fd => .rest rfl (.idle rfl rfl), fun fd _ => ⟨rfl, rfl, rfl⟩, ?_, ?_,
      fun fd a hmap => (by cases hmap)⟩
    · exact ⟨fun a fd huser => (by cases huser), fun a fd hstarted => (by cases hstarted),
        fun fd hgate => (by cases hgate), fun fd a serving hc => (by cases hc),
        fun fd hfd => absurd hfd (AList.notMem_empty fd),
        fun p hp => absurd hp (Multiset.notMem_zero p),
        fun p hp => absurd hp (Multiset.notMem_zero p)⟩
    · refine ⟨fun a => ?_, fun p hp => absurd hp (Multiset.notMem_zero p),
        fun a hstarted => (by cases hstarted), fun fd a hc => (by cases hc),
        fun p hp => absurd hp (Multiset.notMem_zero p), fun k a hroom => (by cases hroom)⟩
      rw [Multiset.countP_zero, if_neg]
      exact fun hlt => Nat.not_lt_zero a hlt.1
  · cases r with
    | auth account => exact auth_safe hs
    | authAi name => exact authAi_safe hs
    | enterGame fd => exact enterGame_safe hs
    | socketClosed fd => exact socketClosed_safe hs
    | kickSelf a => exact kickSelf_safe hs
    | disconnect a => exact disconnect_safe hs
    | roomstart players => exact roomstart_safe hs
    | roomend room => exact roomend_safe hs
  · cases e with
    | hangup fd => exact hs.calm calm_rest
    | offLine offLineTime => exact hs.calm calm_rest
  · cases l with
    | request r => trivial
    | resume k => exact fun w _ => trivial
    | outside e => trivial

/-- Loops go over the keys as the tables list them. -/
def asListed : Order :=
  ⟨fun _ keys => keys, fun _ _ => .refl _, fun _ keys => keys, fun _ _ => .refl _⟩

/-- A login without a room. -/
def login (account : Account) : List (Cooperative.Label Request Outside) :=
  .request (.auth account) :: List.replicate 4 (.resume 0)

end GameServer.Watchdog
