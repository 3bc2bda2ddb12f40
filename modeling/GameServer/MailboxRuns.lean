import GameServer.Mailboxes

/-!
# No message is lost, and no service runs twice at once

What the steps of all threads do to one service is said by five numbers and the service itself:
how often its mailbox is in the global queue or in a thread's hands, the references to its context
that somebody will give up, the pending deletions, and the threads that empty the mailbox to free
it. `Good` is the invariant of one service, with a lemma for each thing that can happen to it. The
steps of the whole node are sums of these.
-/

namespace GameServer

namespace Mailboxes

variable {μ : Type*}

/-! ## A mailbox -/

namespace Mailbox

variable {b b' : Mailbox μ} {l : List μ} {message : μ}

theorem pop_nil (h : b.ring.Holds []) :
    b.pop = (none, { b with overloadThreshold := MQ_OVERLOAD, inGlobal := false }) := by
  unfold pop
  rw [h.pop_nil]

theorem pop_cons (h : b.ring.Holds (message :: l)) :
    ∃ b', b.pop = (some message, b') ∧ b'.ring.Holds l ∧ b'.release = b.release ∧
      b'.inGlobal = b.inGlobal := by
  obtain ⟨ring, hpop, _, hring⟩ := h.pop_cons
  unfold pop
  rw [hpop]
  exact ⟨_, rfl, hring, rfl, rfl⟩

theorem holds_push [Inhabited μ] (h : b.ring.Holds l) :
    (b.push message).ring.Holds (l ++ [message]) := by
  apply h.push
  have hcap := h.length_lt
  change b.ring.cap < b.ring.cap * 2
  omega

/-- `skynet_mq_length` counts what is there. -/
theorem length_eq (h : b.ring.Holds l) : b.length = l.length := by
  have hlen := h.length_lt
  have hhead := h.head_lt
  unfold length
  rw [h.tail_eq]
  unfold Ring.place
  split_ifs <;> omega

end Mailbox

/-! ## One service -/

/-- How often the mailbox has to be in the global queue or in a thread's hands. -/
def Service.due (v : Service μ) : ℕ :=
  match v.queue with
  | some b => if b.inGlobal ∨ b.release then 1 else 0
  | none => 0

def Service.handle (v : Service μ) : ℕ := if v.registered then 1 else 0

def Kept (v : Service μ) : Prop := ∃ b, v.queue = some b ∧ b.release = false

structure Good (own refs dying drops : ℕ) (v : Service μ) : Prop where
  ref : v.ref = refs + v.handle
  alive : 0 < v.ref → dying = 0 ∧ Kept v
  dead : v.ref = 0 → (dying = 1 ∧ Kept v) ∨
    (dying = 0 ∧ ∀ b, v.queue = some b → b.release = true)
  owner : own = v.due
  dropped : 0 < drops → ∃ b, v.queue = some b ∧ b.release = true
  few : drops ≤ own
  mail : ∀ b, v.queue = some b →
    ∃ l, b.ring.Holds l ∧ v.sent = v.taken ++ l ∧ (b.inGlobal = false → l = [])
  freed : v.queue = none → v.sent = v.taken

section

variable {own refs dying drops : ℕ} {v : Service μ} {b : Mailbox μ}

theorem Good.congr {own' refs' dying' drops' : ℕ} {v' : Service μ}
    (h : Good own refs dying drops v) (hown : own' = own) (hrefs : refs' = refs)
    (hdying : dying' = dying) (hdrops : drops' = drops) (hv : v' = v) :
    Good own' refs' dying' drops' v' := by
  subst hown hrefs hdying hdrops hv
  exact h

theorem good_unborn : Good 0 0 0 0 (Service.unborn : Service μ) where
  ref := rfl
  alive h := absurd h (lt_irrefl 0)
  dead _ := Or.inr ⟨rfl, fun _ h => nomatch h⟩
  owner := rfl
  dropped h := absurd h (lt_irrefl 0)
  few := Nat.zero_le _
  mail _ h := nomatch h
  freed _ := rfl

/-- A new service: its thread has the mailbox and a reference, and the handle is another one. -/
theorem good_create [Inhabited μ] : Good 1 1 0 0 (⟨true, 2, some .create, [], []⟩ : Service μ) where
  ref := rfl
  alive _ := ⟨rfl, _, rfl, rfl⟩
  dead h := nomatch h
  owner := rfl
  dropped h := absurd h (lt_irrefl 0)
  few := Nat.zero_le _
  mail _ h := by
    obtain rfl := Option.some.inj h
    exact ⟨[], Ring.holds_empty (by decide) _, rfl, fun _ => rfl⟩
  freed h := nomatch h

theorem Good.own_le (h : Good own refs dying drops v) : own ≤ 1 := by
  rw [h.owner]
  unfold Service.due
  split
  · split_ifs <;> omega
  · exact Nat.zero_le _

theorem Good.exists_queue (h : Good own refs dying drops v) (hown : 0 < own) :
    ∃ b, v.queue = some b := by
  cases hq : v.queue with
  | some b => exact ⟨b, rfl⟩
  | none =>
      rw [h.owner, Service.due, hq] at hown
      exact absurd hown (lt_irrefl 0)

theorem Good.kept (h : Good own refs dying drops v) (href : 0 < refs) : Kept v := by
  have hpos : 0 < v.ref := by
    rw [h.ref]
    omega
  exact (h.alive hpos).2

theorem Good.release_false (h : Good own refs dying drops v) (href : 0 < refs)
    (hq : v.queue = some b) : b.release = false := by
  obtain ⟨b', hq', hb'⟩ := h.kept href
  obtain rfl := Option.some.inj (hq.symm.trans hq')
  exact hb'

theorem Good.due_kept (h : Good own refs dying drops v) (hq : v.queue = some b)
    (hb : b.release = false) : own = if b.inGlobal then 1 else 0 := by
  rw [h.owner, Service.due, hq]
  simp [hb]

theorem Good.grab (h : Good own refs dying drops v) (hreg : v.registered = true) :
    Good own (refs + 1) dying drops { v with ref := v.ref + 1 } := by
  have hpos : 0 < v.ref := by
    rw [h.ref, Service.handle, if_pos hreg]
    omega
  have hsum := h.ref
  constructor
  case ref =>
    change v.ref + 1 = refs + 1 + v.handle
    omega
  case alive => exact fun _ => h.alive hpos
  case dead => exact fun hzero => absurd hzero (Nat.succ_ne_zero _)
  case owner => exact h.owner
  case dropped => exact h.dropped
  case few => exact h.few
  case mail => exact h.mail
  case freed => exact h.freed

theorem Good.retire (h : Good own refs dying drops v) (hreg : v.registered = true) :
    Good own (refs + 1) dying drops { v with registered := false } := by
  have hsum := h.ref
  rw [Service.handle, if_pos hreg] at hsum
  exact ⟨hsum, h.alive, h.dead, h.owner, h.dropped, h.few, h.mail, h.freed⟩

theorem Good.release (h : Good own (refs + 1) dying drops v) :
    Good own refs (dying + if v.ref - 1 = 0 then 1 else 0) drops { v with ref := v.ref - 1 } := by
  have hsum := h.ref
  have hpos : 0 < v.ref := by omega
  obtain ⟨hdying, hkept⟩ := h.alive hpos
  constructor
  case ref =>
    change v.ref - 1 = refs + v.handle
    omega
  case alive =>
    intro hmore
    rw [if_neg (by simp only at hmore; omega)]
    exact ⟨hdying, hkept⟩
  case dead =>
    intro hzero
    rw [if_pos hzero]
    exact Or.inl ⟨by omega, hkept⟩
  case owner => exact h.owner
  case dropped => exact h.dropped
  case few => exact h.few
  case mail => exact h.mail
  case freed => exact h.freed

/-- A pending deletion finds the mailbox, and is the only one. -/
theorem Good.pending (h : Good own refs (dying + 1) drops v) : dying = 0 ∧ v.ref = 0 ∧ Kept v := by
  rcases Nat.eq_zero_or_pos v.ref with hzero | hpos
  · rcases h.dead hzero with ⟨hone, hkept⟩ | ⟨hnone, _⟩
    · exact ⟨by omega, hzero, hkept⟩
    · omega
  · have hnone := (h.alive hpos).1
    omega

theorem Good.mark (h : Good own refs (dying + 1) drops v) (hq : v.queue = some b) :
    Good (own + if b.inGlobal then 0 else 1) refs dying drops
      { v with queue := some { b with release := true } } := by
  obtain ⟨hdying, hzero, b', hq', hb'⟩ := h.pending
  obtain rfl := Option.some.inj (hq.symm.trans hq')
  have hown := h.due_kept hq hb'
  obtain ⟨l, hl, hsent, hempty⟩ := h.mail b hq
  constructor
  case ref => exact h.ref
  case alive => exact fun hpos => absurd hzero hpos.ne'
  case dead =>
    refine fun _ => Or.inr ⟨hdying, ?_⟩
    intro c hc
    obtain rfl := Option.some.inj hc
    rfl
  case owner =>
    rw [hown, Service.due]
    simp only [or_true, if_true]
    split_ifs <;> rfl
  case dropped => exact fun _ => ⟨_, rfl, rfl⟩
  case few => exact h.few.trans (Nat.le_add_right _ _)
  case mail =>
    intro c hc
    obtain rfl := Option.some.inj hc
    exact ⟨l, hl, hsent, hempty⟩
  case freed => exact fun hno => nomatch hno

theorem Good.push [Inhabited μ] (h : Good own refs dying drops v) (href : 0 < refs)
    (hq : v.queue = some b) (message : μ) :
    Good (own + if b.inGlobal then 0 else 1) refs dying drops
      { v with queue := some (b.push message), sent := v.sent ++ [message] } := by
  have hb := h.release_false href hq
  have hown := h.due_kept hq hb
  have hpos : 0 < v.ref := by
    rw [h.ref]
    omega
  obtain ⟨l, hl, hsent, _⟩ := h.mail b hq
  constructor
  case ref => exact h.ref
  case alive => exact fun _ => ⟨(h.alive hpos).1, _, rfl, hb⟩
  case dead => exact fun hzero => absurd hzero hpos.ne'
  case owner =>
    rw [hown, Service.due]
    simp only [Mailbox.push, true_or, if_true]
    split_ifs <;> rfl
  case dropped =>
    intro hd
    obtain ⟨c, hc, hrel⟩ := h.dropped hd
    obtain rfl := Option.some.inj (hq.symm.trans hc)
    exact absurd hb (by simp [hrel])
  case few => exact h.few.trans (Nat.le_add_right _ _)
  case mail =>
    intro c hc
    obtain rfl := Option.some.inj hc
    refine ⟨l ++ [message], Mailbox.holds_push hl, ?_, fun hno => nomatch hno⟩
    rw [hsent, List.append_assoc]
  case freed => exact fun hno => nomatch hno

/-- A message is popped, by the service's worker or to be dropped. -/
theorem Good.take (h : Good own refs dying drops v) (hq : v.queue = some b) {message : μ}
    {b' : Mailbox μ} (hpop : b.pop = (some message, b')) :
    Good own refs dying drops
      { v with queue := some b', taken := v.taken ++ [message] } := by
  obtain ⟨l, hl, hsent, hempty⟩ := h.mail b hq
  cases l with
  | nil =>
      rw [Mailbox.pop_nil hl] at hpop
      exact nomatch (Prod.mk.inj hpop).1
  | cons first rest =>
      obtain ⟨c, hc, hring, hrel, hglobal⟩ := Mailbox.pop_cons hl
      obtain ⟨heq, rfl⟩ := Prod.mk.inj (hc.symm.trans hpop)
      obtain rfl := Option.some.inj heq
      constructor
      case ref => exact h.ref
      case alive =>
        intro hpos
        obtain ⟨hdying, b', hb', hfalse⟩ := h.alive hpos
        obtain rfl := Option.some.inj (hq.symm.trans hb')
        exact ⟨hdying, c, rfl, hrel.trans hfalse⟩
      case dead =>
        intro hzero
        rcases h.dead hzero with ⟨hone, b', hb', hfalse⟩ | ⟨hnone, hall⟩
        · obtain rfl := Option.some.inj (hq.symm.trans hb')
          exact Or.inl ⟨hone, c, rfl, hrel.trans hfalse⟩
        · refine Or.inr ⟨hnone, fun b' hb' => ?_⟩
          obtain rfl := Option.some.inj hb'
          exact hrel.trans (hall b hq)
      case owner =>
        rw [h.owner, Service.due, Service.due, hq]
        simp only [hrel, hglobal]
      case dropped =>
        intro hd
        obtain ⟨b', hb', htrue⟩ := h.dropped hd
        obtain rfl := Option.some.inj (hq.symm.trans hb')
        exact ⟨c, rfl, hrel.trans htrue⟩
      case few => exact h.few
      case mail =>
        intro b' hb'
        obtain rfl := Option.some.inj hb'
        refine ⟨rest, hring, ?_, ?_⟩
        · rw [hsent, List.append_assoc]
          rfl
        · intro hno
          exact absurd (hempty (hglobal.symm.trans hno)) (List.cons_ne_nil _ _)
      case freed => exact fun hno => nomatch hno

theorem Good.pop_none (h : Good own refs dying drops v) (hq : v.queue = some b) {b' : Mailbox μ}
    (hpop : b.pop = (none, b')) : b.ring.Holds [] ∧ v.sent = v.taken ∧
      b' = { b with overloadThreshold := MQ_OVERLOAD, inGlobal := false } := by
  obtain ⟨l, hl, hsent, _⟩ := h.mail b hq
  cases l with
  | nil =>
      rw [Mailbox.pop_nil hl] at hpop
      exact ⟨hl, by rw [hsent, List.append_nil], (Prod.mk.inj hpop).2.symm⟩
  | cons first rest =>
      obtain ⟨c, hc, _⟩ := Mailbox.pop_cons hl
      exact nomatch (Prod.mk.inj (hc.symm.trans hpop)).1

theorem Good.drops_eq_zero (h : Good own refs dying drops v) (href : 0 < refs)
    (hq : v.queue = some b) : drops = 0 := by
  have hb := h.release_false href hq
  by_contra hd
  obtain ⟨c, hc, hrel⟩ := h.dropped (Nat.pos_of_ne_zero hd)
  obtain rfl := Option.some.inj (hq.symm.trans hc)
  exact absurd hb (by simp [hrel])

theorem Good.empty (h : Good (own + 1) refs dying drops v) (href : 0 < refs)
    (hq : v.queue = some b) {b' : Mailbox μ} (hpop : b.pop = (none, b')) :
    Good own refs dying drops { v with queue := some b' } := by
  obtain ⟨hl, hsent, rfl⟩ := h.pop_none hq hpop
  have hb := h.release_false href hq
  have hle := h.own_le
  have hdrops := h.drops_eq_zero href hq
  have hpos : 0 < v.ref := by
    rw [h.ref]
    omega
  constructor
  case ref => exact h.ref
  case alive => exact fun _ => ⟨(h.alive hpos).1, _, rfl, hb⟩
  case dead => exact fun hzero => absurd hzero hpos.ne'
  case owner =>
    rw [Service.due]
    simp only [hb, Bool.false_eq_true, or_self, if_false]
    omega
  case dropped => exact fun hd => absurd hdrops hd.ne'
  case few => omega
  case mail =>
    intro c hc
    obtain rfl := Option.some.inj hc
    exact ⟨[], hl, by rw [hsent, List.append_nil], fun _ => rfl⟩
  case freed => exact fun hno => nomatch hno

/-- The mailbox is freed by the thread that emptied it. -/
theorem Good.free (h : Good (own + 1) refs dying (drops + 1) v) (hq : v.queue = some b)
    {b' : Mailbox μ} (hpop : b.pop = (none, b')) :
    Good own refs dying drops { v with queue := none } := by
  obtain ⟨_, hsent, _⟩ := h.pop_none hq hpop
  have hle := h.own_le
  have hfew := h.few
  obtain ⟨c, hc, hrel⟩ := h.dropped (Nat.succ_pos _)
  have hkept : ¬ Kept v := by
    rintro ⟨d, hd, hfalse⟩
    obtain rfl := Option.some.inj (hc.symm.trans hd)
    exact absurd hfalse (by simp [hrel])
  have hzero : v.ref = 0 := by
    by_contra hpos
    exact hkept (h.alive (Nat.pos_of_ne_zero hpos)).2
  have hdying : dying = 0 := by
    rcases h.dead hzero with ⟨_, hk⟩ | ⟨hnone, _⟩
    · exact absurd hk hkept
    · exact hnone
  constructor
  case ref => exact h.ref
  case alive => exact fun hpos => absurd hzero hpos.ne'
  case dead => exact fun _ => Or.inr ⟨hdying, fun _ hno => nomatch hno⟩
  case owner =>
    change own = 0
    omega
  case dropped => exact fun hd => by omega
  case few => omega
  case mail => exact fun _ hno => nomatch hno
  case freed => exact fun _ => hsent

theorem Good.reset (h : Good own refs dying drops v) (hq : v.queue = some b) (overload : ℕ) :
    Good own refs dying drops { v with queue := some { b with overload := overload } } := by
  have hkept : Kept v → Kept { v with queue := some { b with overload := overload } } := by
    rintro ⟨c, hc, hfalse⟩
    obtain rfl := Option.some.inj (hq.symm.trans hc)
    exact ⟨_, rfl, hfalse⟩
  constructor
  case ref => exact h.ref
  case alive => exact fun hpos => ⟨(h.alive hpos).1, hkept (h.alive hpos).2⟩
  case dead =>
    intro hzero
    rcases h.dead hzero with ⟨hone, hk⟩ | ⟨hnone, hall⟩
    · exact Or.inl ⟨hone, hkept hk⟩
    · refine Or.inr ⟨hnone, fun c hc => ?_⟩
      obtain rfl := Option.some.inj hc
      exact hall b hq
  case owner =>
    rw [h.owner, Service.due, Service.due, hq]
  case dropped =>
    intro hd
    obtain ⟨c, hc, htrue⟩ := h.dropped hd
    obtain rfl := Option.some.inj (hq.symm.trans hc)
    exact ⟨_, rfl, htrue⟩
  case few => exact h.few
  case mail =>
    intro c hc
    obtain rfl := Option.some.inj hc
    exact h.mail b hq
  case freed => exact fun hno => nomatch hno

end

/-! ## All services -/

theorem count_flatMap_set {α : Type*} (f : α → List ℕ) {l : List α} {i : ℕ} {t : α}
    (h : l[i]? = some t) (t' : α) (q : ℕ) :
    ((l.set i t').flatMap f).count q + (f t).count q = (l.flatMap f).count q + (f t').count q := by
  induction l generalizing i with
  | nil => cases h
  | cons a l ih =>
      cases i with
      | zero =>
          obtain rfl := Option.some.inj h
          simp only [List.set_cons_zero, List.flatMap_cons, List.count_append]
          omega
      | succ i =>
          have hrest := ih h
          simp only [List.set_cons_succ, List.flatMap_cons, List.count_append]
          omega

theorem le_count_flatMap {α : Type*} (f : α → List ℕ) {l : List α} {i : ℕ} {t : α}
    (h : l[i]? = some t) (q : ℕ) : (f t).count q ≤ (l.flatMap f).count q := by
  apply List.Sublist.count_le
  obtain ⟨hi, rfl⟩ := List.getElem?_eq_some_iff.mp h
  exact List.sublist_flatten_of_mem (List.mem_map_of_mem (List.getElem_mem hi))

theorem count_eraseIdx {l : List ℕ} {k a : ℕ} (h : l[k]? = some a) (q : ℕ) :
    (l.eraseIdx k).count q + (if a = q then 1 else 0) = l.count q := by
  induction l generalizing k with
  | nil => cases h
  | cons b l ih =>
      cases k with
      | zero =>
          obtain rfl := Option.some.inj h
          rw [List.eraseIdx_cons_zero, List.count_cons]
          simp only [beq_iff_eq]
      | succ k =>
          have hrest := ih h
          rw [List.eraseIdx_cons_succ, List.count_cons, List.count_cons]
          omega

theorem count_single (a q : ℕ) : [a].count q = if a = q then 1 else 0 := by
  rw [List.count_singleton]
  simp only [beq_iff_eq]

namespace Node

variable {s : Node μ} {q : ℕ} {i : ℕ} {t : Thread μ}

theorem ok_bind.{v} {α β : Type v} (a : α) (f : α → Except Fault β) :
    (Except.ok a >>= f) = f a := rfl

def own (s : Node μ) (q : ℕ) : ℕ := s.globalmq.count q + (s.threads.flatMap Thread.owns).count q

def refs (s : Node μ) (q : ℕ) : ℕ :=
  (s.threads.flatMap Thread.grabs).count q + (s.sending.map Prod.fst).count q + s.leaving.count q

def dropping (s : Node μ) (q : ℕ) : ℕ := (s.threads.flatMap Thread.drops).count q

/-- The invariant of the node: that of every service, and nothing was done to later ones. -/
structure Steady (s : Node μ) : Prop where
  good : ∀ q, Good (s.own q) (s.refs q) (s.dying.count q) (s.dropping q) (s.service q)
  unborn : ∀ q, s.total ≤ q → s.service q = Service.unborn

theorem own_become (h : s.threads[i]? = some t) (t' : Thread μ) (q : ℕ) :
    (s.become i t').own q + t.owns.count q = s.own q + t'.owns.count q := by
  have hset := count_flatMap_set Thread.owns h t' q
  simp only [own, become]
  omega

theorem refs_become (h : s.threads[i]? = some t) (t' : Thread μ) (q : ℕ) :
    (s.become i t').refs q + t.grabs.count q = s.refs q + t'.grabs.count q := by
  have hset := count_flatMap_set Thread.grabs h t' q
  simp only [refs, become]
  omega

theorem dropping_become (h : s.threads[i]? = some t) (t' : Thread μ) (q : ℕ) :
    (s.become i t').dropping q + t.drops.count q = s.dropping q + t'.drops.count q := by
  have hset := count_flatMap_set Thread.drops h t' q
  simp only [dropping, become]
  omega

@[simp] theorem own_setService (v : Service μ) : (s.setService i v).own q = s.own q := rfl

@[simp] theorem refs_setService (v : Service μ) : (s.setService i v).refs q = s.refs q := rfl

@[simp] theorem dropping_setService (v : Service μ) :
    (s.setService i v).dropping q = s.dropping q := rfl

@[simp] theorem service_setService_self (v : Service μ) : (s.setService q v).service q = v :=
  Function.update_self ..

theorem service_setService_of_ne (v : Service μ) {a : ℕ} (h : q ≠ a) :
    (s.setService a v).service q = s.service q := Function.update_of_ne h _ _

@[simp] theorem own_leave (a : ℕ) : (s.leave a).own q = s.own q := rfl

theorem refs_leave (a : ℕ) : (s.leave a).refs q = s.refs q + [a].count q := by
  simp only [refs, leave, List.count_append]
  omega

@[simp] theorem dropping_leave (a : ℕ) : (s.leave a).dropping q = s.dropping q := rfl

theorem dropped_eq (a : ℕ) : s.dropped a =
    { s.setService a { s.service a with ref := (s.service a).ref - 1 } with
      dying := s.dying ++ if (s.service a).ref - 1 = 0 then [a] else [] } := by
  unfold dropped
  simp only [service_setService_self]
  by_cases hzero : (s.service a).ref - 1 = 0
  · simp only [hzero, if_true]
    rfl
  · simp only [hzero, if_false, List.append_nil]
    rfl

@[simp] theorem threads_dropped (a : ℕ) : (s.dropped a).threads = s.threads := by
  rw [dropped_eq]
  rfl

@[simp] theorem total_dropped (a : ℕ) : (s.dropped a).total = s.total := by
  rw [dropped_eq]
  rfl

@[simp] theorem own_dropped (a : ℕ) : (s.dropped a).own q = s.own q := by
  rw [dropped_eq]
  rfl

@[simp] theorem refs_dropped (a : ℕ) : (s.dropped a).refs q = s.refs q := by
  rw [dropped_eq]
  rfl

@[simp] theorem dropping_dropped (a : ℕ) : (s.dropped a).dropping q = s.dropping q := by
  rw [dropped_eq]
  rfl

theorem service_dropped_self : (s.dropped q).service q =
    { s.service q with ref := (s.service q).ref - 1 } := by
  rw [dropped_eq]
  exact service_setService_self _

theorem service_dropped_of_ne {a : ℕ} (h : q ≠ a) : (s.dropped a).service q = s.service q := by
  rw [dropped_eq]
  exact service_setService_of_ne _ h

theorem dying_dropped_self : (s.dropped q).dying.count q =
    s.dying.count q + if (s.service q).ref - 1 = 0 then 1 else 0 := by
  rw [dropped_eq, List.count_append]
  split_ifs
  · rw [count_single, if_pos rfl]
  · rfl

theorem dying_dropped_of_ne {a : ℕ} (h : q ≠ a) :
    (s.dropped a).dying.count q = s.dying.count q := by
  rw [dropped_eq, List.count_append]
  split_ifs
  · rw [count_single, if_neg h.symm]
    rfl
  · rfl

theorem queue_ok {b : Mailbox μ} (h : (s.service q).queue = some b) : s.queue q = .ok b := by
  simp only [queue, h]

theorem dropping_le_own (s : Node μ) (q : ℕ) : s.dropping q ≤ s.own q := by
  have hthreads : s.dropping q ≤ (s.threads.flatMap Thread.owns).count q := by
    unfold dropping
    induction s.threads with
    | nil => exact le_refl _
    | cons t threads ih =>
        simp only [List.flatMap_cons, List.count_append]
        have hone : t.drops.count q ≤ t.owns.count q := by
          cases t <;> simp [Thread.drops, Thread.owns]
        omega
  exact hthreads.trans (Nat.le_add_left _ _)

namespace Steady

theorem born (h : s.Steady) {b : Mailbox μ} (hq : (s.service q).queue = some b) :
    q < s.total := by
  by_contra hle
  rw [h.unborn q (Nat.not_lt.mp hle)] at hq
  cases hq

theorem born_of_registered (h : s.Steady) (hreg : (s.service q).registered = true) :
    q < s.total := by
  by_contra hle
  rw [h.unborn q (Nat.not_lt.mp hle)] at hreg
  cases hreg

theorem move (h : s.Steady) {s' : Node μ} (hown : ∀ q, s'.own q = s.own q)
    (hrefs : ∀ q, s'.refs q = s.refs q) (hdying : s'.dying = s.dying)
    (hdropping : ∀ q, s'.dropping q = s.dropping q) (hservice : s'.service = s.service)
    (htotal : s'.total = s.total) : s'.Steady where
  good q := (h.good q).congr (hown q) (hrefs q) (by rw [hdying]) (hdropping q) (by rw [hservice])
  unborn q hq := by
    rw [hservice]
    exact h.unborn q (htotal ▸ hq)

/-- Something happens to the service `a`. -/
theorem change (h : s.Steady) {a : ℕ} (ha : a < s.total) {s' : Node μ}
    (hown : ∀ q ≠ a, s'.own q = s.own q) (hrefs : ∀ q ≠ a, s'.refs q = s.refs q)
    (hdying : ∀ q ≠ a, s'.dying.count q = s.dying.count q)
    (hdropping : ∀ q ≠ a, s'.dropping q = s.dropping q)
    (hservice : ∀ q ≠ a, s'.service q = s.service q) (htotal : s'.total = s.total)
    (hgood : Good (s'.own a) (s'.refs a) (s'.dying.count a) (s'.dropping a) (s'.service a)) :
    s'.Steady where
  good q := by
    obtain rfl | hne := eq_or_ne q a
    · exact hgood
    · exact (h.good q).congr (hown q hne) (hrefs q hne) (hdying q hne) (hdropping q hne)
        (hservice q hne)
  unborn q hq := by
    rw [htotal] at hq
    rw [hservice q (by omega)]
    exact h.unborn q hq

/-- The thread `i` goes on, and mailboxes and references change hands. -/
theorem become (h : s.Steady) {s' : Node μ} {t' : Thread μ} (ht : s.threads[i]? = some t)
    (hown : ∀ q, s'.own q + t'.owns.count q = s.own q + t.owns.count q)
    (hrefs : ∀ q, s'.refs q + t'.grabs.count q = s.refs q + t.grabs.count q)
    (hdropping : ∀ q, s'.dropping q + t'.drops.count q = s.dropping q + t.drops.count q)
    (hthreads : s'.threads = s.threads) (hdying : s'.dying = s.dying)
    (hservice : s'.service = s.service) (htotal : s'.total = s.total) :
    (s'.become i t').Steady := by
  have ht' : s'.threads[i]? = some t := by
    rw [hthreads]
    exact ht
  apply h.move
  · intro q
    have hthread := own_become ht' t' q
    have hq := hown q
    omega
  · intro q
    have hthread := refs_become ht' t' q
    have hq := hrefs q
    omega
  · exact hdying
  · intro q
    have hthread := dropping_become ht' t' q
    have hq := hdropping q
    omega
  · exact hservice
  · exact htotal

/-- The thread `i` goes on, and something happens to the service `a`. -/
theorem change_become (h : s.Steady) {a : ℕ} (ha : a < s.total) {s' : Node μ} {t' : Thread μ}
    (ht : s.threads[i]? = some t)
    (hown : ∀ q ≠ a, s'.own q + t'.owns.count q = s.own q + t.owns.count q)
    (hrefs : ∀ q ≠ a, s'.refs q + t'.grabs.count q = s.refs q + t.grabs.count q)
    (hdropping : ∀ q ≠ a, s'.dropping q + t'.drops.count q = s.dropping q + t.drops.count q)
    (hthreads : s'.threads = s.threads) (hdying : ∀ q ≠ a, s'.dying.count q = s.dying.count q)
    (hservice : ∀ q ≠ a, s'.service q = s.service q)
    (htotal : s'.total = s.total) {own' refs' drops' : ℕ}
    (hown' : s'.own a + t'.owns.count a = own' + t.owns.count a)
    (hrefs' : s'.refs a + t'.grabs.count a = refs' + t.grabs.count a)
    (hdrops' : s'.dropping a + t'.drops.count a = drops' + t.drops.count a)
    (hgood : Good own' refs' (s'.dying.count a) drops' (s'.service a)) :
    (s'.become i t').Steady := by
  have ht' : s'.threads[i]? = some t := by
    rw [hthreads]
    exact ht
  apply h.change ha
  · intro q hne
    have hthread := own_become ht' t' q
    have hq := hown q hne
    omega
  · intro q hne
    have hthread := refs_become ht' t' q
    have hq := hrefs q hne
    omega
  · exact hdying
  · intro q hne
    have hthread := dropping_become ht' t' q
    have hq := hdropping q hne
    omega
  · exact hservice
  · exact htotal
  · have hown := own_become ht' t' a
    have hrefs := refs_become ht' t' a
    have hdrops := dropping_become ht' t' a
    exact hgood.congr (by omega) (by omega) rfl (by omega) rfl

theorem owns (h : s.Steady) (ht : s.threads[i]? = some t) (hown : 0 < t.owns.count q) :
    s.own q = 1 ∧ t.owns.count q = 1 ∧ s.globalmq.count q = 0 := by
  have hle := (h.good q).own_le
  have hthread := le_count_flatMap Thread.owns ht q
  unfold own at hle ⊢
  omega

theorem exists_queue (h : s.Steady) (ht : s.threads[i]? = some t) (hown : 0 < t.owns.count q) :
    ∃ b, (s.service q).queue = some b ∧ s.queue q = .ok b := by
  obtain ⟨b, hb⟩ := (h.good q).exists_queue (by rw [(h.owns ht hown).1]; exact Nat.one_pos)
  exact ⟨b, hb, queue_ok hb⟩

theorem grabs (ht : s.threads[i]? = some t) (hgrab : 0 < t.grabs.count q) : 0 < s.refs q := by
  have hthread := le_count_flatMap Thread.grabs ht q
  unfold refs
  omega

end Steady

theorem globalPush_ok (h : s.globalmq.count q = 0) :
    s.globalPush q = .ok { s with globalmq := s.globalmq ++ [q] } := by
  have hnot : q ∉ s.globalmq.dropLast := fun hmem =>
    List.count_eq_zero.mp h (List.mem_of_mem_dropLast hmem)
  rw [globalPush, if_neg hnot]

/-! ## What a worker does -/

theorem work_idle (h : s.Steady) (ht : s.threads[i]? = some .idle) {a : ℕ} {rest : List ℕ}
    (hmq : s.globalmq = a :: rest) :
    ({ s with globalmq := rest }.become i (.holding a)).Steady := by
  apply h.become ht
  · intro q
    simp only [Thread.owns, List.count_nil, own, hmq, List.count_cons]
    omega
  · exact fun _ => rfl
  · exact fun _ => rfl
  all_goals rfl

theorem work_holding_grab (h : s.Steady) (ht : s.threads[i]? = some (.holding q))
    (hreg : (s.service q).registered = true) :
    ((s.setService q { s.service q with ref := (s.service q).ref + 1 }).become i
      (.looping q 0 1)).Steady := by
  apply h.change_become (h.born_of_registered hreg) ht
  · exact fun _ _ => rfl
  · intro a hne
    simp [Thread.grabs, hne.symm]
  · exact fun _ _ => rfl
  · rfl
  · exact fun _ _ => rfl
  · exact fun a hne => service_setService_of_ne _ hne
  · rfl
  · rfl
  · simp only [Thread.grabs, count_single, if_true, List.count_nil, Nat.add_zero]
    rfl
  · rfl
  · rw [service_setService_self]
    exact (h.good q).grab hreg

theorem work_holding_retired (h : s.Steady) (ht : s.threads[i]? = some (.holding q)) :
    (s.become i (.releasing q true)).Steady :=
  h.become ht (fun _ => rfl) (fun _ => rfl) (fun _ => rfl) rfl rfl rfl rfl

/-- The mailbox is empty, so the thread gives it up. -/
theorem work_looping_empty {k n : ℕ} (h : s.Steady) (ht : s.threads[i]? = some (.looping q k n))
    {b b' : Mailbox μ} (hq : (s.service q).queue = some b) (hpop : b.pop = (none, b')) :
    (((s.setQueue q b').leave q).become i .idle).Steady := by
  have hone := (h.owns ht (q := q) (by simp [Thread.owns])).1
  have href := Steady.grabs ht (q := q) (by simp [Thread.grabs])
  apply h.change_become (h.born hq) ht
  · intro a hne
    simp [Thread.owns, setQueue, hne.symm]
  · intro a hne
    simp [Thread.grabs, setQueue, refs_leave, hne.symm]
  · exact fun _ _ => rfl
  · rfl
  · exact fun _ _ => rfl
  · exact fun a hne => service_setService_of_ne _ hne
  · rfl
  · change s.own q + 0 = 0 + _
    simp [Thread.owns, hone]
  · rw [refs_leave]
    rfl
  · rfl
  · have hgood := h.good q
    rw [hone] at hgood
    change Good _ _ _ _ ((s.setService q _).service q)
    rw [service_setService_self]
    exact hgood.empty href hq hpop

theorem work_take (t' : Thread μ) (h : s.Steady) (ht : s.threads[i]? = some t)
    {b b' : Mailbox μ} {message : μ} (hq : (s.service q).queue = some b)
    (hpop : b.pop = (some message, b')) (howns : t'.owns = t.owns) (hgrabs : t'.grabs = t.grabs)
    (hdrops : t'.drops = t.drops) : ((s.take q b' message).become i t').Steady := by
  apply h.change_become (h.born hq) ht
  · intro a hne
    rw [howns]
    rfl
  · intro a hne
    rw [hgrabs]
    rfl
  · intro a hne
    rw [hdrops]
    rfl
  · rfl
  · exact fun _ _ => rfl
  · exact fun a hne => service_setService_of_ne _ hne
  · rfl
  · rw [howns]
  · rw [hgrabs]
  · rw [hdrops]
  · change Good _ _ _ _ ((s.setService q _).service q)
    rw [service_setService_self]
    exact (h.good q).take hq hpop

theorem work_delivering {k n n' : ℕ} {message : μ} (h : s.Steady)
    (ht : s.threads[i]? = some (.delivering q k n message)) {b : Mailbox μ}
    (hq : (s.service q).queue = some b) :
    ((s.setQueue q { b with overload := 0 }).become i (.looping q (k + 1) n')).Steady := by
  apply h.change_become (h.born hq) ht
  · exact fun _ _ => rfl
  · exact fun _ _ => rfl
  · exact fun _ _ => rfl
  · rfl
  · exact fun _ _ => rfl
  · exact fun a hne => service_setService_of_ne _ hne
  · rfl
  · rfl
  · rfl
  · rfl
  · change Good _ _ _ _ ((s.setService q _).service q)
    rw [service_setService_self]
    exact (h.good q).reset hq 0

/-- No other mailbox is waiting, so the thread keeps this one. -/
theorem work_yielding_keep (h : s.Steady) (ht : s.threads[i]? = some (.yielding q)) :
    ((s.leave q).become i (.holding q)).Steady := by
  apply h.become ht
  · exact fun _ => rfl
  · intro a
    rw [refs_leave]
    rfl
  · exact fun _ => rfl
  all_goals rfl

theorem work_yielding_switch (h : s.Steady) (ht : s.threads[i]? = some (.yielding q)) {nq : ℕ}
    {rest : List ℕ} (hmq : s.globalmq = nq :: rest) :
    ({ s with globalmq := rest }.become i (.switching q nq)).Steady := by
  apply h.become ht
  · intro a
    simp only [Thread.owns, own, hmq, List.count_cons, List.count_nil]
    omega
  · exact fun _ => rfl
  · exact fun _ => rfl
  all_goals rfl

/-- A thread puts a mailbox of its own into the global queue. -/
theorem work_push (t' : Thread μ) (c : List ℕ) (h : s.Steady) (ht : s.threads[i]? = some t)
    (howns : ∀ a, t.owns.count a = [q].count a + t'.owns.count a)
    (hgrabs : ∀ a, t.grabs.count a = c.count a + t'.grabs.count a) (hdrops : t'.drops = t.drops) :
    s.globalPush q = .ok { s with globalmq := s.globalmq ++ [q] } ∧
      (({ s with globalmq := s.globalmq ++ [q], leaving := s.leaving ++ c } : Node μ).become i
        t').Steady := by
  have hfree := (h.owns ht (q := q) (by rw [howns]; simp)).2.2
  refine ⟨globalPush_ok hfree, ?_⟩
  apply h.become ht
  · intro a
    have ha := howns a
    simp only [own, List.count_append]
    omega
  · intro a
    have ha := hgrabs a
    simp only [refs, List.count_append]
    omega
  · intro a
    rw [hdrops]
    rfl
  all_goals rfl

theorem steady_retire (h : s.Steady) (q : ℕ) : (s.retire q).Steady := by
  unfold retire
  split_ifs with hreg
  · apply h.change (h.born_of_registered hreg)
    · exact fun _ _ => rfl
    · intro a hne
      rw [refs_leave, count_single, if_neg hne.symm]
      rfl
    · exact fun _ _ => rfl
    · exact fun _ _ => rfl
    · exact fun a hne => service_setService_of_ne _ hne
    · rfl
    · rw [refs_leave, count_single, if_pos rfl]
      change Good _ _ _ _ ((s.setService q _).service q)
      rw [service_setService_self]
      exact (h.good q).retire hreg
  · exact h

theorem work_retiring (h : s.Steady) (ht : s.threads[i]? = some (.retiring q)) :
    ((s.retire q).become i (.releasing q false)).Steady := by
  have hthreads : (s.retire q).threads = s.threads := by
    unfold retire
    split_ifs <;> rfl
  apply (s.steady_retire h q).become (by rw [hthreads]; exact ht)
  · exact fun _ => rfl
  · exact fun _ => rfl
  · exact fun _ => rfl
  all_goals rfl

theorem work_releasing_drop {worker : Bool} (h : s.Steady)
    (ht : s.threads[i]? = some (.releasing q worker)) {b : Mailbox μ}
    (hq : (s.service q).queue = some b) (hb : b.release = true) :
    (s.become i (.dropping q worker)).Steady := by
  have hgood := h.good q
  have hown := own_become ht (.dropping q worker) q
  have hdropping := dropping_become ht (.dropping q worker) q
  have hfew := dropping_le_own (s.become i (.dropping q worker)) q
  simp only [Thread.owns] at hown
  simp only [Thread.drops, count_single, if_true, List.count_nil] at hdropping
  have hmany : s.dropping q + 1 ≤ s.own q := by omega
  apply h.change_become (h.born hq) ht
  · exact fun _ _ => rfl
  · exact fun _ _ => rfl
  · intro a hne
    simp [Thread.drops, hne.symm]
  · rfl
  · exact fun _ _ => rfl
  · exact fun _ _ => rfl
  · rfl
  · rfl
  · rfl
  · change s.dropping q + [q].count q = s.dropping q + 1 + 0
    rw [count_single, if_pos rfl]
  · exact ⟨hgood.ref, hgood.alive, hgood.dead, hgood.owner, fun _ => ⟨b, hq, hb⟩, hmany,
      hgood.mail, hgood.freed⟩

theorem owns_after (worker : Bool) : (Thread.after worker : Thread μ).owns = [] := by
  cases worker <;> rfl

theorem grabs_after (worker : Bool) : (Thread.after worker : Thread μ).grabs = [] := by
  cases worker <;> rfl

theorem drops_after (worker : Bool) : (Thread.after worker : Thread μ).drops = [] := by
  cases worker <;> rfl

theorem work_dropping_free {worker : Bool} (h : s.Steady)
    (ht : s.threads[i]? = some (.dropping q worker)) {b b' : Mailbox μ}
    (hq : (s.service q).queue = some b) (hpop : b.pop = (none, b')) :
    ((s.setService q { s.service q with queue := none }).become i (.after worker)).Steady := by
  have hone := (h.owns ht (q := q) (by simp [Thread.owns])).1
  have hdropping := le_count_flatMap Thread.drops ht q
  have hfew := dropping_le_own s q
  rw [hone] at hfew
  simp only [Thread.drops, count_single, if_true] at hdropping
  have hsame : s.dropping q = 0 + 1 := le_antisymm hfew hdropping
  apply h.change_become (h.born hq) ht
  · intro a hne
    rw [owns_after]
    simp [Thread.owns, hne.symm]
  · intro a _
    rw [grabs_after]
    rfl
  · intro a hne
    rw [drops_after]
    simp [Thread.drops, hne.symm]
  · rfl
  · exact fun _ _ => rfl
  · exact fun a hne => service_setService_of_ne _ hne
  · rfl
  · change s.own q + _ = 0 + _
    rw [owns_after]
    simp [Thread.owns, hone]
  · rw [grabs_after]
    rfl
  · change s.dropping q + _ = 0 + _
    rw [drops_after]
    simp [Thread.drops, hsame]
  · have hgood := h.good q
    rw [hone, hsame] at hgood
    rw [service_setService_self]
    exact hgood.free hq hpop

/-! ## What else may happen -/

theorem steady_create [Inhabited μ] (h : s.Steady) : s.create.Steady := by
  have hgood := h.good s.total
  have hblank := h.unborn s.total (le_refl _)
  have hown : s.own s.total = 0 := by
    rw [hgood.owner, hblank]
    rfl
  have hrefs : s.refs s.total = 0 := by
    have hsum := hgood.ref
    rw [hblank] at hsum
    exact (Nat.add_eq_zero_iff.mp hsum.symm).1
  have hdying : s.dying.count s.total = 0 := by
    rcases hgood.dead (by rw [hblank]; rfl) with ⟨_, b, hb, _⟩ | ⟨hnone, _⟩
    · rw [hblank] at hb
      cases hb
    · exact hnone
  have hdropping : s.dropping s.total = 0 := by
    have hfew := dropping_le_own s s.total
    omega
  have hownAll (q : ℕ) : s.create.own q = s.own q + [s.total].count q := by
    simp [own, create, Thread.owns, setService]
    omega
  have hrefsAll (q : ℕ) : s.create.refs q = s.refs q + [s.total].count q := by
    simp [refs, create, Thread.grabs, setService]
    omega
  have hdroppingAll (q : ℕ) : s.create.dropping q = s.dropping q := by
    simp [dropping, create, Thread.drops, setService]
  constructor
  · intro q
    obtain rfl | hne := eq_or_ne q s.total
    · apply good_create.congr
      · rw [hownAll, hown, count_single, if_pos rfl]
      · rw [hrefsAll, hrefs, count_single, if_pos rfl]
      · exact hdying
      · rw [hdroppingAll, hdropping]
      · exact service_setService_self _
    · apply (h.good q).congr
      · rw [hownAll, count_single, if_neg hne.symm]
        rfl
      · rw [hrefsAll, count_single, if_neg hne.symm]
        rfl
      · rfl
      · exact hdroppingAll q
      · exact service_setService_of_ne _ hne
  · intro q hq
    change s.total + 1 ≤ q at hq
    exact (service_setService_of_ne _ (by omega)).trans (h.unborn q (by omega))

theorem launched_ok (h : s.Steady) (i : ℕ) (ok : Bool) :
    ∃ s', s.launched i ok = .ok s' ∧ s'.Steady := by
  unfold launched
  split
  case h_1 q ht =>
    cases ok with
    | false =>
        refine ⟨_, rfl, h.become ht ?_ ?_ ?_ rfl rfl rfl rfl⟩
        · exact fun _ => rfl
        · intro a
          rw [refs_leave]
          rfl
        · exact fun _ => rfl
    | true =>
        obtain ⟨b, hq, _⟩ := h.exists_queue ht (q := q) (by simp [Thread.owns])
        have hrefs := Steady.grabs ht (q := q) (by simp [Thread.grabs])
        have hgood := h.good q
        obtain ⟨r, hr⟩ := Nat.exists_eq_add_one_of_ne_zero hrefs.ne'
        rw [hr] at hgood
        have href : (s.service q).ref ≠ 0 := by
          rw [hgood.ref]
          omega
        rw [if_pos rfl, drop, if_neg href, ok_bind]
        refine ⟨_, rfl, ?_⟩
        generalize ht' : (if ((s.dropped q).service q).ref = 0 then Thread.pushing q false
          else .starting q) = t'
        have howns : t'.owns = [q] := by
          rw [← ht']
          split_ifs <;> rfl
        have hgrabs : t'.grabs = [] := by
          rw [← ht']
          split_ifs <;> rfl
        have hdrops : t'.drops = [] := by
          rw [← ht']
          split_ifs <;> rfl
        apply h.change_become (h.born hq) ht
        · intro a _
          rw [howns, own_dropped]
          rfl
        · intro a hne
          rw [hgrabs, refs_dropped]
          simp [Thread.grabs, hne.symm]
        · intro a _
          rw [hdrops, dropping_dropped]
          rfl
        · exact threads_dropped q
        · exact fun a hne => dying_dropped_of_ne hne
        · exact fun a hne => service_dropped_of_ne hne
        · exact total_dropped q
        · rw [howns, own_dropped]
          rfl
        · rw [hgrabs, refs_dropped, hr, Thread.grabs, count_single, if_pos rfl]
          rfl
        · rw [hdrops, dropping_dropped]
          rfl
        · rw [dying_dropped_self, service_dropped_self]
          exact hgood.release
  all_goals exact ⟨s, rfl, h⟩

theorem steady_grab (h : s.Steady) {s' : Node μ} (hgrab : s.grab q = some s') (message : μ) :
    ({ s' with sending := s'.sending ++ [(q, message)] } : Node μ).Steady := by
  unfold grab at hgrab
  split_ifs at hgrab with hreg
  obtain rfl := Option.some.inj hgrab
  have hrefs (a : ℕ) : ({ s.setService q { s.service q with ref := (s.service q).ref + 1 } with
      sending := s.sending ++ [(q, message)] } : Node μ).refs a = s.refs a + [q].count a := by
    simp only [refs, setService, List.map_append, List.map_cons, List.map_nil, List.count_append]
    omega
  apply h.change (h.born_of_registered hreg)
  · exact fun _ _ => rfl
  · intro a hne
    refine (hrefs a).trans ?_
    rw [count_single, if_neg hne.symm]
    rfl
  · exact fun _ _ => rfl
  · exact fun _ _ => rfl
  · exact fun a hne => service_setService_of_ne _ hne
  · rfl
  · apply ((h.good q).grab hreg).congr
    · rfl
    · refine (hrefs q).trans ?_
      rw [count_single, if_pos rfl]
    · rfl
    · rfl
    · exact service_setService_self _

theorem count_pos {l : List ℕ} {k : ℕ} (h : l[k]? = some q) : 0 < l.count q :=
  List.count_pos_iff.mpr (List.mem_of_getElem? h)

/-- The message is in the mailbox, which joins the global queue if it is not in anybody's hands. -/
theorem steady_push [Inhabited μ] {k : ℕ} {message : μ} {b : Mailbox μ} (h : s.Steady)
    (hk : s.sending[k]? = some (q, message)) (hrefs : 0 < s.refs q)
    (hq : (s.service q).queue = some b) {mq : List ℕ}
    (hself : mq.count q = s.globalmq.count q + if b.inGlobal then 0 else 1)
    (hother : ∀ a ≠ q, mq.count a = s.globalmq.count a) :
    (({ ({ s with sending := s.sending.eraseIdx k }.setService q
      { s.service q with
        queue := some (b.push message)
        sent := (s.service q).sent ++ [message] }) with
      globalmq := mq } : Node μ).leave q).Steady := by
  have hk' : (s.sending.map Prod.fst)[k]? = some q := by
    rw [List.getElem?_map, hk]
    rfl
  have herase := count_eraseIdx hk'
  simp only [List.eraseIdx_map] at herase
  apply h.change (h.born hq)
  · intro a hne
    have ha := hother a hne
    simp only [own, leave, setService]
    omega
  · intro a hne
    have ha := herase a
    rw [if_neg hne.symm] at ha
    simp only [refs, leave, setService, List.count_append, count_single, if_neg hne.symm]
    omega
  · exact fun _ _ => rfl
  · exact fun _ _ => rfl
  · exact fun a hne => service_setService_of_ne _ hne
  · rfl
  · apply ((h.good q).push hrefs hq message).congr
    · simp only [own, leave, setService]
      omega
    · have ha := herase q
      rw [if_pos rfl] at ha
      simp only [refs, leave, setService, List.count_append, count_single, if_true]
      omega
    · rfl
    · rfl
    · exact service_setService_self _

theorem push_ok [Inhabited μ] (h : s.Steady) (k : ℕ) : ∃ s', s.push k = .ok s' ∧ s'.Steady := by
  cases hk : s.sending[k]? with
  | none => exact ⟨s, by simp only [push, hk], h⟩
  | some sent =>
      obtain ⟨q, message⟩ := sent
      have hgood := h.good q
      have hrefs : 0 < s.refs q := by
        have hpos : 0 < (s.sending.map Prod.fst).count q := by
          apply count_pos (k := k)
          rw [List.getElem?_map, hk]
          rfl
        unfold refs
        omega
      have href : (s.service q).ref ≠ 0 := by
        rw [hgood.ref]
        omega
      obtain ⟨b, hq, hb⟩ := hgood.kept hrefs
      have hown := hgood.due_kept hq hb
      unfold push
      simp only [hk, if_neg href, queue_ok hq, ok_bind]
      by_cases hglobal : b.inGlobal = true
      · rw [if_pos hglobal]
        exact ⟨_, rfl, steady_push h hk hrefs hq (by simp [hglobal]) fun _ _ => rfl⟩
      · have hfree : s.globalmq.count q = 0 := by
          rw [if_neg hglobal] at hown
          unfold own at hown
          omega
        rw [if_neg hglobal, globalPush_ok]
        · refine ⟨_, rfl, steady_push h hk hrefs hq ?_ ?_⟩
          · change (s.globalmq ++ [q]).count q = _
            rw [List.count_append, count_single, if_pos rfl, if_neg hglobal]
          · intro a hne
            change (s.globalmq ++ [q]).count a = _
            rw [List.count_append, count_single, if_neg hne.symm, Nat.add_zero]
        · exact hfree

theorem release_ok (h : s.Steady) (k : ℕ) : ∃ s', s.release k = .ok s' ∧ s'.Steady := by
  cases hk : s.leaving[k]? with
  | none => exact ⟨s, by simp only [release, hk], h⟩
  | some q =>
      have hgood := h.good q
      have herase := count_eraseIdx hk
      have hpos := count_pos hk
      obtain ⟨r, hr⟩ : ∃ r, s.refs q = r + 1 := by
        apply Nat.exists_eq_add_one_of_ne_zero
        unfold refs
        omega
      rw [hr] at hgood
      have href : (s.service q).ref ≠ 0 := by
        rw [hgood.ref]
        omega
      obtain ⟨b, hq, _⟩ := hgood.kept (Nat.succ_pos r)
      unfold release
      simp only [hk, drop, if_neg href]
      refine ⟨_, rfl, ?_⟩
      apply h.change (h.born hq)
      · exact fun a _ => own_dropped q
      · intro a hne
        have ha := herase a
        rw [if_neg hne.symm] at ha
        rw [refs_dropped]
        simp only [refs]
        omega
      · exact fun a hne => dying_dropped_of_ne hne
      · exact fun a _ => dropping_dropped q
      · exact fun a hne => service_dropped_of_ne hne
      · exact total_dropped q
      · rw [own_dropped, dropping_dropped, dying_dropped_self, service_dropped_self]
        apply hgood.release.congr rfl _ rfl rfl rfl
        have ha := herase q
        rw [if_pos rfl] at ha
        rw [refs_dropped]
        simp only [refs] at hr ⊢
        omega

/-- The mailbox of a deleted context is handed to a worker to be freed. -/
theorem steady_mark {k : ℕ} {b : Mailbox μ} (h : s.Steady) (hk : s.dying[k]? = some q)
    (hq : (s.service q).queue = some b) {mq : List ℕ}
    (hself : mq.count q = s.globalmq.count q + if b.inGlobal then 0 else 1)
    (hother : ∀ a ≠ q, mq.count a = s.globalmq.count a) :
    ({ ({ s with dying := s.dying.eraseIdx k }.setQueue q { b with release := true }) with
      globalmq := mq } : Node μ).Steady := by
  have herase := count_eraseIdx hk
  have hgood := h.good q
  have hq1 := herase q
  rw [if_pos rfl] at hq1
  rw [← hq1] at hgood
  apply h.change (h.born hq)
  · intro a hne
    have ha := hother a hne
    simp only [own, setQueue, setService]
    omega
  · exact fun _ _ => rfl
  · intro a hne
    have ha := herase a
    rw [if_neg hne.symm] at ha
    exact ha
  · exact fun _ _ => rfl
  · exact fun a hne => service_setService_of_ne _ hne
  · rfl
  · apply (hgood.mark hq).congr
    · simp only [own, setQueue, setService]
      omega
    · rfl
    · rfl
    · rfl
    · exact service_setService_self _

theorem mark_ok (h : s.Steady) (k : ℕ) : ∃ s', s.mark k = .ok s' ∧ s'.Steady := by
  cases hk : s.dying[k]? with
  | none => exact ⟨s, by simp only [mark, hk], h⟩
  | some q =>
      have hgood := h.good q
      have hpos := count_pos hk
      obtain ⟨d, hd⟩ := Nat.exists_eq_add_one_of_ne_zero hpos.ne'
      rw [hd] at hgood
      obtain ⟨_, _, b, hq, hb⟩ := hgood.pending
      have hown := hgood.due_kept hq hb
      unfold mark
      have hkept : ¬ b.release = true := by simp [hb]
      simp only [hk, queue_ok hq, ok_bind, if_neg hkept]
      by_cases hglobal : b.inGlobal = true
      · rw [if_pos hglobal]
        exact ⟨_, rfl, steady_mark h hk hq (by simp [hglobal]) fun _ _ => rfl⟩
      · have hfree : s.globalmq.count q = 0 := by
          rw [if_neg hglobal] at hown
          unfold own at hown
          omega
        rw [if_neg hglobal, globalPush_ok]
        · refine ⟨_, rfl, steady_mark h hk hq ?_ ?_⟩
          · change (s.globalmq ++ [q]).count q = _
            rw [List.count_append, count_single, if_pos rfl, if_neg hglobal]
          · intro a hne
            change (s.globalmq ++ [q]).count a = _
            rw [List.count_append, count_single, if_neg hne.symm, Nat.add_zero]
        · exact hfree

/-! ## Runs -/

theorem become_self (s' : Node μ) (ht : s'.threads[i]? = some t) : s'.become i t = s' := by
  obtain ⟨hi, rfl⟩ := List.getElem?_eq_some_iff.mp ht
  rw [become, List.set_getElem_self]

/-- The thread `i` is about to use the context of `q` behind its release, and it was freed. -/
def Late (s : Node μ) (i q : ℕ) : Prop :=
  (s.threads[i]? = some (.starting q) ∨ s.threads[i]? = some (.logging q)) ∧ (s.service q).ref = 0

theorem work_ok (h : s.Steady) (weight : ℤ) (i : ℕ) (hlate : ∀ q, ¬ s.Late i q) :
    ∃ s', s.work weight i = .ok s' ∧ s'.Steady := by
  unfold work
  split
  case h_1 ht =>
    cases hmq : s.globalmq with
    | nil => exact ⟨s, rfl, h⟩
    | cons a rest => exact ⟨_, rfl, work_idle h ht hmq⟩
  case h_2 q ht =>
    obtain ⟨b, hq, hok⟩ := h.exists_queue ht (q := q) (by simp [Thread.owns])
    rw [hok, ok_bind]
    unfold grab
    by_cases hreg : (s.service q).registered = true
    · rw [if_pos hreg]
      exact ⟨_, rfl, work_holding_grab h ht hreg⟩
    · rw [if_neg hreg]
      exact ⟨_, rfl, work_holding_retired h ht⟩
  case h_3 q k n ht =>
    by_cases hkn : k < n
    · rw [if_pos hkn]
      obtain ⟨b, hq, hok⟩ := h.exists_queue ht (q := q) (by simp [Thread.owns])
      rw [hok, ok_bind]
      cases hpop : b.pop with
      | mk first b' =>
          cases first with
          | none => exact ⟨_, rfl, work_looping_empty h ht hq hpop⟩
          | some message => exact ⟨_, rfl, work_take _ h ht hq hpop rfl rfl rfl⟩
    · rw [if_neg hkn]
      exact ⟨_, rfl, h.become ht (fun _ => rfl) (fun _ => rfl) (fun _ => rfl) rfl rfl rfl rfl⟩
  case h_4 q k n message ht =>
    obtain ⟨b, hq, hok⟩ := h.exists_queue ht (q := q) (by simp [Thread.owns])
    have hrefs := Steady.grabs ht (q := q) (by simp [Thread.grabs])
    have href : (s.service q).ref ≠ 0 := by
      rw [(h.good q).ref]
      omega
    rw [hok, ok_bind, if_neg href]
    exact ⟨_, rfl, work_delivering h ht hq⟩
  case h_5 q ht =>
    cases hmq : s.globalmq with
    | nil => exact ⟨_, rfl, work_yielding_keep h ht⟩
    | cons nq rest => exact ⟨_, rfl, work_yielding_switch h ht hmq⟩
  case h_6 q nq ht =>
    obtain ⟨b, hq, hok⟩ := h.exists_queue ht (q := q) (by simp [Thread.owns])
    obtain ⟨hpush, hnext⟩ := work_push (q := q) (.holding nq) [q] h ht
      (fun a => by simp [Thread.owns, List.count_cons]; omega) (fun a => rfl) rfl
    rw [hok, ok_bind, hpush, ok_bind]
    exact ⟨_, rfl, hnext⟩
  case h_7 q ht =>
    rw [if_neg fun hzero => hlate q ⟨Or.inl ht, hzero⟩]
    exact ⟨_, rfl, h.become ht (fun _ => rfl) (fun _ => rfl) (fun _ => rfl) rfl rfl rfl rfl⟩
  case h_8 q ret ht =>
    obtain ⟨b, hq, hok⟩ := h.exists_queue ht (q := q) (by simp [Thread.owns])
    obtain ⟨hpush, hnext⟩ := work_push (q := q) (if ret then .logging q else .gone) [] h ht
      (fun a => by cases ret <;> rfl) (fun a => by cases ret <;> rfl) (by cases ret <;> rfl)
    rw [hok, ok_bind, hpush, ok_bind]
    rw [List.append_nil] at hnext
    exact ⟨_, rfl, hnext⟩
  case h_9 q ht =>
    rw [if_neg fun hzero => hlate q ⟨Or.inr ht, hzero⟩]
    exact ⟨_, rfl, h.become ht (fun _ => rfl) (fun _ => rfl) (fun _ => rfl) rfl rfl rfl rfl⟩
  case h_10 q ht => exact ⟨_, rfl, work_retiring h ht⟩
  case h_11 q worker ht =>
    obtain ⟨b, hq, hok⟩ := h.exists_queue ht (q := q) (by simp [Thread.owns])
    rw [hok, ok_bind]
    by_cases hb : b.release = true
    · rw [if_pos hb]
      exact ⟨_, rfl, work_releasing_drop h ht hq hb⟩
    · obtain ⟨hpush, hnext⟩ := work_push (q := q) (.after worker) [] h ht
        (fun a => by rw [owns_after]; rfl) (fun a => by rw [grabs_after]; rfl)
        (drops_after worker)
      rw [if_neg hb, hpush, ok_bind]
      rw [List.append_nil] at hnext
      exact ⟨_, rfl, hnext⟩
  case h_12 q worker ht =>
    obtain ⟨b, hq, hok⟩ := h.exists_queue ht (q := q) (by simp [Thread.owns])
    rw [hok, ok_bind]
    cases hpop : b.pop with
    | mk first b' =>
        cases first with
        | some message =>
            have hnext := work_take (.dropping q worker) h ht hq hpop rfl rfl rfl
            rw [become_self (s.take q b' message) ht] at hnext
            exact ⟨_, rfl, hnext⟩
        | none =>
            have hfree := (h.owns ht (q := q) (by simp [Thread.owns])).2.2
            have hnot : q ∉ s.globalmq.dropLast := fun hmem =>
              List.count_eq_zero.mp hfree (List.mem_of_mem_dropLast hmem)
            simp only [if_neg hnot]
            exact ⟨_, rfl, work_dropping_free h ht hq hpop⟩
  all_goals exact ⟨s, rfl, h⟩

theorem step_ok [Inhabited μ] (weight : ℕ → ℤ) (h : s.Steady) (e : Event μ)
    (hlate : ∀ i q, e = .work i → ¬ s.Late i q) : ∃ s', s.step weight e = .ok s' ∧ s'.Steady := by
  cases e with
  | create => exact ⟨_, rfl, steady_create h⟩
  | launched i => exact launched_ok h i true
  | failed i => exact launched_ok h i false
  | retire q => exact ⟨_, rfl, steady_retire h q⟩
  | grab q message =>
      simp only [step]
      cases hgrab : s.grab q with
      | some s' => exact ⟨_, rfl, steady_grab h hgrab message⟩
      | none => exact ⟨s, rfl, h⟩
  | push k => exact push_ok h k
  | release k => exact release_ok h k
  | mark k => exact mark_ok h k
  | work i => exact work_ok h (weight i) i fun q => hlate i q rfl

theorem step_late [Inhabited μ] (weight : ℕ → ℤ) (h : s.Late i q) :
    s.step weight (.work i) = .error .freed := by
  obtain ⟨ht | ht, hzero⟩ := h
  all_goals
    unfold step work
    simp only [ht, hzero, if_true]

theorem step_steady [Inhabited μ] {weight : ℕ → ℤ} {e : Event μ} {s' : Node μ} (h : s.Steady)
    (hstep : s.step weight e = .ok s') : s'.Steady := by
  by_cases hlate : ∃ i q, e = .work i ∧ s.Late i q
  · obtain ⟨i, q, rfl, hlate⟩ := hlate
    rw [step_late weight hlate] at hstep
    cases hstep
  · obtain ⟨s1, hok, h1⟩ := step_ok weight h e fun i q he hl => hlate ⟨i, q, he, hl⟩
    obtain rfl := Except.ok.inj (hok.symm.trans hstep)
    exact h1

theorem run_cons [Inhabited μ] (weight : ℕ → ℤ) (s : Node μ) (e : Event μ)
    (events : List (Event μ)) :
    s.run weight (e :: events) = s.step weight e >>= fun s' => s'.run weight events :=
  List.foldlM_cons

theorem run_steady [Inhabited μ] {weight : ℕ → ℤ} {events : List (Event μ)} {s' : Node μ}
    (h : s.Steady) (hrun : s.run weight events = .ok s') : s'.Steady := by
  induction events generalizing s with
  | nil =>
      obtain rfl := Except.ok.inj hrun
      exact h
  | cons e events ih =>
      rw [run_cons] at hrun
      cases hstep : s.step weight e with
      | error fault =>
          rw [hstep] at hrun
          cases hrun
      | ok s1 =>
          rw [hstep, ok_bind] at hrun
          exact ih (step_steady h hstep) hrun

theorem flatMap_idle (f : Thread μ → List ℕ) (hf : f .idle = []) (workers : ℕ) :
    (List.replicate workers (Thread.idle : Thread μ)).flatMap f = [] := by
  induction workers with
  | zero => rfl
  | succ n ih => rw [List.replicate_succ, List.flatMap_cons, hf, ih, List.append_nil]

theorem steady_init (workers : ℕ) : (init workers : Node μ).Steady := by
  constructor
  · intro q
    apply good_unborn.congr
    · simp only [own, init, flatMap_idle Thread.owns rfl, List.count_nil]
    · simp only [refs, init, flatMap_idle Thread.grabs rfl, List.count_nil, List.map_nil]
    · rfl
    · simp only [dropping, init, flatMap_idle Thread.drops rfl, List.count_nil]
    · rfl
  · exact fun _ _ => rfl

end Node

open Node

section

variable [Inhabited μ] {weight : ℕ → ℤ} {workers : ℕ} {events : List (Event μ)} {s : Node μ}

theorem steady_of_run (h : (init workers).run weight events = .ok s) : s.Steady :=
  run_steady (steady_init workers) h

/-- What was pushed into a mailbox comes out in that order, each message once; what has not come out
is in its ring, and a mailbox is only freed when nothing is left. -/
theorem mail_in_order (h : (init workers).run weight events = .ok s) (q : ℕ) :
    ∃ l, (s.service q).sent = (s.service q).taken ++ l ∧
      match (s.service q).queue with
      | some b => b.ring.Holds l
      | none => l = [] := by
  have hgood := (steady_of_run h).good q
  cases hq : (s.service q).queue with
  | some b =>
      obtain ⟨l, hl, hsent, _⟩ := hgood.mail b hq
      exact ⟨l, hsent, hl⟩
  | none => exact ⟨[], by rw [hgood.freed hq, List.append_nil], rfl⟩

omit [Inhabited μ] in
theorem sent_eq_taken (h : s.Steady) (q : ℕ) (hnowhere : s.own q = 0) :
    (s.service q).sent = (s.service q).taken := by
  have hgood := h.good q
  rw [hgood.owner, Service.due] at hnowhere
  cases hq : (s.service q).queue with
  | none => exact hgood.freed hq
  | some b =>
      obtain ⟨l, _, hsent, hempty⟩ := hgood.mail b hq
      rw [hq] at hnowhere
      have hglobal : b.inGlobal = false := by
        simp only [ite_eq_right_iff, one_ne_zero, imp_false, not_or, Bool.not_eq_true] at hnowhere
        exact hnowhere.1
      rw [hsent, hempty hglobal, List.append_nil]

/-- A mailbox is the business of one thread at most, and then it is not in the global queue, where
it is never twice. So no two workers run a service at the same time. And a mailbox with something in
it is somebody's business or in the global queue: no message waits where no worker will find it. -/
theorem one_at_a_time (h : (init workers).run weight events = .ok s) (q : ℕ) :
    (∀ (i j : ℕ) (t u : Thread μ), s.threads[i]? = some t → s.threads[j]? = some u →
      q ∈ t.owns → q ∈ u.owns → i = j ∧ q ∉ s.globalmq) ∧
    s.globalmq.count q ≤ 1 ∧
    ((s.service q).sent ≠ (s.service q).taken →
      q ∈ s.globalmq ∨ ∃ t ∈ s.threads, q ∈ t.owns) := by
  have hsteady := steady_of_run h
  have hle := (hsteady.good q).own_le
  refine ⟨?_, ?_, ?_⟩
  · intro i j t u ht hu hqt hqu
    have hpos : 0 < t.owns.count q := List.count_pos_iff.mpr hqt
    have hfree := (hsteady.owns ht hpos).2.2
    refine ⟨?_, List.count_eq_zero.mp hfree⟩
    by_contra hne
    -- without the first thread the second one still counts
    have hu' : (s.threads.set i .idle)[j]? = some u := by
      rwa [List.getElem?_set_ne hne]
    have hset := count_flatMap_set Thread.owns ht .idle q
    have hrest := le_count_flatMap Thread.owns hu' q
    have hposu : 0 < u.owns.count q := List.count_pos_iff.mpr hqu
    have hidle : (Thread.idle : Thread μ).owns.count q = 0 := rfl
    unfold own at hle
    omega
  · unfold own at hle
    omega
  · intro hne
    have hown : s.own q ≠ 0 := fun hzero => hne (sent_eq_taken hsteady q hzero)
    by_cases hmem : q ∈ s.globalmq
    · exact Or.inl hmem
    · have hzero := List.count_eq_zero.mpr hmem
      unfold own at hown
      have hthreads : 0 < (s.threads.flatMap Thread.owns).count q := by omega
      exact Or.inr (List.mem_flatMap.mp (List.count_pos_iff.mp hthreads))

end

/-- One worker, and a service that two messages were sent to, of which it has the first. -/
def twoMessages : List (Event ℕ) :=
  [.create, .launched 1, .work 1, .work 1, .work 1, .grab 0 7, .push 0, .grab 0 8, .push 0,
    .release 0, .work 0, .work 0, .work 0]

theorem mail_in_order_two : ∃ s, (init 1).run (fun _ => 0) twoMessages = .ok s ∧
    (s.service 0).taken = [7] ∧ ∃ l, (s.service 0).sent = (s.service 0).taken ++ l ∧
      match (s.service 0).queue with
      | some b => b.ring.Holds l
      | none => l = [] := by
  have hrun : (init 1).run (fun _ => 0) twoMessages = .ok _ := rfl
  exact ⟨_, hrun, rfl, mail_in_order hrun 0⟩

theorem one_at_a_time_two : ∃ s, (init 1).run (fun _ => 0) twoMessages = .ok s ∧
    s.globalmq.count 0 ≤ 1 ∧
      ((s.service 0).sent ≠ (s.service 0).taken →
        0 ∈ s.globalmq ∨ ∃ t ∈ s.threads, 0 ∈ t.owns) := by
  have hrun : (init 1).run (fun _ => 0) twoMessages = .ok _ := rfl
  exact ⟨_, hrun, (one_at_a_time hrun 0).2⟩

end Mailboxes

end GameServer
