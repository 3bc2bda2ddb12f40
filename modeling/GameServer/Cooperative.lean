import GameServer.Transition

/-!
# Cooperative coroutines

A coroutine reads and writes a shared state and gives up control at named places only; between two
places nothing else runs. A server answers requests by coroutines. Requests, resumptions and changes
from outside interleave in any order.

`Coroutine.Safe` is the logic of one coroutine. `inv` speaks about the state and the places where
coroutines wait; it has to hold whenever a coroutine gives up control, and may be assumed when
control comes back, by when others may have changed both. `Server.invariant` lifts it to all runs.
-/

namespace GameServer.Cooperative

open Transition

/-- Waiting at a place means: the rest of the coroutine starts there. -/
inductive Coroutine (σ τ α : Type)
  | done (a : α)
  | raise
  | read (k : σ → Coroutine σ τ α)
  | write (s : σ) (k : Coroutine σ τ α)
  | wait (place : τ) (k : Coroutine σ τ α)

namespace Coroutine

variable {σ τ α β : Type}

protected def bind : Coroutine σ τ α → (α → Coroutine σ τ β) → Coroutine σ τ β
  | .done a, f => f a
  | .raise, _ => .raise
  | .read k, f => .read fun s => (k s).bind f
  | .write s k, f => .write s (k.bind f)
  | .wait place k, f => .wait place (k.bind f)

instance : Monad (Coroutine σ τ) where
  pure := .done
  bind := Coroutine.bind

instance : MonadStateOf σ (Coroutine σ τ) where
  get := .read .done
  set s := .write s (.done ⟨⟩)
  modifyGet f := .read fun s => .write (f s).2 (.done (f s).1)

/-- Gives up control once. -/
protected def call (place : τ) : Coroutine σ τ Unit := .wait place (.done ())

protected def when (c : Prop) [Decidable c] (t : Coroutine σ τ Unit) : Coroutine σ τ Unit :=
  if c then t else pure ()

/-- Where a coroutine stops running. -/
inductive Stop (σ τ α : Type)
  | done (a : α)
  | raised
  | waits (place : τ) (k : Coroutine σ τ α)

/-- Runs a coroutine until it gives up control or ends. -/
def exec : Coroutine σ τ α → σ → σ × Stop σ τ α
  | .done a, s => (s, .done a)
  | .raise, s => (s, .raised)
  | .read k, s => (k s).exec s
  | .write s k, _ => k.exec s
  | .wait place k, s => (s, .waits place k)

theorem exec_pure (a : α) (s : σ) : (pure a : Coroutine σ τ α).exec s = (s, .done a) := rfl

theorem exec_raise (s : σ) : (raise : Coroutine σ τ α).exec s = (s, .raised) := rfl

theorem exec_get_bind (f : σ → Coroutine σ τ α) (s : σ) : (get >>= f).exec s = (f s).exec s := rfl

/-- The result where nothing else runs and every call is answered; `none` is an error. -/
def finish : Coroutine σ τ α → σ → Option (α × σ)
  | .done a, s => some (a, s)
  | .raise, _ => none
  | .read k, s => (k s).finish s
  | .write s k, _ => k.finish s
  | .wait _ k, s => k.finish s

theorem finish_bind (t : Coroutine σ τ α) (f : α → Coroutine σ τ β) (s : σ) :
    (t >>= f).finish s = (t.finish s).bind fun r => (f r.1).finish r.2 := by
  change (t.bind f).finish s = _
  induction t generalizing s with
  | done a => rfl
  | raise => rfl
  | read k ih => exact ih s s
  | write s' k ih => exact ih s'
  | wait place k ih => exact ih s

/-! ## The logic of a coroutine -/

section Safe

variable (inv : σ → Multiset τ → Prop) (ok : σ → Multiset τ → τ → Prop)

/-- The coroutine is safe from state `s` while the others wait at `m`, and ends in `Q`. `ok`
restricts the states in which a coroutine is resumed. -/
def Safe (Q : α → σ → Multiset τ → Prop) : Coroutine σ τ α → σ → Multiset τ → Prop
  | .done a, s, m => Q a s m
  | .raise, s, m => inv s m
  | .read k, s, m => (k s).Safe Q s m
  | .write s k, _, m => k.Safe Q s m
  | .wait place k, s, m => inv s (place ::ₘ m) ∧
      ∀ s' m', inv s' (place ::ₘ m') → ok s' m' place → k.Safe Q s' m'

variable {inv ok} {Q Q' : α → σ → Multiset τ → Prop} {R : β → σ → Multiset τ → Prop}
  {t : Coroutine σ τ α} {f : α → Coroutine σ τ β} {s : σ} {m : Multiset τ} {place : τ}

theorem safe_get {Q : σ → σ → Multiset τ → Prop} :
    (get : Coroutine σ τ σ).Safe inv ok Q s m ↔ Q s s m := Iff.rfl

theorem safe_set {s' : σ} {Q : PUnit → σ → Multiset τ → Prop} :
    (set s' : Coroutine σ τ PUnit).Safe inv ok Q s m ↔ Q ⟨⟩ s' m := Iff.rfl

theorem safe_modify {g : σ → σ} {Q : PUnit → σ → Multiset τ → Prop} :
    (modify g : Coroutine σ τ PUnit).Safe inv ok Q s m ↔ Q ⟨⟩ (g s) m := Iff.rfl

theorem safe_call {Q : Unit → σ → Multiset τ → Prop} :
    (Coroutine.call place : Coroutine σ τ Unit).Safe inv ok Q s m ↔ inv s (place ::ₘ m) ∧
      ∀ s' m', inv s' (place ::ₘ m') → ok s' m' place → Q () s' m' := Iff.rfl

theorem safe_bind :
    (t >>= f).Safe inv ok R s m ↔ t.Safe inv ok (fun a => (f a).Safe inv ok R) s m := by
  change (t.bind f).Safe inv ok R s m ↔ _
  induction t generalizing s m with
  | done a => exact Iff.rfl
  | raise => exact Iff.rfl
  | read k ih => exact ih s
  | write s' k ih => exact ih
  | wait place k ih =>
      exact and_congr_right fun _ => forall_congr' fun s' => forall_congr' fun m' =>
        forall_congr' fun _ => forall_congr' fun _ => ih

theorem Safe.mono (h : t.Safe inv ok Q s m) (hQ : ∀ a s m, Q a s m → Q' a s m) :
    t.Safe inv ok Q' s m := by
  induction t generalizing s m with
  | done a => exact hQ a s m h
  | raise => exact h
  | read k ih => exact ih s h
  | write s' k ih => exact ih h
  | wait place k ih => exact ⟨h.1, fun s' m' hinv hok => ih (h.2 s' m' hinv hok)⟩

/-- A loop: what holds before each round holds after the last. -/
theorem safe_forM {l : List α} {g : α → Coroutine σ τ PUnit} {P : σ → Multiset τ → Prop}
    (h : ∀ a ∈ l, ∀ s m, P s m → (g a).Safe inv ok (fun _ => P) s m) (hs : P s m) :
    (l.forM g).Safe inv ok (fun _ => P) s m := by
  induction l generalizing s m with
  | nil => exact hs
  | cons a l ih =>
      change (g a >>= fun _ => l.forM g).Safe inv ok (fun _ => P) s m
      rw [safe_bind]
      exact (h a List.mem_cons_self s m hs).mono fun _ s m hs =>
        ih (fun b hb => h b (List.mem_cons_of_mem _ hb)) hs

end Safe

/-! ## The results of a coroutine -/

section Yields

variable {t : Coroutine σ τ α} {f : α → Coroutine σ τ β}

/-- Every result of the coroutine has the property. -/
def Yields (Q : α → Prop) : Coroutine σ τ α → Prop
  | .done a => Q a
  | .raise => True
  | .read k => ∀ s, (k s).Yields Q
  | .write _ k => k.Yields Q
  | .wait _ k => k.Yields Q

theorem yields_pure {Q : α → Prop} {a : α} (h : Q a) : (pure a : Coroutine σ τ α).Yields Q := h

theorem Yields.bind {Q : α → Prop} {Q' : β → Prop} (ht : t.Yields Q)
    (hf : ∀ a, Q a → (f a).Yields Q') : (t >>= f).Yields Q' := by
  change (t.bind f).Yields Q'
  induction t with
  | done a => exact hf a ht
  | raise => trivial
  | read k ih => exact fun s => ih s (ht s)
  | write s k ih => exact ih ht
  | wait place k ih => exact ih ht

theorem Yields.mono {Q Q' : α → Prop} (ht : t.Yields Q) (h : ∀ a, Q a → Q' a) : t.Yields Q' := by
  induction t with
  | done a => exact h a ht
  | raise => trivial
  | read k ih => exact fun s => ih s (ht s)
  | write s k ih => exact ih ht
  | wait place k ih => exact ih ht

theorem yields_true (t : Coroutine σ τ α) : t.Yields fun _ => True := by
  induction t with
  | done a => trivial
  | raise => trivial
  | read k ih => exact fun s => ih s
  | write s k ih => exact ih
  | wait place k ih => exact ih

end Yields

/-! ## Coroutines that stay at some places -/

section Stays

variable (P : Set τ) (R : σ → σ → Prop) (E : Prop)

/-- From state `s` on, the coroutine waits at places of `P` only, each write changes the state by
`R`, and an error needs `E`. -/
def StaysFrom : Coroutine σ τ α → σ → Prop
  | .done _, _ => True
  | .raise, _ => E
  | .read k, s => (k s).StaysFrom s
  | .write s' k, s => R s s' ∧ k.StaysFrom s'
  | .wait p k, _ => p ∈ P ∧ ∀ s', k.StaysFrom s'

def Stays (t : Coroutine σ τ α) : Prop := ∀ s, t.StaysFrom P R E s

variable {P R E} {t : Coroutine σ τ α} {f : α → Coroutine σ τ β}

theorem StaysFrom.bind_yields {Q : α → Prop} {s : σ} (ht : t.StaysFrom P R E s) (hy : t.Yields Q)
    (hf : ∀ a, Q a → (f a).Stays P R E) : (t.bind f).StaysFrom P R E s := by
  induction t generalizing s with
  | done a => exact hf a hy s
  | raise => exact ht
  | read k ih => exact ih s ht (hy s)
  | write s' k ih => exact ⟨ht.1, ih ht.2 hy⟩
  | wait p k ih => exact ⟨ht.1, fun s' => ih (ht.2 s') hy⟩

theorem StaysFrom.bind {s : σ} (ht : t.StaysFrom P R E s) (hf : ∀ a, (f a).Stays P R E) :
    (t.bind f).StaysFrom P R E s := ht.bind_yields (yields_true t) fun a _ => hf a

theorem Stays.bind (ht : t.Stays P R E) (hf : ∀ a, (f a).Stays P R E) :
    (t >>= f).Stays P R E := fun s => (ht s).bind hf

theorem stays_pure (a : α) : (pure a : Coroutine σ τ α).Stays P R E := fun _ => trivial

theorem stays_raise (h : E) : (raise : Coroutine σ τ α).Stays P R E := fun _ => h

theorem stays_get_bind {f : σ → Coroutine σ τ β} (h : ∀ s, (f s).StaysFrom P R E s) :
    (get >>= f : Coroutine σ τ β).Stays P R E := h

theorem stays_call {place : τ} (h : place ∈ P) :
    (Coroutine.call place : Coroutine σ τ Unit).Stays P R E := fun _ => ⟨h, fun _ => trivial⟩

theorem stays_modify {g : σ → σ} (h : ∀ s, R s (g s)) :
    (modify g : Coroutine σ τ PUnit).Stays P R E := fun s => ⟨h s, trivial⟩

theorem stays_when {c : Prop} [Decidable c] {t : Coroutine σ τ Unit}
    (h : c → t.Stays P R E) : (Coroutine.when c t).Stays P R E := by
  unfold Coroutine.when
  split
  · next hc => exact h hc
  · exact stays_pure ()

theorem stays_forM {l : List α} {g : α → Coroutine σ τ PUnit} (h : ∀ a ∈ l, (g a).Stays P R E) :
    (l.forM g).Stays P R E := by
  induction l with
  | nil => exact stays_pure _
  | cons a l ih =>
      change (g a >>= fun _ => l.forM g).Stays P R E
      exact (h a List.mem_cons_self).bind fun _ => ih fun b hb => h b (List.mem_cons_of_mem a hb)

theorem StaysFrom.mono {P' : Set τ} {R' : σ → σ → Prop} {E' : Prop} {s : σ}
    (ht : t.StaysFrom P R E s) (hP : P ⊆ P') (hR : ∀ s s', R s s' → R' s s') (hE : E → E') :
    t.StaysFrom P' R' E' s := by
  induction t generalizing s with
  | done a => trivial
  | raise => exact hE ht
  | read k ih => exact ih s ht
  | write s' k ih => exact ⟨hR s s' ht.1, ih ht.2⟩
  | wait p k ih => exact ⟨hP ht.1, fun s' => ih (ht.2 s')⟩

theorem Stays.mono {P' : Set τ} {R' : σ → σ → Prop} {E' : Prop} (ht : t.Stays P R E)
    (hP : P ⊆ P') (hR : ∀ s s', R s s' → R' s s') (hE : E → E') : t.Stays P' R' E' :=
  fun s => (ht s).mono hP hR hE

/-- A coroutine that raises no error ends, in a state that its writes lead to. -/
theorem StaysFrom.finish {s : σ} (ht : t.StaysFrom P R False s) (hrefl : ∀ s, R s s)
    (htrans : ∀ s s' s'', R s s' → R s' s'' → R s s'') :
    ∃ a s', t.finish s = some (a, s') ∧ R s s' := by
  induction t generalizing s with
  | done a => exact ⟨a, s, rfl, hrefl s⟩
  | raise => exact ht.elim
  | read k ih => exact ih s ht
  | write s' k ih =>
      obtain ⟨a, u, hfinish, hu⟩ := ih ht.2
      exact ⟨a, u, hfinish, htrans s s' u ht.1 hu⟩
  | wait p k ih => exact ih (ht.2 s)

variable {inv : σ → Multiset τ → Prop} {ok : σ → Multiset τ → τ → Prop} {s : σ} {m : Multiset τ}

/-- A coroutine that stays at one place keeps what its writes keep. -/
theorem StaysFrom.safe {place : τ} (ht : t.StaysFrom {place} R E s)
    (hwrite : ∀ s s' m, R s s' → inv s (place ::ₘ m) → inv s' (place ::ₘ m))
    (hraise : E → ∀ s m, inv s (place ::ₘ m) → inv s m) (hs : inv s (place ::ₘ m)) :
    t.Safe inv ok (fun _ s m => inv s (place ::ₘ m)) s m := by
  induction t generalizing s m with
  | done a => exact hs
  | raise => exact hraise ht s m hs
  | read k ih => exact ih s ht hs
  | write s' k ih => exact ih ht.2 (hwrite s s' m ht.1 hs)
  | wait p k ih =>
      obtain ⟨rfl, hk⟩ := ht
      exact ⟨hs, fun s' m' hs' _ => ih (hk s') hs'⟩

/-- What follows a coroutine that stays at one place may assume the invariant again. -/
theorem Stays.then_safe {place : τ} {Q : β → σ → Multiset τ → Prop} (ht : t.Stays {place} R E)
    (hwrite : ∀ s s' m, R s s' → inv s (place ::ₘ m) → inv s' (place ::ₘ m))
    (hraise : E → ∀ s m, inv s (place ::ₘ m) → inv s m) (hs : inv s (place ::ₘ m))
    (hf : ∀ a s m, inv s (place ::ₘ m) → (f a).Safe inv ok Q s m) :
    (t >>= f).Safe inv ok Q s m :=
  safe_bind.mpr (((ht s).safe hwrite hraise hs).mono hf)

/-- A coroutine keeps an invariant that asks nothing of the places where it waits. -/
theorem StaysFrom.safe_apart (ht : t.StaysFrom P R E s)
    (hplace : ∀ p ∈ P, ∀ s m, inv s (p ::ₘ m) ↔ inv s m)
    (hwrite : ∀ s s' m, R s s' → inv s m → inv s' m) (hs : inv s m) :
    t.Safe inv ok (fun _ => inv) s m := by
  induction t generalizing s m with
  | done a => exact hs
  | raise => exact hs
  | read k ih => exact ih s ht hs
  | write s' k ih => exact ih ht.2 (hwrite s s' m ht.1 hs)
  | wait p k ih =>
      exact ⟨(hplace p ht.1 s m).mpr hs, fun s' m' hs' _ =>
        ih (ht.2 s') ((hplace p ht.1 s' m').mp hs')⟩

theorem Stays.then_safe_apart {Q : β → σ → Multiset τ → Prop} (ht : t.Stays P R E)
    (hplace : ∀ p ∈ P, ∀ s m, inv s (p ::ₘ m) ↔ inv s m)
    (hwrite : ∀ s s' m, R s s' → inv s m → inv s' m) (hs : inv s m)
    (hf : ∀ a s m, inv s m → (f a).Safe inv ok Q s m) : (t >>= f).Safe inv ok Q s m :=
  safe_bind.mpr (((ht s).safe_apart hplace hwrite hs).mono hf)

end Stays

end Coroutine

/-! ## Servers -/

/-- The shared state, and the coroutines that wait, each at its place. -/
structure Pool (σ τ : Type) where
  shared : σ
  live : List (τ × Coroutine σ τ Unit)

/-- `handle` answers a request; `outside` is a change that no coroutine makes. -/
structure Server (σ τ ι ε : Type) where
  handle : ι → Coroutine σ τ Unit
  outside : ε → σ → σ

inductive Label (ι ε : Type)
  | request (r : ι)
  | resume (k : ℕ)
  | outside (e : ε)

namespace Pool

variable {σ τ : Type}

def places (p : Pool σ τ) : Multiset τ := p.live.map Prod.fst

/-- A coroutine runs until it gives up control or ends. -/
def run (p : Pool σ τ) (t : Coroutine σ τ Unit) : Pool σ τ :=
  match t.exec p.shared with
  | (s, .waits place k) => ⟨s, p.live ++ [(place, k)]⟩
  | (s, _) => ⟨s, p.live⟩

end Pool

namespace Server

variable {σ τ ι ε : Type} (S : Server σ τ ι ε)

def step (p : Pool σ τ) : Label ι ε → Option (Pool σ τ)
  | .request r => some (p.run (S.handle r))
  | .resume k =>
    match p.live[k]? with
    | some (_, t) => some ({ p with live := p.live.eraseIdx k }.run t)
    | none => none
  | .outside e => some { p with shared := S.outside e p.shared }

def system (init : σ) : System (Pool σ τ) (Label ι ε) where
  init := ⟨init, []⟩
  step := S.step

/-- Conditions on the steps of a run: on the state and on where the others wait. -/
structure Guard (σ τ ι ε : Type) where
  request : σ → Multiset τ → ι → Prop
  resume : σ → Multiset τ → τ → Prop
  outside : σ → Multiset τ → ε → Prop

namespace Guard

variable (G : Guard σ τ ι ε)

def Admits (p : Pool σ τ) : Label ι ε → Prop
  | .request r => G.request p.shared p.places r
  | .resume k => ∀ w ∈ p.live[k]?,
      G.resume p.shared { p with live := p.live.eraseIdx k }.places w.1
  | .outside e => G.outside p.shared p.places e

/-- The steps of `G` from states in which `inv` holds. -/
def within (inv : σ → Multiset τ → Prop) : Guard σ τ ι ε where
  request s m r := G.request s m r ∧ inv s m
  resume s m place := G.resume s m place ∧ inv s (place ::ₘ m)
  outside s m e := G.outside s m e ∧ inv s m

instance [∀ s m r, Decidable (G.request s m r)] [∀ s m place, Decidable (G.resume s m place)]
    [∀ s m e, Decidable (G.outside s m e)] (p : Pool σ τ) (l : Label ι ε) :
    Decidable (G.Admits p l) := by
  cases l with
  | request r => exact inferInstanceAs (Decidable (G.request _ _ r))
  | resume k => exact inferInstanceAs (Decidable (∀ w ∈ p.live[k]?, _))
  | outside e => exact inferInstanceAs (Decidable (G.outside _ _ e))

end Guard

section Invariant

variable {S} {G : Guard σ τ ι ε} {inv : σ → Multiset τ → Prop} {p p' : Pool σ τ}

/-- The state of a pool in which every waiting coroutine is safe. -/
structure Sound (G : Guard σ τ ι ε) (inv : σ → Multiset τ → Prop) (p : Pool σ τ) : Prop where
  holds : inv p.shared p.places
  safe : ∀ w ∈ p.live, ∀ s m, inv s (w.1 ::ₘ m) → G.resume s m w.1 →
    w.2.Safe inv G.resume (fun _ => inv) s m

theorem Sound.run {t : Coroutine σ τ Unit}
    (hsafe : ∀ w ∈ p.live, ∀ s m, inv s (w.1 ::ₘ m) → G.resume s m w.1 →
      w.2.Safe inv G.resume (fun _ => inv) s m)
    (ht : t.Safe inv G.resume (fun _ => inv) p.shared p.places) : Sound G inv (p.run t) := by
  obtain ⟨s, live⟩ := p
  simp only [Pool.run]
  induction t generalizing s with
  | done a => exact ⟨ht, hsafe⟩
  | raise => exact ⟨ht, hsafe⟩
  | read k ih => exact ih s s hsafe ht
  | write s' k ih => exact ih s' hsafe ht
  | wait place k ih =>
      refine ⟨?_, fun w hw => ?_⟩
      · have hperm : (live ++ [(place, k)]).map Prod.fst = live.map Prod.fst ++ [place] := by simp
        have hm : (((live ++ [(place, k)]).map Prod.fst : List τ) : Multiset τ) =
            place ::ₘ ((live.map Prod.fst : List τ) : Multiset τ) := by
          rw [hperm, Multiset.cons_coe, Multiset.coe_eq_coe]
          exact List.perm_append_singleton place _
        change inv s (((live ++ [(place, k)]).map Prod.fst : List τ) : Multiset τ)
        rw [hm]
        exact ht.1
      · rcases List.mem_append.mp hw with hw | hw
        · exact hsafe w hw
        · obtain rfl := List.mem_singleton.mp hw
          exact ht.2

theorem places_eraseIdx {k : ℕ} {w : τ × Coroutine σ τ Unit} (hk : p.live[k]? = some w) :
    p.places = w.1 ::ₘ ({ p with live := p.live.eraseIdx k } : Pool σ τ).places := by
  obtain ⟨hlt, rfl⟩ := List.getElem?_eq_some_iff.mp hk
  have hperm := (List.getElem_cons_eraseIdx_perm hlt).map Prod.fst
  exact (Multiset.coe_eq_coe.mpr hperm).symm

theorem Sound.step
    (hrequest : ∀ s m r, inv s m → G.request s m r →
      (S.handle r).Safe inv G.resume (fun _ => inv) s m)
    (houtside : ∀ s m e, inv s m → G.outside s m e → inv (S.outside e s) m)
    (hp : Sound G inv p) {l : Label ι ε} (hok : G.Admits p l) (hs : S.step p l = some p') :
    Sound G inv p' := by
  cases l with
  | request r =>
      simp only [Server.step, Option.some.injEq] at hs
      exact hs ▸ .run hp.safe (hrequest _ _ r hp.holds hok)
  | resume k =>
      simp only [Server.step] at hs
      cases hk : p.live[k]? with
      | none => simp [hk] at hs
      | some w =>
          simp only [hk, Option.some.injEq] at hs
          have hmem : w ∈ p.live := List.mem_of_getElem? hk
          have hinv := hp.holds
          rw [places_eraseIdx hk] at hinv
          rw [← hs]
          refine .run (fun v hv => hp.safe v ((List.eraseIdx_sublist _ _).subset hv)) ?_
          exact hp.safe w hmem _ _ hinv (hok w hk)
  | outside e =>
      simp only [Server.step, Option.some.injEq] at hs
      exact hs ▸ ⟨houtside _ _ e hp.holds hok, hp.safe⟩

/-- When every request is answered safely, the invariant holds in every state of an admitted
run. -/
theorem invariant (I : σ → Multiset τ → Prop) {init : σ} (hinit : I init 0)
    (hrequest : ∀ s m r, I s m → G.request s m r →
      (S.handle r).Safe I G.resume (fun _ => I) s m)
    (houtside : ∀ s m e, I s m → G.outside s m e → I (S.outside e s) m)
    (h : (S.system init).Runs G.Admits p) : I p.shared p.places := by
  refine (System.Runs.invariant (P := Sound G I) ⟨hinit, fun w hw => ?_⟩ ?_ h).holds
  · exact absurd hw List.not_mem_nil
  · exact fun _ _ _ hp hok hs => hp.step hrequest houtside hok hs

/-- What holds in every state of the runs of `G` may be assumed at every step of such a run. -/
theorem runs_within {init : σ} (h : (S.system init).Runs G.Admits p)
    (hinv : ∀ q, (S.system init).Runs G.Admits q → inv q.shared q.places) :
    (S.system init).Runs (G.within inv).Admits p := by
  induction h with
  | init => exact .init
  | @step q q' l hq hok hs ih =>
      refine .step ih ?_ hs
      have hholds := hinv q hq
      cases l with
      | request r => exact ⟨hok, hholds⟩
      | resume k =>
          intro w hw
          rw [places_eraseIdx hw] at hholds
          exact ⟨hok w hw, hholds⟩
      | outside e => exact ⟨hok, hholds⟩

end Invariant

end Server

end GameServer.Cooperative
