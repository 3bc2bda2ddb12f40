import GameServer.MatchSearch

/-!
# Who is where in the match service

A player is listed, carried by a handler that is about to list it, or a member of a match on its
way. A player that runs out of time in `strict_list` is *pending*: it stays listed while its match
with robots is on its way, and is removed by a remembered index afterwards. `Sound` says that
nobody but a pending player is in two of these places.

With `full` a member counts until its match is delivered to everybody, and counts once; without it
a member counts until `nowInMatchers` is cleared for it, and robots may be in several matches.
-/

namespace GameServer.Match

/-- Players that a handler is about to list. -/
def Work.carried : Work → List Player
  | .monitor p | .watch p | .addtoStictlist p => [p]
  | _ => []

/-- Players whose match is on its way. -/
def Work.members (full : Bool) : Work → List Player
  | .addtoLooselist p | .uniqueservice p | .getPvpAIs p => [p]
  | .handleMatch t | .newservice t | .init _ t => t
  | .enter _ t i => if full then t else t.drop i
  | .enterPickHero _ t i => if full then t else t.drop (i + 1)
  | .send t _ | .sendRequest t _ => if full then t else []
  | _ => []

/-- The handler has given up control in this call. -/
def Work.Waits : Work → Prop
  | .addtoStictlist _ | .addtoLooselist _ | .handleMatch _ | .enter _ _ _ | .send _ _ => False
  | _ => True

def Loop.pending : Loop → List Player
  | .removeStrict _ _ p => [p]
  | _ => []

def Loop.looseRelist : Loop → List Player
  | .updateLooselist _ relist | .relistLoose relist => relist
  | _ => []

def Handler.carried (h : Handler) : List Player := (h.work.map Work.carried).getD []

def Handler.members (full : Bool) (h : Handler) : List Player :=
  (h.work.map (Work.members full)).getD []

def Handler.pending (h : Handler) : List Player := h.loop.pending

def Handler.Waits (h : Handler) : Prop := ∃ w, h.work = some w ∧ w.Waits

section Places

variable (full : Bool) (hs : List Handler)

def carriedBy : List Player := hs.flatMap Handler.carried

def membersOf : List Player := hs.flatMap (Handler.members full)

def pendingIn : List Player := hs.flatMap Handler.pending

end Places

/-- `keep` and `strict` are the lists, `flag` is `nowInMatchers`, `hs` are all handlers. -/
structure Sound (full : Bool) (keep strict : List Player) (flag : String → Bool)
    (hs : List Handler) : Prop where
  accounts : ((keep ++ strict).map (·.account)).Nodup
  carried : ((carriedBy hs).map (·.account)).Nodup
  carried_members : ∀ c ∈ carriedBy hs, ∀ m ∈ membersOf full hs, c.account ≠ m.account
  carried_queue : ∀ c ∈ carriedBy hs, ∀ p ∈ keep ++ strict, c.account ≠ p.account
  carried_pending : ∀ c ∈ carriedBy hs, c ∉ pendingIn hs
  members_queue : ∀ m ∈ membersOf full hs, ∀ p ∈ keep ++ strict, p ∉ pendingIn hs →
    m.account ≠ p.account
  flags : ∀ p ∈ keep ++ strict, p ∉ pendingIn hs → flag p.account = true
  keep_pending : ∀ p ∈ keep, p ∉ pendingIn hs
  searching : ∀ h ∈ hs, ∀ p, h.work = some (.addtoStictlist p) → flag p.account = true
  relists : ∀ h ∈ hs, h.loop.looseRelist = []
  single : full = true → ((membersOf full hs).map (·.account)).Nodup

namespace Sound

variable {full : Bool} {keep strict keep' strict' : List Player} {flag flag' : String → Bool}
  {hs hs' rest : List Handler} {h h' : Handler} {p : Player} {loop : Loop} {i j : ℕ}
  {relist : List Player}

theorem perm (hp : hs.Perm hs') (hsound : Sound full keep strict flag hs) :
    Sound full keep strict flag hs' := by
  have hcar : (carriedBy hs').Perm (carriedBy hs) := (hp.flatMap_right _).symm
  have hmem : ∀ {m}, m ∈ membersOf full hs' → m ∈ membersOf full hs := fun hm =>
    (hp.flatMap_right _).mem_iff.mpr hm
  have hpend : ∀ {q}, q ∉ pendingIn hs' ↔ q ∉ pendingIn hs := fun {q} =>
    not_congr (hp.flatMap_right Handler.pending).mem_iff.symm
  exact
    { accounts := hsound.accounts
      carried := (hcar.map _).nodup_iff.mpr hsound.carried
      carried_members := fun c hc m hm =>
        hsound.carried_members c (hcar.mem_iff.mp hc) m (hmem hm)
      carried_queue := fun c hc => hsound.carried_queue c (hcar.mem_iff.mp hc)
      carried_pending := fun c hc => hpend.mpr (hsound.carried_pending c (hcar.mem_iff.mp hc))
      members_queue := fun m hm q hq hqp => hsound.members_queue m (hmem hm) q hq (hpend.mp hqp)
      flags := fun q hq hqp => hsound.flags q hq (hpend.mp hqp)
      keep_pending := fun q hq => hpend.mpr (hsound.keep_pending q hq)
      searching := fun g hg => hsound.searching g (hp.mem_iff.mpr hg)
      relists := fun g hg => hsound.relists g (hp.mem_iff.mpr hg)
      single := fun hf => (((hp.flatMap_right _).map _).nodup_iff).mp (hsound.single hf) }

/-- Places may be left. A player may stop to be pending only when it is no longer listed. -/
theorem shrink (hsound : Sound full keep strict flag hs) (hkeep : keep'.Sublist keep)
    (hstrict : strict'.Sublist strict) (hcar : (carriedBy hs').Sublist (carriedBy hs))
    (hmem : (membersOf full hs').Sublist (membersOf full hs)) (hpend : pendingIn hs' ⊆ pendingIn hs)
    (hstay : ∀ q ∈ keep' ++ strict', q ∈ pendingIn hs → q ∈ pendingIn hs')
    (hflags : ∀ q ∈ keep' ++ strict', q ∉ pendingIn hs' → flag' q.account = true)
    (hsearching : ∀ g ∈ hs', ∀ q, g.work = some (.addtoStictlist q) → flag' q.account = true)
    (hrelists : ∀ g ∈ hs', g.loop.looseRelist = []) : Sound full keep' strict' flag' hs' := by
  have hsub : (keep' ++ strict').Sublist (keep ++ strict) := hkeep.append hstrict
  have hold : ∀ q ∈ keep' ++ strict', q ∉ pendingIn hs' → q ∉ pendingIn hs :=
    fun q hq hn hp => hn (hstay q hq hp)
  exact
    { accounts := hsound.accounts.sublist (hsub.map _)
      carried := hsound.carried.sublist (hcar.map _)
      carried_members := fun c hc m hm =>
        hsound.carried_members c (hcar.subset hc) m (hmem.subset hm)
      carried_queue := fun c hc q hq => hsound.carried_queue c (hcar.subset hc) q (hsub.subset hq)
      carried_pending := fun c hc hp => hsound.carried_pending c (hcar.subset hc) (hpend hp)
      members_queue := fun m hm q hq hn =>
        hsound.members_queue m (hmem.subset hm) q (hsub.subset hq) (hold q hq hn)
      flags := hflags
      keep_pending := fun q hq hp => hsound.keep_pending q (hkeep.subset hq) (hpend hp)
      searching := hsearching
      relists := hrelists
      single := fun hf => (hsound.single hf).sublist (hmem.map _) }

theorem queue_nodup (hsound : Sound full keep strict flag hs) : (keep ++ strict).Nodup :=
  hsound.accounts.of_map

theorem eq_of_account (hsound : Sound full keep strict flag hs) {a b : Player}
    (ha : a ∈ keep ++ strict) (hb : b ∈ keep ++ strict) (hab : a.account = b.account) : a = b :=
  List.inj_on_of_nodup_map hsound.accounts ha hb hab

theorem goOn (hsound : Sound full keep strict flag (h :: rest))
    (hcar : h'.carried.Sublist h.carried) (hmem : (h'.members full).Sublist (h.members full))
    (hpend : h'.pending = h.pending) (hloose : h'.loop.looseRelist = [])
    (hsearching : ∀ q, h'.work = some (.addtoStictlist q) → flag q.account = true) :
    Sound full keep strict flag (h' :: rest) := by
  have hsame : pendingIn (h' :: rest) = pendingIn (h :: rest) := by
    simp only [pendingIn, List.flatMap_cons, hpend]
  refine hsound.shrink (List.Sublist.refl _) (List.Sublist.refl _) (hcar.append_right _)
    (hmem.append_right _) (fun q hq => hsame ▸ hq) (fun q _ hq => hsame ▸ hq)
    (fun q hq hn => hsound.flags q hq (hsame ▸ hn)) (fun g hg q hq => ?_) (fun g hg => ?_)
  · rcases List.mem_cons.mp hg with rfl | hg
    · exact hsearching q hq
    · exact hsound.searching g (List.mem_cons_of_mem _ hg) q hq
  · rcases List.mem_cons.mp hg with rfl | hg
    · exact hloose
    · exact hsound.relists g (List.mem_cons_of_mem _ hg)

theorem enter (hsound : Sound full keep strict flag rest) (hcar : h.carried = [])
    (hmem : h.members full = []) (hpend : h.pending = []) (hloose : h.loop.looseRelist = [])
    (hsearching : ∀ q, h.work ≠ some (.addtoStictlist q)) :
    Sound full keep strict flag (h :: rest) := by
  have hcar' : carriedBy (h :: rest) = carriedBy rest := by
    simp only [carriedBy, List.flatMap_cons, hcar, List.nil_append]
  have hmem' : membersOf full (h :: rest) = membersOf full rest := by
    simp only [membersOf, List.flatMap_cons, hmem, List.nil_append]
  have hpend' : pendingIn (h :: rest) = pendingIn rest := by
    simp only [pendingIn, List.flatMap_cons, hpend, List.nil_append]
  refine hsound.shrink (List.Sublist.refl _) (List.Sublist.refl _) (hcar' ▸ List.Sublist.refl _)
    (hmem' ▸ List.Sublist.refl _) (hpend' ▸ List.Subset.refl _) (fun q _ hq => hpend' ▸ hq)
    (fun q hq hn => hsound.flags q hq (hpend' ▸ hn)) (fun g hg q hq => ?_) (fun g hg => ?_)
  · rcases List.mem_cons.mp hg with rfl | hg
    · exact absurd hq (hsearching q)
    · exact hsound.searching g hg q hq
  · rcases List.mem_cons.mp hg with rfl | hg
    · exact hloose
    · exact hsound.relists g hg

/-- A handler that ends; one that ends before its removal has nobody listed to remove. -/
theorem stop (hsound : Sound full keep strict flag (h :: rest))
    (hpend : ∀ q ∈ h.pending, q ∉ keep ++ strict) : Sound full keep strict flag rest := by
  have hstay : ∀ q ∈ keep ++ strict, q ∈ pendingIn (h :: rest) → q ∈ pendingIn rest :=
    fun q hq hp => (List.mem_append.mp hp).elim (fun hp => absurd hq (hpend q hp)) id
  refine hsound.shrink (List.Sublist.refl _) (List.Sublist.refl _) ?_ ?_ ?_ hstay ?_ ?_ ?_
  · exact List.sublist_append_right _ _
  · exact List.sublist_append_right _ _
  · exact List.subset_append_right _ _
  · exact fun q hq hn => hsound.flags q hq fun hp => hn (hstay q hq hp)
  · exact fun g hg => hsound.searching g (List.mem_cons_of_mem _ hg)
  · exact fun g hg => hsound.relists g (List.mem_cons_of_mem _ hg)

/-- An admission takes an account that no handler has. -/
theorem admission (hsound : Sound full keep strict flag (h :: rest)) (hcar : h.carried = [])
    (hcar' : h'.carried = [p]) (hmem : (h'.members full).Sublist (h.members full))
    (hloop : h'.loop = h.loop) (hsearching : ∀ q, h'.work ≠ some (.addtoStictlist q))
    (hflag : flag p.account = false)
    (hfresh : ∀ q ∈ carriedBy (h :: rest) ++ membersOf full (h :: rest) ++
      pendingIn (h :: rest), q.account ≠ p.account) :
    Sound full keep strict flag (h' :: rest) := by
  have hpend : pendingIn (h' :: rest) = pendingIn (h :: rest) := by
    simp only [pendingIn, List.flatMap_cons, Handler.pending, hloop]
  have hold : carriedBy (h' :: rest) = p :: carriedBy (h :: rest) := by
    simp only [carriedBy, List.flatMap_cons, hcar, hcar', List.nil_append, List.cons_append]
  have hmem' : (membersOf full (h' :: rest)).Sublist (membersOf full (h :: rest)) :=
    hmem.append_right _
  have hnotcar : ∀ q ∈ carriedBy (h :: rest), q.account ≠ p.account := fun q hq =>
    hfresh q (List.mem_append_left _ (List.mem_append_left _ hq))
  have hnotmem : ∀ q ∈ membersOf full (h :: rest), q.account ≠ p.account := fun q hq =>
    hfresh q (List.mem_append_left _ (List.mem_append_right _ hq))
  have hnotpend : ∀ q ∈ pendingIn (h :: rest), q.account ≠ p.account := fun q hq =>
    hfresh q (List.mem_append_right _ hq)
  exact
    { accounts := hsound.accounts
      carried := by
        rw [hold, List.map_cons]
        refine List.nodup_cons.mpr ⟨fun hmem => ?_, hsound.carried⟩
        obtain ⟨q, hq, he⟩ := List.mem_map.mp hmem
        exact hnotcar q hq he
      carried_members := fun c hc m hm => by
        rw [hold] at hc
        rcases List.mem_cons.mp hc with rfl | hc
        · exact (hnotmem m (hmem'.subset hm)).symm
        · exact hsound.carried_members c hc m (hmem'.subset hm)
      carried_queue := fun c hc q hq => by
        rw [hold] at hc
        rcases List.mem_cons.mp hc with rfl | hc
        · by_cases hqp : q ∈ pendingIn (h :: rest)
          · exact (hnotpend q hqp).symm
          · intro he
            have hq' := hsound.flags q hq hqp
            rw [← he, hflag] at hq'
            exact Bool.false_ne_true hq'
        · exact hsound.carried_queue c hc q hq
      carried_pending := fun c hc => by
        rw [hpend]
        rw [hold] at hc
        rcases List.mem_cons.mp hc with rfl | hc
        · exact fun hp => hnotpend c hp rfl
        · exact hsound.carried_pending c hc
      members_queue := fun m hm q hq hn =>
        hsound.members_queue m (hmem'.subset hm) q hq (hpend ▸ hn)
      flags := fun q hq hn => hsound.flags q hq (hpend ▸ hn)
      keep_pending := fun q hq => hpend ▸ hsound.keep_pending q hq
      searching := fun g hg q hq => by
        rcases List.mem_cons.mp hg with rfl | hg
        · exact absurd hq (hsearching q)
        · exact hsound.searching g (List.mem_cons_of_mem _ hg) q hq
      relists := fun g hg => by
        rcases List.mem_cons.mp hg with rfl | hg
        · rw [hloop]
          exact hsound.relists h List.mem_cons_self
        · exact hsound.relists g (List.mem_cons_of_mem _ hg)
      single := fun hf => (hsound.single hf).sublist (hmem'.map _) }

/-- `nowInMatchers` is set for a carried player. -/
theorem raise (hsound : Sound full keep strict flag hs) (a : String) :
    Sound full keep strict (Function.update flag a true) hs := by
  have hup : ∀ b, flag b = true → Function.update flag a true b = true := fun b hb => by
    by_cases hba : b = a
    · rw [hba, Function.update_self]
    · rw [Function.update_of_ne hba, hb]
  exact hsound.shrink (List.Sublist.refl _) (List.Sublist.refl _) (List.Sublist.refl _)
    (List.Sublist.refl _) (List.Subset.refl _) (fun _ _ hq => hq)
    (fun q hq hn => hup _ (hsound.flags q hq hn))
    (fun g hg q hq => hup _ (hsound.searching g hg q hq)) hsound.relists

theorem join (hsound : Sound full keep strict flag (h :: rest)) (hcar : h.carried = [p])
    (hcar' : h'.carried = []) (hmem : (h'.members full).Sublist (h.members full))
    (hloop : h'.loop = h.loop) (hflag : flag p.account = true)
    (hkeep : ∀ q, q ∈ keep' → q = p ∨ q ∈ keep)
    (hperm : (keep' ++ strict').Perm (p :: (keep ++ strict))) :
    Sound full keep' strict' flag (h' :: rest) := by
  have hpend : pendingIn (h' :: rest) = pendingIn (h :: rest) := by
    simp only [pendingIn, List.flatMap_cons, Handler.pending, hloop]
  have hold : carriedBy (h :: rest) = p :: carriedBy (h' :: rest) := by
    simp only [carriedBy, List.flatMap_cons, hcar, hcar', List.nil_append, List.cons_append]
  have hmem' : (membersOf full (h' :: rest)).Sublist (membersOf full (h :: rest)) :=
    hmem.append_right _
  have hp : p ∈ carriedBy (h :: rest) := hold ▸ List.mem_cons_self
  have hpn : p ∉ pendingIn (h :: rest) := hsound.carried_pending p hp
  have hcarnd := hsound.carried
  rw [hold, List.map_cons, List.nodup_cons] at hcarnd
  have hsub : ∀ c ∈ carriedBy (h' :: rest), c ∈ carriedBy (h :: rest) := fun c hc =>
    hold ▸ List.mem_cons_of_mem _ hc
  have hcp : ∀ c ∈ carriedBy (h' :: rest), c.account ≠ p.account := fun c hc he =>
    hcarnd.1 (he ▸ List.mem_map_of_mem hc)
  exact
    { accounts := by
        refine ((hperm.map _).nodup_iff).mpr (List.nodup_cons.mpr ⟨fun hmem => ?_,
          hsound.accounts⟩)
        obtain ⟨q, hq, he⟩ := List.mem_map.mp hmem
        exact hsound.carried_queue p hp q hq he.symm
      carried := hcarnd.2
      carried_members := fun c hc m hm => hsound.carried_members c (hsub c hc) m (hmem'.subset hm)
      carried_queue := fun c hc q hq => by
        rcases List.mem_cons.mp (hperm.mem_iff.mp hq) with rfl | hq
        · exact hcp c hc
        · exact hsound.carried_queue c (hsub c hc) q hq
      carried_pending := fun c hc => hpend ▸ hsound.carried_pending c (hsub c hc)
      members_queue := fun m hm q hq hn => by
        rcases List.mem_cons.mp (hperm.mem_iff.mp hq) with rfl | hq
        · exact (hsound.carried_members q hp m (hmem'.subset hm)).symm
        · exact hsound.members_queue m (hmem'.subset hm) q hq (hpend ▸ hn)
      flags := fun q hq hn => by
        rcases List.mem_cons.mp (hperm.mem_iff.mp hq) with rfl | hq
        · exact hflag
        · exact hsound.flags q hq (hpend ▸ hn)
      keep_pending := fun q hq => by
        rw [hpend]
        rcases hkeep q hq with rfl | hq
        · exact hpn
        · exact hsound.keep_pending q hq
      searching := fun g hg q hq => by
        rcases List.mem_cons.mp hg with rfl | hg
        · simp [Handler.carried, hq, Work.carried] at hcar'
        · exact hsound.searching g (List.mem_cons_of_mem _ hg) q hq
      relists := fun g hg => by
        rcases List.mem_cons.mp hg with rfl | hg
        · rw [hloop]
          exact hsound.relists h List.mem_cons_self
        · exact hsound.relists g (List.mem_cons_of_mem _ hg)
      single := fun hf => (hsound.single hf).sublist (hmem'.map _) }

/-- A handler takes a listed player that is not pending out of the lists and carries it. -/
theorem take (hsound : Sound full keep strict flag (h :: rest)) (hcar : h.carried = [])
    (hcar' : h'.carried = [p]) (hmem : (h'.members full).Sublist (h.members full))
    (hpend' : h'.pending = h.pending) (hloose : h'.loop.looseRelist = [])
    (hp : p ∈ keep ++ strict) (hpn : p ∉ pendingIn (h :: rest))
    (hkeep : keep'.Sublist keep) (hstrict : strict'.Sublist strict)
    (hgone : p ∉ keep' ++ strict') : Sound full keep' strict' flag (h' :: rest) := by
  have hpend : pendingIn (h' :: rest) = pendingIn (h :: rest) := by
    simp only [pendingIn, List.flatMap_cons, hpend']
  have hold : carriedBy (h' :: rest) = p :: carriedBy (h :: rest) := by
    simp only [carriedBy, List.flatMap_cons, hcar, hcar', List.nil_append, List.cons_append]
  have hmem' : (membersOf full (h' :: rest)).Sublist (membersOf full (h :: rest)) :=
    hmem.append_right _
  have hsub : (keep' ++ strict').Sublist (keep ++ strict) := hkeep.append hstrict
  have hflag := hsound.flags p hp hpn
  have hother : ∀ q ∈ keep' ++ strict', p.account ≠ q.account := fun q hq he => by
    have hpq := hsound.eq_of_account hp (hsub.subset hq) he
    exact hgone (hpq ▸ hq)
  exact
    { accounts := hsound.accounts.sublist (hsub.map _)
      carried := by
        rw [hold, List.map_cons]
        refine List.nodup_cons.mpr ⟨fun hmem => ?_, hsound.carried⟩
        obtain ⟨q, hq, he⟩ := List.mem_map.mp hmem
        exact hsound.carried_queue q hq p hp he
      carried_members := fun c hc m hm => by
        rw [hold] at hc
        rcases List.mem_cons.mp hc with rfl | hc
        · exact (hsound.members_queue m (hmem'.subset hm) c hp hpn).symm
        · exact hsound.carried_members c hc m (hmem'.subset hm)
      carried_queue := fun c hc q hq => by
        rw [hold] at hc
        rcases List.mem_cons.mp hc with rfl | hc
        · exact hother q hq
        · exact hsound.carried_queue c hc q (hsub.subset hq)
      carried_pending := fun c hc => by
        rw [hpend]
        rw [hold] at hc
        rcases List.mem_cons.mp hc with rfl | hc
        · exact hpn
        · exact hsound.carried_pending c hc
      members_queue := fun m hm q hq hn =>
        hsound.members_queue m (hmem'.subset hm) q (hsub.subset hq) (hpend ▸ hn)
      flags := fun q hq hn => hsound.flags q (hsub.subset hq) (hpend ▸ hn)
      keep_pending := fun q hq => hpend ▸ hsound.keep_pending q (hkeep.subset hq)
      searching := fun g hg q hq => by
        rcases List.mem_cons.mp hg with rfl | hg
        · have hqp : q = p := by simpa [Handler.carried, hq, Work.carried] using hcar'
          rw [hqp, hflag]
        · exact hsound.searching g (List.mem_cons_of_mem _ hg) q hq
      relists := fun g hg => by
        rcases List.mem_cons.mp hg with rfl | hg
        · exact hloose
        · exact hsound.relists g (List.mem_cons_of_mem _ hg)
      single := fun hf => (hsound.single hf).sublist (hmem'.map _) }

/-- A handler takes members for its match: nobody carried, and of the listed only pending ones. -/
theorem engage (hsound : Sound full keep strict flag (h :: rest)) (hkeep : keep'.Sublist keep)
    (hstrict : strict'.Sublist strict) (hcar : h'.carried.Sublist h.carried)
    (hmem : ∀ m ∈ h'.members full, m ∈ h.members full ∨
      (∀ c ∈ carriedBy (h' :: rest), c.account ≠ m.account) ∧
        ∀ q ∈ keep' ++ strict', q ∉ pendingIn (h' :: rest) → m.account ≠ q.account)
    (hpend : pendingIn (h :: rest) ⊆ pendingIn (h' :: rest))
    (hnew : ∀ q ∈ pendingIn (h' :: rest), q ∈ pendingIn (h :: rest) ∨
      q ∉ carriedBy (h' :: rest) ∧ q ∉ keep')
    (hsearching : ∀ q, h'.work ≠ some (.addtoStictlist q)) (hloose : h'.loop.looseRelist = [])
    (hsingle : full = true → ((membersOf full (h' :: rest)).map (·.account)).Nodup) :
    Sound full keep' strict' flag (h' :: rest) := by
  have hsub : (keep' ++ strict').Sublist (keep ++ strict) := hkeep.append hstrict
  have hcarsub : (carriedBy (h' :: rest)).Sublist (carriedBy (h :: rest)) := hcar.append_right _
  have hmem' : ∀ m ∈ membersOf full (h' :: rest), m ∈ membersOf full (h :: rest) ∨
      (∀ c ∈ carriedBy (h' :: rest), c.account ≠ m.account) ∧
        ∀ q ∈ keep' ++ strict', q ∉ pendingIn (h' :: rest) → m.account ≠ q.account :=
    fun m hm => (List.mem_append.mp hm).elim
      (fun hm => (hmem m hm).imp_left (List.mem_append_left _))
      (fun hm => .inl (List.mem_append_right _ hm))
  exact
    { accounts := hsound.accounts.sublist (hsub.map _)
      carried := hsound.carried.sublist (hcarsub.map _)
      carried_members := fun c hc m hm => by
        rcases hmem' m hm with hm | hm
        · exact hsound.carried_members c (hcarsub.subset hc) m hm
        · exact hm.1 c hc
      carried_queue := fun c hc q hq =>
        hsound.carried_queue c (hcarsub.subset hc) q (hsub.subset hq)
      carried_pending := fun c hc hcp => by
        rcases hnew c hcp with hold | ⟨hnot, -⟩
        · exact hsound.carried_pending c (hcarsub.subset hc) hold
        · exact hnot hc
      members_queue := fun m hm q hq hn => by
        rcases hmem' m hm with hm | hm
        · exact hsound.members_queue m hm q (hsub.subset hq) fun hp => hn (hpend hp)
        · exact hm.2 q hq hn
      flags := fun q hq hn => hsound.flags q (hsub.subset hq) fun hp => hn (hpend hp)
      keep_pending := fun q hq hqp => by
        rcases hnew q hqp with hold | ⟨-, hnot⟩
        · exact hsound.keep_pending q (hkeep.subset hq) hold
        · exact hnot hq
      searching := fun g hg q hq => by
        rcases List.mem_cons.mp hg with rfl | hg
        · exact absurd hq (hsearching q)
        · exact hsound.searching g (List.mem_cons_of_mem _ hg) q hq
      relists := fun g hg => by
        rcases List.mem_cons.mp hg with rfl | hg
        · exact hloose
        · exact hsound.relists g (List.mem_cons_of_mem _ hg)
      single := hsingle }

/-- A search that succeeds: the chosen ones leave the lists. -/
theorem form (hsound : Sound full keep strict flag (⟨some (.addtoStictlist p), loop⟩ :: rest))
    {order : List Player} (hnd : order.Nodup) (horder : ∀ v ∈ order, v ∈ keep ++ strict)
    (hfree : full = true → ∀ v ∈ order,
      v ∉ pendingIn (⟨some (.addtoStictlist p), loop⟩ :: rest)) :
    Sound full (keep.filter fun v => v ∉ order) (strict.filter fun v => v ∉ order) flag
      (⟨some (.handleMatch (order ++ [p])), loop⟩ :: rest) := by
  have hp : p ∈ carriedBy (⟨some (.addtoStictlist p), loop⟩ :: rest) := List.mem_cons_self
  have hcarnd := hsound.carried
  rw [show carriedBy (⟨some (.addtoStictlist p), loop⟩ :: rest) = p :: carriedBy rest from rfl,
    List.map_cons, List.nodup_cons] at hcarnd
  have hcar : ∀ c ∈ carriedBy rest, c ∈ carriedBy (⟨some (.addtoStictlist p), loop⟩ :: rest) :=
    fun c hc => List.mem_cons_of_mem _ hc
  have hsub : ((keep.filter fun v => v ∉ order) ++ strict.filter fun v => v ∉ order).Sublist
      (keep ++ strict) := List.filter_sublist.append List.filter_sublist
  refine hsound.engage List.filter_sublist List.filter_sublist (List.nil_sublist _)
    (fun m hm => .inr ?_) (List.Subset.refl _) (fun q hq => .inl hq) (by simp)
    (hsound.relists ⟨some (.addtoStictlist p), loop⟩ List.mem_cons_self) (fun hf => ?_)
  · have hm' : m ∈ order ++ [p] := hm
    rcases List.mem_append.mp hm' with hmo | hmp
    · refine ⟨fun c hc => hsound.carried_queue c (hcar c hc) m (horder m hmo), fun q hq _ he => ?_⟩
      have hqm := hsound.eq_of_account (horder m hmo) (hsub.subset hq) he
      rw [← hqm] at hq
      rcases List.mem_append.mp hq with hq | hq
      · exact of_decide_eq_true (List.mem_filter.mp hq).2 hmo
      · exact of_decide_eq_true (List.mem_filter.mp hq).2 hmo
    · obtain rfl := List.mem_singleton.mp hmp
      exact ⟨fun c hc he => hcarnd.1 (he ▸ List.mem_map_of_mem hc),
        fun q hq _ => hsound.carried_queue m hp q (hsub.subset hq)⟩
  · have hold : ((membersOf full rest).map (·.account)).Nodup := hsound.single hf
    have hchosen : (order.map (·.account)).Nodup :=
      hnd.map_on fun a ha b hb hab => hsound.eq_of_account (horder a ha) (horder b hb) hab
    change (((order ++ [p]) ++ membersOf full rest).map (·.account)).Nodup
    rw [List.map_append, List.map_append, List.nodup_append', List.nodup_append']
    refine ⟨⟨hchosen, List.nodup_singleton _, ?_⟩, hold, ?_⟩
    · intro x hx hx'
      obtain ⟨v, hv, rfl⟩ := List.mem_map.mp hx
      have he : v.account = p.account := List.mem_singleton.mp hx'
      exact hsound.carried_queue p hp v (horder v hv) he.symm
    · intro x hx hx'
      obtain ⟨m, hm, he⟩ := List.mem_map.mp hx'
      rcases List.mem_append.mp hx with hx | hx
      · obtain ⟨v, hv, rfl⟩ := List.mem_map.mp hx
        exact hsound.members_queue m hm v (horder v hv) (hfree hf v hv) he
      · have he' : x = p.account := List.mem_singleton.mp hx
        exact hsound.carried_members p hp m hm (he' ▸ he.symm)

/-- A listed player runs out of time and becomes pending. -/
theorem expire (hsound : Sound full keep strict flag (⟨none, .updateStictlist i relist⟩ :: rest))
    (hp : p ∈ strict)
    (hfree : full = true → p ∉ pendingIn (⟨none, .updateStictlist i relist⟩ :: rest)) :
    Sound full keep strict flag
      (⟨some (.addtoLooselist p), .removeStrict j relist p⟩ :: rest) := by
  have hmem : p ∈ keep ++ strict := List.mem_append_right _ hp
  have hkeep : p ∉ keep := fun hk => by
    have hnd := hsound.queue_nodup
    rw [List.nodup_append'] at hnd
    exact hnd.2.2 hk hp
  have hcar : p ∉ carriedBy rest := fun hc => hsound.carried_queue p hc p hmem rfl
  refine hsound.engage (List.Sublist.refl _) (List.Sublist.refl _) (List.Sublist.refl _)
    (fun m hm => .inr ?_) (fun q hq => List.mem_cons_of_mem _ hq) (fun q hq => ?_) (by simp) rfl
    (fun hf => ?_)
  · have hm' : m ∈ [p] := hm
    obtain rfl := List.mem_singleton.mp hm'
    refine ⟨fun c hc => hsound.carried_queue c hc m hmem, fun q hq hn he => ?_⟩
    have hqm := hsound.eq_of_account hmem hq he
    exact hn (hqm ▸ List.mem_cons_self)
  · rcases List.mem_cons.mp hq with rfl | hq
    · exact .inr ⟨hcar, hkeep⟩
    · exact .inl hq
  · have hold : ((membersOf full rest).map (·.account)).Nodup := hsound.single hf
    refine List.nodup_cons.mpr ⟨fun hx => ?_, hold⟩
    obtain ⟨m, hm, he⟩ := List.mem_map.mp hx
    exact hsound.members_queue m hm p hmem (hfree hf) he

theorem robots (hsound : Sound full keep strict flag (⟨some (.getPvpAIs p), loop⟩ :: rest))
    {AIs : List Player}
    (hfresh : ∀ m ∈ AIs, ∀ q ∈ carriedBy (⟨some (.getPvpAIs p), loop⟩ :: rest) ++ (keep ++ strict),
      q.account ≠ m.account)
    (honce : full = true → (AIs.map (·.account)).Nodup ∧ ∀ m ∈ AIs,
      ∀ q ∈ membersOf full (⟨some (.getPvpAIs p), loop⟩ :: rest), q.account ≠ m.account) :
    Sound full keep strict flag (⟨some (.handleMatch (AIs ++ [p])), loop⟩ :: rest) := by
  refine hsound.engage (List.Sublist.refl _) (List.Sublist.refl _) (List.Sublist.refl _)
    (fun m hm => ?_) (List.Subset.refl _) (fun q hq => .inl hq) (by simp)
    (hsound.relists ⟨some (.getPvpAIs p), loop⟩ List.mem_cons_self) (fun hf => ?_)
  · have hm' : m ∈ AIs ++ [p] := hm
    rcases List.mem_append.mp hm' with hm | hm
    · exact .inr ⟨fun c hc => hfresh m hm c (List.mem_append_left _ hc),
        fun q hq _ => (hfresh m hm q (List.mem_append_right _ hq)).symm⟩
    · exact .inl hm
  · obtain ⟨hnd, hother⟩ := honce hf
    have hold : (([p] ++ membersOf full rest).map (·.account)).Nodup := hsound.single hf
    change (((AIs ++ [p]) ++ membersOf full rest).map (·.account)).Nodup
    rw [List.append_assoc, List.map_append, List.nodup_append']
    refine ⟨hnd, hold, fun x hx hx' => ?_⟩
    obtain ⟨m, hm, rfl⟩ := List.mem_map.mp hx
    obtain ⟨q, hq, he⟩ := List.mem_map.mp hx'
    exact hother m hm q hq he

/-- `handleMatch` clears the flag of a member. -/
theorem release (hsound : Sound full keep strict flag (h :: rest)) {m : Player}
    (hm : m ∈ h.members full) (hcar : h'.carried = [])
    (hmem : (h'.members full).Sublist (h.members full)) (hloop : h'.loop = h.loop) :
    Sound full keep strict (Function.update flag m.account false) (h' :: rest) := by
  have hmall : m ∈ membersOf full (h :: rest) := List.mem_append_left _ hm
  have hpend : pendingIn (h' :: rest) = pendingIn (h :: rest) := by
    simp only [pendingIn, List.flatMap_cons, Handler.pending, hloop]
  have hcarsub : (carriedBy (h' :: rest)).Sublist (carriedBy (h :: rest)) := by
    simp only [carriedBy, List.flatMap_cons, hcar, List.nil_append]
    exact List.sublist_append_right _ _
  refine hsound.shrink (List.Sublist.refl _) (List.Sublist.refl _) hcarsub (hmem.append_right _)
    (fun q hq => hpend ▸ hq) (fun q _ hq => hpend ▸ hq) (fun q hq hn => ?_) (fun g hg q hq => ?_)
    (fun g hg => ?_)
  · have hqn : q ∉ pendingIn (h :: rest) := hpend ▸ hn
    rw [Function.update_of_ne (hsound.members_queue m hmall q hq hqn).symm]
    exact hsound.flags q hq hqn
  · have hqc : q ∈ carriedBy (h' :: rest) := by
      refine List.mem_flatMap.mpr ⟨g, hg, ?_⟩
      simp [Handler.carried, hq, Work.carried]
    rw [Function.update_of_ne (hsound.carried_members q (hcarsub.subset hqc) m hmall)]
    rcases List.mem_cons.mp hg with rfl | hg
    · simp [Handler.carried, hq, Work.carried] at hcar
    · exact hsound.searching g (List.mem_cons_of_mem _ hg) q hq
  · rcases List.mem_cons.mp hg with rfl | hg
    · rw [hloop]
      exact hsound.relists h List.mem_cons_self
    · exact hsound.relists g (List.mem_cons_of_mem _ hg)

/-- `removePlayerFromMatch` finds a player while no handler runs a search. -/
theorem withdraw (hsound : Sound full keep strict flag hs) (hkeep : keep'.Sublist keep)
    (hstrict : strict'.Sublist strict) (hp : p ∈ keep ++ strict) (hgone : p ∉ keep' ++ strict')
    (hidle : ∀ g ∈ hs, ∀ q, g.work = some (.addtoStictlist q) → q.account ≠ p.account) :
    Sound full keep' strict' (Function.update flag p.account false) hs := by
  have hsub : (keep' ++ strict').Sublist (keep ++ strict) := hkeep.append hstrict
  refine hsound.shrink hkeep hstrict (List.Sublist.refl _) (List.Sublist.refl _)
    (List.Subset.refl _) (fun _ _ hq => hq) (fun q hq hn => ?_) (fun g hg q hq => ?_)
    hsound.relists
  · have hne : q.account ≠ p.account := fun he => by
      have hqp := hsound.eq_of_account (hsub.subset hq) hp he
      exact hgone (hqp ▸ hq)
    rw [Function.update_of_ne hne]
    exact hsound.flags q (hsub.subset hq) hn
  · rw [Function.update_of_ne (hidle g hg q hq)]
    exact hsound.searching g hg q hq

/-- The remembered index removes the pending player of the handler, and nobody else. -/
theorem removed (hsound : Sound full keep strict flag (⟨none, .removeStrict i relist p⟩ :: rest))
    (hstrict : strict'.Sublist strict) (hgone : p ∉ strict') :
    Sound full keep strict' flag (⟨none, .updateStictlist i relist⟩ :: rest) := by
  have hstay : ∀ q ∈ keep ++ strict', q ∈ pendingIn (⟨none, .removeStrict i relist p⟩ :: rest) →
      q ∈ pendingIn (⟨none, .updateStictlist i relist⟩ :: rest) := fun q hq hqp => by
    rcases List.mem_cons.mp hqp with rfl | hqp
    · rcases List.mem_append.mp hq with hk | hs
      · exact absurd List.mem_cons_self (hsound.keep_pending q hk)
      · exact absurd hs hgone
    · exact hqp
  refine hsound.shrink (List.Sublist.refl _) hstrict (List.Sublist.refl _) (List.Sublist.refl _)
    (List.subset_cons_self _ _) hstay (fun q hq hn => ?_) (fun g hg q hq => ?_) (fun g hg => ?_)
  · exact hsound.flags q (((List.Sublist.refl _).append hstrict).subset hq)
      fun hqp => hn (hstay q hq hqp)
  · rcases List.mem_cons.mp hg with rfl | hg
    · simp at hq
    · exact hsound.searching g (List.mem_cons_of_mem _ hg) q hq
  · rcases List.mem_cons.mp hg with rfl | hg
    · rfl
    · exact hsound.relists g (List.mem_cons_of_mem _ hg)

end Sound

end GameServer.Match
