import GameServer.Sweep
import GameServer.Targets

/-!
# Chain bullets

The links of one cast are fly objects with a parent each. A link acts once, when its flight is over:
it looks for a next target, makes the next link or marks itself and all before it dead, and has its
effect. Links are numbered in the order of their making, so the parent of a link is the one before
it; the list of the entity manager holds them among the other entities. A number of infinite size is
`none`.
-/

namespace GameServer.ChainBullet

open Plane (Vector3 Root)
open Sweep (Loop)
open Targets (Objects isKind)

/-- `range` and `maximum` are the second and the third entry of `szAffectRange`. -/
structure SkillData (K : Type) where
  n32AffectTargetType : ℤ
  range : K
  maximum : ℤ
  moveSpeed : K

structure Link (E K : Type) where
  target : E
  linkIndex : ℤ
  flyTime : Option K
  lifeTime : ℤ
  isDead : Bool

/-- The link with the time that is left of its flight. -/
def Link.fly {E K : Type} (left : Option K) (self : Link E K) : Link E K :=
  { self with flyTime := left }

/-- A search for a next target: the world, the other entities of the list, the targets of the chain
and the last of them. -/
structure Search (E K : Type) where
  view : Objects E K
  entities : List E
  hit : List E
  target : E

/-- The world of the other entities: what is read of it, what the update of another entity and the
effect on a target do to it and add to the list, and which entities are removed after their
update. -/
structure Env (E K W : Type) where
  view : W → Objects E K
  act : E → W → W × List E
  effect : E → W → W × List E
  removed : E → W → Bool

/-- `hits` and `searches` are history: the targets that had the effect, and the searches so far. -/
structure State (E K W : Type) where
  world : W
  links : List (Link E K)
  hits : List E
  searches : List (Search E K)

section Code

variable {E K W : Type} [DecidableEq E] [Field K] [LinearOrder K] (root : Root K)
  (env : Env E K W) (skilldata : SkillData K) (caster : E)

def isInParentLinkTarget (links : List (Link E K)) (tgt : E) : ℕ → Bool
  | 0 => (links[0]?).any fun link => link.target = tgt
  | n + 1 =>
      ((links[n + 1]?).any fun link => link.target = tgt) || isInParentLinkTarget links tgt n

def deadParentLink : ℕ → List (Link E K) → List (Link E K)
  | 0, links => links.modify 0 fun link => { link with isDead := true }
  | n + 1, links =>
      deadParentLink n (links.modify (n + 1) fun link => { link with isDead := true })

local instance thousand_atLeastTwo : Nat.AtLeastTwo 1000 := inferInstance

/-- A speed of 0 gives an infinite time, or at no distance none at all. -/
def flyTime (dis : K) : Option K :=
  if skilldata.moveSpeed = -1 then some 0
  else if skilldata.moveSpeed = 0 ∧ dis ≠ 0 then none
  else some (dis * 1000 / skilldata.moveSpeed)

/-- The test of camp and life; `and` binds before `or`. -/
def fits (o : Objects E K) (v : E) : Bool :=
  (skilldata.n32AffectTargetType = 3 ∧ isKind o caster v = false) ∨
    (skilldata.n32AffectTargetType ≤ 2 ∧ isKind o caster v = true ∧
      o.serverId caster ≠ o.serverId v) ∧ o.getHp v > 0

/-- The test for the next target, apart from the chain. -/
def inReach (o : Objects E K) (target v : E) : Bool :=
  o.getType v ≠ .transform ∧ fits skilldata caster o v = true ∧
    skilldata.range ≥ Vector3.len root (o.pos target) (o.pos v)

/-- The entities of the list that are none of the links. -/
def entities (entityList : List (E ⊕ ℕ)) : List E := entityList.filterMap Sum.getLeft?

/-- The loop from the end of the list to the first one that passes. -/
def nextTarget (o : Objects E K) (entityList : List (E ⊕ ℕ)) (links : List (Link E K)) (n : ℕ)
    (target : E) : Option E :=
  (entities entityList).reverse.find? fun v =>
    inReach root skilldata caster o target v && !isInParentLinkTarget links v n

/-- The link for a new target, from the place of the one before. -/
def create (o : Objects E K) (src : E) (linkIndex : ℤ) (tgt : E) : Link E K where
  target := tgt
  linkIndex := linkIndex
  flyTime := flyTime skilldata (Vector3.len root (o.pos src) (o.pos tgt))
  lifeTime := 1
  isDead := false

/-- `self.flyTime >= 0` -/
def inFlight (flyTime : Option K) : Bool :=
  match flyTime with
  | none => true
  | some time => time ≥ 0

/-- What `updateLink` does when the link acts. -/
def trigger (link : Link E K) (n : ℕ) (s : State E K W) (entityList : List (E ⊕ ℕ)) :
    State E K W × List (E ⊕ ℕ) :=
  let o := env.view s.world
  let looks := decide (link.linkIndex < skilldata.maximum)
  let tgt :=
    if looks = true then nextTarget root skilldata caster o entityList s.links n link.target
    else none
  let searches := if looks = true then
      s.searches ++ [⟨o, entities entityList, s.links.map Link.target, link.target⟩]
    else s.searches
  let links := s.links.modify n fun link => { link with lifeTime := -1 }
  let next := match tgt with
    | some v =>
        (links ++ [create root skilldata o link.target (link.linkIndex + 1) v],
          [Sum.inr links.length])
    | none => (deadParentLink n links, [])
  let r := env.effect link.target s.world
  (⟨r.1, next.1, s.hits ++ [link.target], searches⟩, next.2 ++ r.2.map .inl)

def updateLink (dt : K) (n : ℕ) (s : State E K W) (entityList : List (E ⊕ ℕ)) :
    State E K W × List (E ⊕ ℕ) :=
  match s.links[n]? with
  | none => (s, [])
  | some link =>
      let left := link.flyTime.map fun time => time - dt
      let s := { s with links := s.links.modify n (Link.fly left) }
      if inFlight left = true then (s, [])
      else if link.lifeTime ≤ 0 then (s, [])
      else trigger root env skilldata caster link n s entityList

/-- The loop of the entity manager. -/
def manager (dt : K) : Loop (E ⊕ ℕ) (State E K W) where
  body
    | .inl e, s, _ =>
        let r := env.act e s.world
        ({ s with world := r.1 }, r.2.map .inl)
    | .inr n, s, entityList => updateLink root env skilldata caster dt n s entityList
  removed
    | .inl e, s => env.removed e s.world
    | .inr n, s => (s.links[n]?).any Link.isDead

/-- The chain with the list of the entity manager. -/
structure Game (E K W : Type) where
  state : State E K W
  entityList : List (E ⊕ ℕ)

/-- What happens between the ticks may change the world and add entities. -/
inductive Event (E K W : Type)
  | tick (dt : K)
  | other (world : W) (added : List E)

def step (g : Game E K W) : Event E K W → Game E K W
  | .tick dt =>
      let ran := (manager root env skilldata caster dt).sweep g.entityList.length g.state
        g.entityList
      ⟨ran.state, ran.list⟩
  | .other world added => ⟨{ g.state with world := world }, g.entityList ++ added.map .inl⟩

/-- The game after the cast at a target. -/
def cast (world : W) (list : List E) (target : E) : Game E K W where
  state :=
    { world := world
      links := [create root skilldata (env.view world) caster 1 target]
      hits := []
      searches := [] }
  entityList := list.map .inl ++ [.inr 0]

def run (g : Game E K W) (events : List (Event E K W)) : Game E K W :=
  events.foldl (step root env skilldata caster) g

/-! ## What a chain should do -/

/-- The test of a search. -/
def Search.passes (search : Search E K) (v : E) : Bool :=
  inReach root skilldata caster search.view search.target v && decide (v ∉ search.hit)

/-- What it chooses: the first from the end of the list. -/
def Search.chosen (search : Search E K) : Option E :=
  search.entities.reverse.find? (search.passes root skilldata caster)

/-- The targets are distinct, and so are those that had the effect; the later ones are what the
searches chose, each of them alive and within the range of the one before; and while the last link
is not still to act, every link is dead and none is in the list. -/
structure Chained (target : E) (g : Game E K W) : Prop where
  distinct : (g.state.links.map Link.target).Nodup
  hits_distinct : g.state.hits.Nodup
  hits_subset : g.state.hits ⊆ g.state.links.map Link.target
  at_most : (g.state.links.length : ℤ) ≤ skilldata.maximum
  later : g.state.links.map Link.target =
    target :: g.state.searches.filterMap (Search.chosen root skilldata caster)
  near : ∀ search ∈ g.state.searches, ∀ v, search.chosen root skilldata caster = some v →
    Vector3.len root (search.view.pos search.target) (search.view.pos v) ≤ skilldata.range
  alive : ∀ search ∈ g.state.searches, ∀ v, search.chosen root skilldata caster = some v →
    0 < search.view.getHp v
  released : (∃ link, g.state.links.getLast? = some link ∧ 0 < link.lifeTime) ∨
    (∀ link ∈ g.state.links, link.isDead = true) ∧ ∀ n, Sum.inr n ∉ g.entityList

/-- Of the enemies in range that the chain has not hit, the last one in the list is alive. -/
def LastLives (search : Search E K) : Prop :=
  skilldata.n32AffectTargetType = 3 →
    ∀ front v, search.entities.filter (search.passes root skilldata caster) = front ++ [v] →
      0 < search.view.getHp v

end Code

/-! ## Links and numbers -/

section Links

variable {E K : Type} [DecidableEq E]

theorem isInParentLinkTarget_iff {links : List (Link E K)} {tgt : E} (n : ℕ) :
    isInParentLinkTarget links tgt n = true ↔
      ∃ m ≤ n, ∃ link, links[m]? = some link ∧ link.target = tgt := by
  induction n with
  | zero =>
      rw [isInParentLinkTarget, Option.any_eq_true]
      simp
  | succ n ih =>
      rw [isInParentLinkTarget, Bool.or_eq_true, ih, Option.any_eq_true]
      constructor
      · rintro (⟨link, hlink, htarget⟩ | ⟨m, hm, hlink⟩)
        · exact ⟨n + 1, le_rfl, link, hlink, of_decide_eq_true htarget⟩
        · exact ⟨m, hm.trans (Nat.le_succ n), hlink⟩
      · rintro ⟨m, hm, link, hlink, htarget⟩
        obtain hlt | rfl := hm.lt_or_eq
        · exact .inr ⟨m, Nat.le_of_lt_succ hlt, link, hlink, htarget⟩
        · exact .inl ⟨link, hlink, decide_eq_true htarget⟩

/-- From the last link on every target of the chain is found. -/
theorem isInParentLinkTarget_last {links : List (Link E K)} {tgt : E} {n : ℕ}
    (hn : n + 1 = links.length) :
    isInParentLinkTarget links tgt n = decide (tgt ∈ links.map Link.target) := by
  rw [Bool.eq_iff_iff, isInParentLinkTarget_iff, decide_eq_true_eq, List.mem_map]
  constructor
  · rintro ⟨m, -, link, hlink, htarget⟩
    exact ⟨link, List.mem_of_getElem? hlink, htarget⟩
  · rintro ⟨link, hmem, htarget⟩
    obtain ⟨m, hlink⟩ := List.mem_iff_getElem?.mp hmem
    have hm := (List.getElem?_eq_some_iff.mp hlink).1
    exact ⟨m, by omega, link, hlink, htarget⟩

end Links

section Numbers

variable {E K α β : Type}

theorem map_modify {g : α → β} {f : α → α} (h : ∀ a, g (f a) = g a) (n : ℕ) (l : List α) :
    (l.modify n f).map g = l.map g := by
  refine List.ext_getElem? fun m => ?_
  rw [List.getElem?_map, List.getElem?_map, List.getElem?_modify, Option.map_eq_map,
    Option.map_map]
  refine Option.map_congr fun a _ => ?_
  rw [Function.comp_apply, apply_ite g, h, ite_self]

theorem modify_last (f : α → α) (l : List α) (a : α) :
    (l ++ [a]).modify l.length f = l ++ [f a] := by
  induction l with
  | nil => rfl
  | cons b rest ih => exact congrArg (b :: ·) ih

theorem deadParentLink_fields {g : Link E K → β}
    (h : ∀ link, g { link with isDead := true } = g link) (n : ℕ) (links : List (Link E K)) :
    (deadParentLink n links).map g = links.map g := by
  induction n generalizing links with
  | zero => exact map_modify h 0 links
  | succ n ih => exact (ih _).trans (map_modify h (n + 1) links)

theorem getElem?_deadParentLink (n m : ℕ) (links : List (Link E K)) :
    (deadParentLink n links)[m]? =
      (links[m]?).map fun link => if m ≤ n then { link with isDead := true } else link := by
  induction n generalizing links with
  | zero =>
      rw [deadParentLink, List.getElem?_modify]
      refine Option.map_congr fun link _ => ?_
      simp only [Nat.le_zero, eq_comm]
  | succ n ih =>
      rw [deadParentLink, ih, List.getElem?_modify, Option.map_eq_map, Option.map_map]
      refine Option.map_congr fun link _ => ?_
      rw [Function.comp_apply]
      by_cases hm : m ≤ n
      · have hne : n + 1 ≠ m := by omega
        rw [if_pos hm, if_neg hne, if_pos (hm.trans (Nat.le_succ n))]
      · by_cases heq : n + 1 = m
        · rw [if_neg hm, if_pos heq, if_pos heq.ge]
        · have hlt : ¬ m ≤ n + 1 := by omega
          rw [if_neg hm, if_neg heq, if_neg hlt]

theorem dead_deadParentLink {n : ℕ} {links : List (Link E K)} (hn : n + 1 = links.length) :
    ∀ link ∈ deadParentLink n links, link.isDead = true := by
  intro link hmem
  obtain ⟨m, hm⟩ := List.mem_iff_getElem?.mp hmem
  rw [getElem?_deadParentLink] at hm
  obtain ⟨old, hold, rfl⟩ := Option.map_eq_some_iff.mp hm
  have hlt := (List.getElem?_eq_some_iff.mp hold).1
  rw [if_pos (by omega)]

/-- The numbers of the links in the list. -/
def numbers (l : List (E ⊕ ℕ)) : List ℕ := l.filterMap Sum.getRight?

theorem numbers_append (l l' : List (E ⊕ ℕ)) : numbers (l ++ l') = numbers l ++ numbers l' :=
  List.filterMap_append

theorem numbers_inl (l : List E) : numbers (l.map (Sum.inl : E → E ⊕ ℕ)) = [] := by
  induction l with
  | nil => rfl
  | cons e rest ih => exact ih

theorem mem_numbers {n : ℕ} {l : List (E ⊕ ℕ)} : n ∈ numbers l ↔ Sum.inr n ∈ l := by
  rw [numbers, List.mem_filterMap]
  constructor
  · rintro ⟨v, hv, hn⟩
    rwa [← Sum.getRight?_eq_some_iff.mp hn]
  · exact fun h => ⟨.inr n, h, rfl⟩

theorem numbers_split {i : ℕ} {v : E ⊕ ℕ} {l : List (E ⊕ ℕ)} (hv : l[i]? = some v) :
    numbers l = numbers (l.take i) ++ (numbers [v] ++ numbers (l.drop (i + 1))) := by
  obtain ⟨hi, hget⟩ := List.getElem?_eq_some_iff.mp hv
  conv_lhs => rw [← List.take_append_drop i l, List.drop_eq_getElem_cons hi, hget]
  rw [← numbers_append, ← numbers_append]
  rfl

variable {σ : Type} {L : Loop (E ⊕ ℕ) σ} {i : ℕ} {v : E ⊕ ℕ} {s : σ} {l : List (E ⊕ ℕ)}

theorem numbers_next (hv : l[i]? = some v) :
    numbers (L.next i v s l) = numbers (l.take i) ++
      (numbers (if L.removed v (L.body v s l).1 = true then [] else [v]) ++
        numbers (l.drop (i + 1)) ++ numbers (L.body v s l).2) := by
  rw [Loop.next_eq hv, numbers_append, numbers_append, numbers_append]

theorem numbers_next_drop (hv : l[i]? = some v) :
    numbers ((L.next i v s l).drop i) =
      numbers (if L.removed v (L.body v s l).1 = true then [] else [v]) ++
        numbers (l.drop (i + 1)) ++ numbers (L.body v s l).2 := by
  have hlen : (l.take i).length = i := by
    rw [List.length_take]
    exact min_eq_left (List.getElem?_eq_some_iff.mp hv).1.le
  rw [Loop.next_eq hv, List.drop_left' hlen, numbers_append, numbers_append]

end Numbers

/-! ## Two phases -/

section Phases

variable {E K W : Type} {s s' : State E K W} {l l' : List (E ⊕ ℕ)} {i j n : ℕ}

/-- The last link is still to act, and every link is in the list. -/
structure Flying (s : State E K W) (l : List (E ⊕ ℕ)) : Prop where
  numbered : numbers l = List.range s.links.length
  living : ∀ d ∈ s.links.map Link.isDead, d = false
  last : ∃ t, (s.links.map Link.lifeTime).getLast? = some t ∧ 0 < t
  hits : s.hits = (s.links.map Link.target).dropLast

/-- Every link has acted and is dead, and none is in the list from the index on. -/
structure Over (i : ℕ) (s : State E K W) (l : List (E ⊕ ℕ)) : Prop where
  numbered : ∀ n ∈ numbers l, n < s.links.length
  gone : numbers (l.drop i) = []
  dead : ∀ d ∈ s.links.map Link.isDead, d = true
  acted : ∀ t ∈ s.links.map Link.lifeTime, t ≤ 0
  hits : s.hits = s.links.map Link.target

def Phase (i : ℕ) (s : State E K W) (l : List (E ⊕ ℕ)) : Prop := Flying s l ∨ Over i s l

/-- The links are the same but for the times of their flights, and so is the history. -/
structure Alike (s s' : State E K W) : Prop where
  length : s'.links.length = s.links.length
  index : s'.links.map Link.linkIndex = s.links.map Link.linkIndex
  lifeTime : s'.links.map Link.lifeTime = s.links.map Link.lifeTime
  target : s'.links.map Link.target = s.links.map Link.target
  isDead : s'.links.map Link.isDead = s.links.map Link.isDead
  hits : s'.hits = s.hits
  searches : s'.searches = s.searches

theorem Alike.flying (h : Alike s s') (hl : numbers l' = numbers l) (hs : Flying s l) :
    Flying s' l' := by
  constructor
  · rw [hl, h.length]
    exact hs.numbered
  · rw [h.isDead]
    exact hs.living
  · rw [h.lifeTime]
    exact hs.last
  · rw [h.hits, h.target]
    exact hs.hits

theorem Alike.over (h : Alike s s') (hl : ∀ n ∈ numbers l', n ∈ numbers l)
    (hgone : numbers (l'.drop j) = []) (hs : Over i s l) : Over j s' l' := by
  refine ⟨fun n hn => ?_, hgone, ?_, ?_, ?_⟩
  · rw [h.length]
    exact hs.numbered n (hl n hn)
  · rw [h.isDead]
    exact hs.dead
  · rw [h.lifeTime]
    exact hs.acted
  · rw [h.hits, h.target]
    exact hs.hits

theorem alike_world (world : W) : Alike s { s with world := world } :=
  ⟨rfl, rfl, rfl, rfl, rfl, rfl, rfl⟩

theorem alike_fly (n : ℕ) (left : Option K) :
    Alike s { s with links := s.links.modify n (Link.fly left) } where
  length := List.length_modify _ _ _
  index := map_modify (f := Link.fly left) (fun _ => rfl) n s.links
  lifeTime := map_modify (f := Link.fly left) (fun _ => rfl) n s.links
  target := map_modify (f := Link.fly left) (fun _ => rfl) n s.links
  isDead := map_modify (f := Link.fly left) (fun _ => rfl) n s.links
  hits := rfl
  searches := rfl

variable {L : Loop (E ⊕ ℕ) (State E K W)}

/-- A round on an entity that is no link. -/
theorem phase_of_other {e : E} (hv : l[i]? = some (.inl e))
    (h : Alike s (L.body (.inl e) s l).1) (hadded : numbers (L.body (.inl e) s l).2 = [])
    (hphase : Phase (i + 1) s l) :
    Phase i (L.body (.inl e) s l).1 (L.next i (.inl e) s l) := by
  have hrest : ∀ b : Bool, numbers (if b = true then [] else [Sum.inl e]) = [] := by
    intro b
    cases b
    · rfl
    · rfl
  have hnumbers : numbers (L.next i (.inl e) s l) = numbers l := by
    rw [numbers_next hv, numbers_split hv, hrest, hadded, List.append_nil]
    rfl
  obtain hflying | hover := hphase
  · exact .inl (h.flying hnumbers hflying)
  · refine .inr (h.over (fun n hn => hnumbers ▸ hn) ?_ hover)
    rw [numbers_next_drop hv, hrest, hadded, hover.gone]
    rfl

/-- A round on a link that does not act. -/
theorem phase_of_quiet (hv : l[i]? = some (.inr n)) (h : Alike s s')
    (hbody : L.body (.inr n) s l = (s', []))
    (hremoved : L.removed (.inr n) s' = (s'.links[n]?).any Link.isDead)
    (hphase : Phase (i + 1) s l) :
    Phase i (L.body (.inr n) s l).1 (L.next i (.inr n) s l) := by
  have hmem : n ∈ numbers l := by
    rw [numbers_split hv]
    exact List.mem_append_right _ List.mem_cons_self
  have hdead : ∀ link, s'.links[n]? = some link → link.isDead ∈ s.links.map Link.isDead := by
    intro link hlink
    rw [← h.isDead]
    exact List.mem_map_of_mem (List.mem_of_getElem? hlink)
  obtain hflying | hover := hphase
  · have hkept : L.removed (.inr n) (L.body (.inr n) s l).1 = false := by
      rw [hbody, hremoved]
      cases hlink : s'.links[n]? with
      | none => rfl
      | some link => exact hflying.living _ (hdead link hlink)
    have hnumbers : numbers (L.next i (.inr n) s l) = numbers l := by
      rw [numbers_next hv, hkept, if_neg Bool.false_ne_true, hbody, numbers_split hv]
      exact congrArg _ (List.append_nil _)
    rw [hbody]
    exact .inl (h.flying hnumbers hflying)
  · have hgone : L.removed (.inr n) (L.body (.inr n) s l).1 = true := by
      have hlt : n < s'.links.length := (hover.numbered n hmem).trans_eq h.length.symm
      rw [hbody, hremoved, List.getElem?_eq_getElem hlt]
      exact hover.dead _ (hdead _ (List.getElem?_eq_getElem hlt))
    have hless : ∀ m ∈ numbers (L.next i (.inr n) s l), m ∈ numbers l := by
      intro m hm
      rw [numbers_next hv, if_pos hgone, hbody] at hm
      rw [numbers_split hv]
      refine (List.mem_append.mp hm).elim (List.mem_append_left _) fun hm => ?_
      change m ∈ numbers (l.drop (i + 1)) ++ [] at hm
      rw [List.append_nil] at hm
      exact List.mem_append_right _ (List.mem_append_right _ hm)
    have hdrop : numbers ((L.next i (.inr n) s l).drop i) = [] := by
      rw [numbers_next_drop hv, if_pos hgone, hbody, hover.gone]
      rfl
    rw [hbody]
    exact .inr (h.over hless hdrop hover)

/-- The links after the one at `n` has acted. -/
def spent (n : ℕ) (links : List (Link E K)) : List (Link E K) :=
  links.modify n fun link => { link with lifeTime := -1 }

theorem spent_fields {β : Type} {g : Link E K → β}
    (h : ∀ link, g { link with lifeTime := -1 } = g link) (n : ℕ) (links : List (Link E K)) :
    (spent n links).map g = links.map g := map_modify h n links

theorem length_spent (n : ℕ) (links : List (Link E K)) : (spent n links).length = links.length :=
  List.length_modify _ _ _

/-- A chain that is released keeps its other fields. -/
theorem released_fields {β : Type} {g : Link E K → β}
    (hdead : ∀ link, g { link with isDead := true } = g link)
    (hspent : ∀ link, g { link with lifeTime := -1 } = g link) (n : ℕ) (links : List (Link E K)) :
    (deadParentLink n (spent n links)).map g = links.map g :=
  (deadParentLink_fields hdead n _).trans (spent_fields hspent n links)

theorem length_released (n : ℕ) (links : List (Link E K)) :
    (deadParentLink n (spent n links)).length = links.length := by
  have hfields := congrArg List.length
    (released_fields (g := Link.target) (fun _ => rfl) (fun _ => rfl) n links)
  rwa [List.length_map, List.length_map] at hfields

variable {s₀ : State E K W} {added : List E} {older links : List (Link E K)} {last : Link E K}

theorem length_of_last (hlinks : links = older ++ [last]) : links.length = older.length + 1 := by
  rw [hlinks, List.length_append, List.length_singleton]

theorem spent_of_last (hlinks : links = older ++ [last]) :
    spent older.length links = older ++ [{ last with lifeTime := -1 }] :=
  hlinks ▸ modify_last _ older last

/-- A field of the links before the last one. -/
theorem dropLast_of_last {β : Type} (hlinks : links = older ++ [last]) (g : Link E K → β) :
    (links.map g).dropLast = older.map g := by
  rw [hlinks, List.map_append, List.map_singleton, List.dropLast_concat]

theorem map_of_last {β : Type} (hlinks : links = older ++ [last]) (g : Link E K → β) :
    links.map g = (links.map g).dropLast ++ [g last] := by
  rw [dropLast_of_last hlinks, hlinks, List.map_append, List.map_singleton]

/-- The new link comes to the end of the list. -/
theorem flying_found {new : Link E K} (hv : l[i]? = some (.inr older.length))
    (hflying : Flying s l) (hlinks : s.links = older ++ [last])
    (hbody : L.body (.inr older.length) s₀ l = (s', .inr s.links.length :: added.map .inl))
    (hremoved : L.removed (.inr older.length) s' = (s'.links[older.length]?).any Link.isDead)
    (hnext : s'.links = spent older.length s.links ++ [new]) (halive : new.isDead = false)
    (htime : 0 < new.lifeTime) (hhits : s'.hits = s.hits ++ [last.target]) :
    Flying s' (L.next i (.inr older.length) s₀ l) := by
  have hdead : ∀ d ∈ s'.links.map Link.isDead, d = false := by
    intro d hd
    rw [hnext, List.map_append, spent_fields fun _ => rfl] at hd
    obtain hd | hd := List.mem_append.mp hd
    · exact hflying.living d hd
    · rw [List.mem_singleton.mp hd]
      exact halive
  have hkept : L.removed (.inr older.length) (L.body (.inr older.length) s₀ l).1 = false := by
    rw [hbody, hremoved]
    cases hlink : s'.links[older.length]? with
    | none => rfl
    | some link => exact hdead _ (List.mem_map_of_mem (List.mem_of_getElem? hlink))
  have hlength : s'.links.length = s.links.length + 1 := by
    rw [hnext, List.length_append, length_spent, List.length_singleton]
  constructor
  · have hadded : numbers (.inr s.links.length :: added.map Sum.inl) = [s.links.length] :=
      congrArg (s.links.length :: ·) (numbers_inl added)
    rw [numbers_next hv, hkept, if_neg Bool.false_ne_true, hbody, ← List.append_assoc,
      ← numbers_split hv, hadded, hflying.numbered, hlength, List.range_succ]
  · exact hdead
  · refine ⟨new.lifeTime, ?_, htime⟩
    rw [hnext, List.map_append, List.map_singleton, List.getLast?_concat]
  · rw [hnext, List.map_append, List.map_singleton, List.dropLast_concat, hhits, hflying.hits,
      spent_fields fun _ => rfl, ← map_of_last hlinks Link.target]

/-- The links before the last one stand in front of it. -/
theorem numbers_behind (hv : l[i]? = some (.inr older.length)) (hflying : Flying s l)
    (hlinks : s.links = older ++ [last]) : numbers (l.drop (i + 1)) = [] := by
  have hsplit := numbers_split hv
  have hlen := length_of_last hlinks
  have hsorted : (numbers l).Pairwise (· < ·) := by
    rw [hflying.numbered]
    exact List.pairwise_lt_range
  rw [List.eq_nil_iff_forall_not_mem]
  intro m hm
  have hbound : m < older.length + 1 := by
    rw [← hlen, ← List.mem_range, ← hflying.numbered, hsplit]
    exact List.mem_append_right _ (List.mem_append_right _ hm)
  rw [hsplit, List.pairwise_append] at hsorted
  have hlt : older.length < m := (List.pairwise_append.mp hsorted.2.1).2.2 _
    (List.mem_singleton_self _) m hm
  omega

/-- The last link is taken out, and the others are still to come. -/
theorem over_released (hv : l[i]? = some (.inr older.length))
    (hfields : ∀ t ∈ (s.links.map Link.lifeTime).dropLast, t ≤ 0) (hflying : Flying s l)
    (hlinks : s.links = older ++ [last])
    (hbody : L.body (.inr older.length) s₀ l = (s', added.map .inl))
    (hremoved : L.removed (.inr older.length) s' = (s'.links[older.length]?).any Link.isDead)
    (hnext : s'.links = deadParentLink older.length (spent older.length s.links))
    (hhits : s'.hits = s.hits ++ [last.target]) :
    Over i s' (L.next i (.inr older.length) s₀ l) := by
  have hlength : s'.links.length = s.links.length := by
    rw [hnext, length_released]
  have hlinksDead : ∀ link ∈ deadParentLink older.length (spent older.length s.links),
      link.isDead = true :=
    dead_deadParentLink ((length_of_last hlinks).symm.trans (length_spent _ _).symm)
  have hgone : L.removed (.inr older.length) (L.body (.inr older.length) s₀ l).1 = true := by
    have hlt : older.length < s'.links.length := by
      rw [hlength, length_of_last hlinks]
      exact Nat.lt_succ_self _
    rw [hbody, hremoved, List.getElem?_eq_getElem hlt]
    exact hlinksDead _ (hnext ▸ List.getElem_mem hlt)
  constructor
  · intro m hm
    rw [numbers_next hv, if_pos hgone, hbody, numbers_inl, List.append_nil] at hm
    rw [hlength, ← List.mem_range, ← hflying.numbered, numbers_split hv]
    refine (List.mem_append.mp hm).elim (List.mem_append_left _) fun hm => ?_
    exact List.mem_append_right _ (List.mem_append_right _ hm)
  · rw [numbers_next_drop hv, if_pos hgone, hbody, numbers_inl,
      numbers_behind hv hflying hlinks]
    rfl
  · intro d hd
    obtain ⟨link, hmem, rfl⟩ := List.mem_map.mp hd
    exact hlinksDead link (hnext ▸ hmem)
  · rw [hnext, deadParentLink_fields (fun _ => rfl), spent_of_last hlinks, List.map_append,
      List.map_singleton]
    rw [dropLast_of_last hlinks] at hfields
    intro t ht
    obtain ht | ht := List.mem_append.mp ht
    · exact hfields t ht
    · rw [List.mem_singleton.mp ht]
      exact neg_one_lt_zero.le
  · rw [hnext, released_fields (fun _ => rfl) (fun _ => rfl), hhits, hflying.hits,
      ← map_of_last hlinks Link.target]

theorem released_of_phase (h : Phase 0 s l) :
    (∃ link, s.links.getLast? = some link ∧ 0 < link.lifeTime) ∨
      (∀ link ∈ s.links, link.isDead = true) ∧ ∀ n, Sum.inr n ∉ l := by
  obtain hflying | hover := h
  · obtain ⟨t, hlast, htime⟩ := hflying.last
    rw [List.getLast?_map] at hlast
    obtain ⟨link, hlink, rfl⟩ := Option.map_eq_some_iff.mp hlast
    exact .inl ⟨link, hlink, htime⟩
  · refine .inr ⟨fun link hlink => hover.dead _ (List.mem_map_of_mem hlink), fun n hn => ?_⟩
    have hgone := hover.gone
    rw [List.drop_zero] at hgone
    have hmem := mem_numbers.mpr hn
    rw [hgone] at hmem
    exact List.not_mem_nil hmem

theorem hits_sublist (h : Phase 0 s l) :
    s.hits.Sublist (s.links.map Link.target) := by
  obtain hflying | hover := h
  · rw [hflying.hits]
    exact List.dropLast_sublist _
  · rw [hover.hits]

end Phases

/-! ## A link that acts -/

section Act

variable {E K W : Type} [DecidableEq E] [Field K] [LinearOrder K] {root : Root K}
  {env : Env E K W} {skilldata : SkillData K} {caster target : E} {s s' : State E K W}
  {l : List (E ⊕ ℕ)} {i n : ℕ} {dt : K} {link : Link E K}

theorem nextTarget_eq {links : List (Link E K)} (hn : n + 1 = links.length) (o : Objects E K)
    (entityList : List (E ⊕ ℕ)) (tgt : E) :
    nextTarget root skilldata caster o entityList links n tgt =
      Search.chosen root skilldata caster
        ⟨o, entities entityList, links.map Link.target, tgt⟩ := by
  unfold nextTarget Search.chosen
  congr 1
  funext v
  rw [Search.passes, isInParentLinkTarget_last hn, decide_not]

variable (root env skilldata caster l link) in
/-- The link makes the next one for a target that it found, or marks the chain dead. -/
theorem trigger_cases (hn : n + 1 = s.links.length) :
    ∃ (world : W) (added : List E),
      (∃ v search, link.linkIndex < skilldata.maximum ∧ search.hit = s.links.map Link.target ∧
        Search.chosen root skilldata caster search = some v ∧
        trigger root env skilldata caster link n s l =
          (⟨world, spent n s.links ++ [create root skilldata (env.view s.world) link.target
            (link.linkIndex + 1) v], s.hits ++ [link.target], s.searches ++ [search]⟩,
            .inr s.links.length :: added.map .inl)) ∨
      (∃ searches, searches.filterMap (Search.chosen root skilldata caster) =
          s.searches.filterMap (Search.chosen root skilldata caster) ∧
        trigger root env skilldata caster link n s l =
          (⟨world, deadParentLink n (spent n s.links), s.hits ++ [link.target], searches⟩,
            added.map .inl)) := by
  refine ⟨(env.effect link.target s.world).1, (env.effect link.target s.world).2, ?_⟩
  unfold trigger
  dsimp only
  by_cases hlooks : link.linkIndex < skilldata.maximum
  · rw [decide_eq_true hlooks, if_pos rfl, if_pos rfl, nextTarget_eq hn]
    cases hchosen : Search.chosen root skilldata caster ⟨env.view s.world, entities l,
        s.links.map Link.target, link.target⟩ with
    | none =>
        refine .inr ⟨_, ?_, rfl⟩
        rw [List.filterMap_append, List.filterMap_cons_none hchosen, List.filterMap_nil,
          List.append_nil]
    | some v =>
        refine .inl ⟨v, _, hlooks, rfl, hchosen, ?_⟩
        rw [List.length_modify]
        rfl
  · rw [decide_eq_false hlooks, if_neg Bool.false_ne_true, if_neg Bool.false_ne_true]
    exact .inr ⟨_, rfl, rfl⟩

theorem passes_of_chosen {search : Search E K} {v : E}
    (h : Search.chosen root skilldata caster search = some v) :
    inReach root skilldata caster search.view search.target v = true ∧ v ∉ search.hit := by
  have hpasses := List.find?_some h
  rw [Search.passes, Bool.and_eq_true] at hpasses
  exact ⟨hpasses.1, of_decide_eq_true hpasses.2⟩

/-- What holds of the links at every moment: all but the last have acted. -/
structure Sound (root : Root K) (skilldata : SkillData K) (caster target : E)
    (s : State E K W) : Prop where
  index : s.links.map Link.linkIndex = (List.range s.links.length).map fun n : ℕ => (n : ℤ) + 1
  acted : ∀ t ∈ (s.links.map Link.lifeTime).dropLast, t ≤ 0
  distinct : (s.links.map Link.target).Nodup
  at_most : (s.links.length : ℤ) ≤ skilldata.maximum
  later : s.links.map Link.target =
    target :: s.searches.filterMap (Search.chosen root skilldata caster)

theorem Alike.sound (h : Alike s s') (hs : Sound root skilldata caster target s) :
    Sound root skilldata caster target s' := by
  constructor
  · rw [h.index, h.length]
    exact hs.index
  · rw [h.lifeTime]
    exact hs.acted
  · rw [h.target]
    exact hs.distinct
  · rw [h.length]
    exact hs.at_most
  · rw [h.target, h.searches]
    exact hs.later

variable {older : List (Link E K)} (last : Link E K)

theorem sound_found {world : W} {v : E} {search : Search E K} {o : Objects E K}
    (hs : Sound root skilldata caster target s) (hlinks : s.links = older ++ [last])
    (hmax : ((older.length : ℤ) + 1) < skilldata.maximum)
    (hhit : search.hit = s.links.map Link.target)
    (hchosen : Search.chosen root skilldata caster search = some v) :
    Sound root skilldata caster target ⟨world, spent older.length s.links ++
      [create root skilldata o last.target ((older.length : ℤ) + 1 + 1) v],
      s.hits ++ [last.target], s.searches ++ [search]⟩ := by
  have hlen := length_of_last hlinks
  have htargets : (spent older.length s.links).map Link.target = s.links.map Link.target :=
    spent_fields (fun _ => rfl) _ _
  constructor
  · dsimp only
    rw [List.map_append, spent_fields fun _ => rfl, hs.index, List.length_append, length_spent,
      List.length_singleton, List.range_succ, List.map_append, hlen]
    simp [create]
  · dsimp only
    rw [spent_of_last hlinks, List.map_append, List.map_singleton, List.dropLast_concat,
      List.map_append, List.map_singleton]
    have hacted := hs.acted
    rw [dropLast_of_last hlinks] at hacted
    intro t ht
    obtain ht | ht := List.mem_append.mp ht
    · exact hacted t ht
    · rw [List.mem_singleton.mp ht]
      exact neg_one_lt_zero.le
  · dsimp only
    rw [List.map_append, htargets, List.map_singleton, List.nodup_append]
    refine ⟨hs.distinct, List.nodup_singleton _, fun a ha b hb hab => ?_⟩
    have hnew : v ∉ s.links.map Link.target := hhit ▸ (passes_of_chosen hchosen).2
    have hb : b = v := List.mem_singleton.mp hb
    rw [hab, hb] at ha
    exact hnew ha
  · dsimp only
    rw [List.length_append, length_spent, List.length_singleton, hlen]
    push_cast
    omega
  · dsimp only
    rw [List.map_append, htargets, hs.later, List.filterMap_append,
      List.filterMap_cons_some hchosen]
    rfl

theorem sound_released {world : W} {searches : List (Search E K)}
    (hs : Sound root skilldata caster target s) (hlinks : s.links = older ++ [last])
    (hsearches : searches.filterMap (Search.chosen root skilldata caster) =
      s.searches.filterMap (Search.chosen root skilldata caster)) :
    Sound root skilldata caster target
      ⟨world, deadParentLink older.length (spent older.length s.links),
        s.hits ++ [last.target], searches⟩ := by
  have htargets : (deadParentLink older.length (spent older.length s.links)).map Link.target =
      s.links.map Link.target := released_fields (fun _ => rfl) (fun _ => rfl) _ _
  constructor
  · dsimp only
    rw [released_fields (fun _ => rfl) (fun _ => rfl), length_released]
    exact hs.index
  · dsimp only
    rw [deadParentLink_fields (fun _ => rfl), spent_of_last hlinks, List.map_append,
      List.map_singleton, List.dropLast_concat]
    exact dropLast_of_last hlinks Link.lifeTime ▸ hs.acted
  · dsimp only
    rw [htargets]
    exact hs.distinct
  · dsimp only
    rw [length_released]
    exact hs.at_most
  · dsimp only
    rw [htargets, hsearches]
    exact hs.later

/-! ## The rounds of a tick -/

theorem last_of_acting (hs : Sound root skilldata caster target s) (hlink : s.links[n]? = some link)
    (htime : 0 < link.lifeTime) : ∃ older, s.links = older ++ [link] ∧ older.length = n := by
  have hlt := (List.getElem?_eq_some_iff.mp hlink).1
  have hn : n + 1 = s.links.length := by
    by_contra hne
    have hmem : link.lifeTime ∈ (s.links.map Link.lifeTime).dropLast := by
      refine List.mem_of_getElem? (i := n) ?_
      rw [List.getElem?_dropLast, List.length_map, if_pos (by omega), List.getElem?_map, hlink]
      rfl
    exact (hs.acted _ hmem).not_gt htime
  refine ⟨s.links.take n, ?_, ?_⟩
  · have hget := (List.getElem?_eq_some_iff.mp hlink).2
    conv_lhs => rw [← List.take_append_drop n s.links, List.drop_eq_getElem_cons hlt, hget]
    rw [List.drop_eq_nil_of_le hn.ge]
  · rw [List.length_take]
    exact min_eq_left hlt.le

theorem linkIndex_last {older : List (Link E K)} (hs : Sound root skilldata caster target s)
    (hlinks : s.links = older ++ [link]) : link.linkIndex = older.length + 1 := by
  have hindex := congrArg List.getLast? hs.index
  rw [hlinks, List.length_append, List.length_singleton, List.range_succ, List.map_append,
    List.map_append, List.map_singleton, List.map_singleton, List.getLast?_concat,
    List.getLast?_concat] at hindex
  exact Option.some.inj hindex

/-- The round of a link whose flight is over. -/
theorem acts_round {s₀ : State E K W} {left : Option K} (hv : l[i]? = some (.inr n))
    (hs : Sound root skilldata caster target s) (hflying : Flying s l)
    (hlink : s.links[n]? = some (link.fly left)) (htime : 0 < link.lifeTime)
    (hbody : (manager root env skilldata caster dt).body (.inr n) s₀ l =
      trigger root env skilldata caster link n s l) :
    Sound root skilldata caster target
        ((manager root env skilldata caster dt).body (.inr n) s₀ l).1 ∧
      Phase i ((manager root env skilldata caster dt).body (.inr n) s₀ l).1
        ((manager root env skilldata caster dt).next i (.inr n) s₀ l) := by
  obtain ⟨older, hlinks, rfl⟩ := last_of_acting hs hlink htime
  have hindex : (link.fly left).linkIndex = older.length + 1 := linkIndex_last hs hlinks
  change link.linkIndex = _ at hindex
  have hn : older.length + 1 = s.links.length := by
    rw [hlinks, List.length_append, List.length_singleton]
  obtain ⟨world, added, ⟨v, search, hmax, hhit, hchosen, htrigger⟩ | ⟨searches, hsame, htrigger⟩⟩ :=
    trigger_cases root env skilldata caster l link hn
  · rw [htrigger, hindex] at hbody
    rw [hbody]
    refine ⟨sound_found (link.fly left) hs hlinks (hindex ▸ hmax) hhit hchosen, .inl ?_⟩
    exact flying_found hv hflying hlinks hbody rfl rfl rfl one_pos rfl
  · rw [htrigger] at hbody
    rw [hbody]
    exact ⟨sound_released (link.fly left) hs hlinks hsame,
      .inr (over_released hv hs.acted hflying hlinks hbody rfl rfl rfl)⟩

theorem updateLink_round (hv : l[i]? = some (.inr n))
    (hs : Sound root skilldata caster target s) (hphase : Phase (i + 1) s l) :
    Sound root skilldata caster target
        ((manager root env skilldata caster dt).body (.inr n) s l).1 ∧
      Phase i ((manager root env skilldata caster dt).body (.inr n) s l).1
        ((manager root env skilldata caster dt).next i (.inr n) s l) := by
  have hquiet : ∀ s', Alike s s' →
      (manager root env skilldata caster dt).body (.inr n) s l = (s', []) →
      Sound root skilldata caster target
          ((manager root env skilldata caster dt).body (.inr n) s l).1 ∧
        Phase i ((manager root env skilldata caster dt).body (.inr n) s l).1
          ((manager root env skilldata caster dt).next i (.inr n) s l) := by
    intro s' halike hbody
    refine ⟨?_, phase_of_quiet hv halike hbody rfl hphase⟩
    rw [hbody]
    exact halike.sound hs
  cases hlink : s.links[n]? with
  | none =>
      refine hquiet s ⟨rfl, rfl, rfl, rfl, rfl, rfl, rfl⟩ ?_
      change updateLink root env skilldata caster dt n s l = _
      unfold updateLink
      rw [hlink]
  | some link =>
      set left := link.flyTime.map fun time => time - dt with hleft
      have halike : Alike s { s with links := s.links.modify n (Link.fly left) } := alike_fly n left
      by_cases hacts : inFlight left = false ∧ 0 < link.lifeTime
      · have hfly : Flying s l := hphase.resolve_right fun hover =>
          (hover.acted _ (List.mem_map_of_mem (List.mem_of_getElem? hlink))).not_gt hacts.2
        have hbody : (manager root env skilldata caster dt).body (.inr n) s l =
            trigger root env skilldata caster link n
              { s with links := s.links.modify n (Link.fly left) } l := by
          change updateLink root env skilldata caster dt n s l = _
          unfold updateLink
          rw [hlink]
          dsimp only
          rw [← hleft, if_neg (by rw [hacts.1]; decide), if_neg (not_le.mpr hacts.2)]
        have hlink' : (s.links.modify n (Link.fly left))[n]? = some (link.fly left) := by
          rw [List.getElem?_modify, hlink]
          exact congrArg some (if_pos rfl)
        exact acts_round hv (halike.sound hs) (halike.flying rfl hfly) hlink' hacts.2 hbody
      · refine hquiet _ halike ?_
        change updateLink root env skilldata caster dt n s l = _
        unfold updateLink
        rw [hlink]
        dsimp only
        rw [← hleft]
        split_ifs with hfly htime
        · rfl
        · rfl
        · exact absurd ⟨Bool.eq_false_of_not_eq_true hfly, not_le.mp htime⟩ hacts

theorem manager_round {v : E ⊕ ℕ} (hv : l[i]? = some v)
    (hs : Sound root skilldata caster target s) (hphase : Phase (i + 1) s l) :
    Sound root skilldata caster target ((manager root env skilldata caster dt).body v s l).1 ∧
      Phase i ((manager root env skilldata caster dt).body v s l).1
        ((manager root env skilldata caster dt).next i v s l) := by
  cases v with
  | inl e =>
      have halike : Alike s ((manager root env skilldata caster dt).body (.inl e) s l).1 :=
        alike_world _
      exact ⟨halike.sound hs, phase_of_other hv halike (numbers_inl _) hphase⟩
  | inr n => exact updateLink_round hv hs hphase

/-! ## Runs -/

/-- What holds between the ticks. -/
def Kept (root : Root K) (skilldata : SkillData K) (caster target : E) (g : Game E K W) : Prop :=
  Sound root skilldata caster target g.state ∧ Phase 0 g.state g.entityList

theorem step_kept {g : Game E K W} (h : Kept root skilldata caster target g)
    (event : Event E K W) :
    Kept root skilldata caster target (step root env skilldata caster g event) := by
  cases event with
  | tick dt =>
      have hstart : Phase g.entityList.length g.state g.entityList := by
        obtain hflying | hover := h.2
        · exact .inl hflying
        · refine .inr ⟨hover.numbered, ?_, hover.dead, hover.acted, hover.hits⟩
          rw [List.drop_length]
          rfl
      exact Loop.sweep_induct (L := manager root env skilldata caster dt)
        (fun i s l => Sound root skilldata caster target s ∧ Phase i s l)
        (fun i v s l hv hinv => manager_round hv hinv.1 hinv.2) _ le_rfl ⟨h.1, hstart⟩
  | other world added =>
      have hnumbers : numbers (g.entityList ++ added.map Sum.inl) = numbers g.entityList := by
        rw [numbers_append, numbers_inl, List.append_nil]
      refine ⟨(alike_world world).sound h.1, ?_⟩
      obtain hflying | hover := h.2
      · exact .inl ((alike_world world).flying hnumbers hflying)
      · refine .inr ((alike_world world).over (fun n hn => hnumbers ▸ hn) ?_ hover)
        have hgone := hover.gone
        rw [List.drop_zero] at hgone ⊢
        exact hnumbers.trans hgone

variable (root env skilldata caster target) in
theorem cast_kept (world : W) (list : List E) (hmax : 1 ≤ skilldata.maximum) :
    Kept root skilldata caster target (cast root env skilldata caster world list target) := by
  refine ⟨⟨rfl, fun t ht => ?_, List.nodup_singleton target, hmax, rfl⟩,
    .inl ⟨?_, fun d hd => List.mem_singleton.mp hd, ⟨1, rfl, one_pos⟩, rfl⟩⟩
  · exact absurd ht List.not_mem_nil
  · rw [cast, numbers_append, numbers_inl]
    rfl

theorem run_kept {g : Game E K W} (h : Kept root skilldata caster target g)
    (events : List (Event E K W)) :
    Kept root skilldata caster target (run root env skilldata caster g events) := by
  induction events generalizing g with
  | nil => exact h
  | cons event rest ih => exact ih (step_kept h event)

/-- What a search chooses is alive if and only if its last candidate is. -/
theorem alive_iff (search : Search E K) :
    (∀ v, search.chosen root skilldata caster = some v → 0 < search.view.getHp v) ↔
      LastLives root skilldata caster search := by
  have hlast : ∀ v, search.chosen root skilldata caster = some v ↔
      ∃ front, search.entities.filter (search.passes root skilldata caster) = front ++ [v] := by
    intro v
    rw [Search.chosen, ← List.getLast?_filter]
    exact List.getLast?_eq_some_iff
  constructor
  · intro h _ front v hfront
    exact h v ((hlast v).mpr ⟨front, hfront⟩)
  · intro h v hchosen
    have hreach := (passes_of_chosen hchosen).1
    rw [inReach, decide_eq_true_eq] at hreach
    have hfits := hreach.2.1
    rw [fits, decide_eq_true_eq] at hfits
    obtain ⟨htype, -⟩ | ⟨-, halive⟩ := hfits
    · obtain ⟨front, hfront⟩ := (hlast v).mp hchosen
      exact h htype front v hfront
    · exact halive

theorem near_of_chosen {search : Search E K} {v : E}
    (h : search.chosen root skilldata caster = some v) :
    Vector3.len root (search.view.pos search.target) (search.view.pos v) ≤ skilldata.range := by
  have hreach := (passes_of_chosen h).1
  rw [inReach, decide_eq_true_eq] at hreach
  exact hreach.2.2

/-- A chain does what it should if and only if, for a skill on enemies, at each of its searches the
last enemy of the list that is in range and not hit yet is alive. -/
theorem chained_iff (root : Root K) (env : Env E K W) (skilldata : SkillData K) (caster target : E)
    (world : W) (list : List E) (events : List (Event E K W)) (hmax : 1 ≤ skilldata.maximum) :
    Chained root skilldata caster target
        (run root env skilldata caster (cast root env skilldata caster world list target) events) ↔
      ∀ search ∈ (run root env skilldata caster
          (cast root env skilldata caster world list target) events).state.searches,
        LastLives root skilldata caster search := by
  obtain ⟨hs, hphase⟩ := run_kept (cast_kept root env skilldata caster target world
    list hmax) events
  have hhits := hits_sublist hphase
  constructor
  · exact fun h search hsearch => (alive_iff search).mp (h.alive search hsearch)
  · intro h
    exact ⟨hs.distinct, hs.distinct.sublist hhits, hhits.subset, hs.at_most, hs.later,
      fun _ _ _ hchosen => near_of_chosen hchosen,
      fun search hsearch => (alive_iff search).mpr (h search hsearch), released_of_phase hphase⟩

end Act

/-! ## A dead enemy in range -/

local instance three_neZero : NeZero 3 := inferInstance

/-- The caster and two enemies at one place, the second of them dead. -/
def fallen : Objects (Fin 3) ℚ where
  getType _ := .IMapPlayer
  entityType _ := .player
  camp v := if v = 0 then some .RED else some .BLUE
  getHp v := if v = 2 then 0 else 10
  pos _ := ⟨0, 0⟩
  serverId v := v

/-- Nothing changes. -/
def still : Env (Fin 3) ℚ Unit where
  view _ := fallen
  act _ w := (w, [])
  effect _ w := (w, [])
  removed _ _ := false

/-- On two enemies, each within five steps of the one before. -/
def lightning : SkillData ℚ := ⟨3, 5, 2, -1⟩

/-- The cast on the living enemy and one tick. -/
def struck : Game (Fin 3) ℚ Unit :=
  run Plane.rationals still lightning 0 (cast Plane.rationals still lightning 0 () [0, 1, 2] 1)
    [.tick 100]

theorem struck_search : ∃ search ∈ struck.state.searches,
    search.chosen Plane.rationals lightning 0 = some 2 ∧ search.view.getHp 2 = 0 := by
  decide +kernel

/-- The chain goes on to the dead one. -/
theorem not_chained_lightning : ¬ Chained Plane.rationals lightning 0 1 struck := by
  intro h
  obtain ⟨search, hsearch, hchosen, hhp⟩ := struck_search
  exact (h.alive search hsearch 2 hchosen).ne' hhp

theorem chained_iff_lightning :
    Chained Plane.rationals lightning 0 1
        (run Plane.rationals still lightning 0
          (cast Plane.rationals still lightning 0 () [0, 1, 2] 1) [.tick 100]) ↔
      ∀ search ∈ (run Plane.rationals still lightning 0
          (cast Plane.rationals still lightning 0 () [0, 1, 2] 1) [.tick 100]).state.searches,
        LastLives Plane.rationals lightning 0 search :=
  chained_iff Plane.rationals still lightning 0 1 () [0, 1, 2] [.tick 100] (by decide)

end GameServer.ChainBullet
