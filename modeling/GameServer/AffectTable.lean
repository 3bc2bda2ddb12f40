import GameServer.Affect
import GameServer.Transition

/-!
# The table of affects of one entity

`AffectTable` runs the hooks of the affects of its owner. A hook may leave for code of the entity,
its spell or the entity manager, and that code may come back to the same table (damage kills the
owner and `onDead` clears the table; a charge that ends triggers its skill). So a call of the table
is a stack of frames: `go` runs the topmost frame to its next step, a `call` frame marks that
control is outside the table, where the environment may call further operations (`invoke`), return
(`ret`) or raise an error (`raise`). Nothing catches an error, it drops the whole stack.
-/

namespace GameServer.Affects

/-- The three loops that run `onExit` and `table.remove` on the entries they select. -/
inductive Removal
  | replaceAdd (aff : ℕ)
  | removeById (id : ℕ)
  | removeBySkillId (skillId : ℤ)
  deriving DecidableEq

/-- What is left to do of a function that has begun. Loop indices count the entries still ahead. -/
inductive Frame
  /-- `buildAffects` before its remaining data. -/
  | buildAffects (source : Option ℕ) (datas : List Data) (skillId : ℤ) (projectids : List ℕ)
  /-- `addAffect` after `aff:onEnter()`. -/
  | addAffect (aff : ℕ)
  | sweep (why : Removal) (i : ℕ)
  /-- `table.remove(self.affects, i + 1)` of a loop, then the loop goes on. -/
  | remove (why : Removal) (i : ℕ)
  | clear (i : ℕ)
  | update (dt : ℚ) (i : ℕ)
  /-- `getbloodAffect.onExec` after `setTargetVar`. -/
  | onExec (aff : ℕ)
  /-- A hook of `aff` that goes on with `self:onExit()`. -/
  | exit (aff : ℕ)
  /-- The end of an `onExit` that left the table before it set the status. -/
  | exiting (aff : ℕ)
  | call
  deriving DecidableEq

/-- `heap` holds the affect objects by reference, `next` is the first free one. The rest is the
table's and the owner's own state and `returned`, what the last `buildAffects` returned. -/
structure AffectTable where
  owner : ℕ
  heap : ℕ → Affect
  next : ℕ
  affects : List ℕ
  affectStateRefs : AffectState → ℤ
  returned : List ℕ
  stack : List Frame

namespace AffectTable

variable (t : AffectTable)

def push (fs : List Frame) : AffectTable := { t with stack := fs ++ t.stack }

def put (a : ℕ) (aff : Affect) : AffectTable := { t with heap := Function.update t.heap a aff }

def setStatus (a : ℕ) (status : Status) : AffectTable := t.put a { t.heap a with status := status }

def setClock (a : ℕ) (clock : Clock) : AffectTable := t.put a { t.heap a with clock := clock }

/-- `owner:addAffectState(argState, num)`; a state without an entry counts as 0. -/
def addAffectState (argState : ℤ) (num : ℤ) : AffectTable :=
  { t with
    affectStateRefs := fun s =>
      if Names argState s then t.affectStateRefs s + num else t.affectStateRefs s }

/-! ## Hooks -/

/-- `onEnter` of affect `a` with what its class does there. The caller's own frame is below. -/
def onEnter (a : ℕ) (ownerDead : Bool) : AffectTable :=
  let aff := t.heap a
  let t := t.put a { aff with status := .exec, entered := aff.entered + 1 }
  match aff.control with
  | some mask => t.addAffectState mask 1
  | none =>
    if aff.cls = .skillAffect then
      -- an instant skill acts and exits at once
      if aff.clock.triggerTime = 0 then t.push [.call, .exit a] else t
    else if aff.cls = .repelAffect ∧ ownerDead then t.push [.exit a]
    else if aff.cls.onEnterLeaves then t.push [.call]
    else t

def onExit (a : ℕ) : AffectTable :=
  let aff := t.heap a
  let t := t.put a { aff with exited := aff.exited + 1 }
  match aff.control with
  | some mask => (t.addAffectState mask (-1)).setStatus a .exit
  | none =>
    match aff.cls.onExitLeaves with
    | .never => t.setStatus a .exit
    | .before => t.push [.call, .exiting a]
    | .after => (t.setStatus a .exit).push [.call]

def onExec (a : ℕ) (dt : ℚ) : AffectTable :=
  let aff := t.heap a
  let clock := aff.elapse dt
  if aff.cls = .getbloodAffect then (t.setClock a clock).push [.call, .onExec a]
  else if aff.cls.expired clock then (t.setClock a clock).onExit a
  else if aff.cls = .skillAffect then
    let triggerTime := clock.triggerTime - dt
    if triggerTime ≤ 0 then
      (t.setClock a { clock with triggerTime := seconds (aff.data.getOr 5) }).push [.call]
    else t.setClock a { clock with triggerTime := triggerTime }
  else t.setClock a clock

/-! ## The functions of the table -/

/-- The test of the three removing loops on the entry `b`. -/
def selects (why : Removal) (b : ℕ) : Bool :=
  let old := t.heap b
  match why with
  | .replaceAdd a =>
    let aff := t.heap a
    old.data.kind = aff.data.kind && old.source = aff.source && old.skillId = aff.skillId &&
      decide (0 < aff.clock.effectTime)
  | .removeById id => old.projectId = id
  | .removeBySkillId skillId => old.skillId = skillId

/-- What a removing loop does at its end: `replaceAdd` inserts the new affect. -/
def finish (why : Removal) : AffectTable :=
  match why with
  | .replaceAdd a =>
    { t.put a { t.heap a with listed := true } with affects := t.affects ++ [a] }
  | .removeById _ | .removeBySkillId _ => t

def nilIndex : String := "attempt to index a nil value"

def addAffect (source : Option ℕ) (d : Data) (datas : List Data) (skillId : ℤ)
    (projectids : List ℕ) (b : Birth) : Except String AffectTable :=
  let goOn := Frame.buildAffects source datas skillId
  match d.kind.cls with
  | some c =>
    match Affect.new t.owner source d c skillId b with
    | none => .error "attempt to perform arithmetic on a nil value"
    | some aff =>
      let t := t.push [.addAffect t.next, goOn (projectids ++ [aff.projectId])]
      .ok ((({ t with next := t.next + 1 } : AffectTable).put t.next aff).onEnter t.next
        b.ownerDead)
  | none =>
    if d.kind = .noskill then .error nilIndex
    else if d.kind = .suicide then
      match source with
      | none => .error nilIndex
      | some _ => .ok (t.push [.call, goOn projectids])
    else .ok (t.push [goOn projectids])

/-- One step of the frame that was on top of `t.stack`. -/
def resume (b : Birth) : Frame → Except String AffectTable
  | .buildAffects _ [] _ projectids => .ok { t with returned := projectids }
  | .buildAffects source (d :: datas) skillId projectids =>
    t.addAffect source d datas skillId projectids b
  | .addAffect a => .ok (t.push [.sweep (.replaceAdd a) t.affects.length])
  | .sweep why 0 => .ok (t.finish why)
  | .sweep why (i + 1) =>
    match t.affects[i]? with
    | none => .error nilIndex
    | some b =>
      if t.selects why b then .ok ((t.push [.remove why i]).onExit b)
      else .ok (t.push [.sweep why i])
  | .remove why i =>
    if i ≤ t.affects.length then
      .ok (({ t with affects := t.affects.eraseIdx i } : AffectTable).push [.sweep why i])
    else .error "position out of bounds"
  | .clear 0 => .ok { t with affects := [] }
  | .clear (i + 1) =>
    match t.affects[i]? with
    | none => .error nilIndex
    | some b => .ok ((t.push [.clear i]).onExit b)
  | .update _ 0 => .ok t
  | .update dt (i + 1) =>
    match t.affects[i]? with
    | none => .error nilIndex
    | some a =>
      let t := t.push [.update dt i]
      match (t.heap a).status with
      | .exec => .ok (t.onExec a dt)
      | .enter => .ok (t.onEnter a b.ownerDead)
      | .exit => .ok { t with affects := t.affects.eraseIdx i }
  | .onExec a => if (t.heap a).cls.expired (t.heap a).clock then .ok (t.onExit a) else .ok t
  | .exit a => .ok (t.onExit a)
  | .exiting a => .ok (t.setStatus a .exit)
  | .call => .ok t

/-- What the step of a frame leaves when no error ends it. -/
inductive Advances (birth : Birth) : Frame → AffectTable → Prop
  | built (source : Option ℕ) (skillId : ℤ) (projectids : List ℕ) :
      Advances birth (.buildAffects source [] skillId projectids) { t with returned := projectids }
  | build (source : Option ℕ) (d : Data) (datas : List Data) (skillId : ℤ) (projectids : List ℕ)
      (t' : AffectTable) (h : t.addAffect source d datas skillId projectids birth = .ok t') :
      Advances birth (.buildAffects source (d :: datas) skillId projectids) t'
  | addAffect (a : ℕ) :
      Advances birth (.addAffect a) (t.push [.sweep (.replaceAdd a) t.affects.length])
  | swept (why : Removal) : Advances birth (.sweep why 0) (t.finish why)
  | selected (why : Removal) (i b : ℕ) (hb : t.affects[i]? = some b) (hsel : t.selects why b) :
      Advances birth (.sweep why (i + 1)) ((t.push [.remove why i]).onExit b)
  | skipped (why : Removal) (i b : ℕ) (hb : t.affects[i]? = some b) (hsel : ¬ t.selects why b) :
      Advances birth (.sweep why (i + 1)) (t.push [.sweep why i])
  | removed (why : Removal) (i : ℕ) (hi : i ≤ t.affects.length) :
      Advances birth (.remove why i)
        (({ t with affects := t.affects.eraseIdx i } : AffectTable).push [.sweep why i])
  | cleared : Advances birth (.clear 0) { t with affects := [] }
  | clear (i b : ℕ) (hb : t.affects[i]? = some b) :
      Advances birth (.clear (i + 1)) ((t.push [.clear i]).onExit b)
  | updated (dt : ℚ) : Advances birth (.update dt 0) t
  | exec (dt : ℚ) (i a : ℕ) (ha : t.affects[i]? = some a) (hs : (t.heap a).status = .exec) :
      Advances birth (.update dt (i + 1)) ((t.push [.update dt i]).onExec a dt)
  | enter (dt : ℚ) (i a : ℕ) (ha : t.affects[i]? = some a) (hs : (t.heap a).status = .enter) :
      Advances birth (.update dt (i + 1)) ((t.push [.update dt i]).onEnter a birth.ownerDead)
  | gone (dt : ℚ) (i a : ℕ) (ha : t.affects[i]? = some a) (hs : (t.heap a).status = .exit) :
      Advances birth (.update dt (i + 1))
        { t.push [.update dt i] with affects := t.affects.eraseIdx i }
  | expired (a : ℕ) (h : (t.heap a).cls.expired (t.heap a).clock) :
      Advances birth (.onExec a) (t.onExit a)
  | lasts (a : ℕ) (h : ¬ (t.heap a).cls.expired (t.heap a).clock) : Advances birth (.onExec a) t
  | exit (a : ℕ) : Advances birth (.exit a) (t.onExit a)
  | exiting (a : ℕ) : Advances birth (.exiting a) (t.setStatus a .exit)
  | call : Advances birth .call t

theorem advances_of_resume {t t' : AffectTable} {birth : Birth} {f : Frame}
    (hok : t.resume birth f = .ok t') : t.Advances birth f t' := by
  cases f with
  | buildAffects source datas skillId projectids =>
      cases datas with
      | nil =>
          cases hok
          exact .built source skillId projectids
      | cons d datas => exact .build source d datas skillId projectids t' hok
  | addAffect a =>
      cases hok
      exact .addAffect a
  | sweep why i =>
      cases i with
      | zero =>
          cases hok
          exact .swept why
      | succ i =>
          simp only [resume] at hok
          split at hok
          · cases hok
          · next b hb =>
              split_ifs at hok with hsel
              · cases hok
                exact .selected why i b hb hsel
              · cases hok
                exact .skipped why i b hb hsel
  | remove why i =>
      simp only [resume] at hok
      split_ifs at hok with hi
      cases hok
      exact .removed why i hi
  | clear i =>
      cases i with
      | zero =>
          cases hok
          exact .cleared
      | succ i =>
          simp only [resume] at hok
          split at hok
          · cases hok
          · next b hb =>
              cases hok
              exact .clear i b hb
  | update dt i =>
      cases i with
      | zero =>
          cases hok
          exact .updated dt
      | succ i =>
          simp only [resume] at hok
          split at hok
          · cases hok
          · next a ha =>
              split at hok
              · next hs =>
                  cases hok
                  exact .exec dt i a ha hs
              · next hs =>
                  cases hok
                  exact .enter dt i a ha hs
              · next hs =>
                  cases hok
                  exact .gone dt i a ha hs
  | onExec a =>
      simp only [resume] at hok
      split_ifs at hok with hexp
      · cases hok
        exact .expired a hexp
      · cases hok
        exact .lasts a hexp
  | exit a =>
      cases hok
      exact .exit a
  | exiting a =>
      cases hok
      exact .exiting a
  | call =>
      cases hok
      exact .call

end AffectTable

/-! ## Runs -/

/-- The functions other code calls. -/
inductive Op
  | buildAffects (source : Option ℕ) (datas : List Data) (skillId : ℤ)
  | update (dt : ℚ)
  | removeById (id : ℕ)
  | removeBySkillId (skillId : ℤ)
  | clear

def Op.frame (n : ℕ) : Op → Frame
  | .buildAffects source datas skillId => .buildAffects source datas skillId []
  | .update dt => .update dt n
  | .removeById id => .sweep (.removeById id) n
  | .removeBySkillId skillId => .sweep (.removeBySkillId skillId) n
  | .clear => .clear n

inductive Label
  | invoke (op : Op)
  | ret
  | raise
  | go (b : Birth)

namespace AffectTable

/-- Control is outside the table: no call is under way, or a hook has left. -/
def Outside (t : AffectTable) : Prop := t.stack = [] ∨ t.stack.head? = some .call

/-- A Lua error: nothing between a hook and the entity's update catches one. -/
def abort (t : AffectTable) : AffectTable := { t with stack := [] }

def step (t : AffectTable) : Label → Option AffectTable
  | .invoke op =>
    match t.stack with
    | [] | .call :: _ => some (t.push [op.frame t.affects.length])
    | _ => none
  | .ret =>
    match t.stack with
    | .call :: rest => some { t with stack := rest }
    | _ => none
  | .raise =>
    match t.stack with
    -- a constructor may fail too, a charge without a target does
    | .call :: _ | .buildAffects _ (_ :: _) _ _ :: _ => some t.abort
    | _ => none
  | .go b =>
    match t.stack with
    | [] | .call :: _ => none
    | f :: rest =>
      match ({ t with stack := rest } : AffectTable).resume b f with
      | .ok t' => some t'
      | .error _ => some t.abort

def blank : Affect :=
  { data := ⟨.other, []⟩, cls := .showAffect, source := none, skillId := 0, projectId := 0,
    control := none, status := .enter, clock := ⟨0, 0, 0⟩, entered := 0, exited := 0,
    listed := false }

/-- `AffectTable.new(entity)` with the entity's empty `affectStateRefs`. -/
def new (owner : ℕ) : AffectTable :=
  { owner := owner, heap := fun _ => blank, next := 0, affects := [],
    affectStateRefs := fun _ => 0, returned := [], stack := [] }

def system (owner : ℕ) : Transition.System AffectTable Label where
  init := new owner
  step := step

end AffectTable

end GameServer.Affects
