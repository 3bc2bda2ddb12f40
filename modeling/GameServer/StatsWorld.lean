import GameServer.Stats
import GameServer.Transition

/-!
# Entities whose stats affects change

The calls of `onTrigger` that are under way stand in a list, each with the calculations that it has
still to run. They may take turns, which is more than what deaths and the waiting for clients allow:
a calculation of the health that kills lets other affects exit before the next one.
-/

namespace GameServer.Stats

open Affects Transition

structure World where
  entities : ℕ → Entity
  running : List (ℕ × List Calc)

inductive Label
  /-- An affect of `owner` enters or exits. -/
  | trigger (h : Hook) (owner source : ℕ) (d : Data)
  /-- The next calculation of the `k`-th call. -/
  | go (k : ℕ)
  /-- `setLevel`, and `calcStats` is to run. -/
  | levelUp (e : ℕ) (level : ℤ)
  /-- Anything else that happens to the health, the mana and the states. -/
  | other (e : ℕ) (Hp Mp : ℚ) (kept : Bool)
  deriving DecidableEq

namespace World

variable (lzm : LzmRepository) (w : World)

def put (e : ℕ) (v : Entity) : World := { w with entities := Function.update w.entities e v }

def step : Label → Option World
  | .trigger h owner source d => do
    let l ← (w.entities owner).amounts (w.entities source) d
    some { w.put owner ((w.entities owner).addMid h l) with
      running := w.running ++ [(owner, h.calcs d.kind)] }
  | .go k =>
    match w.running[k]? with
    | some (e, c :: rest) =>
      some { w.put e (c.run lzm (w.entities e)) with running := w.running.set k (e, rest) }
    | _ => none
  | .levelUp e level =>
    some { w.put e { w.entities e with Level := level } with
      running := w.running ++ [(e, calcStats)] }
  | .other e Hp Mp kept => some (w.put e { w.entities e with Hp := Hp, Mp := Mp, kept := kept })

def system : System World Label where
  init := w
  step := step lzm

/-- No calculation of the entity is left. -/
def Quiet (e : ℕ) : Prop := ∀ p ∈ w.running, p.1 = e → p.2 = []

@[simp] theorem put_self (e : ℕ) (v : Entity) : (w.put e v).entities e = v := by
  simp [put]

theorem put_other {e e' : ℕ} (h : e' ≠ e) (v : Entity) :
    (w.put e v).entities e' = w.entities e' := by
  simp [put, h]

end World

/-! ## A hero without attributes -/

def plainHero : Entity where
  body := .IMapPlayer
  attDat :=
    { n32Strength := 0, n32LStrength := 0, n32Agility := 0, n32LAgility := 0, n32Intelligence := 0
      n32LIntelligence := 0, n32MainAtt := 1, n32Hp := 100, n32Mp := 100, n32Attack := 10
      n32Defence := 0, n32ASpeed := 1, n32MSpeed := 1, n32RecvHp := 0, n32RecvMp := 0 }
  Level := 1
  mid := MidStat.default
  midHpMaxPc := 0
  stat
    | .HpMax | .MpMax => 100
    | .Attack => 10
    | .ASpeed | .MSpeed => 1
    | X => X.default
  Hp := 100
  Mp := 100
  moveSpeed := 1
  kept := false

def plainLzm : LzmRepository :=
  let row : Lzm := ⟨1, 1, 1, 0, 0, 0, 0⟩
  ⟨row, row, row⟩

def plainWorld : World where
  entities := fun _ => plainHero
  running := []

end GameServer.Stats
