/-!
# Gates

Work passes a gate freely unless the gate is held. At a held gate each passage takes a permit,
and work that finds none waits in a queue; new permits serve the queue in order.

## Main definitions

* `Gate`: the gate with its queue.
* `Gate.arrive`: work comes to the gate.
* `Gate.hold`, `Gate.grant`, `Gate.release`: what the keeper does.
-/

namespace IndexControl

/-- A gate and the work that waits there. -/
structure Gate (α : Type) where
  isHeld : Bool
  permits : Nat
  /-- Oldest first. -/
  waiting : List α
deriving Inhabited

namespace Gate

variable {α : Type}

/-- A gate that is not held. -/
def free : Gate α := ⟨false, 0, []⟩

variable (g : Gate α)

/-- Work comes to the gate, and passes or waits. -/
def arrive (work : α) : Gate α × Option α :=
  if !g.isHeld then (g, some work)
  else if g.permits = 0 then ({ g with waiting := g.waiting ++ [work] }, none)
  else ({ g with permits := g.permits - 1 }, some work)

/-- Hold the gate. A gate that is held stays as it is. -/
def hold : Gate α := if g.isHeld then g else ⟨true, 0, []⟩

/-- Give permits to a held gate, and let that much waiting work pass. -/
def grant (count : Nat) : Gate α × List α :=
  if !g.isHeld then (g, [])
  else
    let permits := g.permits + count
    ({ g with permits := permits - g.waiting.length, waiting := g.waiting.drop permits },
      g.waiting.take permits)

/-- Let all waiting work pass and hold the gate no longer. -/
def release : Gate α × List α := (free, g.waiting)

/-- Give up waiting work. -/
def discard (isGivenUp : α → Bool) : Gate α × List α :=
  ({ g with waiting := g.waiting.filter fun work => !isGivenUp work },
    g.waiting.filter isGivenUp)

end Gate

end IndexControl
