import IndexControl.Engine.Step

/-!
# Runs of the engine

After its start an engine moves once for everything that reaches it, until it is told to end.

## Main definitions

* `EngineMove`: what reaches it.
* `Engine.step`, `Engine.run`: one move, and several in order.
-/

namespace IndexControl

/-- What reaches an engine. -/
inductive EngineMove where
  /-- An event. -/
  | handle (event : EngineEvent)
  /-- The end of a batch. -/
  | finishBatch (completion : Completion)
  /-- The news that the settings have changed to these. -/
  | adopt (settings : Settings)
  /-- The end of the time between two flushes. -/
  | tick

namespace Engine

/-- Move once. -/
def step (e : Engine) : EngineMove → Engine
  | .handle event => e.handle event
  | .finishBatch completion => e.finishBatch completion
  | .adopt settings => e.adopt settings
  | .tick => e.tick

/-- Move several times in order. -/
def run (e : Engine) (moves : List EngineMove) : Engine := moves.foldl step e

theorem run_concat (e : Engine) (moves : List EngineMove) (move : EngineMove) :
    e.run (moves ++ [move]) = (e.run moves).step move := List.foldl_append

end Engine

end IndexControl
