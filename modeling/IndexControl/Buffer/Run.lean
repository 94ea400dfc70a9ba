import IndexControl.Buffer.Basic

/-!
# Runs of the write buffer

Everything that can be done to a write buffer, with completions of any batch and any outcome.

## Main definitions

* `BufferOp`, `BufferOp.pushed?`: one thing that is done, and the task it pushes.
* `WriteBuffer.apply`, `WriteBuffer.run`: doing one thing, and several in order.
-/

namespace IndexControl

/-- One thing that is done to a write buffer. -/
inductive BufferOp where
  | push (task : WriteTask)
  | flush (reason : String) (recipient : Option Nat)
  | complete (c : Completion)
  | setLimit (limit : Nat)
deriving DecidableEq

/-- The task that is pushed, if one is. -/
def BufferOp.pushed? : BufferOp → Option WriteTask
  | push task => some task
  | _ => none

namespace WriteBuffer

/-- Do one thing. -/
def apply (b : WriteBuffer) : BufferOp → WriteBuffer
  | .push task => b.push task
  | .flush reason recipient => (b.flush reason recipient).1
  | .complete c => (b.complete c).1
  | .setLimit limit => b.setLimit limit

/-- Do several things in order. -/
def run (b : WriteBuffer) (ops : List BufferOp) : WriteBuffer := ops.foldl apply b

end WriteBuffer

end IndexControl
