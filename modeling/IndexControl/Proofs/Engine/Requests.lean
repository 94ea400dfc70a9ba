import IndexControl.Proofs.Engine.Mirror
import IndexControl.Proofs.Engine.Upkeep
import IndexControl.Proofs.Watches.Exchange

/-!
# Requests that reach the engine

Between moves nothing is queued and only roots have records, so that the engine handles the
answers of probes in any order with the same result.

## Main results

* `Engine.watched_handleProbed`: what the engine does with the answer of a probe.
* `Engine.settled_run`: an engine is settled after its start and any genuine moves.
* `Engine.run_requests_perm`: the order of requests does not matter.
-/

namespace IndexControl

namespace Engine

open RootSet

variable {e : Engine}

/-- The roots and the records of who watches them. -/
def watched (e : Engine) : RootSet × Watches := (e.roots, e.watches)

/-- The engine applies a request and follows what it queues. -/
theorem watched_handleProbed (e : Engine) (number : Nat) (p : ProbedRequest) :
    (e.handleProbed number (.ok p)).watched = Watches.serve e.watched p := by
  have happlied : ((e.applyProbed p).1.roots.drain.2,
      (e.applyProbed p).1.watches.followAll (e.applyProbed p).1.roots.events) =
        Watches.serve e.watched p := by
    rw [applyProbed, Watches.serve, watched]
    cases happly : e.watches.apply e.roots p with
    | error cause => rfl
    | ok a =>
      simp only
      split <;> rfl
  rw [← happlied]
  rfl

/-- The answers of several probes. -/
def answers (requests : List (Nat × ProbedRequest)) : List EngineMove :=
  requests.map fun r => .handle (.probed r.1 (.ok r.2))

theorem watched_run_answers (e : Engine) (requests : List (Nat × ProbedRequest)) :
    (e.run (answers requests)).watched = (requests.map (·.2)).foldl Watches.serve e.watched := by
  induction requests generalizing e with
  | nil => rfl
  | cons r requests ih =>
    have hstep := e.watched_handleProbed r.1 r.2
    rw [List.map_cons, List.foldl_cons, ← hstep]
    exact ih (e.handleProbed r.1 (.ok r.2))

/-- An engine is settled after its start and any genuine moves. -/
theorem settled_run (buffered settings : Settings) (environment : Environment)
    (systemLocations : List Location) (disk : Disk) {moves : List EngineMove}
    (hmoves : ∀ move ∈ moves, move.IsGenuine) :
    Watches.Settled
      ((new buffered settings environment systemLocations disk).start.run moves).watched := by
  have hsound := sound_run buffered settings environment systemLocations disk hmoves
  have hquiet :=
    ((inStep_start buffered settings environment systemLocations disk).run moves).quiet
  exact ⟨hsound.wellFormed, hquiet, hsound.attached⟩

/-- **The order of requests does not matter.** After any moves, probed requests for files and
directories that are applied in two orders, each followed by what it queues, leave the same roots
with their flags and the recorded identifiers of their volumes, the same records of which roots are
there on demand and how often each requester has asked for them, and the same suspended records. -/
theorem run_requests_perm (buffered settings : Settings) (environment : Environment)
    (systemLocations : List Location) (disk : Disk) {moves : List EngineMove}
    (hmoves : ∀ move ∈ moves, move.IsGenuine) {requests requests' : List (Nat × ProbedRequest)}
    (hrequests : ∀ r ∈ requests, r.2.IsGenuine) (hperm : requests.Perm requests') :
    let e := (new buffered settings environment systemLocations disk).start.run moves
    (e.run (answers requests)).roots = (e.run (answers requests')).roots ∧
      (e.run (answers requests)).watches = (e.run (answers requests')).watches := by
  intro e
  have hsettled : Watches.Settled e.watched :=
    settled_run buffered settings environment systemLocations disk hmoves
  have hcanonical : ∀ p ∈ requests.map (·.2), p.place.IsCanonical :=
    List.forall_mem_map.2 fun r hr => (hrequests r hr).isCanonical
  have hsame : (e.run (answers requests)).watched = (e.run (answers requests')).watched := by
    rw [watched_run_answers, watched_run_answers]
    exact hsettled.foldl_serve_perm hcanonical (hperm.map _)
  exact ⟨congrArg Prod.fst hsame, congrArg Prod.snd hsame⟩

/-- A root for `/a/b` is folded into one for `/a`, or `/a/b` is counted there at once. -/
theorem run_requests_perm_nested :
    let nowhere : Environment := ⟨fun _ => none, none, fun _ => none, fun _ => false⟩
    let settings : Settings :=
      { Settings.default with singleDirectories := [], recursiveDirectories := [] }
    let lower := (Path.ofString "/a/b").location
    let upper := (Path.ofString "/a").location
    let info : FileInfo := ⟨.directory, none, none, false⟩
    let first : Nat × ProbedRequest := (1, ⟨.directory "/a/b" (some "x"), lower, info⟩)
    let second : Nat × ProbedRequest := (2, ⟨.directory "/a" (some "y"), upper, info⟩)
    let e := (new settings settings nowhere [] ⟨.empty⟩).start
    (e.run (answers [first, second])).watches = (e.run (answers [second, first])).watches ∧
      (e.run (answers [first, second])).roots.places = [upper] := by
  intro nowhere settings lower upper info first second e
  let attributes := (Attributes.empty.setFile lower (.known info)).setFile upper (.known info)
  have hgenuine : ∀ r ∈ [first, second], r.2.IsGenuine := by
    simp only [List.forall_mem_cons]
    exact ⟨⟨attributes, false, by decide⟩, ⟨attributes, false, by decide⟩, by simp⟩
  have hsame := run_requests_perm settings settings nowhere [] ⟨.empty⟩
    (fun _ h => absurd h List.not_mem_nil) hgenuine (List.Perm.swap second first [])
  exact ⟨hsame.2, by decide⟩

end Engine

end IndexControl
