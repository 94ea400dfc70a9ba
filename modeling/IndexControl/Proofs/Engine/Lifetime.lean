import IndexControl.Proofs.Engine.Requests

/-!
# How long a requester is recorded

A requester is recorded when a request of it is applied, and nowhere once it has been released.
The target of a request is probed outside of the engine, though, and the probe may be answered
after the release. The request is applied then like any other one.

## Main definitions

* `Engine.Interleaving`: moves that ask for probes, answer them and release requesters.

## Main results

* `Engine.Upkeep.holds`, `Engine.holds_of_step`: who is recorded after a move.
* `Engine.holds_of_run`: through which request somebody is recorded after some moves.
* `Engine.holds_probed`: a requester whose target is covered is recorded.
* `Engine.holds_after_release`: who is recorded after a release.
-/

namespace IndexControl

namespace Engine

variable {e e' : Engine} {requester : Requester}

/-! ### Who is recorded after a move -/

/-- No part of a move that applies no request records anybody. -/
theorem Upkeep.holds (h : Upkeep e e') (hheld : e'.watches.Holds requester) :
    e.watches.Holds requester := by
  cases h with
  | retain hroots hmounts hdirectories hwatches => exact hwatches ▸ hheld
  | adopt hroots hmounts hwatches => exact hwatches ▸ Watches.Holds.of_markStatics hheld
  | release requester => exact (Watches.Holds.of_release (s := e.roots) hheld).1
  | restore => exact (Watches.Holds.of_markStatics hheld).of_restoreSuspended
  | dispatch => exact hheld.of_followAll

theorem Upkeeps.holds (h : Upkeeps e e') (hheld : e'.watches.Holds requester) :
    e.watches.Holds requester := by
  induction h with
  | refl => exact hheld
  | tail _ hpart ih => exact ih (hpart.holds hheld)

theorem holds_of_applyProbed {p : ProbedRequest}
    (h : (e.applyProbed p).1.watches.Holds requester) :
    e.watches.Holds requester ∨ p.request.requester? = some requester := by
  rw [applyProbed] at h
  cases happly : e.watches.apply e.roots p with
  | error cause =>
    rw [happly] at h
    exact .inl h
  | ok a =>
    simp only [happly] at h
    have hheld : a.watches.Holds requester := by
      split at h <;> exact h
    exact (hheld.of_apply happly).imp_right And.left

/-- A move records a requester only by applying a request of it. -/
theorem holds_of_step (he : e.Sound) {move : EngineMove}
    (h : (e.step move).watches.Holds requester) :
    e.watches.Holds requester ∨ ∃ number p,
      move = .handle (.probed number (.ok p)) ∧ p.request.requester? = some requester := by
  rcases isUpkeep_or_probed move with hupkeep | ⟨number, p, rfl⟩
  · exact .inl (Upkeeps.holds (upkeeps_step he.mounts hupkeep) h)
  · have happlied := Upkeeps.holds (upkeeps_handleProbed e number p) h
    exact (holds_of_applyProbed happlied).imp_right fun hrequester => ⟨number, p, rfl, hrequester⟩

/-- A requester who has been released is recorded nowhere. -/
theorem not_holds_handleRelease (e : Engine) (number : Nat) (requester : Requester) :
    ¬(e.handleRelease number requester).watches.Holds requester := by
  intro h
  have hheld : (e.letGo requester).watches.Holds requester :=
    Upkeeps.holds (upkeeps_of_letGo e number requester) h
  exact Watches.not_holds_release e.watches e.roots requester hheld.of_followAll

/-- Whoever is recorded after some moves was recorded before, or has made a request that was
applied on the way and was not released after that. -/
theorem holds_of_run (he : e.Sound) {moves : List EngineMove}
    (hmoves : ∀ move ∈ moves, move.IsGenuine) (h : (e.run moves).watches.Holds requester) :
    e.watches.Holds requester ∨ ∃ before number p after,
      moves = before ++ .handle (.probed number (.ok p)) :: after ∧
        p.request.requester? = some requester ∧
        ∀ number, .handle (.call number (.release requester)) ∉ after := by
  induction moves using List.reverseRecOn with
  | nil => exact .inl h
  | append_singleton moves move ih =>
    have hearlier : ∀ move ∈ moves, move.IsGenuine :=
      fun move hmove => hmoves move (List.mem_append_left _ hmove)
    rw [run_concat] at h
    rcases holds_of_step (he.run hearlier) h with hheld | ⟨number, p, rfl, hrequester⟩
    · refine (ih hearlier hheld).imp_right ?_
      rintro ⟨before, number, p, after, rfl, hrequester, hkept⟩
      refine ⟨before, number, p, after ++ [move], by simp, hrequester, fun number hmem => ?_⟩
      rcases List.mem_append.1 hmem with hmem | hmem
      · exact hkept number hmem
      · rw [List.mem_singleton] at hmem
        subst hmem
        exact not_holds_handleRelease _ number requester h
    · exact .inr ⟨moves, number, p, [], rfl, hrequester, fun _ => List.not_mem_nil⟩

/-! ### Requests that are granted -/

/-- A requester whose target is covered by a root is recorded after the move. -/
theorem holds_probed (hquiet : e.roots.events = []) (number : Nat) {p : ProbedRequest}
    {outcome : IndexOutcome} (hp : p.place.IsCanonical)
    (hrequester : p.request.requester? = some requester)
    (happlied : (e.applyProbed p).2 = .ok outcome) (hroot : outcome.root?.isSome = true) :
    (e.step (.handle (.probed number (.ok p)))).watches.Holds requester := by
  cases happly : e.watches.apply e.roots p with
  | error cause => simp [applyProbed, happly] at happlied
  | ok a =>
    have houtcome : a.outcome = outcome := by
      simp only [applyProbed, happly] at happlied
      split at happlied <;> exact Except.ok.inj happlied
    obtain ⟨root, hroot⟩ := Option.isSome_iff_exists.1 (houtcome ▸ hroot)
    obtain ⟨record, hfind, hcount⟩ := Watches.find?_of_apply happly hrequester hroot
    obtain ⟨record', hfind', hcount'⟩ := Watches.contains_counts_followAll hfind hcount
      (Watches.ended?_ne_of_apply hquiet hp happly hroot)
    have hsame : (e.handleProbed number (.ok p)).watches =
        a.watches.followAll a.roots.events := by
      have hserved := congrArg Prod.snd (e.watched_handleProbed number p)
      rw [Watches.serve, show e.watched.2.apply e.watched.1 p = .ok a from happly] at hserved
      exact hserved
    exact ⟨root, record', .inl (hsame ▸ hfind'), hcount'⟩

/-! ### Requests, probes and releases -/

/-- Moves that ask for probes, answer each of them as probing finds, and release requesters, with
the requests that are being probed before the moves and after them. -/
inductive Interleaving : List (Nat × IndexRequest) → List EngineMove →
    List (Nat × IndexRequest) → Prop
  | nil {asked : List (Nat × IndexRequest)} : Interleaving asked [] asked
  | index {asked later : List (Nat × IndexRequest)} {moves : List EngineMove} (number : Nat)
    (request : IndexRequest) (h : Interleaving ((number, request) :: asked) moves later) :
    Interleaving asked (.handle (.call number (.index request)) :: moves) later
  | probed {asked later : List (Nat × IndexRequest)} {moves : List EngineMove} {number : Nat}
    {request : IndexRequest} (attributes : Attributes) (cancelled : Bool)
    (hasked : (number, request) ∈ asked)
    (h : Interleaving (asked.erase (number, request)) moves later) :
    Interleaving asked
      (.handle (.probed number (request.probe attributes cancelled)) :: moves) later
  | release {asked later : List (Nat × IndexRequest)} {moves : List EngineMove} (number : Nat)
    (requester : Requester) (h : Interleaving asked moves later) :
    Interleaving asked (.handle (.call number (.release requester)) :: moves) later

variable {asked later : List (Nat × IndexRequest)} {moves : List EngineMove}

theorem Interleaving.isGenuine (h : Interleaving asked moves later) :
    ∀ move ∈ moves, move.IsGenuine := by
  induction h with
  | nil => exact fun _ hmove => absurd hmove List.not_mem_nil
  | index number request _ ih => exact List.forall_mem_cons.2 ⟨trivial, ih⟩
  | release number requester _ ih => exact List.forall_mem_cons.2 ⟨trivial, ih⟩
  | probed attributes cancelled _ _ ih =>
    exact List.forall_mem_cons.2 ⟨EngineMove.isGenuine_probed .., ih⟩

/-- A request that is applied was being probed at first, or has been asked for on the way. -/
theorem Interleaving.asked_of_probed (h : Interleaving asked moves later)
    {before after : List EngineMove} {number : Nat} {p : ProbedRequest}
    (hmoves : moves = before ++ .handle (.probed number (.ok p)) :: after) :
    (number, p.request) ∈ asked ∨ .handle (.call number (.index p.request)) ∈ before := by
  induction h generalizing before with
  | nil => simp at hmoves
  | index number' request _ ih =>
    cases before with
    | nil => simp at hmoves
    | cons move before =>
      obtain ⟨rfl, hrest⟩ := List.cons.inj hmoves
      rcases ih hrest with hmem | hmem
      · rcases List.mem_cons.1 hmem with heq | hmem
        · obtain ⟨rfl, rfl⟩ := Prod.mk.inj heq
          exact .inr List.mem_cons_self
        · exact .inl hmem
      · exact .inr (List.mem_cons_of_mem _ hmem)
  | release number' requester' _ ih =>
    cases before with
    | nil => simp at hmoves
    | cons move before =>
      obtain ⟨rfl, hrest⟩ := List.cons.inj hmoves
      exact (ih hrest).imp_right (List.mem_cons_of_mem _)
  | probed attributes cancelled hasked _ ih =>
    cases before with
    | nil =>
      obtain ⟨hmove, -⟩ := List.cons.inj hmoves
      simp only [EngineMove.handle.injEq, EngineEvent.probed.injEq] at hmove
      obtain ⟨rfl, hprobe⟩ := hmove
      rw [IndexRequest.request_of_probe hprobe]
      exact .inl hasked
    | cons move before =>
      obtain ⟨rfl, hrest⟩ := List.cons.inj hmoves
      exact (ih hrest).imp List.mem_of_mem_erase (List.mem_cons_of_mem _)

/-- **Only a late probe makes a watch outlive its requester.** In every interleaving of requests,
their probes and releases a requester is recorded nowhere right after its release, neither at a
root nor at a suspended one. If it is recorded later, then through a request that was applied
after its last release, and that was asked for after the release or was still being probed. Such a
request does record the requester, as soon as a root covers its target. -/
theorem holds_after_release (buffered settings : Settings) (environment : Environment)
    (systemLocations : List Location) (disk : Disk) {before after : List EngineMove}
    (hbefore : Interleaving [] before asked) (hafter : Interleaving asked after later)
    (number : Nat) (requester : Requester) :
    let released := ((new buffered settings environment systemLocations disk).start.run before).step
      (.handle (.call number (.release requester)))
    ¬released.watches.Holds requester ∧
    ((released.run after).watches.Holds requester → ∃ first number p last,
      after = first ++ .handle (.probed number (.ok p)) :: last ∧
        p.request.requester? = some requester ∧
        (∀ number, .handle (.call number (.release requester)) ∉ last) ∧
        ((number, p.request) ∈ asked ∨
          .handle (.call number (.index p.request)) ∈ first)) ∧
    ∀ first number p last outcome,
      after = first ++ .handle (.probed number (.ok p)) :: last →
      p.request.requester? = some requester →
      ((released.run first).applyProbed p).2 = .ok outcome → outcome.root?.isSome = true →
      ((released.run first).step (.handle (.probed number (.ok p)))).watches.Holds requester := by
  intro released
  have hsound : released.Sound :=
    (sound_run buffered settings environment systemLocations disk hbefore.isGenuine).step trivial
  have hinStep : released.InStep :=
    ((inStep_start buffered settings environment systemLocations disk).run before).step _
  have hfree : ¬released.watches.Holds requester := not_holds_handleRelease _ number requester
  refine ⟨hfree, fun h => ?_, ?_⟩
  · obtain ⟨first, number, p, last, hsplit, hrequester, hkept⟩ :=
      (holds_of_run hsound hafter.isGenuine h).resolve_left hfree
    exact ⟨first, number, p, last, hsplit, hrequester, hkept, hafter.asked_of_probed hsplit⟩
  · intro first number p last outcome hsplit hrequester happlied hroot
    have hgenuine : p.IsGenuine := hafter.isGenuine (.handle (.probed number (.ok p)))
      (by rw [hsplit]; exact List.mem_append_right _ List.mem_cons_self)
    exact holds_probed (hinStep.run first).quiet number hgenuine.isCanonical hrequester happlied
      hroot

/-- The release of `x` comes between its request and the answer of the probe. -/
theorem holds_after_release_in_between :
    let nowhere : Environment := ⟨fun _ => none, none, fun _ => none, fun _ => false⟩
    let settings : Settings :=
      { Settings.default with singleDirectories := [], recursiveDirectories := [] }
    let place := (Path.ofString "/d").location
    let info : FileInfo := ⟨.directory, none, none, false⟩
    let request : IndexRequest := .directory "/d" (some "x")
    let asked := (new settings settings nowhere [] ⟨.empty⟩).start.run
      [.handle (.call 0 (.index request))]
    let released := asked.step (.handle (.call 1 (.release "x")))
    ¬released.watches.Holds "x" ∧
      (released.step (.handle (.probed 0 (.ok ⟨request, place, info⟩)))).watches.Holds "x" := by
  intro nowhere settings place info request asked released
  let attributes := Attributes.empty.setFile place (.known info)
  have hprobe : request.probe attributes false = .ok ⟨request, place, info⟩ := by decide
  have hafter : Interleaving [(0, request)]
      [.handle (.probed 0 (.ok ⟨request, place, info⟩))] [] :=
    hprobe ▸ .probed attributes false List.mem_cons_self (by simpa using .nil)
  obtain ⟨hfree, -, hgranted⟩ := holds_after_release settings settings nowhere [] ⟨.empty⟩
    (.index 0 request .nil) hafter 1 "x"
  exact ⟨hfree, hgranted [] 0 ⟨request, place, info⟩ [] (.rootAdded place) rfl rfl (by decide) rfl⟩

/-- A probe that is answered after the release has the requester recorded again: `x` asks for
`/d` and is released before the probe of `/d` is answered. -/
theorem holds_after_late_probe :
    let nowhere : Environment := ⟨fun _ => none, none, fun _ => none, fun _ => false⟩
    let settings : Settings :=
      { Settings.default with singleDirectories := [], recursiveDirectories := [] }
    let place := (Path.ofString "/d").location
    let attributes := Attributes.empty.setFile place (.known ⟨.directory, none, none, false⟩)
    let request : IndexRequest := .directory "/d" (some "x")
    let moves : List EngineMove := [.handle (.call 0 (.index request)),
      .handle (.call 1 (.release "x")), .handle (.probed 0 (request.probe attributes false))]
    Interleaving [] moves [] ∧
      ((new settings settings nowhere [] ⟨.empty⟩).start.run moves).watches.Holds "x" := by
  intro nowhere settings place attributes request moves
  refine ⟨.index 0 request (.release 1 "x" (.probed attributes false (by decide) .nil)), ?_⟩
  have hrecord : (((new settings settings nowhere [] ⟨.empty⟩).start.run
      moves).watches.records.find? place).any (·.counts.contains "x") = true := by decide
  obtain ⟨record, hfind, hcount⟩ := (Option.any_eq_true ..).1 hrecord
  exact .of_record hfind hcount

end Engine

end IndexControl
