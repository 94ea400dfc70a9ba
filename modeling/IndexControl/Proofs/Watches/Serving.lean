import IndexControl.Proofs.Roots.Owner
import IndexControl.Proofs.Watches.Attached
import IndexControl.Proofs.Watches.Gather

/-!
# The parts of a request

Where no notification is queued, a request for a directory has two parts: its place is covered, by
a new root if need be, and the request is counted at the root that covers it. What is queued about
a new root has the records below its place gathered in the record there.

## Main definitions

* `Watches.Settled`: nothing is queued and every record belongs to a root.
* `Watches.serve`: apply a request and follow what it queues.
* `Watches.ensure`, `Watches.charge`: the two parts.

## Main results

* `Watches.apply_of_not_grants`, `Watches.apply_of_owned`, `Watches.apply_of_free`: what comes of a
  request.
* `Watches.Settled.followAll_new`: following what a new root queues gathers what it takes over.
* `Watches.Settled.serve_of_grants`, `Watches.Settled.serve_of_named`: a request has these parts.
* `Watches.Settled.serve`: what is settled stays so.
* `Watches.Settled.owner?_ensure`: who owns what when a place has been covered.
-/

namespace IndexControl

namespace RootSet

variable {s : RootSet}

theorem drain_of_quiet (h : s.events = []) : s.drain.2 = s := by
  obtain ⟨roots, filters, events⟩ := s
  obtain rfl : events = [] := h
  rfl

end RootSet

namespace Watches

open RootSet

variable {t : RootSet × Watches} {p : ProbedRequest} {place x : Location}

/-! ### The parts of a request -/

/-- What the roots and the records become when a request is applied and what it queues is
followed. -/
def serve (t : RootSet × Watches) (p : ProbedRequest) : RootSet × Watches :=
  match t.2.apply t.1 p with
  | .error _ => (t.1.drain.2, t.2.followAll t.1.events)
  | .ok a => (a.roots.drain.2, a.watches.followAll a.roots.events)

/-- Have a place covered, by a new root on demand where no root owns it. -/
def ensure (t : RootSet × Watches) (place : Location) : RootSet × Watches :=
  match t.1.owner? place with
  | some _ => t
  | none => ((t.1.add place .onDemand).1.drain.2, t.2.gather place)

/-- Count a request at the root that owns its place. -/
def charge (t : RootSet × Watches) (place : Location) (requester? : Option Requester) :
    RootSet × Watches :=
  (t.1, match t.1.owner? place with
    | some owner => t.2.credit owner requester?
    | none => t.2)

/-- Whether a request has a place covered: it is allowed and for a directory. -/
def grants (w : Watches) (p : ProbedRequest) : Bool := w.allows p.place && p.info.isDirectory

/-- No notification is queued, and every record belongs to a root. -/
structure Settled (t : RootSet × Watches) : Prop where
  wellFormed : t.1.WellFormed
  quiet : t.1.events = []
  attached : t.2.Attached t.1

theorem Settled.isRoot_of_record (h : Settled t) (hx : t.2.records.contains x = true) :
    t.1.isRoot x = true := by
  refine (h.attached.rooted x hx).resolve_right ?_
  rintro ⟨event, hevent, -⟩
  rw [h.quiet] at hevent
  exact List.not_mem_nil hevent

/-- A place that no root owns has no record. -/
theorem Settled.not_recorded (h : Settled t) (hfree : t.1.owner? place = none) :
    t.2.records.contains place = false := by
  rw [Bool.eq_false_iff]
  intro hplace
  have hroot := (h.wellFormed.owner?_eq_none_iff.1 hfree).1
  rw [h.isRoot_of_record hplace] at hroot
  exact Bool.noConfusion hroot

/-- Following what a new root queues merges what it takes over into its record. -/
theorem Settled.followAll_insert (h : Settled t) (hplace : place.IsCanonical)
    (hfree : t.1.owner? place = none) {record : WatchRecord} (honDemand : record.onDemand = true) :
    followAll { t.2 with records := t.2.records.insert place record }
        (t.1.add place .onDemand).1.events =
      { t.2 with
        records := (t.2.gather place).records.insert place
          (record.merge (t.2.gathered place)) } := by
  let w : Watches := { t.2 with records := t.2.records.insert place record }
  obtain ⟨roots, hevents, hnodup, hmem⟩ :=
    h.wellFormed.events_add_free hplace hfree isRecursive_onDemand
  have hnew : place ∉ roots := fun hin => by
    have hbelow := ((hmem place).1 hin).2
    rw [Location.isBelow_self] at hbelow
    exact Bool.noConfusion hbelow
  have hfollow : w.followAll (t.1.add place .onDemand).1.events =
      w.followAll (roots.map (.absorbed · place)) := by
    rw [hevents, h.quiet]
    rfl
  have hw (x : Location) :
      w.records.find? x = if x = place then some record else t.2.records.find? x :=
    OrderedMap.find?_insert ..
  -- The places of the folded roots are those of the records below, and some without a record.
  have hgathered : t.2.gathered place = WatchRecord.joined (w.recordsAt roots) := by
    rw [gathered_eq hnodup fun x hx => by
      rw [hmem, h.isRoot_of_record hx, eq_self_iff_true, true_and]]
    refine congrArg WatchRecord.joined (recordsAt_congr fun x hx => ?_)
    have hne : x ≠ place := fun heq => hnew (heq ▸ hx)
    rw [hw, if_neg hne]
  have hout {x : Location} (hx : x ∉ roots) (hbelow : x.isBelow place = true) :
      t.2.records.find? x = none := by
    by_contra hsome
    refine hx ((hmem x).2 ⟨h.isRoot_of_record ?_, hbelow⟩)
    rwa [OrderedMap.contains, Option.isSome_iff_ne_none]
  obtain ⟨hfind, hsuspended, heligibility⟩ :=
    followAll_absorbed ((hw place).trans (if_pos rfl)) honDemand hnodup hnew
  rw [hfollow]
  refine ext_find? (fun x => ?_) hsuspended heligibility
  rw [hfind, hw, OrderedMap.find?_insert, find?_gather, WatchRecord.foldl_merge, ← hgathered]
  by_cases hx : x = place
  · simp [hx]
  · by_cases hin : x ∈ roots
    · simp [hx, hin, ((hmem x).1 hin).2]
    · by_cases hbelow : x.isBelow place = true
      · simp [hx, hin, hbelow, hout hin hbelow]
      · simp [hx, hin, hbelow]

/-- Marking a new root, counting the request and following what was queued gathers first and
counts then. -/
theorem Settled.followAll_new (h : Settled t) (hplace : place.IsCanonical)
    (hfree : t.1.owner? place = none) (requester? : Option Requester) :
    ((t.2.markOnDemand place).credit place requester?).followAll
        (t.1.add place .onDemand).1.events =
      (t.2.gather place).credit place requester? := by
  have hnone : t.2.records.find? place = none := by
    simpa [OrderedMap.contains] using h.not_recorded hfree
  have hmarked : t.2.markOnDemand place =
      { t.2 with records := t.2.records.insert place ⟨true, .empty⟩ } := by
    rw [markOnDemand, alter, hnone]
    rfl
  have hself : (⟨true, .empty⟩ : WatchRecord).merge (t.2.gathered place) = t.2.gathered place :=
    (WatchRecord.foldl_merge ..).symm
  cases requester? with
  | none =>
    rw [credit, credit, hmarked, h.followAll_insert hplace hfree rfl, hself]
    refine ext_find? (fun x => ?_) rfl rfl
    rw [OrderedMap.find?_insert, find?_gather]
    by_cases hx : x = place <;> simp [hx]
  | some requester =>
    have hcounted : (t.2.markOnDemand place).count place requester =
        { t.2 with
          records := t.2.records.insert place (WatchRecord.count ⟨true, .empty⟩ requester 1) } := by
      rw [hmarked]
      refine ext_find? (fun x => ?_) rfl rfl
      rw [find?_count, OrderedMap.find?_insert, OrderedMap.find?_insert, OrderedMap.find?_insert]
      by_cases hx : x = place <;> simp [hx]
    have hmerged : (WatchRecord.count ⟨true, .empty⟩ requester 1).merge (t.2.gathered place) =
        (t.2.gathered place).count requester 1 := by
      rw [WatchRecord.count_eq_merge, WatchRecord.merge_right_comm, hself,
        WatchRecord.count_eq_merge]
    rw [credit, credit, hcounted, h.followAll_insert hplace hfree rfl, hmerged]
    refine ext_find? (fun x => ?_) rfl rfl
    rw [OrderedMap.find?_insert, find?_count, find?_gather, find?_gather]
    by_cases hx : x = place <;> simp [hx]

/-! ### Requests -/

/-- A request that does not have its place covered is refused, or it is for a file. -/
theorem apply_of_not_grants {w : Watches} (s : RootSet) (hgrants : w.grants p = false) :
    w.apply s p =
      if w.allows p.place = false then .error (.notEligible p.place.toPath)
      else if p.request.needsDirectory then .error (.directoriesOnly p.place.toPath)
      else .ok ⟨.fileCheck, s, w⟩ := by
  rw [grants] at hgrants
  rw [apply]
  cases hallows : w.allows p.place with
  | false => rfl
  | true =>
    rw [hallows, Bool.true_and] at hgrants
    rw [hgrants]
    rfl

/-- A directory that a root owns is looked at again. -/
theorem apply_of_owned {w : Watches} {s : RootSet} {owner : Location}
    (hgrants : w.grants p = true) (howner : s.owner? p.place = some owner) :
    w.apply s p = .ok ⟨.refreshed owner, (s.notify p.place true).1,
      w.credit owner p.request.requester?⟩ := by
  rw [grants, Bool.and_eq_true] at hgrants
  rw [apply, cover, howner, hgrants.1, hgrants.2]
  cases hrequester : p.request.requester? <;>
    simp [Except.map, Applied.countFor, IndexOutcome.root?, credit]

/-- A directory that no root owns becomes a root. -/
theorem apply_of_free {w : Watches} {s : RootSet} (hs : s.WellFormed)
    (hplace : p.place.IsCanonical) (hgrants : w.grants p = true)
    (hfree : s.owner? p.place = none) :
    w.apply s p = .ok ⟨.rootAdded p.place, (s.add p.place .onDemand).1,
      (w.markOnDemand p.place).credit p.place p.request.requester?⟩ := by
  rw [grants, Bool.and_eq_true] at hgrants
  rw [apply, cover, hfree, hgrants.1, hgrants.2, hs.add_free hplace hfree isRecursive_onDemand]
  cases hrequester : p.request.requester? <;>
    simp [Except.map, Applied.countFor, IndexOutcome.root?, credit]

theorem Settled.drain (h : Settled t) : (t.1.drain.2, t.2.followAll t.1.events) = t := by
  rw [drain_of_quiet h.quiet, h.quiet]
  rfl

/-- A request that grants nothing changes nothing. -/
theorem Settled.serve_of_not_grants (h : Settled t) (hgrants : t.2.grants p = false) :
    serve t p = t := by
  rw [serve, apply_of_not_grants t.1 hgrants]
  split_ifs <;> exact h.drain

/-- A request that is granted has its place covered and is counted at the root there. -/
theorem Settled.serve_of_grants (h : Settled t) (hplace : p.place.IsCanonical)
    (hgrants : t.2.grants p = true) :
    serve t p = charge (ensure t p.place) p.place p.request.requester? := by
  rw [serve]
  cases howner : t.1.owner? p.place with
  | some owner =>
    rw [apply_of_owned hgrants howner]
    obtain ⟨events, hevents, hended⟩ := t.1.events_notify p.place true
    rw [h.quiet, List.nil_append] at hevents
    have hfollow : (t.2.credit owner p.request.requester?).followAll
        (t.1.notify p.place true).1.events = t.2.credit owner p.request.requester? := by
      refine followAll_eq_self fun event hevent x hx => ?_
      rw [hended event (hevents ▸ hevent)] at hx
      contradiction
    have hroots : (t.1.notify p.place true).1.drain.2 = t.1 :=
      (show _ = t.1.drain.2 from rfl).trans (drain_of_quiet h.quiet)
    simp only [hfollow, hroots, charge, ensure, howner]
  | none =>
    rw [apply_of_free h.wellFormed hplace hgrants howner]
    have hafter : (t.1.add p.place .onDemand).1.drain.2.owner? p.place = some p.place := by
      refine (h.wellFormed.owner?_add_free hplace howner isRecursive_onDemand p.place).trans ?_
      rw [Location.startsWith_self]
      rfl
    simp only [h.followAll_new hplace howner, charge, ensure, howner, hafter]

/-! ### Settled states -/

theorem eligibility_ensure (t : RootSet × Watches) (place : Location) :
    (ensure t place).2.eligibility = t.2.eligibility := by
  rw [ensure]
  cases t.1.owner? place <;> rfl

theorem eligibility_charge (t : RootSet × Watches) (place : Location)
    (requester? : Option Requester) :
    (charge t place requester?).2.eligibility = t.2.eligibility := by
  simp only [charge]
  cases t.1.owner? place <;> cases requester? <;> rfl

theorem contains_gather {w : Watches} :
    (w.gather place).records.contains x = true ↔
      x = place ∨ x.isBelow place = false ∧ w.records.contains x = true := by
  rw [OrderedMap.contains, find?_gather, OrderedMap.contains]
  by_cases hx : x = place
  · simp [hx]
  · cases x.isBelow place <;> simp [hx]

theorem Settled.ensure (h : Settled t) (hplace : place.IsCanonical) :
    Settled (ensure t place) := by
  rw [Watches.ensure]
  cases howner : t.1.owner? place with
  | some owner => exact h
  | none =>
    have hadd := h.wellFormed.add hplace.1 .onDemand
    refine ⟨hadd.of_flagsAt?_imp fun _ _ hf => hf, rfl, fun q hq => .inl ?_, fun q hq => ?_⟩
    · refine (h.wellFormed.isRoot_add_free hplace howner isRecursive_onDemand q).2 ?_
      exact (contains_gather.1 hq).imp_right fun hold => ⟨hold.1, h.isRoot_of_record hold.2⟩
    · rcases hq with hq | hq
      · rcases contains_gather.1 hq with rfl | ⟨-, hold⟩
        · exact hplace
        · exact h.attached.canonical q (.inl hold)
      · exact h.attached.canonical q (.inr hq)

theorem Settled.charge (h : Settled t) (place : Location) (requester? : Option Requester) :
    Settled (charge t place requester?) := by
  refine ⟨h.wellFormed, h.quiet, ?_⟩
  simp only [Watches.charge]
  cases howner : t.1.owner? place with
  | none => exact h.attached
  | some owner => exact h.attached.credit h.wellFormed (isRoot_of_owner? howner) requester?

theorem Settled.serve (h : Settled t) (hplace : p.place.IsCanonical) : Settled (serve t p) := by
  cases hgrants : t.2.grants p with
  | false => rwa [h.serve_of_not_grants hgrants]
  | true =>
    rw [h.serve_of_grants hplace hgrants]
    exact (h.ensure hplace).charge p.place p.request.requester?

theorem Settled.grants_serve (h : Settled t) (hplace : p.place.IsCanonical) (q : ProbedRequest) :
    (Watches.serve t p).2.grants q = t.2.grants q := by
  have heligibility : (Watches.serve t p).2.eligibility = t.2.eligibility := by
    cases hgrants : t.2.grants p with
    | false => rw [h.serve_of_not_grants hgrants]
    | true => rw [h.serve_of_grants hplace hgrants, eligibility_charge, eligibility_ensure]
  rw [grants, grants, allows, allows, heligibility]

/-! ### Who owns what afterwards -/

/-- A new root owns its place and all below, and nothing else changes hands. -/
theorem Settled.owner?_ensure (h : Settled t) (hplace : place.IsCanonical) (x : Location) :
    (Watches.ensure t place).1.owner? x =
      if t.1.owner? place = none ∧ x.startsWith place = true then some place
      else t.1.owner? x := by
  rw [Watches.ensure]
  cases howner : t.1.owner? place with
  | some owner => simp
  | none =>
    refine (h.wellFormed.owner?_add_free hplace howner isRecursive_onDemand x).trans ?_
    simp

/-- What a request for a directory does that a requester has made. -/
theorem Settled.serve_of_named (h : Settled t) (hplace : p.place.IsCanonical)
    (hgrants : t.2.grants p = true) {requester : Requester}
    (hrequester : p.request.requester? = some requester) :
    (∃ owner, t.1.owner? p.place = some owner ∧
      Watches.serve t p = (t.1, t.2.count owner requester)) ∨
    t.1.owner? p.place = none ∧ Watches.serve t p =
      ((t.1.add p.place .onDemand).1.drain.2, (t.2.gather p.place).count p.place requester) := by
  rw [h.serve_of_grants hplace hgrants, hrequester]
  cases howner : t.1.owner? p.place with
  | some owner =>
    exact .inl ⟨owner, rfl, by simp only [Watches.ensure, Watches.charge, howner, credit]⟩
  | none =>
    have hafter := h.owner?_ensure hplace p.place
    rw [if_pos ⟨howner, Location.startsWith_self p.place⟩] at hafter
    refine .inr ⟨rfl, ?_⟩
    simp only [Watches.charge, hafter, credit]
    simp only [Watches.ensure, howner]

/-- What is owned stays owned. -/
theorem Settled.isSome_owner?_ensure (h : Settled t) (hplace : place.IsCanonical)
    (hx : (t.1.owner? x).isSome = true) : ((Watches.ensure t place).1.owner? x).isSome = true := by
  rw [h.owner?_ensure hplace]
  split_ifs
  · rfl
  · exact hx

theorem Settled.isSome_owner?_ensure_self (h : Settled t) (hplace : place.IsCanonical) :
    ((Watches.ensure t place).1.owner? place).isSome = true := by
  rw [h.owner?_ensure hplace, Location.startsWith_self]
  cases howner : t.1.owner? place <;> simp

end Watches

end IndexControl
