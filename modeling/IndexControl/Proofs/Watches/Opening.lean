import IndexControl.Proofs.Watches.Exchange

/-!
# What requests add to the roots and take from them

Requests that reach settled roots without any on-demand root among them leave two kinds of roots.
Those that are there on demand stand where a granted request asked for a place that no root owned.
The others are the roots there were, without those that lie below such a place: they have been
folded into the new root, and no record tells of them.

## Main definitions

* `Watches.opens`: a request asks for a place that no root owns.
* `Watches.folds`: a request that does so has the roots below its place folded.
* `Watches.Served`: what there is after some requests, seen from what there was before.

## Main results

* `Watches.Settled.served`: the two kinds of roots.
-/

namespace IndexControl.Watches

open RootSet

variable {t t₀ : RootSet × Watches} {p : ProbedRequest} {requests : List ProbedRequest}
  {place q : Location}

/-- Whether a request is granted a place that no root owns, which becomes a root on demand. -/
def opens (t : RootSet × Watches) (p : ProbedRequest) : Bool :=
  t.2.grants p && (t.1.owner? p.place).isNone

/-- Whether one of some requests has what is at a place folded into a root above it. -/
def folds (t : RootSet × Watches) (requests : List ProbedRequest) (q : Location) : Bool :=
  requests.any fun p => opens t p && q.isBelow p.place

theorem folds_iff :
    folds t requests q = true ↔
      ∃ p ∈ requests, opens t p = true ∧ q.isBelow p.place = true := by
  simp [folds]

theorem folds_concat :
    folds t (requests ++ [p]) q = (folds t requests q || opens t p && q.isBelow p.place) := by
  simp [folds]

/-- What there is after some requests, seen from what there was before. -/
structure Served (t₀ : RootSet × Watches) (requests : List ProbedRequest)
    (t : RootSet × Watches) : Prop where
  before : t₀.1.WellFormed
  settled : Settled t
  filters : t.1.filters = t₀.1.filters
  eligibility : t.2.eligibility = t₀.2.eligibility
  /-- What had an owner has one. -/
  owned : ∀ q, t.1.owner? q = none → t₀.1.owner? q = none
  /-- Roots on demand are where requests asked for them. -/
  opened : ∀ q, t.2.isOnDemand q = true → ∃ p ∈ requests, opens t₀ p = true ∧ p.place = q
  /-- The other roots are those there were, without those that have been folded. -/
  kept : ∀ q, (t.1.root? q).filter (fun _ => !t.2.isOnDemand q) =
    (t₀.1.root? q).filter (fun _ => !folds t₀ requests q)

theorem Served.nil (h : Settled t) (hnone : ∀ q, t.2.isOnDemand q = false) : Served t [] t where
  before := h.wellFormed
  settled := h
  filters := rfl
  eligibility := rfl
  owned _ := id
  opened q hq := absurd hq (by simp [hnone q])
  kept q := by simp [hnone q, folds]

theorem Served.grants_eq (h : Served t₀ requests t) (p : ProbedRequest) :
    t.2.grants p = t₀.2.grants p := by
  rw [grants, grants, allows, allows, h.eligibility]

/-- What lies below a place that has got an owner has been folded: the owner is on demand. -/
theorem Served.folds_of_owner? (h : Served t₀ requests t) {owner : Location}
    (howner : t.1.owner? place = some owner) (hfree : t₀.1.owner? place = none)
    (hbelow : q.isBelow place = true) : folds t₀ requests q = true := by
  obtain ⟨hroot, hcover⟩ := h.settled.wellFormed.owner?_eq_some_iff.1 howner
  cases hdemand : t.2.isOnDemand owner with
  | true =>
    obtain ⟨p, hp, hopens, rfl⟩ := h.opened owner hdemand
    have hstart := h.settled.wellFormed.startsWith_of_owner? howner
    exact folds_iff.2 ⟨p, hp, hopens, Location.isBelow_of_isBelow_of_startsWith hbelow hstart⟩
  | false =>
    -- A root that is not on demand was there before, and owned the place.
    obtain ⟨root, hfind⟩ := isRoot_iff.1 hroot
    have hkept := h.kept owner
    rw [hdemand, hfind] at hkept
    obtain ⟨hbefore, -⟩ := Option.filter_eq_some_iff.1 hkept.symm
    have hrec : t.1.isRecursiveRoot owner = t₀.1.isRecursiveRoot owner := by
      rw [isRecursiveRoot, isRecursiveRoot, hbefore, hfind]
    rw [hrec] at hcover
    rw [h.before.owner?_eq_some_iff.2 ⟨isRoot_iff.2 ⟨root, hbefore⟩, hcover⟩] at hfree
    cases hfree

/-- Counting a request changes nothing that is seen here. -/
theorem Served.charge (h : Served t₀ requests t) (place : Location)
    (requester? : Option Requester) : Served t₀ requests (charge t place requester?) := by
  have hdemand (q : Location) :
      (Watches.charge t place requester?).2.isOnDemand q = t.2.isOnDemand q := by
    simp only [Watches.charge]
    cases t.1.owner? place with
    | none => rfl
    | some owner => exact isOnDemand_credit ..
  refine ⟨h.before, h.settled.charge place requester?, h.filters, ?_, h.owned, fun q hq => ?_,
    fun q => ?_⟩
  · rw [eligibility_charge, h.eligibility]
  · exact h.opened q (hdemand q ▸ hq)
  · rw [hdemand]
    exact h.kept q

theorem isOnDemand_ensure (howner : t.1.owner? place = none) :
    (Watches.ensure t place).2.isOnDemand q = true ↔
      q = place ∨ q.isBelow place = false ∧ t.2.isOnDemand q = true := by
  rw [ensure_of_free howner, isOnDemand_gather]

/-- A place that no root owned is opened: it is on demand now, and the roots below it are folded. -/
private theorem Served.kept_ensure (h : Served t₀ requests t) (hp : p.place.IsCanonical)
    (hopens : opens t₀ p = true) (howner : t.1.owner? p.place = none) (q : Location) :
    ((Watches.ensure t p.place).1.root? q).filter
        (fun _ => !(Watches.ensure t p.place).2.isOnDemand q) =
      (t₀.1.root? q).filter fun _ => !folds t₀ (requests ++ [p]) q := by
  have hfree : t₀.1.owner? p.place = none := h.owned p.place howner
  rw [h.settled.root?_ensure hp howner, folds_concat, hopens, Bool.true_and]
  by_cases hq : q = p.place
  · have hroot := root?_eq_none_of_isRoot (h.before.owner?_eq_none_iff.1 hfree).1
    rw [(isOnDemand_ensure howner).2 (.inl hq), hq, hroot, if_pos rfl]
    rfl
  · rw [if_neg hq]
    cases hbelow : q.isBelow p.place with
    | true => cases t₀.1.root? q <;> simp
    | false =>
      have hsame : (Watches.ensure t p.place).2.isOnDemand q = t.2.isOnDemand q := by
        rw [Bool.eq_iff_iff, isOnDemand_ensure howner]
        simp [hq, hbelow]
      rw [hsame, Bool.or_false]
      exact h.kept q

/-- One more place is covered. -/
theorem Served.ensure (h : Served t₀ requests t) (hp : p.place.IsCanonical)
    (hgrants : t₀.2.grants p = true) :
    Served t₀ (requests ++ [p]) (ensure t p.place) := by
  have hbefore {q : Location} (hq : ∃ r ∈ requests, opens t₀ r = true ∧ r.place = q) :
      ∃ r ∈ requests ++ [p], opens t₀ r = true ∧ r.place = q :=
    hq.imp fun r hr => ⟨List.mem_append_left _ hr.1, hr.2⟩
  cases howner : t.1.owner? p.place with
  | some owner =>
    -- Nothing is folded now that has not been before.
    have hsame (q : Location) : folds t₀ (requests ++ [p]) q = folds t₀ requests q := by
      rw [folds_concat, Bool.or_eq_left_iff_imp, Bool.and_eq_true]
      rintro ⟨hopens, hbelow⟩
      rw [opens, Bool.and_eq_true, Option.isNone_iff_eq_none] at hopens
      exact h.folds_of_owner? howner hopens.2 hbelow
    rw [ensure_of_isSome (by rw [howner]; rfl)]
    exact ⟨h.before, h.settled, h.filters, h.eligibility, h.owned,
      fun q hq => hbefore (h.opened q hq), fun q => hsame q ▸ h.kept q⟩
  | none =>
    have hfree : t₀.1.owner? p.place = none := h.owned p.place howner
    have hopens : opens t₀ p = true := by rw [opens, hgrants, hfree]; rfl
    refine ⟨h.before, h.settled.ensure hp, (h.settled.filters_ensure hp).trans h.filters, ?_,
      fun q hq => ?_, fun q hq => ?_, h.kept_ensure hp hopens howner⟩
    · rw [eligibility_ensure, h.eligibility]
    · rw [h.settled.owner?_ensure hp] at hq
      split at hq
      · cases hq
      · exact h.owned q hq
    · rcases (isOnDemand_ensure howner).1 hq with rfl | ⟨-, hq⟩
      · exact ⟨p, List.mem_append_right _ List.mem_cons_self, hopens, rfl⟩
      · exact hbefore (h.opened q hq)

/-- One more request. -/
theorem Served.serve (h : Served t₀ requests t) (hp : p.place.IsCanonical) :
    Served t₀ (requests ++ [p]) (serve t p) := by
  cases hgrants : t.2.grants p with
  | true =>
    rw [h.settled.serve_of_grants hp hgrants]
    exact (h.ensure hp (h.grants_eq p ▸ hgrants)).charge p.place p.request.requester?
  | false =>
    have hopens : opens t₀ p = false := by rw [opens, ← h.grants_eq, hgrants]; rfl
    rw [h.settled.serve_of_not_grants hgrants]
    refine ⟨h.before, h.settled, h.filters, h.eligibility, h.owned, fun q hq => ?_, fun q => ?_⟩
    · exact (h.opened q hq).imp fun r hr => ⟨List.mem_append_left _ hr.1, hr.2⟩
    · rw [folds_concat, hopens, Bool.false_and, Bool.or_false]
      exact h.kept q

/-- **What there is after some requests**: roots on demand where the requests opened places, and the
roots there were, without those below such places. -/
theorem Settled.served (h : Settled t) (hnone : ∀ q, t.2.isOnDemand q = false)
    (hrequests : ∀ p ∈ requests, p.place.IsCanonical) :
    Served t requests (requests.foldl Watches.serve t) := by
  induction requests using List.reverseRecOn with
  | nil => exact .nil h hnone
  | append_singleton requests p ih =>
    rw [List.foldl_append]
    exact (ih fun q hq => hrequests q (List.mem_append_left _ hq)).serve
      (hrequests p (List.mem_append_right _ List.mem_cons_self))

end IndexControl.Watches
