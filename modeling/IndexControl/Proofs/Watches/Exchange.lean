import IndexControl.Proofs.Watches.Serving

/-!
# Requests commute

The parts of different requests may be exchanged: a place that is covered later takes over what
was counted below it, and places apart are covered independently. So requests may be applied in
any order.

## Main results

* `Watches.Settled.ensure_comm`, `Watches.Settled.ensure_charge`, `Watches.charge_comm`: parts of
  different requests may be exchanged.
* `Watches.Settled.serve_comm`, `Watches.Settled.foldl_serve_perm`: so may requests.
-/

namespace IndexControl

namespace RootSet

variable {s s' : RootSet}

theorem ext_root? (hroots : ∀ x, s.root? x = s'.root? x) (hfilters : s.filters = s'.filters)
    (hevents : s.events = s'.events) : s = s' := by
  obtain ⟨roots, filters, events⟩ := s
  obtain ⟨roots', filters', events'⟩ := s'
  obtain rfl : filters = filters' := hfilters
  obtain rfl : events = events' := hevents
  obtain rfl : roots = roots' := OrderedMap.ext_find? hroots
  rfl

end RootSet

namespace Watches

open RootSet

variable {t : RootSet × Watches} {p q : ProbedRequest} {place other x : Location}
  {requester? requester?' : Option Requester}

/-! ### Exchanging parts -/

theorem ensure_of_isSome (h : (t.1.owner? place).isSome = true) : ensure t place = t := by
  obtain ⟨owner, howner⟩ := Option.isSome_iff_exists.1 h
  rw [ensure, howner]

/-- Requests are counted in any order. -/
theorem charge_comm (t : RootSet × Watches) (place other : Location)
    (requester? requester?' : Option Requester) :
    charge (charge t place requester?) other requester?' =
      charge (charge t other requester?') place requester? := by
  simp only [charge]
  cases t.1.owner? place <;> cases t.1.owner? other <;> cases requester? <;> cases requester?' <;>
    simp only [credit]
  exact congrArg (Prod.mk t.1) (count_comm ..)

theorem charge_none (t : RootSet × Watches) (place : Location) : charge t place none = t := by
  rw [charge]
  cases t.1.owner? place <;> rfl

/-- A request that is counted at the root of its place may be counted after another place has been
covered: if the root is folded into the new one, the count goes along. -/
theorem Settled.ensure_charge (h : Settled t) (hother : other.IsCanonical)
    (howned : (t.1.owner? place).isSome = true) (requester? : Option Requester) :
    Watches.ensure (Watches.charge t place requester?) other =
      Watches.charge (Watches.ensure t other) place requester? := by
  obtain ⟨owner, howner⟩ := Option.isSome_iff_exists.1 howned
  cases requester? with
  | none => rw [charge_none, charge_none]
  | some requester =>
    cases hfree : t.1.owner? other with
    | some owner' =>
      have hsame (t' : RootSet × Watches) (ht' : t'.1 = t.1) : Watches.ensure t' other = t' :=
        ensure_of_isSome (by rw [ht', hfree]; rfl)
      rw [hsame (Watches.charge t place (some requester)) rfl, hsame t rfl]
    | none =>
      have howner' : (Watches.ensure t other).1.owner? place =
          if owner.isBelow other = true then some other else some owner := by
        simp only [h.owner?_ensure hother, hfree, howner, true_and,
          h.wellFormed.startsWith_iff_of_free howner hfree]
      have hnew : owner ≠ other := by
        rintro rfl
        have hroot := isRoot_of_owner? howner
        rw [(h.wellFormed.owner?_eq_none_iff.1 hfree).1] at hroot
        exact Bool.noConfusion hroot
      simp only [Watches.charge, howner', howner]
      simp only [Watches.ensure, hfree, credit]
      refine congrArg (Prod.mk _) ?_
      by_cases hbelow : owner.isBelow other = true
      · rw [if_pos hbelow]
        exact gather_count_below hbelow
      · rw [if_neg hbelow]
        exact gather_count_apart hnew (by simpa using hbelow)

theorem ensure_of_free (hfree : t.1.owner? place = none) :
    ensure t place = ((t.1.add place .onDemand).1.drain.2, t.2.gather place) := by
  rw [ensure, hfree]

theorem Settled.root?_ensure (h : Settled t) (hplace : place.IsCanonical)
    (hfree : t.1.owner? place = none) (x : Location) :
    (Watches.ensure t place).1.root? x =
      if x = place then some ⟨.onDemand, none⟩
      else if x.isBelow place then none else t.1.root? x := by
  rw [ensure_of_free hfree]
  exact h.wellFormed.root?_add_free hplace hfree isRecursive_onDemand x

theorem Settled.filters_ensure (h : Settled t) (hplace : place.IsCanonical) :
    (Watches.ensure t place).1.filters = t.1.filters := by
  cases hfree : t.1.owner? place with
  | some owner => rw [Watches.ensure, hfree]
  | none =>
    rw [ensure_of_free hfree, h.wellFormed.add_free hplace hfree isRecursive_onDemand]
    rfl

/-- A new root that is folded into a newer one leaves no trace. -/
theorem Settled.ensure_ensure_above (h : Settled t) (hplace : place.IsCanonical)
    (hother : other.IsCanonical) (hfree : t.1.owner? place = none)
    (hfree' : t.1.owner? other = none) (hbelow : place.isBelow other = true) :
    Watches.ensure (Watches.ensure t place) other = Watches.ensure t other := by
  have hlower := h.ensure hplace
  have hstart : ¬other.startsWith place = true := fun hstart => by
    have hself := Location.isBelow_of_isBelow_of_startsWith hbelow hstart
    rw [Location.isBelow_self] at hself
    exact Bool.noConfusion hself
  have hfree'' : (Watches.ensure t place).1.owner? other = none := by
    rw [h.owner?_ensure hplace, if_neg fun hand => hstart hand.2, hfree']
  refine Prod.ext (ext_root? (fun x => ?_) ?_ ?_) ?_
  · rw [hlower.root?_ensure hother hfree'', h.root?_ensure hplace hfree, h.root?_ensure hother hfree']
    by_cases hx : x = other
    · simp [hx]
    · by_cases hx' : x.isBelow other = true
      · simp [hx, hx']
      · have hne : x ≠ place := fun heq => hx' (heq ▸ hbelow)
        have hout : ¬x.isBelow place = true :=
          fun hlow => hx' (Location.isBelow_trans hlow hbelow)
        simp [hx, hx', hne, hout]
  · rw [hlower.filters_ensure hother, h.filters_ensure hplace, h.filters_ensure hother]
  · rw [(hlower.ensure hother).quiet, (h.ensure hother).quiet]
  · rw [ensure_of_free hfree'', ensure_of_free hfree, ensure_of_free hfree']
    exact gather_gather (h.not_recorded hfree) hbelow

/-- New roots apart from each other do not disturb each other. -/
theorem Settled.ensure_ensure_apart (h : Settled t) (hplace : place.IsCanonical)
    (hother : other.IsCanonical) (hfree : t.1.owner? place = none)
    (hfree' : t.1.owner? other = none) (hout : place.startsWith other = false)
    (hout' : other.startsWith place = false) :
    Watches.ensure (Watches.ensure t place) other =
      Watches.ensure (Watches.ensure t other) place := by
  have hne : place ≠ other := by
    rintro rfl
    rw [Location.startsWith_self] at hout
    exact Bool.noConfusion hout
  have hbelow {l m : Location} (hlm : l.startsWith m = false) : l.isBelow m = false := by
    rw [Bool.eq_false_iff]
    intro hbelow
    rw [Location.startsWith_of_isBelow hbelow] at hlm
    exact Bool.noConfusion hlm
  have hstill : (Watches.ensure t place).1.owner? other = none := by
    rw [h.owner?_ensure hplace, hout']
    simpa using hfree'
  have hstill' : (Watches.ensure t other).1.owner? place = none := by
    rw [h.owner?_ensure hother, hout]
    simpa using hfree
  refine Prod.ext (ext_root? (fun x => ?_) ?_ ?_) ?_
  · rw [(h.ensure hplace).root?_ensure hother hstill, h.root?_ensure hplace hfree,
      (h.ensure hother).root?_ensure hplace hstill', h.root?_ensure hother hfree']
    by_cases hx : x = place
    · subst hx
      simp [hne, hbelow hout]
    · by_cases hx' : x = other
      · subst hx'
        simp [hx, hbelow hout']
      · cases x.isBelow place <;> cases x.isBelow other <;> simp [hx, hx']
  · rw [(h.ensure hplace).filters_ensure hother, h.filters_ensure hplace,
      (h.ensure hother).filters_ensure hplace, h.filters_ensure hother]
  · rw [((h.ensure hplace).ensure hother).quiet, ((h.ensure hother).ensure hplace).quiet]
  · rw [ensure_of_free hstill, ensure_of_free hfree, ensure_of_free hstill', ensure_of_free hfree']
    exact gather_comm hne (hbelow hout) (hbelow hout')

/-- Places are covered in any order. -/
theorem Settled.ensure_comm (h : Settled t) (hplace : place.IsCanonical)
    (hother : other.IsCanonical) :
    Watches.ensure (Watches.ensure t place) other =
      Watches.ensure (Watches.ensure t other) place := by
  by_cases howned : (t.1.owner? place).isSome = true
  · rw [ensure_of_isSome howned, ensure_of_isSome (h.isSome_owner?_ensure hother howned)]
  by_cases howned' : (t.1.owner? other).isSome = true
  · rw [ensure_of_isSome howned', ensure_of_isSome (h.isSome_owner?_ensure hplace howned')]
  have hfree : t.1.owner? place = none := by simpa using howned
  have hfree' : t.1.owner? other = none := by simpa using howned'
  -- The upper one of two nested places owns the lower one.
  have hnested {p q : Location} (hp : p.IsCanonical) (hq : q.IsCanonical)
      (hpfree : t.1.owner? p = none) (hqfree : t.1.owner? q = none)
      (hstart : p.startsWith q = true) :
      Watches.ensure (Watches.ensure t p) q = Watches.ensure (Watches.ensure t q) p := by
    have hcovered : ((Watches.ensure t q).1.owner? p).isSome = true := by
      rw [h.owner?_ensure hq, if_pos ⟨hqfree, hstart⟩]
      rfl
    rcases Location.startsWith_iff_eq_or_isBelow.1 hstart with rfl | hbelow
    · rfl
    · rw [ensure_of_isSome hcovered, h.ensure_ensure_above hp hq hpfree hqfree hbelow]
  cases hout : place.startsWith other with
  | true => exact hnested hplace hother hfree hfree' hout
  | false =>
    cases hout' : other.startsWith place with
    | true => exact (hnested hother hplace hfree' hfree hout').symm
    | false => exact h.ensure_ensure_apart hplace hother hfree hfree' hout hout'

/-! ### Exchanging requests -/

/-- Two requests may be applied in either order. -/
theorem Settled.serve_comm (h : Settled t) (hp : p.place.IsCanonical) (hq : q.place.IsCanonical) :
    Watches.serve (Watches.serve t p) q = Watches.serve (Watches.serve t q) p := by
  have hafter := h.serve hp
  have hafter' := h.serve hq
  cases hgp : t.2.grants p with
  | false =>
    rw [h.serve_of_not_grants hgp,
      hafter'.serve_of_not_grants ((h.grants_serve hq p).trans hgp)]
  | true =>
    cases hgq : t.2.grants q with
    | false =>
      rw [h.serve_of_not_grants hgq,
        hafter.serve_of_not_grants ((h.grants_serve hp q).trans hgq)]
    | true =>
      have hensure := h.ensure hp
      have hensure' := h.ensure hq
      rw [hafter.serve_of_grants hq ((h.grants_serve hp q).trans hgq),
        hafter'.serve_of_grants hp ((h.grants_serve hq p).trans hgp),
        h.serve_of_grants hp hgp, h.serve_of_grants hq hgq,
        hensure.ensure_charge hq (h.isSome_owner?_ensure_self hp),
        hensure'.ensure_charge hp (h.isSome_owner?_ensure_self hq), h.ensure_comm hp hq]
      exact charge_comm ..

/-- Requests may be applied in any order. -/
theorem Settled.foldl_serve_perm (h : Settled t) {requests requests' : List ProbedRequest}
    (hcanonical : ∀ p ∈ requests, p.place.IsCanonical) (hperm : requests.Perm requests') :
    requests.foldl Watches.serve t = requests'.foldl Watches.serve t := by
  induction hperm generalizing t with
  | nil => rfl
  | cons p _ ih =>
    obtain ⟨hp, hrest⟩ := List.forall_mem_cons.1 hcanonical
    exact ih (h.serve hp) hrest
  | swap p q rest =>
    obtain ⟨hq, hp, -⟩ : q.place.IsCanonical ∧ p.place.IsCanonical ∧ _ := by
      simpa only [List.forall_mem_cons] using hcanonical
    simp only [List.foldl_cons, h.serve_comm hq hp]
  | trans hperm _ ih ih' =>
    exact (ih h hcanonical).trans (ih' h fun p hp => hcanonical p (hperm.mem_iff.2 hp))

end Watches

end IndexControl
