import IndexControl.Proofs.Request.Uri
import IndexControl.Proofs.Roots.Coverage
import IndexControl.Proofs.Watches.Tracking
import IndexControl.Watches.Run

/-!
# How suspended roots come back

The suspended places that nothing covers are looked up before any of them is added again. They are
added in the order of places, so that one comes back before those that lie below it, which are then
refused and stay suspended.

## Main definitions

* `Watches.Restores`: what the return of some roots leaves at every place.
* `WatchedRoots.Placed`: the places of roots and records are canonical.

## Main results

* `Watches.restores_restoreEach`: roots that come back in order.
* `Watches.mem_restoreSuspended_iff`: which suspended roots come back.
* `WatchedRoots.Placed.run`: whatever is done, places stay canonical.
* `WatchedRoots.restoreSuspended_complete`: the return of suspended roots after any run.
-/

namespace IndexControl

/-- What comes later in the order of places does not lie above. -/
theorem Location.isBelow_of_lt {l m : Location} (h : compare l m = .lt) : l.isBelow m = false :=
  Bool.eq_false_iff.2 fun hbelow =>
    not_lt_of_prefix (startsWith_iff.1 (startsWith_of_isBelow hbelow)) h

namespace Watches

open RootSet

variable {w w' w'' : Watches} {s s' s'' : RootSet} {place root file q : Location}
  {places back back' : List Location} {record : WatchRecord}

/-! ### Roots that come back one after the other -/

/-- Some roots have come back: each is on demand, with the record that was suspended, and has
folded in what lay below it. Nothing else has changed. -/
structure Restores (back : List Location) (w w' : Watches) (s s' : RootSet) : Prop where
  root? : ∀ q, s'.root? q =
    if q ∈ back then some ⟨.onDemand, none⟩
    else if back.any q.isBelow then none
    else s.root? q
  records : ∀ q, w'.records.find? q =
    if q ∈ back then (w.suspended.find? q).map fun record => { record with onDemand := true }
    else w.records.find? q
  suspended : ∀ q, w'.suspended.find? q = if q ∈ back then none else w.suspended.find? q

theorem Restores.refl (w : Watches) (s : RootSet) : Restores [] w w s s where
  root? _ := by simp
  records _ := by simp
  suspended _ := by simp

/-- Roots that come back in the order of places do not fold in any that have come back before. -/
theorem Restores.trans (h : Restores back w w' s s') (h' : Restores back' w' w'' s' s'')
    (hlater : ∀ x ∈ back, ∀ y ∈ back', compare x y = .lt) :
    Restores (back ++ back') w w'' s s'' where
  root? q := by
    rw [h'.root?, h.root?, List.any_append]
    by_cases hq' : q ∈ back'
    · simp [hq']
    by_cases hq : q ∈ back
    · have hnone : back'.any q.isBelow = false := List.any_eq_false.2 fun y hy => by
        rw [Location.isBelow_of_lt (hlater q hq y hy)]
        exact Bool.false_ne_true
      simp [hq, hq', hnone]
    · cases hbelow : back'.any q.isBelow <;> simp [hq, hq']
  records q := by
    rw [h'.records, h.records, h.suspended]
    by_cases hq' : q ∈ back'
    · have hq : q ∉ back := fun hq => by
        have hlt := hlater q hq q hq'
        rw [Std.ReflOrd.compare_self] at hlt
        contradiction
      simp [hq, hq']
    · simp [hq']
  suspended q := by
    rw [h'.suspended, h.suspended]
    by_cases hq' : q ∈ back' <;> simp [hq']

/-- A suspended root comes back where nothing owns its place. -/
theorem restoreOne_of_free (hs : s.WellFormed) (hplace : place.IsCanonical)
    (hfree : s.owner? place = none) (hfind : w.suspended.find? place = some record) :
    w.restoreOne s place =
      ({ w with
          suspended := w.suspended.erase place
          records := w.records.insert place { record with onDemand := true } },
        (s.add place .onDemand).1, true) := by
  have hadd := hs.add_free hplace hfree isRecursive_onDemand
  simp only [restoreOne, hadd, hfind, AddOutcome.isLive, ↓reduceIte]

/-- A root is refused below a recursive one. -/
theorem restoreOne_of_above (hs : s.WellFormed) (hplace : place.canonical = place)
    {above : Location} (habove : s.recursiveAbove? place = some above) (w : Watches) :
    w.restoreOne s place = (w, s, false) := by
  simp only [restoreOne, hs.add_of_recursiveAbove? hplace habove]
  cases w.suspended.find? place <;> rfl

theorem restores_restoreOne (hs : s.WellFormed) (hplace : place.IsCanonical)
    (hfree : s.owner? place = none) (hfind : w.suspended.find? place = some record) :
    Restores [place] w (w.restoreOne s place).1 s (w.restoreOne s place).2.1 := by
  rw [restoreOne_of_free hs hplace hfree hfind]
  refine ⟨fun q => ?_, fun q => ?_, fun q => ?_⟩
  · rw [hs.root?_add_free hplace hfree isRecursive_onDemand]
    simp
  · rw [OrderedMap.find?_insert]
    by_cases hq : q = place
    · simp [hq, hfind]
    · simp [hq]
  · rw [OrderedMap.find?_erase]
    simp

/-- Roots come back in order: each is refused below one that has come back before, and otherwise
takes its place. -/
theorem restores_restoreEach (hs : s.WellFormed) (hplaces : ∀ place ∈ places, place.IsCanonical)
    (hordered : places.Pairwise fun a b => compare a b = .lt)
    (hnew : ∀ place ∈ places, s.isRoot place = false)
    (hsuspended : ∀ place ∈ places, w.isSuspended place = true) :
    let t := w.restoreEach s places
    Restores t.2.2 w t.1 s t.2.1 ∧ t.2.2.Sublist places := by
  induction places generalizing w s with
  | nil => exact ⟨.refl w s, .slnil⟩
  | cons place places ih =>
    obtain ⟨hplace, hplaces⟩ := List.forall_mem_cons.1 hplaces
    obtain ⟨hfirst, hordered⟩ := List.pairwise_cons.1 hordered
    obtain ⟨hplaceNew, hnew⟩ := List.forall_mem_cons.1 hnew
    obtain ⟨hplaceSuspended, hsuspended⟩ := List.forall_mem_cons.1 hsuspended
    cases habove : s.recursiveAbove? place with
    | some above =>
      obtain ⟨hrestores, hsub⟩ := ih hs hplaces hordered hnew hsuspended
      simp only [restoreEach, restoreOne_of_above hs hplace.2 habove, Bool.false_eq_true, ↓reduceIte]
      exact ⟨hrestores, hsub.cons place⟩
    | none =>
      obtain ⟨record, hfind⟩ := OrderedMap.contains_iff.1 hplaceSuspended
      have hfree : s.owner? place = none := by
        rw [owner?, hplaceNew, habove]
        rfl
      have hne : ∀ x ∈ places, x ≠ place := by
        rintro x hx rfl
        have hlt := hfirst x hx
        rw [Std.ReflOrd.compare_self] at hlt
        contradiction
      have hone := restores_restoreOne hs hplace hfree hfind
      have heq := restoreOne_of_free hs hplace hfree hfind
      have hs' : (w.restoreOne s place).2.1.WellFormed := by
        rw [heq]
        exact hs.add hplace.1 .onDemand
      have hnew' : ∀ x ∈ places, (w.restoreOne s place).2.1.isRoot x = false := by
        intro x hx
        rw [heq, Bool.eq_false_iff, Ne, hs.isRoot_add_free hplace hfree isRecursive_onDemand]
        rintro (hself | ⟨-, hroot⟩)
        · exact hne x hx hself
        · exact Bool.noConfusion ((hnew x hx).symm.trans hroot)
      have hsuspended' : ∀ x ∈ places, (w.restoreOne s place).1.isSuspended x = true := by
        intro x hx
        rw [heq]
        exact OrderedMap.contains_erase.2 ⟨hsuspended x hx, hne x hx⟩
      obtain ⟨hrestores, hsub⟩ := ih hs' hplaces hordered hnew' hsuspended'
      have hback : (w.restoreOne s place).2.2 = true := by rw [heq]
      simp only [restoreEach, hback, ↓reduceIte]
      refine ⟨hone.trans hrestores ?_, hsub.cons_cons place⟩
      intro x hx y hy
      rw [List.mem_singleton.1 hx]
      exact hfirst y (hsub.subset hy)

theorem Restores.isRecursiveRoot (h : Restores back w w' s s') (hq : q ∈ back) :
    s'.isRecursiveRoot q = true := by
  rw [RootSet.isRecursiveRoot, h.root?, if_pos hq]
  exact isRecursive_onDemand

/-- What a root covers is still covered when other roots have come back, by the same root or by the
one into which it has been folded. -/
theorem Restores.covers (h : Restores back w w' s s') (hcovers : s.Covers root file) :
    ∃ root', s'.Covers root' file := by
  by_cases hroot : root ∈ back
  · exact ⟨root, covers_of_isRecursiveRoot (h.isRecursiveRoot hroot) hcovers.startsWith⟩
  by_cases hbelow : back.any root.isBelow = true
  · obtain ⟨above, habove, hbelow⟩ := List.any_eq_true.1 hbelow
    exact ⟨above, covers_of_isRecursiveRoot (h.isRecursiveRoot habove)
      (Location.startsWith_trans hcovers.startsWith (Location.startsWith_of_isBelow hbelow))⟩
  · obtain ⟨r, hr, hscope⟩ := hcovers
    exact ⟨root, r, by rw [h.root?, if_neg hroot, if_neg hbelow, hr], hscope⟩

section

variable (hs : s.WellFormed) (hplaces : ∀ place ∈ places, place.IsCanonical)
  (hordered : places.Pairwise fun a b => compare a b = .lt)
  (hfree : ∀ place ∈ places, s.owner? place = none)
  (hsuspended : ∀ place ∈ places, w.isSuspended place = true)

include hs hplaces hordered hfree hsuspended

/-- Of places that nothing owns each is one that has come back or lies below one. -/
theorem exists_mem_restoreEach (hq : q ∈ places) :
    ∃ root ∈ (w.restoreEach s places).2.2, q.startsWith root = true := by
  have hnew : ∀ place ∈ places, s.isRoot place = false := fun place hplace =>
    (hs.owner?_eq_none_iff.1 (hfree place hplace)).1
  obtain ⟨hrestores, -⟩ := restores_restoreEach hs hplaces hordered hnew hsuspended
  have hs' : (w.restoreEach s places).2.1.WellFormed := by
    rw [roots_restoreEach]
    exact hs.addEach hplaces
  have howned := (shelters_restoreEach w hs hplaces).2 q hq
  -- a root that owns the place now, and has not come back, would have owned it before
  rcases hs'.isOwned_iff.1 howned with hroot | ⟨above, hrec, hbelow⟩
  · refine ⟨q, by_contra fun hback => ?_, Location.startsWith_self q⟩
    obtain ⟨r, hr⟩ := isRoot_iff.1 hroot
    rw [hrestores.root?, if_neg hback, root?_eq_none_of_isRoot (hnew q hq), ite_self] at hr
    contradiction
  · refine ⟨above, by_contra fun hback => ?_, Location.startsWith_of_isBelow hbelow⟩
    have hbefore : s.isRecursiveRoot above = true := by
      rw [isRecursiveRoot, hrestores.root?, if_neg hback] at hrec
      split_ifs at hrec
      · contradiction
      · exact hrec
    have hout := (hs.owner?_eq_none_iff.1 (hfree q hq)).2 above hbefore
    exact Bool.noConfusion (hout.symm.trans hbelow)

/-- Of places that nothing owns just those come back that lie below no other of them. -/
theorem mem_restoreEach_iff :
    q ∈ (w.restoreEach s places).2.2 ↔
      q ∈ places ∧ ∀ above ∈ places, q.isBelow above = false := by
  have hnew : ∀ place ∈ places, s.isRoot place = false := fun place hplace =>
    (hs.owner?_eq_none_iff.1 (hfree place hplace)).1
  obtain ⟨hrestores, hsub⟩ := restores_restoreEach hs hplaces hordered hnew hsuspended
  have hexists := fun q => exists_mem_restoreEach (q := q) hs hplaces hordered hfree hsuspended
  have hs' : (w.restoreEach s places).2.1.WellFormed := by
    rw [roots_restoreEach]
    exact hs.addEach hplaces
  constructor
  · refine fun hback => ⟨hsub.subset hback, fun above habove => Bool.eq_false_iff.2 fun hbelow => ?_⟩
    obtain ⟨root, hroot, hstart⟩ := hexists above habove
    have hself := isRoot_of_isRecursiveRoot (hrestores.isRecursiveRoot hback)
    have hout := hs'.outermost q root hself (hrestores.isRecursiveRoot hroot)
    exact Bool.noConfusion (hout.symm.trans (Location.isBelow_of_isBelow_of_startsWith hbelow hstart))
  · rintro ⟨hq, hout⟩
    obtain ⟨root, hroot, hstart⟩ := hexists q hq
    rcases Location.startsWith_iff_eq_or_isBelow.1 hstart with rfl | hbelow
    · exact hroot
    · exact Bool.noConfusion ((hout root (hsub.subset hroot)).symm.trans hbelow)

end

/-! ### Where records come to be -/

/-- Following notifications adds no record, and suspends only what was recorded. -/
theorem contains_of_follow (event : RootEvent) :
    ((w.follow event).records.contains q = true → w.records.contains q = true) ∧
      ((w.follow event).suspended.contains q = true →
        w.suspended.contains q = true ∨ w.records.contains q = true) := by
  refine ⟨fun h => (contains_follow.1 h).1, fun h => ?_⟩
  have hall : (w.followAll [event]).suspended.contains q = true := h
  exact contains_suspended_of_followAll hall

/-- A request records something only at a root. -/
theorem contains_of_apply {p : ProbedRequest} {a : Applied} (hplace : p.place.canonical = p.place)
    (happly : w.apply s p = .ok a) (hq : a.watches.records.contains q = true) :
    w.records.contains q = true ∨ a.roots.isRoot q = true := by
  have hcredit {w : Watches} {owner : Location} {requester? : Option Requester}
      (hq : (w.credit owner requester?).records.contains q = true) :
      q = owner ∨ w.records.contains q = true := by
    cases requester? with
    | none => exact .inr hq
    | some requester => exact contains_alter.1 hq
  rcases apply_cases happly with ⟨-, rfl⟩ | ⟨-, owner, howner, rfl⟩ | ⟨-, -, hlive, rfl⟩
  · exact .inl hq
  · rcases hcredit hq with rfl | hq
    · exact .inr (isRoot_of_owner? howner)
    · exact .inl hq
  · have hroot := isRoot_add hlive
    rw [hplace] at hroot
    rcases hcredit hq with rfl | hq
    · exact .inr hroot
    · rcases contains_alter.1 hq with rfl | hq
      · exact .inr hroot
      · exact .inl hq

/-- Only roots that are brought back have records anew. -/
theorem contains_of_restoreSuspended
    (h : (w.restoreSuspended s).1.records.contains q = true) :
    w.records.contains q = true ∨ w.suspended.contains q = true := by
  by_cases hq : q ∈ w.suspended.keys
  · exact .inr (OrderedMap.contains_iff.2 (OrderedMap.mem_keys_iff.1 hq))
  · rw [restoreSuspended, OrderedMap.contains,
      find?_restoreEach fun hmem => hq (List.mem_of_mem_filter hmem)] at h
    exact .inl h

end Watches

namespace WatchedRoots

open RootSet Watches

variable {t : WatchedRoots}

/-! ### Runs -/

/-- The roots are well-formed, and the places of all records are canonical. -/
structure Placed (t : WatchedRoots) : Prop where
  wellFormed : t.roots.WellFormed
  canonical : ∀ q, t.watches.records.contains q = true ∨ t.watches.suspended.contains q = true →
    q.IsCanonical

theorem placed_empty (filters : Filters) : (empty filters).Placed where
  wellFormed := wellFormed_empty filters
  canonical _ h := h.elim (fun h => Bool.noConfusion h) fun h => Bool.noConfusion h

/-- Whatever is changed about the records, their places stay canonical if new ones are. -/
theorem Placed.of_imp {t' : WatchedRoots} (h : t.Placed) (hs : t'.roots.WellFormed)
    (hrecords : ∀ q, t'.watches.records.contains q = true →
      t.watches.records.contains q = true ∨ t.watches.suspended.contains q = true ∨
        t'.roots.isRoot q = true)
    (hsuspended : ∀ q, t'.watches.suspended.contains q = true →
      t.watches.suspended.contains q = true ∨ t.watches.records.contains q = true) :
    t'.Placed where
  wellFormed := hs
  canonical q hq := by
    rcases hq with hq | hq
    · rcases hrecords q hq with hold | hold | hroot
      · exact h.canonical q (.inl hold)
      · exact h.canonical q (.inr hold)
      · exact hs.canonical q hroot
    · exact h.canonical q (hsuspended q hq).symm

/-- Places stay canonical when a request is applied. -/
theorem Placed.ask (h : t.Placed) (request : IndexRequest) (info : FileInfo) :
    (t.ask request info).Placed := by
  rw [WatchedRoots.ask]
  cases hlocation : Uri.location? request.uri with
  | none => exact h
  | some place =>
    have hplace := Uri.isCanonical_of_location? hlocation
    simp only
    cases happly : t.watches.apply t.roots ⟨request, place, info⟩ with
    | error e => exact h
    | ok a =>
      have hchanges : Changes Location.IsSpelled t.roots a.roots := changes_apply hplace.1 happly
      refine h.of_imp (hchanges.wellFormed h.wellFormed) (fun q hq => ?_) fun q hq => .inl ?_
      · exact (contains_of_apply hplace.2 happly hq).imp_right .inr
      · exact suspended_apply happly ▸ hq

theorem Placed.isCanonical_suspended (h : t.Placed) :
    ∀ place ∈ t.watches.suspended.keys, place.IsCanonical := fun place hplace =>
  h.canonical place (.inr (OrderedMap.contains_iff.2 (OrderedMap.mem_keys_iff.1 hplace)))

/-- Whatever is done, places stay canonical. -/
theorem Placed.apply (h : t.Placed) (op : WatchOp) : (t.apply op).Placed := by
  cases op with
  | change op => exact ⟨h.wellFormed.apply op, h.canonical⟩
  | ask request info => exact h.ask request info
  | release requester =>
    refine h.of_imp ((changes_release t.watches t.roots requester).wellFormed h.wellFormed) ?_ ?_
    · exact fun q hq => .inl (contains_of_release (s := t.roots) hq)
    · exact fun q hq => .inl (contains_suspended_of_release (s := t.roots) hq)
  | restoreSuspended =>
    have hchanges := changes_restoreSuspended (P := Location.IsSpelled) t.watches t.roots
      fun place hplace => (h.isCanonical_suspended place hplace).1
    refine h.of_imp (hchanges.wellFormed h.wellFormed) ?_ ?_
    · exact fun q hq => (contains_of_restoreSuspended hq).imp_right .inl
    · exact fun q hq => .inl (contains_suspended_of_restoreSuspended hq)
  | markStatic path =>
    refine h.of_imp h.wellFormed (fun q hq => .inl ?_) fun q hq => .inl hq
    exact (OrderedMap.contains_modify ..).symm.trans hq
  | restrict eligibility => exact ⟨h.wellFormed, h.canonical⟩
  | follow event =>
    refine h.of_imp h.wellFormed (fun q hq => .inl ?_) fun q hq => ?_
    · exact (contains_of_follow event).1 hq
    · exact (contains_of_follow event).2 hq

theorem Placed.run (h : t.Placed) (ops : List WatchOp) : (t.run ops).Placed := by
  induction ops generalizing t with
  | nil => exact h
  | cons op ops ih => exact ih (h.apply op)

/-! ### The return of suspended roots -/

/-- The suspended places that nothing owns, in order. -/
def uncovered (t : WatchedRoots) : List Location :=
  t.watches.suspended.keys.filter fun place => (t.roots.owner? place).isNone

theorem mem_uncovered_iff {place : Location} : place ∈ t.uncovered ↔
    t.watches.isSuspended place = true ∧ ¬t.roots.IsOwned place := by
  rw [uncovered, List.mem_filter, OrderedMap.mem_keys_iff, ← OrderedMap.contains_iff, IsOwned,
    Option.not_isSome_iff_eq_none, Option.isNone_iff_eq_none]
  rfl

theorem owner?_of_mem_uncovered {place : Location} (hplace : place ∈ t.uncovered) :
    t.roots.owner? place = none :=
  Option.not_isSome_iff_eq_none.1 (mem_uncovered_iff.1 hplace).2

theorem pairwise_uncovered (t : WatchedRoots) :
    t.uncovered.Pairwise fun a b => compare a b = .lt :=
  (OrderedMap.pairwise_keys _).filter _

section

variable (h : t.Placed)

include h

theorem Placed.isCanonical_uncovered : ∀ place ∈ t.uncovered, place.IsCanonical :=
  fun place hplace => h.isCanonical_suspended place (List.mem_of_mem_filter hplace)

/-- What the return of all suspended roots leaves. -/
theorem Placed.restores :
    let u := t.watches.restoreSuspended t.roots
    Restores u.2.2 t.watches u.1 t.roots u.2.1 ∧ u.2.2.Sublist t.uncovered :=
  restores_restoreEach h.wellFormed h.isCanonical_uncovered (pairwise_uncovered t)
    (fun _ hplace => (h.wellFormed.owner?_eq_none_iff.1 (owner?_of_mem_uncovered hplace)).1)
    fun _ hplace => (mem_uncovered_iff.1 hplace).1

/-- Which suspended roots come back. -/
theorem Placed.mem_restoreSuspended_iff {place : Location} :
    place ∈ (t.watches.restoreSuspended t.roots).2.2 ↔
      place ∈ t.uncovered ∧ ∀ above ∈ t.uncovered, place.isBelow above = false :=
  mem_restoreEach_iff h.wellFormed h.isCanonical_uncovered (pairwise_uncovered t)
    (fun _ => owner?_of_mem_uncovered) fun _ hplace => (mem_uncovered_iff.1 hplace).1

/-- What has an owner keeps one, and every suspended place gets one. -/
theorem Placed.isOwned_restoreSuspended :
    (∀ q, t.roots.IsOwned q → (t.watches.restoreSuspended t.roots).2.1.IsOwned q) ∧
      ∀ place, t.watches.isSuspended place = true →
        (t.watches.restoreSuspended t.roots).2.1.IsOwned place := by
  obtain ⟨hshelters, howned⟩ :=
    shelters_restoreEach t.watches h.wellFormed h.isCanonical_uncovered
  refine ⟨hshelters.owned, fun place hplace => ?_⟩
  by_cases hbefore : t.roots.IsOwned place
  · exact hshelters.owned place hbefore
  · exact howned place (mem_uncovered_iff.2 ⟨hplace, hbefore⟩)

end

/-- **Suspended roots come back completely.** After anything has been done, in any order, to an empty
set of roots and to the records of who watches them, let each recorded place be a root or lie below a
recursive one. When the suspended roots are brought back:

* Every place that is still suspended has an owner. The places that come back are those that were
  suspended and had none, other than those below another one of these.
* A root that comes back is a new one with the flags of roots on demand. Its record, where there was
  none, is the one that was suspended, with the same counts and as one of a root on demand.
* All other records, suspended or not, are as they were.
* Every other root is there as it was, or lies below one that has come back.
* What a root covered is still covered by one, and what had an owner has one. -/
theorem restoreSuspended_complete (filters : Filters) (ops : List WatchOp)
    (hwatched : ∀ place, ((empty filters).run ops).watches.records.contains place = true →
      ((empty filters).run ops).roots.IsOwned place) :
    let t := (empty filters).run ops
    let u := t.watches.restoreSuspended t.roots
    (∀ place, u.1.isSuspended place = true → u.2.1.IsOwned place) ∧
    (∀ place, place ∈ u.2.2 ↔
      (t.watches.isSuspended place = true ∧ ¬t.roots.IsOwned place) ∧
        ∀ above, t.watches.isSuspended above = true ∧ ¬t.roots.IsOwned above →
          place.isBelow above = false) ∧
    (∀ place ∈ u.2.2, u.2.1.root? place = some ⟨.onDemand, none⟩ ∧
      t.watches.records.find? place = none ∧
      ∃ record, t.watches.suspended.find? place = some record ∧
        u.1.records.find? place = some { record with onDemand := true }) ∧
    (∀ place, place ∉ u.2.2 →
      u.1.records.find? place = t.watches.records.find? place ∧
      u.1.suspended.find? place = t.watches.suspended.find? place) ∧
    (∀ root r, t.roots.root? root = some r →
      u.2.1.root? root = some r ∨ ∃ above ∈ u.2.2, root.isBelow above = true) ∧
    (∀ root file, t.roots.Covers root file → ∃ root', u.2.1.Covers root' file) ∧
    (∀ file, t.roots.IsOwned file → u.2.1.IsOwned file) := by
  intro t u
  have h : t.Placed := (placed_empty filters).run ops
  obtain ⟨hrestores, hsub⟩ := h.restores
  obtain ⟨hkept, howned⟩ := h.isOwned_restoreSuspended
  have hnone (place : Location) (hplace : place ∈ u.2.2) : ¬t.roots.IsOwned place :=
    (mem_uncovered_iff.1 (hsub.subset hplace)).2
  refine ⟨fun place hplace => ?_, fun place => ?_, fun place hplace => ⟨?_, ?_, ?_⟩,
    fun place hplace => ⟨?_, ?_⟩, fun root r hr => ?_, fun root file => hrestores.covers, hkept⟩
  · exact howned place (contains_suspended_of_restoreSuspended hplace)
  · simp only [← mem_uncovered_iff]
    exact h.mem_restoreSuspended_iff
  · exact (hrestores.root? place).trans (if_pos hplace)
  · refine OrderedMap.contains_eq_false_iff.1 (Bool.eq_false_iff.2 fun hrecord => ?_)
    exact hnone place hplace (hwatched place hrecord)
  · obtain ⟨record, hfind⟩ :=
      OrderedMap.contains_iff.1 (mem_uncovered_iff.1 (hsub.subset hplace)).1
    exact ⟨record, hfind, by rw [hrestores.records, if_pos hplace, hfind, Option.map_some]⟩
  · exact (hrestores.records place).trans (if_neg hplace)
  · exact (hrestores.suspended place).trans (if_neg hplace)
  · have hold : root ∉ u.2.2 := fun hback =>
      hnone root hback (isOwned_of_isRoot (isRoot_iff.2 ⟨r, hr⟩))
    rw [hrestores.root?, if_neg hold, hr]
    by_cases hbelow : u.2.2.any root.isBelow = true
    · exact .inr (List.any_eq_true.1 hbelow)
    · exact .inl (if_neg hbelow)

/-- The suspended roots at `/a/b/d` and `/a/b` are left without a cover. The upper one comes back and
takes over the plain root at `/a/b/d/e`, and the lower one stays suspended below it. -/
theorem restoreSuspended_complete_nested :
    let place (text : String) : Location := (Path.ofString text).location
    let directory : FileInfo := ⟨.directory, none, none, false⟩
    let cover (text : String) : List WatchOp :=
      [.change (.add (Path.ofString "/a") .recurse), .follow (.absorbed (place text) (place "/a")),
        .change (.remove (Path.ofString "/a"))]
    let ops : List WatchOp :=
      [.ask (.directory "file:///z" (some "p")) directory,
        .ask (.directory "file:///a/b/d" (some "p")) directory] ++ cover "/a/b/d" ++
      [.ask (.directory "file:///a/b" (some "q")) directory] ++ cover "/a/b" ++
      [.change (.add (Path.ofString "/a/b/d/e") .monitor)]
    let t := (empty Filters.none).run ops
    let u := t.watches.restoreSuspended t.roots
    (∀ place, t.watches.records.contains place = true → t.roots.IsOwned place) ∧
      t.watches.suspended.keys = [place "/a/b", place "/a/b/d"] ∧ u.2.2 = [place "/a/b"] ∧
      u.2.1.IsOwned (place "/a/b/d") ∧
      (u.2.1.root? (place "/a/b/d/e") = some ⟨.monitor, none⟩ ∨
        ∃ above ∈ u.2.2, (place "/a/b/d/e").isBelow above = true) ∧
      ∃ root, u.2.1.Covers root (place "/a/b/d/e/f") := by
  intro place directory cover ops t u
  have hwatched : ∀ place, t.watches.records.contains place = true → t.roots.IsOwned place := by
    intro place hrecord
    have hall : ∀ place ∈ t.watches.records.keys, t.roots.IsOwned place := by decide +kernel
    exact hall place (OrderedMap.mem_keys_iff.2 (OrderedMap.contains_iff.1 hrecord))
  -- the run goes by its names, so that no step evaluates it to compare two statements
  have hcomplete := restoreSuspended_complete .none ops hwatched
  extract_lets at hcomplete
  obtain ⟨howned, -, -, -, hroots, hcovers, -⟩ := hcomplete
  exact ⟨hwatched, by decide +kernel, by decide +kernel, howned _ (by decide +kernel),
    hroots _ _ (by decide +kernel), hcovers (place "/a/b/d/e") _ (by decide +kernel)⟩

end WatchedRoots

end IndexControl
