import IndexControl.Proofs.Watches.Holders

/-!
# What a new root on demand gathers

A new root on demand gets the records of all roots that are folded into it. Their places are
visited in the order of paths, but merging does not depend on the order, and it does not matter
either whether some of them have been gathered by a root in between.

## Main definitions

* `Watches.recordsAt`: the records at some places.
* `Watches.gathered`, `Watches.gather`: the record of a new root on demand.

## Main results

* `Watches.gathered_eq`: the record, from any list of the places below.
* `Watches.followAll_absorbed`: following the notifications of a new root gathers.
* `Watches.gather_gather`, `Watches.gather_comm`: roots below one another and apart.
* `Watches.gather_count_below`, `Watches.gather_count_apart`, `Watches.count_comm`: requests
  that are counted before or after.
-/

namespace IndexControl

open WatchRecord

namespace WatchRecord

/-- One more request of a requester may be counted before merging or after. -/
theorem joined_cons_count (r : WatchRecord) (requester : Requester) (records : List WatchRecord) :
    joined (r.count requester 1 :: records) = (joined (r :: records)).count requester 1 := by
  have hassoc : (⟨true, .empty⟩ : WatchRecord).merge (r.merge (claim requester)) =
      (WatchRecord.merge ⟨true, .empty⟩ r).merge (claim requester) := (merge_assoc ..).symm
  rw [count_eq_merge, count_eq_merge, joined, List.foldl_cons, hassoc, foldl_merge, merge_right_comm,
    ← foldl_merge]
  rfl

theorem joined_cons_claim (requester : Requester) (records : List WatchRecord) :
    joined (claim requester :: records) = (joined records).count requester 1 := by
  have hperm : (claim requester :: records).Perm (records ++ [claim requester]) :=
    (List.perm_append_singleton ..).symm
  rw [joined_perm hperm, joined, List.foldl_concat, count_eq_merge]
  rfl

theorem count_comm (r : WatchRecord) (requester other : Requester) :
    (r.count requester 1).count other 1 = (r.count other 1).count requester 1 := by
  simp only [count_eq_merge]
  exact merge_right_comm ..

end WatchRecord

namespace Watches

variable {w w' : Watches} {place root other p q : Location} {requester requester' : Requester}

theorem ext_find? (hrecords : ∀ x, w.records.find? x = w'.records.find? x)
    (hsuspended : w.suspended = w'.suspended) (heligibility : w.eligibility = w'.eligibility) :
    w = w' := by
  obtain ⟨records, suspended, eligibility⟩ := w
  obtain ⟨records', suspended', eligibility'⟩ := w'
  obtain rfl : suspended = suspended' := hsuspended
  obtain rfl : eligibility = eligibility' := heligibility
  obtain rfl : records = records' := OrderedMap.ext_find? hrecords
  rfl

/-! ### Several records -/

/-- The records at some places, where there are any. -/
def recordsAt (w : Watches) (places : List Location) : List WatchRecord :=
  places.filterMap w.records.find?

theorem recordsAt_filter (w : Watches) (places : List Location) :
    w.recordsAt (places.filter w.records.contains) = w.recordsAt places := by
  rw [recordsAt, recordsAt, List.filterMap_filter]
  congr 1
  funext x
  rw [OrderedMap.contains]
  cases w.records.find? x <;> rfl

/-- Lists of the same places with records give the same records. -/
theorem recordsAt_perm {places places' : List Location} (hnodup : places.Nodup)
    (hnodup' : places'.Nodup)
    (h : ∀ x, w.records.contains x = true → (x ∈ places ↔ x ∈ places')) :
    (w.recordsAt places).Perm (w.recordsAt places') := by
  rw [← recordsAt_filter w places, ← recordsAt_filter w places']
  refine List.Perm.filterMap _ ((List.perm_ext_iff_of_nodup (hnodup.filter _)
    (hnodup'.filter _)).2 fun x => ?_)
  rw [List.mem_filter, List.mem_filter]
  exact and_congr_left fun hx => h x hx

theorem recordsAt_congr {places : List Location}
    (h : ∀ x ∈ places, w.records.find? x = w'.records.find? x) :
    w.recordsAt places = w'.recordsAt places :=
  List.filterMap_congr h

/-! ### Gathering -/

/-- The places of the records below a place. -/
def recordedBelow (w : Watches) (place : Location) : List Location :=
  w.records.keys.filter (·.isBelow place)

/-- The record of an on-demand root into which the records below its place are merged. -/
def gathered (w : Watches) (place : Location) : WatchRecord :=
  joined (w.recordsAt (w.recordedBelow place))

/-- Merge the records below a place into the record of a new on-demand root there. -/
def gather (w : Watches) (place : Location) : Watches :=
  { w with
    records := (w.records.filter fun q _ => !q.isBelow place).insert place (w.gathered place) }

theorem nodup_recordedBelow (w : Watches) (place : Location) : (w.recordedBelow place).Nodup :=
  (OrderedMap.nodup_keys w.records).filter _

theorem mem_recordedBelow_iff {x : Location} :
    x ∈ w.recordedBelow place ↔ w.records.contains x = true ∧ x.isBelow place = true := by
  rw [recordedBelow, List.mem_filter, OrderedMap.mem_keys_iff, OrderedMap.contains_iff]

/-- The gathered record, from any list of the recorded places below. -/
theorem gathered_eq {places : List Location} (hnodup : places.Nodup)
    (h : ∀ x, w.records.contains x = true → (x ∈ places ↔ x.isBelow place = true)) :
    w.gathered place = joined (w.recordsAt places) := by
  refine joined_perm (recordsAt_perm (w.nodup_recordedBelow place) hnodup fun x hx => ?_)
  rw [mem_recordedBelow_iff, h x hx]
  exact and_iff_right hx

theorem find?_gather (w : Watches) (place x : Location) :
    (w.gather place).records.find? x =
      if x = place then some (w.gathered place)
      else if x.isBelow place then none else w.records.find? x := by
  rw [gather, OrderedMap.find?_insert, OrderedMap.find?_filter]
  cases x.isBelow place <;> cases w.records.find? x <;> simp [Option.filter]

theorem isOnDemand_gather {w : Watches} {place x : Location} :
    (w.gather place).isOnDemand x = true ↔
      x = place ∨ x.isBelow place = false ∧ w.isOnDemand x = true := by
  rw [isOnDemand, find?_gather, isOnDemand]
  by_cases hx : x = place
  · simp [hx, gathered]
  · cases x.isBelow place <;> simp [hx]

/-- A record is merged into that of an on-demand root. -/
theorem foldInto_of_onDemand {folded : WatchRecord} (hroot : w.records.find? root = some folded)
    (hplace : w.isOnDemand place = true) (hne : place ≠ root) :
    w.foldInto root place =
      { w with records := (w.records.erase root).modify place (·.merge folded) } := by
  have hinto : isOnDemand { w with records := w.records.erase root } place = true := by
    rw [isOnDemand_erase, hplace]
    simp [hne]
  rw [foldInto, hroot]
  simp only [hinto, ↓reduceIte]

/-- Following the notifications that some roots were folded into an on-demand one merges their
records into the one there. -/
theorem followAll_absorbed {record : WatchRecord} {roots : List Location}
    (hplace : w.records.find? place = some record) (honDemand : record.onDemand = true)
    (hnodup : roots.Nodup) (hnew : place ∉ roots) :
    let followed := w.followAll (roots.map (.absorbed · place))
    (∀ x, followed.records.find? x =
      if x = place then some ((w.recordsAt roots).foldl merge record)
      else if x ∈ roots then none else w.records.find? x) ∧
    followed.suspended = w.suspended ∧ followed.eligibility = w.eligibility := by
  induction roots generalizing w record with
  | nil =>
    refine ⟨fun x => ?_, rfl, rfl⟩
    by_cases hx : x = place
    · subst hx
      simpa [followAll, recordsAt] using hplace
    · simp [hx, followAll]
  | cons root roots ih =>
    obtain ⟨hroot, hnodup⟩ := List.nodup_cons.1 hnodup
    have hne : place ≠ root := fun heq => hnew (heq ▸ List.mem_cons_self)
    have hnew : place ∉ roots := fun hmem => hnew (List.mem_cons_of_mem root hmem)
    rw [List.map_cons, followAll, List.foldl_cons, follow, ← followAll]
    cases hfind : w.records.find? root with
    | none =>
      have hsame : w.foldInto root place = w := by rw [foldInto, hfind]
      obtain ⟨hrecords, hrest⟩ := ih hplace honDemand hnodup hnew
      rw [hsame]
      refine ⟨fun x => ?_, hrest⟩
      rw [hrecords, recordsAt, recordsAt, List.filterMap_cons, hfind]
      by_cases hx : x = root
      · subst hx
        simp [hne.symm, hroot, hfind]
      · simp [hx]
    | some folded =>
      have hmerge := foldInto_of_onDemand hfind (isOnDemand_iff.2 ⟨record, hplace, honDemand⟩) hne
      have hfolded (x : Location) : (w.foldInto root place).records.find? x =
          if x = place then some (record.merge folded)
          else if x = root then none else w.records.find? x := by
        rw [hmerge, OrderedMap.find?_modify, OrderedMap.find?_erase]
        by_cases hx : x = place
        · subst hx
          simp [hne, hplace]
        · simp [hx]
      have hothers : (w.foldInto root place).recordsAt roots = w.recordsAt roots :=
        recordsAt_congr fun x hx => by
          have hxp : x ≠ place := fun heq => hnew (heq ▸ hx)
          have hxr : x ≠ root := fun heq => hroot (heq ▸ hx)
          rw [hfolded, if_neg hxp, if_neg hxr]
      obtain ⟨hrecords, hsuspended, heligibility⟩ :=
        ih ((hfolded place).trans (if_pos rfl)) (by simpa using honDemand) hnodup hnew
      refine ⟨fun x => ?_, hsuspended.trans (by rw [hmerge]), heligibility.trans (by rw [hmerge])⟩
      rw [hrecords, hothers, hfolded, recordsAt, recordsAt, List.filterMap_cons, hfind]
      by_cases hx : x = place
      · simp [hx]
      · by_cases hx' : x = root
        · subst hx'
          simp [hne.symm]
        · simp [hx, hx']

/-! ### Gathering twice -/

/-- Below a place a lower one stands for what it has gathered. -/
theorem gathered_gather_below (hp : w.records.contains p = false) (h : p.isBelow q = true) :
    (w.gather p).gathered q = w.gathered q := by
  let rest := (w.recordedBelow q).filter fun x => !x.isBelow p
  have hrest {x : Location} : x ∈ rest ↔
      (w.records.contains x = true ∧ x.isBelow q = true) ∧ x.isBelow p = false := by
    rw [List.mem_filter, mem_recordedBelow_iff, Bool.not_eq_true']
  have hpnew : p ∉ rest := fun hmem => Bool.noConfusion (hp.symm.trans (hrest.1 hmem).1.1)
  have hnodup : rest.Nodup := (w.nodup_recordedBelow q).filter _
  have hafter : (w.gather p).gathered q = joined ((w.gather p).recordsAt (p :: rest)) := by
    refine gathered_eq (List.nodup_cons.2 ⟨hpnew, hnodup⟩) fun x hx => ?_
    rw [OrderedMap.contains, find?_gather] at hx
    rw [List.mem_cons, hrest]
    by_cases hxp : x = p
    · simp [hxp, h]
    · by_cases hbelow : x.isBelow p = true
      · simp [hxp, hbelow] at hx
      · rw [if_neg hxp, if_neg hbelow] at hx
        simp [hxp, hbelow, OrderedMap.contains, hx]
  have hrecords : (w.gather p).recordsAt (p :: rest) = w.gathered p :: w.recordsAt rest := by
    have hothers : (w.gather p).recordsAt rest = w.recordsAt rest :=
      recordsAt_congr fun x hx => by
        have hxp : x ≠ p := fun heq => hpnew (heq ▸ hx)
        rw [find?_gather, if_neg hxp, (hrest.1 hx).2]
        rfl
    rw [← hothers]
    simp [recordsAt, find?_gather]
  have hbefore : w.gathered q = joined (w.recordsAt (w.recordedBelow p ++ rest)) := by
    have hapart : (w.recordedBelow p).Disjoint rest := fun x hx hx' =>
      Bool.noConfusion ((hrest.1 hx').2.symm.trans (mem_recordedBelow_iff.1 hx).2)
    refine gathered_eq (List.nodup_append'.2 ⟨w.nodup_recordedBelow p, hnodup, hapart⟩)
      fun x hx => ?_
    rw [List.mem_append, mem_recordedBelow_iff, hrest]
    by_cases hbelow : x.isBelow p = true
    · simp [hx, hbelow, Location.isBelow_trans hbelow h]
    · simp [hx, hbelow]
  rw [hafter, hrecords, hbefore, gathered, joined_cons_joined, recordsAt, recordsAt, recordsAt,
    List.filterMap_append]

/-- What a root has gathered is gathered with it. -/
theorem gather_gather (hp : w.records.contains p = false) (h : p.isBelow q = true) :
    (w.gather p).gather q = w.gather q := by
  refine ext_find? (fun x => ?_) rfl rfl
  rw [find?_gather, find?_gather, find?_gather, gathered_gather_below hp h]
  by_cases hx : x = q
  · simp [hx]
  · by_cases hbelow : x.isBelow q = true
    · simp [hx, hbelow]
    · have hxp : x ≠ p := fun heq => hbelow (heq ▸ h)
      have hbelow' : ¬x.isBelow p = true := fun h' => hbelow (Location.isBelow_trans h' h)
      simp [hx, hbelow, hxp, hbelow']

/-- Gathering at another place leaves alone what is recorded below a place apart from it. -/
theorem gathered_gather_apart (hne : p ≠ q) (hpq : p.isBelow q = false) (hqp : q.isBelow p = false) :
    (w.gather p).gathered q = w.gathered q := by
  have hout {x : Location} (hx : x.isBelow q = true) : x ≠ p ∧ x.isBelow p = false := by
    constructor
    · rintro rfl
      rw [hpq] at hx
      exact Bool.noConfusion hx
    · rw [Bool.eq_false_iff]
      intro hx'
      rcases Location.isBelow_total (Location.startsWith_of_isBelow hx)
        (Location.startsWith_of_isBelow hx') with heq | hbelow | hbelow
      · exact hne heq.symm
      · rw [hqp] at hbelow
        exact Bool.noConfusion hbelow
      · rw [hpq] at hbelow
        exact Bool.noConfusion hbelow
  have hfind {x : Location} (hx : x.isBelow q = true) :
      (w.gather p).records.find? x = w.records.find? x := by
    rw [find?_gather, if_neg (hout hx).1, (hout hx).2]
    rfl
  rw [gathered_eq (w.nodup_recordedBelow q) fun x hx => ?_, gathered]
  · exact congrArg joined (recordsAt_congr fun x hx => hfind (mem_recordedBelow_iff.1 hx).2)
  · rw [mem_recordedBelow_iff]
    refine and_iff_right_of_imp fun hbelow => ?_
    rwa [OrderedMap.contains, hfind hbelow] at hx

/-- Places apart gather independently. -/
theorem gather_comm (hne : p ≠ q) (hpq : p.isBelow q = false) (hqp : q.isBelow p = false) :
    (w.gather p).gather q = (w.gather q).gather p := by
  refine ext_find? (fun x => ?_) rfl rfl
  rw [find?_gather, find?_gather, find?_gather, find?_gather, gathered_gather_apart hne hpq hqp,
    gathered_gather_apart hne.symm hqp hpq]
  by_cases hxp : x = p
  · subst hxp
    simp [hne, hpq]
  · by_cases hxq : x = q
    · subst hxq
      simp [hxp, hqp]
    · cases x.isBelow p <;> cases x.isBelow q <;> simp [hxp, hxq]

/-! ### Counting and gathering -/

theorem find?_count (w : Watches) (root x : Location) (requester : Requester) :
    (w.count root requester).records.find? x =
      if x = root then some (((w.records.find? root).getD .empty).count requester 1)
      else w.records.find? x :=
  find?_alter ..

/-- What is gathered with one more request that is counted below. -/
theorem gathered_count_below (h : root.isBelow place = true) :
    (w.count root requester).gathered place = (w.gathered place).count requester 1 := by
  let rest := (w.recordedBelow place).filter (· ≠ root)
  have hrest {x : Location} : x ∈ rest ↔
      (w.records.contains x = true ∧ x.isBelow place = true) ∧ x ≠ root := by
    rw [List.mem_filter, mem_recordedBelow_iff, decide_eq_true_iff]
  have hnodup : (root :: rest).Nodup := List.nodup_cons.2
    ⟨fun hmem => (hrest.1 hmem).2 rfl, (w.nodup_recordedBelow place).filter _⟩
  have hafter : (w.count root requester).gathered place =
      joined ((w.count root requester).recordsAt (root :: rest)) := by
    refine gathered_eq hnodup fun x hx => ?_
    rw [List.mem_cons, hrest]
    by_cases hxr : x = root
    · simp [hxr, h]
    · rw [OrderedMap.contains, find?_count, if_neg hxr] at hx
      simp [hxr, OrderedMap.contains, hx]
  have hbefore : w.gathered place = joined (w.recordsAt (root :: rest)) := by
    refine gathered_eq hnodup fun x hx => ?_
    rw [List.mem_cons, hrest]
    by_cases hxr : x = root <;> simp [hxr, hx, h]
  have hothers : (w.count root requester).recordsAt rest = w.recordsAt rest :=
    recordsAt_congr fun x hx => by rw [find?_count, if_neg (hrest.1 hx).2]
  rw [hafter, hbefore]
  simp only [recordsAt, List.filterMap_cons, find?_count, ↓reduceIte] at hothers ⊢
  rw [hothers]
  cases hfind : w.records.find? root with
  | none => exact joined_cons_claim requester _
  | some r => exact joined_cons_count r requester _

/-- A request that is counted below a place may be counted there after gathering. -/
theorem gather_count_below (h : root.isBelow place = true) :
    (w.count root requester).gather place = (w.gather place).count place requester := by
  refine ext_find? (fun x => ?_) rfl rfl
  rw [find?_gather, find?_count, find?_count, find?_gather, find?_gather, gathered_count_below h]
  by_cases hx : x = place
  · simp [hx]
  · by_cases hxr : x = root
    · subst hxr
      simp [hx, h]
    · simp [hx, hxr]

/-- A request that is counted elsewhere may be counted before gathering or after. -/
theorem gather_count_apart (hne : root ≠ place) (h : root.isBelow place = false) :
    (w.count root requester).gather place = (w.gather place).count root requester := by
  have hfind {x : Location} (hx : x.isBelow place = true) :
      (w.count root requester).records.find? x = w.records.find? x := by
    rw [find?_count, if_neg]
    rintro rfl
    rw [h] at hx
    exact Bool.noConfusion hx
  have hgathered : (w.count root requester).gathered place = w.gathered place := by
    rw [gathered_eq (w.nodup_recordedBelow place) fun x hx => ?_, gathered]
    · exact congrArg joined (recordsAt_congr fun x hx => hfind (mem_recordedBelow_iff.1 hx).2)
    · rw [mem_recordedBelow_iff]
      refine and_iff_right_of_imp fun hbelow => ?_
      rwa [OrderedMap.contains, hfind hbelow] at hx
  refine ext_find? (fun x => ?_) rfl rfl
  rw [find?_gather, find?_count, find?_count, find?_gather, find?_gather, hgathered]
  by_cases hx : x = root
  · subst hx
    simp [hne, h]
  · by_cases hx' : x = place <;> simp [hx, hx', hne.symm]

/-- Requests are counted in any order. -/
theorem count_comm (w : Watches) (root other : Location) (requester requester' : Requester) :
    (w.count root requester).count other requester' =
      (w.count other requester').count root requester := by
  refine ext_find? (fun x => ?_) rfl rfl
  simp only [find?_count]
  by_cases hsame : root = other
  · subst hsame
    by_cases hx : x = root <;> simp [hx, WatchRecord.count_comm]
  · by_cases hx : x = root
    · simp [hx, hsame]
    · by_cases hx' : x = other <;> simp [hx, hx', Ne.symm hsame]

end Watches

end IndexControl
