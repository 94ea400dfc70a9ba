import IndexControl.Engine.Step
import IndexControl.Proofs.Roots.Coverage
import IndexControl.Proofs.Watches.Serving

/-!
# A request is applied in full or not at all

A request that is refused leaves no trace. One for a file has the crawler check the file ahead of
others and does nothing else. One for a directory is counted at the root that owns the directory,
and the roots stay as they are. Where no root owns it, the directory becomes a root on demand, and
the request is counted there. This root cannot be refused, since the look-up of the owner and the
addition agree on what lies above.

## Main definitions

* `Watches.asked`: how often a requester has asked for a root.
* `Watches.CountsOnce`, `Engine.CountsOnce`: one more request is counted at one root, and nowhere
  else.

## Main results

* `Watches.countsOnce_credit`, `Watches.CountsOnce.of_markOnDemand`: where a request is counted.
* `Engine.applyProbed_of_not_grants`, `Engine.applyProbed_of_owned`, `Engine.applyProbed_of_free`:
  the three things that a request can do.
* `Engine.applyProbed_all_or_nothing`: what each answer to a request means.
-/

namespace IndexControl

namespace Watches

variable {w w' : Watches} {root : Location} {requester? : Option Requester}

/-- How often a requester has asked for a root. -/
def asked (w : Watches) (root : Location) (requester : Requester) : Nat :=
  ((w.records.find? root).bind (·.counts.find? requester)).getD 0

/-- One more request of a requester, if there is one, is counted at one root. Nothing else changes,
apart from whether this root is there on demand. -/
structure CountsOnce (w w' : Watches) (root : Location) (requester? : Option Requester) : Prop where
  asked (requester : Requester) : w'.asked root requester =
    w.asked root requester + if requester? = some requester then 1 else 0
  elsewhere (x : Location) (hx : x ≠ root) : w'.records.find? x = w.records.find? x
  suspended : w'.suspended = w.suspended
  eligibility : w'.eligibility = w.eligibility

theorem countsOnce_credit (w : Watches) (root : Location) (requester? : Option Requester) :
    w.CountsOnce (w.credit root requester?) root requester? := by
  cases requester? with
  | none => exact ⟨fun requester => rfl, fun x _ => rfl, rfl, rfl⟩
  | some requester =>
    refine ⟨fun other => ?_, fun x hx => ?_, rfl, rfl⟩
    · rw [asked, asked, credit, count, find?_alter, if_pos rfl, Option.bind_some,
        WatchRecord.find?_count]
      by_cases hother : other = requester
      · subst hother
        rw [if_pos rfl, if_pos rfl]
        cases w.records.find? root <;> rfl
      · rw [if_neg hother, if_neg fun heq => hother (Option.some.inj heq).symm]
        cases w.records.find? root <;> rfl
    · rw [credit, count, find?_alter, if_neg hx]

/-- To mark a root as one on demand counts nothing. -/
theorem CountsOnce.of_markOnDemand (h : (w.markOnDemand root).CountsOnce w' root requester?) :
    w.CountsOnce w' root requester? := by
  refine ⟨fun requester => ?_, fun x hx => ?_, h.suspended, h.eligibility⟩
  · have hmarked : (w.markOnDemand root).asked root requester = w.asked root requester := by
      rw [Watches.asked, Watches.asked, markOnDemand, find?_alter, if_pos rfl]
      cases w.records.find? root <;> rfl
    rw [h.asked, hmarked]
  · rw [h.elsewhere x hx, markOnDemand, find?_alter, if_neg hx]

end Watches

namespace Engine

open RootSet Watches

variable {e : Engine} {p : ProbedRequest} {owner : Location}

theorem applyProbed_of_not_grants (hgrants : e.watches.grants p = false) :
    e.applyProbed p =
      if e.watches.allows p.place = false then (e, .error (.notEligible p.place.toPath))
      else if p.request.needsDirectory then (e, .error (.directoriesOnly p.place.toPath))
      else (e.emit [.crawl (.check p.place .high)], .ok .fileCheck) := by
  rw [applyProbed, apply_of_not_grants e.roots hgrants]
  cases e.watches.allows p.place with
  | false => rfl
  | true => cases p.request.needsDirectory <;> rfl

theorem applyProbed_of_owned (hgrants : e.watches.grants p = true)
    (howner : e.roots.owner? p.place = some owner) :
    e.applyProbed p = ({ e with
      roots := (e.roots.notify p.place true).1
      watches := e.watches.credit owner p.request.requester? }, .ok (.refreshed owner)) := by
  rw [applyProbed, apply_of_owned hgrants howner]

theorem applyProbed_of_free (hs : e.roots.WellFormed) (hplace : p.place.IsCanonical)
    (hgrants : e.watches.grants p = true) (hfree : e.roots.owner? p.place = none) :
    e.applyProbed p = ({ e with
      roots := (e.roots.add p.place .onDemand).1
      watches := (e.watches.markOnDemand p.place).credit p.place p.request.requester? },
      .ok (.rootAdded p.place)) := by
  rw [applyProbed, apply_of_free hs hplace hgrants hfree]

/-- A request for a directory has been counted at a root. Beside the records of watches only the
roots may have changed. -/
structure CountsOnce (e e' : Engine) (root : Location) (requester? : Option Requester) :
    Prop where
  rest : e' = { e with roots := e'.roots, watches := e'.watches }
  watches : e.watches.CountsOnce e'.watches root requester?

/-- **A request is applied in full or not at all.** Take an engine with any records of watches, and
with roots that any operations on an empty set have left, and a request for any canonical place. If
no root owns the place, the addition of a root there is not refused. A request that is refused
changes nothing. It is one that is not allowed, or one for a directory where there is a file. A
request for a file only has the crawler check it, once and with high priority. Any other request is
counted at the root that it names and nowhere else. Either the roots stay, and this root covers the
place. Or it is a new root at the place and is there on demand. -/
theorem applyProbed_all_or_nothing (e : Engine) (filters : Filters) (ops : List RootOp)
    (request : IndexRequest) (path : Path) (info : FileInfo) :
    let e : Engine := { e with roots := (RootSet.empty filters).run ops }
    let place := path.location.canonical
    let t := e.applyProbed ⟨request, place, info⟩
    (e.roots.owner? place = none → (e.roots.add place .onDemand).2 = .added) ∧
    match t.2 with
    | .error cause => t.1 = e ∧
        (e.watches.allows place = false ∧ cause = .notEligible place.toPath ∨
          e.watches.allows place = true ∧ info.isDirectory = false ∧
            request.needsDirectory = true ∧ cause = .directoriesOnly place.toPath)
    | .ok .fileCheck => info.isDirectory = false ∧ t.1 = e.emit [.crawl (.check place .high)]
    | .ok (.refreshed root) => e.CountsOnce t.1 root request.requester? ∧
        t.1.roots.roots = e.roots.roots ∧ e.roots.Covers root place ∧
        ∀ x, t.1.watches.isOnDemand x = e.watches.isOnDemand x
    | .ok (.rootAdded root) => e.CountsOnce t.1 root request.requester? ∧
        root = place ∧ e.roots.isRoot root = false ∧
        t.1.roots.root? root = some ⟨.onDemand, none⟩ ∧
        ∀ x, t.1.watches.isOnDemand x = (decide (x = root) || e.watches.isOnDemand x) := by
  intro e place t
  have hs : e.roots.WellFormed := (wellFormed_empty filters).run ops
  have hplace : place.IsCanonical := Location.isCanonical_canonical path.location_isSpelled
  refine ⟨fun hfree => by rw [hs.add_free hplace hfree isRecursive_onDemand], ?_⟩
  cases hgrants : e.watches.grants ⟨request, place, info⟩ with
  | false =>
    have ht : t = _ := applyProbed_of_not_grants hgrants
    rw [grants] at hgrants
    rw [ht]
    cases hallows : e.watches.allows place with
    | false => exact ⟨rfl, .inl ⟨rfl, rfl⟩⟩
    | true =>
      have hfile : info.isDirectory = false := by simpa [hallows] using hgrants
      cases hneeds : request.needsDirectory with
      | true => exact ⟨rfl, .inr ⟨rfl, hfile, rfl, rfl⟩⟩
      | false => exact ⟨hfile, rfl⟩
  | true =>
    cases howner : e.roots.owner? place with
    | some owner =>
      rw [show t = _ from applyProbed_of_owned hgrants howner]
      exact ⟨⟨rfl, countsOnce_credit ..⟩, rfl, hs.covers_of_owner? howner, isOnDemand_credit _ _ _⟩
    | none =>
      rw [show t = _ from applyProbed_of_free hs hplace hgrants howner]
      refine ⟨⟨rfl, (countsOnce_credit ..).of_markOnDemand⟩, rfl,
        (hs.owner?_eq_none_iff.1 howner).1, ?_, fun x => ?_⟩
      · exact (hs.root?_add_free hplace howner isRecursive_onDemand place).trans (if_pos rfl)
      · rw [isOnDemand_credit, isOnDemand_markOnDemand]

/-- The directory `/a` becomes a root above the root `/a/b`, which is folded into it. A request for
what was this root is then counted at `/a`. -/
example (e : Engine) :
    let upper := (Path.ofString "/a").location
    let lower := (Path.ofString "/a/b").location
    let e : Engine := { e with
      roots := (RootSet.empty .none).run [.add (Path.ofString "/a/b") .recurse]
      watches := .empty }
    let ask (place : Location) : ProbedRequest :=
      ⟨.fileFor "" "reader", place, { (default : FileInfo) with kind := .directory }⟩
    let t := e.applyProbed (ask upper)
    let t' := t.1.applyProbed (ask lower)
    t.2 = .ok (.rootAdded upper) ∧ t.1.roots.isRoot lower = false ∧
      t'.2 = .ok (.refreshed upper) :=
  ⟨rfl, rfl, rfl⟩

end Engine

end IndexControl
