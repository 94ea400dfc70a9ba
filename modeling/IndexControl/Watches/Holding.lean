import IndexControl.Watches.Basic

/-!
# Roots held for requesters

Applying a request holds a root for its requester, releasing a requester lets go of all roots
held for it alone, and a suspended root is brought back when nothing covers its place any more.

## Main definitions

* `Watches.apply`: what a probed request does.
* `Watches.release`: what the end of a requester does.
* `Watches.restoreSuspended`: the return of suspended roots.
-/

namespace IndexControl

namespace Watches

/-- What is there after a request has been applied. A file that is to be looked at is left to
whoever applies the request. -/
structure Applied where
  outcome : IndexOutcome
  roots : RootSet
  watches : Watches

/-- Have a directory covered: refresh what covers it, or make it a root on demand. -/
def cover (w : Watches) (s : RootSet) (place : Location) : Except RequestError Applied :=
  match s.owner? place with
  | some owner => .ok ⟨.refreshed owner, (s.notify place true).1, w⟩
  | none =>
    match s.add place .onDemand with
    | (_, .covered _) => .error (.notEligible place.toPath)
    | (s, _) => .ok ⟨.rootAdded place, s, w.markOnDemand place⟩

/-- Count a request where a requester made it and a root covers its target. -/
def Applied.countFor (a : Applied) (requester : Option Requester) : Applied :=
  match requester, a.outcome.root? with
  | some requester, some root => { a with watches := a.watches.count root requester }
  | _, _ => a

/-- Apply a probed request. -/
def apply (w : Watches) (s : RootSet) (p : ProbedRequest) : Except RequestError Applied :=
  if !w.allows p.place then .error (.notEligible p.place.toPath)
  else if p.info.isDirectory then
    (w.cover s p.place).map (·.countFor p.request.requester?)
  else if p.request.needsDirectory then .error (.directoriesOnly p.place.toPath)
  else .ok ⟨.fileCheck, s, w⟩

/-- Forget a requester. Roots that are there on demand and were held for it alone are removed,
in order. -/
def release (w : Watches) (s : RootSet) (requester : Requester) :
    Watches × RootSet × List Location :=
  let letGo := w.records.filter fun _ r => r.isHeldOnlyBy requester
  let (s, removed) := s.removeEach (letGo.filter fun _ r => r.onDemand).keys
  ({ w with
      records := w.records.filterMap fun _ r =>
        if r.isHeldOnlyBy requester then none else some (r.without requester)
      suspended := (w.suspended.filterMap fun _ r => some (r.without requester)).filter
        fun _ r => !r.counts.isEmpty },
    s, removed)

/-- Bring back one suspended root, unless something covers it. -/
def restoreOne (w : Watches) (s : RootSet) (place : Location) : Watches × RootSet × Bool :=
  let (s, outcome) := s.add place .onDemand
  match w.suspended.find? place with
  | some record =>
    if outcome.isLive then
      ({ w with
          suspended := w.suspended.erase place
          records := w.records.insert place { record with onDemand := true } },
        s, true)
    else (w, s, false)
  | none => (w, s, false)

/-- Bring back some suspended roots in order, and say which have come back. -/
def restoreEach (w : Watches) (s : RootSet) : List Location → Watches × RootSet × List Location
  | [] => (w, s, [])
  | place :: rest =>
    let (w, s, isBack) := w.restoreOne s place
    let (w, s, restored) := restoreEach w s rest
    (w, s, if isBack then place :: restored else restored)

/-- Bring back the suspended roots whose places nothing covers, in order. -/
def restoreSuspended (w : Watches) (s : RootSet) : Watches × RootSet × List Location :=
  w.restoreEach s (w.suspended.keys.filter fun place => (s.owner? place).isNone)

end Watches

end IndexControl
