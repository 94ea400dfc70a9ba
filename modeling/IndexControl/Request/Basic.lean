import IndexControl.Attributes
import IndexControl.Directories.Basic
import IndexControl.Request.Uri

/-!
# Requests to index a file

A file or a directory can be indexed on request, for as long as a requester lives or once. A
request names its target by a URI and says what the target may be. It is probed, outside of the
set of roots, before it is applied. An administrator may restrict requests to the configured
directories.

## Main definitions

* `IndexRequest`: what is asked for.
* `ProbedRequest`, `IndexRequest.probe`: a request whose target has been found.
* `IndexOutcome`: what came of a request.
* `Eligibility`, `Eligibility.allows`: a restriction, and the places it leaves.
-/

namespace IndexControl

/-- The name of a process that has files indexed. -/
abbrev Requester := String

/-- What is asked for. -/
inductive IndexRequest where
  /-- Index a file or directory now. -/
  | file (uri : String)
  /-- Index a file or directory, and watch a directory while the requester lives. -/
  | fileFor (uri : String) (requester : Requester)
  /-- Index a directory, and watch it while the requester, if there is one, lives. -/
  | directory (uri : String) (requester : Option Requester)
deriving DecidableEq, Inhabited

namespace IndexRequest

/-- The URI of the target. -/
def uri : IndexRequest → String
  | file uri | fileFor uri _ | directory uri _ => uri

/-- Who wants the target watched. -/
def requester? : IndexRequest → Option Requester
  | file _ => none
  | fileFor _ requester => some requester
  | directory _ requester => requester

/-- Whether the target has to be a directory. -/
def needsDirectory : IndexRequest → Bool
  | directory .. => true
  | _ => false

end IndexRequest

/-- A request whose target has been found at a canonical absolute place. -/
structure ProbedRequest where
  request : IndexRequest
  place : Location
  info : FileInfo
deriving DecidableEq

/-- What came of a request. -/
inductive IndexOutcome where
  /-- A single file is to be looked at. -/
  | fileCheck
  /-- A root covers the directory, and what is there is looked at again. -/
  | refreshed (root : Location)
  /-- The directory is a new root. -/
  | rootAdded (root : Location)
deriving DecidableEq

/-- The root that covers the target now. -/
def IndexOutcome.root? : IndexOutcome → Option Location
  | fileCheck => none
  | refreshed root | rootAdded root => some root

namespace IndexRequest

/-- Probe a request: find its place and learn what is there. A target that cannot be learnt about
counts as missing. Cancellation comes before the question is asked. -/
def probe (a : Attributes) (cancelled : Bool) (request : IndexRequest) :
    Except RequestError ProbedRequest :=
  match Uri.location? request.uri with
  | none => .error (.fileNotFound (.ofString request.uri))
  | some place =>
    if cancelled then .error (.cancelled place.toPath)
    else match a.query place with
      | .error _ => .error (.fileNotFound place.toPath)
      | .ok info => .ok ⟨request, place, info⟩

end IndexRequest

/-- A restriction of requests to some directories. -/
structure Eligibility where
  /-- Directories that may be indexed together with their own entries. -/
  single : List Location
  /-- Directories that may be indexed with all that lies below. -/
  recursive : List Location
deriving DecidableEq

namespace Eligibility

/-- The restriction to configured directories. -/
def ofDirectories (d : Directories) : Eligibility where
  single := d.single.map Path.location
  recursive := d.recursive.map Path.location

/-- Whether a place may be indexed on request. -/
def allows (e : Eligibility) (place : Location) : Bool :=
  (e.recursive.any fun root => place.inScope root true) ||
    e.single.any fun root => place.inScope root false

end Eligibility

end IndexControl
