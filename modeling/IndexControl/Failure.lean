import IndexControl.Path.Basic

/-!
# Failures and their wording

## Main definitions

* `IoError`: what can go wrong with a file operation.
* `ServiceError`: what the service reports to those who configure and use it.
* `RequestError`: what it reports to those who ask for a file to be indexed.

Each has one function `message` that holds all its wording. A path that is not text appears
with replacement characters.
-/

namespace IndexControl

/-- What can go wrong with a file operation. -/
inductive IoError where
  | notFound
  | alreadyExists
  | notADirectory
  | isADirectory
  | tooManyLinks
  /-- A path, or one of the names in it, is longer than the system allows. -/
  | nameTooLong
  /-- A path holds a zero byte. -/
  | zeroByte
  | permissionDenied
  /-- The file is not UTF-8 text. -/
  | notText
deriving DecidableEq

/-- The wording of a failed file operation. -/
def IoError.message : IoError → String
  | notFound => "No such file or directory (os error 2)"
  | alreadyExists => "File exists (os error 17)"
  | notADirectory => "Not a directory (os error 20)"
  | isADirectory => "Is a directory (os error 21)"
  | tooManyLinks => "Too many levels of symbolic links (os error 40)"
  | nameTooLong => "File name too long (os error 36)"
  | zeroByte => "file name contained an unexpected NUL byte"
  | permissionDenied => "permission denied"
  | notText => "stream did not contain valid UTF-8"

/-- What the service reports to those who configure and use it. -/
inductive ServiceError where
  /-- A file operation failed. -/
  | io (cause : IoError)
  /-- A file to be identified is not there. -/
  | pathNotFound (path : Path)
  /-- The settings file cannot be understood. -/
  | unreadableSettings (path : Path)
  /-- The settings hold a path that is not text. -/
  | settingsNotText
  /-- A root's path is not text. -/
  | snapshotNotText
  /-- The directory of the snapshot cannot be made. -/
  | noStateDirectory (dir : Path) (cause : IoError)
  /-- The snapshot cannot be put in its place. -/
  | snapshotNotPlaced (file : Path) (cause : IoError)
  /-- The service had stopped before the call. -/
  | stopped
  /-- The service stopped without answering the call. -/
  | droppedResponse
deriving DecidableEq

/-- The wording of a service error. -/
def ServiceError.message : ServiceError → String
  | io cause => "IO error: " ++ cause.message
  | pathNotFound path => "Path not found: " ++ path.display
  | unreadableSettings path => "Configuration error: failed to parse " ++ path.display
  | settingsNotText => "Serialization error: path contains invalid UTF-8 characters"
  | snapshotNotText =>
    "Serialization error: failed to encode config snapshot: Serde Serialization Error"
  | noStateDirectory dir cause =>
    "Internal error: failed to create state directory " ++ dir.display ++ ": " ++ cause.message
  | snapshotNotPlaced file cause =>
    "Internal error: failed to finalize config snapshot " ++ file.display ++ ": " ++ cause.message
  | stopped => "Internal error: miner stopped"
  | droppedResponse => "Internal error: miner dropped response"

/-- What the service reports to those who ask for a file to be indexed. -/
inductive RequestError where
  | fileNotFound (path : Path)
  /-- A directory was asked for and the path names something else. -/
  | directoriesOnly (path : Path)
  /-- The configured locations do not hold the path. -/
  | notEligible (path : Path)
  | cancelled (path : Path)
  | stopped
deriving DecidableEq

/-- The wording of a refused request. -/
def RequestError.message : RequestError → String
  | fileNotFound path => "File '" ++ path.display ++ "' does not exist"
  | directoriesOnly path => "Only directories can be processed: '" ++ path.display ++ "'"
  | notEligible path => "File '" ++ path.display ++ "' is not eligible to be indexed"
  | cancelled path => "Request for '" ++ path.display ++ "' was cancelled"
  | stopped => "Indexing control plane is stopped"

/-- The wording of a batch that the store refused. -/
def storeFailureText (message : String) : String := "store update failed: " ++ message

end IndexControl
