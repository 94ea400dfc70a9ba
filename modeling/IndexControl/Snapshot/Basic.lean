import IndexControl.Roots.Basic

/-!
# Snapshots of the configured roots

A snapshot records the roots that belong to the configuration, with their flags, and the filter
patterns. Its fingerprint is the hash of one byte string made from them, in the variant of the
Fowler–Noll–Vo hash that takes each byte in before it multiplies, with 64 bits. Snapshots are kept
as bytes: numbers in groups of seven bits, and texts and lists after their lengths.

A number is written as bytes that carry seven bits each, the lowest ones first; the high bit of
a byte says that more follow. A reader knows how many bits the number may have, and accepts
forms that are longer than need be.

## Main definitions

* `Fnv.hash`: the hash of some bytes.
* `Varint.encode`, `Varint.read?`: the shortest form of a number, and a number at the front of some
  bytes.
* `Snapshot`, `Snapshot.ofRoots`: the record and how it is taken.
* `Snapshot.preimage`, `Snapshot.fingerprintOf`: the fingerprint.
* `Snapshot.encode?`, `Snapshot.decode?`: the stored form.
-/

namespace IndexControl

namespace Fnv

/-- The hash of no bytes. -/
def offset : UInt64 := 0xcbf29ce484222325

/-- The factor of each step. -/
def prime : UInt64 := 0x100000001b3

/-- Take in one byte. -/
def step (hash : UInt64) (b : UInt8) : UInt64 := (hash ^^^ b.toUInt64) * prime

/-- The hash of some bytes. -/
def hash (bytes : List UInt8) : UInt64 := bytes.foldl step offset

end Fnv

namespace Varint

/-- The groups of a number, of which there are at most `groups`. -/
def encodeGroups : (groups : Nat) → Nat → List UInt8
  | 0, _ => []
  | groups + 1, n =>
    if n < 128 then [UInt8.ofNat n]
    else UInt8.ofNat (n % 128 + 128) :: encodeGroups groups (n / 128)

/-- The shortest form of a number of at most 64 bits. -/
def encode (n : Nat) : List UInt8 := encodeGroups 10 n

/-- Read a number of at most `bits` bits, and what follows it. The byte with the last group may
hold only bits that belong to the number. -/
def read? : (bits : Nat) → List UInt8 → Option (Nat × List UInt8)
  | _, [] => none
  | bits, b :: rest =>
    if bits = 0 then none
    else if b < 128 then
      if b.toNat < 2 ^ bits then some (b.toNat, rest) else none
    else
      match read? (bits - 7) rest with
      | none => none
      | some (high, rest) => some (b.toNat - 128 + 128 * high, rest)

end Varint

/-- What is recorded of the configured roots and the filters. -/
structure Snapshot where
  version : Nat
  fingerprint : UInt64
  roots : List (Path × Flags)
  filters : FilterPatterns
deriving DecidableEq

namespace Snapshot

/-- The version of the stored form that is written and read. -/
def currentVersion : Nat := 1

/-! ### Fingerprints -/

/-- The four bytes of a word, lowest first. -/
def wordBytes (w : UInt32) : List UInt8 :=
  [w.toUInt8, (w >>> 8).toUInt8, (w >>> 16).toUInt8, (w >>> 24).toUInt8]

/-- The bytes of a root: its path as text, its flags, and an end mark. -/
def rootPreimage (root : Path × Flags) : List UInt8 :=
  Text.utf8 root.1.display ++ wordBytes root.2.bits ++ [0xFF]

/-- The bytes of a list of patterns: each with an end mark, and one for the list. -/
def patternsPreimage (patterns : List String) : List UInt8 :=
  (patterns.flatMap fun p => Text.utf8 p ++ [0xFE]) ++ [0xFD]

/-- The byte of a truth value. -/
def boolByte (b : Bool) : UInt8 := if b then 1 else 0

/-- The bytes whose hash is the fingerprint. -/
def preimage (roots : List (Path × Flags)) (filters : FilterPatterns) : List UInt8 :=
  roots.flatMap rootPreimage ++ patternsPreimage filters.files ++
    patternsPreimage filters.directories ++ patternsPreimage filters.parentMarkers ++
    [boolByte filters.filterHidden]

/-- The fingerprint of roots and filters. -/
def fingerprintOf (roots : List (Path × Flags)) (filters : FilterPatterns) : UInt64 :=
  Fnv.hash (preimage roots filters)

/-- Take a snapshot, leaving out the roots that are there on demand. -/
def ofRoots (s : RootSet) (onDemand : Location → Bool) : Snapshot :=
  let roots := (s.roots.entries.filter fun e => !onDemand e.1).map
    fun e => (Location.toPath e.1, e.2.flags)
  { version := currentVersion
    fingerprint := fingerprintOf roots s.filters.patterns
    roots
    filters := s.filters.patterns }

/-! ### Writing -/

/-- Bytes after their number. -/
def encodeBytes (bytes : List UInt8) : List UInt8 := Varint.encode bytes.length ++ bytes

/-- A list of texts after its length. -/
def encodeTexts (texts : List String) : List UInt8 :=
  Varint.encode texts.length ++ texts.flatMap fun s => encodeBytes (Text.utf8 s)

/-- A root, where its path is text. -/
def encodeRoot? (root : Path × Flags) : Option (List UInt8) :=
  root.1.toString?.map fun s => encodeBytes (Text.utf8 s) ++ Varint.encode root.2.bits.toNat

/-- The stored form of a snapshot, unless a path is not text. -/
def encode? (s : Snapshot) : Option (List UInt8) := do
  let roots ← s.roots.mapM encodeRoot?
  return Varint.encode s.version ++ Varint.encode s.fingerprint.toNat ++
    Varint.encode roots.length ++ roots.flatten ++ encodeTexts s.filters.files ++
    encodeTexts s.filters.directories ++ encodeTexts s.filters.parentMarkers ++
    [boolByte s.filters.filterHidden]

/-! ### Reading -/

/-- Read a value from the front of some bytes. -/
abbrev Reader (α : Type) := List UInt8 → Option (α × List UInt8)

/-- Read a text after its length. -/
def readText? : Reader String := fun bytes =>
  match Varint.read? 64 bytes with
  | none => none
  | some (length, rest) =>
    if rest.length < length then none
    else (Text.ofUtf8? (rest.take length)).map (·, rest.drop length)

/-- Read `count` values one after the other. -/
def readMany? {α : Type} (read : Reader α) : (count : Nat) → Reader (List α)
  | 0, bytes => some ([], bytes)
  | count + 1, bytes =>
    match read bytes with
    | none => none
    | some (a, rest) => (readMany? read count rest).map fun r => (a :: r.1, r.2)

/-- Read a list after its length. Every item takes at least one byte, so a length beyond the
bytes that are left cannot be met. -/
def readList? {α : Type} (read : Reader α) : Reader (List α) := fun bytes =>
  match Varint.read? 64 bytes with
  | none => none
  | some (count, rest) => if rest.length < count then none else readMany? read count rest

/-- Read a root. -/
def readRoot? : Reader (Path × Flags) := fun bytes => do
  let (text, bytes) ← readText? bytes
  let (flags, bytes) ← Varint.read? 32 bytes
  return ((.ofString text, ⟨UInt32.ofNat flags⟩), bytes)

/-- Read a truth value. -/
def readBool? : Reader Bool
  | 0 :: rest => some (false, rest)
  | 1 :: rest => some (true, rest)
  | _ => none

/-- Read the stored form of a snapshot of any version. Bytes after its end do not count. -/
def decode? (bytes : List UInt8) : Option Snapshot := do
  let (version, bytes) ← Varint.read? 32 bytes
  let (fingerprint, bytes) ← Varint.read? 64 bytes
  let (roots, bytes) ← readList? readRoot? bytes
  let (files, bytes) ← readList? readText? bytes
  let (directories, bytes) ← readList? readText? bytes
  let (parentMarkers, bytes) ← readList? readText? bytes
  let (filterHidden, _) ← readBool? bytes
  return {
    version
    fingerprint := UInt64.ofNat fingerprint
    roots
    filters := { files, directories, parentMarkers, filterHidden } }

end Snapshot

end IndexControl
