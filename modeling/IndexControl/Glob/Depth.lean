import IndexControl.Glob.Pattern

/-!
# How deeply a pattern nests

A pattern stands for a sequence of items, one or more for each token. An item without parts has
depth zero. A class, a repetition and a group lie one level above what they hold; so does a
sequence of several items, or a choice among several branches, above its deepest part. A part
that stands alone adds no level.

## Main definitions

* `Glob.nest`: the depth of several parts taken together.
* `Glob.Token.depths`: the depths of the items of a token.
* `Glob.depth`: the depth of a pattern.
* `Glob.depthLimit`: the greatest depth that can be matched.
-/

namespace IndexControl.Glob

/-- The depth of some parts taken together, one level above the deepest of them. A single part
is as deep as it is alone. -/
def nest : List Nat → Nat
  | [] => 0
  | [d] => d
  | ds => ds.foldr max 0 + 1

mutual

/-- The depths of the items that a token stands for. A literal character is one item for each of
its bytes. A class of several ranges holds a union of them. The forms of a double star that may
stand for nothing are groups that choose between sequences with a repetition. A group whose
branches are all without items is no item. -/
def Token.depths : Token → List Nat
  | .literal c => (String.utf8EncodeChar c).map fun _ => 0
  | .any => [1]
  | .star => [2]
  | .leadingDirs => [4]
  | .trailingDirs => [0, 1]
  | .innerDirs => [4]
  | .oneOf _ ranges => [if ranges.length = 1 then 1 else 2]
  | .choice branches =>
    match branchDepths branches with
    | [] => []
    | ds => [nest ds + 1]

/-- The depths of the items of some tokens. -/
def itemDepths : List Token → List Nat
  | [] => []
  | token :: tokens => token.depths ++ itemDepths tokens

/-- The depths of those branches that have items. -/
def branchDepths : List (List Token) → List Nat
  | [] => []
  | branch :: branches =>
    match itemDepths branch with
    | [] => branchDepths branches
    | ds => nest ds :: branchDepths branches

end

/-- The depth of a pattern. Its items form a sequence with the two ends of the name. -/
def depth (tokens : List Token) : Nat := nest (0 :: 0 :: itemDepths tokens)

/-- The greatest depth of a pattern that can be matched. -/
def depthLimit : Nat := 250

end IndexControl.Glob
