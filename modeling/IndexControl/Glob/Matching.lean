import IndexControl.Glob.Pattern

/-!
# What a pattern matches

A name is matched from the front. At each moment some positions of the name are reachable: those
up to which some way through the tokens so far consumes the name. They are kept as marks, one
for each byte of the name and one for its end, and each token moves the marks. A pattern matches
a name when the end is reachable after all tokens.

## Main definitions

* `Glob.Marks`: the reachable positions.
* `Glob.Token.advance`: the marks after a token.
* `Glob.isMatch`: whether a pattern matches a name.
-/

namespace IndexControl.Glob

open IndexControl.Path (slash)

/-- The reachable positions of a name, from its front to its end. -/
abbrev Marks := List Bool

/-- The marks of a name of which nothing has been consumed. -/
def Marks.start (name : List UInt8) : Marks := true :: name.map fun _ => false

/-! ### Moving marks -/

/-- Consume one byte that satisfies `p`; `arrived` says whether the first position is reached. -/
def consume (p : UInt8 → Bool) (arrived : Bool) : List UInt8 → Marks → Marks
  | b :: name, m :: marks => arrived :: consume p (m && p b) name marks
  | _, _ => [arrived]

/-- Consume the bytes of `bytes`. -/
def consumeAll (name : List UInt8) (bytes : List UInt8) (marks : Marks) : Marks :=
  bytes.foldl (fun marks b => consume (· = b) false name marks) marks

/-- Consume any number of bytes that satisfy `p`; `reached` says whether a position before the
first one can be extended to it. -/
def consumeMany (p : UInt8 → Bool) (reached : Bool) : List UInt8 → Marks → Marks
  | b :: name, m :: marks =>
    (m || reached) :: consumeMany p ((m || reached) && p b) name marks
  | _, m :: _ => [m || reached]
  | _, [] => []

/-- Consume nothing, or bytes of which the last one is a slash; `reached` says whether a position
before the first one is reachable, and `arrived` whether the first one is reached behind a
slash. -/
def consumeDirs (reached arrived : Bool) : List UInt8 → Marks → Marks
  | b :: name, m :: marks =>
    (m || arrived) :: consumeDirs (m || reached) ((m || reached) && b = slash) name marks
  | _, m :: _ => [m || arrived]
  | _, [] => []

/-! ### Tokens -/

mutual

/-- Whether a token demands nothing: it is a group all of whose branches demand nothing. -/
def Token.isVoid : Token → Bool
  | .choice branches => areVoid branches
  | _ => false

/-- Whether no token of a branch demands anything. -/
def isVoidBranch : List Token → Bool
  | [] => true
  | token :: tokens => token.isVoid && isVoidBranch tokens

/-- Whether no branch demands anything. -/
def areVoid : List (List Token) → Bool
  | [] => true
  | branch :: branches => isVoidBranch branch && areVoid branches

end

mutual

/-- The marks after a token. In a group, branches that demand nothing do not count, and a group
without other branches consumes nothing. -/
def Token.advance (name : List UInt8) (marks : Marks) : Token → Marks
  | .literal c => consumeAll name (String.utf8EncodeChar c) marks
  | .any => consume (· ≠ slash) false name marks
  | .star => consumeMany (· ≠ slash) false name marks
  | .leadingDirs => consumeDirs false false name marks
  | .trailingDirs => consumeMany (fun _ => true) false name (consumeAll name [slash] marks)
  | .innerDirs => consumeDirs false false name (consumeAll name [slash] marks)
  | .oneOf negated ranges =>
    consume (fun b => (ranges.any fun r => r.1 ≤ b && b ≤ r.2) != negated) false name marks
  | .choice branches => if areVoid branches then marks else advanceAny name marks branches

/-- The marks after all of some tokens. -/
def advanceAll (name : List UInt8) (marks : Marks) : List Token → Marks
  | [] => marks
  | token :: tokens => advanceAll name (token.advance name marks) tokens

/-- The marks after any of some branches that demand something. -/
def advanceAny (name : List UInt8) (marks : Marks) : List (List Token) → Marks
  | [] => marks.map fun _ => false
  | branch :: branches =>
    let others := advanceAny name marks branches
    if isVoidBranch branch then others
    else List.zipWith (· || ·) (advanceAll name marks branch) others

end

/-- Whether a pattern matches a name as a whole. A pattern that is only a double star matches
every name. -/
def isMatch (tokens : List Token) (name : List UInt8) : Bool :=
  match tokens with
  | [.leadingDirs] => true
  | _ => (advanceAll name (.start name) tokens).getLast? = some true

end IndexControl.Glob
