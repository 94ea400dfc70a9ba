import IndexControl.Glob.Depth
import IndexControl.Glob.Matching
import IndexControl.Text.Blank

/-!
# Lists of ignore rules

Each line of an ignore list is a rule: a pattern, marked when it takes names back instead of
ignoring them and when it speaks of directories only. Blank lines, comments and lines whose
pattern cannot be read make no rule. The last rule that matches a name decides about it. The
rules of a list are matched together, so that one of them that nests too deeply spoils all.

## Main definitions

* `Glob.Rule`, `Glob.Rule.ofLine?`: one rule, read from a line.
* `Glob.rulesOf`: the rules of a list of lines.
* `Glob.ignores`: whether a list of rules ignores a name.
-/

namespace IndexControl.Glob

/-- One rule of an ignore list. -/
structure Rule where
  /-- The tokens a name has to match. -/
  tokens : List Token
  /-- Whether matching names are taken back. -/
  keeps : Bool
  /-- Whether the rule is for directories only. -/
  directoriesOnly : Bool

/-- Whether `tail` ends the list. -/
def endsWith (cs tail : List Char) : Bool := tail.reverse.isPrefixOf cs.reverse

/-- Drop one character at the end where it is `c`. -/
def dropEnd (c : Char) (cs : List Char) : List Char :=
  if cs.getLast? = some c then cs.dropLast else cs

/-- The pattern of a line that may match at any depth: unless it is anchored or names
directories itself, any directories may stand before it. A pattern for all below a directory
does not match the directory. -/
def anywhere (anchored : Bool) (cs : List Char) : List Char :=
  let free := !anchored && !cs.contains '/' && !(['*', '*', '/'].isPrefixOf cs || cs = ['*', '*'])
  let cs := if free then '*' :: '*' :: '/' :: cs else cs
  if endsWith cs ['/', '*', '*'] then cs ++ ['/', '*'] else cs

/-- Read a line that is neither blank nor a comment. A backslash in front takes away the
meaning of an exclamation mark or a number sign; without it the mark makes a rule that keeps
names. A slash in front anchors the pattern, and one at the end restricts it to directories. -/
def Rule.ofPattern? (cs : List Char) : Option Rule :=
  let (keeps, anchored, cs) :=
    match cs with
    | '\\' :: '!' :: rest => (false, false, '!' :: rest)
    | '\\' :: '#' :: rest => (false, false, '#' :: rest)
    | '!' :: '/' :: rest => (true, true, rest)
    | '!' :: rest => (true, false, rest)
    | '/' :: rest => (false, true, rest)
    | rest => (false, false, rest)
  let directoriesOnly := cs.getLast? = some '/'
  let cs := if directoriesOnly then dropEnd '\\' cs.dropLast else cs
  (read? (anywhere anchored cs)).map (⟨·, keeps, directoriesOnly⟩)

/-- Read a line. Blanks at its end count only after a backslash and a space. -/
def Rule.ofLine? (line : String) : Option Rule :=
  let cs := line.toList
  if cs.head? = some '#' then none
  else
    let cs := if endsWith cs ['\\', ' '] then cs else Text.dropBlanksEnd cs
    if cs.isEmpty then none else ofPattern? cs

/-- The rules of some lines. There are none if any of them nests too deeply. -/
def rulesOf (lines : List String) : List Rule :=
  let rules := lines.filterMap Rule.ofLine?
  if rules.all fun rule => depth rule.tokens ≤ depthLimit then rules else []

/-- Whether a rule has a say about a name. -/
def Rule.applies (rule : Rule) (isDirectory : Bool) (name : List UInt8) : Bool :=
  (isDirectory || !rule.directoriesOnly) && isMatch rule.tokens name

/-- Whether the last rule that applies to a name ignores it. -/
def ignores (rules : List Rule) (isDirectory : Bool) (name : List UInt8) : Bool :=
  match rules.reverse.find? (·.applies isDirectory name) with
  | some rule => !rule.keeps
  | none => false

end IndexControl.Glob
