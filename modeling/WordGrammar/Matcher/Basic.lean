import WordGrammar.Fault

namespace WordGrammar

/-- Matches a text as a whole and answers with the lengths of its segments, one for each piece of
    literal text that it compared, in the first way that it finds. -/
abbrev Matcher := List Char → Except Fault (Option (List Nat))

namespace Matcher

/-- Matches one text only, as a single segment. -/
def literal (text : List Char) : Matcher := fun s =>
  .ok (if text = s then some [s.length] else none)

/-- Matches the empty text, without any segment. -/
def empty : Matcher := fun s =>
  .ok (if s.isEmpty then some [] else none)

/-- Matches a text that falls into a part for `p` and a part for `q`, with the shortest part for `p`
    that can be had. -/
def andThen (p q : Matcher) : Matcher := fun s =>
  (List.range (s.length + 1)).findSomeM? fun k => do
    match ← p (s.take k) with
    | none => pure none
    | some front => pure ((← q (s.drop k)).map (front ++ ·))

/-- Matches a text that falls into a part for each matcher in turn (`match_seq`). -/
def inOrder : List Matcher → Matcher
  | [], s => empty s
  | p :: ps, s => andThen p (inOrder ps) s

/-- Matches what one of the matchers does, the first of them counting. -/
def firstOf (ps : List Matcher) : Matcher := fun s =>
  ps.findSomeM? (· s)

/-- Matches a text that falls into so many parts for `p` (`match_seq` on one item). -/
def copies (p : Matcher) : Nat → Matcher
  | 0, s => empty s
  | n + 1, s => andThen p (copies p n) s

/-- Matches a text that falls into at least `least` and at most `most` parts for `p`, as few as
    possible. Beyond one part more than the text has characters, further parts would be empty. -/
def repeated (p : Matcher) (least most : Nat) : Matcher := fun s =>
  let last := min most (max least (s.length + 1))
  (List.range' least (last + 1 - least)).findSomeM? fun n => copies p n s

end Matcher

end WordGrammar
