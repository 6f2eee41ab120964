import WordGrammar.Matcher.Basic

namespace WordGrammar

/-- A match that begins where a text does and is not empty. -/
structure Hit where
  /-- The number of matched characters beyond the first. -/
  beyondFirst : Nat
  segments : List Nat
deriving DecidableEq, Repr

namespace Hit

/-- The number of matched characters. -/
def length (h : Hit) : Nat := h.beyondFirst + 1

end Hit

/-- Cuts pieces of the given lengths off a text, one behind the other (`split_segments`). -/
def cut : List Nat → List Char → List (List Char)
  | [], _ => []
  | n :: lengths, s => s.take n :: cut lengths (s.drop n)

/-- The number of bytes that characters take in UTF-8. -/
def byteLength (s : List Char) : Nat := s.foldr (fun c bytes => c.utf8Size + bytes) 0

/-- A match inside a text. -/
structure Occurrence where
  text : List Char
  /-- The number of characters before the match. -/
  start : Nat
  hit : Hit

namespace Occurrence

/-- The characters that are matched (`as_str`). -/
def chars (o : Occurrence) : List Char := (o.text.drop o.start).take o.hit.length

/-- The bytes before the match (what `start` returns). -/
def startByte (o : Occurrence) : Nat := byteLength (o.text.take o.start)

/-- The bytes up to the end of the match (what `end` returns). -/
def endByte (o : Occurrence) : Nat := byteLength (o.text.take (o.start + o.hit.length))

/-- The matched characters by segments. -/
def segments (o : Occurrence) : List (List Char) := cut o.hit.segments o.chars

end Occurrence

namespace Matcher

/-- The shortest match at the start of a text that is not empty (`match_at`). -/
def hit? (p : Matcher) (s : List Char) : Except Fault (Option Hit) :=
  (List.range s.length).findSomeM? fun k => do
    pure ((← p (s.take (k + 1))).map (⟨k, ·⟩))

/-- The leftmost match in a text that is not empty, and of those the shortest. -/
def find? (p : Matcher) (s : List Char) : Except Fault (Option Occurrence) :=
  (List.range s.length).findSomeM? fun start => do
    pure ((← p.hit? (s.drop start)).map (⟨s, start, ·⟩))

end Matcher

end WordGrammar
