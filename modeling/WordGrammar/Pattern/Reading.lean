import WordGrammar.Expr.Basic
import WordGrammar.Pattern.Lexis

namespace WordGrammar.Pattern

/-- What a text is read as: replacements may hold captures. -/
inductive Kind where
  | pattern
  | replacement
deriving DecidableEq, Repr

/-- Behind a closing bracket, or the objection that it is missing. -/
def close (bracket : Char) (objection : Objection) (source : List Char) :
    Except Refusal (List Char) :=
  match symbol? bracket source with
  | some rest => .ok rest
  | none => .error ⟨objection, source⟩

/-- A single term (`parse_term`): a quoted atom, the name of a rule, an expression in parentheses,
    which is optional, or one in brackets, which only groups, and in a replacement a capture. At the
    very end of a source a term may be missing and stands for the empty atom. `inner` reads what
    stands between brackets. -/
def term (kind : Kind) (inner : Reader (Expr Float)) : Reader (Expr Float)
  | [] => .ok (.atom "", [])
  | '\'' :: rest => do
    let (text, rest) ← readAtom ('\'' :: rest) rest
    .ok (.atom text, rest)
  | '(' :: rest => do
    let (body, rest) ← inner (skipBlanks rest)
    let rest ← close ')' .unclosedOption rest
    .ok (.optional body, rest)
  | '[' :: rest => do
    let (body, rest) ← inner (skipBlanks rest)
    let rest ← close ']' .unclosedGroup rest
    .ok (body, rest)
  | c :: rest =>
    if c = '#' ∧ kind = .replacement then do
      let (index, rest) ← readCapture (c :: rest) rest
      .ok (.capture index, rest)
    else if Name.isStart c then
      let (name, rest) := readName (c :: rest)
      .ok (.ref name, rest)
    else .error ⟨.unexpected c, c :: rest⟩

/-- A term, repeated as the bounds behind it say, if there are any (`parse_quantified_term`). -/
def quantified (kind : Kind) (inner : Reader (Expr Float)) : Reader (Expr Float) := fun source => do
  let (body, source) ← term kind inner source
  match source with
  | '{' :: rest =>
    let ((least, most), rest) ← readBounds source rest
    .ok (.repeated body least most, rest)
  | _ => .ok (body, source)

/-- As many further items as follow, each behind a separator. The budget is spent one by one and
    never falls short when it is the length of the source. -/
def following {α : Type} (separator : Char) (item : Reader α) : Nat → Reader (List α)
  | 0, source => .ok ([], source)
  | budget + 1, source =>
    match symbol? separator source with
    | none => .ok ([], source)
    | some rest => do
      let (a, rest) ← item rest
      let (as, rest) ← following separator item budget rest
      .ok (a :: as, rest)

/-- Terms joined by dots; one alone stands for itself (`parse_sequence`). -/
def sequence (kind : Kind) (inner : Reader (Expr Float)) : Reader (Expr Float) := fun source => do
  let (first, source) ← quantified kind inner source
  let (others, source) ← following '.' (quantified kind inner) source.length source
  .ok (if others.isEmpty then first else .seq (first :: others), source)

/-- A sequence and the weight written behind it. -/
def alternative (kind : Kind) (inner : Reader (Expr Float)) :
    Reader (Expr Float × Option Float) := fun source => do
  let (item, source) ← sequence kind inner source
  let (weight, source) ← readOptionalWeight source
  .ok ((item, weight), source)

/-- Alternatives joined by slashes, of which those without a weight weigh one (`parse_choice`). A
    sequence alone and without a weight is no choice and stands for itself. -/
def choice (kind : Kind) (inner : Reader (Expr Float)) : Reader (Expr Float) := fun source => do
  let ((item, weight), source) ← alternative kind inner source
  let (others, source) ← following '/' (alternative kind inner) source.length source
  .ok (match weight, others with
    | none, [] => item
    | weight, others =>
      .choice (((item, weight) :: others).map fun (item, weight) => ⟨item, weight.getD 1⟩),
    source)

/-- An expression in which brackets nest at most `depth` deep (`parse_expr`). A source of that many
    characters cannot nest deeper, and behind as many brackets only its end is left. -/
def expression (kind : Kind) : Nat → Reader (Expr Float)
  | 0 => fun source => .ok (.atom "", source)
  | depth + 1 => choice kind (expression kind depth)

/-- Reads a source to its end. -/
def read (kind : Kind) (source : String) : Except Malformed (Expr Float) :=
  let chars := source.toList
  let located (refusal : Refusal) : Malformed :=
    ⟨refusal.objection, chars.length - refusal.rest.length⟩
  match expression kind chars.length (skipBlanks chars) with
  | .ok (e, []) => .ok e
  | .ok (_, c :: rest) => .error (located ⟨.unexpected c, c :: rest⟩)
  | .error refusal => .error (located refusal)

/-- Reads a pattern, which has no captures. -/
def parse (source : String) : Except Malformed (Expr Float) := read .pattern source

/-- Reads the replacement of a substitution, which may have captures. -/
def parseReplacement (source : String) : Except Malformed (Expr Float) := read .replacement source

end WordGrammar.Pattern
