import WordGrammar.Expr.Basic
import WordGrammar.Pattern.Weight

namespace WordGrammar

namespace Pattern

/-- An atom between quotes, with a backslash before each quote and backslash of its own
    (`escape_atom`). -/
def quoteAtom (text : List Char) : List Char :=
  '\'' :: text.flatMap (fun c => if c = '\'' ∨ c = '\\' then ['\\', c] else [c]) ++ ['\'']

/-- The text in brackets, if they are needed. -/
def bracketed (needed : Bool) (text : List Char) : List Char :=
  if needed then '[' :: text ++ [']'] else text

/-- The braces of a repetition; equal bounds are written once. -/
def boundsText (least most : Nat) : List Char :=
  let body :=
    if least = most then Numeral.digits least
    else Numeral.digits least ++ ':' :: Numeral.digits most
  '{' :: body ++ ['}']

end Pattern

namespace Expr

open Pattern

variable {W : Type}

/-- A choice is written with separators that bind loosest. -/
def isChoice : Expr W → Bool
  | .choice _ => true
  | _ => false

/-- Sequences and choices are written as several parts with separators between them. -/
def isJoined : Expr W → Bool
  | .seq _ => true
  | .choice _ => true
  | _ => false

/-- Whether the written form is a single term, to which bounds can be put at once. An optional
    expression is one because of its parentheses. -/
def isTerm : Expr W → Bool
  | .atom _ => true
  | .ref _ => true
  | .capture _ => true
  | .seq _ => false
  | .choice _ => false
  | .repeated _ least most => least == 0 && most == 1

mutual

/-- The characters of the written form. Brackets stand exactly where a reader would otherwise
    regroup: around a sequence or a choice inside a sequence (`write_item`), around a choice inside
    a choice, and around anything but a single term that is repeated (`write_term`). -/
def chars : Expr Float → List Char
  | .atom text => quoteAtom text.toList
  | .ref rule => rule.toList
  | .capture index => '#' :: Numeral.digits index ++ ['#']
  | .seq items => List.intercalate ['.'] (itemChars items)
  | .choice alternatives =>
    List.intercalate [' ', '/', ' '] (alternativeChars (alternatives.length == 1) alternatives)
  | .repeated body least most =>
    if least = 0 ∧ most = 1 then '(' :: body.chars ++ [')']
    else bracketed (!body.isTerm) body.chars ++ boundsText least most

/-- The written form of each item of a sequence. -/
def itemChars : List (Expr Float) → List (List Char)
  | [] => []
  | item :: items => bracketed item.isJoined item.chars :: itemChars items

/-- The written form of each alternative of a choice. A weight of one is left out, save behind a
    lone alternative, which only its weight tells from its item. -/
def alternativeChars (lone : Bool) : List (Weighted Float (Expr Float)) → List (List Char)
  | [] => []
  | ⟨item, weight⟩ :: alternatives =>
    (bracketed item.isChoice item.chars ++
      if lone || weight != 1 then '*' :: weightText weight else []) ::
        alternativeChars lone alternatives

end

/-- The written form, which is pattern text. -/
def text (e : Expr Float) : String := String.ofList e.chars

end Expr

end WordGrammar
