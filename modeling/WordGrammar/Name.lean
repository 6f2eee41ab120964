namespace WordGrammar.Name

/-- An ASCII letter or an underscore begins a name (`is_identifier_start`). -/
def isStart (c : Char) : Bool := c.isAlpha || c == '_'

/-- ASCII letters, ASCII digits and underscores continue a name (`is_identifier_char`). -/
def isPart (c : Char) : Bool := c.isAlphanum || c == '_'

/-- Whether the text as a whole is a name. -/
def isIdentifier (text : String) : Bool :=
  match text.toList with
  | [] => false
  | c :: cs => isStart c && cs.all isPart

theorem isPart_of_isStart {c : Char} (h : isStart c = true) : isPart c = true := by
  simp only [isStart, isPart, Char.isAlphanum, Bool.or_eq_true] at *
  rcases h with h | h
  · exact .inl (.inl h)
  · exact .inr h

end WordGrammar.Name
