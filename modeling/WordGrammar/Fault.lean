namespace WordGrammar

/-- What stops an evaluation that should not have been started, where it panics. The errors that a
    checked grammar can run into are kept apart from these. -/
inductive Fault where
  /-- A reference names no rule. -/
  | unknownRule (name : String)
  /-- Text was matched against a capture. -/
  | captureMatched (index : Nat)
  /-- The texts that a capture stands for were to be counted. -/
  | captureCounted (index : Nat)
  /-- A capture was expanded where no match has captured anything. -/
  | captureExpanded (index : Nat)
  /-- A number was to be drawn between bounds out of order. -/
  | nothingToDraw
  /-- An alternative was to be taken from a position behind the last. -/
  | positionOutOfRange
  /-- The numbers between bounds out of order were to be counted. -/
  | boundsReversed
  /-- References nest without end. -/
  | endlessNesting
  /-- More words were to be made at once than memory has addresses for. -/
  | batchTooLarge
deriving DecidableEq, Repr

/-- The wording of a fault. -/
def Fault.message : Fault → String
  | .unknownRule name => "rule " ++ name ++ " is not part of the grammar"
  | .captureMatched index =>
    "match placeholder #" ++ toString index ++ "# cannot be matched against"
  | .captureCounted index =>
    "match placeholder #" ++ toString index ++ "# used outside a replacement"
  | .captureExpanded index =>
    "match placeholder #" ++ toString index ++ "# expanded outside a replacement"
  | .nothingToDraw => "cannot sample empty range"
  | .positionOutOfRange => "index out of bounds"
  | .boundsReversed => "attempt to subtract with overflow"
  | .endlessNesting => "references nest without end"
  | .batchTooLarge => "capacity overflow"

end WordGrammar
