namespace WordGrammar.CommandLine

/-- What keeps the text of a file from being read. -/
inductive Unreadable where
  /-- Nothing is to be found at the path. -/
  | missing
  /-- The file may not be opened. -/
  | forbidden
  /-- The path leads beyond something that is no directory. -/
  | notDirectory
  /-- A directory is to be found at the path. -/
  | directory
  /-- The path or one of its names is longer than any can be. -/
  | nameTooLong
  /-- The bytes of the file are not text. -/
  | notText
  | other (reason : String)
deriving DecidableEq, Repr

/-- A reason that the operating system gives, with its number. -/
def Unreadable.numbered (reason : String) (number : Nat) : String :=
  reason ++ " (os error " ++ toString number ++ ")"

/-- The wording of what keeps a file from being read. -/
def Unreadable.message : Unreadable → String
  | .missing => numbered "No such file or directory" 2
  | .forbidden => numbered "Permission denied" 13
  | .notDirectory => numbered "Not a directory" 20
  | .directory => numbered "Is a directory" 21
  | .nameTooLong => numbered "File name too long" 36
  | .notText => "stream did not contain valid UTF-8"
  | .other reason => reason

end WordGrammar.CommandLine
