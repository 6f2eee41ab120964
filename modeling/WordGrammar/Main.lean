import WordGrammar.CommandLine

open WordGrammar

/-- What keeps a file from being read, by the error that came up. -/
def unreadable : IO.Error → CommandLine.Unreadable
  | .noFileOrDirectory .. => .missing
  | .permissionDenied .. => .forbidden
  | .inappropriateType (some _) .. => .notDirectory
  | .inappropriateType none .. => .directory
  | .invalidArgument _ _ "name too long" => .nameTooLong
  | e => .other (toString e)

/-- The text of a file, or what keeps it from being read. -/
def readText (path : String) : IO (Except CommandLine.Unreadable String) := do
  try
    match String.fromUTF8? (← IO.FS.readBinFile path) with
    | some text => return .ok text
    | none => return .error .notText
  catch e =>
    return .error (unreadable e)

/-- A source with a seed from the system. -/
def systemSource : IO Source := do
  let bytes ← IO.getRandomBytes 8
  return .ofSeed [] (bytes.toList.foldl (fun seed b => seed * 256 + b.toUInt64) 0)

def main (args : List String) : IO UInt32 := do
  let file ← match args with
    | path :: _ => readText path
    | [] => pure (.error .missing)
  match CommandLine.run? args file (← systemSource) with
  | none => return 1
  | some report =>
    IO.eprint report.stderr
    IO.print report.stdout
    return report.status.toUInt32
