import WordGrammar.CommandLine.Unreadable
import WordGrammar.Config.Compile
import WordGrammar.Config.Json
import WordGrammar.Generation.Batch
import WordGrammar.Grammar.Combinations
import WordGrammar.Grammar.Text

namespace WordGrammar.CommandLine

/-- What a run leaves behind. -/
structure Report where
  status : Nat
  stdout : String
  stderr : String
deriving DecidableEq, Repr

/-- How many words are made if the arguments do not say. -/
def defaultCount : Nat := 10

/-- The line that reports a complaint (what `fail` prints). -/
def complaint (message : String) : String := "error: " ++ message ++ "\n"

/-- Reads a number of words below `2 ^ 64`, which may have a plus sign. -/
def readCount? (text : String) : Option Nat :=
  match text.toList with
  | '+' :: digits => Numeral.read? digits
  | digits => Numeral.read? digits

/-- The configuration that the arguments ask for (`load`); `file` is the text behind their path, or
    what keeps it from being read. -/
def loadConfig (args : List String) (file : Except Unreadable String) : Except String Config :=
  match args with
  | [] => .ok .tokiPona
  | path :: _ =>
    match file with
    | .error why => .error (path ++ ": " ++ why.message)
    | .ok text =>
      match Config.read? text with
      | some c => .ok c
      | none => .error (path ++ ": not a configuration")

/-- The number of words that the arguments ask for. -/
def wordCount (args : List String) : Except String Nat :=
  match args with
  | _ :: count :: _ =>
    match readCount? count with
    | some n => .ok n
    | none => .error ("not a word count: " ++ count)
  | _ => .ok defaultCount

/-- The grammar of a configuration, which must have a root. -/
def compile (c : Config) : Except String (Grammar Float) :=
  match c.compile with
  | .ok (some g) => .ok g
  | .ok none => .error "no root rule is set"
  | .error e => .error e.message

/-- The number of derivations of a grammar, in which rules must not refer to each other in a
    circle. -/
def combinations (g : Grammar Float) : Except String Nat :=
  match g.diagnostics with
  | .error fault => .error fault.message
  | .ok ⟨none, n⟩ => .ok n
  | .ok ⟨some cycle, _⟩ =>
    .error ("rules refer to each other in a cycle: " ++
      String.intercalate " -> " (cycle ++ cycle.take 1))

/-- The number of words, the grammar and the number of its derivations. -/
def prepare (args : List String) (file : Except Unreadable String) :
    Except String (Nat × Grammar Float × Nat) := do
  let c ← loadConfig args file
  let count ← wordCount args
  let g ← compile c
  let n ← combinations g
  .ok (count, g, n)

/-- What a run with these arguments leaves behind: words of a configuration, one per line. The first
    argument is the path of the configuration, without which the bundled one is used, and the second
    is the number of words. What can be said of the grammar goes to standard error before any word
    is made, and so does the complaint that ends a run early. -/
def run? (args : List String) (file : Except Unreadable String) (source : Source) :
    Option Report :=
  match prepare args file with
  | .error message => some ⟨1, "", complaint message⟩
  | .ok (count, g, n) =>
    let summary := g.text ++ "\n" ++ toString n ++ " combinations\n"
    (g.batch? count source).map fun batch =>
      let words := String.join (batch.words.map (· ++ "\n"))
      match batch.stopped with
      | none => ⟨0, words, summary⟩
      | some why => ⟨1, words, summary ++ complaint why.message⟩

end WordGrammar.CommandLine
