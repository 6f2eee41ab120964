import WordGrammar.Generation.Word
import WordGrammar.Sampler.Source

namespace WordGrammar

/-- Words made one after the other, what stopped their making early, and the source as it was left
    with all events told. -/
structure Batch where
  words : List String
  stopped : Option Stop
  source : Source
  events : List Event

namespace Batch

/-- The bytes that the record of a word takes: an address, a length and a capacity. -/
def recordSize : Nat := 24

/-- The greatest number of bytes that can be set aside at once: less than half of all 64-bit
    addresses, by whole words of eight bytes. -/
def room : Nat := 0x7FFFFFFFFFFFFFF8

/-- How many words a batch can have at most. -/
def largest : Nat := room / recordSize

end Batch

namespace Grammar

variable {W : Type} [Weight W]

/-- Makes so many words, or as many as come about before the first that does not. -/
def words? (g : Grammar W) : Nat → Source → Option Batch
  | 0, source => some ⟨[], none, source, []⟩
  | count + 1, source =>
    match g.word.run? source with
    | none => none
    | some ⟨.error why, source, events⟩ => some ⟨[], some why, source, events⟩
    | some ⟨.ok word, source, events⟩ =>
      (g.words? count source).map fun batch =>
        { batch with words := word :: batch.words, events := events ++ batch.events }

/-- Makes a batch of so many words (`generate_batch`). Room for all of them is set aside before the
    first is made, so a batch that could not fit into memory is refused at once, even if it would
    end early. -/
def batch? (g : Grammar W) (count : Nat) (source : Source) : Option Batch :=
  if count ≤ Batch.largest then g.words? count source
  else some ⟨[], some (.faulted .batchTooLarge), source, []⟩

end Grammar

end WordGrammar
