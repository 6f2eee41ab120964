import WordGrammar.Sampler.Basic

namespace WordGrammar

/-- Where random 64-bit values come from, and how many have been taken: first those of a script, and
    then those of a generator that steps its state by a constant and mixes it. -/
structure Source where
  script : List UInt64
  /-- The state of the generator that takes over behind the script. -/
  state : UInt64
  taken : Nat
deriving DecidableEq, Repr

namespace Source

/-- A source nothing has been taken from. -/
def ofSeed (script : List UInt64) (seed : UInt64) : Source := ⟨script, seed, 0⟩

/-- The step between states of the generator. -/
def increment : UInt64 := 0x9E3779B97F4A7C15

/-- Spreads the bits of a state over a value. -/
def mix (state : UInt64) : UInt64 :=
  let z := (state ^^^ (state >>> 30)) * 0xBF58476D1CE4E5B9
  let z := (z ^^^ (z >>> 27)) * 0x94D049BB133111EB
  z ^^^ (z >>> 31)

/-- Takes a value. -/
def next (source : Source) : UInt64 × Source :=
  match source.script with
  | value :: script => (value, { source with script, taken := source.taken + 1 })
  | [] =>
    let state := source.state + increment
    (mix state, { source with state, taken := source.taken + 1 })

/-- The number of low halves that are accepted for a range: the range times the greatest power of
    two that leaves the product within 64 bits. -/
def zone (range : Nat) : Nat := range <<< (63 - range.log2)

/-- Takes values until one is accepted for a number up to the bound, a limited number of times
    (`gen_range`). The number is the high half of the product of the value and the range; it is
    accepted as long as the low half shows that every number has as many values to come from. -/
def upTo? (bound : Nat) : Nat → Source → Option (Fin (bound + 1) × Source)
  | 0, _ => none
  | tries + 1, source =>
    let (value, source) := source.next
    let product := value.toNat * (bound + 1)
    if product % UInt64.size < zone (bound + 1) then
      some (⟨product / UInt64.size,
        Nat.div_lt_of_lt_mul (Nat.mul_lt_mul_of_pos_right value.toNat_lt (Nat.succ_pos bound))⟩,
        source)
    else upTo? bound tries source

/-- How often a draw may be refused: once for each value of the script and each state of the
    generator, after which the values would recur. -/
def patience (source : Source) : Nat := source.script.length + UInt64.size

/-- Answers a draw, unless every value there is would be refused. -/
def answer? (source : Source) : (d : Draw) → Option (d.Answer × Source)
  | .upTo bound => upTo? bound source.patience source
  | .fraction =>
    let (value, source) := source.next
    some (⟨value.toNat / 2048, Nat.div_lt_of_lt_mul value.toNat_lt⟩, source)

end Source

/-- The end of a run: its outcome, the source as it was left, and the events told on the way. -/
structure Run (α : Type) where
  outcome : Except Stop α
  source : Source
  events : List Event

namespace Sampler

/-- Runs a sampler on a source. There is no run if a draw is refused forever. -/
def run? {α : Type} : Sampler α → Source → Option (Run α)
  | .done a, source => some ⟨.ok a, source, []⟩
  | .stop why, source => some ⟨.error why, source, []⟩
  | .draw d next, source =>
    match source.answer? d with
    | none => none
    | some (answer, source) => (next answer).run? source
  | .note event rest, source =>
    (rest.run? source).map fun run => { run with events := event :: run.events }

end Sampler

end WordGrammar
