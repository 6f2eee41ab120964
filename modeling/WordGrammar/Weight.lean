namespace WordGrammar

/-- One of `2 ^ 53` equal parts of the numbers from zero to one. -/
abbrev Share : Type := Fin 0x20000000000000

/-- A type of weights. Nothing is assumed of the operations here; what a fact about weighted draws
    needs of them, it says. -/
class Weight (W : Type) where
  zero : W
  add : W → W → W
  sub : W → W → W
  mul : W → W → W
  /-- Strictly less; false when either side is undefined. -/
  lt : W → W → Bool
  /-- The number at which a part of the numbers from zero to one begins. -/
  fraction : Share → W

/-- Doubles are the weights that are read from text. The factor is `2 ^ -53`. -/
instance : Weight Float where
  zero := 0
  add := (· + ·)
  sub := (· - ·)
  mul := (· * ·)
  lt v w := decide (v < w)
  fraction k := Float.ofNat k.val * Float.ofBits 0x3CA0000000000000

namespace Weight

variable {W : Type} [Weight W]

/-- The sum of the weights, added from left to right. -/
def total (weights : List W) : W := weights.foldl add zero

/-- The first position whose weight exceeds what the weights before it leave of `rest`. -/
def locate? (rest : W) : List W → Option Nat
  | [] => none
  | w :: weights =>
    if lt rest w then some 0 else (locate? (sub rest w) weights).map (· + 1)

/-- The last position with a positive weight, or the last position of all. -/
def lastUsable (weights : List W) : Nat :=
  match weights.reverse.findIdx? (fun w => lt zero w) with
  | some i => weights.length - 1 - i
  | none => weights.length - 1

/-- The position that a number between zero and one selects: the one in whose portion of the total
    it falls, and the last usable one should rounding carry it past every portion
    (`weighted_pick`). -/
def select (draw : W) (weights : List W) : Nat :=
  (locate? (mul draw (total weights)) weights).getD (lastUsable weights)

end Weight

end WordGrammar
