import WordGrammar.Proofs.Sampler.Reads

namespace WordGrammar

/-- A draw whose answers are no more than the values there are. -/
def Draw.Fits : Draw → Prop
  | .upTo bound => bound < UInt64.size
  | .fraction => True

/-- Every draw on the way has no more answers than there are values. -/
def Sampler.Fits {α : Type} : Sampler α → Prop
  | .done _ => True
  | .stop _ => True
  | .draw d next => d.Fits ∧ ∀ answer, (next answer).Fits
  | .note _ rest => rest.Fits

namespace Source

theorem le_zone (range : Nat) : range ≤ zone range := by
  rw [zone, Nat.shiftLeft_eq]
  exact Nat.le_mul_of_pos_right range (Nat.two_pow_pos _)

/-- A multiple of the range lies as close above the start of a portion as the range is long. -/
theorem exists_multiple {range k : Nat} (hk : k < range) (hrange : range ≤ UInt64.size) :
    ∃ value, value < UInt64.size ∧ k * UInt64.size ≤ value * range ∧
      value * range < k * UInt64.size + range := by
  have hpositive : 0 < range := by omega
  have hdivision := Nat.div_add_mod (k * UInt64.size + (range - 1)) range
  have hremainder := Nat.mod_lt (k * UInt64.size + (range - 1)) hpositive
  rw [Nat.mul_comm] at hdivision
  -- The first multiple that is not below the start, which is the quotient rounded up.
  refine ⟨(k * UInt64.size + (range - 1)) / range, ?_, by omega, by omega⟩
  rw [Nat.div_lt_iff_lt_mul hpositive]
  have hnext : (k + 1) * UInt64.size ≤ range * UInt64.size := Nat.mul_le_mul_right _ hk
  rw [Nat.add_mul, Nat.one_mul] at hnext
  rw [Nat.mul_comm UInt64.size range]
  omega

/-- For every number up to the bound there is a value that is accepted for it. -/
theorem exists_value {bound : Nat} (hbound : bound < UInt64.size) (k : Fin (bound + 1)) :
    ∃ value : UInt64, value.toNat * (bound + 1) / UInt64.size = k.val ∧
      value.toNat * (bound + 1) % UInt64.size < zone (bound + 1) := by
  have hpositive : 0 < UInt64.size := by decide
  obtain ⟨value, hvalue, hlow, hhigh⟩ := exists_multiple k.isLt hbound
  have hquotient : value * (bound + 1) / UInt64.size = k.val := by
    rw [Nat.div_eq_iff hpositive]
    omega
  have hzone := le_zone (bound + 1)
  have hdivision := Nat.div_add_mod (value * (bound + 1)) UInt64.size
  rw [hquotient, Nat.mul_comm] at hdivision
  refine ⟨UInt64.ofNat value, ?_, ?_⟩
  · rw [UInt64.toNat_ofNat_of_lt' hvalue]
    exact hquotient
  · rw [UInt64.toNat_ofNat_of_lt' hvalue]
    omega

/-- A value that is accepted settles the draw, however many tries were left. -/
theorem upTo?_of_accepted {bound : Nat} {k : Fin (bound + 1)} {value : UInt64}
    (hquotient : value.toNat * (bound + 1) / UInt64.size = k.val)
    (haccepted : value.toNat * (bound + 1) % UInt64.size < zone (bound + 1)) (tries : Nat)
    (script : List UInt64) (state : UInt64) (taken : Nat) :
    upTo? bound (tries + 1) ⟨value :: script, state, taken⟩ =
      some (k, ⟨script, state, taken + 1⟩) := by
  rw [upTo?, next_cons]
  dsimp only
  rw [if_pos haccepted]
  congr 2
  exact Fin.ext hquotient

/-- Every answer to a draw comes of some value. -/
theorem exists_takes {d : Draw} (hfits : d.Fits) (answer : d.Answer) :
    ∃ value, d.Takes [value] answer := by
  cases d with
  | upTo bound =>
    obtain ⟨value, hquotient, haccepted⟩ := exists_value hfits answer
    refine ⟨value, fun rest state taken => ?_⟩
    have htries : patience ⟨value :: rest, state, taken⟩ = rest.length + UInt64.size + 1 :=
      Nat.add_right_comm ..
    rw [answer?, List.singleton_append, htries]
    exact upTo?_of_accepted hquotient haccepted _ rest state taken
  | fraction =>
    have hvalue : answer.val * 2048 < UInt64.size := by
      have hanswer := answer.isLt
      have hsize : UInt64.size = 0x20000000000000 * 2048 := rfl
      omega
    refine ⟨UInt64.ofNat (answer.val * 2048), fun rest state taken => ?_⟩
    have hquotient : (UInt64.ofNat (answer.val * 2048)).toNat / 2048 = answer.val := by
      rw [UInt64.toNat_ofNat_of_lt' hvalue, Nat.mul_div_cancel _ (by decide)]
    rw [answer?, List.singleton_append, next_cons]
    dsimp only
    congr 2
    exact Fin.ext hquotient

end Source

namespace Sampler

variable {α β : Type} {p : Sampler α} {outcome : Except Stop α}

theorem Fits.ask {d : Draw} (hfits : d.Fits) : (ask d).Fits :=
  ⟨hfits, fun _ => trivial⟩

theorem Fits.bind {f : α → Sampler β} (hp : p.Fits) (hf : ∀ a, (f a).Fits) :
    (p >>= f).Fits := by
  induction p with
  | done a => exact hf a
  | stop why => exact trivial
  | draw d next ih => exact ⟨hp.1, fun answer => ih answer (hp.2 answer)⟩
  | note event rest ih => exact ih hp

/-- Some values lead to the outcome, one for each draw. -/
theorem exists_reads_of_ends (hfits : p.Fits) (hends : p.Ends outcome) :
    ∃ values, p.Reads values outcome := by
  induction hends with
  | done a => exact ⟨[], .done a⟩
  | stop why => exact ⟨[], .stop why⟩
  | draw answer hnext ih =>
    obtain ⟨value, htakes⟩ := Source.exists_takes hfits.1 answer
    obtain ⟨later, hreads⟩ := ih (hfits.2 answer)
    exact ⟨_, .draw htakes hreads⟩
  | note hrest ih =>
    obtain ⟨values, hreads⟩ := ih hfits
    exact ⟨values, .note hreads⟩

/-- The outcomes that a sampler can come to are those of its runs. -/
theorem ends_iff_exists_run? (hfits : p.Fits) :
    p.Ends outcome ↔ ∃ source run, p.run? source = some run ∧ run.outcome = outcome := by
  constructor
  · intro hends
    obtain ⟨values, hreads⟩ := exists_reads_of_ends hfits hends
    obtain ⟨events, hrun⟩ := hreads.exists_run? [] 0 0
    exact ⟨_, _, hrun, rfl⟩
  · intro h
    obtain ⟨source, run, hrun, houtcome⟩ := h
    rw [← houtcome]
    exact ends_of_run? hrun

end Sampler

end WordGrammar
