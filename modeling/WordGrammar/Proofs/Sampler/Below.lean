import WordGrammar.Proofs.Sampler.Ends

namespace WordGrammar.Sampler

variable {α β : Type}

/-- `p.Below q`: the runs of `p` are those of `q`, but for some that are given up on the way because
    references nest too deep. -/
inductive Below : Sampler α → Sampler α → Prop
  | overrun (q : Sampler α) : Below (.stop (.faulted .endlessNesting)) q
  | done (a : α) : Below (.done a) (.done a)
  | stop (why : Stop) : Below (.stop why) (.stop why)
  | draw {d : Draw} {next next' : d.Answer → Sampler α}
      (hnext : ∀ answer, Below (next answer) (next' answer)) : Below (.draw d next) (.draw d next')
  | note {event : Event} {rest rest' : Sampler α} (hrest : Below rest rest') :
      Below (.note event rest) (.note event rest')

variable {p q : Sampler α}

theorem Below.refl (p : Sampler α) : p.Below p := by
  induction p with
  | done a => exact .done a
  | stop why => exact .stop why
  | draw d next ih => exact .draw ih
  | note event rest ih => exact .note ih

theorem Below.bind {f f' : α → Sampler β} (hp : p.Below q) (hf : ∀ a, (f a).Below (f' a)) :
    (p >>= f).Below (q >>= f') := by
  induction hp with
  | overrun q => exact .overrun _
  | done a => exact hf a
  | stop why => exact .stop why
  | draw _ ih => exact .draw ih
  | note _ ih => exact .note ih

/-- On the source, the run is given up because references nest too deep. -/
def Overruns (p : Sampler α) (source : Source) : Prop :=
  ∃ run, p.run? source = some run ∧ run.outcome = .error (.faulted .endlessNesting)

/-- A run that is not given up is the same. -/
theorem Below.run?_eq (hp : p.Below q) (source : Source) :
    p.run? source = q.run? source ∨ p.Overruns source := by
  induction hp generalizing source with
  | overrun q => exact .inr ⟨_, rfl, rfl⟩
  | done a => exact .inl rfl
  | stop why => exact .inl rfl
  | draw _ ih =>
    simp only [run?, Overruns]
    cases source.answer? _ with
    | none => exact .inl rfl
    | some answered => exact ih _ _
  | note _ ih =>
    obtain heq | ⟨run, hrun, houtcome⟩ := ih source
    · exact .inl (by rw [run?, run?, heq])
    · exact .inr ⟨_, Option.map_eq_some_iff.mpr ⟨run, hrun, rfl⟩, houtcome⟩

end WordGrammar.Sampler
