import Mathlib.Tactic.Common
import WordGrammar.Sampler.Source

namespace WordGrammar.Sampler

variable {α β : Type}

/-- `p.Ends outcome`: some answers to the draws lead to this outcome, which is one of the leaves of
    the tree of runs. -/
inductive Ends : Sampler α → Except Stop α → Prop
  | done (a : α) : Ends (.done a) (.ok a)
  | stop (why : Stop) : Ends (.stop why) (.error why)
  | draw {d : Draw} {next : d.Answer → Sampler α} {outcome : Except Stop α} (answer : d.Answer)
      (hnext : Ends (next answer) outcome) : Ends (.draw d next) outcome
  | note {event : Event} {rest : Sampler α} {outcome : Except Stop α}
      (hrest : Ends rest outcome) : Ends (.note event rest) outcome

variable {p : Sampler α} {f : α → Sampler β} {outcome : Except Stop α}

@[simp] theorem ends_done {a : α} : (done a).Ends outcome ↔ outcome = .ok a := by
  constructor
  · intro h
    cases h
    rfl
  · intro h
    rw [h]
    exact .done a

@[simp] theorem ends_stop {why : Stop} :
    (stop why : Sampler α).Ends outcome ↔ outcome = .error why := by
  constructor
  · intro h
    cases h
    rfl
  · intro h
    rw [h]
    exact .stop why

@[simp] theorem ends_draw {d : Draw} {next : d.Answer → Sampler α} :
    (draw d next).Ends outcome ↔ ∃ answer, (next answer).Ends outcome := by
  constructor
  · intro h
    cases h with
    | draw answer hnext => exact ⟨answer, hnext⟩
  · intro h
    obtain ⟨answer, hnext⟩ := h
    exact .draw answer hnext

@[simp] theorem ends_note {event : Event} {rest : Sampler α} :
    (note event rest).Ends outcome ↔ rest.Ends outcome := by
  constructor
  · intro h
    cases h with
    | note hrest => exact hrest
  · exact .note

/-- Two steps come to a result if the second does after some result of the first. -/
theorem ends_bind_ok {b : β} :
    (p >>= f).Ends (.ok b) ↔ ∃ a, p.Ends (.ok a) ∧ (f a).Ends (.ok b) := by
  induction p with
  | done a => simp
  | stop why => simp
  | draw d next ih =>
    simp only [draw_bind, ends_draw, ih]
    constructor
    · intro h
      obtain ⟨answer, a, ha, hb⟩ := h
      exact ⟨a, ⟨answer, ha⟩, hb⟩
    · intro h
      obtain ⟨a, ⟨answer, ha⟩, hb⟩ := h
      exact ⟨answer, a, ha, hb⟩
  | note event rest ih => simpa using ih

/-- Two steps stop where the first does, or where the second does after some result of the first. -/
theorem ends_bind_error {why : Stop} :
    (p >>= f).Ends (.error why) ↔
      p.Ends (.error why) ∨ ∃ a, p.Ends (.ok a) ∧ (f a).Ends (.error why) := by
  induction p with
  | done a => simp
  | stop why => simp
  | draw d next ih =>
    simp only [draw_bind, ends_draw, ih]
    constructor
    · intro h
      obtain ⟨answer, hends⟩ := h
      rcases hends with hfirst | ⟨a, ha, hsecond⟩
      · exact .inl ⟨answer, hfirst⟩
      · exact .inr ⟨a, ⟨answer, ha⟩, hsecond⟩
    · intro hends
      rcases hends with ⟨answer, hfirst⟩ | ⟨a, ⟨answer, ha⟩, hsecond⟩
      · exact ⟨answer, .inl hfirst⟩
      · exact ⟨answer, .inr ⟨a, ha, hsecond⟩⟩
  | note event rest ih => simpa using ih

/-- The outcome of a run is one that the sampler can come to. -/
theorem ends_of_run? {source : Source} {run : Run α} (hrun : p.run? source = some run) :
    p.Ends run.outcome := by
  induction p generalizing source run with
  | done a =>
    cases hrun
    exact .done a
  | stop why =>
    cases hrun
    exact .stop why
  | draw d next ih =>
    rw [run?] at hrun
    split at hrun
    · cases hrun
    · exact .draw _ (ih _ hrun)
  | note event rest ih =>
    obtain ⟨rest', hrest, hevent⟩ := Option.map_eq_some_iff.mp hrun
    have hends := ih hrest
    rw [← hevent]
    exact .note hends

/-- Whatever fault a run ends in, it is one of these. -/
def Raises (p : Sampler α) (F : Fault → Prop) : Prop :=
  ∀ fault, p.Ends (.error (.faulted fault)) → F fault

variable {F : Fault → Prop}

theorem Raises.done (a : α) : (Sampler.done a).Raises F := by
  intro fault hends
  cases hends

theorem Raises.failed (error : GenerationError) :
    (Sampler.stop (.failed error) : Sampler α).Raises F := by
  intro fault hends
  cases hends

theorem Raises.faulted {fault : Fault} (hfault : F fault) :
    (Sampler.stop (.faulted fault) : Sampler α).Raises F := by
  intro fault' hends
  cases hends
  exact hfault

theorem Raises.ask (d : Draw) : (ask d).Raises F := by
  intro fault hends
  obtain ⟨answer, hanswer⟩ := ends_draw.mp hends
  cases hanswer

theorem Raises.tell (event : Event) : (tell event).Raises F := by
  intro fault hends
  cases ends_note.mp hends

theorem Raises.ofExcept {x : Except Fault α} (hx : ∀ fault, x = .error fault → F fault) :
    (ofExcept x).Raises F := by
  cases x with
  | ok a => exact .done a
  | error fault => exact .faulted (hx fault rfl)

/-- Faults of two steps are faults of the first, or of the second after some result of the first. -/
theorem Raises.bind (hp : p.Raises F) (hf : ∀ a, p.Ends (.ok a) → (f a).Raises F) :
    (p >>= f).Raises F := by
  intro fault hends
  rcases ends_bind_error.mp hends with hfirst | ⟨a, ha, hsecond⟩
  · exact hp fault hfirst
  · exact hf a ha fault hsecond

end WordGrammar.Sampler
