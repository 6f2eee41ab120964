import WordGrammar.Sampler.Source

namespace WordGrammar.Sampler

variable {α β : Type} {p : Sampler α} {source left : Source} {events : List Event}

/-- What stops the first stops both. -/
theorem run?_bind_of_stopped {why : Stop} (hrun : p.run? source = some ⟨.error why, left, events⟩)
    (f : α → Sampler β) : (p >>= f).run? source = some ⟨.error why, left, events⟩ := by
  induction p generalizing source events with
  | done a => cases hrun
  | stop why' =>
    cases hrun
    rfl
  | draw d next ih =>
    rw [run?] at hrun
    rw [draw_bind, run?]
    cases hanswer : source.answer? d with
    | none =>
      rw [hanswer] at hrun
      cases hrun
    | some answered =>
      rw [hanswer] at hrun
      exact ih answered.1 hrun
  | note event rest ih =>
    rw [run?] at hrun
    obtain ⟨⟨outcome, _, told⟩, hrest, hnoted⟩ := Option.map_eq_some_iff.mp hrun
    cases hnoted
    rw [note_bind, run?, ih hrest]
    rfl

/-- The second goes on with the source as the first has left it. -/
theorem run?_bind_of_done {a : α} (hrun : p.run? source = some ⟨.ok a, left, events⟩)
    (f : α → Sampler β) :
    (p >>= f).run? source =
      ((f a).run? left).map fun run => { run with events := events ++ run.events } := by
  induction p generalizing source events with
  | done b =>
    cases hrun
    rw [done_bind]
    exact Option.map_id'.symm
  | stop why => cases hrun
  | draw d next ih =>
    rw [run?] at hrun
    rw [draw_bind, run?]
    cases hanswer : source.answer? d with
    | none =>
      rw [hanswer] at hrun
      cases hrun
    | some answered =>
      rw [hanswer] at hrun
      exact ih answered.1 hrun
  | note event rest ih =>
    rw [run?] at hrun
    obtain ⟨⟨outcome, _, told⟩, hrest, hnoted⟩ := Option.map_eq_some_iff.mp hrun
    cases hnoted
    rw [note_bind, run?, ih hrest, Option.map_map]
    rfl

/-- A run that stops has stopped in the first, or in the second after a result of the first. -/
theorem exists_of_run?_bind {f : α → Sampler β} {why : Stop}
    (hrun : (p >>= f).run? source = some ⟨.error why, left, events⟩) :
    p.run? source = some ⟨.error why, left, events⟩ ∨
      ∃ a between told later, p.run? source = some ⟨.ok a, between, told⟩ ∧
        (f a).run? between = some ⟨.error why, left, later⟩ := by
  induction p generalizing source events with
  | done a => exact .inr ⟨a, source, [], events, rfl, hrun⟩
  | stop why =>
    cases hrun
    exact .inl rfl
  | draw d next ih =>
    rw [draw_bind, run?] at hrun
    simp only [run?]
    cases hanswer : source.answer? d with
    | none =>
      rw [hanswer] at hrun
      cases hrun
    | some answered =>
      rw [hanswer] at hrun
      exact ih answered.1 hrun
  | note event rest ih =>
    rw [note_bind, run?] at hrun
    obtain ⟨⟨outcome, _, told⟩, hrest, hnoted⟩ := Option.map_eq_some_iff.mp hrun
    cases hnoted
    rcases ih hrest with hfirst | ⟨a, between, told, later, hfirst, hsecond⟩
    · exact .inl (by rw [run?, hfirst]; rfl)
    · exact .inr ⟨a, between, event :: told, later, by rw [run?, hfirst]; rfl, hsecond⟩

/-- A fold that stops has stopped at one of its items, after those before it. -/
theorem exists_of_run?_foldlM {f : β → α → Sampler β} {items : List α} {b : β} {why : Stop}
    (hrun : (items.foldlM f b).run? source = some ⟨.error why, left, events⟩) :
    ∃ before item after b' between told later, items = before ++ item :: after ∧
      (before.foldlM f b).run? source = some ⟨.ok b', between, told⟩ ∧
      (f b' item).run? between = some ⟨.error why, left, later⟩ := by
  induction items generalizing b source events with
  | nil => cases hrun
  | cons item items ih =>
    rw [List.foldlM_cons] at hrun
    rcases exists_of_run?_bind hrun with hfirst | ⟨b', between, told, _, hfirst, hlater⟩
    · exact ⟨[], item, items, b, source, [], events, rfl, rfl, hfirst⟩
    · obtain ⟨before, found, after, b'', between', told', later, rfl, hbefore, hfound⟩ := ih hlater
      refine ⟨item :: before, found, after, b'', between', told ++ told', later, rfl, ?_, hfound⟩
      rw [List.foldlM_cons, run?_bind_of_done hfirst, hbefore]
      rfl

end WordGrammar.Sampler
