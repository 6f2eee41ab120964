import WordGrammar.Proofs.Sampler.Ends

namespace WordGrammar

/-- `source.Gives values after`: taking these values from the source leaves the other. -/
inductive Source.Gives : Source → List UInt64 → Source → Prop
  | nil (source : Source) : Gives source [] source
  | cons {source between after : Source} {value : UInt64} {values : List UInt64}
      (hnext : source.next = (value, between)) (hlater : Gives between values after) :
      Gives source (value :: values) after

/-- `d.Takes values answer`: the values answer the draw, from whatever source they come, and all of
    them are needed. -/
def Draw.Takes (d : Draw) (values : List UInt64) (answer : d.Answer) : Prop :=
  ∀ rest state taken, Source.answer? ⟨values ++ rest, state, taken⟩ d =
    some (answer, ⟨rest, state, taken + values.length⟩)

namespace Source

variable {source between after : Source} {values later : List UInt64}

theorem Gives.append (hgives : source.Gives values between) (hlater : between.Gives later after) :
    source.Gives (values ++ later) after := by
  induction hgives with
  | nil source => exact hlater
  | cons hnext _ ih => exact .cons hnext (ih hlater)

theorem next_cons (value : UInt64) (script : List UInt64) (state : UInt64) (taken : Nat) :
    next ⟨value :: script, state, taken⟩ = (value, ⟨script, state, taken + 1⟩) := rfl

/-- A number is answered by the values refused and the one accepted, whatever patience is left. -/
theorem gives_of_upTo? {bound tries : Nat} {k : Fin (bound + 1)}
    (hanswer : upTo? bound tries source = some (k, after)) :
    ∃ values, source.Gives values after ∧ ∀ tries rest state taken, values.length ≤ tries →
      upTo? bound tries ⟨values ++ rest, state, taken⟩ =
        some (k, ⟨rest, state, taken + values.length⟩) := by
  induction tries generalizing source with
  | zero => cases hanswer
  | succ tries ih =>
    rw [upTo?] at hanswer
    obtain ⟨⟨value, between⟩, hnext⟩ : ∃ given, source.next = given := ⟨_, rfl⟩
    simp only [hnext] at hanswer
    by_cases haccepted : value.toNat * (bound + 1) % UInt64.size < zone (bound + 1)
    · rw [if_pos haccepted] at hanswer
      cases hanswer
      refine ⟨[value], .cons hnext (.nil _), fun tries rest state taken hle => ?_⟩
      obtain ⟨tries, rfl⟩ := Nat.exists_eq_add_one_of_ne_zero (Nat.ne_zero_of_lt hle)
      rw [upTo?, List.singleton_append, next_cons]
      exact if_pos haccepted
    · rw [if_neg haccepted] at hanswer
      obtain ⟨values, hgives, htakes⟩ := ih hanswer
      refine ⟨value :: values, .cons hnext hgives, fun tries rest state taken hle => ?_⟩
      obtain ⟨tries, rfl⟩ := Nat.exists_eq_add_one_of_ne_zero (Nat.ne_zero_of_lt hle)
      rw [upTo?, List.cons_append, next_cons]
      dsimp only
      rw [if_neg haccepted, htakes tries rest state _ (Nat.le_of_succ_le_succ hle),
        List.length_cons, Nat.add_assoc, Nat.add_comm 1]

/-- Whatever answers a draw is a list of values that answers it from other sources, too. -/
theorem gives_of_answer? {d : Draw} {answer : d.Answer}
    (hanswer : source.answer? d = some (answer, after)) :
    ∃ values, source.Gives values after ∧ d.Takes values answer := by
  cases d with
  | upTo bound =>
    obtain ⟨values, hgives, htakes⟩ := gives_of_upTo? hanswer
    refine ⟨values, hgives, fun rest state taken => htakes _ rest state taken ?_⟩
    simp only [patience, List.length_append]
    omega
  | fraction =>
    obtain ⟨⟨value, between⟩, hnext⟩ : ∃ given, source.next = given := ⟨_, rfl⟩
    simp only [answer?, hnext] at hanswer
    cases hanswer
    exact ⟨[value], .cons hnext (.nil _), fun rest state taken => rfl⟩

end Source

namespace Sampler

variable {α β : Type}

/-- `p.Reads values outcome`: the values, taken one after the other, lead to this outcome. -/
inductive Reads : Sampler α → List UInt64 → Except Stop α → Prop
  | done (a : α) : Reads (.done a) [] (.ok a)
  | stop (why : Stop) : Reads (.stop why) [] (.error why)
  | draw {d : Draw} {next : d.Answer → Sampler α} {answer : d.Answer} {values later : List UInt64}
      {outcome : Except Stop α} (htakes : d.Takes values answer)
      (hnext : Reads (next answer) later outcome) : Reads (.draw d next) (values ++ later) outcome
  | note {event : Event} {rest : Sampler α} {values : List UInt64} {outcome : Except Stop α}
      (hrest : Reads rest values outcome) : Reads (.note event rest) values outcome

variable {p : Sampler α} {values : List UInt64} {outcome : Except Stop α}

/-- A run reads the values that it takes. -/
theorem reads_of_run? {source : Source} {run : Run α} (hrun : p.run? source = some run) :
    ∃ values, source.Gives values run.source ∧ p.Reads values run.outcome := by
  induction p generalizing source run with
  | done a =>
    cases hrun
    exact ⟨[], .nil source, .done a⟩
  | stop why =>
    cases hrun
    exact ⟨[], .nil source, .stop why⟩
  | draw d next ih =>
    rw [run?] at hrun
    cases hanswer : source.answer? d with
    | none =>
      rw [hanswer] at hrun
      cases hrun
    | some answered =>
      rw [hanswer] at hrun
      obtain ⟨values, hgives, htakes⟩ := Source.gives_of_answer? hanswer
      obtain ⟨later, hlater, hreads⟩ := ih _ hrun
      exact ⟨values ++ later, hgives.append hlater, .draw htakes hreads⟩
  | note event rest ih =>
    obtain ⟨run', hrest, hevent⟩ := Option.map_eq_some_iff.mp hrun
    obtain ⟨values, hgives, hreads⟩ := ih hrest
    rw [← hevent]
    exact ⟨values, hgives, .note hreads⟩

/-- What is read leads there from every source that begins with it, and is used up. -/
theorem Reads.exists_run? (hreads : p.Reads values outcome) (rest : List UInt64) (state : UInt64)
    (taken : Nat) : ∃ events, p.run? ⟨values ++ rest, state, taken⟩ =
      some ⟨outcome, ⟨rest, state, taken + values.length⟩, events⟩ := by
  induction hreads generalizing taken with
  | done a => exact ⟨[], rfl⟩
  | stop why => exact ⟨[], rfl⟩
  | draw htakes _ ih =>
    obtain ⟨events, hrun⟩ := ih (taken + _)
    refine ⟨events, ?_⟩
    rw [run?, List.append_assoc, htakes]
    dsimp only
    rw [hrun, List.length_append, Nat.add_assoc]
  | note _ ih =>
    obtain ⟨events, hrun⟩ := ih taken
    simp only [run?, hrun, Option.map_some]
    exact ⟨_, rfl⟩

theorem Reads.bind {f : α → Sampler β} {later : List UInt64} {a : α} {end' : Except Stop β}
    (hp : p.Reads values (.ok a)) (hf : (f a).Reads later end') :
    (p >>= f).Reads (values ++ later) end' := by
  generalize houtcome : Except.ok a = outcome at hp
  induction hp with
  | done b =>
    cases houtcome
    exact hf
  | stop why => cases houtcome
  | draw htakes _ ih =>
    rw [List.append_assoc]
    exact .draw htakes (ih houtcome)
  | note _ ih => exact .note (ih houtcome)

/-- What two steps read to a result falls into what each of them reads. -/
theorem Reads.exists_of_bind {f : α → Sampler β} {b : β} (hreads : (p >>= f).Reads values (.ok b)) :
    ∃ first later a, first ++ later = values ∧ p.Reads first (.ok a) ∧
      (f a).Reads later (.ok b) := by
  induction p generalizing values with
  | done a => exact ⟨[], values, a, rfl, .done a, hreads⟩
  | stop why => cases hreads
  | draw d next ih =>
    cases hreads with
    | draw htakes hnext =>
      obtain ⟨first, later, a, hvalues, hfirst, hlater⟩ := ih _ hnext
      refine ⟨_ ++ first, later, a, ?_, .draw htakes hfirst, hlater⟩
      rw [List.append_assoc, hvalues]
  | note event rest ih =>
    cases hreads with
    | note hrest =>
      obtain ⟨first, later, a, hvalues, hfirst, hlater⟩ := ih hrest
      exact ⟨first, later, a, hvalues, .note hfirst, hlater⟩

end Sampler

end WordGrammar
