import WordGrammar.Proofs.Generation.Law
import WordGrammar.Proofs.Generation.Nesting
import WordGrammar.Proofs.Weight.Portion

namespace WordGrammar

namespace Sampler

variable {α β : Type} {p : Sampler α} {outcome : Except Stop α} {events : List Event}

/-- `p.Always outcome events`: whatever the answers to the draws, this is the outcome, and these
    events are told on the way. -/
inductive Always : Sampler α → Except Stop α → List Event → Prop
  | done (a : α) : Always (.done a) (.ok a) []
  | stop (why : Stop) : Always (.stop why) (.error why) []
  | draw {d : Draw} {next : d.Answer → Sampler α} {outcome : Except Stop α} {events : List Event}
      (hnext : ∀ answer, Always (next answer) outcome events) : Always (.draw d next) outcome events
  | note {event : Event} {rest : Sampler α} {outcome : Except Stop α} {events : List Event}
      (hrest : Always rest outcome events) : Always (.note event rest) outcome (event :: events)

namespace Always

theorem of_run? (halways : p.Always outcome events) {source : Source} {run : Run α}
    (hrun : p.run? source = some run) : run.outcome = outcome ∧ run.events = events := by
  induction halways generalizing source run with
  | done a =>
    cases hrun
    exact ⟨rfl, rfl⟩
  | stop why =>
    cases hrun
    exact ⟨rfl, rfl⟩
  | draw _ ih =>
    rw [run?] at hrun
    split at hrun
    · cases hrun
    · exact ih _ hrun
  | note _ ih =>
    obtain ⟨rest, hrest, hevent⟩ := Option.map_eq_some_iff.mp hrun
    obtain ⟨houtcome, hevents⟩ := ih hrest
    rw [← hevent]
    exact ⟨houtcome, congrArg _ hevents⟩

theorem bind {f : α → Sampler β} {a : α} {end' : Except Stop β} {later : List Event}
    (hp : p.Always (.ok a) events) (hf : (f a).Always end' later) :
    (p >>= f).Always end' (events ++ later) := by
  generalize houtcome : Except.ok a = outcome at hp
  induction hp with
  | done b =>
    cases houtcome
    exact hf
  | stop why => cases houtcome
  | draw _ ih => exact .draw fun answer => ih answer houtcome
  | note _ ih => exact .note (ih houtcome)

theorem bind_stopped {f : α → Sampler β} {why : Stop} (hp : p.Always (.error why) events) :
    (p >>= f).Always (.error why) events := by
  generalize houtcome : Except.error why = outcome at hp
  induction hp with
  | done b => cases houtcome
  | stop why' =>
    cases houtcome
    exact .stop _
  | draw _ ih => exact .draw fun answer => ih answer houtcome
  | note _ ih => exact .note (ih houtcome)

end Always

/-- Nothing depends on the answers to the draws. -/
def Settled (p : Sampler α) : Prop := ∃ outcome events, p.Always outcome events

namespace Settled

theorem done (a : α) : (Sampler.done a).Settled := ⟨_, _, .done a⟩

theorem stop (why : Stop) : (Sampler.stop why : Sampler α).Settled := ⟨_, _, .stop why⟩

theorem tell (event : Event) : (Sampler.tell event).Settled := ⟨_, _, .note (.done ())⟩

theorem ofExcept (x : Except Fault α) : (Sampler.ofExcept x).Settled := by
  cases x with
  | ok a => exact .done a
  | error fault => exact .stop _

theorem bind {f : α → Sampler β} (hp : p.Settled) (hf : ∀ a, (f a).Settled) :
    (p >>= f).Settled := by
  obtain ⟨outcome, events, halways⟩ := hp
  cases outcome with
  | ok a =>
    obtain ⟨end', later, hlater⟩ := hf a
    exact ⟨end', events ++ later, halways.bind hlater⟩
  | error why => exact ⟨.error why, events, halways.bind_stopped⟩

theorem law (rule : String → Sampler (List Char)) :
    Maker.Law fun _ make => (make rule).Settled where
  done := .done
  tell := .tell
  bind := .bind

/-- Among no more than one number there is no choice. -/
theorem ask_upTo_zero : (ask (.upTo 0)).Settled := by
  refine ⟨.ok (0 : Fin 1), [], .draw fun answer => ?_⟩
  have hfirst : answer = (0 : Fin 1) := Subsingleton.elim (α := Fin 1) answer 0
  rw [hfirst]
  exact .done _

/-- However it is drawn, the position of an alternative is the first if there is just one. -/
theorem position {W : Type} [Weight W] (useWeights : Bool) (w : W) :
    (position useWeights [w]).Settled := by
  unfold Sampler.position
  split
  · refine ⟨.ok 0, [], .draw fun share => ?_⟩
    have hselect : Weight.select (Weight.fraction share) [w] = 0 :=
      Nat.lt_one_iff.mp (Weight.select_lt _ (List.cons_ne_nil w []))
    show (Sampler.done (Weight.select (Weight.fraction share) [w])).Always _ _
    rw [hselect]
    exact .done 0
  · exact ask_upTo_zero.bind fun k => .done _

end Settled

end Sampler

variable {W : Type} [Weight W]

namespace Expr

/-- No choice has more than one alternative, and the bounds of repetitions agree. -/
structure Forced (e : Expr W) : Prop where
  choices : ∀ alternatives, e.Contains (.choice alternatives) → alternatives.length ≤ 1
  bounds : ∀ body least most, e.Contains (.repeated body least most) → least = most

theorem captured_settled (captures : Option (List (List Char))) (index : Nat) :
    (captured captures index).Settled := by
  unfold captured
  split
  · exact .stop _
  · split
    · exact .done _
    · exact .stop _

/-- Nothing in expanding such an expression depends on draws, if nothing does in the words of the
    rules that it refers to. -/
theorem Forced.expand_settled {e : Expr W} (hforced : e.Forced)
    {rule : String → Sampler (List Char)}
    (hrule : ∀ name, e.Contains (.ref name) → (rule name).Settled) (useWeights : Bool)
    (captures : Option (List (List Char))) : (e.expand rule useWeights captures).Settled := by
  refine e.expand_keeps (Sampler.Settled.law rule) ⟨hrule, ?_, ?_, ?_, ?_⟩
  · exact fun index _ => captured_settled captures index
  · intro alternatives hchoice hne
    obtain ⟨a, rfl⟩ : ∃ a, alternatives = [a] := by
      have hpositive := List.length_pos_iff.mpr hne
      exact List.length_eq_one_iff.mp (Nat.le_antisymm (hforced.choices _ hchoice) hpositive)
    exact .position useWeights a.weight
  · intro body least most hbody _
    rw [hforced.bounds body least most hbody, Nat.sub_self]
    exact .ask_upTo_zero
  · exact fun _ _ _ _ _ => .stop _

end Expr

namespace Grammar

open Relation

variable {g : Grammar W}

/-- Where the expressions leave no choice that expanding the rule may come to, nothing in its words
    depends on draws. -/
theorem ruleWord_settled (depth : Nat) {name : String}
    (hforced : ∀ reached r, ReflTransGen (g.through Rule.expanded).Refers name reached →
      g.rule? reached = some r → ∀ e ∈ r.expanded, e.Forced) :
    (g.ruleWord depth name).Settled := by
  induction depth generalizing name with
  | zero => exact .stop _
  | succ depth ih =>
    cases hrule : g.rule? name with
    | none =>
      simp only [ruleWord, hrule]
      exact .stop _
    | some r =>
      have hexpanded : ∀ e ∈ r.expanded, ∀ captures,
          (e.expand (g.ruleWord depth) g.useWeights captures).Settled := by
        intro e he captures
        refine (hforced name r .refl hrule e he).expand_settled (fun next hnext => ?_) _ captures
        have hrefers := refers_through.mpr ⟨r, hrule, e, he, hnext⟩
        exact ih fun reached r' hreach => hforced reached r' (.head hrefers hreach)
      have hlaw := Sampler.Settled.law (g.ruleWord depth)
      have hattempt : (g.attempt (g.ruleWord depth) r).Settled :=
        attempt_keeps hlaw (fun _ _ _ _ _ => .stop _) hexpanded
      simp only [ruleWord, hrule]
      exact tryWord_keeps hlaw hattempt (fun _ => .ofExcept _) (.stop _) maxAttempts

/-- Without a choice to make, all sources are alike. If no choice has more than one alternative, and
    the bounds of every repetition agree, in the bodies and replacements that words of the root may
    come to, then two runs have the same outcome, be it a word or not, and tell the same. -/
theorem runs_agree_of_forced
    (hforced : ∀ name r, ReflTransGen (g.through Rule.expanded).Refers g.root name →
      g.rule? name = some r → ∀ e ∈ r.expanded, e.Forced)
    {source source' : Source} {run run' : Run String} (hrun : g.word.run? source = some run)
    (hrun' : g.word.run? source' = some run') :
    run.outcome = run'.outcome ∧ run.events = run'.events := by
  have hsettled : g.word.Settled := by
    unfold word
    split
    · exact (ruleWord_settled g.depthLimit hforced).bind fun text => .done _
    · exact .stop _
  obtain ⟨outcome, events, halways⟩ := hsettled
  obtain ⟨houtcome, hevents⟩ := halways.of_run? hrun
  obtain ⟨houtcome', hevents'⟩ := halways.of_run? hrun'
  exact ⟨houtcome.trans houtcome'.symm, hevents.trans hevents'.symm⟩

/-- Two syllables, each turned round with an `n` put in. Every choice is among one alternative, of
    weight zero too, and every repetition has one number to draw. -/
def turned : Grammar ℚ where
  rules := [
    ⟨"V", .choice [⟨.atom "a", 0⟩], [], []⟩,
    ⟨"S", .choice [⟨.seq [.atom "t", .ref "V"], 1⟩], [.atom "u"], []⟩,
    ⟨"W", .repeated (.ref "S") 2 2, [.atom "tt"],
      [⟨.seq [.atom "t", .ref "V"], .seq [.capture 1, .repeated (.atom "n") 1 1, .capture 0]⟩]⟩]
  root := "W"
  useWeights := true

theorem runs_agree_of_forced_turned : ∃ run run' : Run String,
    turned.word.run? ⟨[], 0, 0⟩ = some run ∧
    turned.word.run? ⟨[5, 0xFFFFFFFFFFFFFFFF], 7, 2⟩ = some run' ∧ run.outcome = .ok "antant" ∧
    run'.outcome = .ok "antant" ∧ run.events = run'.events := by
  have hforced : ∀ r ∈ turned.rules, ∀ e ∈ r.expanded, e.Forced := by
    simp only [turned, Rule.expanded, List.forall_mem_cons, List.map_cons, List.map_nil]
    refine ⟨⟨⟨?_, ?_⟩, ?_⟩, ⟨⟨?_, ?_⟩, ?_⟩, ⟨⟨?_, ?_⟩, ⟨?_, ?_⟩, ?_⟩, ?_⟩ <;> simp +contextual
  have hruns : (turned.word.run? ⟨[], 0, 0⟩).map (·.outcome) = some (.ok "antant") ∧
      (turned.word.run? ⟨[5, 0xFFFFFFFFFFFFFFFF], 7, 2⟩).isSome = true := by
    constructor
    · decide +kernel
    · decide +kernel
  obtain ⟨hfirst, hsecond⟩ := hruns
  obtain ⟨run, hrun, houtcome⟩ := Option.map_eq_some_iff.mp hfirst
  obtain ⟨run', hrun'⟩ := Option.isSome_iff_exists.mp hsecond
  obtain ⟨hsame, hevents⟩ :=
    runs_agree_of_forced (fun _ r _ hrule => hforced r (mem_rules_of_rule? hrule)) hrun hrun'
  exact ⟨run, run', hrun, hrun', houtcome, hsame ▸ houtcome, hevents⟩

end Grammar

end WordGrammar
