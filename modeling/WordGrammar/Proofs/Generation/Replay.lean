import WordGrammar.Proofs.Generation.Calls
import WordGrammar.Proofs.Sampler.Reads

namespace WordGrammar

/-- `Course keep make drawn kept a`: reading the values drawn leads to `a`, where each of the words
    called for keeps, of the values drawn for it, those that `keep` says, and all others are kept
    as well. -/
inductive Course (keep : String → List UInt64 → List UInt64 → List Char → Prop) :
    {α : Type} → Maker α → List UInt64 → List UInt64 → α → Prop
  | own {α : Type} {p : Sampler α} {values : List UInt64} {a : α}
      (hreads : p.Reads values (.ok a)) : Course keep (fun _ => p) values values a
  | call {name : String} {drawn kept : List UInt64} {text : List Char}
      (hkeep : keep name drawn kept text) : Course keep (fun rule => rule name) drawn kept text
  | bind {α β : Type} {make : Maker α} {next : α → Maker β} {a : α} {b : β}
      {drawn drawn' kept kept' : List UInt64} (hmake : Course keep make drawn kept a)
      (hnext : Course keep (next a) drawn' kept' b) :
      Course keep (fun rule => make rule >>= fun a => next a rule) (drawn ++ drawn')
        (kept ++ kept') b

variable {keep : String → List UInt64 → List UInt64 → List Char → Prop}
  {rule : String → Sampler (List Char)} {drawn kept : List UInt64}

/-- Whatever consists of steps and calls takes a course if the words called for can be accounted
    for. -/
theorem Calls.exists_course {names : String → Prop} {α : Type} {make : Maker α} {a : α}
    (hcalls : Calls names make)
    (hrule : ∀ name drawn text, (rule name).Reads drawn (.ok text) →
      ∃ kept, keep name drawn kept text)
    (hreads : (make rule).Reads drawn (.ok a)) : ∃ kept, Course keep make drawn kept a := by
  induction hcalls generalizing drawn with
  | own p => exact ⟨drawn, .own hreads⟩
  | call hname =>
    obtain ⟨kept, hkeep⟩ := hrule _ _ _ hreads
    exact ⟨kept, .call hkeep⟩
  | bind _ _ ihmake ihnext =>
    obtain ⟨first, later, a, hdrawn, hfirst, hlater⟩ := hreads.exists_of_bind
    obtain ⟨kept, hcourse⟩ := ihmake hfirst
    obtain ⟨kept', hcourse'⟩ := ihnext a hlater
    rw [← hdrawn]
    exact ⟨kept ++ kept', hcourse.bind hcourse'⟩

namespace Course

variable {α : Type} {make : Maker α} {a : α}

/-- What is kept are values drawn, in the order in which they are drawn. -/
theorem sublist (hkeep : ∀ name drawn kept text, keep name drawn kept text → kept.Sublist drawn)
    (hcourse : Course keep make drawn kept a) : kept.Sublist drawn := by
  induction hcourse with
  | own _ => exact List.Sublist.refl _
  | call hword => exact hkeep _ _ _ _ hword
  | bind _ _ ihmake ihnext => exact ihmake.append ihnext

/-- What is kept leads to the same result if it does so for the words called for. -/
theorem reads (hkeep : ∀ name drawn kept text, keep name drawn kept text →
      (rule name).Reads kept (.ok text))
    (hcourse : Course keep make drawn kept a) : (make rule).Reads kept (.ok a) := by
  induction hcourse with
  | own hreads => exact hreads
  | call hword => exact hkeep _ _ _ _ hword
  | bind _ _ ihmake ihnext => exact ihmake.bind ihnext

end Course

namespace Grammar

variable {W : Type} {g : Grammar W} {r : Rule W} {text : List Char}

/-- The grammar without any exclusion. -/
def unrestricted (g : Grammar W) : Grammar W :=
  { g with rules := g.rules.map fun r => { r with exclusions := [] } }

theorem rule?_unrestricted (name : String) :
    g.unrestricted.rule? name = (g.rule? name).map fun r => { r with exclusions := [] } := by
  rw [rule?, rule?, unrestricted, List.find?_map]
  rfl

theorem hasRule_unrestricted (name : String) : g.unrestricted.hasRule name = g.hasRule name := by
  rw [hasRule, rule?_unrestricted, Option.isSome_map, hasRule]

theorem length_rules_unrestricted : g.unrestricted.rules.length = g.rules.length :=
  List.length_map ..

/-- What matches is not a matter of exclusions. -/
theorem matcher_unrestricted : g.unrestricted.matcher = g.matcher := by
  have hrules (depth : Nat) : g.unrestricted.ruleMatcher depth = g.ruleMatcher depth := by
    induction depth with
    | zero =>
      funext name s
      rw [ruleMatcher, ruleMatcher, hasRule_unrestricted]
    | succ depth ih =>
      funext name s
      rw [ruleMatcher, ruleMatcher, rule?_unrestricted, ih]
      cases g.rule? name with
      | none => rfl
      | some r => rfl
  funext e s
  rw [matcher, matcher, hrules, nestingBound, nestingBound, length_rules_unrestricted]

variable [Weight W]

/-- `g.Tries keep r drawn kept text`: the rule reads the values drawn attempt by attempt, drops all
    but the last with what they have read, and passes on the text of the last. -/
inductive Tries (g : Grammar W) (keep : String → List UInt64 → List UInt64 → List Char → Prop)
    (r : Rule W) : List UInt64 → List UInt64 → List Char → Prop
  | passed {drawn kept : List UInt64} {text : List Char}
      (hattempt : Course keep (fun rule => g.attempt rule r) drawn kept text)
      (hchecked : g.occursAny r.exclusions text = .ok false) : Tries g keep r drawn kept text
  | dropped {lost lost' drawn kept : List UInt64} {tried text : List Char}
      (hattempt : Course keep (fun rule => g.attempt rule r) lost lost' tried)
      (hchecked : g.occursAny r.exclusions tried = .ok true)
      (hlater : Tries g keep r drawn kept text) : Tries g keep r (lost ++ drawn) kept text

/-- `g.Keeps depth name drawn kept text`: the rule comes to the text by the values drawn, and the
    kept ones are those of them that no attempt has read that was dropped, be it one of the rule or
    one of a rule entered on the way. -/
def Keeps (g : Grammar W) : Nat → String → List UInt64 → List UInt64 → List Char → Prop
  | 0, _, _, _, _ => False
  | depth + 1, name, drawn, kept, text =>
    ∃ r, g.rule? name = some r ∧ g.Tries (g.Keeps depth) r drawn kept text

theorem exists_tries
    (hrule : ∀ name drawn text, (rule name).Reads drawn (.ok text) →
      ∃ kept, keep name drawn kept text)
    {left : Nat} (hreads : (g.tryWord rule r left).Reads drawn (.ok text)) :
    ∃ kept, g.Tries keep r drawn kept text := by
  induction left generalizing drawn with
  | zero =>
    obtain ⟨_, _, _, _, _, hstop⟩ := hreads.exists_of_bind
    cases hstop
  | succ left ih =>
    obtain ⟨first, later, tried, hdrawn, hattempt, hjudged⟩ := hreads.exists_of_bind
    have hcalls : Calls (fun _ => True) fun rule => g.attempt rule r :=
      attempt_calls fun _ _ _ _ => trivial
    obtain ⟨kept, hcourse⟩ := hcalls.exists_course hrule hattempt
    cases hchecked : g.occursAny r.exclusions tried with
    | error fault =>
      rw [hchecked] at hjudged
      cases hjudged
    | ok found =>
      rw [hchecked] at hjudged
      cases found with
      | true =>
        cases hjudged with
        | note hrest =>
          obtain ⟨kept', htries⟩ := ih hrest
          rw [← hdrawn]
          exact ⟨kept', .dropped hcourse hchecked htries⟩
      | false =>
        cases hjudged
        rw [← hdrawn, List.append_nil]
        exact ⟨kept, .passed hcourse hchecked⟩

/-- Of what a rule reads to come to a word, something is kept. -/
theorem exists_keeps {depth : Nat} {name : String}
    (hreads : (g.ruleWord depth name).Reads drawn (.ok text)) :
    ∃ kept, g.Keeps depth name drawn kept text := by
  induction depth generalizing name drawn text with
  | zero => cases hreads
  | succ depth ih =>
    cases hrule : g.rule? name with
    | none =>
      simp only [ruleWord, hrule] at hreads
      cases hreads
    | some r =>
      simp only [ruleWord, hrule] at hreads
      have hwords : ∀ next drawn text, (g.ruleWord depth next).Reads drawn (.ok text) →
          ∃ kept, g.Keeps depth next drawn kept text := fun _ _ _ hword => ih hword
      obtain ⟨kept, htries⟩ := exists_tries hwords hreads
      exact ⟨kept, r, hrule, htries⟩

theorem Tries.sublist
    (hkeep : ∀ name drawn kept text, keep name drawn kept text → kept.Sublist drawn)
    (htries : g.Tries keep r drawn kept text) : kept.Sublist drawn := by
  induction htries with
  | passed hattempt _ => exact hattempt.sublist hkeep
  | dropped _ _ _ ih => exact ih.trans (List.sublist_append_right _ _)

theorem Keeps.sublist {depth : Nat} {name : String} (hkeeps : g.Keeps depth name drawn kept text) :
    kept.Sublist drawn := by
  induction depth generalizing name drawn kept text with
  | zero => exact hkeeps.elim
  | succ depth ih =>
    obtain ⟨r, -, htries⟩ := hkeeps
    exact htries.sublist fun _ _ _ _ hword => ih hword

theorem ruleWord_unrestricted {name : String} (hrule : g.rule? name = some r) (depth : Nat) :
    g.unrestricted.ruleWord (depth + 1) name = g.attempt (g.unrestricted.ruleWord depth) r := by
  have hattempt : g.unrestricted.attempt (g.unrestricted.ruleWord depth) r =
      g.attempt (g.unrestricted.ruleWord depth) r :=
    attempt_eq_of_matcher rfl fun s _ => congrFun matcher_unrestricted s.target
  simp only [ruleWord, rule?_unrestricted, hrule, Option.map_some]
  exact (tryWord_of_exclusions_nil rfl _).trans hattempt

/-- What is kept leads to the same text without exclusions. -/
theorem Keeps.reads {depth : Nat} {name : String} (hkeeps : g.Keeps depth name drawn kept text) :
    (g.unrestricted.ruleWord depth name).Reads kept (.ok text) := by
  induction depth generalizing name drawn kept text with
  | zero => exact hkeeps.elim
  | succ depth ih =>
    obtain ⟨r, hrule, htries⟩ := hkeeps
    rw [ruleWord_unrestricted hrule]
    induction htries with
    | passed hattempt _ => exact hattempt.reads fun _ _ _ _ hword => ih hword
    | dropped _ _ _ ihlater => exact ihlater

/-- Exclusions can only remove words. Whatever source makes a word, the values that it gives to the
    attempts that are not dropped, and no others, make the same word without exclusions, in the same
    order and whatever follows them. -/
theorem exists_run?_unrestricted {source : Source} {run : Run String} {w : String}
    (hrun : g.word.run? source = some run) (houtcome : run.outcome = .ok w) :
    ∃ drawn kept, source.Gives drawn run.source ∧
      g.Keeps g.depthLimit g.root drawn kept w.toList ∧ kept.Sublist drawn ∧
      ∀ rest state taken, ∃ events,
        g.unrestricted.word.run? ⟨kept ++ rest, state, taken⟩ =
          some ⟨.ok w, ⟨rest, state, taken + kept.length⟩, events⟩ := by
  obtain ⟨drawn, hgives, hreads⟩ := Sampler.reads_of_run? hrun
  rw [houtcome] at hreads
  cases hroot : g.hasRule g.root with
  | false =>
    rw [word, if_neg (by simp [hroot])] at hreads
    cases hreads
  | true =>
    rw [word, if_pos hroot, map_eq_pure_bind] at hreads
    obtain ⟨values, rest, text, hdrawn, hword, hdone⟩ := hreads.exists_of_bind
    cases hdone
    rw [List.append_nil] at hdrawn
    rw [hdrawn] at hword
    obtain ⟨kept, hkeeps⟩ := exists_keeps hword
    have hroot' : g.unrestricted.hasRule g.unrestricted.root = true :=
      (hasRule_unrestricted g.root).trans hroot
    have hlimit : g.unrestricted.depthLimit = g.depthLimit := by
      rw [depthLimit, depthLimit, length_rules_unrestricted]
    have hkept : g.unrestricted.word.Reads kept (.ok (String.ofList text)) := by
      rw [word, if_pos hroot', hlimit, map_eq_pure_bind, ← List.append_nil kept]
      exact hkeeps.reads.bind (.done _)
    rw [String.toList_ofList]
    exact ⟨drawn, kept, hgives, hkeeps, hkeeps.sublist, hkept.exists_run?⟩

/-- Words of two vowels, both of which exclusions have a say in. -/
def restrained : Grammar Float where
  rules := [
    ⟨"V", .choice [⟨.atom "a", 1⟩, ⟨.atom "i", 1⟩, ⟨.atom "u", 1⟩], [.atom "u"], []⟩,
    ⟨"W", .repeated (.ref "V") 2 2, [.atom "ai"], []⟩]
  root := "W"
  useWeights := false

theorem exists_run?_unrestricted_restrained :
    ∃ source run, restrained.word.run? source = some run ∧ run.outcome = .ok "ia" ∧
      run.events = [.excluded "V" 1 "u", .excluded "W" 1 "ai", .excluded "V" 1 "u"] ∧
      ∃ drawn kept, source.Gives drawn run.source ∧ kept.Sublist drawn ∧
        ∀ rest state taken, ∃ events,
          restrained.unrestricted.word.run? ⟨kept ++ rest, state, taken⟩ =
            some ⟨.ok "ia", ⟨rest, state, taken + kept.length⟩, events⟩ := by
  -- In the first attempt `u` and `a`, then `i`; in the second `i`, then `u` and `a`.
  have hrun : (restrained.word.run? ⟨[0, 0xC000000000000000, 0, 0x8000000000000000,
      0, 0x8000000000000000, 0xC000000000000000, 0], 0, 0⟩).map
      (fun run => (run.outcome, run.events)) =
        some (.ok "ia", [.excluded "V" 1 "u", .excluded "W" 1 "ai", .excluded "V" 1 "u"]) := by cbv
  obtain ⟨run, hrun, hresult⟩ := Option.map_eq_some_iff.mp hrun
  obtain ⟨houtcome, hevents⟩ := Prod.mk.inj hresult
  obtain ⟨drawn, kept, hgives, -, hsublist, hkept⟩ := exists_run?_unrestricted hrun houtcome
  exact ⟨_, run, hrun, houtcome, hevents, drawn, kept, hgives, hsublist, hkept⟩

end Grammar

end WordGrammar
