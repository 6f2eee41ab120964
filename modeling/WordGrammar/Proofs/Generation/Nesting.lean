import WordGrammar.Proofs.Generation.Calls
import WordGrammar.Proofs.Grammar.Safety
import WordGrammar.Proofs.Matcher.Language

namespace WordGrammar

open Relation

variable {W : Type}

namespace Grammar

variable {g : Grammar W} {parts : Rule W → List (Expr W)} {usable : W → Prop}

/-- The grammar whose rules lead where these parts of the rules do. -/
def through (g : Grammar W) (parts : Rule W → List (Expr W)) : Grammar W :=
  { g with rules := g.rules.map fun r => { r with body := .seq (parts r) } }

theorem rule?_through (name : String) :
    (g.through parts).rule? name =
      (g.rule? name).map fun r => { r with body := .seq (parts r) } := by
  rw [rule?, rule?, through, List.find?_map]
  rfl

theorem hasRule_through (name : String) : (g.through parts).hasRule name = g.hasRule name := by
  rw [hasRule, rule?_through, Option.isSome_map, hasRule]

theorem refers_through {a b : String} :
    (g.through parts).Refers a b ↔
      ∃ r, g.rule? a = some r ∧ ∃ e ∈ parts r, e.Contains (.ref b) := by
  simp only [Refers, rule?_through, Option.map_eq_some_iff, Rule.edges]
  constructor
  · intro h
    obtain ⟨-, ⟨r, hrule, rfl⟩, hedge⟩ := h
    rw [Expr.references_seq] at hedge
    obtain ⟨e, he, hname⟩ := List.mem_flatMap.mp hedge
    exact ⟨r, hrule, e, he, Expr.mem_references_iff.mp hname⟩
  · intro h
    obtain ⟨r, hrule, e, he, hname⟩ := h
    refine ⟨_, ⟨r, hrule, rfl⟩, ?_⟩
    rw [Expr.references_seq]
    exact List.mem_flatMap.mpr ⟨e, he, Expr.mem_references_iff.mpr hname⟩

/-- Where a rule leads through its body, it leads through any parts that the body is one of. -/
theorem Refers.through (hbody : ∀ r, r.body ∈ parts r) {a b : String} (hrefers : g.Refers a b) :
    (g.through parts).Refers a b := by
  obtain ⟨r, hrule, hedge⟩ := hrefers
  exact refers_through.mpr ⟨r, hrule, r.body, hbody r, Expr.mem_references_iff.mp hedge⟩

theorem CycleBelow.through (hbody : ∀ r, r.body ∈ parts r) {name : String}
    (hcycle : g.CycleBelow name) : (g.through parts).CycleBelow name := by
  obtain ⟨x, hreach, hround⟩ := hcycle
  have hrefers : g.Refers ≤ (g.through parts).Refers := fun _ _ => Refers.through hbody
  exact ⟨x, ReflTransGen.mono hrefers _ _ hreach, TransGen.mono hrefers _ _ hround⟩

theorem Resolved.through (hresolved : g.Resolved) (hparts : ∀ r, parts r ⊆ r.expressions) :
    (g.through parts).Resolved := by
  intro r' hmem name hname
  obtain ⟨r, hr, rfl⟩ := List.mem_map.mp hmem
  rw [hasRule_through]
  apply hresolved r hr
  rw [Rule.mem_references_iff] at hname ⊢
  obtain ⟨e, he, hname⟩ := hname
  simp only [Rule.expressions, Rule.patterns, List.cons_append, List.mem_cons] at he
  rcases he with rfl | he
  · rw [Expr.references_seq] at hname
    obtain ⟨part, hpart, hname⟩ := List.mem_flatMap.mp hname
    exact ⟨part, hparts r hpart, hname⟩
  · exact ⟨e, List.mem_cons_of_mem _ he, hname⟩

/-- Where no circle can be reached through the parts, chains of references through them have at most
    as many rules as there are. -/
theorem shallow_through (hresolved : g.Resolved) (hparts : ∀ r, parts r ⊆ r.expressions)
    {name : String} (hname : g.hasRule name = true)
    (hacyclic : ¬ (g.through parts).CycleBelow name) :
    (g.through parts).Shallow g.rules.length name := by
  have hname' : (g.through parts).hasRule name = true := by rw [hasRule_through, hname]
  have hshallow := shallow_of_acyclic (hresolved.through hparts) hname' hacyclic
  rwa [through, List.length_map] at hshallow

/-- Where replacements refer to nothing, following them too changes nothing in the search. -/
theorem cycle?_through_expanded
    (hreplacements : ∀ r ∈ g.rules, ∀ s ∈ r.substitutions, s.replacement.references = []) :
    (g.through Rule.expanded).cycle? = g.cycle? := by
  have hedges : ∀ r ∈ g.rules, (Expr.seq r.expanded).references = r.body.references := by
    intro r hmem
    rw [Expr.references_seq, Rule.expanded, List.flatMap_cons, List.flatMap_map,
      List.flatMap_eq_nil_iff.mpr (hreplacements r hmem), List.append_nil]
  have hvisit : ∀ depth, (g.through Rule.expanded).visit depth = g.visit depth := by
    intro depth
    induction depth with
    | zero => rfl
    | succ depth ih =>
      funext path name done
      rw [visit, visit, rule?_through, ih]
      cases hrule : g.rule? name with
      | none => rfl
      | some r =>
        simp only [Option.map_some, Rule.edges]
        rw [hedges r (mem_rules_of_rule? hrule)]
  rw [cycle?, cycle?, hvisit, through, List.length_map]

/-- Where no circle can be reached through any of the expressions of rules, matching the patterns of
    a rule does not fail. -/
theorem WellFormed.pattern_answers (hwf : g.WellFormed usable) {name : String} {r : Rule W}
    (hrule : g.rule? name = some r) (hacyclic : ¬ (g.through Rule.expressions).CycleBelow name)
    {e : Expr W} (he : e ∈ r.patterns) : (g.matcher e).Raises fun _ => False := by
  intro s fault herror
  have hmem := mem_rules_of_rule? hrule
  have hcaptures : e.hasCaptures = false := by
    rw [← Bool.not_eq_true, Expr.hasCaptures_iff]
    intro h
    obtain ⟨index, hindex⟩ := h
    exact hwf.captures r hmem e he index hindex
  have hbodies : ∀ r : Rule W, r.body ∈ r.expressions :=
    fun r => r.patterns_subset (List.mem_cons_self ..)
  have hrefs : ∀ next ∈ e.references, g.hasRule next = true ∧ ¬ g.CycleBelow next := by
    intro next hedge
    have hnext := Expr.mem_references_iff.mp hedge
    have hrefers : (g.through Rule.expressions).Refers name next :=
      refers_through.mpr ⟨r, hrule, e, r.patterns_subset he, hnext⟩
    refine ⟨hwf.references r hmem e (r.patterns_subset he) next hnext, fun hcycle => ?_⟩
    exact hacyclic ((hcycle.through hbodies).of_refers hrefers)
  obtain ⟨answer, hanswer⟩ := exists_answer_of_acyclic hwf.resolved hwf.captureFree hcaptures
    (fun next hedge => (hrefs next hedge).1) (fun next hedge => (hrefs next hedge).2) s
  rw [hanswer] at herror
  cases herror

end Grammar

variable [Weight W]

namespace Grammar

variable {g : Grammar W}

/-- Makes a word like `ruleWord`, but leaves it to `refuse` when a rule is entered that is among
    those under way. -/
def guardedWord (g : Grammar W) (refuse : String → Sampler (List Char)) :
    Nat → List String → String → Sampler (List Char)
  | 0, underWay, name =>
    if name ∈ underWay then refuse name
    else .stop (.faulted (if g.hasRule name then .endlessNesting else .unknownRule name))
  | depth + 1, underWay, name =>
    if name ∈ underWay then refuse name
    else
      match g.rule? name with
      | none => .stop (.faulted (.unknownRule name))
      | some r => g.tryWord (g.guardedWord refuse depth (name :: underWay)) r maxAttempts

/-- Where no circle can be reached through what is expanded, and the rules under way lead to the one
    that is entered, it is none of them, and so it goes on for the rules that it enters. -/
theorem guardedWord_eq (refuse : String → Sampler (List Char)) (depth : Nat)
    {underWay : List String} {name : String}
    (hunderWay : ∀ a ∈ underWay, TransGen (g.through Rule.expanded).Refers a name)
    (hacyclic : ¬ (g.through Rule.expanded).CycleBelow name) :
    g.guardedWord refuse depth underWay name = g.ruleWord depth name := by
  induction depth generalizing underWay name with
  | zero =>
    have hfresh : name ∉ underWay := fun hmem => hacyclic ⟨name, .refl, hunderWay name hmem⟩
    rw [guardedWord, if_neg hfresh, ruleWord]
  | succ depth ih =>
    have hfresh : name ∉ underWay := fun hmem => hacyclic ⟨name, .refl, hunderWay name hmem⟩
    rw [guardedWord, if_neg hfresh, ruleWord]
    cases hrule : g.rule? name with
    | none => rfl
    | some r =>
      refine tryWord_congr (fun e he next hnext => ?_) maxAttempts
      have hrefers : (g.through Rule.expanded).Refers name next :=
        refers_through.mpr ⟨r, hrule, e, he, hnext⟩
      apply ih
      · intro a ha
        rcases List.mem_cons.mp ha with rfl | ha
        · exact .single hrefers
        · exact (hunderWay a ha).tail hrefers
      · exact fun hcycle => hacyclic (hcycle.of_refers hrefers)

/-- More rules under way than a chain of those entered can have make no difference. -/
theorem Shallow.ruleWord_eq {depth depth' : Nat} {name : String}
    (hshallow : (g.through Rule.expanded).Shallow depth name) (hle : depth ≤ depth') :
    g.ruleWord depth' name = g.ruleWord depth name := by
  induction depth generalizing depth' name with
  | zero => exact hshallow.elim
  | succ depth ih =>
    obtain ⟨depth', rfl⟩ := Nat.exists_eq_add_one_of_ne_zero (Nat.ne_zero_of_lt hle)
    rw [ruleWord, ruleWord]
    cases hrule : g.rule? name with
    | none => rfl
    | some r =>
      refine tryWord_congr (fun e he next hnext => ?_) maxAttempts
      have hrefers : (g.through Rule.expanded).Refers name next :=
        refers_through.mpr ⟨r, hrule, e, he, hnext⟩
      exact ih (hshallow next hrefers) (Nat.le_of_succ_le_succ hle)

variable {usable : W → Prop}

/-- With as many rules under way as a chain of references can have, a word is made without fault. -/
theorem WellFormed.ruleWord_raises_of_shallow (hwf : g.WellFormed usable) {depth : Nat}
    {name : String} (hname : g.hasRule name = true)
    (hacyclic : ¬ (g.through Rule.expressions).CycleBelow name)
    (hshallow : (g.through Rule.expressions).Shallow depth name) :
    (g.ruleWord depth name).Raises fun _ => False := by
  induction depth generalizing name with
  | zero => exact hshallow.elim
  | succ depth ih =>
    obtain ⟨r, hrule⟩ := hasRule_iff.mp hname
    have hmem := mem_rules_of_rule? hrule
    simp only [ruleWord, hrule]
    refine hwf.tryWord_raises hmem (fun e he next hnext => ?_)
      (fun e he => hwf.pattern_answers hrule hacyclic he) maxAttempts
    have he' := r.expanded_subset he
    have hrefers : (g.through Rule.expressions).Refers name next :=
      refers_through.mpr ⟨r, hrule, e, he', hnext⟩
    apply ih
    · exact hwf.references r hmem e he' next hnext
    · exact fun hcycle => hacyclic (hcycle.of_refers hrefers)
    · exact hshallow next hrefers

theorem WellFormed.ruleWord_raises_of_acyclic (hwf : g.WellFormed usable) {depth : Nat}
    (hdepth : g.rules.length ≤ depth) {name : String} (hname : g.hasRule name = true)
    (hacyclic : ¬ (g.through Rule.expressions).CycleBelow name) :
    (g.ruleWord depth name).Raises fun _ => False := by
  have hshallow := shallow_through hwf.resolved (fun r => List.Subset.refl _) hname hacyclic
  exact hwf.ruleWord_raises_of_shallow hname hacyclic (hshallow.mono hdepth)

theorem WellFormed.word_raises_of_acyclic (hwf : g.WellFormed usable)
    (hacyclic : ¬ (g.through Rule.expressions).CycleBelow g.root) :
    g.word.Raises fun _ => False := by
  have hlimit : g.rules.length ≤ g.depthLimit := Nat.le_add_right ..
  unfold word
  split
  · rename_i hroot
    exact (hwf.ruleWord_raises_of_acyclic hlimit hroot hacyclic).bind fun text _ => .done _
  · exact .failed _

end Grammar

end WordGrammar
