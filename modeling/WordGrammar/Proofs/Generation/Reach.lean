import WordGrammar.Proofs.Generation.Calls
import WordGrammar.Proofs.Grammar.Reach
import WordGrammar.Proofs.Matcher.Nesting
import WordGrammar.Proofs.Sampler.Below

namespace WordGrammar

variable {W : Type}

/-- Matching asks only for the rules referred to. -/
theorem Expr.matcher_congr {rule rule' : String → Matcher} (e : Expr W)
    (hrule : ∀ name, e.Contains (.ref name) → rule name = rule' name) :
    e.matcher rule = e.matcher rule' := by
  induction e with
  | atom text => rfl
  | ref name => exact hrule name (.self _)
  | capture index => rfl
  | seq items ih =>
    have hitems : items.map (matcher rule) = items.map (matcher rule') :=
      List.map_congr_left fun item hmem => ih item hmem fun name hname =>
        hrule name (.item hmem hname)
    rw [matcher_seq, matcher_seq, hitems]
  | choice alternatives ih =>
    have halternatives : alternatives.map (·.item.matcher rule) =
        alternatives.map (·.item.matcher rule') :=
      List.map_congr_left fun a hmem => ih a hmem fun name hname =>
        hrule name (.alternative hmem hname)
    rw [matcher_choice, matcher_choice, halternatives]
  | repeated body least most ih =>
    rw [matcher_repeated, matcher_repeated, ih fun name hname => hrule name (.body hname)]

/-- What gives up sooner makes what gives up sooner of the words it calls for. -/
theorem Calls.maker_below {names : String → Prop} {α : Type} {make : Maker α}
    (hcalls : Calls names make) {rule rule' : String → Sampler (List Char)}
    (hrule : ∀ name, names name → (rule name).Below (rule' name)) :
    (make rule).Below (make rule') := by
  induction hcalls with
  | own p => exact .refl p
  | call hname => exact hrule _ hname
  | bind _ _ ihmake ihnext => exact ihmake.bind ihnext

namespace Grammar

variable {g g' : Grammar W} {names : String → Prop} {e : Expr W}

section Matching

theorem Agree.ruleMatcher_eq (hagree : g.Agree g' names) (depth : Nat) {name : String}
    (hname : names name) : g.ruleMatcher depth name = g'.ruleMatcher depth name := by
  induction depth generalizing name with
  | zero =>
    funext s
    rw [ruleMatcher, ruleMatcher, hagree.hasRule_eq hname]
  | succ depth ih =>
    funext s
    rw [ruleMatcher, ruleMatcher, ← hagree.rule? name hname]
    cases hrule : g.rule? name with
    | none => rfl
    | some r =>
      have hbody : r.body.matcher (g.ruleMatcher depth) = r.body.matcher (g'.ruleMatcher depth) :=
        r.body.matcher_congr fun next hnext => ih (hagree.of_body hname hrule hnext)
      exact congrFun hbody s

/-- An expression over the names matches the same, with the same segments or the same fault. -/
theorem Agree.matcher_eq (hagree : g.Agree g' names)
    (hrefs : ∀ name, e.Contains (.ref name) → names name) : g.matcher e = g'.matcher e := by
  funext s
  have hdepth (depth : Nat) :
      e.matcher (g.ruleMatcher depth) = e.matcher (g'.ruleMatcher depth) :=
    e.matcher_congr fun name hname => hagree.ruleMatcher_eq depth (hrefs name hname)
  by_cases hends : g.matcher e s = .error .endlessNesting
  · by_cases hends' : g'.matcher e s = .error .endlessNesting
    · rw [hends, hends']
    · unfold matcher at hends'
      rw [← hdepth] at hends'
      rw [matcher_eq_of_ruleMatcher hends', hdepth]
      rfl
  · unfold matcher at hends
    rw [hdepth] at hends
    rw [matcher_eq_of_ruleMatcher hends, ← hdepth]
    rfl

theorem occursAny_congr {es : List (Expr W)} (hes : ∀ e ∈ es, g.matcher e = g'.matcher e)
    (s : List Char) : g.occursAny es s = g'.occursAny es s := by
  induction es with
  | nil => rfl
  | cons e es ih =>
    obtain ⟨he, hrest⟩ := List.forall_mem_cons.mp hes
    rw [occursAny, occursAny, he, ih hrest]

end Matching

section Making

variable [Weight W]

theorem tryWord_eq_of_matcher {rule : String → Sampler (List Char)} {r : Rule W}
    (hweights : g.useWeights = g'.useWeights)
    (hpatterns : ∀ e ∈ r.patterns, g.matcher e = g'.matcher e) (left : Nat) :
    g.tryWord rule r left = g'.tryWord rule r left := by
  refine tryWord_eq rfl ?_ ?_ left
  · refine attempt_eq_of_matcher hweights fun s hs => hpatterns _ ?_
    exact List.mem_cons_of_mem _ (List.mem_append_right _ (List.mem_map_of_mem hs))
  · refine occursAny_congr fun e he => hpatterns e ?_
    exact List.mem_cons_of_mem _ (List.mem_append_left _ he)

/-- With the same number of rules under way, a rule comes to the same words by the same draws. -/
theorem Agree.ruleWord_eq (hagree : g.Agree g' names) (hweights : g.useWeights = g'.useWeights)
    (depth : Nat) {name : String} (hname : names name) :
    g.ruleWord depth name = g'.ruleWord depth name := by
  induction depth generalizing name with
  | zero => rw [ruleWord, ruleWord, hagree.hasRule_eq hname]
  | succ depth ih =>
    rw [ruleWord, ruleWord, ← hagree.rule? name hname]
    cases hrule : g.rule? name with
    | none => rfl
    | some r =>
      have hpatterns : ∀ e ∈ r.patterns, g.matcher e = g'.matcher e := fun e he =>
        hagree.matcher_eq fun next => hagree.of_expression hname hrule (r.patterns_subset he)
      have hwords : ∀ left, g.tryWord (g.ruleWord depth) r left =
          g'.tryWord (g'.ruleWord depth) r left := by
        intro left
        rw [tryWord_eq_of_matcher hweights hpatterns]
        refine tryWord_congr (fun e he next hnext => ih ?_) left
        exact hagree.of_expression hname hrule (r.expanded_subset he) hnext
      exact hwords maxAttempts

/-- More rules under way change nothing but where a run is given up. -/
theorem ruleWord_below {depth depth' : Nat} (hle : depth ≤ depth') (name : String) :
    (g.ruleWord depth name).Below (g.ruleWord depth' name) := by
  induction depth generalizing depth' name with
  | zero =>
    cases hrule : g.rule? name with
    | some r =>
      rw [ruleWord, if_pos (hasRule_iff.mpr ⟨r, hrule⟩)]
      exact .overrun _
    | none =>
      have hunknown : g.ruleWord depth' name = g.ruleWord 0 name := by
        cases depth' with
        | zero => rfl
        | succ depth' => simp [ruleWord, hasRule, hrule]
      rw [hunknown]
      exact .refl _
  | succ depth ih =>
    obtain ⟨depth', rfl⟩ := Nat.exists_eq_add_one_of_ne_zero (Nat.ne_zero_of_lt hle)
    rw [ruleWord, ruleWord]
    cases g.rule? name with
    | none => exact .refl _
    | some r =>
      have hcalls : Calls (fun _ => True) fun rule => g.tryWord rule r maxAttempts :=
        tryWord_calls (fun _ _ _ _ => trivial) maxAttempts
      exact hcalls.maker_below fun next _ => ih (Nat.le_of_succ_le_succ hle) next

/-- Of two grammars that agree, the one with fewer rules gives up sooner, if they differ at all. -/
theorem Agree.word_below (hagree : g.Agree g' names) (hweights : g.useWeights = g'.useWeights)
    (hroot : g.root = g'.root) (hname : names g.root) (hle : g.rules.length ≤ g'.rules.length) :
    g.word.Below g'.word := by
  have hlimit : g.depthLimit ≤ g'.depthLimit := Nat.add_le_add_right hle _
  have hrule : (g.ruleWord g.depthLimit g.root).Below (g'.ruleWord g'.depthLimit g.root) := by
    rw [← hagree.ruleWord_eq hweights _ hname]
    exact ruleWord_below hlimit g.root
  rw [word, word, ← hroot, ← hagree.hasRule_eq hname]
  by_cases hknown : g.hasRule g.root = true
  · rw [if_pos hknown, if_pos hknown, map_eq_pure_bind, map_eq_pure_bind]
    exact hrule.bind fun text => .done _
  · rw [if_neg hknown, if_neg hknown]
    exact .stop _

/-- On every source, words come about alike, unless references nest too deep. -/
theorem Agree.run?_word (hagree : g.Agree g' names) (hweights : g.useWeights = g'.useWeights)
    (hroot : g.root = g'.root) (hname : names g.root) (source : Source) :
    g.word.run? source = g'.word.run? source ∨ g.word.Overruns source ∨
      g'.word.Overruns source := by
  obtain hle | hle := Nat.le_total g.rules.length g'.rules.length
  · obtain heq | hoverruns := (hagree.word_below hweights hroot hname hle).run?_eq source
    · exact .inl heq
    · exact .inr (.inl hoverruns)
  · rw [hroot] at hname
    obtain heq | hoverruns :=
      (hagree.symm.word_below hweights.symm hroot.symm hname hle).run?_eq source
    · exact .inl heq.symm
    · exact .inr (.inr hoverruns)

/-- Nothing that can be done with the rules that are reached tells the grammars apart. -/
structure Alike (g g' : Grammar W) : Prop where
  cycle? : g.cycle? = g'.cycle?
  /-- Counting comes to the same, unless it is at fault in both. -/
  combinations : ∀ result, (∀ fault, result ≠ .error (.faulted fault)) →
    (g.combinations = result ↔ g'.combinations = result)
  match? : ∀ e : Expr W, (∀ name ∈ e.references, g.Reaches name) → ∀ text,
    g.match? e text = g'.match? e text
  /-- With so many rules under way at a time, the same draws lead to the same words. -/
  ruleWord : ∀ depth, g.ruleWord depth g.root = g'.ruleWord depth g'.root
  /-- Runs take the same values of a source to come to the same end. -/
  run? : ∀ source, g.word.run? source = g'.word.run? source ∨
    g.word.Overruns source ∨ g'.word.Overruns source

/-- Only what can be reached from the root matters. -/
theorem alike_of_rule? (hresolved : g.Resolved) (hresolved' : g'.Resolved)
    (hroot : g.root = g'.root) (hweights : g.useWeights = g'.useWeights)
    (hrules : ∀ name, g.Reaches name → g.rule? name = g'.rule? name) : g.Alike g' := by
  have hagree := Agree.of_reaches hrules
  have hname : g.Reaches g.root := .refl
  constructor
  · exact hagree.cycle?_eq hroot hname
  · intro result hresult
    exact hagree.combinations_eq_iff hresolved hresolved' hroot hname hresult
  · intro e hrefs text
    have hmatcher : g.matcher e = g'.matcher e :=
      hagree.matcher_eq fun name hcontains => hrefs name (Expr.mem_references_iff.mpr hcontains)
    rw [Grammar.match?, Grammar.match?, hmatcher]
  · intro depth
    rw [hagree.ruleWord_eq hweights depth hname, hroot]
  · exact hagree.run?_word hweights hroot hname

/-- Neither the order of the rules matters, nor rules besides, unless one is the root. -/
theorem alike_of_perm (hresolved : g.Resolved) (hresolved' : g'.Resolved)
    (hroot : g.root = g'.root) (hweights : g.useWeights = g'.useWeights)
    (hnodup : (g'.rules.map (·.name)).Nodup) {others : List (Rule W)}
    (hperm : g'.rules.Perm (others ++ g.rules)) (hothers : g.root ∉ others.map (·.name)) :
    g.Alike g' := by
  refine alike_of_rule? hresolved hresolved' hroot hweights fun name hreaches => ?_
  apply rule?_eq_of_perm hnodup hperm
  obtain rfl | hrule := hreaches.hasRule hresolved
  · exact hothers
  · have hnames : (others.map (·.name) ++ g.rules.map (·.name)).Nodup := by
      rw [← List.map_append]
      exact (hperm.map _).nodup_iff.mp hnodup
    exact fun hother => hnames.disjoint hother (hasRule_iff_mem_names.mp hrule)

end Making

end Grammar

end WordGrammar
