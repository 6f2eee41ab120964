import WordGrammar.Generation.Word
import WordGrammar.Proofs.Grammar.WellFormed
import WordGrammar.Proofs.Matcher.Occurrence
import WordGrammar.Proofs.Sampler.Ends

namespace WordGrammar

variable {W : Type}

namespace Grammar

variable {g : Grammar W} {r : Rule W} {text : List Char}

/-- Whether one of the expressions occurs in a text is whether a stretch of it, but not the empty
    one, is among their texts. -/
theorem occursAny_iff {es : List (Expr W)} {found : Bool}
    (hanswer : g.occursAny es text = .ok found) :
    found = true ↔ ∃ e ∈ es, ∃ stretch, stretch <:+: text ∧ stretch ≠ [] ∧
      stretch ∈ g.language e := by
  induction es with
  | nil =>
    cases hanswer
    simp
  | cons e es ih =>
    obtain ⟨first, hfirst, hrest⟩ := Outcome.bind_eq_ok_iff.mp hanswer
    rw [List.exists_mem_cons_iff]
    cases first with
    | some o =>
      cases hrest
      obtain ⟨-, -, hhit⟩ := Matcher.hit_of_find? hfirst
      obtain ⟨hlength, hmatch⟩ := Matcher.answer_of_hit? hhit
      refine ⟨fun _ => .inl ⟨_, ?_, ?_, (isSome_iff_mem_language hmatch).mp rfl⟩, fun _ => rfl⟩
      · exact (List.take_prefix _ _).isInfix.trans (List.drop_suffix _ _).isInfix
      · intro hempty
        have hpositive := congrArg List.length hempty
        rw [List.length_take, Nat.min_eq_left hlength] at hpositive
        cases hpositive
    | none =>
      rw [ih hrest]
      constructor
      · exact .inr
      · intro h
        obtain ⟨stretch, hstretch, hne, hmem⟩ | hlater := h
        · have hnone := Matcher.find?_eq_none_iff.mp hfirst stretch hstretch hne
          cases (isSome_iff_mem_language hnone).mpr hmem
        · exact hlater

/-- Some stretch of the text is a text of one of the rule's exclusions, and not empty. -/
def Forbids (g : Grammar W) (r : Rule W) (text : List Char) : Prop :=
  ∃ e ∈ r.exclusions, ∃ stretch, stretch <:+: text ∧ stretch ≠ [] ∧ stretch ∈ g.language e

/-- Whether a text is forbidden is found out where no circle can be reached from the exclusions. -/
theorem exists_occursAny (hresolved : g.Resolved) (hbodies : g.CaptureFree) {es : List (Expr W)}
    (hplain : ∀ e ∈ es, e.hasCaptures = false)
    (hrefs : ∀ e ∈ es, ∀ name ∈ e.references, g.hasRule name = true ∧ ¬ g.CycleBelow name)
    (text : List Char) : ∃ found, g.occursAny es text = .ok found := by
  cases hanswer : g.occursAny es text with
  | ok found => exact ⟨found, rfl⟩
  | error fault =>
    refine (occursAny_raises (F := fun _ => False) (fun e he s fault herror => ?_) hanswer).elim
    obtain ⟨answer, hok⟩ := exists_answer_of_acyclic hresolved hbodies (hplain e he)
      (fun name hname => (hrefs e he name hname).1) (fun name hname => (hrefs e he name hname).2) s
    rw [hok] at herror
    cases herror

variable [Weight W] {rule : String → Sampler (List Char)}

/-- No word that a rule comes to in the end is forbidden. -/
theorem not_forbids_of_tryWord {left : Nat}
    (hends : (g.tryWord rule r left).Ends (.ok text)) : ¬ g.Forbids r text := by
  induction left with
  | zero =>
    obtain ⟨_, _, hstop⟩ := Sampler.ends_bind_ok.mp hends
    cases hstop
  | succ left ih =>
    obtain ⟨tried, -, hjudged⟩ := Sampler.ends_bind_ok.mp hends
    cases hanswer : g.occursAny r.exclusions tried with
    | error fault =>
      rw [hanswer] at hjudged
      cases hjudged
    | ok found =>
      rw [hanswer] at hjudged
      cases found with
      | true => exact ih (Sampler.ends_note.mp hjudged)
      | false =>
        cases hjudged
        intro hforbids
        cases (occursAny_iff hanswer).mpr hforbids

theorem not_forbids_of_ruleWord {depth : Nat} {name : String} (hrule : g.rule? name = some r)
    (hends : (g.ruleWord depth name).Ends (.ok text)) : ¬ g.Forbids r text := by
  cases depth with
  | zero => cases hends
  | succ depth =>
    simp only [ruleWord, hrule] at hends
    exact not_forbids_of_tryWord hends

/-- Tries for a word like `tryWord`, but gives an attempt that is about to be dropped to `appeal`,
    and one that is about to be the word to `vet`. -/
def vettedTry (g : Grammar W) (appeal : Rule W → List Char → Sampler Unit)
    (vet : Rule W → List Char → Sampler (List Char)) (rule : String → Sampler (List Char))
    (r : Rule W) : Nat → Sampler (List Char)
  | 0 => g.tryWord rule r 0
  | left + 1 => do
    let text ← g.attempt rule r
    if ← Sampler.ofExcept (g.occursAny r.exclusions text) then do
      appeal r text
      Sampler.tell (.excluded r.name (maxAttempts - left) (String.ofList text))
      g.vettedTry appeal vet rule r left
    else vet r text

/-- Makes a word like `ruleWord`, with every attempt that is made on the way given to `appeal` or
    to `vet`. -/
def vettedWord (g : Grammar W) (appeal : Rule W → List Char → Sampler Unit)
    (vet : Rule W → List Char → Sampler (List Char)) : Nat → String → Sampler (List Char)
  | 0, name => g.ruleWord 0 name
  | depth + 1, name =>
    match g.rule? name with
    | none => .stop (.faulted (.unknownRule name))
    | some r => g.vettedTry appeal vet (g.vettedWord appeal vet depth) r maxAttempts

variable {appeal : Rule W → List Char → Sampler Unit}
  {vet : Rule W → List Char → Sampler (List Char)}

theorem vettedTry_eq (happeal : ∀ text, g.Forbids r text → appeal r text = .done ())
    (hvet : ∀ text, ¬ g.Forbids r text → vet r text = .done text) (left : Nat) :
    g.vettedTry appeal vet rule r left = g.tryWord rule r left := by
  induction left with
  | zero => rfl
  | succ left ih =>
    rw [vettedTry, tryWord]
    congr 1
    funext text
    cases hanswer : g.occursAny r.exclusions text with
    | error fault => rfl
    | ok found =>
      have hfound := occursAny_iff hanswer
      cases found with
      | true =>
        have hforbids : g.Forbids r text := hfound.mp rfl
        simp only [Sampler.ofExcept, Sampler.done_bind, if_true, happeal text hforbids, ih]
      | false =>
        have hallowed : ¬ g.Forbids r text := fun hforbids => nomatch hfound.mpr hforbids
        exact hvet text hallowed

/-- Attempts that are dropped are forbidden, and words are not, at every rule that is entered. -/
theorem vettedWord_eq (happeal : ∀ r text, g.Forbids r text → appeal r text = .done ())
    (hvet : ∀ r text, ¬ g.Forbids r text → vet r text = .done text) (depth : Nat)
    (name : String) : g.vettedWord appeal vet depth name = g.ruleWord depth name := by
  induction depth generalizing name with
  | zero => rfl
  | succ depth ih =>
    rw [vettedWord, ruleWord]
    cases g.rule? name with
    | none => rfl
    | some r =>
      have hrules : g.vettedWord appeal vet depth = g.ruleWord depth := funext ih
      simp only [hrules]
      exact vettedTry_eq (happeal r) (hvet r) maxAttempts

/-- Exclusions hold on every word. None that is made is forbidden, be it the root's, that of a rule
    entered with however many under way, or one of those that go into it. Nor is an attempt dropped
    that is not: whatever would be done with such attempts before they are dropped, and with
    forbidden words before they are passed on, makes no difference to any run. The check answers
    nothing else, and does answer where no circle can be reached from the exclusions. -/
theorem exclusions_hold (hresolved : g.Resolved)
    (hexclusions : ∀ r ∈ g.rules, ∀ e ∈ r.exclusions, e.hasCaptures = false) :
    (∀ root, g.rule? g.root = some root → ∀ source run w, g.word.run? source = some run →
      run.outcome = .ok w → ¬ g.Forbids root w.toList) ∧
    (∀ depth name r, g.rule? name = some r → ∀ source run text,
      (g.ruleWord depth name).run? source = some run → run.outcome = .ok text →
      ¬ g.Forbids r text) ∧
    (∀ appeal vet, (∀ r text, g.Forbids r text → appeal r text = .done ()) →
      (∀ r text, ¬ g.Forbids r text → vet r text = .done text) →
      ∀ depth name, g.vettedWord appeal vet depth name = g.ruleWord depth name) ∧
    (∀ r text answer, g.isExcluded r text = .ok answer →
      (answer = true ↔ g.Forbids r text.toList)) ∧
    (g.CaptureFree → ∀ r ∈ g.rules,
      (∀ e ∈ r.exclusions, ∀ name ∈ e.references, ¬ g.CycleBelow name) →
      ∀ text, ∃ answer, g.isExcluded r text = .ok answer) := by
  refine ⟨fun root hroot source run w hrun houtcome => ?_, ?_, ?_, ?_, ?_⟩
  · have hends := Sampler.ends_of_run? hrun
    rw [houtcome, word, if_pos (hasRule_iff.mpr ⟨root, hroot⟩), map_eq_pure_bind,
      Sampler.ends_bind_ok] at hends
    obtain ⟨text, hword, hdone⟩ := hends
    cases hdone
    rw [String.toList_ofList]
    exact not_forbids_of_ruleWord hroot hword
  · intro depth name r hrule source run text hrun houtcome
    have hends := Sampler.ends_of_run? hrun
    rw [houtcome] at hends
    exact not_forbids_of_ruleWord hrule hends
  · exact fun appeal vet happeal hvet => vettedWord_eq happeal hvet
  · exact fun r text answer hanswer => occursAny_iff hanswer
  · intro hbodies r hmem hacyclic text
    refine exists_occursAny hresolved hbodies (hexclusions r hmem) (fun e he name hname => ?_) _
    have hreferences : name ∈ r.references := by
      refine Rule.mem_references_iff.mpr ⟨e, r.patterns_subset ?_, hname⟩
      exact List.mem_cons_of_mem _ (List.mem_append_left _ he)
    exact ⟨hresolved r hmem name hreferences, hacyclic e he name hname⟩

/-- Words of two vowels that do not end in `i`. -/
def closing : Grammar Float where
  rules := [
    ⟨"V", .choice [⟨.atom "a", 1⟩, ⟨.atom "i", 1⟩], [], []⟩,
    ⟨"W", .repeated (.ref "V") 2 2, [.seq [.ref "V", .atom "i"]], []⟩]
  root := "W"
  useWeights := false

theorem exclusions_hold_closing :
    closing.Resolved ∧ (∀ r ∈ closing.rules, ∀ e ∈ r.exclusions, e.hasCaptures = false) ∧
      (∃ source run, closing.word.run? source = some run ∧ run.outcome = .ok "ia" ∧
        .excluded "W" 1 "ai" ∈ run.events) ∧
      ∀ root, closing.rule? closing.root = some root →
        ¬ closing.Forbids root "ia".toList ∧ closing.Forbids root "ai".toList := by
  have hresolved : closing.Resolved := by decide
  have hexclusions : ∀ r ∈ closing.rules, ∀ e ∈ r.exclusions, e.hasCaptures = false := by decide
  obtain ⟨hwords, -, -, hchecks, -⟩ := exclusions_hold hresolved hexclusions
  -- One value for each number of vowels, and one for each vowel.
  have hrun : (closing.word.run? ⟨[0, 0, 0x8000000000000000, 0, 0x8000000000000000, 0], 0, 0⟩).map
      (fun run => (run.outcome, run.events)) = some (.ok "ia", [.excluded "W" 1 "ai"]) := by cbv
  obtain ⟨run, hrun, hresult⟩ := Option.map_eq_some_iff.mp hrun
  obtain ⟨houtcome, hevents⟩ := Prod.mk.inj hresult
  refine ⟨hresolved, hexclusions, ⟨_, run, hrun, houtcome, ?_⟩, fun root hroot => ⟨?_, ?_⟩⟩
  · rw [hevents]
    exact List.mem_singleton_self _
  · exact hwords root hroot _ run "ia" hrun houtcome
  · have hchecked : closing.isExcluded root "ai" = .ok true := by
      cases hroot
      rfl
    exact (hchecks root "ai" true hchecked).mp rfl

end Grammar

end WordGrammar
