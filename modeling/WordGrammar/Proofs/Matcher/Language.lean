import WordGrammar.Proofs.Grammar.Language
import WordGrammar.Proofs.Matcher.Nesting

namespace WordGrammar

namespace Matcher

open Search

/-- Whatever `p` answers is right about derivations that end in the pieces `D`: segments are the
    pieces of one of them, and without an answer there is none. -/
structure Decides (p : Matcher) (D : List (List Char) → Prop) : Prop where
  sound : ∀ s lengths, p s = .ok (some lengths) →
    ∃ pieces, D pieces ∧ pieces.flatten = s ∧ pieces.map List.length = lengths
  complete : ∀ pieces, p pieces.flatten = .ok none → ¬ D pieces

variable {p q : Matcher} {D E : List (List Char) → Prop}

theorem Decides.of_no_answer (hp : ∀ s answer, p s ≠ .ok answer) : p.Decides D where
  sound s _ hsome := (hp s _ hsome).elim
  complete _ hnone := (hp _ _ hnone).elim

theorem Decides.congr (hp : p.Decides D) (hiff : ∀ pieces, D pieces ↔ E pieces) :
    p.Decides E := by
  obtain rfl : D = E := funext fun pieces => propext (hiff pieces)
  exact hp

theorem Decides.literal (text : List Char) : (literal text).Decides (· = [text]) where
  sound s lengths hsome := by
    unfold Matcher.literal at hsome
    by_cases hs : text = s
    · rw [if_pos hs] at hsome
      cases hsome
      exact ⟨[text], rfl, by simpa using hs, by simp [hs]⟩
    · rw [if_neg hs] at hsome
      cases hsome
  complete pieces hnone hD := by
    rw [hD] at hnone
    simp [Matcher.literal] at hnone

theorem Decides.empty : empty.Decides (· = []) where
  sound s lengths hsome := by
    unfold Matcher.empty at hsome
    by_cases hs : s = []
    · subst hs
      cases hsome
      exact ⟨[], rfl, rfl, rfl⟩
    · rw [if_neg (by simpa using hs)] at hsome
      cases hsome
  complete pieces hnone hD := by
    rw [hD] at hnone
    simp [Matcher.empty] at hnone

/-- A matcher in two parts decides derivations in two parts. The match that the front part commits
    to is as good as any other, since the back part sees only where it ends. -/
theorem Decides.andThen (hp : p.Decides D) (hq : q.Decides E) :
    (andThen p q).Decides fun pieces =>
      ∃ front back, D front ∧ E back ∧ front ++ back = pieces where
  sound s lengths hsome := by
    rw [andThen_eq] at hsome
    obtain ⟨k, _, htrial⟩ := exists_of_found hsome
    obtain ⟨_, _, hfront, hback, rfl⟩ := trial_eq_some htrial
    obtain ⟨front, hD, htake, rfl⟩ := hp.sound _ _ hfront
    obtain ⟨back, hE, hdrop, rfl⟩ := hq.sound _ _ hback
    refine ⟨front ++ back, ⟨front, back, hD, hE, rfl⟩, ?_, by rw [List.map_append]⟩
    rw [List.flatten_append, htake, hdrop, List.take_append_drop]
  complete pieces hnone hboth := by
    obtain ⟨front, back, hD, hE, hpieces⟩ := hboth
    rw [← hpieces, andThen_eq, none_iff, List.flatten_append] at hnone
    have hcut := hnone front.flatten.length
      (by rw [List.mem_range, List.length_append]; omega)
    rcases trial_eq_none_iff.mp hcut with hfront | ⟨_, -, hback⟩
    · rw [List.take_left] at hfront
      exact hp.complete front hfront hD
    · rw [List.drop_left] at hback
      exact hq.complete back hback hE

theorem Decides.firstOf {α : Type} {f : α → Matcher} {D : α → List (List Char) → Prop} {as : List α}
    (hf : ∀ a ∈ as, (f a).Decides (D a)) :
    (firstOf (as.map f)).Decides fun pieces => ∃ a ∈ as, D a pieces where
  sound s lengths hsome := by
    unfold Matcher.firstOf at hsome
    rw [map_eq] at hsome
    obtain ⟨a, hmem, ha⟩ := exists_of_found hsome
    obtain ⟨pieces, hD, hpieces⟩ := (hf a hmem).sound s lengths ha
    exact ⟨pieces, ⟨a, hmem, hD⟩, hpieces⟩
  complete pieces hnone hone := by
    obtain ⟨a, hmem, hD⟩ := hone
    unfold Matcher.firstOf at hnone
    rw [map_eq, none_iff] at hnone
    exact (hf a hmem).complete pieces (hnone a hmem) hD

end Matcher

variable {W : Type} {g : Grammar W}

namespace Matcher

open Search

theorem Decides.copies {p : Matcher} {body : Expr W} (hp : p.Decides (g.Derives body)) (n : Nat) :
    (copies p n).Decides (g.Derives (.seq (List.replicate n body))) := by
  induction n with
  | zero => exact Decides.empty.congr fun pieces => Grammar.derives_nil.symm
  | succ n ih => exact (hp.andThen ih).congr fun pieces => Grammar.derives_cons.symm

/-- A matcher of repetitions decides repetitions, although it tries no more of them than a text may
    need. -/
theorem Decides.repeated {p : Matcher} {body : Expr W} (hp : p.Decides (g.Derives body))
    (least most : Nat) :
    (repeated p least most).Decides (g.Derives (.repeated body least most)) where
  sound s lengths hsome := by
    obtain ⟨n, hmem, hn⟩ := exists_of_found hsome
    obtain ⟨pieces, hD, hpieces⟩ := (hp.copies n).sound s lengths hn
    rw [List.mem_range'_1] at hmem
    exact ⟨pieces, .repeated hmem.1 (by omega) hD, hpieces⟩
  complete pieces hnone hD := by
    obtain ⟨n, hleast, hmost, htext⟩ := Grammar.mem_language_repeated.mp ⟨pieces, hD, rfl⟩
    obtain ⟨m, hlo, hhi, hfew, hm⟩ := Language.mem_pow_of_le htext hleast
    rw [← List.prod_replicate, ← List.map_replicate, ← Grammar.language_seq] at hm
    obtain ⟨copies, hcopies, hflatten⟩ := hm
    have hcount := none_iff.mp hnone m (List.mem_range'_1.mpr (by omega))
    rw [← hflatten] at hcount
    exact (hp.copies m).complete copies hcount hcopies

end Matcher

/-- The matcher of an expression decides its derivations if the matchers of the rules it refers to
    do. -/
theorem Expr.matcher_decides {rule : String → Matcher} (e : Expr W)
    (hrule : ∀ name, (rule name).Decides (g.Derives (.ref name))) :
    (e.matcher rule).Decides (g.Derives e) := by
  induction e with
  | atom text =>
    exact (Matcher.Decides.literal text.toList).congr fun pieces => Grammar.derives_atom.symm
  | ref name => exact hrule name
  | capture index =>
    refine Matcher.Decides.of_no_answer fun s answer hanswer => ?_
    cases hanswer
  | seq items ih =>
    rw [matcher_seq]
    induction items with
    | nil => exact Matcher.Decides.empty.congr fun pieces => Grammar.derives_nil.symm
    | cons item items ihitems =>
      obtain ⟨hitem, hitems⟩ := List.forall_mem_cons.mp ih
      have hboth := hitem.andThen (ihitems hitems)
      exact hboth.congr fun pieces => Grammar.derives_cons.symm
  | choice alternatives ih =>
    rw [matcher_choice]
    exact (Matcher.Decides.firstOf ih).congr fun pieces => Grammar.derives_choice.symm
  | repeated body least most ih => exact ih.repeated least most

namespace Grammar

theorem ruleMatcher_decides (depth : Nat) (name : String) :
    (g.ruleMatcher depth name).Decides (g.Derives (.ref name)) := by
  induction depth generalizing name with
  | zero => exact .of_no_answer (ruleMatcher_zero_ne_ok name)
  | succ depth ih =>
    cases hrule : g.rule? name with
    | none =>
      refine .of_no_answer fun s answer hanswer => ?_
      rw [ruleMatcher_of_no_rule hrule] at hanswer
      cases hanswer
    | some r =>
      rw [ruleMatcher_succ hrule]
      exact (r.body.matcher_decides ih).congr fun pieces => (derives_ref hrule).symm

theorem matcher_decides (e : Expr W) : (g.matcher e).Decides (g.Derives e) where
  sound s _ hsome := (e.matcher_decides (ruleMatcher_decides _)).sound s _ hsome
  complete pieces hnone := (e.matcher_decides (ruleMatcher_decides _)).complete pieces hnone

/-- An answer tells whether the text belongs to the language of the expression. -/
theorem isSome_iff_mem_language {e : Expr W} {s : List Char} {answer : Option (List Nat)}
    (hanswer : g.matcher e s = .ok answer) : answer.isSome = true ↔ s ∈ g.language e := by
  cases answer with
  | none =>
    refine ⟨nofun, fun h => ?_⟩
    obtain ⟨pieces, hderives, hflatten⟩ := h
    rw [← hflatten] at hanswer
    exact ((matcher_decides e).complete pieces hanswer hderives).elim
  | some lengths =>
    obtain ⟨pieces, hderives, hflatten, -⟩ := (matcher_decides e).sound s lengths hanswer
    exact ⟨fun _ => ⟨pieces, hderives, hflatten⟩, fun _ => rfl⟩

/-- Without captures, nothing but references that nest without end keeps a rule from an answer. -/
theorem ruleMatcher_raises (hresolved : g.Resolved) (hbodies : g.CaptureFree) (depth : Nat)
    {name : String} (hname : g.hasRule name = true) :
    (g.ruleMatcher depth name).Raises (· = .endlessNesting) := by
  induction depth generalizing name with
  | zero =>
    intro s fault herror
    simp only [ruleMatcher, hname, if_true] at herror
    cases herror
    rfl
  | succ depth ih =>
    obtain ⟨r, hrule⟩ := hasRule_iff.mp hname
    have hmem := mem_rules_of_rule? hrule
    rw [ruleMatcher_succ hrule]
    refine r.body.matcher_raises (fun next hnext => ?_) fun index hindex => ?_
    · exact ih (hresolved.hasRule_of_edge hmem hnext)
    · exact (Expr.not_contains_capture (hbodies r hmem) index hindex).elim

/-- A rule below which references nest no deeper than rules may be in use comes to an answer. -/
theorem Shallow.ruleMatcher_raises (hresolved : g.Resolved) (hbodies : g.CaptureFree)
    {depth : Nat} {name : String} (hname : g.hasRule name = true)
    (hshallow : g.Shallow depth name) : (g.ruleMatcher depth name).Raises fun _ => False := by
  induction depth generalizing name with
  | zero => exact hshallow.elim
  | succ depth ih =>
    obtain ⟨r, hrule⟩ := hasRule_iff.mp hname
    have hmem := mem_rules_of_rule? hrule
    rw [ruleMatcher_succ hrule]
    refine r.body.matcher_raises (fun next hnext => ?_) fun index hindex => ?_
    · exact ih (hresolved.hasRule_of_edge hmem hnext) (hshallow next ⟨r, hrule, hnext⟩)
    · exact Expr.not_contains_capture (hbodies r hmem) index hindex

/-- Where no circle of references can be reached, matching comes to an answer. -/
theorem exists_answer_of_acyclic (hresolved : g.Resolved) (hbodies : g.CaptureFree) {e : Expr W}
    (hplain : e.hasCaptures = false) (hrefs : ∀ name ∈ e.references, g.hasRule name = true)
    (hacyclic : ∀ name ∈ e.references, ¬ g.CycleBelow name) (s : List Char) :
    ∃ answer, g.matcher e s = .ok answer := by
  have hraises : (e.matcher (g.ruleMatcher g.rules.length)).Raises fun _ => False := by
    refine e.matcher_raises (fun name hname => ?_) fun index hindex => ?_
    · exact Shallow.ruleMatcher_raises hresolved hbodies (hrefs name hname)
        (shallow_of_acyclic hresolved (hrefs name hname) (hacyclic name hname))
    · exact Expr.not_contains_capture hplain index hindex
  obtain ⟨answer, hanswer⟩ := hraises.exists_answer s
  exact ⟨answer, matcher_of_ruleMatcher hanswer⟩

/-- Where no circle can be reached from a rule, matching against its body comes to an answer. -/
theorem exists_answer_of_rule (hresolved : g.Resolved) (hbodies : g.CaptureFree) {name : String}
    {r : Rule W} (hrule : g.rule? name = some r) (hacyclic : ¬ g.CycleBelow name) (text : String) :
    ∃ answer, g.match? r.body text = .ok answer := by
  have hmem := mem_rules_of_rule? hrule
  refine exists_answer_of_acyclic hresolved hbodies (hbodies r hmem) ?_ ?_ text.toList
  · exact fun next hedge => hresolved.hasRule_of_edge hmem hedge
  · exact fun next hedge hcycle => hacyclic (hcycle.of_refers ⟨r, hrule, hedge⟩)

/-- Where no circle can be reached from a rule, matching against its body finds exactly its
    texts. -/
theorem exists_match?_iff (hresolved : g.Resolved) (hbodies : g.CaptureFree) {name : String}
    {r : Rule W} (hrule : g.rule? name = some r) (hacyclic : ¬ g.CycleBelow name) (w : String) :
    (∃ lengths, g.match? r.body w = .ok (some lengths)) ↔ w.toList ∈ g.language (.ref name) := by
  obtain ⟨answer, hanswer⟩ := exists_answer_of_rule hresolved hbodies hrule hacyclic w
  rw [language_ref hrule, ← isSome_iff_mem_language hanswer, hanswer, Option.isSome_iff_exists]
  simp only [Except.ok.injEq]

/-- Matching is correct. An answer tells whether the text belongs to the language of the expression,
    and its segments are the pieces of a derivation. No answer comes about only where none would,
    however many rules were in use, and never where no circle of references can be reached. -/
theorem match?_recognizes_language (hresolved : g.Resolved) (hbodies : g.CaptureFree) (e : Expr W)
    (hplain : e.hasCaptures = false) (hrefs : ∀ name ∈ e.references, g.hasRule name = true)
    (text : String) :
    (∀ answer, g.match? e text = .ok answer →
      (answer.isSome = true ↔ text.toList ∈ g.language e) ∧
      ∀ lengths, answer = some lengths →
        ∃ pieces, g.Derives e pieces ∧ pieces.flatten = text.toList ∧
          pieces.map List.length = lengths) ∧
    (∀ fault, g.match? e text = .error fault →
      ∀ depth, e.matcher (g.ruleMatcher depth) text.toList = .error .endlessNesting) ∧
    ((∀ name ∈ e.references, ¬ g.CycleBelow name) → ∃ answer, g.match? e text = .ok answer) := by
  have hdecides : (e.matcher (g.ruleMatcher (g.nestingBound text.toList.length))).Decides
      (g.Derives e) := e.matcher_decides (ruleMatcher_decides _)
  refine ⟨fun answer hanswer => ?_, fun fault herror depth => ?_, fun hacyclic => ?_⟩
  · cases answer with
    | none =>
      refine ⟨⟨nofun, ?_⟩, nofun⟩
      intro h
      obtain ⟨pieces, hderives, hflatten⟩ := h
      refine (hdecides.complete pieces ?_ hderives).elim
      rw [hflatten]
      exact hanswer
    | some lengths =>
      obtain ⟨pieces, hderives, hpieces⟩ := hdecides.sound _ _ hanswer
      refine ⟨⟨fun _ => ⟨pieces, hderives, hpieces.1⟩, fun _ => rfl⟩, ?_⟩
      intro lengths' heq
      cases heq
      exact ⟨pieces, hderives, hpieces⟩
  · cases hdepth : e.matcher (g.ruleMatcher depth) text.toList with
    | ok answer =>
      have hanswer : g.match? e text = .ok answer := matcher_of_ruleMatcher hdepth
      rw [herror] at hanswer
      cases hanswer
    | error fault' =>
      have hraises : (e.matcher (g.ruleMatcher depth)).Raises (· = .endlessNesting) := by
        refine e.matcher_raises (fun name hname => ?_) fun index hindex => ?_
        · exact ruleMatcher_raises hresolved hbodies depth (hrefs name hname)
        · exact (Expr.not_contains_capture hplain index hindex).elim
      rw [hraises _ _ hdepth]
  · exact exists_answer_of_acyclic hresolved hbodies hplain hrefs hacyclic text.toList

/-- A rule that refers to itself, though only behind a character. -/
def trailing : Grammar Nat where
  rules := [⟨"A", .choice [⟨.seq [.atom "a", .ref "A"], 1⟩, ⟨.atom "b", 1⟩], [], []⟩]
  root := "A"
  useWeights := false

theorem match?_recognizes_trailing :
    trailing.Resolved ∧ trailing.CaptureFree ∧ (.ref "A" : Expr Nat).hasCaptures = false ∧
      (∀ name ∈ (.ref "A" : Expr Nat).references, trailing.hasRule name = true) ∧
      trailing.match? (.ref "A") "aab" = .ok (some [1, 1, 1]) ∧
      "aab".toList ∈ trailing.language (.ref "A") := by
  have hresolved : trailing.Resolved := by decide
  have hbodies : trailing.CaptureFree := by decide
  have hrefs : ∀ name ∈ (.ref "A" : Expr Nat).references, trailing.hasRule name = true := by decide
  have hmatch : trailing.match? (.ref "A") "aab" = .ok (some [1, 1, 1]) := by rfl
  refine ⟨hresolved, hbodies, rfl, hrefs, hmatch, ?_⟩
  exact (((match?_recognizes_language hresolved hbodies _ rfl hrefs "aab").1 _ hmatch).1).mp rfl

end Grammar

end WordGrammar
