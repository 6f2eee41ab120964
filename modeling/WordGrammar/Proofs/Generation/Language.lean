import WordGrammar.Proofs.Generation.Calls
import WordGrammar.Proofs.Generation.Fault
import WordGrammar.Proofs.Grammar.Language
import WordGrammar.Proofs.Grammar.Nesting

namespace WordGrammar

variable {W : Type} [Weight W] {g : Grammar W}

namespace Sampler

variable {p : Sampler (List Char)} {before : List Char} {L M : Language Char}

/-- The texts that some run of the sampler gives. -/
def texts (p : Sampler (List Char)) : Language Char :=
  {text | p.Ends (.ok text)}

theorem mem_texts {text : List Char} : text ∈ p.texts ↔ p.Ends (.ok text) :=
  Iff.rfl

theorem texts_done (text : List Char) : (done text).texts = {text} := by
  ext s
  rw [mem_texts, ends_done, Except.ok.injEq]
  exact Iff.rfl

theorem texts_stop (why : Stop) : (stop why : Sampler (List Char)).texts = 0 := by
  ext s
  rw [mem_texts, ends_stop]
  simp

/-- The runs of the sampler append the texts of a language to a text. -/
def Appends (p : Sampler (List Char)) (before : List Char) (L : Language Char) : Prop :=
  ∀ text, text ∈ p.texts ↔ ∃ more ∈ L, before ++ more = text

theorem Appends.texts_eq (happends : p.Appends [] L) : p.texts = L := by
  ext text
  rw [happends text]
  simp

theorem Appends.done (text : List Char) : (done text).Appends text 1 := by
  intro s
  simp [mem_texts, Language.mem_one, eq_comm]

/-- What the first step gives is appended before what the second one appends. -/
theorem Appends.bind {f : List Char → Sampler (List Char)}
    (hf : ∀ front, (f front).Appends (before ++ front) M) :
    (p >>= f).Appends before (p.texts * M) := by
  intro text
  rw [mem_texts, ends_bind_ok]
  constructor
  · intro h
    obtain ⟨front, hfront, hends⟩ := h
    obtain ⟨back, hback, htext⟩ := (hf front text).mp hends
    refine ⟨front ++ back, Language.append_mem_mul hfront hback, ?_⟩
    rw [← List.append_assoc, htext]
  · intro h
    obtain ⟨more, hmore, htext⟩ := h
    obtain ⟨front, hfront, back, hback, hsplit⟩ := Language.mem_mul.mp hmore
    refine ⟨front, hfront, (hf front text).mpr ⟨back, hback, ?_⟩⟩
    rw [List.append_assoc, hsplit, htext]

theorem Appends.times (n : Nat) : (p.times n before).Appends before (p.texts ^ n) := by
  induction n generalizing before with
  | zero => exact .done before
  | succ n ih =>
    rw [pow_succ']
    exact .bind fun front => ih

/-- Without weights, every position may be drawn. -/
theorem ends_position_iff {weights : List W} (hne : weights ≠ []) {k : Nat} :
    (position false weights).Ends (.ok k) ↔ k < weights.length := by
  constructor
  · exact lt_of_position hne
  · intro hk
    have hanswer : k < weights.length - 1 + 1 := by omega
    exact ends_bind_ok.mpr ⟨⟨k, hanswer⟩, .draw _ (.done _), .done _⟩

end Sampler

open Sampler

namespace Expr

variable {rule : String → Sampler (List Char)}

theorem expandItems_appends {items : List (Expr W)}
    (hitems : ∀ item ∈ items, (item.expand rule false none).texts = g.language item)
    (before : List Char) :
    (expandItems rule false none before items).Appends before (g.language (.seq items)) := by
  induction items generalizing before with
  | nil =>
    rw [Grammar.language_seq]
    exact .done before
  | cons item items ih =>
    obtain ⟨hitem, hrest⟩ := List.forall_mem_cons.mp hitems
    rw [Grammar.language_seq_cons, ← hitem]
    exact .bind fun front => ih hrest (before ++ front)

/-- Drawing an alternative gives what one of them gives. -/
theorem mem_texts_choice {alternatives : List (Weighted W (Expr W))} (hne : alternatives ≠ [])
    {text : List Char} :
    text ∈ ((choice alternatives).expand rule false none).texts ↔
      ∃ a ∈ alternatives, text ∈ (a.item.expand rule false none).texts := by
  have hweights : alternatives.map (·.weight) ≠ [] := by simpa using hne
  have hsome : ¬ alternatives.isEmpty = true := by simpa using hne
  rw [expand, if_neg hsome, mem_texts, ends_bind_ok]
  constructor
  · intro h
    obtain ⟨k, hk, hends⟩ := h
    rw [ends_position_iff hweights, List.length_map] at hk
    rw [expandAlternative_eq hk] at hends
    exact ⟨alternatives[k], List.getElem_mem hk, hends⟩
  · intro h
    obtain ⟨a, hmem, hends⟩ := h
    obtain ⟨k, hk, ha⟩ := List.getElem_of_mem hmem
    refine ⟨k, ?_, ?_⟩
    · rw [ends_position_iff hweights, List.length_map]
      exact hk
    · rw [expandAlternative_eq hk, ha]
      exact hends

/-- Repeating gives powers of what the body gives, for every number between the bounds. -/
theorem mem_texts_repeated {body : Expr W} {least most : Nat} {text : List Char} :
    text ∈ ((repeated body least most).expand rule false none).texts ↔
      ∃ n, least ≤ n ∧ n ≤ most ∧ text ∈ (body.expand rule false none).texts ^ n := by
  have hcopies (n : Nat) : (if n = 0 then Sampler.done []
      else (body.expand rule false none).times n []).texts =
        (body.expand rule false none).texts ^ n := by
    by_cases hzero : n = 0
    · rw [if_pos hzero, hzero]
      exact (Appends.done []).texts_eq
    · rw [if_neg hzero]
      exact (Appends.times n).texts_eq
  rw [expand]
  by_cases horder : most < least
  · rw [if_pos horder, texts_stop]
    constructor
    · intro hmem
      exact (Language.notMem_zero text hmem).elim
    · intro h
      obtain ⟨n, hleast, hmost, _⟩ := h
      omega
  · rw [if_neg horder, mem_texts, ends_bind_ok]
    constructor
    · intro h
      obtain ⟨more, _, hends⟩ := h
      have hmore := more.isLt
      rw [← mem_texts] at hends
      exact ⟨least + more.val, by omega, by omega, hcopies _ ▸ hends⟩
    · intro h
      obtain ⟨n, hleast, hmost, htext⟩ := h
      have hmore : n - least < most - least + 1 := by omega
      refine ⟨⟨n - least, hmore⟩, .draw _ (.done _), ?_⟩
      have hsum : least + (n - least) = n := by omega
      dsimp only
      rw [← hcopies] at htext
      rw [hsum]
      exact htext

/-- An expression can be expanded to the texts of its language and to no others, if the rules that
    it refers to make the words of theirs. A choice without alternatives would give a text where its
    language has none. -/
theorem texts_expand (e : Expr W)
    (hrule : ∀ name, e.Contains (.ref name) → (rule name).texts = g.language (.ref name))
    (hchoices : ¬ e.Contains (.choice [])) :
    (e.expand rule false none).texts = g.language e := by
  induction e with
  | atom text =>
    rw [Grammar.language_atom]
    exact texts_done text.toList
  | ref name => exact hrule name (.self _)
  | capture index =>
    ext text
    constructor
    · intro hends
      cases hends
    · intro h
      obtain ⟨pieces, hderives, _⟩ := h
      cases hderives
  | seq items ih =>
    refine (expandItems_appends (fun item hmem => ih item hmem ?_ ?_) []).texts_eq
    · exact fun name hname => hrule name (.item hmem hname)
    · exact fun hempty => hchoices (.item hmem hempty)
  | choice alternatives ih =>
    have hne : alternatives ≠ [] := by
      intro hnil
      rw [hnil] at hchoices
      exact hchoices (.self _)
    have halternatives : ∀ a ∈ alternatives,
        (a.item.expand rule false none).texts = g.language a.item := by
      intro a hmem
      apply ih a hmem
      · exact fun name hname => hrule name (.alternative hmem hname)
      · exact fun hempty => hchoices (.alternative hmem hempty)
    ext text
    rw [mem_texts_choice hne, Grammar.mem_language_choice]
    constructor
    · intro h
      obtain ⟨a, hmem, htext⟩ := h
      exact ⟨a, hmem, halternatives a hmem ▸ htext⟩
    · intro h
      obtain ⟨a, hmem, htext⟩ := h
      exact ⟨a, hmem, (halternatives a hmem).symm ▸ htext⟩
  | repeated body least most ih =>
    have hbody : (body.expand rule false none).texts = g.language body := by
      apply ih
      · exact fun name hname => hrule name (.body hname)
      · exact fun hempty => hchoices (.body hempty)
    ext text
    rw [mem_texts_repeated, Grammar.mem_language_repeated, hbody]

end Expr

/-- The rule only derives words: it neither substitutes nor excludes, and always has a choice. -/
structure Rule.Plain (r : Rule W) : Prop where
  substitutions : r.substitutions = []
  exclusions : r.exclusions = []
  choices : ¬ r.body.Contains (.choice [])

namespace Grammar

/-- The first attempt of a rule that excludes nothing is its word. -/
theorem tryWord_of_plain {rule : String → Sampler (List Char)} {r : Rule W} (hplain : r.Plain)
    (left : Nat) : g.tryWord rule r (left + 1) = r.body.expand rule g.useWeights none := by
  have hattempt : g.attempt rule r = r.body.expand rule g.useWeights none := by
    rw [attempt, hplain.substitutions]
    exact Sampler.bind_done _
  rw [tryWord_of_exclusions_nil hplain.exclusions, hattempt]

theorem ruleWord_of_plain {name : String} {r : Rule W} (hrule : g.rule? name = some r)
    (hplain : r.Plain) (depth : Nat) :
    g.ruleWord (depth + 1) name = r.body.expand (g.ruleWord depth) g.useWeights none := by
  simp only [ruleWord, hrule]
  exact tryWord_of_plain hplain (maxAttempts - 1)

/-- Where only plain rules are reached, and references nest no deeper than rules may be under way, a
    rule makes the words of its language. -/
theorem Shallow.texts_ruleWord (hweights : g.useWeights = false) (hresolved : g.Resolved)
    {depth : Nat} {name : String} (hname : g.hasRule name = true)
    (hplain : ∀ next, Relation.ReflTransGen g.Refers name next →
      ∀ r, g.rule? next = some r → r.Plain)
    (hshallow : g.Shallow depth name) :
    (g.ruleWord depth name).texts = g.language (.ref name) := by
  induction depth generalizing name with
  | zero => exact hshallow.elim
  | succ depth ih =>
    obtain ⟨r, hrule⟩ := hasRule_iff.mp hname
    have hr := hplain name .refl r hrule
    rw [ruleWord_of_plain hrule hr, hweights, language_ref hrule]
    refine r.body.texts_expand (fun next hnext => ?_) hr.choices
    have hrefers : g.Refers name next := ⟨r, hrule, Expr.mem_references_iff.mpr hnext⟩
    apply ih (hresolved.hasRule_of_refers hrefers)
    · exact fun later hreach => hplain later (.head hrefers hreach)
    · exact hshallow next hrefers

/-- The words of a grammar whose root leads to plain rules only, and to no circle. -/
theorem ends_word_iff (hweights : g.useWeights = false) (hresolved : g.Resolved)
    (hroot : g.hasRule g.root = true)
    (hplain : ∀ name, Relation.ReflTransGen g.Refers g.root name →
      ∀ r, g.rule? name = some r → r.Plain)
    (hacyclic : ¬ g.CycleBelow g.root) (w : String) :
    g.word.Ends (.ok w) ↔ w.toList ∈ g.language (.ref g.root) := by
  have hshallow : g.Shallow g.depthLimit g.root :=
    (shallow_of_acyclic hresolved hroot hacyclic).mono (Nat.le_add_right ..)
  rw [← hshallow.texts_ruleWord hweights hresolved hroot hplain, Sampler.mem_texts, word,
    if_pos hroot, map_eq_pure_bind, Sampler.ends_bind_ok]
  constructor
  · intro h
    obtain ⟨text, htext, hdone⟩ := h
    cases hdone
    rw [String.toList_ofList]
    exact htext
  · intro htext
    refine ⟨w.toList, htext, ?_⟩
    rw [String.ofList_toList]
    exact .done w

end Grammar

end WordGrammar
