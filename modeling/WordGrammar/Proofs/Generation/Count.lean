import WordGrammar.Proofs.Generation.Language
import WordGrammar.Proofs.Grammar.Cardinality

namespace WordGrammar

variable {W : Type}

namespace Expr

/-- The expression stands for one text, once it is known what has been captured: it refers to no
    rule, and leaves nothing to be drawn. -/
structure Settled (e : Expr W) : Prop where
  references : ∀ name, ¬ e.Contains (.ref name)
  choices : ∀ alternatives, e.Contains (.choice alternatives) → alternatives.length ≤ 1
  bounds : ∀ body least most, e.Contains (.repeated body least most) → least = most

theorem Settled.of_contains {e x : Expr W} (hsettled : e.Settled) (hcontains : e.Contains x) :
    x.Settled where
  references name hname := hsettled.references name (hcontains.trans hname)
  choices alternatives hchoice := hsettled.choices alternatives (hcontains.trans hchoice)
  bounds body least most hbody := hsettled.bounds body least most (hcontains.trans hbody)

end Expr

open Sampler
open WordGrammar.Language

variable [Weight W] {g : Grammar W} {m n : Nat}

namespace Sampler

variable {p : Sampler (List Char)} {f : List Char → Sampler (List Char)}

theorem atMost_done (text : List Char) : AtMost (done text).texts 1 := by
  apply AtMost.one
  intro s hs
  rw [texts_done] at hs
  exact hs

theorem atMost_stop (why : Stop) (n : Nat) : AtMost (stop why : Sampler (List Char)).texts n := by
  apply AtMost.empty
  rw [texts_stop]
  exact Language.notMem_zero

theorem atMost_bind (hp : AtMost p.texts m) (hf : ∀ text ∈ p.texts, AtMost (f text).texts n) :
    AtMost (p >>= f).texts (m * n) :=
  hp.mul hf fun _ hs => ends_bind_ok.mp hs

theorem atMost_note {event : Event} (hp : AtMost p.texts n) : AtMost (note event p).texts n :=
  hp.subset fun _ hs => ends_note.mp hs

theorem atMost_times (hp : AtMost p.texts m) (n : Nat) (text : List Char) :
    AtMost (p.times n text).texts (m ^ n) := by
  induction n generalizing text with
  | zero => exact atMost_done text
  | succ n ih =>
    rw [pow_succ']
    exact atMost_bind hp fun more _ => ih (text ++ more)

end Sampler

namespace Expr

variable {rule : String → Sampler (List Char)} {useWeights : Bool}
  {captures : Option (List (List Char))}

theorem expandItems_atMost {items : List (Expr W)} {count : Expr W → Nat}
    (hitems : ∀ item ∈ items, AtMost (item.expand rule useWeights captures).texts (count item))
    (text : List Char) :
    AtMost (expandItems rule useWeights captures text items).texts (items.map count).prod := by
  induction items generalizing text with
  | nil => exact atMost_done text
  | cons item items ih =>
    obtain ⟨hitem, hrest⟩ := List.forall_mem_cons.mp hitems
    rw [List.map_cons, List.prod_cons]
    exact atMost_bind hitem fun more _ => ih hrest (text ++ more)

/-- A choice gives what one of its alternatives gives, whichever weights are used. -/
theorem exists_of_mem_texts_choice {alternatives : List (Weighted W (Expr W))}
    (hne : alternatives ≠ []) {text : List Char}
    (htext : text ∈ ((choice alternatives).expand rule useWeights captures).texts) :
    ∃ a ∈ alternatives, text ∈ (a.item.expand rule useWeights captures).texts := by
  have hsome : ¬ alternatives.isEmpty = true := by simpa using hne
  have hweights : alternatives.map (·.weight) ≠ [] := by simpa using hne
  rw [expand, if_neg hsome, mem_texts] at htext
  obtain ⟨k, hk, hends⟩ := ends_bind_ok.mp htext
  have hlt : k < alternatives.length := by simpa using lt_of_position hweights hk
  rw [expandAlternative_eq hlt] at hends
  exact ⟨alternatives[k], List.getElem_mem hlt, hends⟩

theorem choice_atMost {alternatives : List (Weighted W (Expr W))}
    {count : Weighted W (Expr W) → Nat} (hne : alternatives ≠ [])
    (halternatives : ∀ a ∈ alternatives,
      AtMost (a.item.expand rule useWeights captures).texts (count a)) :
    AtMost ((choice alternatives).expand rule useWeights captures).texts
      (alternatives.map count).sum :=
  .sum_list halternatives fun _ => exists_of_mem_texts_choice hne

theorem repeated_atMost {body : Expr W} (least most : Nat)
    (hbody : AtMost (body.expand rule useWeights captures).texts n) :
    AtMost ((repeated body least most).expand rule useWeights captures).texts
      (∑ i ∈ Finset.Icc least most, n ^ i) := by
  have htimes : ∀ i ∈ Finset.Icc least most,
      AtMost ((body.expand rule useWeights captures).times i []).texts (n ^ i) :=
    fun i _ => atMost_times hbody i []
  refine .sum htimes fun text htext => ?_
  rw [expand, mem_texts] at htext
  split at htext
  · cases htext
  · rename_i hle
    obtain ⟨more, -, hends⟩ := ends_bind_ok.mp htext
    have hmore := more.isLt
    refine ⟨least + more.val, Finset.mem_Icc.mpr ⟨by omega, by omega⟩, ?_⟩
    split at hends
    · rename_i hzero
      rw [hzero]
      exact hends
    · exact hends

/-- Expanding gives no more texts than there are derivations, if the rules referred to do not. An
    empty choice would give a text without having a derivation. -/
theorem expand_atMost {e : Expr W} (hcount : g.Counts e n)
    (hrule : ∀ name m, e.Contains (.ref name) → g.Counts (.ref name) m → AtMost (rule name).texts m)
    (hchoices : ¬ e.Contains (.choice [])) :
    AtMost (e.expand rule useWeights captures).texts n := by
  induction hcount with
  | atom text => exact atMost_done text.toList
  | ref hfound hbody _ => exact hrule _ _ (.self _) (.ref hfound hbody)
  | seq count _ ih =>
    refine expandItems_atMost (fun item hmem => ih item hmem ?_ ?_) []
    · exact fun name m hname => hrule name m (.item hmem hname)
    · exact fun hempty => hchoices (.item hmem hempty)
  | @choice alternatives count _ ih =>
    have hne : alternatives ≠ [] := by
      rintro rfl
      exact hchoices (.self _)
    refine choice_atMost hne fun a hmem => ih a hmem ?_ ?_
    · exact fun name m hname => hrule name m (.alternative hmem hname)
    · exact fun hempty => hchoices (.alternative hmem hempty)
  | repeated least most _ ih =>
    refine repeated_atMost least most (ih ?_ ?_)
    · exact fun name m hname => hrule name m (.body hname)
    · exact fun hempty => hchoices (.body hempty)

theorem captured_atMost (index : Nat) : AtMost (captured captures index).texts 1 := by
  unfold captured
  split
  · exact atMost_stop _ 1
  · split
    · exact atMost_done _
    · exact atMost_stop _ 1

theorem Settled.expand_atMost {e : Expr W} (hsettled : e.Settled) :
    AtMost (e.expand rule useWeights captures).texts 1 := by
  induction e with
  | atom text => exact atMost_done text.toList
  | ref name => exact (hsettled.references name (.self _)).elim
  | capture index => exact captured_atMost index
  | seq items ih =>
    have hitems : ∀ item ∈ items, AtMost (item.expand rule useWeights captures).texts 1 :=
      fun item hmem => ih item hmem (hsettled.of_contains (.item hmem (.self _)))
    have hproduct := expandItems_atMost hitems []
    rw [List.map_const', List.prod_replicate, one_pow] at hproduct
    exact hproduct
  | choice alternatives ih =>
    have hitems : ∀ a ∈ alternatives, AtMost (a.item.expand rule useWeights captures).texts 1 :=
      fun a hmem => ih a hmem (hsettled.of_contains (.alternative hmem (.self _)))
    match alternatives, hsettled.choices alternatives (.self _) with
    | [], _ => exact atMost_done []
    | [a], _ => simpa using choice_atMost (List.cons_ne_nil a []) hitems
  | repeated body least most ih =>
    obtain rfl := hsettled.bounds body least most (.self _)
    have hbody := ih (hsettled.of_contains (.body (.self _)))
    simpa using repeated_atMost least least hbody

end Expr

/-- The substitutions and exclusions of the rule only merge or drop the words that its body makes:
    each replacement is settled. Its body always has a choice. -/
structure Rule.Merging (r : Rule W) : Prop where
  replacements : ∀ s ∈ r.substitutions, s.replacement.Settled
  choices : ¬ r.body.Contains (.choice [])

namespace Grammar

variable {rule : String → Sampler (List Char)}

/-- A settled replacement takes every text to one, and so keeps to the number of words. -/
theorem substituteFrom_atMost {s : Substitution W} (hsettled : s.replacement.Settled)
    (name : String) (text : List Char) (position : Nat) :
    AtMost (g.substituteFrom rule name s text position).texts 1 := by
  generalize hmeasure : text.length - position = left
  induction left using Nat.strongRecOn generalizing text position with
  | ind left ih =>
    rw [substituteFrom]
    split
    · rename_i hposition
      split
      · exact atMost_stop _ 1
      · exact ih _ (by omega) text (position + 1) rfl
      · rename_i hit hhit
        refine atMost_bind (n := 1) hsettled.expand_atMost fun replacement _ => ?_
        refine atMost_note (ih _ ?_ _ _ rfl)
        simp only [List.length_append, List.length_take, List.length_drop, Hit.length]
        omega
    · exact atMost_done text

theorem substituteAll_atMost {substitutions : List (Substitution W)}
    (hsettled : ∀ s ∈ substitutions, s.replacement.Settled) (name : String) (text : List Char) :
    AtMost (g.substituteAll rule name substitutions text).texts 1 := by
  induction substitutions generalizing text with
  | nil => exact atMost_done text
  | cons s substitutions ih =>
    obtain ⟨hs, hrest⟩ := List.forall_mem_cons.mp hsettled
    exact atMost_bind (n := 1) (substituteFrom_atMost hs name text 0) fun text' _ => ih hrest text'

/-- A word of a rule is one of its attempts. -/
theorem mem_texts_attempt {r : Rule W} {left : Nat} {text : List Char}
    (htext : text ∈ (g.tryWord rule r left).texts) : text ∈ (g.attempt rule r).texts := by
  induction left with
  | zero => cases ends_note.mp htext
  | succ left ih =>
    obtain ⟨tried, htried, hrest⟩ := ends_bind_ok.mp htext
    obtain ⟨excluded, -, hrest⟩ := ends_bind_ok.mp hrest
    cases excluded with
    | true => exact ih (ends_note.mp hrest)
    | false =>
      obtain rfl := Except.ok.inj (ends_done.mp hrest)
      exact htried

/-- A rule makes no more words than it has derivations, where the rules that it leads to only merge
    or drop words. -/
theorem ruleWord_atMost {depth : Nat} {name : String} (hcount : g.Counts (.ref name) n)
    (hrules : ∀ next, Relation.ReflTransGen g.Refers name next →
      ∀ r, g.rule? next = some r → r.Merging) :
    AtMost (g.ruleWord depth name).texts n := by
  induction depth generalizing name n with
  | zero => exact atMost_stop _ n
  | succ depth ih =>
    cases hrule : g.rule? name with
    | none =>
      simp only [ruleWord, hrule]
      exact atMost_stop _ n
    | some r =>
      have hr := hrules name .refl r hrule
      have hbody : AtMost (r.body.expand (g.ruleWord depth) g.useWeights none).texts n := by
        refine Expr.expand_atMost ((counts_ref hrule).mp hcount) ?_ hr.choices
        intro next m hnext hm
        have hrefers : g.Refers name next := ⟨r, hrule, Expr.mem_references_iff.mpr hnext⟩
        exact ih hm fun later hreach => hrules later (.head hrefers hreach)
      have hattempt : AtMost (g.attempt (g.ruleWord depth) r).texts n := by
        rw [← Nat.mul_one n]
        exact atMost_bind hbody fun text _ => substituteAll_atMost hr.replacements r.name text
      simp only [ruleWord, hrule]
      exact hattempt.subset fun text => mem_texts_attempt

/-- Different words of a grammar are no more than its root has derivations, where the root leads to
    rules only that merge or drop words. -/
theorem length_le_of_ends_word (hcount : g.Counts (.ref g.root) n)
    (hrules : ∀ name, Relation.ReflTransGen g.Refers g.root name →
      ∀ r, g.rule? name = some r → r.Merging)
    {words : List String} (hnodup : words.Nodup) (hwords : ∀ w ∈ words, g.word.Ends (.ok w)) :
    words.length ≤ n := by
  have htexts : ∀ text ∈ words.map String.toList,
      text ∈ (g.ruleWord g.depthLimit g.root).texts := by
    intro text hmem
    obtain ⟨w, hw, rfl⟩ := List.mem_map.mp hmem
    have hends := hwords w hw
    unfold word at hends
    split at hends
    · rw [map_eq_pure_bind] at hends
      obtain ⟨text, htext, hdone⟩ := ends_bind_ok.mp hends
      cases hdone
      rw [String.toList_ofList]
      exact htext
    · cases hends
  have hnodup' : (words.map String.toList).Nodup :=
    hnodup.map fun v w heq => String.toList_inj.mp heq
  simpa using (ruleWord_atMost hcount hrules).length_le hnodup' htexts

end Grammar

end WordGrammar
