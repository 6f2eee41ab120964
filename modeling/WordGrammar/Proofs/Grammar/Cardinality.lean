import Mathlib.Algebra.Order.BigOperators.Group.Finset
import Mathlib.Data.Finset.Union
import WordGrammar.Proofs.Grammar.Count
import WordGrammar.Proofs.Grammar.Language

namespace WordGrammar

namespace Language

/-- The language has no more than `n` texts. -/
def AtMost (L : Language Char) (n : Nat) : Prop :=
  ∃ texts : Finset (List Char), texts.card ≤ n ∧ ∀ s ∈ L, s ∈ texts

variable {L M : Language Char} {m n : Nat}

namespace AtMost

theorem empty (hempty : ∀ s, s ∉ L) (n : Nat) : AtMost L n :=
  ⟨∅, Nat.zero_le _, fun s hs => (hempty s hs).elim⟩

theorem one {text : List Char} (htext : ∀ s ∈ L, s = text) : AtMost L 1 :=
  ⟨{text}, by simp, fun s hs => by simpa using htext s hs⟩

theorem subset (hM : AtMost M n) (hsub : ∀ s ∈ L, s ∈ M) : AtMost L n := by
  obtain ⟨texts, hcard, hmem⟩ := hM
  exact ⟨texts, hcard, fun s hs => hmem s (hsub s hs)⟩

theorem union (hL : AtMost L m) (hM : AtMost M n) : AtMost (L + M) (m + n) := by
  obtain ⟨front, hfront, hL⟩ := hL
  obtain ⟨back, hback, hM⟩ := hM
  refine ⟨front ∪ back, (Finset.card_union_le _ _).trans (Nat.add_le_add hfront hback), ?_⟩
  intro s hs
  rw [Finset.mem_union]
  rcases (Language.mem_add L M s).mp hs with hs | hs
  · exact .inl (hL s hs)
  · exact .inr (hM s hs)

/-- Texts that each come of one of the indices are as many as these give together. -/
theorem sum {ι : Type} [DecidableEq ι] {indices : Finset ι} {K : ι → Language Char}
    {count : ι → Nat} (hK : ∀ i ∈ indices, AtMost (K i) (count i))
    (hL : ∀ s ∈ L, ∃ i ∈ indices, s ∈ K i) :
    AtMost L (∑ i ∈ indices, count i) := by
  choose! texts hcard hmem using hK
  refine ⟨indices.biUnion texts, ?_, fun s hs => ?_⟩
  · exact Finset.card_biUnion_le.trans (Finset.sum_le_sum hcard)
  · obtain ⟨i, hi, hs⟩ := hL s hs
    exact Finset.mem_biUnion.mpr ⟨i, hi, hmem i hi s hs⟩

/-- Where each of so many texts leads to so many others, there are as many as the product. -/
theorem mul {K : List Char → Language Char} (hM : AtMost M m) (hK : ∀ t ∈ M, AtMost (K t) n)
    (hL : ∀ s ∈ L, ∃ t ∈ M, s ∈ K t) : AtMost L (m * n) := by
  classical
  obtain ⟨fronts, hfronts, hM⟩ := hM
  choose! texts hcard hmem using hK
  refine ⟨{t ∈ fronts | t ∈ M}.biUnion texts, ?_, fun s hs => ?_⟩
  · have hfew : ({t ∈ fronts | t ∈ M} : Finset _).card ≤ m :=
      (Finset.card_filter_le _ _).trans hfronts
    refine (Finset.card_biUnion_le_card_mul _ _ n fun t ht => ?_).trans
      (Nat.mul_le_mul_right n hfew)
    exact hcard t (Finset.mem_filter.mp ht).2
  · obtain ⟨t, ht, hs⟩ := hL s hs
    exact Finset.mem_biUnion.mpr ⟨t, Finset.mem_filter.mpr ⟨hM t ht, ht⟩, hmem t ht s hs⟩

/-- Texts in two parts are no more than the product. -/
theorem append (hL : AtMost L m) (hM : AtMost M n) : AtMost (L * M) (m * n) := by
  refine hL.mul (K := fun front => {s | ∃ back ∈ M, front ++ back = s}) (fun front _ => ?_) ?_
  · obtain ⟨texts, hcard, hmem⟩ := hM
    refine ⟨texts.image (front ++ ·), Finset.card_image_le.trans hcard, fun s hs => ?_⟩
    obtain ⟨back, hback, rfl⟩ := hs
    exact Finset.mem_image_of_mem _ (hmem back hback)
  · exact fun s hs => Language.mem_mul.mp hs

/-- Texts that each come of one member of a list are as many as its members give together. -/
theorem sum_list {α : Type} {K : α → Language Char} {count : α → Nat} {as : List α}
    (hK : ∀ a ∈ as, AtMost (K a) (count a)) (hL : ∀ s ∈ L, ∃ a ∈ as, s ∈ K a) :
    AtMost L (as.map count).sum := by
  induction as generalizing L with
  | nil =>
    refine .empty (fun s hs => ?_) _
    obtain ⟨a, ha, -⟩ := hL s hs
    cases ha
  | cons a as ih =>
    obtain ⟨ha, hrest⟩ := List.forall_mem_cons.mp hK
    have hlater : AtMost {s | ∃ b ∈ as, s ∈ K b} (as.map count).sum := ih hrest fun s hs => hs
    rw [List.map_cons, List.sum_cons]
    refine (ha.union hlater).subset fun s hs => ?_
    obtain ⟨b, hb, hs⟩ := hL s hs
    cases hb with
    | head => exact .inl hs
    | tail _ hb => exact .inr ⟨b, hb, hs⟩

/-- Texts joined of one of each language are no more than the product. -/
theorem prod_list {α : Type} {K : α → Language Char} {count : α → Nat} {as : List α}
    (hK : ∀ a ∈ as, AtMost (K a) (count a)) : AtMost (as.map K).prod (as.map count).prod := by
  induction as with
  | nil => exact .one fun s hs => (Language.mem_one s).mp hs
  | cons a as ih =>
    obtain ⟨ha, hrest⟩ := List.forall_mem_cons.mp hK
    rw [List.map_cons, List.prod_cons, List.map_cons, List.prod_cons]
    exact ha.append (ih hrest)

theorem pow (hL : AtMost L m) (n : Nat) : AtMost (L ^ n) (m ^ n) := by
  induction n with
  | zero => exact .one fun s hs => (Language.mem_one s).mp hs
  | succ n ih =>
    rw [pow_succ', pow_succ']
    exact hL.append ih

/-- Different texts of the language are no more than it has. -/
theorem length_le (hL : AtMost L n) {texts : List (List Char)} (hnodup : texts.Nodup)
    (hmem : ∀ s ∈ texts, s ∈ L) : texts.length ≤ n := by
  obtain ⟨all, hcard, hall⟩ := hL
  rw [← List.toFinset_card_of_nodup hnodup]
  refine (Finset.card_le_card fun s hs => ?_).trans hcard
  exact hall s (hmem s (List.mem_toFinset.mp hs))

/-- A language of so many texts is finite. -/
theorem finite (hL : AtMost L n) : Set.Finite {s | s ∈ L} := by
  obtain ⟨texts, -, hmem⟩ := hL
  exact texts.finite_toSet.subset hmem

theorem not_mem_of_zero (hL : AtMost L 0) (s : List Char) : s ∉ L := by
  obtain ⟨texts, hcard, hmem⟩ := hL
  intro hs
  have hpositive := Finset.card_pos.mpr ⟨s, hmem s hs⟩
  omega

end AtMost

end Language

namespace Grammar

open WordGrammar.Language

variable {W : Type} {g : Grammar W} {e : Expr W} {n : Nat}

/-- An expression stands for no more texts than it has derivations. -/
theorem Counts.language_atMost (hcount : g.Counts e n) : AtMost (g.language e) n := by
  induction hcount with
  | atom text =>
    rw [language_atom]
    exact .one fun s hs => hs
  | ref hrule _ ih =>
    rw [language_ref hrule]
    exact ih
  | seq count _ ih =>
    rw [language_seq]
    exact .prod_list ih
  | choice count _ ih => exact .sum_list ih fun s hs => mem_language_choice.mp hs
  | repeated least most _ ih =>
    refine .sum (fun i _ => ih.pow i) fun s hs => ?_
    obtain ⟨i, hleast, hmost, hs⟩ := mem_language_repeated.mp hs
    exact ⟨i, Finset.mem_Icc.mpr ⟨hleast, hmost⟩, hs⟩

end Grammar

end WordGrammar
