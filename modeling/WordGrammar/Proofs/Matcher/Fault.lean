import WordGrammar.Matcher.Grammar
import WordGrammar.Proofs.Expr.Contains
import WordGrammar.Proofs.Matcher.Search

namespace WordGrammar

namespace Matcher

open Search

/-- Whatever fault matching ends in, it is one of these. -/
def Raises (p : Matcher) (F : Fault → Prop) : Prop :=
  ∀ s fault, p s = .error fault → F fault

variable {p q : Matcher} {F : Fault → Prop}

theorem Raises.literal (text : List Char) : (literal text).Raises F := by
  intro s fault herror
  cases herror

theorem Raises.empty : empty.Raises F := by
  intro s fault herror
  cases herror

theorem Raises.andThen (hp : p.Raises F) (hq : q.Raises F) : (andThen p q).Raises F := by
  intro s fault herror
  rw [andThen_eq] at herror
  obtain ⟨k, _, htrial⟩ := exists_of_error herror
  rcases trial_eq_error htrial with hfront | hback
  · exact hp _ _ hfront
  · exact hq _ _ hback

theorem Raises.inOrder {ps : List Matcher} (hps : ∀ p ∈ ps, p.Raises F) :
    (inOrder ps).Raises F := by
  induction ps with
  | nil => exact Raises.empty
  | cons p ps ih =>
    obtain ⟨hp, hrest⟩ := List.forall_mem_cons.mp hps
    exact hp.andThen (ih hrest)

theorem Raises.firstOf {ps : List Matcher} (hps : ∀ p ∈ ps, p.Raises F) :
    (firstOf ps).Raises F := by
  intro s fault herror
  obtain ⟨p, hmem, hp⟩ := exists_of_error herror
  exact hps p hmem s fault hp

theorem Raises.copies (hp : p.Raises F) (n : Nat) : (copies p n).Raises F := by
  induction n with
  | zero => exact Raises.empty
  | succ n ih => exact hp.andThen ih

theorem Raises.repeated (hp : p.Raises F) (least most : Nat) :
    (repeated p least most).Raises F := by
  intro s fault herror
  obtain ⟨n, _, hn⟩ := exists_of_error herror
  exact hp.copies n s fault hn

/-- A matcher with no possible fault comes to an answer. -/
theorem Raises.exists_answer (hp : p.Raises fun _ => False) (s : List Char) :
    ∃ answer, p s = .ok answer := by
  cases hanswer : p s with
  | error fault => exact (hp s fault hanswer).elim
  | ok answer => exact ⟨answer, rfl⟩

theorem Raises.hit? (hp : p.Raises F) {s : List Char} {fault : Fault}
    (herror : p.hit? s = .error fault) : F fault := by
  obtain ⟨k, _, hk⟩ := exists_of_error herror
  rcases Outcome.bind_eq_error_iff.mp hk with hfault | ⟨_, _, hdone⟩
  · exact hp _ _ hfault
  · cases hdone

theorem Raises.find? (hp : p.Raises F) {s : List Char} {fault : Fault}
    (herror : p.find? s = .error fault) : F fault := by
  obtain ⟨start, _, hstart⟩ := exists_of_error herror
  rcases Outcome.bind_eq_error_iff.mp hstart with hfault | ⟨_, _, hdone⟩
  · exact hp.hit? hfault
  · cases hdone

end Matcher

variable {W : Type}

theorem Expr.matcher_raises {rule : String → Matcher} {F : Fault → Prop} (e : Expr W)
    (hrule : ∀ name ∈ e.references, (rule name).Raises F)
    (hcapture : ∀ index, e.Contains (.capture index) → F (.captureMatched index)) :
    (e.matcher rule).Raises F := by
  induction e with
  | atom text => exact Matcher.Raises.literal text.toList
  | ref name => exact hrule name (by simp)
  | capture index =>
    intro s fault herror
    cases herror
    exact hcapture index (.self _)
  | seq items ih =>
    rw [matcher_seq]
    refine Matcher.Raises.inOrder fun p hp => ?_
    obtain ⟨item, hmem, rfl⟩ := List.mem_map.mp hp
    refine ih item hmem (fun name hname => hrule name ?_) fun index hindex =>
      hcapture index (.item hmem hindex)
    rw [references_seq]
    exact List.mem_flatMap.mpr ⟨item, hmem, hname⟩
  | choice alternatives ih =>
    rw [matcher_choice]
    refine Matcher.Raises.firstOf fun p hp => ?_
    obtain ⟨a, hmem, rfl⟩ := List.mem_map.mp hp
    refine ih a hmem (fun name hname => hrule name ?_) fun index hindex =>
      hcapture index (.alternative hmem hindex)
    rw [references_choice]
    exact List.mem_flatMap.mpr ⟨a, hmem, hname⟩
  | repeated body least most ih =>
    exact (ih hrule fun index hindex => hcapture index (.body hindex)).repeated least most

theorem Grammar.occursAny_raises {g : Grammar W} {es : List (Expr W)} {F : Fault → Prop}
    (hes : ∀ e ∈ es, (g.matcher e).Raises F) {s : List Char} {fault : Fault}
    (herror : g.occursAny es s = .error fault) : F fault := by
  induction es with
  | nil => cases herror
  | cons e es ih =>
    obtain ⟨he, hrest⟩ := List.forall_mem_cons.mp hes
    rcases Outcome.bind_eq_error_iff.mp herror with hfirst | ⟨found, -, hlater⟩
    · exact he.find? hfirst
    · cases found with
      | some o => cases hlater
      | none => exact ih hrest hlater

end WordGrammar
