import Mathlib.Data.Finset.Prod
import Mathlib.Data.Nat.Find
import WordGrammar.Proofs.Grammar.Nesting
import WordGrammar.Proofs.Matcher.Fault

namespace WordGrammar

namespace Matcher

open Search

/-- On every stretch of `s`, `q` comes to what `p` comes to, unless `p` has too few rules in use. -/
def Extends (p q : Matcher) (s : List Char) : Prop :=
  ∀ t, t <:+: s → p t ≠ .error .endlessNesting → q t = p t

variable {p p' p'' q q' : Matcher} {s t : List Char}

theorem Extends.refl (p : Matcher) (s : List Char) : Extends p p s :=
  fun _ _ _ => rfl

theorem Extends.trans (hp : Extends p p' s) (hp' : Extends p' p'' s) : Extends p p'' s := by
  intro t ht hne
  have heq := hp t ht hne
  rw [hp' t ht (heq ▸ hne), heq]

theorem Extends.andThen (hp : Extends p p' s) (hq : Extends q q' s) :
    Extends (andThen p q) (andThen p' q') s := by
  intro t ht hne
  rw [andThen_eq] at hne ⊢
  refine findSomeM?_eq (fun k _ htrial => trial_congr ?_ ?_ htrial) hne
  · exact hp _ ((List.take_prefix k t).isInfix.trans ht)
  · exact hq _ ((List.drop_suffix k t).isInfix.trans ht)

theorem Extends.inOrder {α : Type} {f f' : α → Matcher} {as : List α}
    (hf : ∀ a ∈ as, Extends (f a) (f' a) s) :
    Extends (inOrder (as.map f)) (inOrder (as.map f')) s := by
  induction as with
  | nil => exact .refl _ s
  | cons a as ih =>
    obtain ⟨ha, hrest⟩ := List.forall_mem_cons.mp hf
    exact ha.andThen (ih hrest)

theorem Extends.firstOf {α : Type} {f f' : α → Matcher} {as : List α}
    (hf : ∀ a ∈ as, Extends (f a) (f' a) s) :
    Extends (firstOf (as.map f)) (firstOf (as.map f')) s := by
  intro t ht hne
  unfold Matcher.firstOf at hne ⊢
  rw [map_eq] at hne ⊢
  rw [map_eq]
  exact findSomeM?_eq (fun a hmem => hf a hmem t ht) hne

theorem Extends.copies (hp : Extends p p' s) (n : Nat) : Extends (copies p n) (copies p' n) s := by
  induction n with
  | zero => exact .refl _ s
  | succ n ih => exact hp.andThen ih

theorem Extends.repeated (hp : Extends p p' s) (least most : Nat) :
    Extends (repeated p least most) (repeated p' least most) s :=
  fun t ht hne => findSomeM?_eq (fun n _ => hp.copies n t ht) hne

end Matcher

variable {W : Type}

theorem Expr.matcher_extends {rule rule' : String → Matcher} {s : List Char} (e : Expr W)
    (hrule : ∀ name, Matcher.Extends (rule name) (rule' name) s) :
    Matcher.Extends (e.matcher rule) (e.matcher rule') s := by
  induction e with
  | atom text => exact .refl _ s
  | ref name => exact hrule name
  | capture index => exact .refl _ s
  | seq items ih =>
    rw [matcher_seq, matcher_seq]
    exact .inOrder ih
  | choice alternatives ih =>
    rw [matcher_choice, matcher_choice]
    exact .firstOf ih
  | repeated body least most ih => exact ih.repeated least most

namespace Grammar

variable {g : Grammar W}

theorem ruleMatcher_succ {name : String} {r : Rule W} (hrule : g.rule? name = some r)
    (depth : Nat) : g.ruleMatcher (depth + 1) name = r.body.matcher (g.ruleMatcher depth) := by
  funext s
  simp only [ruleMatcher, hrule]

theorem ruleMatcher_of_no_rule {name : String} (hrule : g.rule? name = none) (depth : Nat)
    (s : List Char) : g.ruleMatcher depth name s = .error (.unknownRule name) := by
  cases depth with
  | zero => simp [ruleMatcher, hasRule, hrule]
  | succ depth => simp [ruleMatcher, hrule]

/-- With no rule to be in use, none comes to an answer. -/
theorem ruleMatcher_zero_ne_ok (name : String) (s : List Char) (answer : Option (List Nat)) :
    g.ruleMatcher 0 name s ≠ .ok answer := by
  unfold ruleMatcher
  split <;> exact nofun

/-- If `depth'` rules in use do for every name what `depth` do on the stretches of `s`, then so they
    do with one rule more on either side. -/
theorem ruleMatcher_extends_succ {depth depth' : Nat} {s : List Char}
    (hextends : ∀ name, Matcher.Extends (g.ruleMatcher depth name) (g.ruleMatcher depth' name) s)
    (name : String) :
    Matcher.Extends (g.ruleMatcher (depth + 1) name) (g.ruleMatcher (depth' + 1) name) s := by
  cases hrule : g.rule? name with
  | none =>
    intro t _ _
    rw [ruleMatcher_of_no_rule hrule, ruleMatcher_of_no_rule hrule]
  | some r =>
    rw [ruleMatcher_succ hrule, ruleMatcher_succ hrule]
    exact r.body.matcher_extends hextends

/-- More rules in use at a time change nothing where fewer suffice. -/
theorem ruleMatcher_mono {depth depth' : Nat} (hle : depth ≤ depth') (name : String)
    (s : List Char) : Matcher.Extends (g.ruleMatcher depth name) (g.ruleMatcher depth' name) s := by
  have hsucc (depth : Nat) (name : String) :
      Matcher.Extends (g.ruleMatcher depth name) (g.ruleMatcher (depth + 1) name) s := by
    induction depth generalizing name with
    | zero =>
      intro t _ hne
      cases hrule : g.rule? name with
      | none => rw [ruleMatcher_of_no_rule hrule, ruleMatcher_of_no_rule hrule]
      | some r =>
        have hname : g.hasRule name = true := hasRule_iff.mpr ⟨r, hrule⟩
        rw [ruleMatcher, if_pos hname] at hne
        exact (hne rfl).elim
    | succ depth ih => exact ruleMatcher_extends_succ ih name
  induction hle with
  | refl => exact .refl _ s
  | step _ ih => exact ih.trans (hsucc _ name)

/-- So many rules in use at a time suffice for the rule on the text. -/
def Settles (g : Grammar W) (depth : Nat) (name : String) (s : List Char) : Prop :=
  g.ruleMatcher depth name s ≠ .error .endlessNesting

theorem Settles.ruleMatcher_eq {depth depth' : Nat} {name : String} {s : List Char}
    (hsettles : g.Settles depth name s) (hle : depth ≤ depth') :
    g.ruleMatcher depth' name s = g.ruleMatcher depth name s :=
  ruleMatcher_mono hle name s s List.infix_rfl hsettles

theorem Settles.mono {depth depth' : Nat} (hle : depth ≤ depth') {name : String} {s : List Char}
    (hsettles : g.Settles depth name s) : g.Settles depth' name s := by
  rw [Settles, hsettles.ruleMatcher_eq hle]
  exact hsettles

/-- Whatever the numbers of rules in use that suffice, they come to the same. -/
theorem Settles.unique {depth depth' : Nat} {name : String} {s : List Char}
    (hsettles : g.Settles depth name s) (hsettles' : g.Settles depth' name s) :
    g.ruleMatcher depth name s = g.ruleMatcher depth' name s := by
  rw [← hsettles.ruleMatcher_eq (Nat.le_max_left depth depth'),
    hsettles'.ruleMatcher_eq (Nat.le_max_right depth depth')]

/-- Only a rule ever needs more rules in use. -/
theorem hasRule_of_not_settles {depth : Nat} {name : String} {s : List Char}
    (hneeds : ¬ g.Settles depth name s) : g.hasRule name = true := by
  cases hrule : g.rule? name with
  | none =>
    rw [Settles, ruleMatcher_of_no_rule hrule] at hneeds
    exact (hneeds nofun).elim
  | some r => exact hasRule_iff.mpr ⟨r, hrule⟩

/-- A rule that needs `depth + 2` rules in use for a text uses one that needs `depth + 1` of them,
    and for a stretch of that text. -/
theorem exists_settles_of_needs {depth : Nat} {name : String} {s : List Char}
    (hsettles : g.Settles (depth + 2) name s) (hneeds : ¬ g.Settles (depth + 1) name s) :
    ∃ name' t, t <:+: s ∧ g.Settles (depth + 1) name' t ∧ ¬ g.Settles depth name' t := by
  by_contra hnone
  simp only [not_exists, not_and, not_not] at hnone
  have hextends : Matcher.Extends (g.ruleMatcher (depth + 2) name) (g.ruleMatcher (depth + 1) name)
      s := by
    refine ruleMatcher_extends_succ (fun name' t ht hne => ?_) name
    exact ((hnone name' t ht hne).ruleMatcher_eq (Nat.le_succ depth)).symm
  apply hneeds
  rw [Settles, hextends s List.infix_rfl hsettles]
  exact hsettles

/-- The rules in use below a rule that needs `depth + 1` of them, with the stretch that each is used
    for: no two of them agree in their name and in the length of their stretch. -/
theorem exists_nest (depth : Nat) (name : String) (s : List Char)
    (hsettles : g.Settles (depth + 1) name s) (hneeds : ¬ g.Settles depth name s) :
    ∃ nest : List (String × List Char), nest.length = depth + 1 ∧
      (nest.map fun x => (x.1, x.2.length)).Nodup ∧
      ∀ x ∈ nest, x.2 <:+: s ∧ g.hasRule x.1 = true ∧ g.Settles (depth + 1) x.1 x.2 := by
  induction depth generalizing name s with
  | zero =>
    refine ⟨[(name, s)], rfl, by simp, ?_⟩
    simpa using ⟨hasRule_of_not_settles hneeds, hsettles⟩
  | succ depth ih =>
    obtain ⟨name', t, ht, hsettles', hneeds'⟩ := exists_settles_of_needs hsettles hneeds
    obtain ⟨nest, hlength, hnodup, hnest⟩ := ih name' t hsettles' hneeds'
    refine ⟨(name, s) :: nest, by simp [hlength], ?_, ?_⟩
    · rw [List.map_cons, List.nodup_cons]
      refine ⟨fun hmem => ?_, hnodup⟩
      obtain ⟨⟨name'', u⟩, hu, heq⟩ := List.mem_map.mp hmem
      obtain ⟨hstretch, -, hsettles''⟩ := hnest _ hu
      obtain ⟨rfl, hlen⟩ := Prod.mk.inj heq
      -- a stretch of a stretch of `s` that is as long as `s` is `s`
      obtain rfl : u = s := (hstretch.trans ht).eq_of_length hlen
      exact hneeds hsettles''
    · rw [List.forall_mem_cons]
      refine ⟨⟨List.infix_rfl, hasRule_of_not_settles hneeds, hsettles⟩, fun x hx => ?_⟩
      obtain ⟨hstretch, hname, hsettles''⟩ := hnest x hx
      exact ⟨hstretch.trans ht, hname, hsettles''.mono (Nat.le_succ _)⟩

/-- A rule for which any number of rules in use suffices needs no more than the bound allows: with
    more, one of them would be in use twice for the same stretch, and would never come to an end. -/
theorem Settles.of_nestingBound {depth : Nat} {name : String} {s : List Char}
    (hsettles : g.Settles depth name s) : g.Settles (g.nestingBound s.length) name s := by
  classical
  have hexists : ∃ depth, g.Settles depth name s := ⟨depth, hsettles⟩
  have hleast := Nat.find_spec hexists
  suffices hbound : Nat.find hexists ≤ g.nestingBound s.length from hleast.mono hbound
  cases hdepth : Nat.find hexists with
  | zero => exact Nat.zero_le _
  | succ depth =>
    have hneeds : ¬ g.Settles depth name s := Nat.find_min hexists (by omega)
    rw [hdepth] at hleast
    obtain ⟨nest, hlength, hnodup, hnest⟩ := exists_nest depth name s hleast hneeds
    let uses := (g.rules.map (·.name)).toFinset ×ˢ Finset.range (s.length + 1)
    have hsubset : (nest.map fun x => (x.1, x.2.length)).toFinset ⊆ uses := by
      intro use hmem
      obtain ⟨x, hx, rfl⟩ := List.mem_map.mp (List.mem_toFinset.mp hmem)
      obtain ⟨hstretch, hname, -⟩ := hnest x hx
      refine Finset.mem_product.mpr ⟨?_, ?_⟩
      · exact List.mem_toFinset.mpr (hasRule_iff_mem_names.mp hname)
      · exact Finset.mem_range.mpr (Nat.lt_succ_of_le hstretch.length_le)
    have hcard := Finset.card_le_card hsubset
    rw [List.toFinset_card_of_nodup hnodup, Finset.card_product, Finset.card_range,
      List.length_map, hlength] at hcard
    have hnames : (g.rules.map (·.name)).toFinset.card ≤ g.rules.length := by
      simpa using List.toFinset_card_le (g.rules.map (·.name))
    exact hcard.trans (Nat.mul_le_mul_right _ hnames)

/-- What any number of rules in use comes to, if these suffice, is what the grammar comes to. -/
theorem matcher_eq_of_ruleMatcher {depth : Nat} {e : Expr W} {s : List Char}
    (hne : e.matcher (g.ruleMatcher depth) s ≠ .error .endlessNesting) :
    g.matcher e s = e.matcher (g.ruleMatcher depth) s := by
  refine e.matcher_extends (s := s) (fun name t ht (hsettles : g.Settles depth name t) => ?_) s
    List.infix_rfl hne
  have hbound : g.nestingBound t.length ≤ g.nestingBound s.length :=
    Nat.mul_le_mul_left _ (Nat.succ_le_succ ht.length_le)
  rw [hsettles.of_nestingBound.ruleMatcher_eq hbound]
  exact hsettles.of_nestingBound.unique hsettles

/-- An answer that some number of rules in use leads to is the answer of the grammar. -/
theorem matcher_of_ruleMatcher {depth : Nat} {e : Expr W} {s : List Char}
    {answer : Option (List Nat)} (hanswer : e.matcher (g.ruleMatcher depth) s = .ok answer) :
    g.matcher e s = .ok answer := by
  rw [matcher_eq_of_ruleMatcher, hanswer]
  rw [hanswer]
  exact nofun

end Grammar

end WordGrammar
