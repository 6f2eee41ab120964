import Mathlib.Computability.Language
import WordGrammar.Proofs.Grammar.WellFormed
import WordGrammar.Proofs.Pattern.Image

namespace WordGrammar

open scoped Computability

namespace Name

/-- The words of a single character between two others. -/
def between (first last : Char) : Language Char :=
  {word | ∃ c, word = [c] ∧ first ≤ c ∧ c ≤ last}

/-- `[A-Za-z_]` -/
def initials : Language Char := between 'A' 'Z' + between 'a' 'z' + between '_' '_'

/-- `[A-Za-z_0-9]` -/
def parts : Language Char := initials + between '0' '9'

/-- `[A-Za-z_][A-Za-z_0-9]*` -/
def identifiers : Language Char := initials * parts∗

variable {word : List Char}

theorem mem_between {first last : Char} :
    word ∈ between first last ↔ ∃ c, word = [c] ∧ first ≤ c ∧ c ≤ last :=
  Iff.rfl

theorem mem_initials : word ∈ initials ↔ ∃ c, word = [c] ∧ isStart c = true := by
  have hstart (c : Char) : isStart c = true ↔
      ('A' ≤ c ∧ c ≤ 'Z' ∨ 'a' ≤ c ∧ c ≤ 'z') ∨ '_' ≤ c ∧ c ≤ '_' := by
    simp only [isStart, Char.isAlpha, Char.isUpper, Char.isLower, Bool.or_eq_true,
      Bool.and_eq_true, decide_eq_true_eq, beq_iff_eq, ← le_antisymm_iff, eq_comm (a := c)]
    rfl
  simp only [initials, Language.mem_add, mem_between, hstart, and_or_left, exists_or]

theorem mem_parts : word ∈ parts ↔ ∃ c, word = [c] ∧ isPart c = true := by
  have hpart (c : Char) : isPart c = true ↔ isStart c = true ∨ '0' ≤ c ∧ c ≤ '9' := by
    simp only [isPart, isStart, Char.isAlphanum, Char.isDigit, Bool.or_eq_true, Bool.and_eq_true,
      decide_eq_true_eq, or_right_comm (c := _ ∧ _)]
    rfl
  simp only [parts, Language.mem_add, mem_initials, mem_between, hpart, and_or_left, exists_or]

theorem mem_kstar_parts : word ∈ parts∗ ↔ ∀ c ∈ word, isPart c = true := by
  rw [Language.mem_kstar]
  constructor
  · intro h
    obtain ⟨letters, rfl, hletters⟩ := h
    intro c hmem
    obtain ⟨letter, hletter, hc⟩ := List.mem_flatten.mp hmem
    obtain ⟨d, rfl, hd⟩ := mem_parts.mp (hletters letter hletter)
    rwa [List.mem_singleton.mp hc]
  · intro hparts
    refine ⟨word.map fun c => [c], ?_, ?_⟩
    · rw [← List.flatMap_def, List.flatMap_singleton']
    · intro letter hletter
      obtain ⟨c, hmem, rfl⟩ := List.mem_map.mp hletter
      exact mem_parts.mpr ⟨c, rfl, hparts c hmem⟩

/-- The check of a name as a whole is for the words of the expression. -/
theorem isIdentifier_iff_mem (name : String) :
    isIdentifier name = true ↔ name.toList ∈ identifiers := by
  rw [identifiers, Language.mem_mul, isIdentifier]
  constructor
  · intro h
    cases htext : name.toList with
    | nil =>
      rw [htext] at h
      cases h
    | cons c cs =>
      rw [htext, Bool.and_eq_true, List.all_eq_true] at h
      exact ⟨[c], mem_initials.mpr ⟨c, rfl, h.1⟩, cs, mem_kstar_parts.mpr h.2, rfl⟩
  · intro h
    obtain ⟨first, hfirst, others, hothers, htext⟩ := h
    obtain ⟨c, rfl, hstart⟩ := mem_initials.mp hfirst
    have hall : others.all isPart = true := List.all_eq_true.mpr (mem_kstar_parts.mp hothers)
    simp [← htext, hstart, hall]

end Name

namespace Pattern

variable {name : String}

/-- Some pattern, or some replacement, refers to the name, at whatever depth. -/
def Mentions (name : String) : Prop :=
  ∃ source e, (parse source = .ok e ∨ parseReplacement source = .ok e) ∧ e.Contains (.ref name)

/-- A name by itself is a pattern that refers to it. -/
theorem parse_name (hname : Name.isIdentifier name = true) : parse name = .ok (.ref name) := by
  refine read_of_denotes ⟨name.toList, .refl _, ?_⟩
  have hterm : Derives .pattern (.term (.ref name)) (name.toList ++ []) [] :=
    .ref hname (by simp) (.refl _)
  rw [List.append_nil] at hterm
  exact .plain (.alternative (.unweighted (.single (.item (.once hterm)))))

/-- Whatever is read refers to identifiers only. -/
theorem isIdentifier_of_read {kind : Kind} {source : String} {e : Expr Float}
    (hread : read kind source = .ok e) (hmention : e.Contains (.ref name)) :
    Name.isIdentifier name = true :=
  Expr.canonical_ref.mp ((legible_of_read hread).canonical.of_contains hmention)

theorem isIdentifier_of_mentions (hmentions : Mentions name) : Name.isIdentifier name = true := by
  obtain ⟨source, e, hpattern | hreplacement, hmention⟩ := hmentions
  · exact isIdentifier_of_read hpattern hmention
  · exact isIdentifier_of_read hreplacement hmention

theorem isIdentifier_iff_mentions : Name.isIdentifier name = true ↔ Mentions name := by
  constructor
  · intro hname
    exact ⟨name, .ref name, .inl (parse_name hname), .self _⟩
  · exact isIdentifier_of_mentions

end Pattern

namespace Grammar

variable {name : String}

/-- A name is complained of for its form exactly if it is there and no identifier. -/
theorem mem_nameProblems_iff {seen names : List String} :
    .invalidRuleName name ∈ nameProblems seen names ↔
      name ∈ names ∧ Name.isIdentifier name = false := by
  induction names generalizing seen with
  | nil => simp [nameProblems]
  | cons first names ih =>
    have hform : CompileError.invalidRuleName name ∈
        (if Name.isIdentifier first then [] else [.invalidRuleName first]) ↔
          name = first ∧ Name.isIdentifier name = false := by
      split
      · simp_all
      · simp_all
    have hrepeated : CompileError.invalidRuleName name ∉
        (if first ∈ seen then [.duplicateRule first] else []) := by
      split
      · simp
      · simp
    rw [nameProblems, List.mem_append, List.mem_append, hform, ih, List.mem_cons, or_and_right]
    simp [hrepeated]

/-- Rules are refused for the name of one of them only if it is no identifier. -/
theorem isIdentifier_of_ofRules {W : Type} {root : String} {rules : List (Rule W)}
    {useWeights : Bool}
    (hrefused : ofRules root rules useWeights = .error (.invalidRuleName name)) :
    Name.isIdentifier name = false := by
  have hfirst := error?_ofRules root rules useWeights
  rw [Outcome.error?_eq_some_iff.mpr hrefused] at hfirst
  rcases List.mem_append.mp (List.mem_of_mem_head? hfirst.symm) with hname | hreference
  · exact (mem_nameProblems_iff.mp hname).2
  · simp [referenceProblems] at hreference

/-- A rule that nothing is said of but its name. -/
def alone (name : String) : List (Rule Float) := [⟨name, .atom "", [], []⟩]

theorem ofRules_alone_of_isIdentifier (hname : Name.isIdentifier name = true) :
    ofRules name (alone name) false = .ok ⟨alone name, name, false⟩ := by
  refine ofRules_eq_ok_iff.mpr ⟨rfl, ?_, List.nodup_singleton name, ?_⟩
  · exact List.forall_mem_singleton.mpr hname
  · exact List.forall_mem_singleton.mpr fun other hreference => nomatch hreference

theorem ofRules_alone_of_not (hname : Name.isIdentifier name = false) :
    ofRules name (alone name) false = .error (.invalidRuleName name) := by
  rw [ofRules, alone, checkNames, hname]
  rfl

end Grammar

namespace Pattern

open Grammar

/-- A name is in order exactly if it is a pattern that refers to it, and exactly if there is any
    pattern or replacement that does. So rules are refused for the form of a name only if nothing
    can refer to it, and whatever is referred to can be declared. -/
theorem declared_iff_mentioned (name : String) :
    (Name.isIdentifier name = true ↔ name.toList ∈ Name.identifiers) ∧
    (Name.isIdentifier name = true ↔ parse name = .ok (.ref name)) ∧
    (Name.isIdentifier name = true ↔ ∃ source e,
      (parse source = .ok e ∨ parseReplacement source = .ok e) ∧ e.Contains (.ref name)) ∧
    ((∃ root useWeights, ∃ rules : List (Rule Float),
      ofRules root rules useWeights = .error (.invalidRuleName name)) ↔ ¬ Mentions name) ∧
    ((∃ root useWeights g, ∃ rules : List (Rule Float),
      ofRules root rules useWeights = .ok g ∧ g.hasRule name = true) ↔ Mentions name) := by
  rw [← isIdentifier_iff_mentions, Bool.not_eq_true]
  refine ⟨Name.isIdentifier_iff_mem name, ⟨parse_name, fun hparse => ?_⟩,
    isIdentifier_iff_mentions, ⟨fun hrefused => ?_, fun hname => ?_⟩,
    ⟨fun hdeclared => ?_, fun hname => ?_⟩⟩
  · exact isIdentifier_of_read hparse (.self _)
  · obtain ⟨root, useWeights, rules, hrules⟩ := hrefused
    exact isIdentifier_of_ofRules hrules
  · exact ⟨name, false, alone name, ofRules_alone_of_not hname⟩
  · obtain ⟨root, useWeights, g, rules, hgrammar, hdeclares⟩ := hdeclared
    obtain ⟨-, hidentifiers, -⟩ := checks_of_ofRules hgrammar
    obtain ⟨r, hrule⟩ := hasRule_iff.mp hdeclares
    rw [← name_of_rule? hrule]
    exact hidentifiers r (mem_rules_of_rule? hrule)
  · refine ⟨name, false, _, alone name, ofRules_alone_of_isIdentifier hname, ?_⟩
    simp [hasRule_iff_mem_names, alone]

-- A blank before it makes no difference to what is read, but to what is declared.
example : Name.isIdentifier "V2" = true ∧ (parse " V2").isOk = true ∧
    Name.isIdentifier " V2" = false ∧ Name.isIdentifier "V2\n" = false := by
  cbv

end Pattern

end WordGrammar
