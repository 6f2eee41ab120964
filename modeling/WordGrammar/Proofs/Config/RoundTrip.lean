import WordGrammar.Proofs.Config.Compile
import WordGrammar.Proofs.Pattern.WeightMark

namespace WordGrammar

/-- The written form reads as an expression that is equal to the one it was made of. -/
def Expr.ReadsBack (kind : Pattern.Kind) (e : Expr Float) : Prop :=
  ∃ e', Pattern.read kind e.text = .ok e' ∧ (e' == e) = true

namespace Pattern

variable {kind : Kind} {e : Expr Float}

theorem IsDecimal.beq_self {weight : Float} (hdecimal : IsDecimal weight) :
    (weight == weight) = true := by
  have hbeq : (weight == weight) = (Double.number weight).beq (Double.number weight) := rfl
  rw [hbeq]
  obtain ⟨hnumber, -⟩ | ⟨hm, hnumber, -⟩ := Double.number_of_isFinite hdecimal.1 hdecimal.2
  · rw [hnumber]
    rfl
  · rw [hnumber]
    simp [Float.Model.UnpackedFloat.beq, Float.Model.UnpackedFloat.compare]

/-- What has been read as some text reads back if its weights are decimals, and only then. -/
theorem Legible.readsBack_iff (hlegible : Legible kind e) :
    e.ReadsBack kind ↔ e.HasDecimalWeights := by
  constructor
  · intro hback
    obtain ⟨e', hread, -⟩ := hback
    refine Expr.hasDecimalWeights_of_read (fun name hname => ?_) hread
    exact Expr.canonical_ref.mp (hlegible.canonical.of_contains hname)
  · intro hdecimal
    have hcanonical : e.Canonical Printable :=
      hlegible.canonical.of_weights fun w hmem =>
        printable_of_isFinite (hdecimal w hmem).1 (hdecimal w hmem).2
    refine ⟨e, hcanonical.read_text hlegible.captures, Expr.same_self fun w hmem => ?_⟩
    exact (hdecimal w hmem).beq_self

end Pattern

/-- A body reads back if it has a pattern and its weights are decimals, and only then. -/
theorem Rule.Legible.readsBack_body_iff {r : Rule Float} (hlegible : r.Legible) :
    r.body.ReadsBack .pattern ↔ r.body ≠ .choice [] ∧ r.body.HasDecimalWeights := by
  by_cases hempty : r.body = .choice []
  · have hread : Pattern.read .pattern (Expr.choice []).text = .ok (.atom "") := by rfl
    rw [hempty]
    constructor
    · intro hback
      obtain ⟨e', hread', hsame⟩ := hback
      rw [hread] at hread'
      cases hread'
      cases hsame
    · exact fun h => (h.1 rfl).elim
  · obtain ⟨alternatives, hbody, halternatives⟩ := hlegible.body
    have hbodyLegible : Pattern.Legible .pattern r.body := by
      rw [hbody] at hempty ⊢
      constructor
      · refine .choice (fun hnil => hempty (hnil ▸ rfl)) ?_ ?_
        · exact fun a hmem => (halternatives a hmem).1
        · exact fun a hmem => (halternatives a hmem).2.canonical
      · intro _
        rw [Expr.hasCaptures_choice, List.any_eq_false]
        exact fun a hmem => by simp [(halternatives a hmem).2.captures rfl]
    rw [hbodyLegible.readsBack_iff]
    exact (and_iff_right hempty).symm

namespace Config

/-- Of a compiled grammar everything reads back, but for a body without patterns, and for what has a
    weight that is infinite or has its sign bit set. -/
theorem readsBack_of_compile {c : Config} {g : Grammar Float}
    (hcompile : c.compile = .ok (some g)) :
    ∀ r ∈ g.rules,
      (r.body.ReadsBack .pattern ↔ r.body ≠ .choice [] ∧ r.body.HasDecimalWeights) ∧
      (∀ e ∈ r.exclusions, e.ReadsBack .pattern ↔ e.HasDecimalWeights) ∧
      ∀ s ∈ r.substitutions,
        (s.target.ReadsBack .pattern ↔ s.target.HasDecimalWeights) ∧
        (s.replacement.ReadsBack .replacement ↔ s.replacement.HasDecimalWeights) := by
  intro r hmem
  have hlegible := (checks_of_compile hcompile).1 r hmem
  refine ⟨hlegible.readsBack_body_iff, fun e he => ?_, fun s hs => ⟨?_, ?_⟩⟩
  · exact (hlegible.exclusions e he).readsBack_iff
  · exact (hlegible.substitutions s hs).1.readsBack_iff
  · exact (hlegible.substitutions s hs).2.readsBack_iff

/-- Chimes whose parts have weights and bounds, a quote in them, and captures. -/
def chimes : Config where
  rules := [
    .terminal "Bell" ["d'ing", ""],
    ((RuleDef.ofPatterns "Chime" false [⟨"Bell.('o')\x7b2:3\x7d", 0.5⟩, ⟨"['a' / 'e'*0]*3", 1⟩])
      |>.substitute "Bell.'o'*2" "#1#.#0#")
      |>.exclude "'oo'.[Bell / 'a'*1.5]"]
  root := some "Chime"
  enableWeights := true

theorem readsBack_chimes :
    ∃ g, chimes.compile = .ok (some g) ∧ g.rules.map (·.name) = ["Bell", "Chime"] ∧
      ∀ r ∈ g.rules, r.body.ReadsBack .pattern ∧ (∀ e ∈ r.exclusions, e.ReadsBack .pattern) ∧
        ∀ s ∈ r.substitutions,
          s.target.ReadsBack .pattern ∧ s.replacement.ReadsBack .replacement := by
  have hchecked : chimes.compile.toOption.join.map (fun g => (g.rules.map (·.name),
      decide (∀ r ∈ g.rules, r.body.weights ≠ [] ∧ ∀ e ∈ r.expressions, e.HasDecimalWeights))) =
        some (["Bell", "Chime"], true) := by decide +kernel
  obtain ⟨g, hg, hrules⟩ := Option.map_eq_some_iff.mp hchecked
  obtain ⟨hnames, hweights⟩ := Prod.mk.inj hrules
  have hcompile := compile_eq_of_toOption hg
  refine ⟨g, hcompile, hnames, fun r hmem => ?_⟩
  obtain ⟨hnonempty, hdecimal⟩ := of_decide_eq_true hweights r hmem
  obtain ⟨hbody, hexclusions, hsubstitutions⟩ := readsBack_of_compile hcompile r hmem
  simp only [Rule.expressions, Rule.patterns, List.forall_mem_append, List.forall_mem_cons,
    List.forall_mem_map] at hdecimal
  obtain ⟨⟨hdecimal, hexcluded, htargets⟩, hreplacements⟩ := hdecimal
  refine ⟨hbody.mpr ⟨fun hempty => hnonempty ?_, hdecimal⟩, fun e he => ?_, fun s hs => ⟨?_, ?_⟩⟩
  · rw [hempty]
    rfl
  · exact (hexclusions e he).mpr (hexcluded e he)
  · exact (hsubstitutions s hs).1.mpr (htargets s hs)
  · exact (hsubstitutions s hs).2.mpr (hreplacements s hs)

/-- Three rules that do not read back: one without patterns, one whose weight is infinite, and one
    whose weight is a zero with its sign bit set. -/
def unwritable : Config where
  rules := [
    .plain "Empty" [],
    .ofPatterns "Endless" false [⟨"'a'", Float.ofBits 0x7FF0000000000000⟩],
    .ofPatterns "Signed" false [⟨"'a'", Float.ofBits 0x8000000000000000⟩]]
  root := some "Empty"
  enableWeights := false

theorem not_readsBack_unwritable :
    ∃ g, unwritable.compile = .ok (some g) ∧
      g.rules.map (·.name) = ["Empty", "Endless", "Signed"] ∧
      ∀ r ∈ g.rules, ¬ r.body.ReadsBack .pattern := by
  have hchecked : unwritable.compile.toOption.join.map (fun g => (g.rules.map (·.name),
      decide (∀ r ∈ g.rules, r.body.weights = [] ∨ ¬ r.body.HasDecimalWeights))) =
        some (["Empty", "Endless", "Signed"], true) := by decide +kernel
  obtain ⟨g, hg, hrules⟩ := Option.map_eq_some_iff.mp hchecked
  obtain ⟨hnames, hweights⟩ := Prod.mk.inj hrules
  have hcompile := compile_eq_of_toOption hg
  refine ⟨g, hcompile, hnames, fun r hmem => ?_⟩
  have hlegible := (checks_of_compile hcompile).1 r hmem
  rw [hlegible.readsBack_body_iff]
  obtain ⟨alternatives, hbody, -⟩ := hlegible.body
  rintro ⟨hnonempty, hdecimal⟩
  rcases of_decide_eq_true hweights r hmem with hnone | hother
  · rw [hbody, Expr.weights_choice, List.flatMap_eq_nil_iff] at hnone
    cases alternatives with
    | nil => exact hnonempty hbody
    | cons a alternatives =>
      have ha := hnone a (List.mem_cons_self ..)
      simp at ha
  · exact hother hdecimal

end Config

end WordGrammar
