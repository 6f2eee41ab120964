import WordGrammar.Proofs.Double.Sign
import WordGrammar.Proofs.Expr.Canonical
import WordGrammar.Proofs.Expr.Contains
import WordGrammar.Proofs.Pattern.Completeness

namespace WordGrammar.Pattern

variable {kind : Kind} {e : Expr Float}

/-- What is read as text of this kind. -/
structure Legible (kind : Kind) (e : Expr Float) : Prop where
  canonical : e.Canonical (0 ≤ ·)
  captures : kind = .pattern → e.hasCaptures = false

section Words

/-- Bounds are in order and in range. -/
theorem IsBounds.ordered {text : List Char} {least most : Nat}
    (hbounds : IsBounds text least most) : least ≤ most ∧ most < Numeral.limit := by
  cases hbounds with
  | exactly hn => exact ⟨le_rfl, hn.bounded⟩
  | range _ hmost hle => exact ⟨hle, hmost.bounded⟩
  | upTo hmost => exact ⟨Nat.zero_le _, hmost.bounded⟩

theorem IsWeight.zero_le {text : List Char} {weight : Float} (hweight : IsWeight text weight) :
    0 ≤ weight := by
  obtain ⟨whole, fraction, -, -, -, hrounds⟩ := hweight
  rw [← value_div_eq, ← Decimal.toFloat_eq_iff] at hrounds
  rw [← hrounds]
  exact Decimal.zero_le_toFloat _

end Words

section Phrases

theorem legible_atom (text : String) : Legible kind (.atom text) :=
  ⟨.atom text, fun _ => rfl⟩

theorem legible_repeated {least most : Nat} (hlegible : Legible kind e) (hle : least ≤ most)
    (hmost : most < Numeral.limit) : Legible kind (.repeated e least most) :=
  ⟨.repeated hle hmost hlegible.canonical, hlegible.captures⟩

theorem legible_seq {es : List (Expr Float)} (hlength : 2 ≤ es.length)
    (hitems : ∀ e ∈ es, Legible kind e) : Legible kind (.seq es) := by
  refine ⟨.seq hlength fun e hmem => (hitems e hmem).canonical, fun hpattern => ?_⟩
  rw [Expr.hasCaptures_seq, List.any_eq_false]
  exact fun e hmem => by simp [(hitems e hmem).captures hpattern]

theorem legible_choice {alternatives : List (Expr Float × Option Float)} (hne : alternatives ≠ [])
    (hall : ∀ a ∈ alternatives, Legible kind a.1 ∧ ∀ weight, a.2 = some weight → 0 ≤ weight) :
    Legible kind (.choice (alternatives.map fun (item, weight) => ⟨item, weight.getD 1⟩)) := by
  refine ⟨.choice (by simpa using hne) ?_ ?_, fun hpattern => ?_⟩
  · intro a hmem
    obtain ⟨⟨item, weight⟩, hother, rfl⟩ := List.mem_map.mp hmem
    cases weight with
    | none => exact (by decide : (0 : Float) ≤ 1)
    | some weight => exact (hall _ hother).2 weight rfl
  · intro a hmem
    obtain ⟨⟨item, weight⟩, hother, rfl⟩ := List.mem_map.mp hmem
    exact (hall _ hother).1.canonical
  · rw [Expr.hasCaptures_choice, List.any_eq_false]
    intro a hmem
    obtain ⟨⟨item, weight⟩, hother, rfl⟩ := List.mem_map.mp hmem
    simpa using (hall _ hother).1.captures hpattern

/-- All expressions of the phrase are legible, and its weights zero or more. -/
def IsLegible (kind : Kind) : Phrase → Prop
  | .expression e | .sequence e | .quantified e | .term e => Legible kind e
  | .items es => ∀ e ∈ es, Legible kind e
  | .alternative a => Legible kind a.1 ∧ ∀ weight, a.2 = some weight → 0 ≤ weight
  | .alternatives as =>
    as ≠ [] ∧ ∀ a ∈ as, Legible kind a.1 ∧ ∀ weight, a.2 = some weight → 0 ≤ weight

theorem Derives.isLegible {phrase : Phrase} {source rest : List Char}
    (hderives : Derives kind phrase source rest) : IsLegible kind phrase := by
  induction hderives with
  | @atom _ text => exact legible_atom (String.ofList text)
  | optional _ _ _ ih => exact legible_repeated ih (by decide) (by decide)
  | group _ _ _ ih => exact ih
  | ref hname => exact ⟨.ref hname, fun _ => rfl⟩
  | nothing => exact legible_atom ""
  | capture hkind hindex =>
    refine ⟨.capture hindex.bounded, fun hpattern => ?_⟩
    rw [hkind] at hpattern
    cases hpattern
  | once _ ih => exact ih
  | repeated _ hbounds _ ih => exact legible_repeated ih hbounds.ordered.1 hbounds.ordered.2
  | item _ ih => exact List.forall_mem_singleton.mpr ih
  | items _ _ _ ih ih' => exact List.forall_mem_cons.mpr ⟨ih, ih'⟩
  | single _ ih => exact ih _ List.mem_cons_self
  | seq _ hlength ih => exact legible_seq hlength ih
  | unweighted _ ih => exact ⟨ih, by simp⟩
  | weighted _ _ hweight _ ih =>
    refine ⟨ih, ?_⟩
    rintro weight ⟨⟩
    exact hweight.zero_le
  | alternative _ ih => exact ⟨List.cons_ne_nil _ _, List.forall_mem_singleton.mpr ih⟩
  | alternatives _ _ _ ih ih' => exact ⟨List.cons_ne_nil _ _, List.forall_mem_cons.mpr ⟨ih, ih'.2⟩⟩
  | plain _ ih => exact (ih.2 _ List.mem_cons_self).1
  | choice _ _ ih => exact legible_choice ih.1 ih.2

end Phrases

/-- Whatever is read from a source is legible. -/
theorem legible_of_read {source : String} (hread : read kind source = .ok e) : Legible kind e := by
  obtain ⟨_, -, hderives⟩ := denotes_of_read hread
  exact hderives.isLegible

section Kinds

/-- No expression of the phrase has a capture. -/
def IsCaptureFree : Phrase → Prop
  | .expression e | .sequence e | .quantified e | .term e => e.hasCaptures = false
  | .items es => ∀ e ∈ es, e.hasCaptures = false
  | .alternative a => a.1.hasCaptures = false
  | .alternatives as => ∀ a ∈ as, a.1.hasCaptures = false

/-- What has no captures is derived as text of either kind. -/
theorem Derives.of_captureFree {phrase : Phrase} {source rest : List Char} (kind' : Kind)
    (hderives : Derives kind phrase source rest) (hfree : IsCaptureFree phrase) :
    Derives kind' phrase source rest := by
  induction hderives with
  | atom hquoted hword => exact .atom hquoted hword
  | optional hopen _ hclose ih => exact .optional hopen (ih hfree) hclose
  | group hopen _ hclose ih => exact .group hopen (ih hfree) hclose
  | ref hname hmaximal hgap => exact .ref hname hmaximal hgap
  | nothing => exact .nothing
  | capture => cases hfree
  | once _ ih => exact .once (ih hfree)
  | repeated _ hbounds hword ih => exact .repeated (ih hfree) hbounds hword
  | item _ ih => exact .item (ih (hfree _ List.mem_cons_self))
  | items _ hdot _ ih ih' =>
    obtain ⟨hitem, hitems⟩ := List.forall_mem_cons.mp hfree
    exact .items (ih hitem) hdot (ih' hitems)
  | single _ ih => exact .single (ih (List.forall_mem_singleton.mpr hfree))
  | seq _ hlength ih =>
    refine .seq (ih fun e hmem => ?_) hlength
    simpa using List.any_eq_false.mp ((Expr.hasCaptures_seq _).symm.trans hfree) e hmem
  | unweighted _ ih => exact .unweighted (ih hfree)
  | weighted _ hstar hweight hword ih => exact .weighted (ih hfree) hstar hweight hword
  | alternative _ ih => exact .alternative (ih (hfree _ List.mem_cons_self))
  | alternatives _ hslash _ ih ih' =>
    obtain ⟨halternative, halternatives⟩ := List.forall_mem_cons.mp hfree
    exact .alternatives (ih halternative) hslash (ih' halternatives)
  | plain _ ih => exact .plain (ih (List.forall_mem_singleton.mpr hfree))
  | choice _ hchoice ih =>
    refine .choice (ih fun a hmem => ?_) hchoice
    have hnone := List.any_eq_false.mp ((Expr.hasCaptures_choice _).symm.trans hfree)
    simpa using hnone _ (List.mem_map_of_mem hmem)

theorem Denotes.of_captureFree {text : String} (kind' : Kind) (hdenotes : Denotes kind text e)
    (hfree : e.hasCaptures = false) : Denotes kind' text e := by
  obtain ⟨source, hgap, hderives⟩ := hdenotes
  exact ⟨source, hgap, hderives.of_captureFree kind' hfree⟩

end Kinds

/-- What a text is as a pattern is what it is as a replacement without captures. The check for
    captures finds every one there is. -/
theorem parse_eq_ok_iff_parseReplacement (source : String) (e : Expr Float) :
    (parse source = .ok e ↔ parseReplacement source = .ok e ∧ e.hasCaptures = false) ∧
      (parse source = .ok e ↔
        parseReplacement source = .ok e ∧ ∀ index, ¬ e.Contains (.capture index)) := by
  have hfirst : parse source = .ok e ↔ parseReplacement source = .ok e ∧ e.hasCaptures = false := by
    rw [parse, parseReplacement, read_eq_ok_iff, read_eq_ok_iff]
    constructor
    · intro hdenotes
      have hfree := (legible_of_read (read_of_denotes hdenotes)).captures rfl
      exact ⟨hdenotes.of_captureFree .replacement hfree, hfree⟩
    · intro h
      exact h.1.of_captureFree .pattern h.2
  refine ⟨hfirst, hfirst.trans (and_congr_right fun _ => ?_)⟩
  rw [← Bool.not_eq_true, Expr.hasCaptures_iff, not_exists]

-- Within quotes the mark of captures is text, and stands in patterns too.
example : (parse "'#0#'").isOk = true ∧ (parse "#0#").isOk = false ∧
    (parseReplacement "#0#").isOk = true := by
  cbv

end WordGrammar.Pattern
