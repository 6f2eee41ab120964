import WordGrammar.Proofs.Generation.Substitution
import WordGrammar.Proofs.Grammar.WellFormed
import WordGrammar.Proofs.Matcher.Enumeration
import WordGrammar.Proofs.Matcher.Leftmost

namespace WordGrammar.Grammar

variable {W : Type} {g : Grammar W} {e : Expr W}

theorem length_cut (lengths : List Nat) (text : List Char) :
    (cut lengths text).length = lengths.length := by
  induction lengths generalizing text with
  | nil => rfl
  | cons n lengths ih => rw [cut, List.length_cons, ih, List.length_cons]

/-- A choice between atoms derives one of them. -/
theorem Derives.length_of_atoms {alternatives : List (Weighted W (Expr W))}
    {pieces : List (List Char)} (hderives : g.Derives (.choice alternatives) pieces)
    (hatoms : ∀ a ∈ alternatives, ∃ text, a.item = .atom text) : pieces.length = 1 := by
  obtain ⟨a, hmem, hitem⟩ := derives_choice.mp hderives
  obtain ⟨text, hatom⟩ := hatoms a hmem
  rw [hatom] at hitem
  rw [derives_atom.mp hitem, List.length_singleton]

/-- What a match captures are the pieces of a derivation of the text matched, and of that which is
    the first of all: its segments are the lengths of these pieces. -/
theorem captures_of_answer {stretch : List Char} {segments : List Nat}
    (hanswer : g.matcher e stretch = .ok (some segments)) :
    (cut segments stretch).flatten = stretch ∧ g.Derives e (cut segments stretch) ∧
      ∀ found, g.Enumerates e stretch found →
        found.head? = some ((cut segments stretch).map List.length) := by
  obtain ⟨pieces, hderives, hflatten, hlengths⟩ := (matcher_decides e).sound _ _ hanswer
  have hcut : cut segments stretch = pieces := by
    rw [← hflatten, ← hlengths, cut_pieces]
  rw [hcut, hlengths]
  exact ⟨hflatten, hderives, fun found henum => (henum.eq_head? hanswer).symm⟩

/-- All captures so far, in order. -/
def captures (k : Nat) : List (Expr W) := (List.range k).map .capture

section Expanding

variable [Weight W] {rule : String → Sampler (List Char)} {useWeights : Bool}

/-- Putting back the captures behind some others appends their texts. -/
theorem expandItems_captures (before after : List (List Char)) (text : List Char) :
    Expr.expandItems (W := W) rule useWeights (some (before ++ after)) text
        ((List.range' before.length after.length).map .capture) =
      .done (text ++ after.flatten) := by
  induction after generalizing before text with
  | nil =>
    show Sampler.done text = _
    rw [List.flatten_nil, List.append_nil]
  | cons piece after ih =>
    have hpiece : (before ++ piece :: after)[before.length]? = some piece := by simp
    have hlonger := ih (before ++ [piece]) (text ++ piece)
    rw [List.length_append, List.length_singleton, List.append_assoc, List.singleton_append,
      List.append_assoc] at hlonger
    rw [List.length_cons, List.range'_succ, List.map_cons, Expr.expandItems, Expr.expand, captured]
    simp only [hpiece]
    exact hlonger

theorem expand_captures (pieces : List (List Char)) :
    (Expr.seq (captures pieces.length) : Expr W).expand rule useWeights (some pieces) =
      .done pieces.flatten := by
  rw [Expr.expand, captures, List.range_eq_range']
  exact expandItems_captures [] pieces []

/-- If every match is replaced by itself, the text comes back, and nothing is drawn. -/
theorem run?_foldlM_writePiece (name : String) {replacement : Expr W} {pieces : List Piece}
    (hsame : ∀ stretch segments, .matched stretch segments ∈ pieces →
      replacement.expand rule g.useWeights (some (cut segments stretch)) = .done stretch)
    (written : List Char) :
    ∃ events, ∀ source, (pieces.foldlM (g.writePiece rule name replacement) written).run? source =
      some ⟨.ok (written ++ pieces.flatMap Piece.original), source, events⟩ := by
  induction pieces generalizing written with
  | nil =>
    refine ⟨[], fun source => ?_⟩
    rw [List.flatMap_nil, List.append_nil]
    rfl
  | cons piece pieces ih =>
    have hpiece : ∃ events, ∀ source,
        (g.writePiece rule name replacement written piece).run? source =
          some ⟨.ok (written ++ piece.original), source, events⟩ := by
      cases piece with
      | kept c => exact ⟨[], fun source => rfl⟩
      | matched stretch segments =>
        refine ⟨[.substituted name (String.ofList stretch) written.length (String.ofList stretch)],
          fun source => ?_⟩
        rw [writePiece, hsame stretch segments (List.mem_cons_self ..)]
        rfl
    obtain ⟨events, hpiece⟩ := hpiece
    obtain ⟨later, hpieces⟩ := ih (fun stretch segments hmem =>
      hsame stretch segments (List.mem_cons_of_mem _ hmem)) (written ++ piece.original)
    refine ⟨events ++ later, fun source => ?_⟩
    rw [List.foldlM_cons, Sampler.run?_bind_of_done (hpiece source), hpieces, List.flatMap_cons,
      List.append_assoc]
    rfl

end Expanding

/-- Where no circle of references can be reached, a substitution scans every text to its end. What
    each of its matches captures makes up the match, and is the text of one atom after the other in
    the first derivation of it. If all matches capture equally much, then to put everything back in
    order changes no text and draws nothing. -/
theorem captures_divide_match [Weight W] (hresolved : g.Resolved) (hbodies : g.CaptureFree)
    {r : Rule W} (hr : r ∈ g.rules) {s : Substitution W} (hs : s ∈ r.substitutions)
    (hplain : s.target.hasCaptures = false)
    (hacyclic : ∀ name ∈ s.target.references, ¬ g.CycleBelow name)
    (rule : String → Sampler (List Char)) (word : List Char) :
    (∃ pieces, (g.matcher s.target).Scans word pieces [] ∧
      g.substituteFrom rule r.name s word 0 =
        pieces.foldlM (g.writePiece rule r.name s.replacement) [] ∧
      ∀ stretch segments, .matched stretch segments ∈ pieces →
        (cut segments stretch).flatten = stretch ∧ g.Derives s.target (cut segments stretch) ∧
        ∃ found, g.Enumerates s.target stretch found ∧
          found.head? = some ((cut segments stretch).map List.length)) ∧
    ∀ k, (∀ stretch segments, stretch ≠ [] →
        g.matcher s.target stretch = .ok (some segments) → segments.length = k) →
      (s.replacement = .seq (captures k) ∨ k = 1 ∧ s.replacement = .capture 0) →
      ∃ events, ∀ source, (g.substituteFrom rule r.name s word 0).run? source =
        some ⟨.ok word, source, events⟩ := by
  have hanswers (text : List Char) : ∃ answer, g.matcher s.target text = .ok answer := by
    refine exists_answer_of_acyclic hresolved hbodies hplain (fun name hname => ?_) hacyclic text
    have hpattern : s.target ∈ r.patterns :=
      List.mem_cons_of_mem _ (List.mem_append_right _ (List.mem_map_of_mem hs))
    exact hresolved r hr name
      (Rule.mem_references_iff.mpr ⟨s.target, r.patterns_subset hpattern, hname⟩)
  obtain ⟨pieces, rest, hscan, hends⟩ := (g.matcher s.target).exists_scans word
  obtain rfl : rest = [] := by
    obtain hend | ⟨stretch, fault, hmeets⟩ := hends
    · exact hend
    · obtain ⟨answer, hanswer⟩ := hanswers stretch
      cases hanswer.symm.trans hmeets.answer
  refine ⟨⟨pieces, hscan, substituteFrom_of_scans hscan, fun stretch segments hmem => ?_⟩,
    fun k hk hback => ?_⟩
  · obtain ⟨hflatten, hderives, hfirst⟩ := captures_of_answer (hscan.answer_of_mem hmem).2
    obtain ⟨found, henum⟩ :=
      exists_enumerates_of_acyclic hresolved hbodies hplain hacyclic stretch
    exact ⟨hflatten, hderives, found, henum, hfirst found henum⟩
  · have hsame : ∀ stretch segments, .matched stretch segments ∈ pieces →
        s.replacement.expand rule g.useWeights (some (cut segments stretch)) = .done stretch := by
      intro stretch segments hmem
      obtain ⟨hne, hanswer⟩ := hscan.answer_of_mem hmem
      obtain ⟨hflatten, -, -⟩ := captures_of_answer hanswer
      have hlength : (cut segments stretch).length = k := by
        rw [length_cut, hk stretch segments hne hanswer]
      obtain hback | ⟨rfl, hback⟩ := hback
      · rw [hback, ← hlength, expand_captures, hflatten]
      · obtain ⟨text, htext⟩ := List.length_eq_one_iff.mp hlength
        rw [htext, List.flatten_singleton] at hflatten
        rw [hback, htext, hflatten]
        rfl
    obtain ⟨events, hrun⟩ := run?_foldlM_writePiece r.name hsame []
    refine ⟨events, fun source => ?_⟩
    rw [substituteFrom_of_scans hscan, hrun, List.nil_append, ← hscan.original, List.append_nil]

/-- A consonant, which there may be none of, and a vowel. -/
def syllable : Expr Float := .seq [.ref "C", .ref "V"]

/-- Puts a syllable back as it is. -/
def intact : Substitution Float := ⟨syllable, .seq [.capture 0, .capture 1]⟩

/-- Words of up to three syllables, each of them put back. -/
def syllabic : Grammar Float where
  rules := [
    ⟨"C", .choice [⟨.atom "t", 1⟩, ⟨.atom "", 1⟩], [], []⟩,
    ⟨"V", .choice [⟨.atom "a", 1⟩, ⟨.atom "é", 1⟩], [], []⟩,
    ⟨"W", .repeated syllable 1 3, [], [intact]⟩]
  root := "W"
  useWeights := false

theorem captures_divide_match_syllabic :
    syllabic.Resolved ∧ syllabic.CaptureFree ∧
      (∃ r ∈ syllabic.rules, r.name = "W" ∧ intact ∈ r.substitutions) ∧
      intact.target.hasCaptures = false ∧
      (∀ name ∈ intact.target.references, ¬ syllabic.CycleBelow name) ∧
      (∀ stretch segments, stretch ≠ [] →
        syllabic.matcher intact.target stretch = .ok (some segments) → segments.length = 2) ∧
      intact.replacement = .seq (captures 2) ∧
      ∃ events, ∀ source, (syllabic.substituteFrom (syllabic.ruleWord 1) "W" intact "stéa".toList
        0).run? source = some ⟨.ok "stéa".toList, source, events⟩ := by
  have hresolved : syllabic.Resolved := by decide
  have hbodies : syllabic.CaptureFree := by decide
  have hr : ⟨"W", .repeated syllable 1 3, [], [intact]⟩ ∈ syllabic.rules :=
    List.mem_cons_of_mem _ (List.mem_cons_of_mem _ (List.mem_cons_self ..))
  have hacyclic : ∀ name ∈ intact.target.references, ¬ syllabic.CycleBelow name :=
    fun name _ => not_cycleBelow_of_flat (by decide) name
  have htwo : ∀ stretch segments, stretch ≠ [] →
      syllabic.matcher intact.target stretch = .ok (some segments) → segments.length = 2 := by
    rintro stretch segments - hanswer
    obtain ⟨pieces, hderives, -, rfl⟩ := (matcher_decides _).sound _ _ hanswer
    obtain ⟨_, _, hconsonant, hothers, rfl⟩ := derives_cons.mp hderives
    obtain ⟨_, _, hvowel, hnone, rfl⟩ := derives_cons.mp hothers
    rw [derives_nil.mp hnone, List.append_nil, List.length_map, List.length_append,
      ((derives_ref rfl).mp hconsonant).length_of_atoms (by simp),
      ((derives_ref rfl).mp hvowel).length_of_atoms (by simp)]
  obtain ⟨-, hkept⟩ := captures_divide_match hresolved hbodies hr (List.mem_singleton_self intact)
    rfl hacyclic (syllabic.ruleWord 1) "stéa".toList
  exact ⟨hresolved, hbodies, ⟨_, hr, rfl, List.mem_singleton_self intact⟩, rfl, hacyclic, htwo, rfl,
    hkept 2 htwo (.inl rfl)⟩

end WordGrammar.Grammar
