import WordGrammar.Proofs.Matcher.Language

namespace WordGrammar

/-- The match lies inside the text, and its segments divide it into pieces. -/
structure Hit.Within (hit : Hit) (s : List Char) : Prop where
  length : hit.length ≤ s.length
  segments : ∃ pieces : List (List Char),
    pieces.flatten = s.take hit.length ∧ pieces.map List.length = hit.segments

/-- The occurrence is one in the text. -/
structure Occurrence.Within (o : Occurrence) (s : List Char) : Prop where
  text : o.text = s
  stop : o.start + o.hit.length ≤ s.length
  hit : o.hit.Within (s.drop o.start)

namespace Matcher

open Search

variable {p : Matcher} {s : List Char}

theorem answer_of_hit? {hit : Hit} (hhit : p.hit? s = .ok (some hit)) :
    hit.length ≤ s.length ∧ p (s.take hit.length) = .ok (some hit.segments) := by
  obtain ⟨k, hmem, hk⟩ := exists_of_found hhit
  obtain ⟨answer, hanswer, hok⟩ := Outcome.bind_eq_ok_iff.mp hk
  cases answer with
  | none => cases hok
  | some segments =>
    cases hok
    exact ⟨List.mem_range.mp hmem, hanswer⟩

theorem hit_of_find? {o : Occurrence} (hfind : p.find? s = .ok (some o)) :
    o.text = s ∧ o.start < s.length ∧ p.hit? (s.drop o.start) = .ok (some o.hit) := by
  obtain ⟨start, hmem, hstart⟩ := exists_of_found hfind
  obtain ⟨found, hfound, hok⟩ := Outcome.bind_eq_ok_iff.mp hstart
  cases found with
  | none => cases hok
  | some hit =>
    cases hok
    exact ⟨rfl, List.mem_range.mp hmem, hfound⟩

theorem hit?_eq_none_iff :
    p.hit? s = .ok none ↔ ∀ k < s.length, p (s.take (k + 1)) = .ok none := by
  unfold hit?
  simp only [none_iff, List.mem_range, Outcome.map_eq_none_iff]

/-- Nothing is found exactly if no stretch of the text matches, but for the empty one. -/
theorem find?_eq_none_iff :
    p.find? s = .ok none ↔
      ∀ stretch, stretch <:+: s → stretch ≠ [] → p stretch = .ok none := by
  unfold find?
  simp only [none_iff, List.mem_range, Outcome.map_eq_none_iff, hit?_eq_none_iff]
  constructor
  · intro hnone stretch hstretch hne
    obtain ⟨before, after, rfl⟩ := hstretch
    obtain ⟨k, hk⟩ := Nat.exists_eq_add_one_of_ne_zero (List.length_pos_iff.mpr hne).ne'
    have htrial := hnone before.length (by simp; omega) k (by simp; omega)
    rwa [List.append_assoc, List.drop_left, ← hk, List.take_left] at htrial
  · intro hnone start hstart k hk
    apply hnone
    · exact (List.take_prefix _ _).isInfix.trans (List.drop_suffix _ _).isInfix
    · intro hempty
      have hlength := congrArg List.length hempty
      simp only [List.length_take, List.length_nil] at hlength
      omega

end Matcher

namespace Grammar

variable {W : Type} {g : Grammar W} {e : Expr W} {s : List Char}

/-- The segments of an answer divide the text. -/
theorem exists_pieces_of_answer {lengths : List Nat}
    (hanswer : g.matcher e s = .ok (some lengths)) :
    ∃ pieces : List (List Char), pieces.flatten = s ∧ pieces.map List.length = lengths := by
  obtain ⟨pieces, -, hflatten, hlengths⟩ := (matcher_decides e).sound s lengths hanswer
  exact ⟨pieces, hflatten, hlengths⟩

theorem within_of_hit? {hit : Hit} (hhit : (g.matcher e).hit? s = .ok (some hit)) :
    hit.Within s := by
  obtain ⟨hlength, hanswer⟩ := Matcher.answer_of_hit? hhit
  exact ⟨hlength, exists_pieces_of_answer hanswer⟩

theorem within_of_find? {o : Occurrence} (hfind : (g.matcher e).find? s = .ok (some o)) :
    o.Within s := by
  obtain ⟨htext, hstart, hhit⟩ := Matcher.hit_of_find? hfind
  have hwithin := within_of_hit? hhit
  have hlength := hwithin.length
  rw [List.length_drop] at hlength
  exact ⟨htext, by omega, hwithin⟩

end Grammar

end WordGrammar
