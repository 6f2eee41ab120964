import WordGrammar.Generation.Word
import WordGrammar.Proofs.Matcher.Scan
import WordGrammar.Proofs.Sampler.Run

namespace WordGrammar.Grammar

variable {W : Type} [Weight W] {g : Grammar W} {rule : String → Sampler (List Char)}
  {name : String} {s : Substitution W}

/-- Appends to a text what is made of a piece: a character is kept, and for a match the replacement
    is expanded with what its segments capture. -/
def writePiece (g : Grammar W) (rule : String → Sampler (List Char)) (name : String)
    (replacement : Expr W) (written : List Char) : Piece → Sampler (List Char)
  | .kept c => pure (written ++ [c])
  | .matched stretch segments => do
    let text ← replacement.expand rule g.useWeights (some (cut segments stretch))
    Sampler.tell
      (.substituted name (String.ofList stretch) written.length (String.ofList text))
    pure (written ++ text)

/-- Behind what has been written the substitution scans on, and what lies ahead is untouched:
    however long replacements are, it is always an end of the text there was at first. -/
theorem substituteFrom_append {text rest : List Char} {pieces : List Piece}
    (hscan : (g.matcher s.target).Scans text pieces rest) (written : List Char) :
    g.substituteFrom rule name s (written ++ text) written.length =
      pieces.foldlM (g.writePiece rule name s.replacement) written >>= fun written =>
        g.substituteFrom rule name s (written ++ rest) written.length := by
  induction hscan generalizing written with
  | here text => rfl
  | @kept c text rest pieces hmisses _ ih =>
    have hahead : written.length < (written ++ c :: text).length := by simp
    have hlonger := ih (written ++ [c])
    rw [List.length_append, List.length_singleton, List.append_assoc, List.singleton_append]
      at hlonger
    rw [substituteFrom, if_pos hahead, List.drop_left, Matcher.hit?_eq_none_iff_misses.mpr hmisses]
    exact hlonger
  | @matched text stretch later rest segments pieces htext hmeets _ ih =>
    have hpositive := List.length_pos_iff.mpr hmeets.ne_nil
    have hhit : (g.matcher s.target).hit? text = .ok (some ⟨stretch.length - 1, segments⟩) :=
      hmeets.hit?_eq nofun
    have hlength : (⟨stretch.length - 1, segments⟩ : Hit).length = stretch.length :=
      Nat.sub_add_cancel hpositive
    have hahead : written.length < (written ++ text).length := by
      rw [List.length_append, ← htext, List.length_append]
      omega
    rw [substituteFrom, if_pos hahead, List.drop_left, hhit]
    dsimp only
    rw [hlength, ← htext, List.take_left, List.take_left, ← List.drop_drop, List.drop_left,
      List.drop_left, List.foldlM_cons, writePiece]
    simp only [Sampler.bind_bind]
    congr 1
    funext replacement
    congr 1
    funext told
    have hlonger := ih (written ++ replacement)
    rw [List.length_append] at hlonger
    exact hlonger

section Applying

variable {word rest : List Char} {pieces : List Piece}

/-- A text that is scanned to its end is written piece by piece. -/
theorem substituteFrom_of_scans (hscan : (g.matcher s.target).Scans word pieces []) :
    g.substituteFrom rule name s word 0 =
      pieces.foldlM (g.writePiece rule name s.replacement) [] := by
  have hall (written : List Char) :
      g.substituteFrom rule name s (written ++ []) written.length = pure written := by
    rw [substituteFrom, List.append_nil, if_neg (Nat.lt_irrefl _)]
  refine (substituteFrom_append hscan []).trans ?_
  simp only [hall]
  exact Sampler.bind_done _

/-- A match that is at fault ends the scan, once everything before it is written. -/
theorem substituteFrom_of_fault {stretch : List Char} {fault : Fault}
    (hscan : (g.matcher s.target).Scans word pieces rest)
    (hmeets : (g.matcher s.target).Meets rest stretch (.error fault)) :
    g.substituteFrom rule name s word 0 =
      pieces.foldlM (g.writePiece rule name s.replacement) [] >>= fun _ =>
        .stop (.faulted fault) := by
  have hstops (written : List Char) :
      g.substituteFrom rule name s (written ++ rest) written.length = .stop (.faulted fault) := by
    have hpositive := List.length_pos_iff.mpr hmeets.ne_nil
    have hle := hmeets.begins.length_le
    have hhit : (g.matcher s.target).hit? rest = .error fault := hmeets.hit?_eq nofun
    rw [substituteFrom, if_pos (by rw [List.length_append]; omega), List.drop_left, hhit]
  refine (substituteFrom_append hscan []).trans ?_
  simp only [hstops]

/-- If a replacement comes to no text, neither does the substitution, for the same reason and
    without a further draw. -/
theorem run?_substituteFrom_of_stopped {before after : List Piece} {stretch : List Char}
    {segments : List Nat}
    (hscan : (g.matcher s.target).Scans word (before ++ .matched stretch segments :: after) rest)
    {source between left : Source} {written : List Char} {events events' : List Event} {why : Stop}
    (hbefore : (before.foldlM (g.writePiece rule name s.replacement) []).run? source =
      some ⟨.ok written, between, events⟩)
    (hstopped : (s.replacement.expand rule g.useWeights (some (cut segments stretch))).run?
      between = some ⟨.error why, left, events'⟩) :
    (g.substituteFrom rule name s word 0).run? source =
      some ⟨.error why, left, events ++ events'⟩ := by
  have hpiece : (g.writePiece rule name s.replacement written (.matched stretch segments)).run?
      between = some ⟨.error why, left, events'⟩ := Sampler.run?_bind_of_stopped hstopped _
  have hscanned : g.substituteFrom rule name s word 0 = _ := substituteFrom_append hscan []
  simp only [List.foldlM_append, List.foldlM_cons, bind_assoc] at hscanned
  rw [hscanned]
  rw [Sampler.run?_bind_of_done hbefore, Sampler.run?_bind_of_stopped hpiece]
  rfl

end Applying

/-- Substitutions are applied one after the other, each to all that the one before has written. -/
theorem substituteAll_eq_foldlM (substitutions : List (Substitution W)) (word : List Char) :
    g.substituteAll rule name substitutions word =
      substitutions.foldlM (fun text s => g.substituteFrom rule name s text 0) word := by
  induction substitutions generalizing word with
  | nil => rfl
  | cons s substitutions ih =>
    rw [substituteAll, List.foldlM_cons]
    simp only [ih]

/-- A substitution makes one scan of the text that it is applied to, which is the only one there is
    and covers the text by no more pieces than it has characters. It writes what it makes of them
    one after the other, with the draws in this order; a match that is at fault or a replacement
    that comes to no text ends it. Each substitution of a rule is applied to all that the one before
    has written. -/
theorem substitutes_by_scan (g : Grammar W) (rule : String → Sampler (List Char)) (name : String) :
    (∀ (s : Substitution W) (word : List Char), ∃ pieces rest,
      (g.matcher s.target).Scans word pieces rest ∧
      (∀ pieces' rest', (g.matcher s.target).Scans word pieces' rest' → pieces' <+: pieces) ∧
      pieces.flatMap Piece.original ++ rest = word ∧ pieces.length ≤ word.length ∧
      (rest = [] ∧ g.substituteFrom rule name s word 0 =
          pieces.foldlM (g.writePiece rule name s.replacement) [] ∨
        ∃ stretch fault, (g.matcher s.target).Meets rest stretch (.error fault) ∧
          g.substituteFrom rule name s word 0 =
            pieces.foldlM (g.writePiece rule name s.replacement) [] >>= fun _ =>
              .stop (.faulted fault)) ∧
      ∀ before stretch segments after, pieces = before ++ .matched stretch segments :: after →
        ∀ source between left written events events' why,
          (before.foldlM (g.writePiece rule name s.replacement) []).run? source =
            some ⟨.ok written, between, events⟩ →
          (s.replacement.expand rule g.useWeights (some (cut segments stretch))).run? between =
            some ⟨.error why, left, events'⟩ →
          (g.substituteFrom rule name s word 0).run? source =
            some ⟨.error why, left, events ++ events'⟩) ∧
    ∀ substitutions word, g.substituteAll rule name substitutions word =
      substitutions.foldlM (fun text s => g.substituteFrom rule name s text 0) word := by
  refine ⟨fun s word => ?_, substituteAll_eq_foldlM⟩
  obtain ⟨pieces, rest, hscan, hends⟩ := (g.matcher s.target).exists_scans word
  refine ⟨pieces, rest, hscan, fun _ _ => hscan.isPrefix hends, hscan.original, hscan.length_le,
    ?_, ?_⟩
  · rcases hends with rfl | ⟨stretch, fault, hmeets⟩
    · exact .inl ⟨rfl, substituteFrom_of_scans hscan⟩
    · exact .inr ⟨stretch, fault, hmeets, substituteFrom_of_fault hscan hmeets⟩
  · rintro before stretch segments after rfl source between left written events events' why
    exact run?_substituteFrom_of_stopped hscan

end WordGrammar.Grammar
