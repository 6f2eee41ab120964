import WordGrammar.Proofs.Pattern.Limits

namespace WordGrammar.Pattern

variable {α β : Type} {kind : Kind} {inner : Reader (Expr Float)} {source rest : List Char}

/-- What an objection says of the text before the place where it is raised, and of the text from
    there on. -/
def Objection.Fits (before rest : List Char) : Objection → Prop
  | .unexpected c => rest.head? = some c
  | .unclosedAtom => rest.head? = some '\''
  | .unclosedOption => '(' ∈ before ∧ rest.head? ≠ some ')'
  | .unclosedGroup => '[' ∈ before ∧ rest.head? ≠ some ']'
  | .unclosedBounds => '\x7b' ∈ before ∧ rest = []
  | .invalidBounds | .invalidRange => rest.head? = some '\x7b'
  /- The weight is missing behind its mark and behind blanks. -/
  | .invalidWeight =>
    ∃ front blanks, before = front ++ '*' :: blanks ∧ ∀ c ∈ blanks, isBlank c = true
  | .unclosedCapture | .invalidCapture => rest.head? = some '#'

/-- It does not matter what comes before all of it. -/
theorem Objection.Fits.append {objection : Objection} {before : List Char}
    (hfits : objection.Fits before rest) (front : List Char) :
    objection.Fits (front ++ before) rest := by
  cases objection with
  | unclosedOption => exact ⟨List.mem_append_right front hfits.1, hfits.2⟩
  | unclosedGroup => exact ⟨List.mem_append_right front hfits.1, hfits.2⟩
  | unclosedBounds => exact ⟨List.mem_append_right front hfits.1, hfits.2⟩
  | invalidWeight =>
    obtain ⟨taken, blanks, rfl, hblanks⟩ := hfits
    exact ⟨front ++ taken, blanks, (List.append_assoc ..).symm, hblanks⟩
  | _ => exact hfits

/-- If something in the source is objected to, the objection fits where it is raised. -/
def Anchored (source : List Char) (result : Except Refusal α) : Prop :=
  ∀ refusal, result = .error refusal →
    ∃ before, source = before ++ refusal.rest ∧ refusal.objection.Fits before refusal.rest

namespace Anchored

theorem ok (a : α) : Anchored source (.ok a) := nofun

theorem error {objection : Objection} {before : List Char} (hfits : objection.Fits before rest) :
    Anchored (before ++ rest) (.error ⟨objection, rest⟩ : Except Refusal α) := by
  rintro refusal ⟨⟩
  exact ⟨before, rfl, hfits⟩

theorem here {objection : Objection} (hfits : objection.Fits [] rest) :
    Anchored rest (.error ⟨objection, rest⟩ : Except Refusal α) :=
  .error hfits

theorem append {result : Except Refusal α} (hanchored : Anchored source result)
    (front : List Char) : Anchored (front ++ source) result := by
  intro refusal hrefusal
  obtain ⟨before, rfl, hfits⟩ := hanchored refusal hrefusal
  exact ⟨front ++ before, (List.append_assoc ..).symm, hfits.append front⟩

/-- What is objected to later on is objected to in what is left of the source. -/
theorem bind {r : Reader α} {f : α × List Char → Except Refusal β} (hsees : Nearsighted r)
    (hr : Anchored source (r source)) (hf : ∀ a rest, Anchored rest (f (a, rest))) :
    Anchored source (r source >>= f) := by
  intro refusal hrefusal
  rcases Outcome.bind_eq_error_iff.mp hrefusal with hfirst | ⟨⟨a, rest⟩, hfirst, hsecond⟩
  · exact hr refusal hfirst
  · obtain ⟨taken, rfl, -⟩ := hsees.ok hfirst
    exact (hf a rest).append taken refusal hsecond

/-- Nothing is objected to in a result that is only put together. -/
theorem map {result : Except Refusal (α × List Char)} {f : α × List Char → β}
    (hanchored : Anchored source result) :
    Anchored source (result >>= fun read => .ok (f read)) := by
  intro refusal hrefusal
  rcases Outcome.bind_eq_error_iff.mp hrefusal with hfirst | ⟨read, -, hsecond⟩
  · exact hanchored refusal hfirst
  · cases hsecond

theorem behindBlanks {result : Except Refusal α} (hanchored : Anchored (skipBlanks source) result) :
    Anchored source result := by
  rw [← List.takeWhile_append_dropWhile (p := isBlank) (l := source)]
  exact hanchored.append _

end Anchored

section Words

theorem anchored_readAtom :
    Anchored ('\'' :: rest) (readAtom ('\'' :: rest) rest) := by
  unfold readAtom
  split
  · exact .ok _
  · exact .here rfl

theorem anchored_readCapture :
    Anchored ('#' :: rest) (readCapture ('#' :: rest) rest) := by
  unfold readCapture
  split
  · split
    · exact .ok _
    · exact .here rfl
  · exact .here rfl

theorem anchored_readBounds :
    Anchored ('\x7b' :: rest) (readBounds ('\x7b' :: rest) rest) := by
  unfold readBounds
  split
  · have hfits : Objection.unclosedBounds.Fits ('\x7b' :: rest) [] := ⟨List.mem_cons_self, rfl⟩
    simpa using Anchored.error hfits
  · split
    · exact .ok _
    · rename_i objection hobjection
      rcases objection_of_boundsOf hobjection with rfl | rfl
      · exact .here rfl
      · exact .here rfl

theorem anchored_readOptionalWeight : Anchored source (readOptionalWeight source) := by
  unfold readOptionalWeight
  split
  · exact .ok _
  · rename_i next hsymbol
    split
    · exact .ok _
    · obtain ⟨behind, rfl, blanks, rfl, hblanks⟩ := word_of_symbol? hsymbol
      have hfits : Objection.invalidWeight.Fits ('*' :: blanks) next :=
        ⟨[], blanks, rfl, hblanks⟩
      exact .error hfits

/-- A closing bracket is missing where another character stands, or none. -/
theorem anchored_close {bracket : Char} {objection : Objection} {before : List Char}
    (hfits : rest.head? ≠ some bracket → objection.Fits before rest) :
    Anchored (before ++ rest) (close bracket objection rest) := by
  unfold close
  split
  · exact .ok _
  · rename_i hsymbol
    refine .error (hfits fun hhead => ?_)
    obtain ⟨more, rfl⟩ := List.head?_eq_some_iff.mp hhead
    simp [symbol?] at hsymbol

end Words

section Levels

/-- Brackets, of which the closing one is missing behind the opening one. -/
theorem anchored_bracketed (hsees : Nearsighted inner)
    (hinner : ∀ source, Anchored source (inner source)) (f : Expr Float → Expr Float)
    {opening closing : Char} {objection : Objection}
    (hfits : ∀ before rest, opening ∈ before → rest.head? ≠ some closing →
      objection.Fits before rest) :
    Anchored (opening :: rest) (inner (skipBlanks rest) >>= fun read =>
      close closing objection read.2 >>= fun rest => .ok (f read.1, rest)) := by
  intro refusal hrefusal
  rcases Outcome.bind_eq_error_iff.mp hrefusal with hbody | ⟨⟨body, behind⟩, hbody, hclose⟩
  · exact ((hinner _).behindBlanks.append [opening]) refusal hbody
  · obtain ⟨taken, hrest, -⟩ := hsees.behindBlanks.ok hbody
    rw [hrest, ← List.cons_append]
    exact anchored_close (hfits (opening :: taken) behind List.mem_cons_self) refusal
      (Outcome.error_of_bind_ok hclose)

theorem anchored_term (hsees : Nearsighted inner)
    (hinner : ∀ source, Anchored source (inner source)) :
    Anchored source (term kind inner source) := by
  unfold term
  split
  · exact .ok _
  · exact anchored_readAtom.map
  · exact anchored_bracketed hsees hinner .optional fun _ _ => And.intro
  · exact anchored_bracketed hsees hinner id fun _ _ => And.intro
  · split
    · rename_i hcapture
      obtain ⟨rfl, -⟩ := hcapture
      exact anchored_readCapture.map
    · split
      · exact .ok _
      · exact .here rfl

theorem anchored_quantified (hsees : Nearsighted inner)
    (hinner : ∀ source, Anchored source (inner source)) :
    Anchored source (quantified kind inner source) := by
  refine .bind (nearsighted_term hsees) (anchored_term hsees hinner) fun body rest => ?_
  dsimp only
  split
  · exact anchored_readBounds.map
  · exact .ok _

theorem anchored_following {separator : Char} {item : Reader α} (hsees : Nearsighted item)
    (hitem : ∀ source, Anchored source (item source)) (budget : Nat) :
    Anchored source (following separator item budget source) := by
  induction budget generalizing source with
  | zero => exact .ok _
  | succ budget ih =>
    unfold following
    split
    · exact .ok _
    · rename_i next hsymbol
      obtain ⟨behind, rfl, blanks, rfl, -⟩ := word_of_symbol? hsymbol
      have hnext : Anchored next (item next >>= fun read =>
          following separator item budget read.2 >>= fun later =>
            .ok (read.1 :: later.1, later.2)) :=
        .bind hsees (hitem next) fun _ _ => ih.map
      exact (hnext.append blanks).append [separator]

theorem anchored_sequence (hsees : Nearsighted inner)
    (hinner : ∀ source, Anchored source (inner source)) :
    Anchored source (sequence kind inner source) := by
  have hitem : Nearsighted (quantified kind inner) := nearsighted_quantified hsees
  refine .bind hitem (anchored_quantified hsees hinner) fun _ _ => ?_
  exact (anchored_following hitem (fun _ => anchored_quantified hsees hinner) _).map

theorem anchored_alternative (hsees : Nearsighted inner)
    (hinner : ∀ source, Anchored source (inner source)) :
    Anchored source (alternative kind inner source) :=
  .bind (nearsighted_sequence hsees) (anchored_sequence hsees hinner) fun _ _ =>
    anchored_readOptionalWeight.map

theorem anchored_choice (hsees : Nearsighted inner)
    (hinner : ∀ source, Anchored source (inner source)) :
    Anchored source (choice kind inner source) := by
  have hitem : Nearsighted (alternative kind inner) := nearsighted_alternative hsees
  refine .bind hitem (anchored_alternative hsees hinner) fun _ _ => ?_
  exact (anchored_following hitem (fun _ => anchored_alternative hsees hinner) _).map

theorem anchored_expression (depth : Nat) (source : List Char) :
    Anchored source (expression kind depth source) := by
  induction depth generalizing source with
  | zero => exact .ok _
  | succ depth ih => exact anchored_choice (nearsighted_expression depth) ih

theorem anchored_whole : Anchored source (whole kind source) := by
  refine .behindBlanks (.bind nearsighted_unlimited (anchored_expression _ _) fun e rest => ?_)
  cases rest with
  | nil => exact .ok _
  | cons c more => exact .here rfl

end Levels

/-- Whatever a text is refused for, the position is within the text, counted in characters, and the
    objection fits what stands before it and from it on. -/
theorem fits_of_read_eq_error {text : String} {malformed : Malformed}
    (hread : read kind text = .error malformed) :
    malformed.position ≤ text.length ∧
      malformed.objection.Fits (text.toList.take malformed.position)
        (text.toList.drop malformed.position) := by
  obtain ⟨⟨objection, rest⟩, hwhole, rfl⟩ := read_eq_error_iff.mp hread
  obtain ⟨before, htext, hfits⟩ := anchored_whole _ hwhole
  dsimp only at htext hfits ⊢
  have hposition : text.toList.length - rest.length = before.length := by simp [htext]
  rw [hposition, htext, List.take_left, List.drop_left, ← String.length_toList, htext,
    List.length_append]
  exact ⟨Nat.le_add_right _ _, hfits⟩

/-- The weight is missing at the tenth character, which is the eleventh byte. -/
theorem fits_at_missing_weight :
    read .replacement "['λ' * \n x]" = .error ⟨.invalidWeight, 9⟩ ∧
      9 ≤ "['λ' * \n x]".length ∧
        Objection.invalidWeight.Fits ("['λ' * \n x]".toList.take 9)
          ("['λ' * \n x]".toList.drop 9) :=
  have hread : read .replacement "['λ' * \n x]" = .error ⟨.invalidWeight, 9⟩ := by cbv
  ⟨hread, fits_of_read_eq_error hread⟩

-- Brackets are missed at the end of a text, or where something else stands.
example : parse "[a.(b" = .error ⟨.unclosedOption, 5⟩ ∧
    parse "[a.(b ]" = .error ⟨.unclosedOption, 6⟩ ∧
    parse "a\x7b1 " = .error ⟨.unclosedBounds, 4⟩ := by
  cbv

end WordGrammar.Pattern
