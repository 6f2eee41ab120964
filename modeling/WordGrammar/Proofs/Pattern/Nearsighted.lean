import WordGrammar.Proofs.Pattern.Soundness

namespace WordGrammar.Pattern

variable {α β : Type} {kind : Kind} {inner : Reader (Expr Float)}

/-- The second rest begins as the first, or is empty. -/
def Resumes (rest rest' : List Char) : Prop := ∀ c ∈ rest'.head?, c ∈ rest.head?

theorem Resumes.cons (c : Char) (more more' : List Char) : Resumes (c :: more) (c :: more') :=
  fun _ hhead => hhead

theorem Resumes.append {rest rest' : List Char} (hresumes : Resumes rest rest')
    (front : List Char) : Resumes (front ++ rest) (front ++ rest') := by
  cases front with
  | nil => exact hresumes
  | cons c front => exact fun _ hhead => hhead

/-- What the reader makes of a source is settled by what it takes and the first character that it
    leaves. -/
structure Nearsighted (r : Reader α) : Prop where
  ok {source : List Char} {a : α} {rest : List Char} : r source = .ok (a, rest) →
    ∃ before, source = before ++ rest ∧
      ∀ rest', Resumes rest rest' → r (before ++ rest') = .ok (a, rest')
  unexpected {source : List Char} {c : Char} {rest : List Char} :
    r source = .error ⟨.unexpected c, rest⟩ →
      ∃ before more, rest = c :: more ∧ source = before ++ c :: more ∧
        ∀ more', r (before ++ c :: more') = .error ⟨.unexpected c, c :: more'⟩

namespace Nearsighted

variable {r : Reader α}

theorem length_le (hr : Nearsighted r) {source rest : List Char} {a : α}
    (hread : r source = .ok (a, rest)) : rest.length ≤ source.length := by
  obtain ⟨before, rfl, -⟩ := hr.ok hread
  rw [List.length_append]
  omega

theorem pure (a : α) : Nearsighted fun source => .ok (a, source) where
  ok hread := by
    cases hread
    exact ⟨[], rfl, fun _ _ => rfl⟩
  unexpected hread := by cases hread

theorem bind {f : α × List Char → Except Refusal (β × List Char)} (hr : Nearsighted r)
    (hf : ∀ a, Nearsighted fun rest => f (a, rest)) : Nearsighted fun source => r source >>= f where
  ok hread := by
    obtain ⟨⟨a, between⟩, hfirst, hsecond⟩ := Outcome.bind_eq_ok_iff.mp hread
    obtain ⟨front, rfl, hfront⟩ := hr.ok hfirst
    obtain ⟨later, rfl, hlater⟩ := (hf a).ok hsecond
    refine ⟨front ++ later, (List.append_assoc ..).symm, fun rest' hresumes => ?_⟩
    rw [List.append_assoc]
    exact Outcome.bind_eq_ok_iff.mpr ⟨_, hfront _ (hresumes.append later), hlater _ hresumes⟩
  unexpected {source c rest} hread := by
    rcases Outcome.bind_eq_error_iff.mp hread with hfirst | ⟨⟨a, between⟩, hfirst, hsecond⟩
    · obtain ⟨before, more, hrest, hsource, hbefore⟩ := hr.unexpected hfirst
      refine ⟨before, more, hrest, hsource, fun more' => ?_⟩
      exact Outcome.bind_eq_error_iff.mpr (.inl (hbefore more'))
    · obtain ⟨front, rfl, hfront⟩ := hr.ok hfirst
      obtain ⟨later, more, rfl, rfl, hlater⟩ := (hf a).unexpected hsecond
      refine ⟨front ++ later, more, rfl, (List.append_assoc ..).symm, fun more' => ?_⟩
      have hresumes := Resumes.cons c more more'
      rw [List.append_assoc]
      exact Outcome.bind_eq_error_iff.mpr
        (.inr ⟨_, hfront _ (hresumes.append later), hlater more'⟩)

/-- A reader that looks at one character first goes on behind it, or leaves it and everything as at
    the end of the source, or objects to it. -/
theorem of_cons (a₀ : α) (hnil : r [] = .ok (a₀, []))
    (hcons : ∀ c, Nearsighted (fun more => r (c :: more)) ∨
      (∀ more, r (c :: more) = .ok (a₀, c :: more)) ∨
      ∀ more, r (c :: more) = .error ⟨.unexpected c, c :: more⟩) : Nearsighted r where
  ok {source a rest} hread := by
    cases source with
    | nil =>
      rw [hnil] at hread
      cases hread
      refine ⟨[], rfl, fun rest' hresumes => ?_⟩
      cases rest' with
      | nil => exact hnil
      | cons c more => cases hresumes c rfl
    | cons c more =>
      rcases hcons c with hbehind | hleft | hobjects
      · obtain ⟨before, rfl, hbefore⟩ := hbehind.ok hread
        exact ⟨c :: before, rfl, hbefore⟩
      · rw [hleft] at hread
        cases hread
        refine ⟨[], rfl, fun rest' hresumes => ?_⟩
        cases rest' with
        | nil => exact hnil
        | cons d more' =>
          obtain rfl : c = d := by simpa using hresumes d rfl
          exact hleft more'
      · rw [hobjects] at hread
        cases hread
  unexpected {source d rest} hread := by
    cases source with
    | nil =>
      rw [hnil] at hread
      cases hread
    | cons c more =>
      rcases hcons c with hbehind | hleft | hobjects
      · obtain ⟨before, more, rfl, rfl, hbefore⟩ := hbehind.unexpected hread
        exact ⟨c :: before, more, rfl, rfl, hbefore⟩
      · rw [hleft] at hread
        cases hread
      · rw [hobjects] at hread
        cases hread
        exact ⟨[], more, rfl, rfl, hobjects⟩

/-- A reader that takes one symbol first, and objects to its absence rather than to what stands in
    its place. -/
theorem of_symbol (symbol : Char) (hsymbol : Nearsighted fun more => r (symbol :: more))
    (helse : ∀ source, source.head? ≠ some symbol →
      ∃ refusal, r source = .error refusal ∧ ∀ c, refusal.objection ≠ .unexpected c) :
    Nearsighted r where
  ok {source a rest} hread := by
    by_cases hhead : source.head? = some symbol
    · obtain ⟨more, rfl⟩ := List.head?_eq_some_iff.mp hhead
      obtain ⟨before, rfl, hbefore⟩ := hsymbol.ok hread
      exact ⟨symbol :: before, rfl, hbefore⟩
    · obtain ⟨refusal, hrefusal, -⟩ := helse source hhead
      rw [hrefusal] at hread
      cases hread
  unexpected {source c rest} hread := by
    by_cases hhead : source.head? = some symbol
    · obtain ⟨more, rfl⟩ := List.head?_eq_some_iff.mp hhead
      obtain ⟨before, later, rfl, rfl, hbefore⟩ := hsymbol.unexpected hread
      exact ⟨symbol :: before, later, rfl, rfl, hbefore⟩
    · obtain ⟨refusal, hrefusal, hother⟩ := helse source hhead
      rw [hrefusal] at hread
      cases hread
      exact (hother c rfl).elim

end Nearsighted

section Words

/-- A run ends at the first character that is none of it, whatever stands behind. -/
theorem nearsighted_run (p : Char → Bool) :
    Nearsighted fun source => .ok (source.takeWhile p, source.dropWhile p) where
  ok {source a rest} hread := by
    cases hread
    refine ⟨source.takeWhile p, List.takeWhile_append_dropWhile.symm, fun rest' hresumes => ?_⟩
    have hrun : ∀ c ∈ source.takeWhile p, p c = true := fun _ => List.mem_takeWhile_imp
    have hstop : ∀ c ∈ rest'.head?, p c = false :=
      fun c hhead => not_of_mem_head?_dropWhile c (hresumes c hhead)
    rw [takeWhile_run hrun hstop, dropWhile_run hrun hstop]
  unexpected hread := by cases hread

theorem nearsighted_skipBlanks (a : α) : Nearsighted fun source => .ok (a, skipBlanks source) :=
  (nearsighted_run isBlank).bind (f := fun read => .ok (a, read.2)) fun _ => .pure a

theorem Nearsighted.behindBlanks {r : Reader α} (hr : Nearsighted r) :
    Nearsighted fun source => r (skipBlanks source) :=
  (nearsighted_skipBlanks ()).bind (f := fun read => r read.2) fun _ => hr

theorem close_ne_unexpected {bracket : Char} {objection : Objection}
    (hother : ∀ c, objection ≠ .unexpected c) {source rest : List Char} {c : Char} {a : α} :
    (close bracket objection source >>= fun rest => .ok (a, rest)) ≠
      .error ⟨.unexpected c, rest⟩ := by
  unfold close
  split
  · exact nofun
  · rintro ⟨⟩
    exact hother c rfl

theorem nearsighted_close (bracket : Char) {objection : Objection}
    (hother : ∀ c, objection ≠ .unexpected c) (a : α) :
    Nearsighted fun source => close bracket objection source >>= fun rest => .ok (a, rest) := by
  refine .of_symbol bracket ?_ fun source hhead => ?_
  · simp only [close, symbol?, if_true]
    exact nearsighted_skipBlanks a
  · refine ⟨⟨objection, source⟩, ?_, hother⟩
    cases source with
    | nil => rfl
    | cons c more =>
      have hne : c ≠ bracket := by simpa using hhead
      simp only [close, symbol?, if_neg hne]
      rfl

/-- A word is settled by itself and the character behind it, and blanks behind it are skipped. -/
theorem Nearsighted.of_word {r : Reader α}
    (hok : ∀ source a rest, r source = .ok (a, rest) →
      ∃ word behind, source = word ++ behind ∧ rest = skipBlanks behind ∧
        ∀ behind', Resumes behind behind' → r (word ++ behind') = .ok (a, skipBlanks behind'))
    (hother : ∀ source c rest, r source ≠ .error ⟨.unexpected c, rest⟩) : Nearsighted r where
  ok {source a rest} hread := by
    obtain ⟨word, behind, rfl, rfl, hword⟩ := hok source a rest hread
    have hread : (Except.ok (a, skipBlanks behind) : Except Refusal (α × List Char)) = _ := rfl
    obtain ⟨blanks, hblanks, hskip⟩ := (nearsighted_skipBlanks a).ok hread
    refine ⟨word ++ blanks, ?_, fun rest' hresumes => ?_⟩
    · rw [List.append_assoc, ← hblanks]
    · have hbehind : Resumes behind (blanks ++ rest') := hblanks ▸ hresumes.append blanks
      rw [List.append_assoc, hword _ hbehind]
      exact hskip rest' hresumes
  unexpected {source c rest} hread := (hother source c rest hread).elim

theorem readAtom_ne_unexpected {source rest rest' : List Char} {c : Char} :
    readAtom source rest ≠ .error ⟨.unexpected c, rest'⟩ := by
  unfold readAtom
  split <;> simp

theorem nearsighted_readAtom (quoted : List Char → List Char) :
    Nearsighted fun rest => readAtom (quoted rest) rest := by
  refine .of_word (fun source text rest hread => ?_) fun _ _ _ => readAtom_ne_unexpected
  obtain ⟨written, chars, behind, rfl, hquoted, rfl, rfl⟩ := quoted_of_readAtom hread
  refine ⟨written ++ ['\''], behind, by simp, rfl, fun behind' _ => ?_⟩
  rw [List.append_assoc]
  exact readAtom_of_quoted _ hquoted behind'

theorem readCapture_ne_unexpected {source rest rest' : List Char} {c : Char} :
    readCapture source rest ≠ .error ⟨.unexpected c, rest'⟩ := by
  unfold readCapture
  split
  · split <;> simp
  · simp

theorem nearsighted_readCapture (marked : List Char → List Char) :
    Nearsighted fun rest => readCapture (marked rest) rest := by
  refine .of_word (fun source index rest hread => ?_) fun _ _ _ => readCapture_ne_unexpected
  obtain ⟨digits, behind, hindex, rfl, rfl⟩ := isNumeral_of_readCapture hread
  refine ⟨digits ++ ['#'], behind, by simp, rfl, fun behind' _ => ?_⟩
  rw [List.append_assoc]
  exact readCapture_of_isNumeral _ hindex behind'

theorem readBounds_ne_unexpected {source rest rest' : List Char} {c : Char} :
    readBounds source rest ≠ .error ⟨.unexpected c, rest'⟩ := by
  unfold readBounds
  split
  · simp
  · split
    · simp
    · rename_i objection hobjection
      rcases objection_of_boundsOf hobjection with rfl | rfl <;> simp

theorem nearsighted_readBounds (braced : List Char → List Char) :
    Nearsighted fun rest => readBounds (braced rest) rest := by
  refine .of_word (fun source bounds rest hread => ?_) fun _ _ _ => readBounds_ne_unexpected
  obtain ⟨inside, behind, hbounds, rfl, rfl⟩ := isBounds_of_readBounds hread
  refine ⟨inside ++ ['\x7d'], behind, by simp, rfl, fun behind' _ => ?_⟩
  rw [List.append_assoc]
  exact readBounds_of_isBounds _ hbounds behind'

theorem readOptionalWeight_ne_unexpected {source rest : List Char} {c : Char} :
    readOptionalWeight source ≠ .error ⟨.unexpected c, rest⟩ := by
  unfold readOptionalWeight
  split
  · simp
  · split <;> simp

theorem nearsighted_readOptionalWeight : Nearsighted readOptionalWeight := by
  refine .of_cons none rfl fun c => ?_
  by_cases hstar : c = '*'
  · subst hstar
    -- Behind the mark and its blanks, a weight is a word.
    have hweight : Nearsighted fun source =>
        (readWeight? (source.takeWhile isWeightChar)).elim (.error ⟨.invalidWeight, source⟩)
          fun weight => .ok (some weight, skipBlanks (source.dropWhile isWeightChar)) := by
      refine .of_word (fun source weight rest hread => ?_) fun source c rest => ?_
      · cases hdigits : readWeight? (source.takeWhile isWeightChar) with
        | none =>
          rw [hdigits] at hread
          cases hread
        | some weight =>
          rw [hdigits] at hread
          cases hread
          refine ⟨_, _, List.takeWhile_append_dropWhile.symm, rfl, fun behind' hresumes => ?_⟩
          have hrun : ∀ c ∈ source.takeWhile isWeightChar, isWeightChar c = true :=
            fun _ => List.mem_takeWhile_imp
          have hstop : ∀ c ∈ behind'.head?, isWeightChar c = false :=
            fun c hhead => not_of_mem_head?_dropWhile c (hresumes c hhead)
          rw [takeWhile_run hrun hstop, dropWhile_run hrun hstop, hdigits]
          rfl
      · cases readWeight? (source.takeWhile isWeightChar) <;> simp
    refine .inl ?_
    convert hweight.behindBlanks using 2 with more
    simp only [readOptionalWeight, symbol?, if_true]
    cases readWeight? ((skipBlanks more).takeWhile isWeightChar) <;> rfl
  · refine .inr (.inl fun more => ?_)
    simp only [readOptionalWeight, symbol?, if_neg hstar]

end Words

section Levels

theorem nearsighted_bracketed (hinner : Nearsighted inner) (bracket : Char) {objection : Objection}
    (hother : ∀ c, objection ≠ .unexpected c) (f : Expr Float → Expr Float) :
    Nearsighted fun source => inner (skipBlanks source) >>= fun read =>
      close bracket objection read.2 >>= fun rest => .ok (f read.1, rest) :=
  hinner.behindBlanks.bind fun body => nearsighted_close bracket hother (f body)

theorem nearsighted_term (hinner : Nearsighted inner) : Nearsighted (term kind inner) := by
  refine .of_cons (.atom "") rfl fun c => ?_
  by_cases hquote : c = '\''
  · subst hquote
    exact .inl ((nearsighted_readAtom _).bind fun text => Nearsighted.pure (Expr.atom text))
  by_cases hparenthesis : c = '('
  · subst hparenthesis
    exact .inl (nearsighted_bracketed hinner ')' (by simp) .optional)
  by_cases hbracket : c = '['
  · subst hbracket
    exact .inl (nearsighted_bracketed hinner ']' (by simp) id)
  have hterm (more : List Char) : term kind inner (c :: more) =
      if c = '#' ∧ kind = .replacement then
        readCapture (c :: more) more >>= fun read => .ok (.capture read.1, read.2)
      else if Name.isStart c then .ok (.ref (readName (c :: more)).1, (readName (c :: more)).2)
      else .error ⟨.unexpected c, c :: more⟩ := by
    rw [term]
    all_goals assumption
  simp only [hterm]
  by_cases hcapture : c = '#' ∧ kind = .replacement
  · simp only [if_pos hcapture]
    exact .inl ((nearsighted_readCapture _).bind fun index =>
      Nearsighted.pure (Expr.capture index))
  · by_cases hstart : Name.isStart c = true
    · have hpart := Name.isPart_of_isStart hstart
      simp only [if_neg hcapture, if_pos hstart, readName, List.takeWhile_cons_of_pos hpart,
        List.dropWhile_cons_of_pos hpart]
      exact .inl ((nearsighted_run Name.isPart).bind
        (f := fun read => .ok (Expr.ref (String.ofList (c :: read.1)), skipBlanks read.2))
        fun part => nearsighted_skipBlanks (Expr.ref (String.ofList (c :: part))))
    · exact .inr (.inr fun more => by rw [if_neg hcapture, if_neg hstart])

theorem nearsighted_quantified (hinner : Nearsighted inner) :
    Nearsighted (quantified kind inner) := by
  refine (nearsighted_term hinner).bind fun body => .of_cons body rfl fun c => ?_
  by_cases hbrace : c = '\x7b'
  · subst hbrace
    exact .inl ((nearsighted_readBounds _).bind fun bounds =>
      Nearsighted.pure (Expr.repeated body bounds.1 bounds.2))
  · refine .inr (.inl fun more => ?_)
    simp [hbrace]

theorem nearsighted_following {separator : Char} {item : Reader α} (hitem : Nearsighted item)
    (budget : Nat) : Nearsighted (following separator item budget) := by
  induction budget with
  | zero => exact .pure []
  | succ budget ih =>
    refine .of_cons [] rfl fun c => ?_
    by_cases hseparator : c = separator
    · simp only [following, symbol?, if_pos hseparator]
      refine .inl (hitem.bind fun a => ?_).behindBlanks
      dsimp only
      exact ih.bind fun others => .pure (a :: others)
    · refine .inr (.inl fun more => ?_)
      simp only [following, symbol?, if_neg hseparator]

end Levels

end WordGrammar.Pattern
