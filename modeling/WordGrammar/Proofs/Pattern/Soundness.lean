import WordGrammar.Proofs.Outcome
import WordGrammar.Proofs.Pattern.Syntax

namespace WordGrammar.Pattern

variable {α : Type} {kind : Kind} {inner : Reader (Expr Float)} {n : Nat}

section Words

variable {source rest rest' : List Char}

theorem length_skipBlanks_le (source : List Char) : (skipBlanks source).length ≤ source.length :=
  (List.dropWhile_suffix _).length_le

theorem word_of_symbol? {symbol : Char} (hsymbol : symbol? symbol source = some rest) :
    Word [symbol] source rest := by
  cases source with
  | nil => cases hsymbol
  | cons c more =>
    simp only [symbol?, Option.ite_none_right_eq_some, Option.some.injEq] at hsymbol
    obtain ⟨rfl, rfl⟩ := hsymbol
    exact word_skipBlanks [c] more

theorem quoted_of_readAtom {text : String} (hread : readAtom source rest = .ok (text, rest')) :
    ∃ written chars behind, text = String.ofList chars ∧ Quoted written chars ∧
      rest = written ++ '\'' :: behind ∧ rest' = skipBlanks behind := by
  unfold readAtom at hread
  split at hread
  · rename_i chars behind htext
    cases hread
    obtain ⟨written, rfl, hquoted⟩ := atomText?_eq_some_iff.mp htext
    exact ⟨written, chars, behind, rfl, hquoted, rfl, rfl⟩
  · cases hread

theorem word_of_close {bracket : Char} {objection : Objection}
    (hread : close bracket objection source = .ok rest) : Word [bracket] source rest := by
  unfold close at hread
  split at hread
  · rename_i hsymbol
    cases hread
    exact word_of_symbol? hsymbol
  · cases hread

theorem isNumeral_of_readCapture {index : Nat}
    (hread : readCapture source rest = .ok (index, rest')) :
    ∃ digits behind, IsNumeral digits index ∧ rest = digits ++ '#' :: behind ∧
      rest' = skipBlanks behind := by
  have hsplit := List.takeWhile_append_dropWhile (p := Char.isDigit) (l := rest)
  unfold readCapture at hread
  split at hread
  · rename_i behind hmark
    split at hread
    · rename_i hdigits
      cases hread
      rw [hmark] at hsplit
      exact ⟨_, behind, read?_eq_some_iff.mp hdigits, hsplit.symm, rfl⟩
    · cases hread
  · cases hread

theorem isBounds_of_readBounds {least most : Nat}
    (hread : readBounds source rest = .ok ((least, most), rest')) :
    ∃ inside behind, IsBounds (inside.filter (!isBlank ·)) least most ∧
      rest = inside ++ '\x7d' :: behind ∧ rest' = skipBlanks behind := by
  have hsplit := List.takeWhile_append_dropWhile (p := (· != '\x7d')) (l := rest)
  unfold readBounds at hread
  split at hread
  · cases hread
  · rename_i c behind hbrace
    rw [hbrace] at hsplit
    obtain rfl : c = '\x7d' := by
      have hhead := not_of_mem_head?_dropWhile (p := (· != '\x7d')) c (by rw [hbrace]; rfl)
      simpa using hhead
    split at hread
    · rename_i hbounds
      cases hread
      exact ⟨_, behind, isBounds_of_boundsOf hbounds, hsplit.symm, rfl⟩
    · cases hread

/-- Weights are read as what their value is rounded to. -/
theorem isWeight_of_readWeight? {text : List Char} {weight : Float}
    (hread : readWeight? text = some weight) : IsWeight text weight := by
  have htext := List.takeWhile_append_dropWhile (p := Char.isDigit) (l := text)
  have hwhole : ∀ c ∈ text.takeWhile Char.isDigit, c.isDigit = true :=
    fun _ => List.mem_takeWhile_imp
  unfold readWeight? at hread
  dsimp only at hread
  split at hread
  · rename_i hnone
    split at hread
    · cases hread
    · rename_i hne
      rw [hnone, List.append_nil] at htext
      rw [htext] at hread hwhole hne
      refine ⟨text, [], by simpa using hwhole, by simpa using hne, .inr ⟨rfl, rfl⟩, ?_⟩
      rw [← value_div_eq, ← Decimal.toFloat_eq_iff]
      exact Option.some.inj hread
  · rename_i fraction hpoint
    split at hread
    · rename_i hfraction
      rw [hpoint] at htext
      simp only [Bool.and_eq_true, List.all_eq_true, Bool.not_eq_true', Bool.and_eq_false_iff,
        List.isEmpty_eq_false_iff] at hfraction
      obtain ⟨hall, hne⟩ := hfraction
      refine ⟨_, fraction, List.forall_mem_append.mpr ⟨hwhole, hall⟩, ?_, .inl htext.symm, ?_⟩
      · rw [ne_eq, List.append_eq_nil_iff, not_and_or]
        exact hne
      · rw [← value_div_eq, ← Decimal.toFloat_eq_iff]
        exact Option.some.inj hread
    · cases hread
  · cases hread

/-- A name is read as far as it goes. -/
theorem ref_of_readName {c : Char} (hstart : Name.isStart c = true) :
    Derives kind (.term (.ref (readName (c :: source)).1)) (c :: source)
      (readName (c :: source)).2 := by
  have hsplit : (readName (c :: source)).1.toList ++ (c :: source).dropWhile Name.isPart =
      c :: source := by
    rw [readName, String.toList_ofList, List.takeWhile_append_dropWhile]
  have hderives : Derives kind (.term (.ref (readName (c :: source)).1))
      ((readName (c :: source)).1.toList ++ (c :: source).dropWhile Name.isPart)
      (readName (c :: source)).2 :=
    .ref (isIdentifier_readName hstart) not_of_mem_head?_dropWhile (gap_skipBlanks _)
  rwa [hsplit] at hderives

end Words

/-- From sources of no more than `n` characters, the reader takes only what the grammar derives. -/
def Sound (kind : Kind) (reader : Reader α) (phrase : α → Phrase) (n : Nat) : Prop :=
  ∀ source a rest, source.length ≤ n → reader source = .ok (a, rest) →
    Derives kind (phrase a) source rest

section Levels

/-- A bracket leaves one character less to what stands behind it. -/
theorem term_sound (hinner : Sound kind inner .expression n) :
    Sound kind (term kind inner) .term (n + 1) := by
  have hopen : ∀ {bracket : Char} {source : List Char} {e rest},
      (bracket :: source).length ≤ n + 1 → inner (skipBlanks source) = .ok (e, rest) →
      Word [bracket] (bracket :: source) (skipBlanks source) ∧
        Derives kind (.expression e) (skipBlanks source) rest := by
    intro bracket source e rest hlength hread
    refine ⟨word_skipBlanks [bracket] source, hinner _ _ _ ?_ hread⟩
    exact (length_skipBlanks_le source).trans (Nat.le_of_succ_le_succ hlength)
  intro source e rest hlength hread
  unfold term at hread
  split at hread
  · cases hread
    exact .nothing
  · obtain ⟨⟨text, rest'⟩, htext, hok⟩ := Outcome.bind_eq_ok_iff.mp hread
    cases hok
    obtain ⟨written, chars, behind, rfl, hquoted, rfl, rfl⟩ := quoted_of_readAtom htext
    exact .atom hquoted ⟨behind, by simp, gap_skipBlanks behind⟩
  · obtain ⟨⟨body, rest'⟩, hbody, hok⟩ := Outcome.bind_eq_ok_iff.mp hread
    obtain ⟨rest'', hclose, hok⟩ := Outcome.bind_eq_ok_iff.mp hok
    cases hok
    obtain ⟨hword, hderives⟩ := hopen hlength hbody
    exact .optional hword hderives (word_of_close hclose)
  · obtain ⟨⟨body, rest'⟩, hbody, hok⟩ := Outcome.bind_eq_ok_iff.mp hread
    obtain ⟨rest'', hclose, hok⟩ := Outcome.bind_eq_ok_iff.mp hok
    cases hok
    obtain ⟨hword, hderives⟩ := hopen hlength hbody
    exact .group hword hderives (word_of_close hclose)
  · rename_i c source _ _ _
    by_cases hcapture : c = '#' ∧ kind = .replacement
    · rw [if_pos hcapture] at hread
      obtain ⟨⟨index, rest'⟩, hindex, hok⟩ := Outcome.bind_eq_ok_iff.mp hread
      cases hok
      obtain ⟨digits, behind, hnumeral, rfl, rfl⟩ := isNumeral_of_readCapture hindex
      rw [hcapture.1]
      exact .capture hcapture.2 hnumeral ⟨behind, by simp, gap_skipBlanks behind⟩
    · rw [if_neg hcapture] at hread
      by_cases hstart : Name.isStart c = true
      · rw [if_pos hstart] at hread
        cases hread
        exact ref_of_readName hstart
      · rw [if_neg hstart] at hread
        cases hread

theorem quantified_sound (hinner : Sound kind inner .expression n) :
    Sound kind (quantified kind inner) .quantified (n + 1) := by
  intro source e rest hlength hread
  obtain ⟨⟨body, source'⟩, hbody, hok⟩ := Outcome.bind_eq_ok_iff.mp hread
  have hterm := term_sound hinner _ _ _ hlength hbody
  dsimp only at hok
  split at hok
  · obtain ⟨⟨⟨least, most⟩, rest'⟩, hbounds, hok⟩ := Outcome.bind_eq_ok_iff.mp hok
    cases hok
    obtain ⟨inside, behind, hinside, rfl, rfl⟩ := isBounds_of_readBounds hbounds
    exact .repeated hterm hinside ⟨behind, by simp, gap_skipBlanks behind⟩
  · cases hok
    exact .once hterm

/-- One item and those that follow it, each behind a separator. -/
theorem following_sound {separator : Char} {item : Reader α}
    {P : List α → List Char → List Char → Prop}
    (hone : ∀ a source rest, source.length ≤ n → item source = .ok (a, rest) →
      P [a] source rest ∧ rest.length ≤ source.length)
    (hmore : ∀ a as source behind next rest, source.length ≤ n → item source = .ok (a, behind) →
      Word [separator] behind next → P as next rest → P (a :: as) source rest)
    {budget : Nat} {a : α} {others : List α} {source behind rest : List Char}
    (hlength : source.length ≤ n) (hitem : item source = .ok (a, behind))
    (hfollow : following separator item budget behind = .ok (others, rest)) :
    P (a :: others) source rest := by
  induction budget generalizing a others source behind with
  | zero =>
    cases hfollow
    exact (hone a _ _ hlength hitem).1
  | succ budget ih =>
    unfold following at hfollow
    split at hfollow
    · cases hfollow
      exact (hone a _ _ hlength hitem).1
    · rename_i next hsymbol
      obtain ⟨⟨b, behind'⟩, hnext, hok⟩ := Outcome.bind_eq_ok_iff.mp hfollow
      obtain ⟨⟨later, rest'⟩, hlater, hok⟩ := Outcome.bind_eq_ok_iff.mp hok
      cases hok
      have hword := word_of_symbol? hsymbol
      have hshorter := hword.length_le
      have hbehind := (hone a _ _ hlength hitem).2
      refine hmore a _ _ _ _ _ hlength hitem hword (ih ?_ hnext hlater)
      omega

theorem sequence_sound (hinner : Sound kind inner .expression n) :
    Sound kind (sequence kind inner) .sequence (n + 1) := by
  intro source e rest hlength hread
  obtain ⟨⟨first, source'⟩, hfirst, hok⟩ := Outcome.bind_eq_ok_iff.mp hread
  obtain ⟨⟨others, rest'⟩, hothers, hok⟩ := Outcome.bind_eq_ok_iff.mp hok
  cases hok
  have hitem := quantified_sound hinner
  have hitems : Derives kind (.items (first :: others)) source rest := by
    refine following_sound (P := fun es => Derives kind (.items es)) ?_ ?_ hlength hfirst hothers
    · intro a source rest hlength hread
      have hderives := hitem _ _ _ hlength hread
      exact ⟨.item hderives, hderives.length_le⟩
    · exact fun a as source behind next rest hlength hread => .items (hitem _ _ _ hlength hread)
  cases others with
  | nil => exact .single hitems
  | cons second others => exact .seq hitems (by simp)

theorem alternative_sound (hinner : Sound kind inner .expression n) :
    Sound kind (alternative kind inner) .alternative (n + 1) := by
  intro source a rest hlength hread
  obtain ⟨⟨item, behind⟩, hitem, hok⟩ := Outcome.bind_eq_ok_iff.mp hread
  obtain ⟨⟨weight, rest'⟩, hweight, hok⟩ := Outcome.bind_eq_ok_iff.mp hok
  cases hok
  have hsequence := sequence_sound hinner _ _ _ hlength hitem
  unfold readOptionalWeight at hweight
  split at hweight
  · cases hweight
    exact .unweighted hsequence
  · rename_i next hsymbol
    split at hweight
    · rename_i hdigits
      cases hweight
      refine .weighted hsequence (word_of_symbol? hsymbol) (isWeight_of_readWeight? hdigits) ?_
      exact ⟨_, List.takeWhile_append_dropWhile.symm, gap_skipBlanks _⟩
    · cases hweight

theorem choice_sound (hinner : Sound kind inner .expression n) :
    Sound kind (choice kind inner) .expression (n + 1) := by
  intro source e rest hlength hread
  obtain ⟨⟨⟨item, weight⟩, source'⟩, hfirst, hok⟩ := Outcome.bind_eq_ok_iff.mp hread
  obtain ⟨⟨others, rest'⟩, hothers, hok⟩ := Outcome.bind_eq_ok_iff.mp hok
  have halternative := alternative_sound hinner
  have halternatives : Derives kind (.alternatives ((item, weight) :: others)) source rest' := by
    refine following_sound (P := fun as => Derives kind (.alternatives as)) ?_ ?_ hlength hfirst
      hothers
    · intro a source rest hlength hread
      have hderives := halternative _ _ _ hlength hread
      exact ⟨.alternative hderives, hderives.length_le⟩
    · exact fun a as source behind next rest hlength hread =>
        .alternatives (halternative _ _ _ hlength hread)
  dsimp only at hok
  split at hok
  · cases hok
    exact .plain halternatives
  · rename_i hchoice
    cases hok
    refine .choice halternatives ?_
    match others, weight, hchoice with
    | [], none, hchoice => exact (hchoice rfl rfl).elim
    | [], some weight, _ => exact .inr ⟨item, weight, rfl⟩
    | _ :: _, _, _ => exact .inl (by simp)

/-- Brackets of a source cannot nest deeper than it is long. -/
theorem expression_sound (depth : Nat) :
    Sound kind (expression kind depth) .expression depth := by
  induction depth with
  | zero =>
    intro source e rest hlength hread
    cases hread
    obtain rfl : source = [] := List.length_eq_zero_iff.mp (Nat.le_zero.mp hlength)
    exact .plain (.alternative (.unweighted (.single (.item (.once .nothing)))))
  | succ depth ih => exact choice_sound ih

end Levels

theorem denotes_of_read {source : String} {e : Expr Float} (hread : read kind source = .ok e) :
    Denotes kind source e := by
  unfold read at hread
  dsimp only at hread
  split at hread
  · rename_i hexpression
    cases hread
    refine ⟨_, gap_skipBlanks _, expression_sound _ _ _ _ ?_ hexpression⟩
    exact length_skipBlanks_le _
  · cases hread
  · cases hread

end WordGrammar.Pattern
