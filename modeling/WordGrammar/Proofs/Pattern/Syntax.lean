import WordGrammar.Pattern.Reading
import WordGrammar.Proofs.Double.Rounding
import WordGrammar.Proofs.Pattern.Lexis

namespace WordGrammar.Pattern

/-- The rest of a source behind some of the blanks that it begins with. -/
def Gap (source rest : List Char) : Prop :=
  ∃ blanks, source = blanks ++ rest ∧ ∀ c ∈ blanks, isBlank c = true

/-- The rest of a source behind a word that it begins with, and behind blanks. -/
def Word (word source rest : List Char) : Prop :=
  ∃ behind, source = word ++ behind ∧ Gap behind rest

/-- A weight: digits, digits and a point, or either with digits behind the point, as what their
    value is rounded to. -/
def IsWeight (text : List Char) (weight : Float) : Prop :=
  ∃ whole fraction : List Char, (∀ c ∈ whole ++ fraction, c.isDigit = true) ∧
    whole ++ fraction ≠ [] ∧ (text = whole ++ '.' :: fraction ∨ text = whole ∧ fraction = []) ∧
    Double.Rounds (Numeral.value (whole ++ fraction) / 10 ^ fraction.length) weight

/-- What a stretch of a source is read as. -/
inductive Phrase where
  | expression (e : Expr Float)
  /-- Alternatives between slashes, with the weights that are written. -/
  | alternatives (as : List (Expr Float × Option Float))
  | alternative (a : Expr Float × Option Float)
  | sequence (e : Expr Float)
  /-- Quantified terms between dots. -/
  | items (es : List (Expr Float))
  | quantified (e : Expr Float)
  | term (e : Expr Float)

/-- `Derives kind phrase source rest`: the source is the phrase, and blanks, and the rest. Nothing
    is said of how a reader would go about this: blanks behind a word may be taken in part, what
    comes next is never looked at, and it is left open which of several phrases a source begins
    with. -/
inductive Derives (kind : Kind) : Phrase → List Char → List Char → Prop
  | atom {written text source rest : List Char} (hquoted : Quoted written text)
      (hword : Word ('\'' :: written ++ ['\'']) source rest) :
      Derives kind (.term (.atom (String.ofList text))) source rest
  | optional {e : Expr Float} {source inner behind rest : List Char}
      (hopen : Word ['('] source inner) (hinner : Derives kind (.expression e) inner behind)
      (hclose : Word [')'] behind rest) : Derives kind (.term (.repeated e 0 1)) source rest
  | group {e : Expr Float} {source inner behind rest : List Char}
      (hopen : Word ['['] source inner) (hinner : Derives kind (.expression e) inner behind)
      (hclose : Word [']'] behind rest) : Derives kind (.term e) source rest
  /-- A name goes on as far as it can. -/
  | ref {name : String} {behind rest : List Char} (hname : Name.isIdentifier name = true)
      (hmaximal : ∀ c ∈ behind.head?, Name.isPart c = false) (hgap : Gap behind rest) :
      Derives kind (.term (.ref name)) (name.toList ++ behind) rest
  /-- Nothing stands for the empty text, but only at the very end. -/
  | nothing : Derives kind (.term (.atom "")) [] []
  | capture {digits source rest : List Char} {index : Nat} (hkind : kind = .replacement)
      (hindex : IsNumeral digits index) (hword : Word ('#' :: digits ++ ['#']) source rest) :
      Derives kind (.term (.capture index)) source rest
  | once {e : Expr Float} {source rest : List Char} (hterm : Derives kind (.term e) source rest) :
      Derives kind (.quantified e) source rest
  | repeated {e : Expr Float} {source behind inside rest : List Char} {least most : Nat}
      (hterm : Derives kind (.term e) source behind)
      (hbounds : IsBounds (inside.filter (!isBlank ·)) least most)
      (hword : Word ('\x7b' :: inside ++ ['\x7d']) behind rest) :
      Derives kind (.quantified (.repeated e least most)) source rest
  | item {e : Expr Float} {source rest : List Char}
      (hitem : Derives kind (.quantified e) source rest) : Derives kind (.items [e]) source rest
  | items {e : Expr Float} {es : List (Expr Float)} {source behind next rest : List Char}
      (hitem : Derives kind (.quantified e) source behind) (hdot : Word ['.'] behind next)
      (hitems : Derives kind (.items es) next rest) : Derives kind (.items (e :: es)) source rest
  /-- One item alone stands for itself. -/
  | single {e : Expr Float} {source rest : List Char}
      (hitem : Derives kind (.items [e]) source rest) : Derives kind (.sequence e) source rest
  | seq {es : List (Expr Float)} {source rest : List Char}
      (hitems : Derives kind (.items es) source rest) (hlength : 2 ≤ es.length) :
      Derives kind (.sequence (.seq es)) source rest
  | unweighted {e : Expr Float} {source rest : List Char}
      (hsequence : Derives kind (.sequence e) source rest) :
      Derives kind (.alternative (e, none)) source rest
  | weighted {e : Expr Float} {text source behind next rest : List Char} {weight : Float}
      (hsequence : Derives kind (.sequence e) source behind) (hstar : Word ['*'] behind next)
      (hweight : IsWeight text weight) (hword : Word text next rest) :
      Derives kind (.alternative (e, some weight)) source rest
  | alternative {a : Expr Float × Option Float} {source rest : List Char}
      (halternative : Derives kind (.alternative a) source rest) :
      Derives kind (.alternatives [a]) source rest
  | alternatives {a : Expr Float × Option Float} {as : List (Expr Float × Option Float)}
      {source behind next rest : List Char}
      (halternative : Derives kind (.alternative a) source behind)
      (hslash : Word ['/'] behind next)
      (halternatives : Derives kind (.alternatives as) next rest) :
      Derives kind (.alternatives (a :: as)) source rest
  /-- One alternative without a weight stands for itself. -/
  | plain {e : Expr Float} {source rest : List Char}
      (halternative : Derives kind (.alternatives [(e, none)]) source rest) :
      Derives kind (.expression e) source rest
  /-- A choice has several alternatives, or one with a weight. A weight that is not written is one.
      -/
  | choice {as : List (Expr Float × Option Float)} {source rest : List Char}
      (halternatives : Derives kind (.alternatives as) source rest)
      (hchoice : 2 ≤ as.length ∨ ∃ e weight, as = [(e, some weight)]) :
      Derives kind (.expression (.choice (as.map fun (e, weight) => ⟨e, weight.getD 1⟩)))
        source rest

/-- The text as a whole, but for blanks before it, is the expression. -/
def Denotes (kind : Kind) (text : String) (e : Expr Float) : Prop :=
  ∃ source, Gap text.toList source ∧ Derives kind (.expression e) source []

section Blanks

variable {word source rest : List Char}

theorem Gap.refl (source : List Char) : Gap source source :=
  ⟨[], rfl, by simp⟩

theorem gap_skipBlanks (source : List Char) : Gap source (skipBlanks source) :=
  ⟨source.takeWhile isBlank, List.takeWhile_append_dropWhile.symm, fun _ => List.mem_takeWhile_imp⟩

/-- Whatever part of the blanks is taken, the first character behind all of them is the same. -/
theorem Gap.skipBlanks_eq (hgap : Gap source rest) : skipBlanks source = skipBlanks rest := by
  obtain ⟨blanks, rfl, hblanks⟩ := hgap
  exact List.dropWhile_append_of_pos hblanks

theorem Gap.length_le (hgap : Gap source rest) : rest.length ≤ source.length := by
  obtain ⟨blanks, rfl, -⟩ := hgap
  simp

theorem Word.length_le (hword : Word word source rest) :
    word.length + rest.length ≤ source.length := by
  obtain ⟨behind, rfl, hgap⟩ := hword
  have hle := hgap.length_le
  rw [List.length_append]
  omega

/-- A word that does not begin with a blank is not skipped. -/
theorem Word.skipBlanks_eq {c : Char} (hword : Word (c :: word) source rest)
    (hc : isBlank c = false) : skipBlanks source = source := by
  obtain ⟨behind, rfl, -⟩ := hword
  exact skipBlanks_cons hc

theorem word_skipBlanks (word behind : List Char) :
    Word word (word ++ behind) (skipBlanks behind) :=
  ⟨behind, rfl, gap_skipBlanks behind⟩

end Blanks

section Weights

theorem value_div_eq (digits : List Char) (places : Nat) :
    Decimal.value ⟨Numeral.value digits, -places⟩ = Numeral.value digits / 10 ^ places := by
  rw [Decimal.value, zpow_neg, zpow_natCast, div_eq_mul_inv]

/-- A weight is written in characters of weights, and not without any. -/
theorem IsWeight.chars {text : List Char} {weight : Float} (hweight : IsWeight text weight) :
    text ≠ [] ∧ ∀ c ∈ text, isWeightChar c = true := by
  obtain ⟨whole, fraction, hdigits, hne, htext, -⟩ := hweight
  have hchar : ∀ c ∈ whole ++ fraction, isWeightChar c = true := by
    intro c hmem
    simp [isWeightChar, hdigits c hmem]
  rcases htext with rfl | ⟨rfl, rfl⟩
  · refine ⟨by simp, fun c hmem => ?_⟩
    rcases List.mem_append.mp hmem with hmem | hmem
    · exact hchar c (List.mem_append_left _ hmem)
    · rcases List.mem_cons.mp hmem with rfl | hmem
      · rfl
      · exact hchar c (List.mem_append_right _ hmem)
  · rw [List.append_nil] at hne hchar
    exact ⟨hne, hchar⟩

theorem not_isBlank_of_isWeightChar {c : Char} (hc : isWeightChar c = true) :
    isBlank c = false := by
  rcases Bool.or_eq_true_iff.mp hc with hdigit | hpoint
  · exact not_isBlank_of_isDigit hdigit
  · rw [beq_iff_eq.mp hpoint]
    rfl

end Weights

namespace Derives

variable {kind : Kind} {phrase : Phrase} {source rest : List Char}

/-- What is left is no longer than what there was. -/
theorem length_le (hderives : Derives kind phrase source rest) : rest.length ≤ source.length := by
  induction hderives with
  | atom _ hword => exact Nat.le_of_add_left_le hword.length_le
  | optional hopen _ hclose ih =>
    have hopen := hopen.length_le
    have hclose := hclose.length_le
    omega
  | group hopen _ hclose ih =>
    have hopen := hopen.length_le
    have hclose := hclose.length_le
    omega
  | ref _ _ hgap =>
    have hle := hgap.length_le
    rw [List.length_append]
    omega
  | nothing => exact le_rfl
  | capture _ _ hword => exact Nat.le_of_add_left_le hword.length_le
  | once _ ih => exact ih
  | repeated _ _ hword ih => exact (Nat.le_of_add_left_le hword.length_le).trans ih
  | item _ ih => exact ih
  | items _ hdot _ ih ih' => exact (ih'.trans (Nat.le_of_add_left_le hdot.length_le)).trans ih
  | single _ ih => exact ih
  | seq _ _ ih => exact ih
  | unweighted _ ih => exact ih
  | weighted _ hstar _ hword ih =>
    have hstar := hstar.length_le
    have hword := hword.length_le
    omega
  | alternative _ ih => exact ih
  | alternatives _ hslash _ ih ih' =>
    exact (ih'.trans (Nat.le_of_add_left_le hslash.length_le)).trans ih
  | plain _ ih => exact ih
  | choice _ _ ih => exact ih

/-- A phrase does not begin with blanks. -/
theorem skipBlanks_eq (hderives : Derives kind phrase source rest) :
    skipBlanks source = source := by
  induction hderives with
  | atom _ hword => exact hword.skipBlanks_eq rfl
  | optional hopen => exact hopen.skipBlanks_eq rfl
  | group hopen => exact hopen.skipBlanks_eq rfl
  | ref hname =>
    obtain ⟨c, more, htext, hstart⟩ := exists_start_of_isIdentifier hname
    rw [htext]
    exact skipBlanks_cons (not_isBlank_of_isPart (Name.isPart_of_isStart hstart))
  | nothing => rfl
  | capture _ _ hword => exact hword.skipBlanks_eq rfl
  | once _ ih => exact ih
  | repeated _ _ _ ih => exact ih
  | item _ ih => exact ih
  | items _ _ _ ih => exact ih
  | single _ ih => exact ih
  | seq _ _ ih => exact ih
  | unweighted _ ih => exact ih
  | weighted _ _ _ _ ih => exact ih
  | alternative _ ih => exact ih
  | alternatives _ _ _ ih => exact ih
  | plain _ ih => exact ih
  | choice _ _ ih => exact ih

end Derives

end WordGrammar.Pattern
