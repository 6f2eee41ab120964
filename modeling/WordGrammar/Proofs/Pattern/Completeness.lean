import WordGrammar.Proofs.Pattern.Soundness

namespace WordGrammar.Pattern

variable {α : Type} {kind : Kind} {inner : Reader (Expr Float)} {e : Expr Float}
variable {source behind next rest : List Char}

/-- The marks that each level of the grammar still takes in behind what it has read. -/
def quantifiedMarks : List Char := ['\x7b']

def sequenceMarks : List Char := '.' :: quantifiedMarks

def alternativeMarks : List Char := '*' :: sequenceMarks

def choiceMarks : List Char := '/' :: alternativeMarks

section Words

/-- A word ends what comes before it, where it does not continue it. -/
theorem Word.ends {marks word : List Char} {c : Char} (hword : Word (c :: word) source rest)
    (hblank : isBlank c = false) (hpart : Name.isPart c = false) (hmark : c ∉ marks) :
    Ends marks source := by
  obtain ⟨behind, rfl, -⟩ := hword
  exact .cons hblank hpart hmark (word ++ behind)

theorem Word.symbol?_eq {symbol : Char} (hword : Word [symbol] source rest) :
    symbol? symbol source = some (skipBlanks rest) := by
  obtain ⟨behind, rfl, hgap⟩ := hword
  simp [symbol?, hgap.skipBlanks_eq]

theorem close_of_word {bracket : Char} (hword : Word [bracket] source rest)
    (objection : Objection) : close bracket objection source = .ok (skipBlanks rest) := by
  rw [close, hword.symbol?_eq]

/-- A weight ends before blanks, and before what neither continues a name nor is a point. -/
theorem Ends.not_isWeightChar (hends : Ends alternativeMarks rest) (hgap : Gap behind rest) :
    ∀ c ∈ behind.head?, isWeightChar c = false := by
  intro c hhead
  by_contra hweight
  rw [Bool.not_eq_false] at hweight
  have hblank := not_isBlank_of_isWeightChar hweight
  obtain ⟨blanks, rfl, hblanks⟩ := hgap
  cases blanks with
  | cons d blanks =>
    obtain rfl : d = c := by simpa using hhead
    rw [hblanks d (by simp)] at hblank
    cases hblank
  | nil =>
    obtain ⟨more, rfl⟩ : ∃ more, rest = c :: more := by
      cases rest with
      | nil => cases hhead
      | cons d more => exact ⟨more, by simpa using hhead⟩
    rcases Bool.or_eq_true_iff.mp hweight with hdigit | hpoint
    · have hpart := hends.notPart c rfl
      rw [isPart_of_isDigit hdigit] at hpart
      cases hpart
    · obtain rfl := beq_iff_eq.mp hpoint
      refine hends.notMark '.' ?_ (by decide)
      rw [skipBlanks_cons hblank]
      rfl

theorem readWeight?_of_isWeight {text : List Char} {weight : Float}
    (hweight : IsWeight text weight) : readWeight? text = some weight := by
  obtain ⟨whole, fraction, hdigits, hne, htext, hrounds⟩ := hweight
  rw [← value_div_eq, ← Decimal.toFloat_eq_iff] at hrounds
  obtain ⟨hwhole, hfraction⟩ := List.forall_mem_append.mp hdigits
  rcases htext with rfl | ⟨rfl, rfl⟩
  · have hstop : ∀ c ∈ ('.' :: fraction).head?, c.isDigit = false := by simp
    have hall : fraction.all Char.isDigit = true := List.all_eq_true.mpr hfraction
    have hsome : (whole.isEmpty && fraction.isEmpty) = false := by
      rw [ne_eq, List.append_eq_nil_iff] at hne
      simpa using hne
    simp only [readWeight?, takeWhile_run hwhole hstop, dropWhile_run hwhole hstop, hall, hsome,
      hrounds]
    rfl
  · have htake := List.takeWhile_eq_self_iff.mpr hwhole
    have hdrop := List.dropWhile_eq_nil_iff.mpr hwhole
    have hsome : text.isEmpty = false := by simpa using hne
    simp only [readWeight?, htake, hdrop, hsome]
    exact congrArg some hrounds

end Words

section Terms

theorem term_of_quoted {written text : List Char} (hquoted : Quoted written text)
    (hword : Word ('\'' :: written ++ ['\'']) source rest) :
    term kind inner source = .ok (.atom (String.ofList text), skipBlanks rest) := by
  obtain ⟨behind, rfl, hgap⟩ := hword
  simp only [List.cons_append, List.append_assoc, List.nil_append, term,
    readAtom_of_quoted _ hquoted, hgap.skipBlanks_eq, bind, Except.bind]

theorem term_of_parentheses (hopen : Word ['('] source next) (hnext : skipBlanks next = next)
    (hinner : inner next = .ok (e, behind)) (hclose : Word [')'] behind rest) :
    term kind inner source = .ok (.repeated e 0 1, skipBlanks rest) := by
  obtain ⟨more, rfl, hgap⟩ := hopen
  simp only [List.cons_append, List.nil_append, term, hgap.skipBlanks_eq, hnext, hinner,
    close_of_word hclose, bind, Except.bind]
  rfl

theorem term_of_brackets (hopen : Word ['['] source next) (hnext : skipBlanks next = next)
    (hinner : inner next = .ok (e, behind)) (hclose : Word [']'] behind rest) :
    term kind inner source = .ok (e, skipBlanks rest) := by
  obtain ⟨more, rfl, hgap⟩ := hopen
  simp only [List.cons_append, List.nil_append, term, hgap.skipBlanks_eq, hnext, hinner,
    close_of_word hclose, bind, Except.bind]

theorem term_of_isIdentifier {name : String} (hname : Name.isIdentifier name = true)
    (hmaximal : ∀ c ∈ behind.head?, Name.isPart c = false) (hgap : Gap behind rest) :
    term kind inner (name.toList ++ behind) = .ok (.ref name, skipBlanks rest) := by
  obtain ⟨c, more, htext, hstart⟩ := exists_start_of_isIdentifier hname
  have hread := readName_identifier hname hmaximal
  have hne {d : Char} (hd : Name.isStart d = false) : c ≠ d := by
    rintro rfl
    rw [hd] at hstart
    cases hstart
  rw [htext, List.cons_append] at hread ⊢
  rw [term]
  · have hsharp : c ≠ '#' := hne rfl
    simp [hsharp, hstart, hread, hgap.skipBlanks_eq]
  · exact fun hquote => hne rfl hquote
  · exact fun hparenthesis => hne rfl hparenthesis
  · exact fun hbracket => hne rfl hbracket

theorem term_of_isNumeral {digits : List Char} {index : Nat} (hindex : IsNumeral digits index)
    (hword : Word ('#' :: digits ++ ['#']) source rest) :
    term .replacement inner source = .ok (.capture index, skipBlanks rest) := by
  obtain ⟨behind, rfl, hgap⟩ := hword
  have hread := readCapture_of_isNumeral ('#' :: (digits ++ '#' :: behind)) hindex behind
  simp only [List.cons_append, List.append_assoc, List.nil_append]
  rw [term]
  · simp [hread, hgap.skipBlanks_eq, bind, Except.bind]
  all_goals simp

end Terms

section Levels

theorem quantified_of_term (hterm : term kind inner source = .ok (e, skipBlanks rest))
    (hends : Ends quantifiedMarks rest) :
    quantified kind inner source = .ok (e, skipBlanks rest) := by
  cases hrest : skipBlanks rest with
  | nil => simp [quantified, hterm, hrest, bind, Except.bind]
  | cons c more =>
    have hne : c ≠ '\x7b' := by
      intro heq
      exact hends.notMark c (by simp [hrest]) (by simp [heq, quantifiedMarks])
    simp [quantified, hterm, hrest, bind, Except.bind, hne]

theorem quantified_of_bounds {inside : List Char} {least most : Nat}
    (hterm : term kind inner source = .ok (e, behind))
    (hbounds : IsBounds (inside.filter (!isBlank ·)) least most)
    (hword : Word ('\x7b' :: inside ++ ['\x7d']) behind rest) :
    quantified kind inner source = .ok (.repeated e least most, skipBlanks rest) := by
  obtain ⟨more, rfl, hgap⟩ := hword
  simp only [List.cons_append, List.append_assoc, List.nil_append] at hterm
  simp only [quantified, hterm, readBounds_of_isBounds _ hbounds, hgap.skipBlanks_eq, bind,
    Except.bind]

/-- An item is read, and behind it the others, each behind a separator, on any budget that is not
    less than what is left of the source. -/
def Joined (separator : Char) (item : Reader α) (as : List α) (source rest : List Char) : Prop :=
  ∃ a others behind, as = a :: others ∧ item source = .ok (a, behind) ∧
    behind.length ≤ source.length ∧
    ∀ budget, behind.length ≤ budget → following separator item budget behind = .ok (others, rest)

variable {separator : Char} {item : Reader α} {a : α} {as : List α}

theorem Joined.one {marks : List Char} (hitem : item source = .ok (a, skipBlanks rest))
    (hlength : rest.length ≤ source.length) (hends : Ends marks rest) (hmark : separator ∈ marks) :
    Joined separator item [a] source (skipBlanks rest) := by
  refine ⟨a, [], _, rfl, hitem, (length_skipBlanks_le rest).trans hlength, ?_⟩
  intro budget _
  cases budget with
  | zero => rfl
  | succ budget => simp [following, hends.symbol?_eq_none hmark]

theorem Joined.cons (hitem : item source = .ok (a, behind))
    (hlength : behind.length ≤ source.length) (hseparator : Word [separator] behind next)
    (hnext : skipBlanks next = next)
    (hjoined : Joined separator item as next rest) :
    Joined separator item (a :: as) source rest := by
  obtain ⟨b, others, behind', rfl, hitem', hlength', hothers⟩ := hjoined
  refine ⟨a, b :: others, behind, rfl, hitem, hlength, fun budget hbudget => ?_⟩
  have hshorter : 1 + next.length ≤ behind.length := hseparator.length_le
  obtain ⟨budget, rfl⟩ := Nat.exists_eq_add_of_le' (show 1 ≤ budget by omega)
  have hfollow := hothers budget (by omega)
  simp only [following, hseparator.symbol?_eq, hnext, hitem', hfollow, bind, Except.bind]

theorem sequence_of_joined {es : List (Expr Float)}
    (hjoined : Joined '.' (quantified kind inner) es source rest) :
    sequence kind inner source =
      .ok (match es with | [e] => e | es => .seq es, rest) := by
  obtain ⟨first, others, behind, rfl, hfirst, -, hothers⟩ := hjoined
  simp only [sequence, hfirst, hothers _ le_rfl, bind, Except.bind]
  cases others with
  | nil => rfl
  | cons second others => rfl

theorem alternative_of_sequence (hsequence : sequence kind inner source = .ok (e, skipBlanks rest))
    (hends : Ends alternativeMarks rest) :
    alternative kind inner source = .ok ((e, none), skipBlanks rest) := by
  have hnone : symbol? '*' (skipBlanks rest) = none :=
    hends.symbol?_eq_none List.mem_cons_self
  simp [alternative, hsequence, readOptionalWeight, hnone, bind, Except.bind]

theorem alternative_of_weight {text : List Char} {weight : Float}
    (hsequence : sequence kind inner source = .ok (e, behind)) (hstar : Word ['*'] behind next)
    (hweight : IsWeight text weight) (hword : Word text next rest)
    (hends : Ends alternativeMarks rest) :
    alternative kind inner source = .ok ((e, some weight), skipBlanks rest) := by
  obtain ⟨hne, hchars⟩ := hweight.chars
  obtain ⟨more, rfl, hgap⟩ := hword
  have hstop := hends.not_isWeightChar hgap
  have hskip : skipBlanks (text ++ more) = text ++ more := by
    obtain ⟨c, text, rfl⟩ := List.exists_cons_of_ne_nil hne
    exact skipBlanks_cons (not_isBlank_of_isWeightChar (hchars c (by simp)))
  have hoptional : readOptionalWeight behind = .ok (some weight, skipBlanks rest) := by
    simp [readOptionalWeight, hstar.symbol?_eq, hskip, takeWhile_run hchars hstop,
      dropWhile_run hchars hstop, readWeight?_of_isWeight hweight, hgap.skipBlanks_eq]
  simp only [alternative, hsequence, hoptional, bind, Except.bind]

theorem choice_of_plain (hjoined : Joined '/' (alternative kind inner) [(e, none)] source rest) :
    choice kind inner source = .ok (e, rest) := by
  obtain ⟨first, others, behind, hcons, hfirst, -, hothers⟩ := hjoined
  cases hcons
  simp only [choice, hfirst, hothers _ le_rfl, bind, Except.bind]

theorem choice_of_joined {as : List (Expr Float × Option Float)}
    (hjoined : Joined '/' (alternative kind inner) as source rest)
    (hchoice : 2 ≤ as.length ∨ ∃ e weight, as = [(e, some weight)]) :
    choice kind inner source =
      .ok (.choice (as.map fun (e, weight) => ⟨e, weight.getD 1⟩), rest) := by
  obtain ⟨⟨e, weight⟩, others, behind, rfl, hfirst, -, hothers⟩ := hjoined
  simp only [choice, hfirst, hothers _ le_rfl, bind, Except.bind]
  match others, weight, hchoice with
  | [], none, hchoice => simp at hchoice
  | [], some weight, _ => rfl
  | _ :: _, none, _ => rfl
  | _ :: _, some weight, _ => rfl

end Levels

/-- The reader of its level takes the phrase off the source, unless it would go on: a derivation
    says nothing of what comes next, and a reader goes on for as long as it can. -/
def IsRead (kind : Kind) (inner : Reader (Expr Float)) (source rest : List Char) :
    Phrase → Prop
  | .expression e => Ends choiceMarks rest → choice kind inner source = .ok (e, skipBlanks rest)
  | .alternatives as =>
    Ends choiceMarks rest → Joined '/' (alternative kind inner) as source (skipBlanks rest)
  | .alternative a =>
    Ends alternativeMarks rest → alternative kind inner source = .ok (a, skipBlanks rest)
  | .sequence e => Ends sequenceMarks rest → sequence kind inner source = .ok (e, skipBlanks rest)
  | .items es =>
    Ends sequenceMarks rest → Joined '.' (quantified kind inner) es source (skipBlanks rest)
  | .quantified e =>
    Ends quantifiedMarks rest → quantified kind inner source = .ok (e, skipBlanks rest)
  | .term e => term kind inner source = .ok (e, skipBlanks rest)

/-- Brackets take up one level of nesting, and are at least two characters. -/
theorem Derives.exists_within {phrase : Phrase} {opening closing : Char} {depth : Nat}
    (hinner : Derives kind phrase next behind) (hopen : Word [opening] source next)
    (hclose : Word [closing] behind rest) (hdepth : source.length ≤ depth + 1) :
    ∃ within, depth = within + 1 ∧ next.length ≤ within + 1 := by
  have hshorter : 1 + next.length ≤ source.length := hopen.length_le
  have hpos : 1 + rest.length ≤ behind.length := hclose.length_le
  have hle := hinner.length_le
  obtain ⟨within, rfl⟩ := Nat.exists_eq_add_of_le' (show 1 ≤ depth by omega)
  exact ⟨within, rfl, by omega⟩

/-- As deep as a source is long, what is derived of it is read. -/
theorem Derives.isRead {phrase : Phrase} (hderives : Derives kind phrase source rest) {depth : Nat}
    (hdepth : source.length ≤ depth + 1) :
    IsRead kind (expression kind depth) source rest phrase := by
  induction hderives generalizing depth with
  | atom hquoted hword => exact term_of_quoted hquoted hword
  | optional hopen hinner hclose ih =>
    obtain ⟨within, rfl, hwithin⟩ := hinner.exists_within hopen hclose hdepth
    have hread := ih hwithin (hclose.ends rfl rfl (by decide))
    rw [hclose.skipBlanks_eq rfl] at hread
    exact term_of_parentheses hopen hinner.skipBlanks_eq hread hclose
  | group hopen hinner hclose ih =>
    obtain ⟨within, rfl, hwithin⟩ := hinner.exists_within hopen hclose hdepth
    have hread := ih hwithin (hclose.ends rfl rfl (by decide))
    rw [hclose.skipBlanks_eq rfl] at hread
    exact term_of_brackets hopen hinner.skipBlanks_eq hread hclose
  | ref hname hmaximal hgap => exact term_of_isIdentifier hname hmaximal hgap
  | nothing => rfl
  | capture hkind hindex hword =>
    subst hkind
    exact term_of_isNumeral hindex hword
  | once _ ih => exact quantified_of_term (ih hdepth)
  | repeated _ hbounds hword ih =>
    have hterm := ih hdepth
    simp only [IsRead, hword.skipBlanks_eq (c := '\x7b') rfl] at hterm
    exact fun _ => quantified_of_bounds hterm hbounds hword
  | item hitem ih =>
    intro hends
    have hread := ih hdepth (hends.mono fun _ => List.mem_cons_of_mem _)
    exact .one hread hitem.length_le hends List.mem_cons_self
  | items hitem hdot hitems ih ih' =>
    intro hends
    have hshorter := hitem.length_le
    have hlength := hdot.length_le
    have hread := ih hdepth (hdot.ends rfl rfl (by decide))
    rw [hdot.skipBlanks_eq rfl] at hread
    exact .cons hread hshorter hdot hitems.skipBlanks_eq (ih' (by omega) hends)
  | single _ ih => exact fun hends => sequence_of_joined (ih hdepth hends)
  | @seq es _ _ _ hlength ih =>
    intro hends
    have hread := sequence_of_joined (ih hdepth hends)
    match es, hlength with
    | _ :: _ :: _, _ => exact hread
  | unweighted _ ih =>
    intro hends
    have hread := ih hdepth (hends.mono fun _ => List.mem_cons_of_mem _)
    exact alternative_of_sequence hread hends
  | weighted _ hstar hweight hword ih =>
    intro hends
    have hread := ih hdepth (hstar.ends rfl rfl (by decide))
    rw [hstar.skipBlanks_eq rfl] at hread
    exact alternative_of_weight hread hstar hweight hword hends
  | alternative halternative ih =>
    intro hends
    have hread := ih hdepth (hends.mono fun _ => List.mem_cons_of_mem _)
    exact .one hread halternative.length_le hends List.mem_cons_self
  | alternatives halternative hslash halternatives ih ih' =>
    intro hends
    have hshorter := halternative.length_le
    have hlength := hslash.length_le
    have hread := ih hdepth (hslash.ends rfl rfl (by decide))
    rw [hslash.skipBlanks_eq rfl] at hread
    exact .cons hread hshorter hslash halternatives.skipBlanks_eq (ih' (by omega) hends)
  | plain _ ih => exact fun hends => choice_of_plain (ih hdepth hends)
  | choice _ hchoice ih => exact fun hends => choice_of_joined (ih hdepth hends) hchoice

theorem read_of_denotes {text : String} (hdenotes : Denotes kind text e) :
    read kind text = .ok e := by
  obtain ⟨source, hgap, hderives⟩ := hdenotes
  have hskip : skipBlanks text.toList = source := by
    rw [hgap.skipBlanks_eq, hderives.skipBlanks_eq]
  have hshorter := hgap.length_le
  have hread : expression kind text.toList.length source = .ok (e, []) := by
    cases hlength : text.toList.length with
    | zero =>
      -- No reader looks here, but one that did would find the same.
      obtain rfl : source = [] := List.length_eq_zero_iff.mp (by omega)
      have hread : choice kind (expression kind 0) [] = .ok (e, []) :=
        hderives.isRead (by simp) (.nil _)
      exact hread
    | succ depth => exact hderives.isRead (by omega) (.nil _)
  simp [read, hskip, hread]

/-- A text is read as what it denotes, and only as that. -/
theorem read_eq_ok_iff {text : String} : read kind text = .ok e ↔ Denotes kind text e :=
  ⟨denotes_of_read, read_of_denotes⟩

-- Blanks may stand behind every word, and a term may be missing at the end.
example : Denotes .pattern " [ 'a' / x ] \x7b : 3 \x7d . "
    (.seq [.repeated (.choice [⟨.atom "a", 1⟩, ⟨.ref "x", 1⟩]) 0 3, .atom ""]) :=
  denotes_of_read (by cbv)

/-- No text denotes two expressions. -/
theorem Denotes.unique {text : String} {e e' : Expr Float} (hdenotes : Denotes kind text e)
    (hdenotes' : Denotes kind text e') : e = e' := by
  have hread := read_of_denotes hdenotes
  rw [read_of_denotes hdenotes'] at hread
  exact (Except.ok.inj hread).symm

/-- What a text is read as, as a pattern or as a replacement, is what the grammar makes of it, and a
    text that the grammar makes nothing of is refused. -/
theorem parse_eq_ok_iff (text : String) (e : Expr Float) :
    (parse text = .ok e ↔ Denotes .pattern text e) ∧
      (parseReplacement text = .ok e ↔ Denotes .replacement text e) :=
  ⟨read_eq_ok_iff, read_eq_ok_iff⟩

end WordGrammar.Pattern
