import Mathlib.Data.List.TakeWhile
import Mathlib.Tactic.Common
import WordGrammar.Pattern.Lexis
import WordGrammar.Pattern.Printing

namespace WordGrammar

namespace Pattern

/-- The rest of a source does not begin with a character of a name, and behind its blanks with none
    of the marks. -/
structure Ends (marks rest : List Char) : Prop where
  notPart : ∀ c ∈ rest.head?, Name.isPart c = false
  notMark : ∀ c ∈ (skipBlanks rest).head?, c ∉ marks

section Blanks

@[simp] theorem skipBlanks_nil : skipBlanks [] = [] := rfl

theorem skipBlanks_cons {c : Char} {rest : List Char} (hc : isBlank c = false) :
    skipBlanks (c :: rest) = c :: rest := by
  simp [skipBlanks, hc]

theorem Ends.mono {marks marks' rest : List Char} (hends : Ends marks rest)
    (hsub : ∀ c ∈ marks', c ∈ marks) : Ends marks' rest :=
  ⟨hends.notPart, fun c hhead hmem => hends.notMark c hhead (hsub c hmem)⟩

theorem Ends.nil (marks : List Char) : Ends marks [] :=
  ⟨by simp, by simp⟩

/-- A character that is no blank ends whatever it neither continues nor is a mark of. -/
theorem Ends.cons {marks : List Char} {c : Char} (hblank : isBlank c = false)
    (hpart : Name.isPart c = false) (hmark : c ∉ marks) (rest : List Char) :
    Ends marks (c :: rest) := by
  refine ⟨?_, ?_⟩
  · intro d hd
    obtain rfl : c = d := by simpa using hd
    exact hpart
  · intro d hd
    rw [skipBlanks_cons hblank] at hd
    obtain rfl : c = d := by simpa using hd
    exact hmark

/-- A symbol that is not among the marks behind is not there. -/
theorem Ends.symbol?_eq_none {marks rest : List Char} (hends : Ends marks rest) {symbol : Char}
    (hmem : symbol ∈ marks) : symbol? symbol (skipBlanks rest) = none := by
  cases hrest : skipBlanks rest with
  | nil => rfl
  | cons c more =>
    have hne : c ≠ symbol := by
      rintro rfl
      exact hends.notMark c (by simp [hrest]) hmem
    simp [symbol?, hne]

end Blanks

section Runs

variable {p : Char → Bool} {run rest : List Char}

/-- The characters of a run are taken up to the first that is none of them. -/
theorem takeWhile_run (hrun : ∀ c ∈ run, p c = true) (hstop : ∀ c ∈ rest.head?, p c = false) :
    (run ++ rest).takeWhile p = run := by
  rw [List.takeWhile_append_of_pos hrun]
  cases rest with
  | nil => simp
  | cons c rest => simp [hstop c (by simp)]

theorem dropWhile_run (hrun : ∀ c ∈ run, p c = true) (hstop : ∀ c ∈ rest.head?, p c = false) :
    (run ++ rest).dropWhile p = rest := by
  rw [List.dropWhile_append_of_pos hrun]
  cases rest with
  | nil => simp
  | cons c rest => simp [hstop c (by simp)]

/-- A run ends before a character that is not one of its own. -/
theorem not_of_mem_head?_dropWhile {source : List Char} :
    ∀ c ∈ (source.dropWhile p).head?, p c = false := by
  intro c hhead
  have hnot := List.head?_dropWhile_not p source
  rwa [Option.mem_def.mp hhead] at hnot

end Runs

section Digits

theorem isDigit_of_mem_digits {n : Nat} {c : Char} (hmem : c ∈ Numeral.digits n) :
    c.isDigit = true :=
  Nat.isDigit_of_mem_toDigits (by decide) (by decide) hmem

theorem digits_ne_nil (n : Nat) : Numeral.digits n ≠ [] :=
  Nat.toDigits_ne_nil

theorem ne_of_isDigit {c d : Char} (hc : c.isDigit = true) (hd : d.isDigit = false) : c ≠ d := by
  rintro rfl
  rw [hc] at hd
  cases hd

theorem isPart_of_isDigit {c : Char} (hc : c.isDigit = true) : Name.isPart c = true := by
  simp [Name.isPart, Char.isAlphanum, hc]

theorem not_isBlank_of_isPart {c : Char} (hc : Name.isPart c = true) : isBlank c = false := by
  have hne {d : Char} (hd : Name.isPart d = false) : c ≠ d := by
    rintro rfl
    rw [hd] at hc
    cases hc
  have hspace : c ≠ ' ' := hne rfl
  have hline : c ≠ '\n' := hne rfl
  have htab : c ≠ '\t' := hne rfl
  simp [isBlank, hspace, hline, htab]

theorem not_isBlank_of_isDigit {c : Char} (hc : c.isDigit = true) : isBlank c = false :=
  not_isBlank_of_isPart (isPart_of_isDigit hc)

/-- ASCII digits that spell a number below `2 ^ 64`. -/
structure IsNumeral (text : List Char) (n : Nat) : Prop where
  nonempty : text ≠ []
  digits : ∀ c ∈ text, c.isDigit = true
  value : Numeral.value text = n
  bounded : n < Numeral.limit

theorem read?_eq_some_iff {text : List Char} {n : Nat} :
    Numeral.read? text = some n ↔ IsNumeral text n := by
  simp only [Numeral.read?, Option.ite_none_right_eq_some, Option.some.injEq,
    Bool.and_eq_true, Bool.not_eq_true', List.isEmpty_eq_false_iff, List.all_eq_true,
    decide_eq_true_eq]
  constructor
  · intro h
    obtain ⟨⟨⟨hne, hdigits⟩, hlt⟩, rfl⟩ := h
    exact ⟨hne, hdigits, rfl, hlt⟩
  · intro h
    obtain ⟨hne, hdigits, rfl, hlt⟩ := h
    exact ⟨⟨⟨hne, hdigits⟩, hlt⟩, rfl⟩

theorem isNumeral_digits {n : Nat} (hlimit : n < Numeral.limit) :
    IsNumeral (Numeral.digits n) n :=
  ⟨digits_ne_nil n, fun _ => isDigit_of_mem_digits, Numeral.value_digits n, hlimit⟩

end Digits

section Words

/-- `Quoted written text`: what is written between quotes stands for the text. A backslash makes the
    next character literal. -/
inductive Quoted : List Char → List Char → Prop
  | nil : Quoted [] []
  | plain {c : Char} {written text : List Char} (hquote : c ≠ '\'') (hslash : c ≠ '\\')
      (hmore : Quoted written text) : Quoted (c :: written) (c :: text)
  | escaped (c : Char) {written text : List Char} (hmore : Quoted written text) :
      Quoted ('\\' :: c :: written) (c :: text)

/-- Behind its opening quote, a quoted text is read up to the first quote that is not literal. -/
theorem atomText?_eq_some_iff {source text rest : List Char} :
    atomText? source = some (text, rest) ↔
      ∃ written, source = written ++ '\'' :: rest ∧ Quoted written text := by
  constructor
  · intro hread
    fun_induction atomText? source generalizing text with
    | case1 => cases hread
    | case2 more =>
      cases hread
      exact ⟨[], rfl, .nil⟩
    | case3 => cases hread
    | case4 c more ih =>
      obtain ⟨⟨text', rest'⟩, hmore, hpair⟩ := Option.map_eq_some_iff.mp hread
      cases hpair
      obtain ⟨written, rfl, hquoted⟩ := ih hmore
      exact ⟨'\\' :: c :: written, rfl, .escaped c hquoted⟩
    | case5 c more hquote _ hslash ih =>
      obtain ⟨⟨text', rest'⟩, hmore, hpair⟩ := Option.map_eq_some_iff.mp hread
      cases hpair
      obtain ⟨written, rfl, hquoted⟩ := ih hmore
      obtain ⟨d, later, hlater⟩ : ∃ d later, written ++ '\'' :: rest = d :: later :=
        List.exists_cons_of_ne_nil (by simp)
      exact ⟨c :: written, rfl, .plain hquote (fun hc => hslash d later hc hlater) hquoted⟩
  · intro h
    obtain ⟨written, rfl, hquoted⟩ := h
    induction hquoted with
    | nil => rfl
    | plain hquote hslash _ ih => simp [atomText?, hslash, ih]
    | escaped c _ ih => simp [atomText?, ih]

theorem quoted_flatMap (text : List Char) :
    Quoted (text.flatMap fun c => if c = '\'' ∨ c = '\\' then ['\\', c] else [c]) text := by
  induction text with
  | nil => exact .nil
  | cons c text ih =>
    rw [List.flatMap_cons]
    by_cases hescape : c = '\'' ∨ c = '\\'
    · rw [if_pos hescape]
      exact .escaped c ih
    · rw [if_neg hescape]
      obtain ⟨hquote, hslash⟩ := not_or.mp hescape
      exact .plain hquote hslash ih

theorem readAtom_of_quoted (source : List Char) {written text : List Char}
    (hquoted : Quoted written text) (rest : List Char) :
    readAtom source (written ++ '\'' :: rest) = .ok (String.ofList text, skipBlanks rest) := by
  rw [readAtom, atomText?_eq_some_iff.mpr ⟨written, rfl, hquoted⟩]

theorem isPart_of_isIdentifier {name : String} (hname : Name.isIdentifier name = true) :
    ∀ c ∈ name.toList, Name.isPart c = true := by
  unfold Name.isIdentifier at hname
  cases htext : name.toList with
  | nil => simp
  | cons first others =>
    rw [htext, Bool.and_eq_true, List.all_eq_true] at hname
    intro c hmem
    cases hmem with
    | head => exact Name.isPart_of_isStart hname.1
    | tail _ hmem => exact hname.2 c hmem

/-- An identifier begins as a name does. -/
theorem exists_start_of_isIdentifier {name : String} (hname : Name.isIdentifier name = true) :
    ∃ c more, name.toList = c :: more ∧ Name.isStart c = true := by
  unfold Name.isIdentifier at hname
  cases htext : name.toList with
  | nil =>
    rw [htext] at hname
    cases hname
  | cons first others =>
    rw [htext, Bool.and_eq_true] at hname
    exact ⟨first, others, rfl, hname.1⟩

theorem readName_identifier {name : String} (hname : Name.isIdentifier name = true)
    {rest : List Char} (hmaximal : ∀ c ∈ rest.head?, Name.isPart c = false) :
    readName (name.toList ++ rest) = (name, skipBlanks rest) := by
  have hrun := isPart_of_isIdentifier hname
  rw [readName, takeWhile_run hrun hmaximal, dropWhile_run hrun hmaximal]
  simp

theorem isIdentifier_readName {c : Char} {source : List Char} (hstart : Name.isStart c = true) :
    Name.isIdentifier (readName (c :: source)).1 = true := by
  have hpart := Name.isPart_of_isStart hstart
  have hname : (readName (c :: source)).1.toList = c :: source.takeWhile Name.isPart := by
    simp [readName, hpart]
  have hall : (source.takeWhile Name.isPart).all Name.isPart = true := List.all_takeWhile
  simp [Name.isIdentifier, hname, hstart, hall]

theorem readCapture_of_isNumeral (source : List Char) {text : List Char} {index : Nat}
    (hindex : IsNumeral text index) (rest : List Char) :
    readCapture source (text ++ '#' :: rest) = .ok (index, skipBlanks rest) := by
  have hstop : ∀ c ∈ ('#' :: rest).head?, c.isDigit = false := by simp
  simp only [readCapture, takeWhile_run hindex.digits hstop, dropWhile_run hindex.digits hstop,
    read?_eq_some_iff.mpr hindex]

/-- Bounds written without blanks: `n`, `least:most` or `:most`, in order. -/
inductive IsBounds : List Char → Nat → Nat → Prop
  | exactly {text : List Char} {n : Nat} (hn : IsNumeral text n) : IsBounds text n n
  | range {low high : List Char} {least most : Nat} (hleast : IsNumeral low least)
      (hmost : IsNumeral high most) (hle : least ≤ most) :
      IsBounds (low ++ ':' :: high) least most
  | upTo {high : List Char} {most : Nat} (hmost : IsNumeral high most) :
      IsBounds (':' :: high) 0 most

theorem IsNumeral.ne {text : List Char} {n : Nat} (hn : IsNumeral text n) (mark : Char)
    (hmark : mark.isDigit = false) : ∀ c ∈ text, (c != mark) = true := by
  intro c hmem
  simpa using ne_of_isDigit (hn.digits c hmem) hmark

theorem IsNumeral.count_eq_zero {text : List Char} {n : Nat} (hn : IsNumeral text n) :
    text.count ':' = 0 := by
  rw [List.count_eq_zero]
  intro hmem
  exact ne_of_isDigit (hn.digits _ hmem) rfl rfl

/-- Without blanks, bounds are of digits and colons. -/
theorem IsBounds.chars {text : List Char} {least most : Nat} (hbounds : IsBounds text least most) :
    ∀ c ∈ text, c.isDigit = true ∨ c = ':' := by
  intro c hmem
  cases hbounds with
  | exactly hn => exact .inl (hn.digits c hmem)
  | range hleast hmost _ =>
    rcases List.mem_append.mp hmem with hmem | hmem
    · exact .inl (hleast.digits c hmem)
    · rcases List.mem_cons.mp hmem with rfl | hmem
      · exact .inr rfl
      · exact .inl (hmost.digits c hmem)
  | upTo hmost =>
    rcases List.mem_cons.mp hmem with rfl | hmem
    · exact .inr rfl
    · exact .inl (hmost.digits c hmem)

theorem IsBounds.filter_eq {text : List Char} {least most : Nat}
    (hbounds : IsBounds text least most) : text.filter (!isBlank ·) = text := by
  rw [List.filter_eq_self]
  intro c hmem
  rcases hbounds.chars c hmem with hdigit | rfl
  · simp [not_isBlank_of_isDigit hdigit]
  · decide

theorem isBounds_of_boundsOf {text : List Char} {least most : Nat}
    (hread : boundsOf text = .ok (least, most)) : IsBounds text least most := by
  have htext := List.takeWhile_append_dropWhile (p := (· != ':')) (l := text)
  unfold boundsOf at hread
  split at hread
  · cases hread
  dsimp only at hread
  split at hread
  · rename_i hcolon
    rw [hcolon, List.append_nil] at htext
    split at hread
    · rename_i n hn
      cases hread
      rw [htext] at hn
      exact .exactly (read?_eq_some_iff.mp hn)
    · cases hread
  · rename_i c high hcolon
    obtain rfl : c = ':' := by
      have hhead := not_of_mem_head?_dropWhile (p := (· != ':')) c (by rw [hcolon]; rfl)
      simpa using hhead
    rw [hcolon] at htext
    split at hread
    · rename_i l m hleast hmost
      split at hread
      · rename_i hle
        cases hread
        rw [← htext]
        split at hleast
        · rename_i hempty
          cases hleast
          rw [List.isEmpty_iff.mp hempty]
          exact .upTo (read?_eq_some_iff.mp hmost)
        · exact .range (read?_eq_some_iff.mp hleast) (read?_eq_some_iff.mp hmost) hle
      · cases hread
    · cases hread

theorem boundsOf_of_isBounds {text : List Char} {least most : Nat}
    (hbounds : IsBounds text least most) : boundsOf text = .ok (least, most) := by
  have hstop : ∀ rest, ∀ c ∈ (':' :: rest).head?, (c != ':') = false := by simp
  cases hbounds with
  | exactly hn =>
    have htake := List.takeWhile_eq_self_iff.mpr (hn.ne ':' rfl)
    have hdrop := List.dropWhile_eq_nil_iff.mpr (hn.ne ':' rfl)
    simp [boundsOf, hn.count_eq_zero, htake, hdrop, read?_eq_some_iff.mpr hn]
  | @range low high _ _ hleast hmost hle =>
    have hcount : (low ++ ':' :: high).count ':' = 1 := by
      simp [List.count_append, hleast.count_eq_zero, hmost.count_eq_zero]
    have hrun := hleast.ne ':' rfl
    have hne : low.isEmpty = false := by simpa using hleast.nonempty
    simp only [boundsOf, hcount, takeWhile_run hrun (hstop high), dropWhile_run hrun (hstop high),
      hne, read?_eq_some_iff.mpr hleast, read?_eq_some_iff.mpr hmost]
    simp [hle]
  | @upTo high _ hmost =>
    simp [boundsOf, hmost.count_eq_zero, read?_eq_some_iff.mpr hmost]

theorem objection_of_boundsOf {text : List Char} {objection : Objection}
    (hread : boundsOf text = .error objection) :
    objection = .invalidRange ∨ objection = .invalidBounds := by
  unfold boundsOf at hread
  split at hread
  · cases hread
    exact .inl rfl
  · dsimp only at hread
    split at hread
    · split at hread
      · cases hread
      · cases hread
        exact .inr rfl
    · split at hread
      · split at hread
        · cases hread
        · cases hread
          exact .inr rfl
      · cases hread
        exact .inr rfl

/-- Bounds between braces are taken up to the closing one, and blanks left out of them. -/
theorem readBounds_of_isBounds (source : List Char) {inside : List Char} {least most : Nat}
    (hbounds : IsBounds (inside.filter (!isBlank ·)) least most) (rest : List Char) :
    readBounds source (inside ++ '\x7d' :: rest) = .ok ((least, most), skipBlanks rest) := by
  have hrun : ∀ c ∈ inside, (c != '\x7d') = true := by
    intro c hmem
    rw [bne_iff_ne]
    rintro rfl
    rcases hbounds.chars _ (List.mem_filter.mpr ⟨hmem, rfl⟩) with hdigit | hcolon
    · cases hdigit
    · cases hcolon
  have hstop : ∀ c ∈ ('\x7d' :: rest).head?, (c != '\x7d') = false := by simp
  simp only [readBounds, takeWhile_run hrun hstop, dropWhile_run hrun hstop,
    boundsOf_of_isBounds hbounds]

/-- What is written for bounds between their braces. -/
theorem exists_isBounds_of_boundsText {least most : Nat} (hle : least ≤ most)
    (hmost : most < Numeral.limit) :
    ∃ inside, boundsText least most = '\x7b' :: inside ++ ['\x7d'] ∧
      IsBounds (inside.filter (!isBlank ·)) least most := by
  have hmost' := isNumeral_digits hmost
  refine ⟨_, rfl, ?_⟩
  split
  · rename_i heq
    subst heq
    have hbounds := IsBounds.exactly hmost'
    exact hbounds.filter_eq.symm ▸ hbounds
  · have hbounds := IsBounds.range (isNumeral_digits (Nat.lt_of_le_of_lt hle hmost)) hmost' hle
    exact hbounds.filter_eq.symm ▸ hbounds

end Words

end Pattern

end WordGrammar
