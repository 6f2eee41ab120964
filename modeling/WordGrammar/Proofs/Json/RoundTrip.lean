import WordGrammar.Json.Printing
import WordGrammar.Json.Reading
import WordGrammar.Proofs.Pattern.Lexis

namespace WordGrammar.Json

open Pattern (takeWhile_run dropWhile_run)

section Strings

theorem codeUnit?_control : ∀ n < 0x20,
    codeUnit? '0' '0' (Nat.digitChar (n / 16)) (Nat.digitChar (n % 16)) = some n := by
  decide

theorem readUnits_plain {c : Char} (hquote : c ≠ '"') (hslash : c ≠ '\\')
    (hcontrol : ¬ c.toNat < 0x20) {rest after : List Char} {units : List Nat}
    (hrest : readUnits rest = some (units, after)) :
    readUnits (c :: rest) = some (c.toNat :: units, after) := by
  rw [readUnits.eq_def]
  split
  · rename_i heq
    cases heq
  · rename_i heq
    cases heq
    exact (hquote rfl).elim
  · rename_i heq
    cases heq
    exact (hslash rfl).elim
  · rename_i heq
    cases heq
    exact (hslash rfl).elim
  · rename_i heq
    cases heq
    rw [if_neg (not_or.mpr ⟨hslash, hcontrol⟩), hrest]
    rfl

/-- However a character is written, it is read as itself. -/
theorem readUnits_escape (c : Char) {rest after : List Char} {units : List Nat}
    (hrest : readUnits rest = some (units, after)) :
    readUnits (escape c ++ rest) = some (c.toNat :: units, after) := by
  unfold escape
  split
  iterate 7 next => simp [readUnits, escaped?, hrest]
  · rename_i hquote hslash _ _ _ _ _
    split
    · rename_i hcontrol
      simp [readUnits, codeUnit?_control _ hcontrol, hrest]
    · rename_i hcontrol
      exact readUnits_plain hquote hslash hcontrol hrest

theorem readUnits_flatMap (text rest : List Char) :
    readUnits (text.flatMap escape ++ '"' :: rest) = some (text.map Char.toNat, rest) := by
  induction text with
  | nil => rfl
  | cons c text ih =>
    rw [List.flatMap_cons, List.append_assoc, readUnits_escape c ih]
    rfl

/-- No character is one half of a surrogate pair. -/
theorem not_surrogate_toNat (c : Char) :
    isHighSurrogate c.toNat = false ∧ isLowSurrogate c.toNat = false := by
  have hvalid : c.toNat.isValidChar := c.valid
  unfold Nat.isValidChar at hvalid
  simp only [isHighSurrogate, isLowSurrogate, Bool.and_eq_false_iff, decide_eq_false_iff_not]
  omega

theorem assemble?_map_toNat (text : List Char) : assemble? (text.map Char.toNat) = some text := by
  induction text with
  | nil => rfl
  | cons c text ih =>
    cases text with
    | nil => simp [assemble?, not_surrogate_toNat]
    | cons d text =>
      rw [List.map_cons] at ih
      simp [assemble?, not_surrogate_toNat, ih]

/-- A string reads back, be it of a text or not. -/
theorem exists_readString (text : Option String) :
    ∃ inside, stringChars text = '"' :: inside ∧
      ∀ rest, readString (inside ++ rest) = some (text, rest) := by
  cases text with
  | none =>
    refine ⟨['\\', 'u', 'd', '8', '0', '0', '"'], rfl, fun rest => ?_⟩
    have hunit : codeUnit? 'd' '8' '0' '0' = some 0xD800 := by decide
    simp [readString, readUnits, hunit, assemble?, isHighSurrogate]
  | some text =>
    refine ⟨text.toList.flatMap escape ++ ['"'], rfl, fun rest => ?_⟩
    simp [readString, readUnits_flatMap, assemble?_map_toNat]

end Strings

section Numbers

/-- What a number needs in order to be written: digits where there must be some, and no zero in
    front of others. -/
structure Number.WellFormed (n : Number) : Prop where
  whole : n.whole ≠ []
  digits : ∀ c ∈ n.whole ++ n.fraction, c.isDigit = true
  leading : n.whole.head? = some '0' → n.whole = ['0']
  exponent : ∀ e ∈ n.exponent, e.digits ≠ [] ∧ ∀ c ∈ e.digits, c.isDigit = true

/-- A text that begins with nothing that would belong to a number before it. -/
def Ends (rest : List Char) : Prop :=
  ∀ c ∈ rest.head?, c.isDigit = false ∧ c ∉ ['.', 'e', 'E']

variable {digits rest : List Char}

theorem readDigits_run (hne : digits ≠ []) (hdigits : ∀ c ∈ digits, c.isDigit = true)
    (hstop : ∀ c ∈ rest.head?, c.isDigit = false) :
    readDigits (digits ++ rest) = some (digits, rest) := by
  rw [readDigits, takeWhile_run hdigits hstop, dropWhile_run hdigits hstop]
  cases digits with
  | nil => exact (hne rfl).elim
  | cons c digits => rfl

theorem readWhole_run (hne : digits ≠ []) (hdigits : ∀ c ∈ digits, c.isDigit = true)
    (hleading : digits.head? = some '0' → digits = ['0'])
    (hstop : ∀ c ∈ rest.head?, c.isDigit = false) :
    readWhole (digits ++ rest) = some (digits, rest) := by
  have hrun := readDigits_run hne hdigits hstop
  obtain ⟨first, more, rfl⟩ := List.exists_cons_of_ne_nil hne
  by_cases hzero : first = '0'
  · subst hzero
    obtain rfl : more = [] := by simpa using hleading rfl
    cases rest with
    | nil => rfl
    | cons c rest => simp [readWhole, hstop c rfl]
  · rw [← hrun, readWhole.eq_def]
    split
    · rename_i heq
      cases heq
      exact (hzero rfl).elim
    · rfl

/-- Behind a point stand digits, and without digits there is no point. -/
theorem readFraction_run (hdigits : ∀ c ∈ digits, c.isDigit = true)
    (hstop : ∀ c ∈ rest.head?, c.isDigit = false ∧ c ≠ '.') :
    readFraction ((if digits.isEmpty then [] else '.' :: digits) ++ rest) =
      some (digits, rest) := by
  cases digits with
  | nil =>
    cases rest with
    | nil => rfl
    | cons c rest => simp [readFraction, (hstop c rfl).2]
  | cons c digits => exact readDigits_run (by simp) hdigits fun d hd => (hstop d hd).1

/-- The characters of an exponent, if there is one. -/
def exponentChars : Option Exponent → List Char
  | none => []
  | some e => 'e' :: (if e.negative then '-' else '+') :: e.digits

theorem readExponent_run {exponent : Option Exponent}
    (hexponent : ∀ e ∈ exponent, e.digits ≠ [] ∧ ∀ c ∈ e.digits, c.isDigit = true)
    (hends : Ends rest) :
    readExponent (exponentChars exponent ++ rest) = some (exponent, rest) := by
  cases exponent with
  | none =>
    cases rest with
    | nil => rfl
    | cons c rest =>
      have hmark : ¬ (c = 'e' ∨ c = 'E') := by
        have hnot := (hends c rfl).2
        simp only [List.mem_cons] at hnot
        tauto
      simp [exponentChars, readExponent, hmark]
  | some e =>
    obtain ⟨negative, digits⟩ := e
    obtain ⟨hne, hdigits⟩ := hexponent _ rfl
    have hrun := readDigits_run hne hdigits fun c hc => (hends c hc).1
    cases negative <;> simp [exponentChars, readExponent, hrun]

/-- Neither an exponent nor what ends a number goes on with its digits. -/
theorem head?_exponentChars (exponent : Option Exponent) (hends : Ends rest) :
    ∀ c ∈ (exponentChars exponent ++ rest).head?, c.isDigit = false ∧ c ≠ '.' := by
  cases exponent with
  | none =>
    intro c hc
    obtain ⟨hdigit, hmark⟩ := hends c hc
    exact ⟨hdigit, fun hpoint => hmark (hpoint ▸ List.mem_cons_self ..)⟩
  | some e =>
    intro c hc
    obtain rfl : 'e' = c := Option.some.inj hc
    exact ⟨rfl, by decide⟩

/-- A number reads back before what ends it. -/
theorem readNumber_chars {n : Number} (hn : n.WellFormed) (hends : Ends rest) :
    readNumber (n.chars ++ rest) = some (n, rest) := by
  obtain ⟨negative, whole, fraction, exponent⟩ := n
  obtain ⟨hne, hdigits, hleading, hexponent⟩ := hn
  obtain ⟨hwhole, hfraction⟩ := List.forall_mem_append.mp hdigits
  obtain ⟨tail, htail⟩ : ∃ tail, exponentChars exponent ++ rest = tail := ⟨_, rfl⟩
  obtain ⟨behind, hbehind⟩ : ∃ behind,
      (if fraction.isEmpty then [] else '.' :: fraction) ++ tail = behind := ⟨_, rfl⟩
  have hexponentRead := readExponent_run hexponent hends
  have htailHead := head?_exponentChars exponent hends
  rw [htail] at hexponentRead htailHead
  have hfractionRead := readFraction_run hfraction htailHead
  have hbehindHead : ∀ c ∈ behind.head?, c.isDigit = false := by
    intro c hc
    rw [← hbehind] at hc
    split at hc
    · exact (htailHead c hc).1
    · obtain rfl : '.' = c := Option.some.inj hc
      rfl
  rw [hbehind] at hfractionRead
  have hwholeRead : readWhole (whole ++ behind) = some (whole, behind) :=
    readWhole_run hne hwhole hleading hbehindHead
  have hchars : Number.chars ⟨negative, whole, fraction, exponent⟩ ++ rest =
      (if negative then ['-'] else []) ++ (whole ++ behind) := by
    rw [← hbehind, ← htail]
    simp only [Number.chars, List.append_assoc]
    rfl
  rw [hchars]
  cases negative with
  | true => simp [readNumber, hwholeRead, hfractionRead, hexponentRead]
  | false =>
    obtain ⟨first, more, rfl⟩ := List.exists_cons_of_ne_nil hne
    have hfirst : first ≠ '-' := by
      rintro rfl
      exact absurd (hwhole '-' (List.mem_cons_self ..)) (by decide)
    rw [List.cons_append] at hwholeRead
    simp [readNumber, hfirst, hwholeRead, hfractionRead, hexponentRead]

/-- What other values begin with, what closes them, and blanks. -/
def otherMarks : List Char :=
  ['n', 't', 'f', '"', '[', '\x7b', ']', '\x7d', ' ', '\n', '\t', '\r']

theorem not_isBlank {c : Char} (hc : c ∉ otherMarks) : isBlank c = false := by
  simp only [otherMarks, List.mem_cons, not_or] at hc
  simp [isBlank, hc]

/-- A number begins with a sign or a digit. -/
theorem Number.WellFormed.exists_chars {n : Number} (hn : n.WellFormed) :
    ∃ c more, n.chars = c :: more ∧ c ∉ otherMarks := by
  obtain ⟨c, more, hwhole⟩ := List.exists_cons_of_ne_nil hn.whole
  have hdigit := hn.digits c (List.mem_append_left _ (hwhole ▸ List.mem_cons_self ..))
  have hmark : ∀ mark ∈ otherMarks, mark.isDigit = false := by simp [otherMarks]
  unfold Number.chars
  cases n.negative with
  | true => exact ⟨'-', _, rfl, by decide⟩
  | false =>
    rw [hwhole]
    refine ⟨c, _, rfl, fun hmem => ?_⟩
    rw [hmark c hmem] at hdigit
    cases hdigit

end Numbers

section Lists

variable {α : Type} {item : Reader α} {text : α → List Char} {closing : Char} {as : List α}

theorem skipBlanks_cons {c : Char} (hc : isBlank c = false) (rest : List Char) :
    skipBlanks (c :: rest) = c :: rest := by
  rw [skipBlanks, List.dropWhile_cons_of_neg (by simp [hc])]

theorem ends_comma (rest : List Char) : Ends (',' :: rest) := by
  intro c hc
  obtain rfl : ',' = c := Option.some.inj hc
  decide

/-- What closes a list is none of the marks within. -/
theorem closing_apart : ∀ closing ∈ [']', '\x7d'], isBlank closing = false ∧ closing ≠ ',' ∧
    closing.isDigit = false ∧ closing ∉ ['.', 'e', 'E'] := by
  simp [isBlank]

theorem ends_closing (hclosing : closing ∈ [']', '\x7d']) (rest : List Char) :
    Ends (closing :: rest) := by
  intro c hc
  obtain rfl : closing = c := Option.some.inj hc
  exact (closing_apart closing hclosing).2.2

theorem readItems_run (hclosing : closing ∈ [']', '\x7d']) (hne : as ≠ [])
    (hitem : ∀ a ∈ as, ∀ rest, Ends rest → item (text a ++ rest) = some (a, rest)) {budget : Nat}
    (hbudget : as.length ≤ budget) (rest : List Char) :
    readItems closing item budget (List.intercalate [','] (as.map text) ++ closing :: rest) =
      some (as, rest) := by
  obtain ⟨hblank, hcomma, -⟩ := closing_apart closing hclosing
  induction as generalizing budget with
  | nil => exact (hne rfl).elim
  | cons a as ih =>
    obtain ⟨budget, rfl⟩ := Nat.exists_eq_add_one_of_ne_zero (Nat.ne_zero_of_lt hbudget)
    obtain ⟨ha, hlater⟩ := List.forall_mem_cons.mp hitem
    cases as with
    | nil =>
      have hread := ha (closing :: rest) (ends_closing hclosing rest)
      simp [readItems, hread, skipBlanks_cons hblank, hcomma]
    | cons b as =>
      have hread := ha _ (ends_comma
        (List.intercalate [','] ((b :: as).map text) ++ closing :: rest))
      have hrest := ih (List.cons_ne_nil b as) hlater (Nat.le_of_succ_le_succ hbudget)
      have hsource : List.intercalate [','] ((a :: b :: as).map text) ++ closing :: rest =
          text a ++ ',' :: (List.intercalate [','] ((b :: as).map text) ++ closing :: rest) := by
        rw [List.map_cons, List.map_cons, List.intercalate_cons_cons]
        simp only [List.append_assoc]
        rfl
      rw [hsource, readItems, hread]
      simp only [Option.bind_eq_bind, Option.bind_some]
      rw [skipBlanks_cons rfl]
      simp only [if_true, hrest]
      rfl

@[simp] theorem skipBlanks_nil : skipBlanks [] = [] := rfl

/-- A list reads back whose items do, if none of them begins with a blank or as the list ends. -/
theorem readList_run (hclosing : closing ∈ [']', '\x7d'])
    (hfirst : ∀ a ∈ as, ∃ c more, text a = c :: more ∧ isBlank c = false ∧ c ≠ closing)
    (hitem : ∀ a ∈ as, ∀ rest, Ends rest → item (text a ++ rest) = some (a, rest)) {budget : Nat}
    (hbudget : as.length ≤ budget) (rest : List Char) :
    readList closing item budget (List.intercalate [','] (as.map text) ++ closing :: rest) =
      some (as, rest) := by
  have hblank := (closing_apart closing hclosing).1
  cases as with
  | nil => simp [readList, skipBlanks_cons hblank]
  | cons a as =>
    have hread := readItems_run hclosing (List.cons_ne_nil a as) hitem hbudget rest
    obtain ⟨c, more, htext, hc, hne⟩ := hfirst a (List.mem_cons_self ..)
    obtain ⟨tail, hsource⟩ : ∃ tail,
        List.intercalate [','] ((a :: as).map text) ++ closing :: rest = c :: tail := by
      cases as with
      | nil => exact ⟨_, by rw [List.map_singleton, List.intercalate_singleton, htext]; rfl⟩
      | cons b as =>
        exact ⟨_, by rw [List.map_cons, List.map_cons, List.intercalate_cons_cons, htext]; rfl⟩
    rw [hsource] at hread ⊢
    simp [readList, skipBlanks_cons hc, hne, hread]

theorem length_le_intercalate {parts : List (List Char)} {part : List Char} (hmem : part ∈ parts) :
    part.length ≤ (List.intercalate [','] parts).length := by
  induction parts with
  | nil => cases hmem
  | cons first parts ih =>
    cases parts with
    | nil =>
      obtain rfl : part = first := by simpa using hmem
      rw [List.intercalate_singleton]
    | cons second parts =>
      rw [List.intercalate_cons_cons, List.length_append, List.length_append]
      rcases List.mem_cons.mp hmem with rfl | hlater
      · omega
      · have hle := ih hlater
        omega

theorem length_le_intercalate_succ (parts : List (List Char)) :
    parts.length ≤ (List.intercalate [','] parts).length + 1 := by
  induction parts with
  | nil => exact Nat.zero_le _
  | cons first parts ih =>
    cases parts with
    | nil => exact Nat.succ_le_succ (Nat.zero_le _)
    | cons second parts =>
      rw [List.intercalate_cons_cons, List.length_append, List.length_append, List.length_cons]
      simp only [List.length_singleton]
      omega

end Lists

section Values

/-- The numbers in the value are such as can be written. -/
inductive Legible : Json → Prop
  | null : Legible .null
  | bool (b : Bool) : Legible (.bool b)
  | number {n : Number} (hn : n.WellFormed) : Legible (.number n)
  | string (text : Option String) : Legible (.string text)
  | array {items : List Json} (hitems : ∀ item ∈ items, Legible item) : Legible (.array items)
  | object {members : List (Option String × Json)}
      (hmembers : ∀ member ∈ members, Legible member.2) : Legible (.object members)

theorem chars_array (items : List Json) :
    (Json.array items).chars = '[' :: List.intercalate [','] (items.map chars) ++ [']'] := by
  have hitems : itemChars items = items.map chars := by
    induction items with
    | nil => rfl
    | cons item items ih => rw [itemChars, ih, List.map_cons]
  rw [chars, hitems]

/-- The characters of a member. -/
def memberText (member : Option String × Json) : List Char :=
  stringChars member.1 ++ ':' :: member.2.chars

theorem chars_object (members : List (Option String × Json)) :
    (Json.object members).chars =
      '\x7b' :: List.intercalate [','] (members.map memberText) ++ ['\x7d'] := by
  have hmembers : memberChars members = members.map memberText := by
    induction members with
    | nil => rfl
    | cons member members ih =>
      obtain ⟨key, value⟩ := member
      rw [memberChars, ih, List.map_cons]
      rfl
  rw [chars, hmembers]

/-- No value begins with a blank, or as a list or an object ends. -/
theorem Legible.exists_chars {j : Json} (hj : j.Legible) :
    ∃ c more, j.chars = c :: more ∧ isBlank c = false ∧ c ∉ [']', '\x7d'] := by
  cases hj with
  | null => exact ⟨'n', _, rfl, rfl, by decide⟩
  | bool b =>
    cases b with
    | true => exact ⟨'t', _, rfl, rfl, by decide⟩
    | false => exact ⟨'f', _, rfl, rfl, by decide⟩
  | number hn =>
    obtain ⟨c, more, hchars, hc⟩ := hn.exists_chars
    have hsubset : [']', '\x7d'] ⊆ otherMarks := by decide
    exact ⟨c, more, hchars, not_isBlank hc, fun hclosing => hc (hsubset hclosing)⟩
  | string text =>
    obtain ⟨inside, hchars, -⟩ := exists_readString text
    exact ⟨'"', inside, hchars, rfl, by decide⟩
  | array => exact ⟨'[', _, chars_array _, rfl, by decide⟩
  | object => exact ⟨'\x7b', _, chars_object _, rfl, by decide⟩

/-- A member reads back if its value does. -/
theorem readMember_memberText {inner : Reader Json} {member : Option String × Json}
    {rest : List Char} (hvalue : inner (member.2.chars ++ rest) = some (member.2, rest)) :
    readMember inner (memberText member ++ rest) = some (member, rest) := by
  obtain ⟨key, value⟩ := member
  obtain ⟨inside, hkey, hread⟩ := exists_readString key
  have hkeyRead := hread (':' :: (value.chars ++ rest))
  have hcolon : skipBlanks (':' :: (value.chars ++ rest)) = ':' :: (value.chars ++ rest) := rfl
  have hquote : skipBlanks ('"' :: (inside ++ ':' :: (value.chars ++ rest))) =
      '"' :: (inside ++ ':' :: (value.chars ++ rest)) := rfl
  simp only [memberText, hkey, List.cons_append, List.append_assoc]
  rw [readMember, hquote]
  simp [hkeyRead, hcolon, hvalue]

/-- What begins as no other value does is read as a number. -/
theorem readValueOf_number {budget : Nat} {inner : Reader Json} {c : Char} {more : List Char}
    (hc : c ∉ otherMarks) :
    readValueOf budget inner (c :: more) =
      (readNumber (c :: more)).map fun (n, rest) => (.number n, rest) := by
  rw [readValueOf, skipBlanks_cons (not_isBlank hc)]
  simp only [otherMarks, List.mem_cons, not_or] at hc
  split <;> simp_all

/-- A value reads back, before what ends a number, if those inside it do. -/
theorem readValueOf_chars {j : Json} (hj : j.Legible) {budget : Nat} {inner : Reader Json}
    (hbudget : j.chars.length ≤ budget)
    (hinner : ∀ part : Json, part.Legible → part.chars.length < j.chars.length → ∀ rest, Ends rest →
      inner (part.chars ++ rest) = some (part, rest)) {rest : List Char} (hends : Ends rest) :
    readValueOf budget inner (j.chars ++ rest) = some (j, rest) := by
  cases hj with
  | null => rfl
  | bool b => cases b <;> rfl
  | number hn =>
    have hread := readNumber_chars hn hends
    obtain ⟨c, more, hchars, hc⟩ := hn.exists_chars
    rw [chars, hchars, List.cons_append, readValueOf_number hc, ← List.cons_append, ← hchars, hread]
    rfl
  | string text =>
    obtain ⟨inside, htext, hread⟩ := exists_readString text
    rw [chars, htext, List.cons_append, readValueOf, skipBlanks_cons rfl]
    simp [hread]
  | @array items hitems =>
    have hcount := length_le_intercalate_succ (items.map chars)
    have hlength : (array items).chars.length =
        (List.intercalate [','] (items.map chars)).length + 2 := by
      simp [chars_array]
    rw [List.length_map] at hcount
    rw [hlength] at hbudget hinner
    have hlist : readList ']' inner budget
        (List.intercalate [','] (items.map chars) ++ ']' :: rest) = some (items, rest) := by
      refine readList_run (by decide) (fun item hmem => ?_) (fun item hmem => ?_) (by omega) rest
      · obtain ⟨c, more, hchars, hc, hclosing⟩ := (hitems item hmem).exists_chars
        exact ⟨c, more, hchars, hc, fun heq => hclosing (heq ▸ List.mem_cons_self ..)⟩
      · have hle := length_le_intercalate (List.mem_map_of_mem (f := chars) hmem)
        exact hinner item (hitems item hmem) (by omega)
    rw [chars_array, List.cons_append, List.cons_append, List.append_assoc, readValueOf,
      skipBlanks_cons rfl]
    simp [hlist]
  | @object members hmembers =>
    have hcount := length_le_intercalate_succ (members.map memberText)
    have hlength : (object members).chars.length =
        (List.intercalate [','] (members.map memberText)).length + 2 := by
      simp [chars_object]
    rw [List.length_map] at hcount
    rw [hlength] at hbudget hinner
    have hlist : readList '\x7d' (readMember inner) budget
        (List.intercalate [','] (members.map memberText) ++ '\x7d' :: rest) =
          some (members, rest) := by
      refine readList_run (by decide) (fun member _ => ?_) (fun member hmem => ?_) (by omega) rest
      · obtain ⟨inside, hkey, -⟩ := exists_readString member.1
        exact ⟨'"', _, by rw [memberText, hkey]; rfl, rfl, by decide⟩
      · intro rest hends
        have hle := length_le_intercalate (List.mem_map_of_mem (f := memberText) hmem)
        rw [memberText, List.length_append, List.length_cons] at hle
        exact readMember_memberText
          (hinner member.2 (hmembers member hmem) (by omega) rest hends)
    rw [chars_object, List.cons_append, List.cons_append, List.append_assoc, readValueOf,
      skipBlanks_cons rfl]
    simp [hlist]

/-- A value of fewer characters than the size allowed reads back. -/
theorem readValue_chars {j : Json} (hj : j.Legible) {size : Nat} (hsize : j.chars.length < size)
    {rest : List Char} (hends : Ends rest) :
    readValue size (j.chars ++ rest) = some (j, rest) := by
  induction size generalizing j rest with
  | zero => exact absurd hsize (Nat.not_lt_zero _)
  | succ size ih =>
    have hparts : ∀ part : Json, part.Legible → part.chars.length < j.chars.length →
        ∀ rest, Ends rest → readValue size (part.chars ++ rest) = some (part, rest) :=
      fun part hpart hlt rest hends => ih hpart (by omega) hends
    exact readValueOf_chars hj (Nat.le_of_lt_succ hsize) hparts hends

/-- What is written for a value with such numbers is read as that value. -/
theorem read?_write {j : Json} (hj : j.Legible) : read? j.write = some j := by
  have hread : readValue (j.chars.length + 1) (j.chars ++ []) = some (j, []) :=
    readValue_chars hj (Nat.lt_succ_self _) (by simp [Ends])
  rw [List.append_nil] at hread
  simp [read?, write, hread]

end Values

end WordGrammar.Json
