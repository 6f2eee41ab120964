import Mathlib.Order.Bounds.Basic
import WordGrammar.Proofs.Matcher.Language
import WordGrammar.Proofs.Matcher.Scan

namespace WordGrammar

section Bytes

variable {s : List Char}

theorem byteLength_eq (s : List Char) : byteLength s = (String.ofList s).utf8ByteSize := by
  induction s with
  | nil => rfl
  | cons c s ih =>
    rw [String.ofList_cons, String.utf8ByteSize_append, String.utf8ByteSize_singleton, ← ih]
    rfl

/-- Behind any of its characters a text can be cut. -/
theorem isValid_byteLength (text : String) (k : Nat) :
    (String.Pos.Raw.mk (byteLength (text.toList.take k))).IsValid text := by
  refine String.Pos.Raw.isValid_iff_exists_append.mpr
    ⟨String.ofList (text.toList.take k), String.ofList (text.toList.drop k), ?_, ?_⟩
  · rw [← String.ofList_append, List.take_append_drop, String.ofList_toList]
  · rw [byteLength_eq]
    rfl

/-- The bytes between two places are those of the characters between them. -/
theorem extract_toByteArray (text : String) {i j : Nat} (hle : i ≤ j) :
    text.toByteArray.extract (byteLength (text.toList.take i)) (byteLength (text.toList.take j)) =
      (String.ofList (text.toList.extract i j)).toByteArray := by
  have htake : text.toList.take j = text.toList.take i ++ text.toList.extract i j := by
    obtain ⟨more, rfl⟩ := Nat.exists_eq_add_of_le hle
    rw [List.extract_eq_take_drop, Nat.add_sub_cancel_left, List.take_add]
  have htext : text.toByteArray = (String.ofList (text.toList.take i)).toByteArray ++
      ((String.ofList (text.toList.extract i j)).toByteArray ++
        (String.ofList (text.toList.drop j)).toByteArray) := by
    rw [← String.toByteArray_append, ← String.toByteArray_append, ← String.ofList_append,
      ← String.ofList_append, ← List.append_assoc, ← htake, List.take_append_drop,
      String.ofList_toList]
  rw [htake, byteLength_eq, byteLength_eq, String.ofList_append, String.utf8ByteSize_append,
    ← String.size_toByteArray, ← String.size_toByteArray, htext]
  exact (ByteArray.extract_append_size_add (i := 0)).trans (ByteArray.extract_append_eq_left rfl)

end Bytes

/-- Pieces that lengths cut off a text they divide. -/
theorem cut_pieces (pieces : List (List Char)) :
    cut (pieces.map List.length) pieces.flatten = pieces := by
  induction pieces with
  | nil => rfl
  | cons piece pieces ih =>
    rw [List.map_cons, List.flatten_cons, cut, List.take_left, List.drop_left, ih]

namespace Matcher

open Search

variable {p : Matcher} {s : List Char}

/-- Whether some stretch of the text matches: every place is tried where one may begin, and from
    there every place where it may end. -/
def occurs (p : Matcher) (s : List Char) : Except Fault Bool :=
  (List.range s.length).anyM fun i =>
    (List.range' (i + 1) (s.length - i)).anyM fun j => Option.isSome <$> p (s.extract i j)

/-- The ends that are tried from one place on are those of a match that begins there. -/
theorem anyM_ends_eq (p : Matcher) (s : List Char) (i : Nat) :
    ((List.range' (i + 1) (s.length - i)).anyM fun j => Option.isSome <$> p (s.extract i j)) =
      Option.isSome <$> p.hit? (s.drop i) := by
  have htake (k : Nat) : s.extract i (i + 1 + k) = (s.drop i).take (k + 1) := by
    rw [List.extract_eq_take_drop]
    congr 1
    omega
  rw [← isSome_eq_anyM, List.range'_eq_map_range, map_eq, isSome_eq_anyM, hit?, isSome_eq_anyM,
    List.length_drop]
  congr 1
  funext k
  rw [htake, Outcome.isSome_map_eq]

/-- The one scan tells whether the other finds anything, and is at fault where that is. -/
theorem occurs_eq (p : Matcher) (s : List Char) : p.occurs s = Option.isSome <$> p.find? s := by
  rw [occurs, find?, isSome_eq_anyM]
  congr 1
  funext i
  rw [anyM_ends_eq, Outcome.isSome_map_eq]

/-- Where every stretch has an answer, so has the search for one. -/
theorem exists_find? (hanswers : ∀ stretch, stretch <:+: s → stretch ≠ [] →
    ∃ answer, p stretch = .ok answer) : ∃ found, p.find? s = .ok found := by
  cases hfind : p.find? s with
  | ok found => exact ⟨found, rfl⟩
  | error fault =>
    obtain ⟨start, -, htrial⟩ := exists_of_error hfind
    rcases Outcome.bind_eq_error_iff.mp htrial with hhit | ⟨_, -, hdone⟩
    · obtain ⟨stretch, hmeets⟩ := exists_meets_of_error hhit
      have hinside : stretch <:+: s := hmeets.begins.isInfix.trans (List.drop_suffix _ _).isInfix
      obtain ⟨answer, hanswer⟩ := hanswers stretch hinside hmeets.ne_nil
      rw [hmeets.answer] at hanswer
      cases hanswer
    · cases hdone

/-- Nothing matches from a place before the one found, and from there this stretch is the shortest
    that does. -/
theorem first_of_find? {o : Occurrence} (hfind : p.find? s = .ok (some o)) :
    o.text = s ∧ (∀ i < o.start, p.Misses (s.drop i)) ∧
      p.Meets (s.drop o.start) o.chars (.ok (some o.hit.segments)) ∧
      o.start + o.hit.length ≤ s.length := by
  obtain ⟨start, hstart, hbefore, htrial⟩ := exists_first_of_range hfind nofun
  obtain ⟨found, hhit, hfound⟩ := Outcome.bind_eq_ok_iff.mp htrial
  cases found with
  | none => cases hfound
  | some hit =>
    cases hfound
    obtain ⟨stretch, later, hs, hlength, hmeets⟩ := exists_meets_of_hit? hhit
    have hchars : (⟨s, start, hit⟩ : Occurrence).chars = stretch := by
      rw [Occurrence.chars, ← hs, ← hlength, List.take_left]
    refine ⟨rfl, fun i hi => ?_, hchars ▸ hmeets, ?_⟩
    · exact hit?_eq_none_iff_misses.mp (Outcome.map_eq_none_iff.mp (hbefore i hi))
    · have htotal := congrArg List.length hs
      rw [List.length_append, List.length_drop] at htotal
      show start + hit.length ≤ s.length
      omega

end Matcher

variable {W : Type} {g : Grammar W} {e : Expr W}

namespace Grammar

variable {s : List Char} {i j : Nat}

/-- The stretch of the text from one position up to another, which is not empty, is a text of the
    expression. -/
def Occurs (g : Grammar W) (e : Expr W) (s : List Char) (i j : Nat) : Prop :=
  i < j ∧ j ≤ s.length ∧ s.extract i j ∈ g.language e

theorem extract_prefix_drop (s : List Char) (i j : Nat) : s.extract i j <+: s.drop i := by
  rw [List.extract_eq_take_drop]
  exact List.take_prefix _ _

theorem length_extract (hle : j ≤ s.length) : (s.extract i j).length = j - i := by
  rw [List.extract_eq_take_drop, List.length_take, List.length_drop]
  omega

theorem Occurs.ne_nil (hoccurs : g.Occurs e s i j) : s.extract i j ≠ [] := by
  obtain ⟨hlt, hle, -⟩ := hoccurs
  refine List.ne_nil_of_length_pos ?_
  rw [length_extract hle]
  omega

/-- What the matcher has no match for is no text of the expression. -/
theorem Occurs.answer_ne (hoccurs : g.Occurs e s i j) :
    g.matcher e (s.extract i j) ≠ .ok none := by
  intro hnone
  cases (isSome_iff_mem_language hnone).mpr hoccurs.2.2

/-- What is found is the first that occurs: no other begins before it, and of those that begin with
    it none ends before it. -/
theorem isLeast_of_find? {o : Occurrence} (hfind : (g.matcher e).find? s = .ok (some o)) :
    IsLeast {i | ∃ j, g.Occurs e s i j} o.start ∧
      IsLeast {j | g.Occurs e s o.start j} (o.start + o.hit.length) := by
  obtain ⟨htext, hbefore, hmeets, hend⟩ := Matcher.first_of_find? hfind
  have hchars : s.extract o.start (o.start + o.hit.length) = o.chars := by
    rw [List.extract_eq_take_drop, Nat.add_sub_cancel_left, Occurrence.chars, htext]
  have hoccurs : g.Occurs e s o.start (o.start + o.hit.length) := by
    refine ⟨by rw [Hit.length]; omega, hend, ?_⟩
    rw [hchars]
    exact (isSome_iff_mem_language hmeets.answer).mp rfl
  refine ⟨⟨⟨_, hoccurs⟩, fun i hi => ?_⟩, hoccurs, fun j hj => ?_⟩
  · obtain ⟨j, hj⟩ := hi
    by_contra hlt
    exact hj.answer_ne (hbefore i (by omega) _ (extract_prefix_drop s i j) hj.ne_nil)
  · by_contra hlt
    have hlength : (s.extract o.start j).length < o.chars.length := by
      rw [length_extract hj.2.1, ← hchars, length_extract hend]
      have hpositive := hj.1
      omega
    have hshorter : s.extract o.start j <+: o.chars :=
      List.prefix_of_prefix_length_le (extract_prefix_drop s _ _) hmeets.begins hlength.le
    refine hj.answer_ne (hmeets.shortest _ hshorter hj.ne_nil fun heq => ?_)
    rw [heq] at hlength
    exact Nat.lt_irrefl _ hlength

/-- Something is found exactly if something occurs. -/
theorem isSome_find?_iff {found : Option Occurrence} (hfind : (g.matcher e).find? s = .ok found) :
    found.isSome = true ↔ ∃ i j, g.Occurs e s i j := by
  cases found with
  | some o =>
    obtain ⟨⟨⟨j, hoccurs⟩, -⟩, -⟩ := isLeast_of_find? hfind
    exact ⟨fun _ => ⟨_, j, hoccurs⟩, fun _ => rfl⟩
  | none =>
    refine ⟨nofun, fun h => ?_⟩
    obtain ⟨i, j, hoccurs⟩ := h
    have hinside : s.extract i j <:+: s :=
      (extract_prefix_drop s i j).isInfix.trans (List.drop_suffix _ _).isInfix
    exact (hoccurs.answer_ne (Matcher.find?_eq_none_iff.mp hfind _ hinside hoccurs.ne_nil)).elim

end Grammar

/-- The occurrence covers the characters of the text from one position up to another. Where it
    begins and ends in bytes is between two characters, and the bytes there are those of the
    characters. It has as many segments as a match of these characters, of the same lengths, and
    they make up the characters. -/
structure Occurrence.Covers (o : Occurrence) (g : Grammar W) (e : Expr W) (text : String)
    (i j : Nat) : Prop where
  chars : o.chars = text.toList.extract i j
  startByte : o.startByte = (String.ofList (text.toList.take i)).utf8ByteSize
  endByte : o.endByte = (String.ofList (text.toList.take j)).utf8ByteSize
  startByte_isValid : (String.Pos.Raw.mk o.startByte).IsValid text
  endByte_isValid : (String.Pos.Raw.mk o.endByte).IsValid text
  bytes : text.toByteArray.extract o.startByte o.endByte = (String.ofList o.chars).toByteArray
  lengths : ∃ lengths, g.match? e (String.ofList o.chars) = .ok (some lengths) ∧
    o.segments.map List.length = lengths
  flatten : o.segments.flatten = o.chars

namespace Grammar

variable {text : String}

theorem covers_of_find? {o : Occurrence} (hfind : g.find? e text = .ok (some o)) :
    o.Covers g e text o.start (o.start + o.hit.length) := by
  obtain ⟨htext, -, hmeets, -⟩ := Matcher.first_of_find? hfind
  have hchars : o.chars = text.toList.extract o.start (o.start + o.hit.length) := by
    rw [List.extract_eq_take_drop, Nat.add_sub_cancel_left, Occurrence.chars, htext]
  have hstart : o.startByte = byteLength (text.toList.take o.start) := by
    rw [Occurrence.startByte, htext]
  have hend : o.endByte = byteLength (text.toList.take (o.start + o.hit.length)) := by
    rw [Occurrence.endByte, htext]
  obtain ⟨pieces, hflatten, hlengths⟩ := exists_pieces_of_answer hmeets.answer
  have hsegments : o.segments = pieces := by
    rw [Occurrence.segments, ← hflatten, ← hlengths, cut_pieces]
  constructor
  · exact hchars
  · rw [hstart, byteLength_eq]
  · rw [hend, byteLength_eq]
  · rw [hstart]
    exact isValid_byteLength text _
  · rw [hend]
    exact isValid_byteLength text _
  · rw [hstart, hend, hchars]
    exact extract_toByteArray text (Nat.le_add_right _ _)
  · refine ⟨o.hit.segments, ?_, by rw [hsegments, hlengths]⟩
    rw [match?, String.toList_ofList]
    exact hmeets.answer
  · rw [hsegments, hflatten]

/-- Expressions are looked for one after the other, each with a scan of its own. -/
theorem occursAny_eq_anyM (g : Grammar W) (es : List (Expr W)) (s : List Char) :
    g.occursAny es s = es.anyM fun e => (g.matcher e).occurs s := by
  induction es with
  | nil => rfl
  | cons e es ih =>
    rw [occursAny, List.anyM, Matcher.occurs_eq, ← ih]
    cases (g.matcher e).find? s with
    | error fault => rfl
    | ok found =>
      cases found with
      | none => rfl
      | some o => rfl

theorem occursAny_eq_true_iff {es : List (Expr W)} {s : List Char} {answer : Bool}
    (hanswer : g.occursAny es s = .ok answer) :
    answer = true ↔ ∃ e ∈ es, ∃ o, (g.matcher e).find? s = .ok (some o) := by
  induction es with
  | nil =>
    cases hanswer
    simp
  | cons e es ih =>
    obtain ⟨found, hfind, hrest⟩ := Outcome.bind_eq_ok_iff.mp hanswer
    rw [List.exists_mem_cons_iff, hfind]
    cases found with
    | some o =>
      cases hrest
      exact ⟨fun _ => .inl ⟨o, rfl⟩, fun _ => rfl⟩
    | none =>
      rw [ih hrest]
      refine ⟨.inr, fun h => h.resolve_left ?_⟩
      rintro ⟨o, ho⟩
      cases ho

theorem exists_occursAny_of_find? {es : List (Expr W)} {s : List Char}
    (hes : ∀ e ∈ es, ∃ found, (g.matcher e).find? s = .ok found) :
    ∃ answer, g.occursAny es s = .ok answer := by
  induction es with
  | nil => exact ⟨false, rfl⟩
  | cons e es ih =>
    obtain ⟨⟨found, hfind⟩, hrest⟩ := List.forall_mem_cons.mp hes
    rw [occursAny, hfind]
    cases found with
    | some o => exact ⟨true, rfl⟩
    | none => exact ih hrest

/-- What is found is the leftmost and then shortest stretch of the text that is a text of the
    expression, with its place in bytes and its segments. Something is found exactly if something
    occurs, provided that matching comes to answers. Exclusions are looked for by another scan, and
    it tells exactly whether one of them would be found. -/
theorem find?_leftmost_shortest (g : Grammar W) (e : Expr W) (text : String) :
    ((∀ i j, i < j → j ≤ text.toList.length →
        ∃ answer, g.matcher e (text.toList.extract i j) = .ok answer) →
      ∃ found, g.find? e text = .ok found) ∧
    (∀ found, g.find? e text = .ok found →
      (found.isSome = true ↔ ∃ i j, g.Occurs e text.toList i j) ∧
      ∀ o, found = some o → ∃ i j, IsLeast {i | ∃ j, g.Occurs e text.toList i j} i ∧
        IsLeast {j | g.Occurs e text.toList i j} j ∧ o.Covers g e text i j) ∧
    ∀ r : Rule W,
      (g.isExcluded r text = r.exclusions.anyM fun x => (g.matcher x).occurs text.toList) ∧
      ((∀ x ∈ r.exclusions, ∃ found, g.find? x text = .ok found) →
        ∃ answer, g.isExcluded r text = .ok answer) ∧
      ∀ answer, g.isExcluded r text = .ok answer →
        (answer = true ↔ ∃ x ∈ r.exclusions, ∃ o, g.find? x text = .ok (some o)) := by
  refine ⟨fun hanswers => ?_, fun found hfind => ⟨isSome_find?_iff hfind, ?_⟩,
    fun r => ⟨?_, ?_, ?_⟩⟩
  · refine Matcher.exists_find? fun stretch hstretch hne => ?_
    obtain ⟨before, after, htext⟩ := hstretch
    have hpositive := List.length_pos_iff.mpr hne
    have hlength := congrArg List.length htext
    rw [List.length_append, List.length_append] at hlength
    obtain ⟨answer, hanswer⟩ :=
      hanswers before.length (before.length + stretch.length) (by omega) (by omega)
    rw [List.extract_eq_take_drop, Nat.add_sub_cancel_left, ← htext, List.append_assoc,
      List.drop_left, List.take_left] at hanswer
    exact ⟨answer, hanswer⟩
  · rintro o rfl
    obtain ⟨hstart, hend⟩ := isLeast_of_find? hfind
    exact ⟨_, _, hstart, hend, covers_of_find? hfind⟩
  · exact occursAny_eq_anyM g r.exclusions text.toList
  · exact exists_occursAny_of_find?
  · exact fun answer => occursAny_eq_true_iff

/-- A letter of two bytes, with an `n` or without. -/
def accented : Expr Nat := .seq [.atom "é", .optional (.atom "n")]

/-- A rule whose only word is excluded for such a letter. -/
def unaccented : Rule Nat := ⟨"W", .atom "aén", [.atom "o", accented], []⟩

/-- The grammar of this rule. -/
def unwritable : Grammar Nat := ⟨[unaccented], "W", false⟩

theorem find?_leftmost_shortest_accented :
    (∀ i j, i < j → j ≤ "aén".toList.length →
      ∃ answer, unwritable.matcher accented ("aén".toList.extract i j) = .ok answer) ∧
    ∃ o i j, unwritable.find? accented "aén" = .ok (some o) ∧
      IsLeast {i | ∃ j, unwritable.Occurs accented "aén".toList i j} i ∧
      IsLeast {j | unwritable.Occurs accented "aén".toList i j} j ∧
      o.Covers unwritable accented "aén" i j ∧
      o.startByte = 1 ∧ o.endByte = 3 ∧ o.segments = [['é']] ∧
      (∀ x ∈ unaccented.exclusions, ∃ found, unwritable.find? x "aén" = .ok found) ∧
      unwritable.isExcluded unaccented "aén" = .ok true := by
  have hanswers : ∀ i j, i < j → j ≤ "aén".toList.length →
      ∃ answer, unwritable.matcher accented ("aén".toList.extract i j) = .ok answer := by
    intro i j _ _
    have hrefs : accented.references = [] := by rfl
    refine exists_answer_of_acyclic (by decide) (by decide) (by rfl) ?_ ?_ _
    · rw [hrefs]
      exact List.forall_mem_nil _
    · rw [hrefs]
      exact List.forall_mem_nil _
  obtain ⟨hfinds, hfound, hexcluded⟩ := find?_leftmost_shortest unwritable accented "aén"
  obtain ⟨found, hfind⟩ := hfinds hanswers
  have hsome : found = some ⟨"aén".toList, 1, ⟨0, [1]⟩⟩ :=
    Except.ok.inj (hfind.symm.trans (by rfl))
  obtain ⟨i, j, hstart, hend, hcovers⟩ := (hfound found hfind).2 _ hsome
  rw [hsome] at hfind
  have hexclusions : ∀ x ∈ unaccented.exclusions,
      ∃ found, unwritable.find? x "aén" = .ok found := by
    rw [unaccented]
    rintro x (_ | ⟨_, _ | ⟨_, ⟨⟩⟩⟩)
    · exact ⟨none, by rfl⟩
    · exact ⟨_, hfind⟩
  obtain ⟨-, hanswer, htells⟩ := hexcluded unaccented
  obtain ⟨answer, hanswer⟩ := hanswer hexclusions
  have htrue : answer = true :=
    (htells answer hanswer).mpr ⟨accented, by simp [unaccented], _, hfind⟩
  rw [htrue] at hanswer
  exact ⟨hanswers, _, i, j, hfind, hstart, hend, hcovers, by rfl, by rfl, by rfl, hexclusions,
    hanswer⟩

end Grammar

end WordGrammar
