import WordGrammar.Proofs.Expr.Canonical
import WordGrammar.Proofs.Pattern.Completeness
import WordGrammar.Proofs.Pattern.Weight

namespace WordGrammar

namespace Pattern

variable {kind : Kind} {text : List Char} {phrase : Phrase} {e : Expr Float}

/-- The text is the phrase, whatever follows it, as long as that does not continue a name. -/
def Writes (kind : Kind) (text : List Char) (phrase : Phrase) : Prop :=
  ∀ behind rest, (∀ c ∈ behind.head?, Name.isPart c = false) → Gap behind rest →
    Derives kind phrase (text ++ behind) rest

theorem Writes.before {c : Char} {more rest : List Char} (hwrites : Writes kind text phrase)
    (hpart : Name.isPart c = false) (hgap : Gap (c :: more) rest) :
    Derives kind phrase (text ++ c :: more) rest :=
  hwrites (c :: more) rest (by simpa using hpart) hgap

/-- A text is whatever else its phrase is. -/
theorem Writes.imp {phrase' : Phrase} (hwrites : Writes kind text phrase)
    (himp : ∀ source rest, Derives kind phrase source rest → Derives kind phrase' source rest) :
    Writes kind text phrase' :=
  fun behind rest hpart hgap => himp _ _ (hwrites behind rest hpart hgap)

section Levels

theorem writes_atom (text : String) : Writes kind (quoteAtom text.toList) (.term (.atom text)) := by
  intro behind rest _ hgap
  have hderives : Derives kind (.term (.atom (String.ofList text.toList)))
      (quoteAtom text.toList ++ behind) rest :=
    .atom (quoted_flatMap text.toList) ⟨behind, rfl, hgap⟩
  rwa [String.ofList_toList] at hderives

theorem writes_ref {rule : String} (hname : Name.isIdentifier rule = true) :
    Writes kind rule.toList (.term (.ref rule)) :=
  fun _ _ hpart hgap => .ref hname hpart hgap

theorem writes_capture {index : Nat} (hindex : index < Numeral.limit) :
    Writes .replacement ('#' :: Numeral.digits index ++ ['#']) (.term (.capture index)) :=
  fun behind _ _ hgap => .capture rfl (isNumeral_digits hindex) ⟨behind, rfl, hgap⟩

theorem writes_optional (blanks : List Char) (hblanks : ∀ c ∈ blanks, isBlank c = true)
    (hwrites : Writes kind text (.expression e)) :
    Writes kind ('(' :: (blanks ++ text) ++ [')']) (.term (.repeated e 0 1)) := by
  intro behind rest _ hgap
  have hsource : '(' :: (blanks ++ text) ++ [')'] ++ behind =
      '(' :: (blanks ++ (text ++ ')' :: behind)) := by simp
  rw [hsource]
  exact .optional ⟨_, rfl, blanks, rfl, hblanks⟩ (hwrites.before rfl (.refl _))
    ⟨behind, rfl, hgap⟩

theorem writes_group (blanks : List Char) (hblanks : ∀ c ∈ blanks, isBlank c = true)
    (hwrites : Writes kind text (.expression e)) :
    Writes kind ('[' :: (blanks ++ text) ++ [']']) (.term e) := by
  intro behind rest _ hgap
  have hsource : '[' :: (blanks ++ text) ++ [']'] ++ behind =
      '[' :: (blanks ++ (text ++ ']' :: behind)) := by simp
  rw [hsource]
  exact .group ⟨_, rfl, blanks, rfl, hblanks⟩ (hwrites.before rfl (.refl _)) ⟨behind, rfl, hgap⟩

theorem writes_repeated (hwrites : Writes kind text (.term e)) {least most : Nat}
    (hle : least ≤ most) (hmost : most < Numeral.limit) :
    Writes kind (text ++ boundsText least most) (.quantified (.repeated e least most)) := by
  intro behind rest _ hgap
  obtain ⟨inside, htext, hbounds⟩ := exists_isBounds_of_boundsText hle hmost
  rw [htext, List.append_assoc]
  exact .repeated (hwrites.before rfl (.refl _)) hbounds ⟨behind, rfl, hgap⟩

theorem writes_weighted {weight : Float} (hwrites : Writes kind text (.sequence e))
    (hweight : Printable weight) :
    Writes kind (text ++ '*' :: weightText weight) (.alternative (e, some weight)) := by
  intro behind rest _ hgap
  rw [List.append_assoc]
  exact .weighted (hwrites.before rfl (.refl _)) ⟨_, rfl, .refl _⟩ hweight.isWeight
    ⟨behind, rfl, hgap⟩

/-- Texts are joined as what they stand for is. -/
theorem writes_intercalate {α : Type} {gap : List Char} (joined : List α → Phrase)
    {text : α → List Char} {as : List α} (hne : as ≠ [])
    (hone : ∀ a ∈ as, Writes kind (text a) (joined [a]))
    (hmore : ∀ a ∈ as, ∀ later others, Writes kind others (joined later) →
      Writes kind (text a ++ gap ++ others) (joined (a :: later))) :
    Writes kind (List.intercalate gap (as.map text)) (joined as) := by
  induction as with
  | nil => exact absurd rfl hne
  | cons a as ih =>
    cases as with
    | nil => simpa using hone a (by simp)
    | cons b as =>
      rw [List.map_cons, List.map_cons, List.intercalate_cons_cons]
      refine hmore a (by simp) _ _ (ih (by simp) ?_ ?_)
      · exact fun c hmem => hone c (List.mem_cons_of_mem a hmem)
      · exact fun c hmem => hmore c (List.mem_cons_of_mem a hmem)

theorem writes_items {text : Expr Float → List Char} {items : List (Expr Float)} (hne : items ≠ [])
    (hitems : ∀ item ∈ items, Writes kind (text item) (.quantified item)) :
    Writes kind (List.intercalate ['.'] (items.map text)) (.items items) := by
  have hone : ∀ item ∈ items, Writes kind (text item) (.items [item]) :=
    fun item hmem => (hitems item hmem).imp fun _ _ => .item
  refine writes_intercalate .items hne hone ?_
  intro item hmem later others hothers behind rest hpart hgap
  have hlater := hothers behind rest hpart hgap
  simp only [List.append_assoc, List.cons_append, List.nil_append]
  exact .items ((hitems item hmem).before rfl (.refl _)) ⟨_, rfl, .refl _⟩ hlater

theorem writes_alternatives {α : Type} {text : α → List Char}
    {alternative : α → Expr Float × Option Float} {as : List α} (hne : as ≠ [])
    (halternatives : ∀ a ∈ as, Writes kind (text a) (.alternative (alternative a))) :
    Writes kind (List.intercalate [' ', '/', ' '] (as.map text))
      (.alternatives (as.map alternative)) := by
  have hone : ∀ a ∈ as, Writes kind (text a) (.alternatives ([a].map alternative)) :=
    fun a hmem => (halternatives a hmem).imp fun _ _ => .alternative
  refine writes_intercalate (fun as => .alternatives (as.map alternative)) hne hone ?_
  intro a hmem later others hothers behind rest hpart hgap
  have hlater := hothers behind rest hpart hgap
  have hspace {source : List Char} : Gap (' ' :: source) source := ⟨[' '], rfl, by simp [isBlank]⟩
  simp only [List.append_assoc, List.cons_append, List.nil_append]
  exact .alternatives ((halternatives a hmem).before rfl hspace) ⟨_, rfl, hspace⟩ hlater

end Levels

end Pattern

namespace Expr

open Pattern

variable {kind : Kind} {e : Expr Float}

theorem itemChars_eq_map (items : List (Expr Float)) :
    itemChars items = items.map fun item => bracketed item.isJoined item.chars := by
  induction items with
  | nil => rfl
  | cons item items ih => rw [itemChars, ih, List.map_cons]

/-- The weight that is written behind an alternative. -/
def writtenWeight (lone : Bool) (a : Weighted Float (Expr Float)) : Option Float :=
  if lone || a.weight != 1 then some a.weight else none

/-- An alternative as it is written. -/
def alternativeText (lone : Bool) (a : Weighted Float (Expr Float)) : List Char :=
  bracketed a.item.isChoice a.item.chars ++
    match writtenWeight lone a with
    | some weight => '*' :: weightText weight
    | none => []

theorem alternativeChars_eq_map (lone : Bool) (alternatives : List (Weighted Float (Expr Float))) :
    alternativeChars lone alternatives = alternatives.map (alternativeText lone) := by
  induction alternatives with
  | nil => rfl
  | cons a alternatives ih =>
    rw [alternativeChars, ih, List.map_cons]
    congr 1
    unfold alternativeText writtenWeight
    split <;> simp

theorem chars_seq (items : List (Expr Float)) :
    (seq items).chars =
      List.intercalate ['.'] (items.map fun item => bracketed item.isJoined item.chars) := by
  rw [chars, itemChars_eq_map]

theorem chars_choice (alternatives : List (Weighted Float (Expr Float))) :
    (choice alternatives).chars =
      List.intercalate [' ', '/', ' ']
        (alternatives.map (alternativeText (alternatives.length == 1))) := by
  rw [chars, alternativeChars_eq_map]

/-- The written form is the expression at every level that is not tighter than the form. -/
structure Written (kind : Kind) (e : Expr Float) : Prop where
  term : e.isTerm = true → Writes kind e.chars (.term e)
  quantified : e.isJoined = false → Writes kind e.chars (.quantified e)
  sequence : e.isChoice = false → Writes kind e.chars (.sequence e)
  expression : Writes kind e.chars (.expression e)

namespace Written

theorem of_sequence (hjoined : e.isTerm = false ∧ e.isJoined = true)
    (hwrites : Writes kind e.chars (.sequence e)) : Written kind e where
  term h := by rw [hjoined.1] at h; cases h
  quantified h := by rw [hjoined.2] at h; cases h
  sequence _ := hwrites
  expression := hwrites.imp fun _ _ h => .plain (.alternative (.unweighted h))

theorem of_quantified (hterm : e.isTerm = false) (hwrites : Writes kind e.chars (.quantified e)) :
    Written kind e where
  term h := by rw [hterm] at h; cases h
  quantified _ := hwrites
  sequence _ := hwrites.imp fun _ _ h => .single (.item h)
  expression := hwrites.imp fun _ _ h => .plain (.alternative (.unweighted (.single (.item h))))

theorem of_term (hwrites : Writes kind e.chars (.term e)) : Written kind e where
  term _ := hwrites
  quantified _ := hwrites.imp fun _ _ => .once
  sequence _ := hwrites.imp fun _ _ h => .single (.item (.once h))
  expression := hwrites.imp fun _ _ h =>
    .plain (.alternative (.unweighted (.single (.item (.once h)))))

/-- Where the form is too loose for a level that takes in terms, brackets make it a term. -/
theorem writes_bracketed {needed : Bool} {phrase : Phrase} (hwritten : Written kind e)
    (hplain : needed = false → Writes kind e.chars phrase)
    (himp : ∀ source rest, Derives kind (.term e) source rest → Derives kind phrase source rest) :
    Writes kind (bracketed needed e.chars) phrase := by
  cases needed with
  | false => exact hplain rfl
  | true => exact (writes_group [] (by simp) hwritten.expression).imp himp

end Written

/-- An alternative is written with its weight behind it. -/
theorem writes_alternativeText {lone : Bool} {a : Weighted Float (Expr Float)}
    (hweight : Printable a.weight) (hwritten : Written kind a.item) :
    Writes kind (alternativeText lone a) (.alternative (a.item, writtenWeight lone a)) := by
  have hitem : Writes kind (bracketed a.item.isChoice a.item.chars) (.sequence a.item) :=
    hwritten.writes_bracketed hwritten.sequence fun _ _ h => .single (.item (.once h))
  unfold alternativeText writtenWeight
  cases lone || a.weight != 1 with
  | false => simpa using hitem.imp fun _ _ => .unweighted
  | true => exact writes_weighted hitem hweight

/-- An alternative without a written weight weighs one. -/
theorem getD_writtenWeight {lone : Bool} {a : Weighted Float (Expr Float)}
    (hweight : Printable a.weight) : (writtenWeight lone a).getD 1 = a.weight := by
  unfold writtenWeight
  cases hwritten : lone || a.weight != 1 with
  | true => rfl
  | false =>
    have hone : (a.weight == 1) = true := by
      simpa [bne] using (Bool.or_eq_false_iff.mp hwritten).2
    exact (hweight.one hone).symm

theorem map_writtenWeight (lone : Bool) {alternatives : List (Weighted Float (Expr Float))}
    (hweights : ∀ a ∈ alternatives, Printable a.weight) :
    (alternatives.map fun a => (a.item, writtenWeight lone a)).map
      (fun (item, weight) => ⟨item, weight.getD 1⟩) = alternatives := by
  induction alternatives with
  | nil => rfl
  | cons a alternatives ih =>
    have hweight : (writtenWeight lone a).getD 1 = a.weight :=
      getD_writtenWeight (hweights a (by simp))
    have hlater := ih fun a hmem => hweights a (List.mem_cons_of_mem _ hmem)
    rw [List.map_cons, List.map_cons, hlater]
    simp only [hweight]

theorem Written.of_items {items : List (Expr Float)} (hlength : 2 ≤ items.length)
    (hwritten : ∀ item ∈ items, Written kind item) : Written kind (.seq items) := by
  refine .of_sequence ⟨rfl, rfl⟩ ?_
  have hne : items ≠ [] := List.ne_nil_of_length_pos (by omega)
  have hitems : ∀ item ∈ items,
      Writes kind (bracketed item.isJoined item.chars) (.quantified item) := by
    intro item hmem
    have hitem := hwritten item hmem
    exact hitem.writes_bracketed hitem.quantified fun _ _ => .once
  rw [chars_seq]
  exact (writes_items hne hitems).imp fun _ _ h => .seq h hlength

theorem Written.of_alternatives {alternatives : List (Weighted Float (Expr Float))}
    (hne : alternatives ≠ []) (hweights : ∀ a ∈ alternatives, Printable a.weight)
    (hwritten : ∀ a ∈ alternatives, Written kind a.item) : Written kind (.choice alternatives) := by
  refine ⟨(by intro h; cases h), (by intro h; cases h), (by intro h; cases h), ?_⟩
  obtain ⟨lone, hlone⟩ : ∃ lone, (alternatives.length == 1) = lone := ⟨_, rfl⟩
  have hitems : ∀ a ∈ alternatives, Writes kind (alternativeText lone a)
      (.alternative (a.item, writtenWeight lone a)) :=
    fun a hmem => writes_alternativeText (hweights a hmem) (hwritten a hmem)
  have hwrites := writes_alternatives hne hitems
  have hchoice : 2 ≤ (alternatives.map fun a => (a.item, writtenWeight lone a)).length ∨
      ∃ e weight,
        alternatives.map (fun a => (a.item, writtenWeight lone a)) = [(e, some weight)] := by
    match alternatives, hne with
    | [a], _ =>
      obtain rfl : true = lone := by simpa using hlone
      exact .inr ⟨a.item, a.weight, rfl⟩
    | _ :: _ :: _, _ => exact .inl (by simp)
  have hderives := hwrites.imp fun _ _ h => .choice h hchoice
  rw [map_writtenWeight lone hweights] at hderives
  rwa [chars_choice, hlone]

/-- The written form of a canonical expression is that expression. -/
theorem Canonical.written (hcanonical : e.Canonical Printable)
    (hkind : kind = .pattern → e.hasCaptures = false) : Written kind e := by
  induction hcanonical with
  | atom text => exact .of_term (writes_atom text)
  | ref hname => exact .of_term (writes_ref hname)
  | capture hindex =>
    cases kind with
    | pattern => cases hkind rfl
    | replacement => exact .of_term (writes_capture hindex)
  | @seq items hlength hitems ih =>
    refine .of_items hlength fun item hmem => ih item hmem fun hpattern => ?_
    have hnone := hkind hpattern
    rw [hasCaptures_seq, List.any_eq_false] at hnone
    simpa using hnone item hmem
  | @choice alternatives hne hweights hitems ih =>
    refine .of_alternatives hne hweights fun a hmem => ih a hmem fun hpattern => ?_
    have hnone := hkind hpattern
    rw [hasCaptures_choice, List.any_eq_false] at hnone
    simpa using hnone a hmem
  | @repeated body least most hle hmost hbody ih =>
    have hwritten := ih fun hpattern => by simpa [hasCaptures] using hkind hpattern
    by_cases hoptional : least = 0 ∧ most = 1
    · obtain ⟨rfl, rfl⟩ := hoptional
      refine .of_term ?_
      rw [chars, if_pos ⟨rfl, rfl⟩]
      exact writes_optional [] (by simp) hwritten.expression
    · have hterm : (Expr.repeated body least most).isTerm = false := by
        simpa [isTerm] using hoptional
      refine .of_quantified hterm ?_
      rw [chars, if_neg hoptional]
      have hwrites : Writes kind (bracketed (!body.isTerm) body.chars) (.term body) :=
        hwritten.writes_bracketed (fun h => hwritten.term (by simpa using h)) fun _ _ h => h
      exact writes_repeated hwrites hle hmost

/-- A text that is derived to its end is read to its end. -/
theorem Canonical.read_text (hcanonical : e.Canonical Printable)
    (hkind : kind = .pattern → e.hasCaptures = false) : Pattern.read kind e.text = .ok e := by
  have hderives := (hcanonical.written hkind).expression [] [] (by simp) (.refl _)
  rw [List.append_nil] at hderives
  refine read_of_denotes ⟨e.chars, ?_, hderives⟩
  rw [text, String.toList_ofList]
  exact .refl _

/-- Written out and read back, a canonical expression is the same: as a replacement in any case, and
    as a pattern if it holds no capture. Weights are finite and have a clear sign bit. -/
theorem parse_text {e : Expr Float}
    (hcanonical : e.Canonical fun weight =>
      weight.isFinite = true ∧ Decimal.isNegative weight = false) :
    parseReplacement e.text = .ok e ∧
      ((∀ index, ¬ e.Contains (.capture index)) → parse e.text = .ok e) := by
  have hprintable : e.Canonical Printable :=
    hcanonical.mono fun weight hweight => printable_of_isFinite hweight.1 hweight.2
  refine ⟨hprintable.read_text (by simp), ?_⟩
  intro hnone
  refine hprintable.read_text fun _ => ?_
  rw [Bool.eq_false_iff, ne_eq, hasCaptures_iff]
  simpa using hnone

/-- A weighted sequence beside an atom with a quote in it. -/
def stemOrGold : Expr Float :=
  .choice [⟨.seq [.atom "a", .repeated (.ref "stem") 0 1, .choice [⟨.ref "end", 3⟩]], 0.5⟩,
    ⟨.repeated (.atom "d'or") 1 2, 1⟩]

theorem parse_text_stemOrGold :
    parseReplacement stemOrGold.text = .ok stemOrGold ∧ parse stemOrGold.text = .ok stemOrGold := by
  have hhalf : Float.isFinite 0.5 = true ∧ Decimal.isNegative 0.5 = false := by decide
  have hone : Float.isFinite 1 = true ∧ Decimal.isNegative 1 = false := by decide
  have hthree : Float.isFinite 3 = true ∧ Decimal.isNegative 3 = false := by decide
  have hstem : Name.isIdentifier "stem" = true := by decide
  have hend : Name.isIdentifier "end" = true := by decide
  have honce : 1 < Numeral.limit := by decide
  have htwice : 2 < Numeral.limit := by decide
  have hcanonical : stemOrGold.Canonical fun weight =>
      weight.isFinite = true ∧ Decimal.isNegative weight = false := by
    simp [stemOrGold, hhalf, hone, hthree, hstem, hend, honce, htwice]
  have hparsed := parse_text hcanonical
  exact ⟨hparsed.1, hparsed.2 (by simp [stemOrGold])⟩

end Expr

end WordGrammar
