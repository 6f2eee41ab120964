import WordGrammar.Proofs.Pattern.Image
import WordGrammar.Proofs.Pattern.RoundTrip

namespace WordGrammar

namespace Pattern

/-- A place in a text, for what has been passed on the way to it: whether it is inside a quoted atom
    or behind the mark of a weight. -/
inductive Place where
  /-- In no quoted atom. -/
  | outside
  /-- Behind the mark of a weight that is yet to begin. -/
  | marked
  /-- In a quoted atom. -/
  | inside
  /-- In a quoted atom, behind a backslash. -/
  | escaped
  /-- Behind a mark with no weight. -/
  | astray
deriving DecidableEq

namespace Place

/-- The place behind a character. -/
def step : Place → Char → Place
  | .outside, c => if c = '\'' then .inside else if c = '*' then .marked else .outside
  | .marked, c => if isBlank c then .marked else if isWeightChar c then .outside else .astray
  | .inside, c => if c = '\'' then .outside else if c = '\\' then .escaped else .inside
  | .escaped, _ => .inside
  | .astray, _ => .astray

/-- The place behind a text. -/
def behind (place : Place) (text : List Char) : Place := text.foldl step place

variable {place : Place} {text text' : List Char}

@[simp] theorem behind_nil : place.behind [] = place := rfl

@[simp] theorem behind_cons (c : Char) : place.behind (c :: text) = (place.step c).behind text :=
  rfl

@[simp] theorem behind_append : place.behind (text ++ text') = (place.behind text).behind text' :=
  List.foldl_append

/-- Nothing that follows puts a lost mark right. -/
@[simp] theorem behind_astray : astray.behind text = .astray := by
  induction text with
  | nil => rfl
  | cons c text ih => exact ih

/-- Neither a quote nor a mark is among the characters. -/
def Plain (text : List Char) : Prop := ∀ c ∈ text, c ≠ '\'' ∧ c ≠ '*'

/-- No character of a kind that quotes and marks are not of is either. -/
theorem plain_of {p : Char → Bool} (hp : p '\'' = false ∧ p '*' = false)
    (htext : ∀ c ∈ text, p c = true) : Plain text := by
  intro c hmem
  have hc := htext c hmem
  refine ⟨?_, ?_⟩
  · rintro rfl
    rw [hp.1] at hc
    cases hc
  · rintro rfl
    rw [hp.2] at hc
    cases hc

theorem plain_singleton {c : Char} (hc : c ≠ '\'' ∧ c ≠ '*') : Plain [c] :=
  List.forall_mem_singleton.mpr hc

theorem Plain.append (hplain : Plain text) (hplain' : Plain text') : Plain (text ++ text') :=
  List.forall_mem_append.mpr ⟨hplain, hplain'⟩

theorem behind_plain (hplain : Plain text) : outside.behind text = .outside := by
  induction text with
  | nil => rfl
  | cons c text ih =>
    obtain ⟨⟨hquote, hmark⟩, hrest⟩ := List.forall_mem_cons.mp hplain
    rw [behind_cons, step, if_neg hquote, if_neg hmark]
    exact ih hrest

theorem behind_quoted {written : List Char} (hquoted : Quoted written text) :
    inside.behind written = .inside := by
  induction hquoted with
  | nil => rfl
  | plain hquote hslash _ ih =>
    rw [behind_cons, step, if_neg hquote, if_neg hslash]
    exact ih
  | escaped c _ ih => exact ih

theorem behind_atom {written : List Char} (hquoted : Quoted written text) :
    outside.behind ('\'' :: written ++ ['\'']) = .outside := by
  have hopen : outside.step '\'' = .inside := rfl
  have hclose : inside.step '\'' = .outside := rfl
  rw [List.cons_append, behind_cons, hopen, behind_append, behind_quoted hquoted, behind_cons,
    hclose, behind_nil]

theorem behind_weight (hne : text ≠ []) (hweight : ∀ c ∈ text, isWeightChar c = true) :
    marked.behind text = .outside := by
  cases text with
  | nil => exact (hne rfl).elim
  | cons c text =>
    obtain ⟨hc, hrest⟩ := List.forall_mem_cons.mp hweight
    have hstep : marked.step c = .outside := by
      rw [step, not_isBlank_of_isWeightChar hc, hc]
      rfl
    rw [behind_cons, hstep]
    exact behind_plain (plain_of ⟨rfl, rfl⟩ hrest)

end Place

section Reading

open Place

variable {kind : Kind} {place place' place'' : Place} {source between rest : List Char}

/-- Going through a source from one place, one gets to the rest of it at the other. -/
def Leads (place : Place) (source : List Char) (place' : Place) (rest : List Char) : Prop :=
  ∃ stretch, source = stretch ++ rest ∧ place.behind stretch = place'

theorem Leads.refl (place : Place) (source : List Char) : Leads place source place source :=
  ⟨[], rfl, rfl⟩

theorem Leads.trans (hfirst : Leads place source place' between)
    (hsecond : Leads place' between place'' rest) : Leads place source place'' rest := by
  obtain ⟨stretch, rfl, rfl⟩ := hfirst
  obtain ⟨stretch', rfl, rfl⟩ := hsecond
  exact ⟨stretch ++ stretch', by rw [List.append_assoc], behind_append⟩

/-- Blanks do not matter but in quoted atoms. -/
theorem Gap.leads (hgap : Gap source rest) (hplace : place = .outside ∨ place = .marked) :
    Leads place source place rest := by
  obtain ⟨blanks, rfl, hblanks⟩ := hgap
  refine ⟨blanks, rfl, ?_⟩
  rcases hplace with rfl | rfl
  · exact behind_plain (plain_of ⟨rfl, rfl⟩ hblanks)
  · induction blanks with
    | nil => rfl
    | cons c blanks ih =>
      obtain ⟨hc, hrest⟩ := List.forall_mem_cons.mp hblanks
      rw [behind_cons, step, if_pos hc]
      exact ih hrest

theorem Word.leads {word : List Char} (hword : Word word source rest)
    (hplace : place.behind word = .outside ∨ place.behind word = .marked) :
    Leads place source (place.behind word) rest := by
  obtain ⟨following, rfl, hgap⟩ := hword
  exact .trans ⟨word, rfl, rfl⟩ (hgap.leads hplace)

theorem Word.leads_outside {word : List Char} (hword : Word word source rest)
    (hplace : place.behind word = .outside) : Leads place source .outside rest :=
  hplace ▸ hword.leads (.inl hplace)

theorem Word.leads_symbol {c : Char} (hword : Word [c] source rest) (hc : c ≠ '\'' ∧ c ≠ '*') :
    Leads .outside source .outside rest :=
  hword.leads_outside (behind_plain (plain_singleton hc))

theorem plain_of_isIdentifier {name : String} (hname : Name.isIdentifier name = true) :
    Plain name.toList :=
  plain_of ⟨rfl, rfl⟩ (isPart_of_isIdentifier hname)

theorem plain_capture {digits : List Char} (hdigits : ∀ c ∈ digits, c.isDigit = true) :
    Plain ('#' :: digits ++ ['#']) := by
  have hmark : Plain ['#'] := plain_singleton (by decide)
  exact (hmark.append (plain_of ⟨rfl, rfl⟩ hdigits)).append hmark

theorem plain_bounds {inside : List Char} {least most : Nat}
    (hbounds : IsBounds (inside.filter (!isBlank ·)) least most) :
    Plain ('\x7b' :: inside ++ ['\x7d']) := by
  have hinside : Plain inside := by
    refine plain_of (p := fun c => isBlank c || c.isDigit || c == ':') ⟨rfl, rfl⟩ fun c hmem => ?_
    cases hblank : isBlank c with
    | true => rfl
    | false =>
      have hc := hbounds.chars c (List.mem_filter.mpr ⟨hmem, by rw [hblank]; rfl⟩)
      simpa using hc
  have hopen : Plain ['\x7b'] := plain_singleton (by decide)
  have hclose : Plain ['\x7d'] := plain_singleton (by decide)
  exact (hopen.append hinside).append hclose

/-- In whatever is derived, every mark is followed by a weight. -/
theorem Derives.leads {phrase : Phrase} (hderives : Derives kind phrase source rest) :
    Leads .outside source .outside rest := by
  induction hderives with
  | atom hquoted hword => exact hword.leads_outside (behind_atom hquoted)
  | optional hopen _ hclose ih =>
    exact ((hopen.leads_symbol (by decide)).trans ih).trans (hclose.leads_symbol (by decide))
  | group hopen _ hclose ih =>
    exact ((hopen.leads_symbol (by decide)).trans ih).trans (hclose.leads_symbol (by decide))
  | ref hname _ hgap =>
    exact .trans ⟨_, rfl, behind_plain (plain_of_isIdentifier hname)⟩ (hgap.leads (.inl rfl))
  | nothing => exact .refl _ _
  | capture _ hindex hword => exact hword.leads_outside (behind_plain (plain_capture hindex.digits))
  | once _ ih => exact ih
  | repeated _ hbounds hword ih =>
    exact ih.trans (hword.leads_outside (behind_plain (plain_bounds hbounds)))
  | item _ ih => exact ih
  | items _ hdot _ ih ih' => exact (ih.trans (hdot.leads_symbol (by decide))).trans ih'
  | single _ ih => exact ih
  | seq _ _ ih => exact ih
  | unweighted _ ih => exact ih
  | weighted _ hstar hweight hword ih =>
    have hmark : Leads .outside _ .marked _ := hstar.leads (.inr rfl)
    have htext := behind_weight hweight.chars.1 hweight.chars.2
    exact (ih.trans hmark).trans (hword.leads_outside htext)
  | alternative _ ih => exact ih
  | alternatives _ hslash _ ih ih' =>
    exact (ih.trans (hslash.leads_symbol (by decide))).trans ih'
  | plain _ ih => exact ih
  | choice _ _ ih => exact ih

/-- A text that can be read leads from mark to weight, to its end. -/
theorem behind_of_read {text : List Char} {e : Expr Float}
    (hread : read kind (String.ofList text) = .ok e) : outside.behind text = .outside := by
  obtain ⟨source, hgap, hderives⟩ := denotes_of_read hread
  rw [String.toList_ofList] at hgap
  obtain ⟨stretch, htext, hbehind⟩ := (hgap.leads (.inl rfl)).trans hderives.leads
  rw [List.append_nil] at htext
  rwa [htext]

end Reading

/-- The weight is one that decimals stand for: it is finite, and its sign bit is clear. -/
def IsDecimal (weight : Float) : Prop :=
  weight.isFinite = true ∧ Decimal.isNegative weight = false

instance : DecidablePred IsDecimal := fun weight =>
  inferInstanceAs (Decidable (weight.isFinite = true ∧ Decimal.isNegative weight = false))

section Writing

open Place

variable {text text' : List Char} {good good' : Prop}

/-- The text leads back to where no quoted atom is, which it does only if the condition holds, or
    else astray. -/
def LeadsIf (text : List Char) (good : Prop) : Prop :=
  outside.behind text = .astray ∨ good ∧ outside.behind text = .outside

theorem LeadsIf.of_outside (htext : outside.behind text = .outside) (hgood : good) :
    LeadsIf text good :=
  .inr ⟨hgood, htext⟩

theorem LeadsIf.imp (hleads : LeadsIf text good) (himp : good → good') : LeadsIf text good' :=
  hleads.imp_right fun h => ⟨himp h.1, h.2⟩

theorem LeadsIf.append (hleads : LeadsIf text good) (hleads' : LeadsIf text' good') :
    LeadsIf (text ++ text') (good ∧ good') := by
  unfold LeadsIf
  rw [behind_append]
  rcases hleads with hastray | ⟨hgood, htext⟩
  · rw [hastray]
    exact .inl behind_astray
  · rw [htext]
    exact hleads'.imp_right fun h => ⟨⟨hgood, h.1⟩, h.2⟩

/-- What is written besides does not matter. -/
theorem LeadsIf.append_plain {after : List Char} (hleads : LeadsIf text good)
    (hafter : Plain after) : LeadsIf (text ++ after) good :=
  (hleads.append (.of_outside (behind_plain hafter) trivial)).imp fun h => h.1

theorem LeadsIf.between {before after : List Char} (hleads : LeadsIf text good)
    (hbefore : Plain before) (hafter : Plain after) : LeadsIf (before ++ text ++ after) good := by
  have hopened : LeadsIf before True := .of_outside (behind_plain hbefore) trivial
  exact ((hopened.append hleads).append_plain hafter).imp fun h => h.2

theorem LeadsIf.bracketed (hleads : LeadsIf text good) (needed : Bool) :
    LeadsIf (bracketed needed text) good := by
  cases needed with
  | false => exact hleads
  | true => exact hleads.between (plain_singleton (by decide)) (plain_singleton (by decide))

theorem LeadsIf.intercalate {α : Type} {gap : List Char} {text : α → List Char} {good : α → Prop}
    {as : List α} (hgap : Plain gap) (htexts : ∀ a ∈ as, LeadsIf (text a) (good a)) :
    LeadsIf (List.intercalate gap (as.map text)) (∀ a ∈ as, good a) := by
  induction as with
  | nil => exact .of_outside rfl nofun
  | cons a as ih =>
    obtain ⟨ha, hrest⟩ := List.forall_mem_cons.mp htexts
    cases as with
    | nil => simpa using ha
    | cons b as =>
      rw [List.map_cons, List.map_cons, List.intercalate_cons_cons]
      exact ((ha.append_plain hgap).append (ih hrest)).imp List.forall_mem_cons.mpr

/-- A double that is neither undefined nor infinite is finite. -/
theorem isFinite_of_not {weight : Float} (hnan : weight.isNaN = false)
    (hinf : weight.isInf = false) : weight.isFinite = true := by
  have hnan' : (Double.number weight).isNaN = false := hnan
  have hinf' : (Double.number weight).isInf = false := hinf
  show (Double.number weight).isFinite = true
  cases hnumber : Double.number weight with
  | notANumber =>
    rw [hnumber] at hnan'
    cases hnan'
  | infinity s =>
    rw [hnumber] at hinf'
    cases hinf'
  | zero s => rfl
  | finite s m e hm => rfl

/-- Only weights that decimals stand for are written as weights. -/
theorem leadsIf_weightText (weight : Float) :
    LeadsIf ('*' :: weightText weight) (IsDecimal weight) := by
  have hmark : outside.step '*' = .marked := rfl
  by_cases hdecimal : IsDecimal weight
  · obtain ⟨hne, hchars⟩ := (printable_of_isFinite hdecimal.1 hdecimal.2).isWeight.chars
    refine .of_outside ?_ hdecimal
    rw [behind_cons, hmark]
    exact behind_weight hne hchars
  · -- What is written else begins with neither a digit nor a point.
    have hother : ∃ c more, weightText weight = c :: more ∧ marked.step c = .astray := by
      unfold weightText
      cases hnan : weight.isNaN with
      | true => exact ⟨'N', ['a', 'N'], rfl, rfl⟩
      | false =>
        cases hsign : Decimal.isNegative weight with
        | true => exact ⟨'-', _, rfl, rfl⟩
        | false =>
          cases hinf : weight.isInf with
          | true => exact ⟨'i', ['n', 'f'], rfl, rfl⟩
          | false => exact (hdecimal ⟨isFinite_of_not hnan hinf, hsign⟩).elim
    obtain ⟨c, more, htext, hc⟩ := hother
    left
    rw [behind_cons, hmark, htext, behind_cons, hc]
    exact behind_astray

end Writing

end Pattern

namespace Expr

open Pattern

/-- Decimals stand for all weights in the expression. -/
def HasDecimalWeights (e : Expr Float) : Prop := ∀ w ∈ e.weights, IsDecimal w

instance (e : Expr Float) : Decidable e.HasDecimalWeights :=
  inferInstanceAs (Decidable (∀ w ∈ e.weights, IsDecimal w))

theorem leadsIf_alternativeText {lone : Bool} {a : Weighted Float (Expr Float)} {good : Prop}
    (hitem : LeadsIf a.item.chars good) :
    LeadsIf (alternativeText lone a) (good ∧ IsDecimal a.weight) := by
  refine (hitem.bracketed _).append ?_
  unfold writtenWeight
  cases hwritten : lone || a.weight != 1 with
  | true => exact leadsIf_weightText a.weight
  | false =>
    have hone : (a.weight == 1) = true := by
      simpa [bne] using (Bool.or_eq_false_iff.mp hwritten).2
    rw [eq_one_of_beq hone]
    exact .of_outside rfl (by decide)

theorem plain_boundsText (least most : Nat) : Place.Plain (boundsText least most) := by
  have hdigits (n : Nat) : Place.Plain (Numeral.digits n) :=
    Place.plain_of ⟨rfl, rfl⟩ fun _ => isDigit_of_mem_digits
  have hopen : Place.Plain ['\x7b'] := Place.plain_singleton (by decide)
  have hcolon : Place.Plain [':'] := Place.plain_singleton (by decide)
  have hclose : Place.Plain ['\x7d'] := Place.plain_singleton (by decide)
  unfold boundsText
  split
  · exact (hopen.append (hdigits least)).append hclose
  · exact (hopen.append ((hdigits least).append (hcolon.append (hdigits most)))).append hclose

/-- The written form leads astray if the expression has other weights. -/
theorem leadsIf_chars (e : Expr Float)
    (hnames : ∀ name, e.Contains (.ref name) → Name.isIdentifier name = true) :
    LeadsIf e.chars e.HasDecimalWeights := by
  induction e with
  | atom text =>
    refine .of_outside ?_ nofun
    exact Place.behind_atom (quoted_flatMap text.toList)
  | ref name =>
    refine .of_outside ?_ nofun
    exact Place.behind_plain (plain_of_isIdentifier (hnames name (.self _)))
  | capture index =>
    refine .of_outside ?_ nofun
    exact Place.behind_plain (plain_capture fun _ => isDigit_of_mem_digits)
  | seq items ih =>
    rw [chars_seq, HasDecimalWeights, forall_weights_seq]
    refine .intercalate (Place.plain_singleton (by decide)) fun item hmem => ?_
    exact (ih item hmem fun name hname => hnames name (.item hmem hname)).bracketed _
  | choice alternatives ih =>
    rw [chars_choice, HasDecimalWeights, forall_weights_choice]
    have hspace : Place.Plain [' '] := Place.plain_singleton (by decide)
    have hslash : Place.Plain ['/'] := Place.plain_singleton (by decide)
    refine .intercalate ((hspace.append hslash).append hspace) fun a hmem => ?_
    refine leadsIf_alternativeText (ih a hmem fun name hname => ?_)
    exact hnames name (.alternative hmem hname)
  | repeated body least most ih =>
    have hbody := ih fun name hname => hnames name (.body hname)
    rw [chars]
    split
    · exact hbody.between (Place.plain_singleton (by decide)) (Place.plain_singleton (by decide))
    · exact (hbody.bracketed _).append_plain (plain_boundsText least most)

/-- An expression that is read back has no other weights. -/
theorem hasDecimalWeights_of_read {kind : Kind} {e e' : Expr Float}
    (hnames : ∀ name, e.Contains (.ref name) → Name.isIdentifier name = true)
    (hread : Pattern.read kind e.text = .ok e') : e.HasDecimalWeights := by
  rcases leadsIf_chars e hnames with hastray | ⟨hdecimal, -⟩
  · rw [behind_of_read hread] at hastray
    cases hastray
  · exact hdecimal

end Expr

end WordGrammar
