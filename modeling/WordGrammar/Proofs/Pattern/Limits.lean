import WordGrammar.Proofs.Pattern.Nearsighted

namespace WordGrammar.Pattern

variable {α β : Type} {kind : Kind} {inner inner' : Reader (Expr Float)} {n : Nat}

/-- A reader whose limit makes no difference from the length of the source on, and that keeps to it
    by the length of the source. -/
theorem Nearsighted.of_limited {r : Nat → Reader α} (hr : ∀ limit, Nearsighted (r limit))
    (hlimit : ∀ limit source, source.length ≤ limit → r limit source = r source.length source) :
    Nearsighted fun source => r source.length source where
  ok {source a rest} hread := by
    obtain ⟨before, rfl, -⟩ := (hr _).ok hread
    refine ⟨before, rfl, fun rest' hresumes => ?_⟩
    -- Both sources are within the same limit, which is that of the longer one.
    have hle := Nat.le_max_left (before ++ rest).length (before ++ rest').length
    have hle' := Nat.le_max_right (before ++ rest).length (before ++ rest').length
    obtain ⟨before', heq, hbefore⟩ := (hr _).ok ((hlimit _ _ hle).trans hread)
    obtain rfl := List.append_cancel_right heq
    exact (hlimit _ _ hle').symm.trans (hbefore rest' hresumes)
  unexpected {source c rest} hread := by
    obtain ⟨before, more, rfl, rfl, -⟩ := (hr _).unexpected hread
    refine ⟨before, more, rfl, rfl, fun more' => ?_⟩
    have hle := Nat.le_max_left (before ++ c :: more).length (before ++ c :: more').length
    have hle' := Nat.le_max_right (before ++ c :: more).length (before ++ c :: more').length
    obtain ⟨before', later, hrest, heq, hbefore⟩ := (hr _).unexpected ((hlimit _ _ hle).trans hread)
    cases hrest
    obtain rfl := List.append_cancel_right heq
    exact (hlimit _ _ hle').symm.trans (hbefore more')

section Budgets

variable {separator : Char} {item : Reader α}

theorem length_lt_of_symbol? {symbol : Char} {source rest : List Char}
    (hsymbol : symbol? symbol source = some rest) : rest.length < source.length := by
  have hle : 1 + rest.length ≤ source.length := (word_of_symbol? hsymbol).length_le
  omega

/-- A budget that is not less than the length of the source does not fall short, because each item
    takes up its separator. -/
theorem following_eq (hitem : Nearsighted item) {budget : Nat} {source : List Char}
    (hbudget : source.length ≤ budget) :
    following separator item budget source = following separator item source.length source := by
  -- Any two budgets will do, since what is left of them differs again behind each item.
  suffices hsame : ∀ budget' budget source, source.length ≤ budget → source.length ≤ budget' →
      following separator item budget source = following separator item budget' source from
    hsame _ _ _ hbudget le_rfl
  clear hbudget budget source
  intro budget'
  induction budget' with
  | zero =>
    intro budget source _ hsource
    obtain rfl := List.length_eq_zero_iff.mp (Nat.le_zero.mp hsource)
    cases budget with
    | zero => rfl
    | succ budget => rfl
  | succ budget' ih =>
    intro budget source hbudget hbudget'
    cases budget with
    | zero =>
      obtain rfl := List.length_eq_zero_iff.mp (Nat.le_zero.mp hbudget)
      rfl
    | succ budget =>
      rw [following, following]
      cases hsymbol : symbol? separator source with
      | none => rfl
      | some next =>
        have hshorter := length_lt_of_symbol? hsymbol
        refine Outcome.bind_congr rfl fun read hread => ?_
        have hle := hitem.length_le hread
        exact Outcome.bind_congr (ih _ _ (by omega) (by omega)) fun _ _ => rfl

theorem nearsighted_followers (hitem : Nearsighted item) :
    Nearsighted fun source => following separator item source.length source :=
  .of_limited (nearsighted_following hitem) fun _ _ => following_eq hitem

end Budgets

section Levels

theorem nearsighted_sequence (hinner : Nearsighted inner) : Nearsighted (sequence kind inner) :=
  have hitem := nearsighted_quantified hinner
  hitem.bind fun _ => (nearsighted_followers hitem).bind fun _ => .pure _

theorem nearsighted_alternative (hinner : Nearsighted inner) :
    Nearsighted (alternative kind inner) :=
  (nearsighted_sequence hinner).bind fun _ => nearsighted_readOptionalWeight.bind fun _ => .pure _

theorem nearsighted_choice (hinner : Nearsighted inner) : Nearsighted (choice kind inner) :=
  have hitem := nearsighted_alternative hinner
  hitem.bind fun _ => (nearsighted_followers hitem).bind fun _ => .pure _

theorem nearsighted_expression (depth : Nat) : Nearsighted (expression kind depth) := by
  induction depth with
  | zero => exact .pure (Expr.atom "")
  | succ depth ih => exact nearsighted_choice ih

end Levels

/-- The readers make the same of sources of no more than `n` characters. -/
def AgreeUpTo (n : Nat) (r r' : Reader α) : Prop :=
  ∀ source, source.length ≤ n → r source = r' source

namespace AgreeUpTo

/-- A bracket leaves one character less to what stands behind it. -/
theorem term (hagree : AgreeUpTo n inner inner') :
    AgreeUpTo (n + 1) (term kind inner) (term kind inner') := by
  have hbehind {bracket : Char} {source : List Char}
      (hlength : (bracket :: source).length ≤ n + 1) :
      inner (skipBlanks source) = inner' (skipBlanks source) :=
    hagree _ ((length_skipBlanks_le source).trans (Nat.le_of_succ_le_succ hlength))
  intro source hlength
  unfold Pattern.term
  split
  · rfl
  · rfl
  · rw [hbehind hlength]
  · rw [hbehind hlength]
  · rfl

theorem quantified (hagree : AgreeUpTo n inner inner') :
    AgreeUpTo (n + 1) (quantified kind inner) (quantified kind inner') :=
  fun source hlength => Outcome.bind_congr (hagree.term source hlength) fun _ _ => rfl

theorem following {separator : Char} {item item' : Reader α} (hagree : AgreeUpTo n item item')
    (hitem : Nearsighted item) (budget : Nat) :
    AgreeUpTo n (following separator item budget) (following separator item' budget) := by
  induction budget with
  | zero => exact fun _ _ => rfl
  | succ budget ih =>
    intro source hlength
    rw [Pattern.following, Pattern.following]
    cases hsymbol : symbol? separator source with
    | none => rfl
    | some next =>
      have hshorter := length_lt_of_symbol? hsymbol
      refine Outcome.bind_congr (hagree next (by omega)) fun read hread => ?_
      have hle := hitem.length_le hread
      exact Outcome.bind_congr (ih _ (by omega)) fun _ _ => rfl

theorem sequence (hagree : AgreeUpTo n inner inner') (hinner : Nearsighted inner) :
    AgreeUpTo (n + 1) (sequence kind inner) (sequence kind inner') := by
  have hitem : Nearsighted (Pattern.quantified kind inner) := nearsighted_quantified hinner
  intro source hlength
  refine Outcome.bind_congr (hagree.quantified source hlength) fun read hread => ?_
  have hle := hitem.length_le hread
  exact Outcome.bind_congr (hagree.quantified.following hitem _ _ (by omega)) fun _ _ => rfl

theorem alternative (hagree : AgreeUpTo n inner inner') (hinner : Nearsighted inner) :
    AgreeUpTo (n + 1) (alternative kind inner) (alternative kind inner') :=
  fun source hlength => Outcome.bind_congr (hagree.sequence hinner source hlength) fun _ _ => rfl

theorem choice (hagree : AgreeUpTo n inner inner') (hinner : Nearsighted inner) :
    AgreeUpTo (n + 1) (choice kind inner) (choice kind inner') := by
  have hitem : Nearsighted (Pattern.alternative kind inner) := nearsighted_alternative hinner
  have hagree : AgreeUpTo (n + 1) (Pattern.alternative kind inner)
      (Pattern.alternative kind inner') := hagree.alternative hinner
  intro source hlength
  refine Outcome.bind_congr (hagree source hlength) fun read hread => ?_
  have hle := hitem.length_le hread
  exact Outcome.bind_congr (hagree.following hitem _ _ (by omega)) fun _ _ => rfl

/-- As deep as a source is long, brackets may as well nest deeper. -/
theorem expression {depth depth' : Nat} (hle : depth ≤ depth') :
    AgreeUpTo depth (expression kind depth) (expression kind depth') := by
  induction depth generalizing depth' with
  | zero =>
    intro source hlength
    obtain rfl := List.length_eq_zero_iff.mp (Nat.le_zero.mp hlength)
    cases depth' with
    | zero => rfl
    | succ depth' => rfl
  | succ depth ih =>
    obtain ⟨depth', rfl⟩ := Nat.exists_eq_add_one_of_ne_zero (Nat.ne_zero_of_lt hle)
    exact (ih (Nat.le_of_succ_le_succ hle)).choice (nearsighted_expression depth)

end AgreeUpTo

/-- Reads an expression in which brackets nest as deep as they do. -/
def unlimited (kind : Kind) : Reader (Expr Float) := fun source =>
  expression kind source.length source

theorem expression_eq_unlimited {depth : Nat} {source : List Char} (hle : source.length ≤ depth) :
    expression kind depth source = unlimited kind source :=
  (AgreeUpTo.expression hle source le_rfl).symm

theorem nearsighted_unlimited : Nearsighted (unlimited kind) :=
  .of_limited nearsighted_expression fun _ _ => expression_eq_unlimited

/-- It reads a choice that has itself between brackets. -/
theorem choice_unlimited : choice kind (unlimited kind) = unlimited kind := by
  funext source
  have hagree : AgreeUpTo source.length (unlimited kind) (expression kind source.length) :=
    fun _ hlength => (expression_eq_unlimited hlength).symm
  rw [← expression_eq_unlimited (Nat.le_succ source.length)]
  exact hagree.choice nearsighted_unlimited source (Nat.le_succ _)

theorem unlimited_sound (n : Nat) : Sound kind (unlimited kind) .expression n :=
  fun source _ _ _ hread => expression_sound source.length source _ _ le_rfl hread

/-- Reads a source as a whole, and objects to what is left of it. -/
def whole (kind : Kind) : Reader (Expr Float) := fun source => do
  let (e, rest) ← unlimited kind (skipBlanks source)
  match rest with
  | [] => .ok (e, [])
  | c :: more => .error ⟨.unexpected c, c :: more⟩

theorem nearsighted_whole : Nearsighted (whole kind) := by
  refine (nearsighted_unlimited.bind fun e => ?_).behindBlanks
  exact .of_cons e rfl fun c => .inr (.inr fun more => rfl)

theorem read_eq_error_iff {source : String} {malformed : Malformed} :
    read kind source = .error malformed ↔ ∃ refusal, whole kind source.toList = .error refusal ∧
      malformed = ⟨refusal.objection, source.toList.length - refusal.rest.length⟩ := by
  have hlimit : expression kind source.toList.length (skipBlanks source.toList) =
      unlimited kind (skipBlanks source.toList) :=
    expression_eq_unlimited (length_skipBlanks_le _)
  rw [read, hlimit, whole]
  cases unlimited kind (skipBlanks source.toList) with
  | error refusal => simp [bind, Except.bind, eq_comm]
  | ok read =>
    obtain ⟨e, rest⟩ := read
    cases rest with
    | nil => simp [bind, Except.bind]
    | cons c more => simp [bind, Except.bind, eq_comm]

end WordGrammar.Pattern
