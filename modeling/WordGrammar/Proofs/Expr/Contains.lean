import Mathlib.Tactic.Common
import WordGrammar.Expr.Basic

namespace WordGrammar.Expr

variable {W : Type}

/-- Induction over expressions, with the items of a sequence and the alternatives of a choice taken
    all at once. -/
@[elab_as_elim, induction_eliminator]
protected theorem induction {motive : Expr W → Prop}
    (atom : ∀ text, motive (.atom text)) (ref : ∀ rule, motive (.ref rule))
    (capture : ∀ index, motive (.capture index))
    (seq : ∀ items, (∀ item ∈ items, motive item) → motive (.seq items))
    (choice : ∀ alternatives : List (Weighted W (Expr W)),
      (∀ a ∈ alternatives, motive a.item) → motive (.choice alternatives))
    (repeated : ∀ body least most, motive body → motive (.repeated body least most))
    (e : Expr W) : motive e := by
  refine @Expr.rec W motive (fun items => ∀ item ∈ items, motive item)
    (fun alternatives => ∀ a ∈ alternatives, motive a.item) (fun a => motive a.item)
    atom ref capture seq choice (fun body least most => repeated body least most)
    ?_ ?_ ?_ ?_ ?_ e
  · simp
  · intro item items hitem hitems
    simpa using ⟨hitem, hitems⟩
  · simp
  · intro a alternatives hitem halternatives
    simpa using ⟨hitem, halternatives⟩
  · exact fun item weight hitem => hitem

/-- `e.Contains x`: the expression `x` is `e` or one of the expressions that `e` is built of. What
    is said of an expression as a whole is said of those it contains. -/
inductive Contains : Expr W → Expr W → Prop
  | self (e : Expr W) : Contains e e
  | item {items : List (Expr W)} {item x : Expr W} (hmem : item ∈ items)
      (hitem : Contains item x) : Contains (.seq items) x
  | alternative {alternatives : List (Weighted W (Expr W))} {a : Weighted W (Expr W)} {x : Expr W}
      (hmem : a ∈ alternatives) (hitem : Contains a.item x) : Contains (.choice alternatives) x
  | body {body x : Expr W} {least most : Nat} (hbody : Contains body x) :
      Contains (.repeated body least most) x

namespace Contains

/-- What an expression contains, the expressions around it contain. -/
theorem trans {e x y : Expr W} (hx : e.Contains x) (hy : x.Contains y) : e.Contains y := by
  induction hx with
  | self => exact hy
  | item hmem _ ih => exact .item hmem (ih hy)
  | alternative hmem _ ih => exact .alternative hmem (ih hy)
  | body _ ih => exact .body (ih hy)

end Contains

@[simp] theorem contains_atom {text : String} {x : Expr W} :
    (atom text).Contains x ↔ x = .atom text := by
  constructor
  · intro h
    cases h
    rfl
  · intro h
    rw [h]
    exact .self _

@[simp] theorem contains_ref {rule : String} {x : Expr W} :
    (ref rule).Contains x ↔ x = .ref rule := by
  constructor
  · intro h
    cases h
    rfl
  · intro h
    rw [h]
    exact .self _

@[simp] theorem contains_capture {index : Nat} {x : Expr W} :
    (capture index).Contains x ↔ x = .capture index := by
  constructor
  · intro h
    cases h
    rfl
  · intro h
    rw [h]
    exact .self _

@[simp] theorem contains_seq {items : List (Expr W)} {x : Expr W} :
    (seq items).Contains x ↔ x = .seq items ∨ ∃ item ∈ items, item.Contains x := by
  constructor
  · intro h
    cases h with
    | self => exact .inl rfl
    | item hmem hitem => exact .inr ⟨_, hmem, hitem⟩
  · intro h
    rcases h with heq | ⟨item, hmem, hitem⟩
    · rw [heq]
      exact .self _
    · exact .item hmem hitem

@[simp] theorem contains_choice {alternatives : List (Weighted W (Expr W))} {x : Expr W} :
    (choice alternatives).Contains x ↔
      x = .choice alternatives ∨ ∃ a ∈ alternatives, a.item.Contains x := by
  constructor
  · intro h
    cases h with
    | self => exact .inl rfl
    | alternative hmem hitem => exact .inr ⟨_, hmem, hitem⟩
  · intro h
    rcases h with heq | ⟨a, hmem, hitem⟩
    · rw [heq]
      exact .self _
    · exact .alternative hmem hitem

@[simp] theorem contains_repeated {body : Expr W} {least most : Nat} {x : Expr W} :
    (repeated body least most).Contains x ↔
      x = .repeated body least most ∨ body.Contains x := by
  constructor
  · intro h
    cases h with
    | self => exact .inl rfl
    | body hbody => exact .inr hbody
  · intro h
    rcases h with heq | hbody
    · rw [heq]
      exact .self _
    · exact .body hbody

/-- The listed references are the references contained. -/
theorem mem_references_iff {e : Expr W} {name : String} :
    name ∈ e.references ↔ e.Contains (.ref name) := by
  induction e with
  | atom text => simp
  | ref rule => simp
  | capture index => simp
  | seq items ih =>
    simp only [references_seq, List.mem_flatMap, contains_seq, reduceCtorEq, false_or]
    exact exists_congr fun item => and_congr_right fun hmem => ih item hmem
  | choice alternatives ih =>
    simp only [references_choice, List.mem_flatMap, contains_choice, reduceCtorEq, false_or]
    exact exists_congr fun a => and_congr_right fun hmem => ih a hmem
  | repeated body least most ih => simpa using ih

/-- The check for captures finds a capture exactly if one is contained. -/
theorem hasCaptures_iff {e : Expr W} :
    e.hasCaptures = true ↔ ∃ index, e.Contains (.capture index) := by
  induction e with
  | atom text => simp [hasCaptures]
  | ref rule => simp [hasCaptures]
  | capture index => simp [hasCaptures]
  | seq items ih =>
    simp only [hasCaptures_seq, List.any_eq_true, contains_seq, reduceCtorEq, false_or]
    constructor
    · intro h
      obtain ⟨item, hmem, hitem⟩ := h
      obtain ⟨index, hindex⟩ := (ih item hmem).mp hitem
      exact ⟨index, item, hmem, hindex⟩
    · intro h
      obtain ⟨index, item, hmem, hindex⟩ := h
      exact ⟨item, hmem, (ih item hmem).mpr ⟨index, hindex⟩⟩
  | choice alternatives ih =>
    simp only [hasCaptures_choice, List.any_eq_true, contains_choice, reduceCtorEq, false_or]
    constructor
    · intro h
      obtain ⟨a, hmem, hitem⟩ := h
      obtain ⟨index, hindex⟩ := (ih a hmem).mp hitem
      exact ⟨index, a, hmem, hindex⟩
    · intro h
      obtain ⟨index, a, hmem, hindex⟩ := h
      exact ⟨a, hmem, (ih a hmem).mpr ⟨index, hindex⟩⟩
  | repeated body least most ih => simpa [hasCaptures] using ih

/-- Without captures, none is contained. -/
theorem not_contains_capture {e : Expr W} (hnone : e.hasCaptures = false) (index : Nat) :
    ¬ e.Contains (.capture index) := by
  intro hindex
  have hsome := hasCaptures_iff.mpr ⟨index, hindex⟩
  rw [hnone] at hsome
  cases hsome

end WordGrammar.Expr
