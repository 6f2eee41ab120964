import Mathlib.Algebra.BigOperators.Group.List.Basic
import Mathlib.Computability.Language
import WordGrammar.Grammar.Basic
import WordGrammar.Proofs.Expr.Contains

namespace WordGrammar

/-- Where more parts are joined than the result has characters, one of them is empty and can be left
    out. -/
theorem Language.mem_pow_of_length_lt {L : Language Char} {n : Nat} {s : List Char}
    (hs : s ∈ L ^ (n + 1)) (hlength : s.length < n + 1) : s ∈ L ^ n := by
  obtain ⟨parts, rfl, hparts, hL⟩ := Language.mem_pow.mp hs
  have hempty : [] ∈ parts := by
    by_contra hnone
    have hpositive : ∀ part ∈ parts, 1 ≤ part.length := by
      intro part hmem
      rw [Nat.one_le_iff_ne_zero, Ne, List.length_eq_zero_iff]
      rintro rfl
      exact hnone hmem
    have hsum := List.length_le_sum_of_one_le (parts.map List.length) (by simpa using hpositive)
    rw [List.length_map, hparts, ← List.length_flatten] at hsum
    omega
  obtain ⟨before, after, rfl⟩ := List.append_of_mem hempty
  refine Language.mem_pow.mpr ⟨before ++ after, by simp, ?_, fun part hmem => hL part ?_⟩
  · simp only [List.length_append, List.length_cons] at hparts ⊢
    omega
  · rcases List.mem_append.mp hmem with hbefore | hafter
    · exact List.mem_append_left _ hbefore
    · exact List.mem_append_right _ (List.mem_cons_of_mem _ hafter)

/-- However many parts are joined, as few suffice as the least number or the length of the result
    asks for. -/
theorem Language.mem_pow_of_le {L : Language Char} {least n : Nat} {s : List Char}
    (hs : s ∈ L ^ n) (hleast : least ≤ n) :
    ∃ m, least ≤ m ∧ m ≤ n ∧ m ≤ max least s.length ∧ s ∈ L ^ m := by
  induction n with
  | zero => exact ⟨0, hleast, Nat.le_refl 0, Nat.zero_le _, hs⟩
  | succ n ih =>
    by_cases hfew : n + 1 ≤ max least s.length
    · exact ⟨n + 1, hleast, Nat.le_refl _, hfew, hs⟩
    · obtain ⟨m, hlo, hhi, hmost, hm⟩ := ih (mem_pow_of_length_lt hs (by omega)) (by omega)
      exact ⟨m, hlo, by omega, hmost, hm⟩

namespace Grammar

variable {W : Type}

/-- `g.Derives e pieces`: reading the atoms that a derivation from `e` ends in, from left to right,
    gives these pieces of text. -/
inductive Derives (g : Grammar W) : Expr W → List (List Char) → Prop
  | atom (text : String) : Derives g (.atom text) [text.toList]
  | ref {name : String} {r : Rule W} {pieces : List (List Char)} (hrule : g.rule? name = some r)
      (hbody : Derives g r.body pieces) : Derives g (.ref name) pieces
  | nil : Derives g (.seq []) []
  | cons {item : Expr W} {items : List (Expr W)} {front back : List (List Char)}
      (hitem : Derives g item front) (hitems : Derives g (.seq items) back) :
      Derives g (.seq (item :: items)) (front ++ back)
  | choice {alternatives : List (Weighted W (Expr W))} {a : Weighted W (Expr W)}
      {pieces : List (List Char)} (hmem : a ∈ alternatives) (hitem : Derives g a.item pieces) :
      Derives g (.choice alternatives) pieces
  | repeated {body : Expr W} {least most n : Nat} {pieces : List (List Char)} (hleast : least ≤ n)
      (hmost : n ≤ most) (hcopies : Derives g (.seq (List.replicate n body)) pieces) :
      Derives g (.repeated body least most) pieces

/-- The texts that can be derived from an expression. References are followed in circles, too, so
    these are defined for every grammar; captures stand for no text. -/
def language (g : Grammar W) (e : Expr W) : Language Char :=
  {text | ∃ pieces, g.Derives e pieces ∧ pieces.flatten = text}

variable {g : Grammar W}

theorem derives_atom {text : String} {pieces : List (List Char)} :
    g.Derives (.atom text) pieces ↔ pieces = [text.toList] := by
  constructor
  · intro h
    cases h
    rfl
  · intro h
    rw [h]
    exact .atom text

theorem derives_ref {name : String} {r : Rule W} (hrule : g.rule? name = some r)
    {pieces : List (List Char)} : g.Derives (.ref name) pieces ↔ g.Derives r.body pieces := by
  constructor
  · intro h
    cases h with
    | ref hfound hbody =>
      rw [hrule] at hfound
      cases hfound
      exact hbody
  · exact .ref hrule

theorem derives_nil {pieces : List (List Char)} : g.Derives (.seq []) pieces ↔ pieces = [] := by
  constructor
  · intro h
    cases h
    rfl
  · intro h
    rw [h]
    exact .nil

theorem derives_cons {item : Expr W} {items : List (Expr W)} {pieces : List (List Char)} :
    g.Derives (.seq (item :: items)) pieces ↔
      ∃ front back, g.Derives item front ∧ g.Derives (.seq items) back ∧
        front ++ back = pieces := by
  constructor
  · intro h
    cases h with
    | cons hitem hitems => exact ⟨_, _, hitem, hitems, rfl⟩
  · intro h
    obtain ⟨front, back, hitem, hitems, hpieces⟩ := h
    rw [← hpieces]
    exact .cons hitem hitems

theorem derives_choice {alternatives : List (Weighted W (Expr W))} {pieces : List (List Char)} :
    g.Derives (.choice alternatives) pieces ↔ ∃ a ∈ alternatives, g.Derives a.item pieces := by
  constructor
  · intro h
    cases h with
    | choice hmem hitem => exact ⟨_, hmem, hitem⟩
  · intro h
    obtain ⟨a, hmem, hitem⟩ := h
    exact .choice hmem hitem

theorem mem_language {e : Expr W} {text : List Char} :
    text ∈ g.language e ↔ ∃ pieces, g.Derives e pieces ∧ pieces.flatten = text :=
  Iff.rfl

theorem language_atom (text : String) : g.language (.atom text) = {text.toList} := by
  ext s
  have hsingleton : s ∈ ({text.toList} : Language Char) ↔ s = text.toList := Iff.rfl
  simp [mem_language, derives_atom, hsingleton, eq_comm]

/-- A reference stands for what the body of its rule stands for. -/
theorem language_ref {name : String} {r : Rule W} (hrule : g.rule? name = some r) :
    g.language (.ref name) = g.language r.body := by
  ext s
  simp only [mem_language, derives_ref hrule]

theorem language_seq_cons (item : Expr W) (items : List (Expr W)) :
    g.language (.seq (item :: items)) = g.language item * g.language (.seq items) := by
  ext s
  rw [Language.mem_mul]
  constructor
  · intro h
    obtain ⟨pieces, hderives, hflatten⟩ := h
    obtain ⟨front, back, hitem, hitems, hpieces⟩ := derives_cons.mp hderives
    refine ⟨front.flatten, ⟨front, hitem, rfl⟩, back.flatten, ⟨back, hitems, rfl⟩, ?_⟩
    rw [← List.flatten_append, hpieces, hflatten]
  · intro h
    obtain ⟨_, ⟨front, hitem, hfront⟩, _, ⟨back, hitems, hback⟩, hs⟩ := h
    refine ⟨front ++ back, .cons hitem hitems, ?_⟩
    rw [List.flatten_append, hfront, hback, hs]

/-- A sequence stands for what its items stand for, joined in order. -/
theorem language_seq (items : List (Expr W)) :
    g.language (.seq items) = (items.map g.language).prod := by
  induction items with
  | nil =>
    ext s
    rw [List.map_nil, List.prod_nil, Language.mem_one]
    simp [mem_language, derives_nil, eq_comm]
  | cons item items ih => rw [language_seq_cons, ih, List.map_cons, List.prod_cons]

/-- A choice stands for whatever one of its alternatives stands for. -/
theorem mem_language_choice {alternatives : List (Weighted W (Expr W))} {text : List Char} :
    text ∈ g.language (.choice alternatives) ↔ ∃ a ∈ alternatives, text ∈ g.language a.item := by
  constructor
  · intro h
    obtain ⟨pieces, hderives, hflatten⟩ := h
    obtain ⟨a, hmem, hitem⟩ := derives_choice.mp hderives
    exact ⟨a, hmem, pieces, hitem, hflatten⟩
  · intro h
    obtain ⟨a, hmem, pieces, hitem, hflatten⟩ := h
    exact ⟨pieces, .choice hmem hitem, hflatten⟩

/-- A repetition stands for what its body stands for, so many times as its bounds allow. -/
theorem mem_language_repeated {body : Expr W} {least most : Nat} {text : List Char} :
    text ∈ g.language (.repeated body least most) ↔
      ∃ n, least ≤ n ∧ n ≤ most ∧ text ∈ g.language body ^ n := by
  have hcopies (n : Nat) : g.language (.seq (List.replicate n body)) = g.language body ^ n := by
    rw [language_seq, List.map_replicate, List.prod_replicate]
  constructor
  · intro h
    obtain ⟨pieces, hderives, hflatten⟩ := h
    cases hderives with
    | repeated hleast hmost hpieces =>
      exact ⟨_, hleast, hmost, hcopies _ ▸ ⟨pieces, hpieces, hflatten⟩⟩
  · intro h
    obtain ⟨n, hleast, hmost, htext⟩ := h
    rw [← hcopies] at htext
    obtain ⟨pieces, hpieces, hflatten⟩ := htext
    exact ⟨pieces, .repeated hleast hmost hpieces, hflatten⟩

end Grammar

end WordGrammar
