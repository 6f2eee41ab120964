import Mathlib.Data.List.Perm.Basic
import Mathlib.Tactic.Common

namespace WordGrammar.Outcome

variable {ε α β : Type}

theorem bind_eq_ok_iff {x : Except ε α} {f : α → Except ε β} {b : β} :
    (x >>= f) = .ok b ↔ ∃ a, x = .ok a ∧ f a = .ok b := by
  cases x with
  | error why =>
    constructor
    · intro h
      cases h
    · intro h
      obtain ⟨a, h, _⟩ := h
      cases h
  | ok a =>
    constructor
    · intro h
      exact ⟨a, rfl, h⟩
    · intro h
      obtain ⟨a', ha, h⟩ := h
      cases ha
      exact h

theorem bind_eq_error_iff {x : Except ε α} {f : α → Except ε β} {why : ε} :
    (x >>= f) = .error why ↔ x = .error why ∨ ∃ a, x = .ok a ∧ f a = .error why := by
  cases x with
  | error why' =>
    constructor
    · intro h
      cases h
      exact .inl rfl
    · intro h
      rcases h with h | ⟨a, h, -⟩
      · cases h
        rfl
      · cases h
  | ok a =>
    constructor
    · intro h
      exact .inr ⟨a, rfl, h⟩
    · intro h
      rcases h with h | ⟨a', ha, h⟩
      · cases h
      · cases ha
        exact h

/-- Where nothing can go wrong behind the first step, it is at fault. -/
theorem error_of_bind_ok {x : Except ε α} {f : α → β} {why : ε}
    (h : (x >>= fun a => .ok (f a)) = .error why) : x = .error why := by
  cases x with
  | error why' =>
    cases h
    rfl
  | ok a => cases h

/-- Steps do alike that begin alike and go on alike with every result. -/
theorem bind_congr {x x' : Except ε α} {f f' : α → Except ε β} (hx : x = x')
    (hf : ∀ a, x = .ok a → f a = f' a) : (x >>= f) = (x' >>= f') := by
  cases hx
  cases x with
  | error why => rfl
  | ok a => exact hf a rfl

/-- Two steps that do not end in a fault do as those that agree with them but for that fault. -/
theorem bind_eq_bind {x x' : Except ε α} {f f' : α → Except ε β} {why : ε}
    (hx : x ≠ .error why → x' = x) (hf : ∀ a, x = .ok a → f a ≠ .error why → f' a = f a)
    (hne : (x >>= f) ≠ .error why) : (x' >>= f') = (x >>= f) := by
  cases x with
  | error other =>
    have hother : (Except.error other : Except ε α) ≠ .error why := by
      intro heq
      cases heq
      exact hne rfl
    rw [hx hother]
    rfl
  | ok a =>
    rw [hx nofun]
    exact hf a rfl hne

/-- What comes of an answer changes nothing about whether there is one. -/
theorem map_eq_none_iff {x : Except ε (Option α)} {f : α → β} :
    (x >>= fun found => pure (found.map f)) = .ok none ↔ x = .ok none := by
  rw [bind_eq_ok_iff]
  constructor
  · intro h
    obtain ⟨found, hx, hnone⟩ := h
    cases found with
    | none => exact hx
    | some a => cases hnone
  · exact fun hx => ⟨none, hx, rfl⟩

theorem isSome_map_eq {x : Except ε (Option α)} {f : α → β} :
    Option.isSome <$> (x >>= fun found => pure (found.map f)) = Option.isSome <$> x := by
  cases x with
  | error why => rfl
  | ok found =>
    cases found with
    | none => rfl
    | some a => rfl

/-- A step for each of the members gives what the steps give, in their order. -/
theorem mapM_eq_ok_iff {f : α → Except ε β} {as : List α} {bs : List β} :
    as.mapM f = .ok bs ↔ List.Forall₂ (fun a b => f a = .ok b) as bs := by
  induction as generalizing bs with
  | nil =>
    rw [List.mapM_nil, List.forall₂_nil_left_iff]
    constructor
    · intro h
      cases h
      rfl
    · intro h
      rw [h]
      rfl
  | cons a as ih =>
    rw [List.mapM_cons, bind_eq_ok_iff, List.forall₂_cons_left_iff]
    constructor
    · intro h
      obtain ⟨b, hb, hrest⟩ := h
      obtain ⟨bs', hbs, hok⟩ := bind_eq_ok_iff.mp hrest
      cases hok
      exact ⟨b, bs', hb, ih.mp hbs, rfl⟩
    · intro h
      obtain ⟨b, bs', hb, hbs, rfl⟩ := h
      exact ⟨b, hb, bind_eq_ok_iff.mpr ⟨bs', ih.mpr hbs, rfl⟩⟩

/-- What a step for each of the members gives is what one of them gives. -/
theorem exists_of_mapM {f : α → Except ε β} {as : List α} {bs : List β}
    (hmap : as.mapM f = .ok bs) : ∀ b ∈ bs, ∃ a ∈ as, f a = .ok b := by
  intro b hmem
  induction mapM_eq_ok_iff.mp hmap with
  | nil => cases hmem
  | cons hb hrest ih =>
    cases hmem with
    | head => exact ⟨_, List.mem_cons_self .., hb⟩
    | tail _ hmem =>
      obtain ⟨a, ha, hfa⟩ := ih (mapM_eq_ok_iff.mpr hrest) hmem
      exact ⟨a, List.mem_cons_of_mem _ ha, hfa⟩

/-- What the members give agrees with them in whatever each of them agrees with what it gives. -/
theorem map_eq_of_mapM {γ : Type} {f : α → Except ε β} {p : β → γ} {q : α → γ}
    (hsame : ∀ a b, f a = .ok b → p b = q a) {as : List α} {bs : List β}
    (hmap : as.mapM f = .ok bs) : bs.map p = as.map q := by
  induction mapM_eq_ok_iff.mp hmap with
  | nil => rfl
  | cons hb hrest ih =>
    rw [List.map_cons, List.map_cons, hsame _ _ hb, ih (mapM_eq_ok_iff.mpr hrest)]

/-- Members in another order, with others besides, give the same besides what the others give. -/
theorem exists_perm_of_mapM {f : α → Except ε β} {as as' added : List α} {bs bs' : List β}
    (hmap : as.mapM f = .ok bs) (hmap' : as'.mapM f = .ok bs') (hperm : as'.Perm (added ++ as)) :
    ∃ others, added.mapM f = .ok others ∧ bs'.Perm (others ++ bs) := by
  obtain ⟨all, hall, hbs'⟩ := List.perm_comp_forall₂ hperm.symm (mapM_eq_ok_iff.mp hmap')
  have happend := mapM_eq_ok_iff.mpr hall
  rw [List.mapM_append] at happend
  obtain ⟨others, hothers, hrest⟩ := bind_eq_ok_iff.mp happend
  obtain ⟨bs'', hbs, hok⟩ := bind_eq_ok_iff.mp hrest
  rw [hmap] at hbs
  cases hbs
  cases hok
  exact ⟨others, hothers, hbs'.symm⟩

/-- What a computation stops at, if it does. -/
def error? : Except ε α → Option ε
  | .ok _ => none
  | .error why => some why

theorem error?_eq_some_iff {x : Except ε α} {why : ε} :
    error? x = some why ↔ x = .error why := by
  cases x with
  | error other => rw [error?, Option.some.injEq, Except.error.injEq]
  | ok a => exact ⟨nofun, nofun⟩

theorem error?_eq_none_iff {x : Except ε α} : error? x = none ↔ ∃ a, x = .ok a := by
  cases x with
  | error why => exact ⟨nofun, nofun⟩
  | ok a => exact ⟨fun _ => ⟨a, rfl⟩, fun _ => rfl⟩

/-- If each of two steps stops at the first of its problems, both stop at the first of all. -/
theorem error?_bind {x : Except ε α} {f : α → Except ε β} {first second : List ε}
    (hx : error? x = first.head?) (hf : ∀ a, x = .ok a → error? (f a) = second.head?) :
    error? (x >>= f) = (first ++ second).head? := by
  cases x with
  | error why =>
    obtain ⟨others, rfl⟩ := List.head?_eq_some_iff.mp hx.symm
    rfl
  | ok a =>
    obtain rfl := List.head?_eq_none_iff.mp hx.symm
    exact hf a rfl

/-- A last step that cannot fail stops at nothing. -/
theorem error?_bind_ok {x : Except ε α} {f : α → β} :
    error? (x >>= fun a => .ok (f a)) = error? x := by
  cases x with
  | error why => rfl
  | ok a => rfl

/-- Steps for the members stop at the first of all problems. -/
theorem error?_mapM {f : α → Except ε β} {problems : α → List ε}
    (hf : ∀ a, error? (f a) = (problems a).head?) (as : List α) :
    error? (as.mapM f) = (as.flatMap problems).head? := by
  induction as with
  | nil => rfl
  | cons a as ih =>
    rw [List.mapM_cons, List.flatMap_cons]
    refine error?_bind (hf a) fun b _ => ?_
    exact error?_bind_ok.trans ih

end WordGrammar.Outcome
