import WordGrammar.Matcher.Occurrence
import WordGrammar.Proofs.Outcome

namespace WordGrammar

namespace Search

open Outcome

variable {α β : Type} {f : α → Except Fault (Option β)} {a : α} {as : List α}

private theorem cons_eq : (a :: as).findSomeM? f = (f a >>= fun answer =>
    match answer with
    | some b => .ok (some b)
    | none => as.findSomeM? f) := rfl

theorem map_eq {γ : Type} (h : γ → α) (cs : List γ) :
    (cs.map h).findSomeM? f = cs.findSomeM? fun c => f (h c) := by
  induction cs with
  | nil => rfl
  | cons c cs ih => rw [List.map_cons, cons_eq, cons_eq, ih]

/-- A search answers what the first of its trials does that says anything. -/
theorem exists_first {answer : Except Fault (Option β)} (hanswer : as.findSomeM? f = answer)
    (hspeaks : answer ≠ .ok none) :
    ∃ before a after, as = before ++ a :: after ∧ (∀ x ∈ before, f x = .ok none) ∧
      f a = answer := by
  induction as with
  | nil => exact (hspeaks hanswer.symm).elim
  | cons a as ih =>
    rw [List.findSomeM?] at hanswer
    cases ha : f a with
    | error fault =>
      rw [ha] at hanswer
      exact ⟨[], a, as, rfl, nofun, ha.trans hanswer⟩
    | ok found =>
      rw [ha] at hanswer
      cases found with
      | some b => exact ⟨[], a, as, rfl, nofun, ha.trans hanswer⟩
      | none =>
        obtain ⟨before, a', after, rfl, hbefore, ha'⟩ := ih hanswer
        exact ⟨a :: before, a', after, rfl, List.forall_mem_cons.mpr ⟨ha, hbefore⟩, ha'⟩

theorem eq_of_first {before after : List α} {a : α} (hbefore : ∀ x ∈ before, f x = .ok none)
    (hspeaks : f a ≠ .ok none) : (before ++ a :: after).findSomeM? f = f a := by
  induction before with
  | nil =>
    rw [List.nil_append, List.findSomeM?]
    cases ha : f a with
    | error fault => rfl
    | ok found =>
      cases found with
      | some b => rfl
      | none => exact (hspeaks ha).elim
  | cons x before ih =>
    obtain ⟨hx, hrest⟩ := List.forall_mem_cons.mp hbefore
    rw [List.cons_append, List.findSomeM?, hx]
    exact ih hrest

/-- A search goes on with further candidates where those before have no answer. -/
theorem append_eq (as bs : List α) : (as ++ bs).findSomeM? f = (as.findSomeM? f >>= fun answer =>
    match answer with
    | some b => .ok (some b)
    | none => bs.findSomeM? f) := by
  induction as with
  | nil => rfl
  | cons a as ih =>
    rw [List.cons_append, cons_eq, cons_eq, ih]
    cases f a with
    | error fault => rfl
    | ok answer =>
      cases answer with
      | some b => rfl
      | none => rfl

/-- Whether a search finds anything is whether one of its trials does. -/
theorem isSome_eq_anyM (f : α → Except Fault (Option β)) (as : List α) :
    Option.isSome <$> as.findSomeM? f = as.anyM fun a => Option.isSome <$> f a := by
  induction as with
  | nil => rfl
  | cons a as ih =>
    rw [cons_eq, List.anyM, ← ih]
    cases f a with
    | error fault => rfl
    | ok answer =>
      cases answer with
      | some b => rfl
      | none => rfl

/-- A search comes to the first of all that can be found if every trial comes to the first of what
    can be found there. -/
theorem eq_head?_of_ok {found : α → List β} {answer : Option β}
    (hf : ∀ a ∈ as, ∀ answer, f a = .ok answer → answer = (found a).head?)
    (hanswer : as.findSomeM? f = .ok answer) : answer = (as.flatMap found).head? := by
  induction as with
  | nil =>
    cases hanswer
    rfl
  | cons a as ih =>
    obtain ⟨ha, hrest⟩ := List.forall_mem_cons.mp hf
    obtain ⟨first, hfirst, hlater⟩ := bind_eq_ok_iff.mp hanswer
    rw [List.flatMap_cons, List.head?_append, ← ha first hfirst]
    cases first with
    | some b =>
      cases hlater
      rfl
    | none => exact ih hrest hlater

/-- What is found is the answer of one of the trials. -/
theorem exists_of_found {b : β} (hfound : as.findSomeM? f = .ok (some b)) :
    ∃ a ∈ as, f a = .ok (some b) := by
  obtain ⟨before, a, after, rfl, -, ha⟩ := exists_first hfound nofun
  exact ⟨a, List.mem_append_right _ (List.mem_cons_self ..), ha⟩

/-- Nothing is found exactly if every trial ends without an answer. -/
theorem none_iff : as.findSomeM? f = .ok none ↔ ∀ a ∈ as, f a = .ok none := by
  induction as with
  | nil => simp [pure, Except.pure]
  | cons a as ih =>
    rw [cons_eq, bind_eq_ok_iff, List.forall_mem_cons, ← ih]
    constructor
    · rintro ⟨answer, ha, hrest⟩
      cases answer with
      | some c => cases hrest
      | none => exact ⟨ha, hrest⟩
    · rintro ⟨ha, hrest⟩
      exact ⟨none, ha, hrest⟩

/-- A fault of a search is the fault of one of its trials. -/
theorem exists_of_error {fault : Fault} (herror : as.findSomeM? f = .error fault) :
    ∃ a ∈ as, f a = .error fault := by
  obtain ⟨before, a, after, rfl, -, ha⟩ := exists_first herror nofun
  exact ⟨a, List.mem_append_right _ (List.mem_cons_self ..), ha⟩

/-- A search that does not end in a fault ends the same with trials that agree but for that
    fault. -/
theorem findSomeM?_eq {f' : α → Except Fault (Option β)} {fault : Fault}
    (hf : ∀ a ∈ as, f a ≠ .error fault → f' a = f a) (hne : as.findSomeM? f ≠ .error fault) :
    as.findSomeM? f' = as.findSomeM? f := by
  induction as with
  | nil => rfl
  | cons a as ih =>
    obtain ⟨ha, hrest⟩ := List.forall_mem_cons.mp hf
    rw [cons_eq] at hne ⊢
    rw [cons_eq]
    refine bind_eq_bind ha (fun answer _ hlater => ?_) hne
    cases answer with
    | some b => rfl
    | none => exact ih hrest hlater

section Ranges

variable {f : Nat → Except Fault (Option β)} {n : Nat}

theorem exists_first_of_range {answer : Except Fault (Option β)}
    (hanswer : (List.range n).findSomeM? f = answer) (hspeaks : answer ≠ .ok none) :
    ∃ k < n, (∀ j < k, f j = .ok none) ∧ f k = answer := by
  obtain ⟨before, k, after, hrange, hbefore, hk⟩ := exists_first hanswer hspeaks
  rw [List.range_eq_range', List.range'_eq_append_iff] at hrange
  obtain ⟨length, hlength, rfl, hrest⟩ := hrange
  obtain ⟨hat, hpositive, -⟩ := List.range'_eq_cons_iff.mp hrest.symm
  refine ⟨k, by omega, fun j hj => hbefore j ?_, hk⟩
  simp only [List.mem_range'_1]
  omega

theorem range_eq_of_first {k : Nat} (hk : k < n) (hbefore : ∀ j < k, f j = .ok none)
    (hspeaks : f k ≠ .ok none) : (List.range n).findSomeM? f = f k := by
  obtain ⟨more, rfl⟩ := Nat.exists_eq_add_of_lt hk
  rw [Nat.add_assoc, List.range_add, List.range_succ_eq_map]
  exact eq_of_first (fun j hj => hbefore j (List.mem_range.mp hj)) hspeaks

end Ranges

end Search

namespace Matcher

open Outcome

variable {p q : Matcher} {s : List Char} {k : Nat}

/-- One trial of a matcher in two parts: the first part has `k` characters. -/
def trial (p q : Matcher) (s : List Char) (k : Nat) : Except Fault (Option (List Nat)) :=
  p (s.take k) >>= fun
    | none => .ok none
    | some front => q (s.drop k) >>= fun back => .ok (back.map (front ++ ·))

theorem andThen_eq (p q : Matcher) (s : List Char) :
    andThen p q s = (List.range (s.length + 1)).findSomeM? (trial p q s) := rfl

/-- A trial succeeds where both parts match. -/
theorem trial_eq_some {lengths : List Nat} (hsome : trial p q s k = .ok (some lengths)) :
    ∃ front back, p (s.take k) = .ok (some front) ∧ q (s.drop k) = .ok (some back) ∧
      front ++ back = lengths := by
  rw [trial, bind_eq_ok_iff] at hsome
  obtain ⟨first, hp, hrest⟩ := hsome
  cases first with
  | none => cases hrest
  | some front =>
    obtain ⟨second, hq, hback⟩ := bind_eq_ok_iff.mp hrest
    cases second with
    | none => cases hback
    | some back =>
      cases hback
      exact ⟨front, back, hp, hq, rfl⟩

/-- A trial fails where the first part does not match, or does and the second does not. -/
theorem trial_eq_none_iff :
    trial p q s k = .ok none ↔
      p (s.take k) = .ok none ∨
        ∃ front, p (s.take k) = .ok (some front) ∧ q (s.drop k) = .ok none := by
  rw [trial, bind_eq_ok_iff]
  constructor
  · intro h
    obtain ⟨first, hp, hrest⟩ := h
    cases first with
    | none => exact .inl hp
    | some front => exact .inr ⟨front, hp, map_eq_none_iff.mp hrest⟩
  · intro h
    obtain hp | ⟨front, hp, hq⟩ := h
    · exact ⟨none, hp, rfl⟩
    · exact ⟨some front, hp, map_eq_none_iff.mpr hq⟩

theorem trial_eq_error {fault : Fault} (herror : trial p q s k = .error fault) :
    p (s.take k) = .error fault ∨ q (s.drop k) = .error fault := by
  rw [trial, bind_eq_error_iff] at herror
  rcases herror with hp | ⟨first, _, hrest⟩
  · exact .inl hp
  · cases first with
    | none => cases hrest
    | some front =>
      rcases bind_eq_error_iff.mp hrest with hq | ⟨_, _, hback⟩
      · exact .inr hq
      · cases hback

theorem trial_congr {p' q' : Matcher} {fault : Fault}
    (hp : p (s.take k) ≠ .error fault → p' (s.take k) = p (s.take k))
    (hq : q (s.drop k) ≠ .error fault → q' (s.drop k) = q (s.drop k))
    (hne : trial p q s k ≠ .error fault) : trial p' q' s k = trial p q s k := by
  refine bind_eq_bind hp (fun first _ hlater => ?_) hne
  cases first with
  | none => rfl
  | some front => exact bind_eq_bind hq (fun _ _ _ => rfl) hlater

end Matcher

end WordGrammar
