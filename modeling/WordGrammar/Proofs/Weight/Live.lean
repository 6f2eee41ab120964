import Mathlib.Data.List.Induction
import WordGrammar.Proofs.Generation.Choice

namespace WordGrammar.Weight

variable {W : Type} [Weight W] {α β : Type}

/-- What the arithmetic must keep to for a weight of zero to count for nothing. The weights are
    `usable`, which is to be zero or more; what is left of a draw is `fair`, which is not to be
    negative, though it may be undefined. -/
structure Lawful (usable fair : W → Prop) : Prop where
  add_zero {weights : List W} {w : W} (hweights : ∀ v ∈ weights, usable v) (hw : usable w)
    (hzero : lt zero w = false) : add (total weights) w = total weights
  fair_mul {weights : List W} (hweights : ∀ v ∈ weights, usable v) (share : Share) :
    fair (mul (fraction share) (total weights))
  fair_sub {rest w : W} (hrest : fair rest) (hw : usable w) (hle : lt rest w = false) :
    fair (sub rest w)
  sub_zero {rest w : W} (hrest : fair rest) (hw : usable w) (hzero : lt zero w = false) :
    sub rest w = rest
  not_lt_zero {rest w : W} (hrest : fair rest) (hw : usable w) (hzero : lt zero w = false) :
    lt rest w = false

/-- Whether the alternative has a positive weight. -/
def isPositive (a : Weighted W α) : Bool := lt zero a.weight

/-- The alternatives of positive weight; if there are none, the last of all. -/
def live (alternatives : List (Weighted W α)) : List (Weighted W α) :=
  if alternatives.any isPositive then alternatives.filter isPositive
  else alternatives.getLast?.toList

variable {alternatives : List (Weighted W α)}

section Live

theorem live_of_any (hany : alternatives.any isPositive = true) :
    live alternatives = alternatives.filter isPositive := if_pos hany

theorem live_of_not_any (hnone : ¬ alternatives.any isPositive = true) :
    live alternatives = alternatives.getLast?.toList := if_neg hnone

theorem live_map {f : Weighted W α → Weighted W β} (hf : ∀ a, (f a).weight = a.weight)
    (alternatives : List (Weighted W α)) :
    live (alternatives.map f) = (live alternatives).map f := by
  have hpositive : isPositive ∘ f = (isPositive : Weighted W α → Bool) := by
    funext a
    rw [Function.comp_apply, isPositive, hf, isPositive]
  unfold live
  rw [List.any_map, hpositive, List.filter_map, hpositive, List.getLast?_map]
  split
  · rfl
  · cases alternatives.getLast? <;> rfl

theorem mem_of_mem_live {a : Weighted W α} (hmem : a ∈ live alternatives) : a ∈ alternatives := by
  unfold live at hmem
  split at hmem
  · exact (List.mem_filter.mp hmem).1
  · exact List.mem_of_getLast? (Option.mem_toList.mp hmem)

theorem live_eq_nil_iff : live alternatives = [] ↔ alternatives = [] := by
  by_cases hany : alternatives.any isPositive = true
  · obtain ⟨a, hmem, ha⟩ := List.any_eq_true.mp hany
    have hlive : a ∈ live alternatives := by
      rw [live_of_any hany]
      exact List.mem_filter.mpr ⟨hmem, ha⟩
    exact ⟨fun h => absurd hlive (h ▸ List.not_mem_nil),
      fun h => absurd hmem (h ▸ List.not_mem_nil)⟩
  · rw [live_of_not_any hany, Option.toList_eq_nil_iff, List.getLast?_eq_none_iff]

theorem live_live (alternatives : List (Weighted W α)) :
    live (live alternatives) = live alternatives := by
  by_cases hany : alternatives.any isPositive = true
  · have hfiltered : (alternatives.filter isPositive).any isPositive = true := by
      obtain ⟨a, hmem, ha⟩ := List.any_eq_true.mp hany
      exact List.any_eq_true.mpr ⟨a, List.mem_filter.mpr ⟨hmem, ha⟩, ha⟩
    rw [live_of_any hany, live_of_any hfiltered, List.filter_filter]
    simp only [Bool.and_self]
  · rw [live_of_not_any hany]
    unfold live
    cases alternatives.getLast? with
    | none => rfl
    | some a =>
      by_cases ha : isPositive a = true
      · simp [ha]
      · simp [ha]

/-- The last usable alternative is the last live one. -/
theorem getElem?_lastUsable (alternatives : List (Weighted W α)) :
    alternatives[lastUsable (alternatives.map (·.weight))]? = (live alternatives).getLast? := by
  have hreversed : (alternatives.map (·.weight)).reverse.findIdx? (fun w => lt zero w) =
      alternatives.reverse.findIdx? isPositive := by
    rw [← List.map_reverse, List.findIdx?_map]
    rfl
  unfold lastUsable
  rw [hreversed, List.length_map]
  by_cases hany : alternatives.any isPositive = true
  · rw [live_of_any hany, List.getLast?_filter, List.find?_eq_bind_findIdx?_getElem?]
    cases hfound : alternatives.reverse.findIdx? isPositive with
    | none =>
      obtain ⟨a, hmem, ha⟩ := List.any_eq_true.mp hany
      rw [List.findIdx?_eq_none_iff] at hfound
      rw [hfound a (List.mem_reverse.mpr hmem)] at ha
      cases ha
    | some i =>
      obtain ⟨hi, -⟩ := List.findIdx?_eq_some_iff_getElem.mp hfound
      rw [List.length_reverse] at hi
      rw [Option.bind_some, List.getElem?_reverse hi]
  · have hnone : alternatives.reverse.findIdx? isPositive = none := by
      rw [List.findIdx?_eq_none_iff]
      intro a hmem
      rw [← Bool.not_eq_true]
      exact fun ha => hany (List.any_eq_true.mpr ⟨a, List.mem_reverse.mp hmem, ha⟩)
    rw [hnone, live_of_not_any hany]
    dsimp only
    rw [← List.getLast?_eq_getElem?]
    cases alternatives.getLast? <;> rfl

end Live

/-- The alternative located is that of the first position whose weight exceeds what is left. -/
def located? (rest : W) (alternatives : List (Weighted W α)) : Option (Weighted W α) :=
  (locate? rest (alternatives.map (·.weight))).bind (alternatives[·]?)

theorem located?_cons (rest : W) (a : Weighted W α) (alternatives : List (Weighted W α)) :
    located? rest (a :: alternatives) =
      if lt rest a.weight then some a else located? (sub rest a.weight) alternatives := by
  rw [located?, List.map_cons, locate?]
  split
  · rfl
  · rw [Option.bind_map]
    rfl

/-- What is selected is what is located, and else the last live alternative. -/
theorem getElem?_select (draw : W) (alternatives : List (Weighted W α)) :
    alternatives[select draw (alternatives.map (·.weight))]? =
      (located? (mul draw (total (alternatives.map (·.weight)))) alternatives).or
        (live alternatives).getLast? := by
  rw [select, located?]
  cases hfound : locate? (mul draw (total (alternatives.map (·.weight))))
      (alternatives.map (·.weight)) with
  | none => exact getElem?_lastUsable alternatives
  | some k =>
    have hk : k < alternatives.length := by simpa using locate?_lt hfound
    rw [Option.getD_some, Option.bind_some, List.getElem?_eq_getElem hk]
    rfl

theorem total_append_singleton (weights : List W) (w : W) :
    total (weights ++ [w]) = add (total weights) w :=
  List.foldl_append ..

section Lawful

variable {usable fair : W → Prop} (hlawful : Lawful usable fair)

include hlawful

theorem total_filter (husable : ∀ a ∈ alternatives, usable a.weight) :
    total ((alternatives.filter isPositive).map (·.weight)) =
      total (alternatives.map (·.weight)) := by
  induction alternatives using List.reverseRecOn with
  | nil => rfl
  | append_singleton alternatives a ih =>
    obtain ⟨hbefore, ha⟩ := List.forall_mem_append.mp husable
    rw [List.forall_mem_singleton] at ha
    rw [List.filter_append, List.map_append, List.map_append, List.map_singleton,
      total_append_singleton]
    by_cases hpositive : isPositive a = true
    · rw [List.filter_cons_of_pos hpositive, List.filter_nil, List.map_singleton,
        total_append_singleton, ih hbefore]
    · have hzero : lt zero a.weight = false := by simpa [isPositive] using hpositive
      rw [List.filter_cons_of_neg hpositive, List.filter_nil, List.map_nil, List.append_nil,
        ih hbefore, hlawful.add_zero (by simpa using hbefore) ha hzero]

/-- Weights of zero are passed over. -/
theorem located?_filter {rest : W} (hrest : fair rest)
    (husable : ∀ a ∈ alternatives, usable a.weight) :
    located? rest (alternatives.filter isPositive) = located? rest alternatives := by
  induction alternatives generalizing rest with
  | nil => rfl
  | cons a alternatives ih =>
    obtain ⟨ha, hlater⟩ := List.forall_mem_cons.mp husable
    rw [located?_cons]
    by_cases hpositive : isPositive a = true
    · rw [List.filter_cons_of_pos hpositive, located?_cons]
      by_cases hcovered : lt rest a.weight = true
      · rw [if_pos hcovered, if_pos hcovered]
      · have hleft : fair (sub rest a.weight) :=
          hlawful.fair_sub hrest ha (Bool.eq_false_iff.mpr hcovered)
        rw [if_neg hcovered, if_neg hcovered, ih hleft hlater]
    · have hzero : lt zero a.weight = false := by simpa [isPositive] using hpositive
      rw [List.filter_cons_of_neg hpositive, hlawful.not_lt_zero hrest ha hzero,
        if_neg Bool.false_ne_true, hlawful.sub_zero hrest ha hzero, ih hrest hlater]

/-- Where all weights are zero, none is located. -/
theorem located?_of_not_any {rest : W} (hrest : fair rest)
    (husable : ∀ a ∈ alternatives, usable a.weight)
    (hnone : ¬ alternatives.any isPositive = true) : located? rest alternatives = none := by
  rw [← located?_filter hlawful hrest husable, List.filter_eq_nil_iff.mpr]
  · rfl
  · exact fun a hmem ha => hnone (List.any_eq_true.mpr ⟨a, hmem, ha⟩)

/-- A draw selects the same alternative among the live ones alone. -/
theorem getElem?_select_live (husable : ∀ a ∈ alternatives, usable a.weight) (share : Share) :
    (live alternatives)[select (fraction share) ((live alternatives).map (·.weight))]? =
      alternatives[select (fraction share) (alternatives.map (·.weight))]? := by
  have hfair {others : List (Weighted W α)} (hothers : ∀ a ∈ others, usable a.weight) :
      fair (mul (fraction share) (total (others.map (·.weight)))) :=
    hlawful.fair_mul (by simpa using hothers) share
  rw [getElem?_select, getElem?_select, live_live]
  by_cases hany : alternatives.any isPositive = true
  · rw [live_of_any hany, total_filter hlawful husable,
      located?_filter hlawful (hfair husable) husable]
  · have husable' : ∀ a ∈ live alternatives, usable a.weight :=
      fun a hmem => husable a (mem_of_mem_live hmem)
    have hnone : ¬ (live alternatives).any isPositive = true := by
      rw [List.any_eq_true]
      rintro ⟨a, hmem, ha⟩
      exact hany (List.any_eq_true.mpr ⟨a, mem_of_mem_live hmem, ha⟩)
    rw [located?_of_not_any hlawful (hfair husable) husable hany,
      located?_of_not_any hlawful (hfair husable') husable' hnone]

end Lawful

end WordGrammar.Weight
