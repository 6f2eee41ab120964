import WordGrammar.Generation.Word
import WordGrammar.Proofs.Expr.Contains
import WordGrammar.Proofs.Generation.Choice
import WordGrammar.Proofs.Grammar.WellFormed

namespace WordGrammar

/-- What is made with the words of rules. -/
abbrev Maker (α : Type) : Type := (String → Sampler (List Char)) → Sampler α

/-- A property of makers that is kept up by going on after a step. -/
structure Maker.Law (P : (α : Type) → Maker α → Prop) : Prop where
  done {α : Type} (a : α) : P α fun _ => .done a
  tell (event : Event) : P Unit fun _ => .tell event
  bind {α β : Type} {make : Maker α} {next : α → Maker β} (hmake : P α make)
    (hnext : ∀ a, P β (next a)) : P β fun rule => make rule >>= fun a => next a rule

variable {W : Type} [Weight W] {P : (α : Type) → Maker α → Prop}

/-- Going on only matters with what may come. -/
theorem Sampler.bind_congr_of_ends {α β : Type} {p : Sampler α} {f f' : α → Sampler β}
    (hf : ∀ a, p.Ends (.ok a) → f a = f' a) : (p >>= f) = (p >>= f') := by
  induction p with
  | done a => exact hf a (.done a)
  | stop why => rfl
  | draw d next ih =>
    rw [draw_bind, draw_bind]
    congr 1
    funext answer
    exact ih answer fun a hends => hf a (.draw answer hends)
  | note event rest ih =>
    rw [note_bind, note_bind, ih fun a hends => hf a (.note hends)]

namespace Maker.Law

theorem times (hlaw : Law P) {make : Maker (List Char)} (hmake : P _ make) (n : Nat)
    (text : List Char) : P _ fun rule => (make rule).times n text := by
  induction n generalizing text with
  | zero => exact hlaw.done text
  | succ n ih => exact hlaw.bind hmake fun more => ih (text ++ more)

/-- After a position has been drawn, it is enough to go on from those there are. -/
theorem position_bind (hlaw : Law P) {useWeights : Bool} {weights : List W} (hne : weights ≠ [])
    (hposition : P _ fun _ => Sampler.position useWeights weights) {next : Nat → Maker (List Char)}
    (hnext : ∀ k < weights.length, P _ (next k)) :
    P _ fun rule => Sampler.position useWeights weights >>= fun k => next k rule := by
  have hbounded : ∀ k, P _ (if k < weights.length then next k else fun _ => .done []) := by
    intro k
    split
    · exact hnext k ‹_›
    · exact hlaw.done []
  have heq (rule : String → Sampler (List Char)) :
      (Sampler.position useWeights weights >>= fun k => next k rule) =
        Sampler.position useWeights weights >>= fun k =>
          (if k < weights.length then next k else fun _ => .done []) rule := by
    refine Sampler.bind_congr_of_ends fun k hends => ?_
    rw [if_pos (Sampler.lt_of_position hne hends)]
  simp only [heq]
  exact hlaw.bind hposition hbounded

end Maker.Law

namespace Expr

variable {useWeights : Bool} {captures : Option (List (List Char))} {e : Expr W}

/-- What holds of the steps that expanding takes. -/
structure Steps (P : (α : Type) → Maker α → Prop) (useWeights : Bool)
    (captures : Option (List (List Char))) (e : Expr W) : Prop where
  call : ∀ name, e.Contains (.ref name) → P _ fun rule => rule name
  captured : ∀ index, e.Contains (.capture index) → P _ fun _ => captured captures index
  position : ∀ alternatives, e.Contains (.choice alternatives) → alternatives ≠ [] →
    P _ fun _ => Sampler.position useWeights (alternatives.map (·.weight))
  count : ∀ body least most, e.Contains (.repeated body least most) → least ≤ most →
    P _ fun _ => .ask (.upTo (most - least))
  reversed : ∀ body least most, e.Contains (.repeated body least most) → most < least →
    P (List Char) fun _ => .stop (.faulted .nothingToDraw)

theorem Steps.within {x : Expr W} (hsteps : e.Steps P useWeights captures) (hx : e.Contains x) :
    x.Steps P useWeights captures where
  call name hname := hsteps.call name (hx.trans hname)
  captured index hindex := hsteps.captured index (hx.trans hindex)
  position alternatives hchoice := hsteps.position alternatives (hx.trans hchoice)
  count body least most hbody := hsteps.count body least most (hx.trans hbody)
  reversed body least most hbody := hsteps.reversed body least most (hx.trans hbody)

theorem expandItems_keeps (hlaw : Maker.Law P) {items : List (Expr W)}
    (hitems : ∀ item ∈ items, P _ fun rule => item.expand rule useWeights captures)
    (text : List Char) : P _ fun rule => expandItems rule useWeights captures text items := by
  induction items generalizing text with
  | nil => exact hlaw.done text
  | cons item items ih =>
    obtain ⟨hitem, hrest⟩ := List.forall_mem_cons.mp hitems
    exact hlaw.bind hitem fun more => ih hrest (text ++ more)

/-- Expanding an expression keeps up what holds of the steps that this takes. -/
theorem expand_keeps (hlaw : Maker.Law P) (e : Expr W) (hsteps : e.Steps P useWeights captures) :
    P _ fun rule => e.expand rule useWeights captures := by
  induction e with
  | atom text => exact hlaw.done text.toList
  | ref name => exact hsteps.call name (.self _)
  | capture index => exact hsteps.captured index (.self _)
  | seq items ih =>
    refine expandItems_keeps hlaw (fun item hmem => ?_) []
    exact ih item hmem (hsteps.within (.item hmem (.self _)))
  | choice alternatives ih =>
    by_cases hempty : alternatives.isEmpty = true
    · simp only [expand, if_pos hempty]
      exact hlaw.done []
    · simp only [expand, if_neg hempty]
      have hne : alternatives ≠ [] := by simpa using hempty
      have hposition := hsteps.position alternatives (.self _) hne
      refine hlaw.position_bind (mt List.map_eq_nil_iff.mp hne) hposition fun k hk => ?_
      rw [List.length_map] at hk
      simp only [expandAlternative_eq hk]
      have hmem := List.getElem_mem hk
      exact ih _ hmem (hsteps.within (.alternative hmem (.self _)))
  | repeated body least most ih =>
    by_cases horder : most < least
    · simp only [expand, if_pos horder]
      exact hsteps.reversed body least most (.self _) horder
    · have hbody := ih (hsteps.within (.body (.self _)))
      have hcount := hsteps.count body least most (.self _) (Nat.le_of_not_lt horder)
      simp only [expand, if_neg horder]
      refine hlaw.bind hcount fun more => ?_
      by_cases hnone : least + more.val = 0
      · simp only [if_pos hnone]
        exact hlaw.done []
      · simp only [if_neg hnone]
        exact hlaw.times hbody _ []

end Expr

namespace Grammar

variable {g : Grammar W} {r : Rule W}

/-- Substituting takes the steps of expanding replacements, from whatever position on, and may stop
    at a fault of the matcher. -/
theorem substituteFrom_keeps (hlaw : Maker.Law P) {s : Substitution W}
    (htarget : ∀ text fault, (g.matcher s.target).hit? text = .error fault →
      P (List Char) fun _ => .stop (.faulted fault))
    (hreplacement : ∀ texts, P _ fun rule => s.replacement.expand rule g.useWeights (some texts))
    (name : String) (text : List Char) (position : Nat) :
    P _ fun rule => g.substituteFrom rule name s text position := by
  -- A replacement may be longer than what it replaces, but what is left of the text gets shorter.
  generalize hmeasure : text.length - position = left
  induction left using Nat.strongRecOn generalizing text position with
  | ind left ih =>
    simp only [substituteFrom.eq_def g _ name s text position]
    by_cases hposition : position < text.length
    · simp only [if_pos hposition]
      cases hhit : (g.matcher s.target).hit? (text.drop position) with
      | error fault => exact htarget _ fault hhit
      | ok found =>
        cases found with
        | none => exact ih _ (by omega) text (position + 1) rfl
        | some hit =>
          refine hlaw.bind (hreplacement _) fun replacement => ?_
          refine hlaw.bind (hlaw.tell _) fun _ => ?_
          refine ih _ ?_ _ _ rfl
          simp only [List.length_append, List.length_take, List.length_drop, Hit.length]
          omega
    · simp only [if_neg hposition]
      exact hlaw.done text

theorem substituteAll_keeps (hlaw : Maker.Law P) {substitutions : List (Substitution W)}
    (htarget : ∀ s ∈ substitutions, ∀ text fault,
      (g.matcher s.target).hit? text = .error fault →
        P (List Char) fun _ => .stop (.faulted fault))
    (hreplacement : ∀ s ∈ substitutions, ∀ texts,
      P _ fun rule => s.replacement.expand rule g.useWeights (some texts))
    (name : String) (text : List Char) :
    P _ fun rule => g.substituteAll rule name substitutions text := by
  induction substitutions generalizing text with
  | nil => exact hlaw.done text
  | cons s substitutions ih =>
    obtain ⟨hs, htargets⟩ := List.forall_mem_cons.mp htarget
    obtain ⟨hs', hreplacements⟩ := List.forall_mem_cons.mp hreplacement
    have hfirst := substituteFrom_keeps hlaw hs hs' name text 0
    exact hlaw.bind hfirst fun text' => ih htargets hreplacements text'

/-- An attempt takes the steps of expanding the body and replacements. -/
theorem attempt_keeps (hlaw : Maker.Law P)
    (htarget : ∀ s ∈ r.substitutions, ∀ text fault,
      (g.matcher s.target).hit? text = .error fault →
        P (List Char) fun _ => .stop (.faulted fault))
    (hexpanded : ∀ e ∈ r.expanded, ∀ captures,
      P _ fun rule => e.expand rule g.useWeights captures) :
    P _ fun rule => g.attempt rule r := by
  refine hlaw.bind (hexpanded r.body (List.mem_cons_self ..) none) fun text => ?_
  refine substituteAll_keeps hlaw htarget (fun s hs texts => ?_) r.name text
  exact hexpanded s.replacement (List.mem_cons_of_mem _ (List.mem_map_of_mem hs)) (some texts)

/-- Trying again and again takes the steps of attempts, checks what they come to, and gives up in
    the end. -/
theorem tryWord_keeps (hlaw : Maker.Law P) (hattempt : P _ fun rule => g.attempt rule r)
    (hcheck : ∀ text, P _ fun _ => .ofExcept (g.occursAny r.exclusions text))
    (hexhausted : P (List Char) fun _ => .stop (.failed (.exclusionsTooRestrictive r.name)))
    (left : Nat) : P _ fun rule => g.tryWord rule r left := by
  induction left with
  | zero => exact hlaw.bind (hlaw.tell _) fun _ => hexhausted
  | succ left ih =>
    refine hlaw.bind hattempt fun text => hlaw.bind (hcheck text) fun excluded => ?_
    cases excluded with
    | true => exact hlaw.bind (hlaw.tell _) fun _ => ih
    | false => exact hlaw.done text

end Grammar

end WordGrammar
