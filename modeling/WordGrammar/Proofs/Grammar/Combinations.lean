import WordGrammar.Grammar.Combinations
import WordGrammar.Proofs.Expr.Contains
import WordGrammar.Proofs.Grammar.Nesting
import WordGrammar.Proofs.Outcome

namespace WordGrammar

variable {W : Type} {F : Fault → Prop}

namespace Combinations

/-- Whatever fault counting ends in, with whatever counts recorded, it is one of these. -/
def Raises (t : Tally) (F : Fault → Prop) : Prop :=
  ∀ counts fault, t.run counts = .error fault → F fault

theorem Raises.pure (n : Nat) : Raises (Pure.pure n) F := by
  intro counts fault herror
  cases herror

theorem Raises.bind {t : Tally} {f : Nat → Tally} (ht : Raises t F) (hf : ∀ n, Raises (f n) F) :
    Raises (t >>= f) F := by
  intro counts fault herror
  rw [StateT.run_bind] at herror
  rcases Outcome.bind_eq_error_iff.mp herror with hfirst | ⟨⟨n, counts'⟩, -, hsecond⟩
  · exact ht counts fault hfirst
  · exact hf n counts' fault hsecond

/-- Numbers between bounds in order can be counted. -/
theorem ofRepetition_ne_error {body least most : Nat} (hle : least ≤ most) (fault : Fault) :
    ofRepetition body least most ≠ .error fault := by
  unfold ofRepetition
  split
  · exact nofun
  · rw [if_neg (Nat.not_lt.mpr hle)]
    exact nofun
  · exact nofun

end Combinations

open Combinations

namespace Expr

variable {rule : String → Tally}

theorem tallyItems_raises {items : List (Expr W)}
    (hitems : ∀ item ∈ items, Raises (item.tally rule) F) (product : Nat) :
    Raises (tallyItems rule product items) F := by
  induction items generalizing product with
  | nil => exact Raises.pure product
  | cons item items ih =>
    obtain ⟨hitem, hrest⟩ := List.forall_mem_cons.mp hitems
    exact hitem.bind fun n => ih hrest _

theorem tallyAlternatives_raises {alternatives : List (Weighted W (Expr W))}
    (halternatives : ∀ a ∈ alternatives, Raises (a.item.tally rule) F) (sum : Nat) :
    Raises (tallyAlternatives rule sum alternatives) F := by
  induction alternatives generalizing sum with
  | nil => exact Raises.pure sum
  | cons a alternatives ih =>
    obtain ⟨ha, hrest⟩ := List.forall_mem_cons.mp halternatives
    exact ha.bind fun n => ih hrest _

theorem tally_raises (e : Expr W)
    (hrule : ∀ name, e.Contains (.ref name) → Raises (rule name) F)
    (hcaptures : ∀ index, ¬ e.Contains (.capture index))
    (hbounds : ∀ body least most, e.Contains (.repeated body least most) → least ≤ most) :
    Raises (e.tally rule) F := by
  induction e with
  | atom text => exact Raises.pure 1
  | ref name => exact hrule name (.self _)
  | capture index => exact (hcaptures index (.self _)).elim
  | seq items ih =>
    refine tallyItems_raises (fun item hmem => ?_) 1
    apply ih item hmem
    · exact fun name hname => hrule name (.item hmem hname)
    · exact fun index hindex => hcaptures index (.item hmem hindex)
    · exact fun body least most hbody => hbounds body least most (.item hmem hbody)
  | choice alternatives ih =>
    refine tallyAlternatives_raises (fun a hmem => ?_) 0
    apply ih a hmem
    · exact fun name hname => hrule name (.alternative hmem hname)
    · exact fun index hindex => hcaptures index (.alternative hmem hindex)
    · exact fun body least most hbody => hbounds body least most (.alternative hmem hbody)
  | repeated body least most ih =>
    have hbody : Raises (body.tally rule) F := by
      apply ih
      · exact fun name hname => hrule name (.body hname)
      · exact fun index hindex => hcaptures index (.body hindex)
      · exact fun inner low high hinner => hbounds inner low high (.body hinner)
    refine hbody.bind fun n counts fault herror => ?_
    rcases Outcome.bind_eq_error_iff.mp herror with hfirst | ⟨_, -, hdone⟩
    · exact (ofRepetition_ne_error (hbounds body least most (.self _)) fault hfirst).elim
    · cases hdone

end Expr

namespace Grammar

variable {g : Grammar W}

theorem tally_of_lookup {name : String} {r : Rule W} (hrule : g.rule? name = some r)
    {counts : List (String × Nat)} {n : Nat} (hlookup : counts.lookup name = some n)
    (depth : Nat) : (g.tally (depth + 1) name).run counts = .ok (n, counts) := by
  simp only [tally, hrule, StateT.run_bind, StateT.run_get, pure_bind, hlookup]
  rfl

/-- What has not been recorded for a rule is counted and recorded. -/
theorem tally_of_no_lookup {name : String} {r : Rule W} (hrule : g.rule? name = some r)
    {counts : List (String × Nat)} (hlookup : counts.lookup name = none) (depth : Nat) :
    (g.tally (depth + 1) name).run counts =
      ((r.body.tally (g.tally depth)).run counts >>= fun counted =>
        .ok (counted.1, (name, counted.1) :: counted.2)) := by
  simp only [tally, hrule, StateT.run_bind, StateT.run_get, pure_bind, hlookup]
  rfl

/-- A rule below which references nest no deeper than rules may be counted has a count, if captures
    and bounds give no reason against it. -/
theorem Shallow.tally_raises (hresolved : g.Resolved) (hbodies : g.CaptureFree)
    (hbounds : ∀ r ∈ g.rules, ∀ body least most,
      r.body.Contains (.repeated body least most) → least ≤ most)
    {depth : Nat} {name : String} (hname : g.hasRule name = true)
    (hshallow : g.Shallow depth name) : Raises (g.tally depth name) fun _ => False := by
  induction depth generalizing name with
  | zero => exact hshallow.elim
  | succ depth ih =>
    obtain ⟨r, hrule⟩ := hasRule_iff.mp hname
    have hmem := mem_rules_of_rule? hrule
    have hbody : Raises (r.body.tally (g.tally depth)) fun _ => False := by
      refine r.body.tally_raises ?_ ?_ (hbounds r hmem)
      · intro next hnext
        have hedge : next ∈ r.edges := Expr.mem_references_iff.mpr hnext
        exact ih (hresolved.hasRule_of_edge hmem hedge) (hshallow next ⟨r, hrule, hedge⟩)
      · exact Expr.not_contains_capture (hbodies r hmem)
    intro counts fault herror
    rw [tally, hrule] at herror
    dsimp only at herror
    rw [StateT.run_bind] at herror
    rcases Outcome.bind_eq_error_iff.mp herror with hget | ⟨⟨counts', counts''⟩, hget, hrest⟩
    · cases hget
    cases hget
    dsimp only at hrest
    split at hrest
    · cases hrest
    · refine hbody.bind (fun n => ?_) counts fault hrest
      intro counts' fault' hrecord
      cases hrecord

end Grammar

end WordGrammar
