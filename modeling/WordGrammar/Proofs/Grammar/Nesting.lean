import Mathlib.Data.List.Chain
import Mathlib.Data.List.Nodup
import Mathlib.Logic.Relation
import WordGrammar.Grammar.Basic

namespace WordGrammar.Grammar

open Relation

variable {W : Type} {g : Grammar W}

/-- Every reference of a rule, wherever it stands, names a rule. -/
def Resolved (g : Grammar W) : Prop :=
  ∀ r ∈ g.rules, ∀ name ∈ r.references, g.hasRule name = true

instance : Decidable g.Resolved := by
  unfold Resolved
  infer_instance

/-- No body of a rule holds a capture. -/
def CaptureFree (g : Grammar W) : Prop :=
  ∀ r ∈ g.rules, r.body.hasCaptures = false

instance : Decidable g.CaptureFree := by
  unfold CaptureFree
  infer_instance

/-- Where names are not used twice, every rule is found by its name. -/
theorem rule?_of_mem (hnodup : (g.rules.map (·.name)).Nodup) {r : Rule W}
    (hmem : r ∈ g.rules) : g.rule? r.name = some r := by
  obtain ⟨found, hfound⟩ :=
    hasRule_iff.mp (hasRule_iff_mem_names.mpr (List.mem_map_of_mem hmem))
  have heq : found = r :=
    List.inj_on_of_nodup_map hnodup (mem_rules_of_rule? hfound) hmem (name_of_rule? hfound)
  rw [hfound, heq]

theorem rule?_eq_some_iff (hnodup : (g.rules.map (·.name)).Nodup) {name : String} {r : Rule W} :
    g.rule? name = some r ↔ r ∈ g.rules ∧ r.name = name := by
  constructor
  · intro hrule
    exact ⟨mem_rules_of_rule? hrule, name_of_rule? hrule⟩
  · intro h
    obtain ⟨hmem, hname⟩ := h
    rw [← hname]
    exact rule?_of_mem hnodup hmem

/-- Where rules stand does not matter for their names, nor which there are besides. -/
theorem rule?_eq_of_perm {g' : Grammar W} (hnodup : (g'.rules.map (·.name)).Nodup)
    {others : List (Rule W)} (hperm : g'.rules.Perm (others ++ g.rules)) {name : String}
    (hname : name ∉ others.map (·.name)) : g.rule? name = g'.rule? name := by
  have hnames : ((others ++ g.rules).map (·.name)).Nodup := (hperm.map _).nodup_iff.mp hnodup
  rw [List.map_append] at hnames
  ext r
  rw [rule?_eq_some_iff hnames.of_append_right, rule?_eq_some_iff hnodup, hperm.mem_iff,
    List.mem_append]
  constructor
  · intro h
    exact ⟨.inr h.1, h.2⟩
  · intro h
    obtain ⟨hother | hmem, hr⟩ := h
    · exact (hname (hr ▸ List.mem_map_of_mem hother)).elim
    · exact ⟨hmem, hr⟩

/-- `g.Refers a b`: the body of the rule `a` refers to `b`. -/
def Refers (g : Grammar W) (a b : String) : Prop :=
  ∃ r, g.rule? a = some r ∧ b ∈ r.edges

/-- From the name on, references lead to a rule that leads back to itself. -/
def CycleBelow (g : Grammar W) (name : String) : Prop :=
  ∃ x, ReflTransGen g.Refers name x ∧ TransGen g.Refers x x

theorem Resolved.hasRule_of_edge (hresolved : g.Resolved) {r : Rule W} (hmem : r ∈ g.rules)
    {name : String} (hedge : name ∈ r.edges) : g.hasRule name = true := by
  apply hresolved r hmem
  rw [Rule.references, List.mem_append, List.mem_append]
  exact .inl (.inl hedge)

theorem Resolved.hasRule_of_refers (hresolved : g.Resolved) {a b : String}
    (hrefers : g.Refers a b) : g.hasRule b = true := by
  obtain ⟨r, hrule, hedge⟩ := hrefers
  exact hresolved.hasRule_of_edge (mem_rules_of_rule? hrule) hedge

theorem CycleBelow.of_refers {a b : String} (hrefers : g.Refers a b) (hcycle : g.CycleBelow b) :
    g.CycleBelow a := by
  obtain ⟨x, hreach, hround⟩ := hcycle
  exact ⟨x, .head hrefers hreach, hround⟩

/-- Where rules refer only to rules that refer to nothing, there is no circle. -/
theorem not_cycleBelow_of_flat
    (hflat : ∀ r ∈ g.rules, ∀ next ∈ r.edges, ∀ r' ∈ g.rule? next, r'.edges = [])
    (name : String) : ¬ g.CycleBelow name := by
  rintro ⟨x, -, hround⟩
  obtain ⟨_, -, r, hrule, hinto⟩ := TransGen.tail'_iff.mp hround
  obtain ⟨_, ⟨r', hrule', hfrom⟩, -⟩ := TransGen.head'_iff.mp hround
  rw [hflat r (mem_rules_of_rule? hrule) x hinto r' hrule'] at hfrom
  cases hfrom

/-- Chains of references that begin at the name have at most `depth` rules. -/
def Shallow (g : Grammar W) : Nat → String → Prop
  | 0, _ => False
  | depth + 1, name => ∀ next, g.Refers name next → g.Shallow depth next

theorem Shallow.succ {depth : Nat} {name : String} (hshallow : g.Shallow depth name) :
    g.Shallow (depth + 1) name := by
  induction depth generalizing name with
  | zero => exact hshallow.elim
  | succ depth ih => exact fun next hrefers => ih (hshallow next hrefers)

theorem Shallow.mono {depth depth' : Nat} (hle : depth ≤ depth') {name : String}
    (hshallow : g.Shallow depth name) : g.Shallow depth' name := by
  induction hle with
  | refl => exact hshallow
  | step _ ih => exact ih.succ

/-- References that nest deeper than `depth` give a chain that is longer. -/
theorem exists_chain_of_not_shallow (depth : Nat) (name : String)
    (hdeep : ¬ g.Shallow depth name) :
    ∃ names, names.length = depth ∧ List.IsChain g.Refers (name :: names) := by
  induction depth generalizing name with
  | zero => exact ⟨[], rfl, .singleton name⟩
  | succ depth ih =>
    simp only [Shallow, not_forall] at hdeep
    obtain ⟨next, hrefers, hnext⟩ := hdeep
    obtain ⟨names, hlength, hchain⟩ := ih next hnext
    exact ⟨next :: names, by simp [hlength], List.isChain_cons_cons.mpr ⟨hrefers, hchain⟩⟩

/-- Whatever stands in a chain can be reached from its beginning. -/
theorem reaches_of_chain {name x : String} {names : List String}
    (hchain : List.IsChain g.Refers (name :: names)) (hmem : x ∈ name :: names) :
    ReflTransGen g.Refers name x := by
  induction names generalizing name with
  | nil =>
    obtain rfl : x = name := by simpa using hmem
    exact .refl
  | cons next names ih =>
    obtain ⟨hrefers, hrest⟩ := List.isChain_cons_cons.mp hchain
    rcases List.mem_cons.mp hmem with rfl | hlater
    · exact .refl
    · exact .head hrefers (ih hrest hlater)

/-- A chain that cannot reach a circle meets no rule twice. -/
theorem nodup_of_chain {name : String} {names : List String} (hacyclic : ¬ g.CycleBelow name)
    (hchain : List.IsChain g.Refers (name :: names)) : (name :: names).Nodup := by
  have hpairs : (name :: names).Pairwise (TransGen g.Refers) :=
    List.isChain_iff_pairwise.mp (hchain.imp fun _ _ => .single)
  refine hpairs.imp_of_mem fun {a b} ha _ hab => ?_
  rintro rfl
  exact hacyclic ⟨a, reaches_of_chain hchain ha, hab⟩

/-- A rule from which no circle of references can be reached has below it, itself included, at most
    as many rules as there are. -/
theorem shallow_of_acyclic (hresolved : g.Resolved) {name : String}
    (hname : g.hasRule name = true) (hacyclic : ¬ g.CycleBelow name) :
    g.Shallow g.rules.length name := by
  by_contra hdeep
  obtain ⟨names, hlength, hchain⟩ := exists_chain_of_not_shallow _ _ hdeep
  have hrules : name :: names ⊆ g.rules.map (·.name) := by
    intro x hmem
    rw [← hasRule_iff_mem_names]
    rcases (reaches_of_chain hchain hmem).cases_tail with rfl | ⟨y, _, hrefers⟩
    · exact hname
    · exact hresolved.hasRule_of_refers hrefers
  have hbound := (nodup_of_chain hacyclic hchain).length_le_of_subset hrules
  simp only [List.length_cons, List.length_map, hlength] at hbound
  omega

end WordGrammar.Grammar
