import WordGrammar.Grammar.Cycle
import WordGrammar.Proofs.Grammar.Nesting
import WordGrammar.Proofs.Outcome

namespace WordGrammar.Grammar

open Relation

variable {W : Type} {g : Grammar W}

/-- `g.Searches path nexts done entered result`: references are followed in order, from the end of
    a path and with some rules done with. The search enters rules on the way, one after the other,
    and comes to the result. -/
inductive Searches (g : Grammar W) :
    List String → List String → List String → List String → Search → Prop
  | finished {path done : List String} : Searches g path [] done [] (.ok done)
  /-- The reference leads back into the path. -/
  | back {path nexts done : List String} {next : String} (hpath : next ∈ path) :
      Searches g path (next :: nexts) done [] (.error (path.dropWhile (· != next)))
  /-- The rule is done with. -/
  | known {path nexts done entered : List String} {next : String} {result : Search}
      (hpath : next ∉ path) (hdone : next ∈ done)
      (hlater : Searches g path nexts done entered result) :
      Searches g path (next :: nexts) done entered result
  /-- The name has no rule. -/
  | nowhere {path nexts done entered : List String} {next : String} {result : Search}
      (hpath : next ∉ path) (hdone : next ∉ done) (hrule : g.rule? next = none)
      (hlater : Searches g path nexts done entered result) :
      Searches g path (next :: nexts) done entered result
  /-- The rule is entered, and there is a circle below it. -/
  | found {path nexts done below circle : List String} {next : String} {r : Rule W}
      (hpath : next ∉ path) (hdone : next ∉ done) (hrule : g.rule? next = some r)
      (hbelow : Searches g (path ++ [next]) r.edges done below (.error circle)) :
      Searches g path (next :: nexts) done (next :: below) (.error circle)
  /-- The rule is entered, and all below it comes to be done with. -/
  | left {path nexts done done' below entered : List String} {next : String} {r : Rule W}
      {result : Search} (hpath : next ∉ path) (hdone : next ∉ done)
      (hrule : g.rule? next = some r)
      (hbelow : Searches g (path ++ [next]) r.edges done below (.ok done'))
      (hlater : Searches g path nexts (next :: done') entered result) :
      Searches g path (next :: nexts) done (next :: (below ++ entered)) result

variable {path nexts done entered circle : List String} {name : String} {result : Search}

section Paths

/-- A path that meets no rule twice is no longer than the list of rules. -/
theorem length_le_of_path {path : List String} (hnodup : path.Nodup)
    (hrules : ∀ name ∈ path, g.hasRule name = true) : path.length ≤ g.rules.length := by
  have hsubset : path ⊆ g.rules.map (·.name) := by
    intro name hmem
    exact hasRule_iff_mem_names.mp (hrules name hmem)
  simpa using hnodup.length_le_of_subset hsubset

theorem hasRule_of_longer_path {path : List String} (hpath : ∀ name ∈ path, g.hasRule name = true)
    {name : String} {r : Rule W} (hrule : g.rule? name = some r) :
    ∀ x ∈ path ++ [name], g.hasRule x = true := by
  intro x hmem
  rcases List.mem_append.mp hmem with hbefore | hlast
  · exact hpath x hbefore
  · rw [List.mem_singleton.mp hlast]
    exact hasRule_iff.mpr ⟨r, hrule⟩

theorem nodup_of_longer_path (hnodup : path.Nodup) (hpath : name ∉ path) :
    (path ++ [name]).Nodup := by
  rw [List.nodup_append_comm, List.singleton_append, List.nodup_cons]
  exact ⟨hpath, hnodup⟩

end Paths

section Ending

/-- As deep as the rules not on the path allow, following references is a search that ends. The path
    holds no rule twice, so the depth left and its length together exceed the number of rules. -/
theorem exists_searches {depth : Nat} (hnodup : path.Nodup)
    (hrules : ∀ name ∈ path, g.hasRule name = true)
    (hdepth : g.rules.length < path.length + depth) (nexts done : List String) :
    ∃ entered,
      g.Searches path nexts done entered (follow path (g.visit depth path) nexts done) := by
  induction depth generalizing path nexts done with
  | zero =>
    have hbound := length_le_of_path hnodup hrules
    omega
  | succ depth ih =>
    induction nexts generalizing done with
    | nil => exact ⟨[], .finished⟩
    | cons next nexts ihnexts =>
      rw [follow]
      by_cases hpath : next ∈ path
      · rw [if_pos hpath]
        exact ⟨[], .back hpath⟩
      rw [if_neg hpath]
      by_cases hdone : next ∈ done
      · rw [if_pos hdone]
        obtain ⟨entered, hlater⟩ := ihnexts done
        exact ⟨entered, .known hpath hdone hlater⟩
      rw [if_neg hdone, visit]
      cases hrule : g.rule? next with
      | none =>
        obtain ⟨entered, hlater⟩ := ihnexts done
        exact ⟨entered, .nowhere hpath hdone hrule hlater⟩
      | some r =>
        dsimp only
        have hnodup' := nodup_of_longer_path hnodup hpath
        have hdepth' : g.rules.length < (path ++ [next]).length + depth := by
          simp only [List.length_append, List.length_cons, List.length_nil]
          omega
        obtain ⟨below, hbelow⟩ :=
          ih hnodup' (hasRule_of_longer_path hrules hrule) hdepth' r.edges done
        cases hresult : follow (path ++ [next]) (g.visit depth (path ++ [next])) r.edges done with
        | error circle =>
          rw [hresult] at hbelow
          exact ⟨next :: below, .found hpath hdone hrule hbelow⟩
        | ok done' =>
          rw [hresult] at hbelow
          obtain ⟨entered, hlater⟩ := ihnexts (next :: done')
          exact ⟨next :: (below ++ entered), .left hpath hdone hrule hbelow hlater⟩

/-- The search below the root is one that follows a reference to the root. -/
theorem follow_root (depth : Nat) :
    follow [] (g.visit depth []) [g.root] [] = g.visit depth [] g.root [] := by
  rw [follow, if_neg (List.not_mem_nil), if_neg (List.not_mem_nil)]
  cases g.visit depth [] g.root [] with
  | error circle => rfl
  | ok done => rfl

/-- There is one search only. -/
theorem Searches.unique {entered' : List String} {result' : Search}
    (hsearch : g.Searches path nexts done entered result)
    (hsearch' : g.Searches path nexts done entered' result') :
    entered' = entered ∧ result' = result := by
  induction hsearch generalizing entered' result' with
  | finished =>
    cases hsearch'
    exact ⟨rfl, rfl⟩
  | back hpath =>
    cases hsearch' with
    | back => exact ⟨rfl, rfl⟩
    | known hfresh | nowhere hfresh | found hfresh | left hfresh => exact (hfresh hpath).elim
  | known hpath hdone _ ih =>
    cases hsearch' with
    | back hold => exact (hpath hold).elim
    | known _ _ hlater => exact ih hlater
    | nowhere _ hnew | found _ hnew | left _ hnew => exact (hnew hdone).elim
  | nowhere hpath hdone hrule _ ih =>
    cases hsearch' with
    | back hold => exact (hpath hold).elim
    | known _ hold => exact (hdone hold).elim
    | nowhere _ _ _ hlater => exact ih hlater
    | found _ _ hrule' | left _ _ hrule' =>
      rw [hrule] at hrule'
      cases hrule'
  | found hpath hdone hrule _ ih =>
    cases hsearch' with
    | back hold => exact (hpath hold).elim
    | known _ hold => exact (hdone hold).elim
    | nowhere _ _ hnone =>
      rw [hrule] at hnone
      cases hnone
    | found _ _ hrule' hbelow =>
      rw [hrule] at hrule'
      cases hrule'
      obtain ⟨rfl, hsame⟩ := ih hbelow
      cases hsame
      exact ⟨rfl, rfl⟩
    | left _ _ hrule' hbelow =>
      rw [hrule] at hrule'
      cases hrule'
      cases (ih hbelow).2
  | left hpath hdone hrule _ _ ih ihlater =>
    cases hsearch' with
    | back hold => exact (hpath hold).elim
    | known _ hold => exact (hdone hold).elim
    | nowhere _ _ hnone =>
      rw [hrule] at hnone
      cases hnone
    | found _ _ hrule' hbelow =>
      rw [hrule] at hrule'
      cases hrule'
      cases (ih hbelow).2
    | left _ _ hrule' hbelow hlater =>
      rw [hrule] at hrule'
      cases hrule'
      obtain ⟨rfl, hsame⟩ := ih hbelow
      cases hsame
      obtain ⟨rfl, rfl⟩ := ihlater hlater
      exact ⟨rfl, rfl⟩

/-- The search that is made from the root ends, with one result at all depths that exceed the
    number of rules. -/
theorem exists_searches_root (g : Grammar W) :
    ∃ entered result, g.Searches [] [g.root] [] entered result ∧
      ∀ depth, g.rules.length < depth → g.visit depth [] g.root [] = result := by
  have hends : ∀ depth, g.rules.length < depth →
      ∃ entered, g.Searches [] [g.root] [] entered (g.visit depth [] g.root []) := by
    intro depth hdepth
    rw [← follow_root]
    exact exists_searches List.nodup_nil nofun (by simpa using hdepth) [g.root] []
  obtain ⟨entered, hsearch⟩ := hends _ (Nat.lt_succ_self _)
  refine ⟨entered, _, hsearch, fun depth hdepth => ?_⟩
  obtain ⟨_, hsearch'⟩ := hends depth hdepth
  exact (hsearch.unique hsearch').2

/-- With depth enough for every rule, more makes no difference to the search. -/
theorem visit_root_eq {depth : Nat} (hdepth : g.rules.length < depth) :
    g.visit depth [] g.root [] = g.visit (g.rules.length + 1) [] g.root [] := by
  obtain ⟨_, _, _, hresult⟩ := exists_searches_root g
  rw [hresult _ hdepth, hresult _ (Nat.lt_succ_self _)]

/-- What is answered is the circle that ends the search. -/
theorem cycle?_eq_some_iff {result : Search}
    (hresult : g.visit (g.rules.length + 1) [] g.root [] = result) :
    g.cycle? = some circle ↔ result = .error circle := by
  unfold cycle?
  rw [hresult]
  cases result with
  | ok done => simp
  | error found => simp

end Ending

section Clear

/-- A rule leads to a circle only if one of those it refers to does. -/
theorem not_cycleBelow_of_refers {name : String}
    (hnext : ∀ next, g.Refers name next → ¬ g.CycleBelow next) : ¬ g.CycleBelow name := by
  intro h
  obtain ⟨x, hreach, hround⟩ := h
  rcases hreach.cases_head with heq | ⟨next, hrefers, hrest⟩
  · rw [← heq] at hround
    obtain ⟨next, hrefers, hback⟩ := TransGen.head'_iff.mp hround
    exact hnext next hrefers ⟨name, hback, hround⟩
  · exact hnext next hrefers ⟨x, hrest, hround⟩

/-- None of the names leads to a circle. -/
def Clear (g : Grammar W) (names : List String) : Prop :=
  ∀ name ∈ names, ¬ g.CycleBelow name

theorem clear_cons {name : String} {names : List String} :
    g.Clear (name :: names) ↔ ¬ g.CycleBelow name ∧ g.Clear names :=
  List.forall_mem_cons

/-- What a search to the end is done with leads to no circle, since a rule is done with only when
    all that it refers to is. -/
theorem Searches.clear {done' : List String}
    (hsearch : g.Searches path nexts done entered (.ok done')) (hdone : g.Clear done) :
    g.Clear done' ∧ g.Clear nexts := by
  generalize hresult : (Except.ok done' : Search) = result at hsearch
  induction hsearch generalizing done' with
  | finished =>
    cases hresult
    exact ⟨hdone, nofun⟩
  | back => cases hresult
  | known _ hmem _ ih =>
    obtain ⟨hdone', hnexts⟩ := ih hdone hresult
    exact ⟨hdone', clear_cons.mpr ⟨hdone _ hmem, hnexts⟩⟩
  | nowhere _ _ hrule _ ih =>
    obtain ⟨hdone', hnexts⟩ := ih hdone hresult
    refine ⟨hdone', clear_cons.mpr ⟨not_cycleBelow_of_refers fun next hrefers => ?_, hnexts⟩⟩
    obtain ⟨r, hr, -⟩ := hrefers
    rw [hrule] at hr
    cases hr
  | found => cases hresult
  | @left _ _ _ _ _ _ name _ _ _ _ hrule _ _ ih ihlater =>
    obtain ⟨hbelow, hedges⟩ := ih hdone rfl
    have hname : ¬ g.CycleBelow name := by
      refine not_cycleBelow_of_refers fun next hrefers => ?_
      obtain ⟨r, hr, hedge⟩ := hrefers
      rw [hrule] at hr
      cases hr
      exact hedges next hedge
    obtain ⟨hdone', hnexts⟩ := ihlater (clear_cons.mpr ⟨hname, hbelow⟩) hresult
    exact ⟨hdone', clear_cons.mpr ⟨hname, hnexts⟩⟩

/-- Where the search from the root finds no circle, none can be reached. -/
theorem not_cycleBelow_of_cycle? (hcycle : g.cycle? = none) : ¬ g.CycleBelow g.root := by
  obtain ⟨entered, result, hsearch, hresult⟩ := exists_searches_root g
  cases result with
  | error circle =>
    rw [(cycle?_eq_some_iff (hresult _ (Nat.lt_succ_self _))).mpr rfl] at hcycle
    cases hcycle
  | ok done => exact (hsearch.clear nofun).2 _ (List.mem_singleton_self _)

end Clear

end WordGrammar.Grammar
