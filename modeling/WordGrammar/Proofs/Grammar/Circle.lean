import WordGrammar.Proofs.Grammar.Cycle

namespace WordGrammar.Grammar

open Relation

variable {W : Type} {g : Grammar W} {path nexts done entered circle : List String} {name : String}
  {result : Search}

section Entered

/-- The rules entered are all different, and they are new: neither on the path nor done with. A
    search that goes on to the end is done with them. -/
theorem Searches.entered_new (hsearch : g.Searches path nexts done entered result) :
    entered.Nodup ∧ (∀ x ∈ entered, x ∉ path ∧ x ∉ done ∧ g.hasRule x = true) ∧
      ∀ done', result = .ok done' → ∀ x, x ∈ done' ↔ x ∈ entered ∨ x ∈ done := by
  induction hsearch with
  | finished =>
    refine ⟨List.nodup_nil, nofun, fun done' hok x => ?_⟩
    cases hok
    simp
  | back => exact ⟨List.nodup_nil, nofun, nofun⟩
  | known _ _ _ ih => exact ih
  | nowhere _ _ _ _ ih => exact ih
  | @found path nexts done below circle next r hpath hdone hrule _ ih =>
    obtain ⟨hnodup, hnew, -⟩ := ih
    have hnext : next ∉ below := fun hmem => (hnew next hmem).1 (by simp)
    refine ⟨List.nodup_cons.mpr ⟨hnext, hnodup⟩, ?_, nofun⟩
    rw [List.forall_mem_cons]
    refine ⟨⟨hpath, hdone, hasRule_iff.mpr ⟨r, hrule⟩⟩, fun x hmem => ?_⟩
    obtain ⟨hoff, hleft, hx⟩ := hnew x hmem
    exact ⟨fun hold => hoff (List.mem_append_left _ hold), hleft, hx⟩
  | @left path nexts done done' below entered next r result hpath hdone hrule _ _ ih ihlater =>
    obtain ⟨hnodup, hnew, hall⟩ := ih
    obtain ⟨hnodup', hnew', hall'⟩ := ihlater
    have hbetween := hall done' rfl
    have hnext : next ∉ below := fun hmem => (hnew next hmem).1 (by simp)
    have hnext' : next ∉ entered := fun hmem => (hnew' next hmem).2.1 (List.mem_cons_self ..)
    have hdisjoint : ∀ x ∈ below, x ∉ entered := fun x hmem hlater =>
      (hnew' x hlater).2.1 (List.mem_cons_of_mem _ ((hbetween x).mpr (.inl hmem)))
    refine ⟨?_, ?_, fun done'' hok x => ?_⟩
    · rw [List.nodup_cons, List.mem_append, not_or]
      exact ⟨⟨hnext, hnext'⟩, List.nodup_append.mpr
        ⟨hnodup, hnodup', fun x hx y hy heq => hdisjoint x hx (heq ▸ hy)⟩⟩
    · rw [List.forall_mem_cons, List.forall_mem_append]
      refine ⟨⟨hpath, hdone, hasRule_iff.mpr ⟨r, hrule⟩⟩, fun x hmem => ?_, fun x hmem => ?_⟩
      · obtain ⟨hoff, hleft, hx⟩ := hnew x hmem
        exact ⟨fun hold => hoff (List.mem_append_left _ hold), hleft, hx⟩
      · obtain ⟨hoff, hleft, hx⟩ := hnew' x hmem
        refine ⟨hoff, fun hold => hleft ?_, hx⟩
        exact List.mem_cons_of_mem _ ((hbetween x).mpr (.inr hold))
    · rw [hall' done'' hok, List.mem_cons, List.mem_cons, List.mem_append, hbetween]
      tauto

end Entered

/-- The names follow each other in a circle: the rule of each refers to the next, and that of the
    last to the first. None is there twice. -/
structure IsCircle (g : Grammar W) (circle : List String) : Prop where
  ne_nil : circle ≠ []
  distinct : circle.Nodup
  refers : circle.IsChain g.Refers
  closed : ∀ last ∈ circle.getLast?, ∀ first ∈ circle.head?, g.Refers last first

section Closing

/-- Each name of a circle has a rule. -/
theorem IsCircle.hasRule (hcircle : g.IsCircle circle) {name : String} (hmem : name ∈ circle) :
    g.hasRule name = true := by
  obtain ⟨before, after, rfl⟩ := List.mem_iff_append.mp hmem
  have hnext : ∃ next, g.Refers name next := by
    cases after with
    | nil =>
      cases before with
      | nil => exact ⟨name, hcircle.closed name (by simp) name (by simp)⟩
      | cons first before =>
        exact ⟨first, hcircle.closed name (by rw [List.getLast?_concat]; rfl) first (by simp)⟩
    | cons next after =>
      have hrest := (List.isChain_append.mp hcircle.refers).2.1
      exact ⟨next, (List.isChain_cons_cons.mp hrest).1⟩
  obtain ⟨next, r, hrule, -⟩ := hnext
  exact hasRule_iff.mpr ⟨r, hrule⟩

theorem reaches_of_path {first : String} (hfirst : path.head? = some first)
    (hchain : path.IsChain g.Refers) (hmem : name ∈ path) : ReflTransGen g.Refers first name := by
  obtain ⟨rest, rfl⟩ := List.head?_eq_some_iff.mp hfirst
  exact reaches_of_chain hchain hmem

/-- A circle leads from its first rule back to it. -/
theorem IsCircle.cycleBelow (hcircle : g.IsCircle circle) {first : String}
    (hfirst : first ∈ circle.head?) : g.CycleBelow first := by
  have hlast := List.getLast?_eq_some_getLast hcircle.ne_nil
  have hreach := reaches_of_path hfirst hcircle.refers (List.mem_of_getLast? hlast)
  exact ⟨first, .refl, .tail' hreach (hcircle.closed _ hlast first hfirst)⟩

/-- A path that leads back into itself holds a circle, from there on. -/
theorem isCircle_dropWhile {next : String} (hpath : next ∈ path) (hnodup : path.Nodup)
    (hchain : path.IsChain g.Refers) (hback : ∀ last ∈ path.getLast?, g.Refers last next) :
    ∃ before, before ++ path.dropWhile (· != next) = path ∧
      g.IsCircle (path.dropWhile (· != next)) := by
  obtain ⟨before, after, rfl, hnew⟩ := List.eq_append_cons_of_mem hpath
  have hdrop : (before ++ next :: after).dropWhile (· != next) = next :: after := by
    rw [List.dropWhile_append_of_pos, List.dropWhile_cons_of_neg]
    · simp
    · intro x hmem
      simpa using fun heq : x = next => hnew (heq ▸ hmem)
  refine ⟨before, by rw [hdrop], ?_⟩
  rw [hdrop]
  constructor
  · exact List.cons_ne_nil _ _
  · exact hnodup.of_append_right
  · exact (List.isChain_append.mp hchain).2.1
  · intro last hlast first hfirst
    obtain rfl : next = first := Option.some.inj hfirst
    apply hback
    rw [List.getLast?_append_of_ne_nil _ (List.cons_ne_nil _ _)]
    exact hlast

/-- The circle that ends a search stands at the end of a path that begins with the one before. -/
theorem Searches.isCircle (hsearch : g.Searches path nexts done entered (.error circle))
    (hnodup : path.Nodup) (hchain : path.IsChain g.Refers)
    (hnexts : ∀ last ∈ path.getLast?, ∀ next ∈ nexts, g.Refers last next) :
    g.IsCircle circle ∧ ∃ before, path <+: before ++ circle ∧
      (before ++ circle).IsChain g.Refers ∧ (before ++ circle).Nodup := by
  generalize hresult : (Except.error circle : Search) = result at hsearch
  induction hsearch with
  | finished => cases hresult
  | back hpath =>
    cases hresult
    obtain ⟨before, hbefore, hcircle⟩ := isCircle_dropWhile hpath hnodup hchain
      fun last hlast => hnexts last hlast _ (List.mem_cons_self ..)
    refine ⟨hcircle, before, ⟨[], ?_⟩, ?_⟩
    · rw [List.append_nil, hbefore]
    · rw [hbefore]
      exact ⟨hchain, hnodup⟩
  | known _ _ _ ih | nowhere _ _ _ _ ih =>
    exact ih hnodup hchain
      (fun last hlast next hmem => hnexts last hlast next (List.mem_cons_of_mem _ hmem)) hresult
  | left _ _ _ _ _ _ ih =>
    exact ih hnodup hchain
      (fun last hlast next hmem => hnexts last hlast next (List.mem_cons_of_mem _ hmem)) hresult
  | @found path nexts _ _ _ next r hpath _ hrule _ ih =>
    cases hresult
    have hnodup' := nodup_of_longer_path hnodup hpath
    have hchain' : (path ++ [next]).IsChain g.Refers := by
      refine List.isChain_append.mpr ⟨hchain, .singleton next, fun last hlast x hx => ?_⟩
      obtain rfl : next = x := Option.some.inj hx
      exact hnexts last hlast next (List.mem_cons_self ..)
    have hedges : ∀ last ∈ (path ++ [next]).getLast?, ∀ x ∈ r.edges, g.Refers last x := by
      intro last hlast x hx
      obtain rfl : next = last := by simpa using hlast
      exact ⟨r, hrule, hx⟩
    obtain ⟨hcircle, before, hlonger, hrest⟩ := ih hnodup' hchain' hedges rfl
    exact ⟨hcircle, before, (List.prefix_append _ _).trans hlonger, hrest⟩

/-- A circle that is found is led to from the root, by a path that meets none of it before. -/
theorem exists_path_of_cycle? (hcycle : g.cycle? = some circle) :
    g.IsCircle circle ∧ ∃ before, (before ++ circle).head? = some g.root ∧
      (before ++ circle).IsChain g.Refers ∧ (before ++ circle).Nodup := by
  obtain ⟨entered, result, hsearch, hresult⟩ := exists_searches_root g
  obtain rfl := (cycle?_eq_some_iff (hresult _ (Nat.lt_succ_self _))).mp hcycle
  cases hsearch with
  | back hpath => cases hpath
  | known _ hdone => cases hdone
  | nowhere _ _ _ hlater | left _ _ _ _ hlater => cases hlater
  | @found _ _ _ _ _ _ r _ _ hrule hbelow =>
    obtain ⟨hcircle, before, ⟨later, hlater⟩, hpath⟩ :=
      hbelow.isCircle (List.nodup_singleton _) (.singleton _) fun last hlast next hedge => by
        obtain rfl : g.root = last := by simpa using hlast
        exact ⟨r, hrule, hedge⟩
    exact ⟨hcircle, before, by simp [← hlater], hpath⟩

end Closing

/-- The circle that is found is one of rules. -/
theorem hasRule_of_cycle? (hcycle : g.cycle? = some circle) :
    ∀ name ∈ circle, g.hasRule name = true :=
  fun _ => (exists_path_of_cycle? hcycle).1.hasRule

/-- What leads to a circle has a rule. -/
theorem hasRule_of_cycleBelow (hcycle : g.CycleBelow name) : g.hasRule name = true := by
  obtain ⟨x, hreach, hround⟩ := hcycle
  have hnext : ∃ next, g.Refers name next := by
    rcases hreach.cases_head with rfl | ⟨next, hrefers, -⟩
    · obtain ⟨next, hrefers, -⟩ := TransGen.head'_iff.mp hround
      exact ⟨next, hrefers⟩
    · exact ⟨next, hrefers⟩
  obtain ⟨next, r, hrule, -⟩ := hnext
  exact hasRule_iff.mpr ⟨r, hrule⟩

/-- The root leads to the circle that is found. -/
theorem cycleBelow_of_cycle? (hcycle : g.cycle? = some circle) : g.CycleBelow g.root := by
  obtain ⟨hcircle, before, hhead, hchain, -⟩ := exists_path_of_cycle? hcycle
  obtain ⟨first, hfirst⟩ : ∃ first, first ∈ circle.head? :=
    Option.ne_none_iff_exists'.mp (mt List.head?_eq_none_iff.mp hcircle.ne_nil)
  obtain ⟨x, hreach, hround⟩ := hcircle.cycleBelow hfirst
  have hroot := reaches_of_path hhead hchain
    (List.mem_append_right before (List.mem_of_mem_head? hfirst))
  exact ⟨x, hroot.trans hreach, hround⟩

end WordGrammar.Grammar
