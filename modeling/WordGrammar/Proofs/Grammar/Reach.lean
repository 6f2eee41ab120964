import WordGrammar.Proofs.Grammar.Combinations
import WordGrammar.Proofs.Grammar.Cycle
import WordGrammar.Proofs.Grammar.WellFormed

namespace WordGrammar

open Relation

variable {W : Type}

namespace Grammar

variable {g g' : Grammar W} {names : String → Prop}

/-- Some expression of the rule `a` refers to `b`. -/
def Mentions (g : Grammar W) (a b : String) : Prop :=
  ∃ r, g.rule? a = some r ∧ b ∈ r.references

/-- References lead from the root to the name, through whatever expressions of rules. -/
def Reaches (g : Grammar W) (name : String) : Prop :=
  ReflTransGen g.Mentions g.root name

theorem Reaches.hasRule (hresolved : g.Resolved) {name : String} (hreaches : g.Reaches name) :
    name = g.root ∨ g.hasRule name = true := by
  obtain rfl | ⟨previous, -, r, hrule, hnext⟩ := hreaches.cases_tail
  · exact .inl rfl
  · exact .inr (hresolved r (mem_rules_of_rule? hrule) name hnext)

/-- Names whose rules refer to none but them, and the root with them, are all that is reached. -/
theorem Reaches.mem_of_closed {reached : List String} (hroot : g.root ∈ reached)
    (hclosed : ∀ name ∈ reached, ∀ r, g.rule? name = some r → r.references ⊆ reached)
    {name : String} (hreaches : g.Reaches name) : name ∈ reached := by
  induction hreaches with
  | refl => exact hroot
  | tail _ hmentions ih =>
    obtain ⟨r, hrule, hnext⟩ := hmentions
    exact hclosed _ ih r hrule hnext

/-- The names stand for the same rules in both grammars, and these refer to no others. Where rules
    stand, and which there are besides, shows only in how many there are, which bounds how deep
    evaluations nest. -/
structure Agree (g g' : Grammar W) (names : String → Prop) : Prop where
  rule? : ∀ name, names name → g.rule? name = g'.rule? name
  closed : ∀ name r, names name → g.rule? name = some r → ∀ next ∈ r.references, names next

namespace Agree

theorem symm (hagree : g.Agree g' names) : g'.Agree g names where
  rule? name hname := (hagree.rule? name hname).symm
  closed name r hname hrule := hagree.closed name r hname ((hagree.rule? name hname).trans hrule)

/-- Grammars agree on what can be reached in one of them if it stands for the same rules. -/
theorem of_reaches (hrules : ∀ name, g.Reaches name → g.rule? name = g'.rule? name) :
    g.Agree g' g.Reaches where
  rule? := hrules
  closed _ r hreaches hrule _ hnext := hreaches.tail ⟨r, hrule, hnext⟩

theorem hasRule_eq (hagree : g.Agree g' names) {name : String} (hname : names name) :
    g.hasRule name = g'.hasRule name := by
  rw [hasRule, hasRule, hagree.rule? name hname]

theorem of_expression (hagree : g.Agree g' names) {name : String} (hname : names name) {r : Rule W}
    (hrule : g.rule? name = some r) {e : Expr W} (he : e ∈ r.expressions) {next : String}
    (hnext : e.Contains (.ref next)) : names next := by
  apply hagree.closed name r hname hrule
  exact Rule.mem_references_iff.mpr ⟨e, he, Expr.mem_references_iff.mpr hnext⟩

theorem of_body (hagree : g.Agree g' names) {name : String} (hname : names name) {r : Rule W}
    (hrule : g.rule? name = some r) {next : String} (hnext : r.body.Contains (.ref next)) :
    names next :=
  hagree.of_expression hname hrule (r.patterns_subset (List.mem_cons_self ..)) hnext

end Agree

section Searching

theorem follow_congr {path : List String} {visit visit' : String → List String → Search}
    {nexts : List String}
    (hvisit : ∀ next ∈ nexts, next ∉ path → visit next = visit' next) (done : List String) :
    follow path visit nexts done = follow path visit' nexts done := by
  induction nexts generalizing done with
  | nil => rfl
  | cons next nexts ih =>
    obtain ⟨hnext, hrest⟩ := List.forall_mem_cons.mp hvisit
    rw [follow, follow]
    by_cases hpath : next ∈ path
    · rw [if_pos hpath, if_pos hpath]
    · rw [if_neg hpath, if_neg hpath, hnext hpath, ih hrest]
      simp only [ih hrest]

theorem Agree.visit_eq (hagree : g.Agree g' names) (depth : Nat) (path : List String)
    {name : String} (hname : names name) : g.visit depth path name = g'.visit depth path name := by
  induction depth generalizing path name with
  | zero => rfl
  | succ depth ih =>
    funext done
    rw [visit, visit, ← hagree.rule? name hname]
    cases hrule : g.rule? name with
    | none => rfl
    | some r =>
      have hfollow : follow (path ++ [name]) (g.visit depth (path ++ [name])) r.edges done =
          follow (path ++ [name]) (g'.visit depth (path ++ [name])) r.edges done := by
        refine follow_congr (fun next hedge _ => ih _ ?_) done
        exact hagree.of_body hname hrule (Expr.mem_references_iff.mp hedge)
      simp only [hfollow]

/-- The search from the root comes to the same. -/
theorem Agree.cycle?_eq (hagree : g.Agree g' names) (hroot : g.root = g'.root)
    (hname : names g.root) : g.cycle? = g'.cycle? := by
  have hdeep := visit_root_eq (g := g) (Nat.lt_succ_of_le (Nat.le_max_left _ g'.rules.length))
  have hdeep' := visit_root_eq (g := g') (Nat.lt_succ_of_le (Nat.le_max_right g.rules.length _))
  rw [cycle?, cycle?, ← hdeep, ← hdeep', hagree.visit_eq _ _ hname, hroot]

end Searching

end Grammar

open Combinations

namespace Expr

variable {rule rule' : String → Tally}

theorem tallyItems_congr {items : List (Expr W)}
    (hitems : ∀ item ∈ items, item.tally rule = item.tally rule') (product : Nat) :
    tallyItems rule product items = tallyItems rule' product items := by
  induction items generalizing product with
  | nil => rfl
  | cons item items ih =>
    obtain ⟨hitem, hrest⟩ := List.forall_mem_cons.mp hitems
    simp only [tallyItems, hitem, ih hrest]

theorem tallyAlternatives_congr {alternatives : List (Weighted W (Expr W))}
    (halternatives : ∀ a ∈ alternatives, a.item.tally rule = a.item.tally rule') (sum : Nat) :
    tallyAlternatives rule sum alternatives = tallyAlternatives rule' sum alternatives := by
  induction alternatives generalizing sum with
  | nil => rfl
  | cons a alternatives ih =>
    obtain ⟨ha, hrest⟩ := List.forall_mem_cons.mp halternatives
    simp only [tallyAlternatives, ha, ih hrest]

/-- Counting asks only for the rules referred to. -/
theorem tally_congr (e : Expr W)
    (hrule : ∀ name, e.Contains (.ref name) → rule name = rule' name) :
    e.tally rule = e.tally rule' := by
  induction e with
  | atom text => rfl
  | ref name => exact hrule name (.self _)
  | capture index => rfl
  | seq items ih =>
    refine tallyItems_congr (fun item hmem => ih item hmem ?_) 1
    exact fun name hname => hrule name (.item hmem hname)
  | choice alternatives ih =>
    refine tallyAlternatives_congr (fun a hmem => ih a hmem ?_) 0
    exact fun name hname => hrule name (.alternative hmem hname)
  | repeated body least most ih =>
    rw [tally, tally, ih fun name hname => hrule name (.body hname)]

end Expr

namespace Grammar

/-- If it gives a number, and none of the rules on record before leads to a circle, then none of
    those on record after it does, and `P` holds. -/
def Clears (g : Grammar W) (t : Tally) (P : Prop) : Prop :=
  ∀ counts n counts', t.run counts = .ok (n, counts') → g.Clear (counts.map Prod.fst) →
    g.Clear (counts'.map Prod.fst) ∧ P

variable {g : Grammar W} {P Q : Prop} {t : Tally}

theorem Clears.imp (ht : g.Clears t P) (himp : P → Q) : g.Clears t Q := by
  intro counts n counts' hrun hcounts
  obtain ⟨hclear, hP⟩ := ht counts n counts' hrun hcounts
  exact ⟨hclear, himp hP⟩

theorem Clears.pure (n : Nat) (hP : P) : g.Clears (Pure.pure n) P := by
  intro counts m counts' hrun hcounts
  cases hrun
  exact ⟨hcounts, hP⟩

theorem Clears.bind {f : Nat → Tally} (ht : g.Clears t P) (hf : ∀ n, g.Clears (f n) Q) :
    g.Clears (t >>= f) (P ∧ Q) := by
  intro counts n counts'' hrun hcounts
  rw [StateT.run_bind] at hrun
  obtain ⟨⟨m, counts'⟩, hfirst, hsecond⟩ := Outcome.bind_eq_ok_iff.mp hrun
  obtain ⟨hclear, hP⟩ := ht counts m counts' hfirst hcounts
  obtain ⟨hclear', hQ⟩ := hf m counts' n counts'' hsecond hclear
  exact ⟨hclear', hP, hQ⟩

variable {rule : String → Tally}

theorem Clears.items {items : List (Expr W)} {P : Expr W → Prop}
    (hitems : ∀ item ∈ items, g.Clears (item.tally rule) (P item)) (product : Nat) :
    g.Clears (Expr.tallyItems rule product items) (∀ item ∈ items, P item) := by
  induction items generalizing product with
  | nil => exact .pure product nofun
  | cons item items ih =>
    obtain ⟨hitem, hrest⟩ := List.forall_mem_cons.mp hitems
    exact (hitem.bind fun n => ih hrest _).imp List.forall_mem_cons.mpr

theorem Clears.alternatives {alternatives : List (Weighted W (Expr W))}
    {P : Weighted W (Expr W) → Prop}
    (halternatives : ∀ a ∈ alternatives, g.Clears (a.item.tally rule) (P a)) (sum : Nat) :
    g.Clears (Expr.tallyAlternatives rule sum alternatives) (∀ a ∈ alternatives, P a) := by
  induction alternatives generalizing sum with
  | nil => exact .pure sum nofun
  | cons a alternatives ih =>
    obtain ⟨ha, hrest⟩ := List.forall_mem_cons.mp halternatives
    exact (ha.bind fun n => ih hrest _).imp List.forall_mem_cons.mpr

/-- An expression has a count only if every rule that it refers to has. -/
theorem Clears.expression (e : Expr W)
    (hrule : ∀ name, e.Contains (.ref name) → g.Clears (rule name) (¬ g.CycleBelow name)) :
    g.Clears (e.tally rule) (∀ name, e.Contains (.ref name) → ¬ g.CycleBelow name) := by
  induction e with
  | atom text => exact .pure 1 (by simp)
  | ref name =>
    refine (hrule name (.self _)).imp fun hname next hnext => ?_
    cases Expr.contains_ref.mp hnext
    exact hname
  | capture index =>
    intro counts n counts' hrun
    cases hrun
  | seq items ih =>
    have hitems : ∀ item ∈ items, g.Clears (item.tally rule)
        (∀ name, item.Contains (.ref name) → ¬ g.CycleBelow name) :=
      fun item hmem => ih item hmem fun name hname => hrule name (.item hmem hname)
    refine (Clears.items hitems 1).imp fun hall name hname => ?_
    cases hname with
    | item hmem hitem => exact hall _ hmem name hitem
  | choice alternatives ih =>
    have halternatives : ∀ a ∈ alternatives, g.Clears (a.item.tally rule)
        (∀ name, a.item.Contains (.ref name) → ¬ g.CycleBelow name) :=
      fun a hmem => ih a hmem fun name hname => hrule name (.alternative hmem hname)
    refine (Clears.alternatives halternatives 0).imp fun hall name hname => ?_
    cases hname with
    | alternative hmem hitem => exact hall _ hmem name hitem
  | repeated body least most ih =>
    have hbody := ih fun name hname => hrule name (.body hname)
    have hpowers (n : Nat) : g.Clears (ofRepetition n least most) True := by
      intro counts m counts' hrun hcounts
      obtain ⟨_, _, hdone⟩ := Outcome.bind_eq_ok_iff.mp hrun
      cases hdone
      exact ⟨hcounts, trivial⟩
    refine (hbody.bind hpowers).imp fun hall name hname => ?_
    cases hname with
    | body hcontains => exact hall.1 name hcontains

/-- A rule has a count only if it leads to no circle. -/
theorem Clears.tally (depth : Nat) (name : String) :
    g.Clears (g.tally depth name) (¬ g.CycleBelow name) := by
  induction depth generalizing name with
  | zero =>
    intro counts n counts' hrun
    unfold Grammar.tally at hrun
    split at hrun <;> cases hrun
  | succ depth ih =>
    intro counts n counts' hrun hcounts
    cases hrule : g.rule? name with
    | none =>
      simp only [Grammar.tally, hrule] at hrun
      cases hrun
    | some r =>
      cases hlookup : counts.lookup name with
      | some m =>
        rw [tally_of_lookup hrule hlookup] at hrun
        cases hrun
        obtain ⟨before, after, heq, -⟩ := List.lookup_eq_some_iff.mp hlookup
        exact ⟨hcounts, hcounts name (by simp [heq])⟩
      | none =>
        rw [tally_of_no_lookup hrule hlookup] at hrun
        obtain ⟨⟨m, between⟩, hbody, hok⟩ := Outcome.bind_eq_ok_iff.mp hrun
        cases hok
        obtain ⟨hclear, hnexts⟩ :=
          Clears.expression r.body (fun next _ => ih next) _ _ _ hbody hcounts
        have hname : ¬ g.CycleBelow name := by
          refine not_cycleBelow_of_refers fun next hrefers => ?_
          obtain ⟨r', hr', hedge⟩ := hrefers
          rw [hrule] at hr'
          cases hr'
          exact hnexts next (Expr.mem_references_iff.mp hedge)
        exact ⟨clear_cons.mpr ⟨hname, hclear⟩, hname⟩

/-- With depth enough for every chain of references, more makes no difference to a count. -/
theorem Shallow.tally_eq {depth depth' : Nat} {name : String} (hshallow : g.Shallow depth name)
    (hle : depth ≤ depth') : g.tally depth' name = g.tally depth name := by
  induction depth generalizing depth' name with
  | zero => exact hshallow.elim
  | succ depth ih =>
    obtain ⟨depth', rfl⟩ := Nat.exists_eq_add_one_of_ne_zero (Nat.ne_zero_of_lt hle)
    rw [Grammar.tally, Grammar.tally]
    cases hrule : g.rule? name with
    | none => rfl
    | some r =>
      have hbody : r.body.tally (g.tally depth') = r.body.tally (g.tally depth) := by
        refine r.body.tally_congr fun next hnext => ?_
        have hrefers : g.Refers name next := ⟨r, hrule, Expr.mem_references_iff.mpr hnext⟩
        exact ih (hshallow next hrefers) (Nat.le_of_succ_le_succ hle)
      simp only [hbody]

variable {g' : Grammar W} {names : String → Prop}

theorem Agree.tally_eq (hagree : g.Agree g' names) (depth : Nat) {name : String}
    (hname : names name) : g.tally depth name = g'.tally depth name := by
  induction depth generalizing name with
  | zero => rw [Grammar.tally, Grammar.tally, hagree.hasRule_eq hname]
  | succ depth ih =>
    rw [Grammar.tally, Grammar.tally, ← hagree.rule? name hname]
    cases hrule : g.rule? name with
    | none => rfl
    | some r =>
      have hbody : r.body.tally (g.tally depth) = r.body.tally (g'.tally depth) :=
        r.body.tally_congr fun next hnext => ih (hagree.of_body hname hrule hnext)
      simp only [hbody]

theorem combinations_eq_ok_iff {count : Nat} :
    g.combinations = .ok count ↔ g.hasRule g.root = true ∧
      ∃ counts, (g.tally (g.rules.length + 1) g.root).run [] = .ok (count, counts) := by
  unfold combinations
  by_cases hroot : g.hasRule g.root = true
  · rw [if_pos hroot]
    cases hrun : (g.tally (g.rules.length + 1) g.root).run [] with
    | error fault => simp
    | ok counted => simp [hroot, Prod.ext_iff]
  · simp [hroot]

theorem combinations_eq_failed_iff {error : GenerationError} :
    g.combinations = .error (.failed error) ↔
      g.hasRule g.root = false ∧ error = .rootNotFound g.root := by
  unfold combinations
  by_cases hroot : g.hasRule g.root = true
  · rw [if_pos hroot]
    cases (g.tally (g.rules.length + 1) g.root).run [] with
    | error fault => simp [hroot]
    | ok counted => simp [hroot]
  · simp [hroot, eq_comm]

/-- A count of the one grammar is the count of the other. -/
theorem Agree.combinations_eq_ok (hagree : g.Agree g' names) (hresolved : g.Resolved)
    (hresolved' : g'.Resolved) (hroot : g.root = g'.root) (hname : names g.root) {count : Nat}
    (hcount : g.combinations = .ok count) : g'.combinations = .ok count := by
  obtain ⟨hrule, counts, hrun⟩ := combinations_eq_ok_iff.mp hcount
  have hrule' : g'.hasRule g.root = true := (hagree.hasRule_eq hname).symm.trans hrule
  have hrun' := hrun
  rw [hagree.tally_eq _ hname] at hrun'
  have hshallow : g.Shallow g.rules.length g.root :=
    shallow_of_acyclic hresolved hrule (Clears.tally _ _ _ _ _ hrun nofun).2
  have hshallow' : g'.Shallow g'.rules.length g.root :=
    shallow_of_acyclic hresolved' hrule' (Clears.tally _ _ _ _ _ hrun' nofun).2
  have htally : g.tally (g.rules.length + 1) g.root = g'.tally (g'.rules.length + 1) g.root := by
    rw [hshallow.tally_eq (Nat.le_succ _), hshallow'.tally_eq (Nat.le_succ _),
      ← hshallow.tally_eq (Nat.le_max_left _ g'.rules.length), hagree.tally_eq _ hname,
      hshallow'.tally_eq (Nat.le_max_right _ _)]
  rw [combinations_eq_ok_iff, ← hroot]
  exact ⟨hrule', counts, htally ▸ hrun⟩

/-- Counting comes to the same, unless it is at fault in both grammars. -/
theorem Agree.combinations_eq_iff (hagree : g.Agree g' names) (hresolved : g.Resolved)
    (hresolved' : g'.Resolved) (hroot : g.root = g'.root) (hname : names g.root)
    {result : Except Stop Nat} (hresult : ∀ fault, result ≠ .error (.faulted fault)) :
    g.combinations = result ↔ g'.combinations = result := by
  cases result with
  | ok count =>
    constructor
    · exact hagree.combinations_eq_ok hresolved hresolved' hroot hname
    · exact hagree.symm.combinations_eq_ok hresolved' hresolved hroot.symm (hroot ▸ hname)
  | error why =>
    cases why with
    | failed error =>
      rw [combinations_eq_failed_iff, combinations_eq_failed_iff, hagree.hasRule_eq hname, hroot]
    | faulted fault => exact (hresult fault rfl).elim

end Grammar

end WordGrammar
