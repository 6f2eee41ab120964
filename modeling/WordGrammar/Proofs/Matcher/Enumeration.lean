import Mathlib.Tactic.Choose
import WordGrammar.Proofs.Matcher.Language

namespace WordGrammar

namespace Matcher

open Search

variable {p : Matcher} {s : List Char} {least most n m : Nat}

/-- If as many copies as there are characters do not match, then one more does not either: where it
    matches nothing it could be left out, and where it matches something there are fewer characters
    left. -/
theorem copies_succ_eq_none (hmany : s.length ≤ n) (hnone : copies p n s = .ok none) :
    copies p (n + 1) s = .ok none := by
  induction n generalizing s with
  | zero =>
    rw [List.length_eq_zero_iff.mp (Nat.le_zero.mp hmany)] at hnone
    cases hnone
  | succ n ih =>
    have htrials : ∀ k ∈ List.range (s.length + 1), trial p (copies p n) s k = .ok none :=
      none_iff.mp hnone
    refine none_iff.mpr fun k hk => trial_eq_none_iff.mpr ?_
    rcases trial_eq_none_iff.mp (htrials k hk) with hfront | ⟨front, hfront, hback⟩
    · exact .inl hfront
    · refine .inr ⟨front, hfront, ?_⟩
      cases k with
      | zero => exact hnone
      | succ k =>
        refine ih ?_ hback
        rw [List.length_drop]
        omega

theorem copies_eq_none_of_le (hmany : s.length ≤ n) (hnone : copies p n s = .ok none)
    (hle : n ≤ m) : copies p m s = .ok none := by
  induction hle with
  | refl => exact hnone
  | step hle ih => exact copies_succ_eq_none (hmany.trans hle) ih

/-- Trying more copies changes nothing if as many as there are characters have been tried. -/
theorem search_copies_eq {last : Nat} (hlast : last ≤ most)
    (hmany : last < most → least ≤ last ∧ s.length ≤ last) :
    (List.range' least (most + 1 - least)).findSomeM? (fun n => copies p n s) =
      (List.range' least (last + 1 - least)).findSomeM? fun n => copies p n s := by
  have hsplit : List.range' least (most + 1 - least) =
      List.range' least (last + 1 - least) ++
        List.range' (least + (last + 1 - least)) (most - last) := by
    rw [List.range'_append_1]
    congr 1
    omega
  rw [hsplit, append_eq]
  cases hfirst : (List.range' least (last + 1 - least)).findSomeM? fun n => copies p n s with
  | error fault => rfl
  | ok answer =>
    cases answer with
    | some lengths => rfl
    | none =>
      refine none_iff.mpr fun n hn => ?_
      rw [List.mem_range'_1] at hn
      obtain ⟨hleast, hlength⟩ := hmany (by omega)
      have hnone := none_iff.mp hfirst last (List.mem_range'_1.mpr (by omega))
      exact copies_eq_none_of_le hlength hnone (by omega)

/-- A matcher of repetitions does as if it tried all of them. -/
theorem repeated_eq (p : Matcher) (least most : Nat) (s : List Char) :
    repeated p least most s =
      (List.range' least (most + 1 - least)).findSomeM? fun n => copies p n s :=
  (search_copies_eq (Nat.min_le_left _ _) (by omega)).symm

/-- Nor does it matter if more repetitions are not allowed than there are characters, unless so many
    are asked for. -/
theorem repeated_min (p : Matcher) (least most : Nat) (s : List Char) :
    repeated p least (min most (max least s.length)) s = repeated p least most s := by
  rw [repeated_eq, repeated_eq]
  exact (search_copies_eq (Nat.min_le_left _ _) (by omega)).symm

end Matcher

namespace Grammar

variable {W : Type} {g : Grammar W} {e : Expr W} {s : List Char} {found found' : List (List Nat)}

/-- `g.Enumerates e s found`: the text matches the expression in these ways and no others, each
    given by the lengths of its segments, and this is their order. -/
inductive Enumerates (g : Grammar W) : Expr W → List Char → List (List Nat) → Prop
  | atom (text : String) (s : List Char) :
      Enumerates g (.atom text) s (if text.toList = s then [[s.length]] else [])
  | ref {name : String} {r : Rule W} {s : List Char} {found : List (List Nat)}
      (hrule : g.rule? name = some r) (hbody : Enumerates g r.body s found) :
      Enumerates g (.ref name) s found
  | unknown {name : String} (s : List Char) (hrule : g.rule? name = none) :
      Enumerates g (.ref name) s []
  | nil (s : List Char) : Enumerates g (.seq []) s (if s = [] then [[]] else [])
  /-- However the text is cut in two, every match of the front goes with every match of the back. -/
  | cons {item : Expr W} {items : List (Expr W)} {s : List Char}
      {fronts backs : Nat → List (List Nat)}
      (hfronts : ∀ k ≤ s.length, Enumerates g item (s.take k) (fronts k))
      (hbacks : ∀ k ≤ s.length, Enumerates g (.seq items) (s.drop k) (backs k)) :
      Enumerates g (.seq (item :: items)) s
        ((List.range (s.length + 1)).flatMap fun k =>
          (fronts k).flatMap fun front => (backs k).map (front ++ ·))
  | none (s : List Char) : Enumerates g (.choice []) s []
  | alternative {a : Weighted W (Expr W)} {alternatives : List (Weighted W (Expr W))}
      {s : List Char} {first others : List (List Nat)} (hfirst : Enumerates g a.item s first)
      (hothers : Enumerates g (.choice alternatives) s others) :
      Enumerates g (.choice (a :: alternatives)) s (first ++ others)
  /-- The matches of every number of copies that is allowed, from the least to the most. -/
  | repeated {body : Expr W} {least most : Nat} {s : List Char} {copies : Nat → List (List Nat)}
      (hcopies : ∀ n, least ≤ n → n ≤ most →
        Enumerates g (.seq (List.replicate n body)) s (copies n)) :
      Enumerates g (.repeated body least most) s
        ((List.range' least (most + 1 - least)).flatMap copies)

/-- There is one list of all matches. -/
theorem Enumerates.unique (henum : g.Enumerates e s found) (henum' : g.Enumerates e s found') :
    found = found' := by
  induction henum generalizing found' with
  | atom text s =>
    cases henum'
    rfl
  | ref hrule _ ih =>
    cases henum' with
    | ref hrule' hbody =>
      rw [hrule] at hrule'
      cases hrule'
      exact ih hbody
    | unknown _ hrule' =>
      rw [hrule] at hrule'
      cases hrule'
  | unknown s hrule =>
    cases henum' with
    | ref hrule' =>
      rw [hrule] at hrule'
      cases hrule'
    | unknown => rfl
  | nil s =>
    cases henum'
    rfl
  | cons _ _ ihfronts ihbacks =>
    cases henum' with
    | cons hfronts hbacks =>
      refine List.flatMap_congr fun k hk => ?_
      have hle := Nat.le_of_lt_succ (List.mem_range.mp hk)
      rw [ihfronts k hle (hfronts k hle), ihbacks k hle (hbacks k hle)]
  | none s =>
    cases henum'
    rfl
  | alternative _ _ ihfirst ihothers =>
    cases henum' with
    | alternative hfirst hothers => rw [ihfirst hfirst, ihothers hothers]
  | repeated _ ih =>
    cases henum' with
    | repeated hcopies =>
      refine List.flatMap_congr fun n hn => ?_
      rw [List.mem_range'_1] at hn
      exact ih n hn.1 (by omega) (hcopies n hn.1 (by omega))

/-- What is listed are the lengths of the pieces that the text can be derived by. -/
theorem Enumerates.mem_iff (henum : g.Enumerates e s found) {lengths : List Nat} :
    lengths ∈ found ↔
      ∃ pieces, g.Derives e pieces ∧ pieces.flatten = s ∧ pieces.map List.length = lengths := by
  induction henum generalizing lengths with
  | atom text s =>
    simp only [derives_atom, exists_eq_left, List.flatten_singleton, List.map_singleton]
    by_cases hs : text.toList = s
    · simp [hs, eq_comm]
    · simp [hs]
  | ref hrule _ ih => simpa only [derives_ref hrule] using ih
  | unknown s hrule =>
    refine ⟨nofun, fun h => ?_⟩
    obtain ⟨_, hderives, -⟩ := h
    cases hderives with
    | ref hrule' =>
      rw [hrule] at hrule'
      cases hrule'
  | nil s =>
    simp only [derives_nil, exists_eq_left, List.flatten_nil, List.map_nil]
    by_cases hs : s = []
    · simp [hs, eq_comm]
    · simp [hs, eq_comm]
  | @cons item items s fronts backs _ _ ihfronts ihbacks =>
    simp only [List.mem_flatMap, List.mem_range, List.mem_map]
    constructor
    · intro h
      obtain ⟨k, hk, front, hfront, back, hback, rfl⟩ := h
      have hle := Nat.le_of_lt_succ hk
      obtain ⟨ahead, hitem, htake, rfl⟩ := (ihfronts k hle).mp hfront
      obtain ⟨behind, hitems, hdrop, rfl⟩ := (ihbacks k hle).mp hback
      refine ⟨ahead ++ behind, .cons hitem hitems, ?_, List.map_append⟩
      rw [List.flatten_append, htake, hdrop, List.take_append_drop]
    · intro h
      obtain ⟨pieces, hderives, rfl, rfl⟩ := h
      obtain ⟨ahead, behind, hitem, hitems, rfl⟩ := derives_cons.mp hderives
      rw [List.flatten_append] at ihfronts ihbacks ⊢
      have hle : ahead.flatten.length ≤ (ahead.flatten ++ behind.flatten).length := by
        rw [List.length_append]
        exact Nat.le_add_right _ _
      refine ⟨ahead.flatten.length, Nat.lt_succ_of_le hle, ahead.map List.length, ?_,
        behind.map List.length, ?_, List.map_append.symm⟩
      · exact (ihfronts _ hle).mpr ⟨ahead, hitem, List.take_left.symm, rfl⟩
      · exact (ihbacks _ hle).mpr ⟨behind, hitems, List.drop_left.symm, rfl⟩
  | none s => simp [derives_choice]
  | alternative _ _ ihfirst ihothers =>
    simp only [List.mem_append, ihfirst, ihothers, derives_choice, List.exists_mem_cons_iff,
      or_and_right, exists_or]
  | @repeated body least most s copies _ ih =>
    simp only [List.mem_flatMap, List.mem_range'_1]
    constructor
    · intro h
      obtain ⟨n, hn, hmem⟩ := h
      obtain ⟨pieces, hderives, hpieces⟩ := (ih n hn.1 (by omega)).mp hmem
      exact ⟨pieces, .repeated hn.1 (by omega) hderives, hpieces⟩
    · intro h
      obtain ⟨pieces, hderives, hpieces⟩ := h
      cases hderives with
      | @repeated _ _ _ n _ hleast hmost hcopies =>
        exact ⟨n, by omega, (ih n hleast hmost).mpr ⟨pieces, hcopies, hpieces⟩⟩

end Grammar

namespace Expr

variable {W : Type} {rule : String → Matcher}

theorem matcher_seq_cons (item : Expr W) (items : List (Expr W)) :
    (seq (item :: items)).matcher rule =
      Matcher.andThen (item.matcher rule) ((seq items).matcher rule) := rfl

theorem matcher_replicate (body : Expr W) (n : Nat) :
    (seq (List.replicate n body)).matcher rule = Matcher.copies (body.matcher rule) n := by
  induction n with
  | zero => rfl
  | succ n ih =>
    rw [List.replicate_succ, matcher_seq_cons, ih]
    rfl

end Expr

namespace Grammar

open Search

variable {W : Type} {g : Grammar W} {e : Expr W} {s : List Char} {found : List (List Nat)}

/-- An answer is the first match of all, with however many rules in use it comes about. -/
theorem Enumerates.eq_head? (henum : g.Enumerates e s found) {depth : Nat}
    {answer : Option (List Nat)} (hanswer : e.matcher (g.ruleMatcher depth) s = .ok answer) :
    answer = found.head? := by
  induction henum generalizing depth answer with
  | atom text s =>
    rw [Expr.matcher_atom, Matcher.literal] at hanswer
    cases hanswer
    split <;> rfl
  | @ref name r s found hrule _ ih =>
    cases depth with
    | zero => exact (ruleMatcher_zero_ne_ok name s answer hanswer).elim
    | succ depth =>
      rw [Expr.matcher_ref, ruleMatcher_succ hrule] at hanswer
      exact ih hanswer
  | unknown s hrule =>
    rw [Expr.matcher_ref, ruleMatcher_of_no_rule hrule] at hanswer
    cases hanswer
  | nil s =>
    have hempty : Matcher.empty s = .ok answer := hanswer
    rw [Matcher.empty] at hempty
    cases hempty
    cases s <;> rfl
  | @cons item items s fronts backs _ _ ihfronts ihbacks =>
    rw [Expr.matcher_seq_cons, Matcher.andThen_eq] at hanswer
    refine eq_head?_of_ok (fun k hk answer htrial => ?_) hanswer
    have hle := Nat.le_of_lt_succ (List.mem_range.mp hk)
    cases answer with
    | none =>
      rcases Matcher.trial_eq_none_iff.mp htrial with hfront | ⟨_, -, hback⟩
      · rw [List.head?_eq_none_iff.mp (ihfronts k hle hfront).symm]
        rfl
      · rw [List.head?_eq_none_iff.mp (ihbacks k hle hback).symm]
        exact (List.head?_eq_none_iff.mpr (List.flatMap_eq_nil_iff.mpr fun _ _ => rfl)).symm
    | some lengths =>
      obtain ⟨front, back, hfront, hback, rfl⟩ := Matcher.trial_eq_some htrial
      obtain ⟨others, hfronts⟩ := List.head?_eq_some_iff.mp (ihfronts k hle hfront).symm
      obtain ⟨others', hbacks⟩ := List.head?_eq_some_iff.mp (ihbacks k hle hback).symm
      rw [hfronts, hbacks]
      rfl
  | none s =>
    cases hanswer
    rfl
  | @alternative a alternatives s first others _ _ ihfirst ihothers =>
    rw [Expr.matcher_choice] at hanswer
    obtain ⟨answer', hfirst, hrest⟩ := Outcome.bind_eq_ok_iff.mp hanswer
    rw [List.head?_append, ← ihfirst hfirst]
    cases answer' with
    | some lengths =>
      cases hrest
      rfl
    | none =>
      have hothers : (Expr.choice alternatives).matcher (g.ruleMatcher depth) s = .ok answer := by
        rw [Expr.matcher_choice]
        exact hrest
      exact ihothers hothers
  | @repeated body least most s copies _ ih =>
    rw [Expr.matcher_repeated, Matcher.repeated_eq] at hanswer
    refine eq_head?_of_ok (fun n hn answer hcopies => ?_) hanswer
    rw [List.mem_range'_1] at hn
    rw [← Expr.matcher_replicate] at hcopies
    exact ih n hn.1 (by omega) hcopies

theorem exists_enumerates_seq {items : List (Expr W)}
    (hitems : ∀ item ∈ items, ∀ s, ∃ found, g.Enumerates item s found) (s : List Char) :
    ∃ found, g.Enumerates (.seq items) s found := by
  induction items generalizing s with
  | nil => exact ⟨_, .nil s⟩
  | cons item items ih =>
    obtain ⟨hitem, hrest⟩ := List.forall_mem_cons.mp hitems
    choose fronts hfronts using hitem
    choose backs hbacks using ih hrest
    exact ⟨_, .cons (fun k _ => hfronts (s.take k)) fun k _ => hbacks (s.drop k)⟩

/-- All matches can be listed if those of the rules referred to can. -/
theorem exists_enumerates_of_refs (hplain : e.hasCaptures = false)
    (hrefs : ∀ name ∈ e.references, ∀ s, ∃ found, g.Enumerates (.ref name) s found)
    (s : List Char) : ∃ found, g.Enumerates e s found := by
  induction e generalizing s with
  | atom text => exact ⟨_, .atom text s⟩
  | ref name => exact hrefs name (List.mem_singleton_self name) s
  | capture index => cases hplain
  | seq items ih =>
    simp only [Expr.hasCaptures_seq, List.any_eq_false, Bool.not_eq_true] at hplain
    simp only [Expr.references_seq, List.mem_flatMap] at hrefs
    refine exists_enumerates_seq (fun item hmem => ?_) s
    exact ih item hmem (hplain item hmem) fun name hname => hrefs name ⟨item, hmem, hname⟩
  | choice alternatives ih =>
    simp only [Expr.hasCaptures_choice, List.any_eq_false, Bool.not_eq_true] at hplain
    simp only [Expr.references_choice, List.mem_flatMap] at hrefs
    have hitems : ∀ a ∈ alternatives, ∃ found, g.Enumerates a.item s found := fun a hmem =>
      ih a hmem (hplain a hmem) (fun name hname => hrefs name ⟨a, hmem, hname⟩) s
    clear ih hplain hrefs
    induction alternatives with
    | nil => exact ⟨_, .none s⟩
    | cons a alternatives ih =>
      obtain ⟨⟨first, hfirst⟩, hrest⟩ := List.forall_mem_cons.mp hitems
      obtain ⟨others, hothers⟩ := ih hrest
      exact ⟨_, .alternative hfirst hothers⟩
  | repeated body least most ih =>
    have hcopies (n : Nat) : ∃ found, g.Enumerates (.seq (List.replicate n body)) s found := by
      refine exists_enumerates_seq (fun item hmem => ?_) s
      rw [List.eq_of_mem_replicate hmem]
      exact ih hplain hrefs
    choose copies hcopies using hcopies
    exact ⟨_, .repeated fun n _ _ => hcopies n⟩

theorem Shallow.exists_enumerates (hbodies : g.CaptureFree) {depth : Nat} {name : String}
    (hshallow : g.Shallow depth name) (s : List Char) :
    ∃ found, g.Enumerates (.ref name) s found := by
  induction depth generalizing name s with
  | zero => exact hshallow.elim
  | succ depth ih =>
    cases hrule : g.rule? name with
    | none => exact ⟨_, .unknown s hrule⟩
    | some r =>
      have hbody : ∃ found, g.Enumerates r.body s found :=
        exists_enumerates_of_refs (hbodies r (mem_rules_of_rule? hrule))
          (fun next hnext => ih (hshallow next ⟨r, hrule, hnext⟩)) s
      obtain ⟨found, hfound⟩ := hbody
      exact ⟨found, .ref hrule hfound⟩

/-- Where no circle of references can be reached, all matches can be listed. -/
theorem exists_enumerates_of_acyclic (hresolved : g.Resolved) (hbodies : g.CaptureFree)
    (hplain : e.hasCaptures = false) (hacyclic : ∀ name ∈ e.references, ¬ g.CycleBelow name)
    (s : List Char) : ∃ found, g.Enumerates e s found := by
  refine exists_enumerates_of_refs hplain (fun name hname s => ?_) s
  cases hrule : g.rule? name with
  | none => exact ⟨_, .unknown s hrule⟩
  | some r =>
    have hshallow : g.Shallow g.rules.length name :=
      shallow_of_acyclic hresolved (hasRule_iff.mpr ⟨r, hrule⟩) (hacyclic name hname)
    exact hshallow.exists_enumerates hbodies s

/-- Where no circle of references can be reached, nothing is at fault but references of the
    expression itself that name no rule. -/
theorem answer_or_unknown_of_acyclic (hresolved : g.Resolved) (hbodies : g.CaptureFree)
    (hplain : e.hasCaptures = false) (hacyclic : ∀ name ∈ e.references, ¬ g.CycleBelow name)
    (s : List Char) :
    (∃ answer, g.matcher e s = .ok answer) ∨ ∃ name ∈ e.references,
      g.hasRule name = false ∧ g.matcher e s = .error (.unknownRule name) := by
  have hraises : (e.matcher (g.ruleMatcher g.rules.length)).Raises fun fault =>
      ∃ name ∈ e.references, g.hasRule name = false ∧ fault = .unknownRule name := by
    refine e.matcher_raises (fun name hname s fault herror => ?_) fun index hindex => ?_
    · cases hrule : g.rule? name with
      | none =>
        rw [ruleMatcher_of_no_rule hrule] at herror
        cases herror
        have hnone : g.hasRule name = false :=
          Option.isSome_eq_false_iff.mpr (Option.isNone_iff_eq_none.mpr hrule)
        exact ⟨name, hname, hnone, rfl⟩
      | some r =>
        have hrules : g.hasRule name = true := hasRule_iff.mpr ⟨r, hrule⟩
        have hshallow : g.Shallow g.rules.length name :=
          shallow_of_acyclic hresolved hrules (hacyclic name hname)
        exact (hshallow.ruleMatcher_raises hresolved hbodies hrules s fault herror).elim
    · exact (Expr.not_contains_capture hplain index hindex).elim
  cases hanswer : e.matcher (g.ruleMatcher g.rules.length) s with
  | ok answer => exact .inl ⟨answer, matcher_of_ruleMatcher hanswer⟩
  | error fault =>
    obtain ⟨name, hname, hnone, rfl⟩ := hraises s fault hanswer
    refine .inr ⟨name, hname, hnone, ?_⟩
    rw [matcher_eq_of_ruleMatcher, hanswer]
    rw [hanswer]
    exact nofun

/-- Matching answers with the first of all matches. Where no circle of references can be reached,
    these can be listed, in one order, and are the lengths of the pieces of all derivations of the
    text; the head of the list is the answer, unless the expression refers to a rule that there is
    not. Further repetitions than the text has characters are no use, unless so many are asked
    for. -/
theorem match?_eq_head? (hresolved : g.Resolved) (hbodies : g.CaptureFree)
    (hplain : e.hasCaptures = false) (hacyclic : ∀ name ∈ e.references, ¬ g.CycleBelow name)
    (text : String) :
    (∃ found, (∀ found', g.Enumerates e text.toList found' ↔ found' = found) ∧
      (∀ lengths, lengths ∈ found ↔ ∃ pieces, g.Derives e pieces ∧
        pieces.flatten = text.toList ∧ pieces.map List.length = lengths) ∧
      (g.match? e text = .ok found.head? ∨ ∃ name ∈ e.references, g.hasRule name = false ∧
        g.match? e text = .error (.unknownRule name))) ∧
    ∀ body least most, least ≤ most →
      g.match? (.repeated body least (min most (max least text.length))) text =
        g.match? (.repeated body least most) text := by
  refine ⟨?_, fun body least most _ => ?_⟩
  · obtain ⟨found, henum⟩ :=
      exists_enumerates_of_acyclic hresolved hbodies hplain hacyclic text.toList
    refine ⟨found, fun found' => ⟨fun henum' => henum'.unique henum, ?_⟩,
      fun lengths => henum.mem_iff, ?_⟩
    · rintro rfl
      exact henum
    · refine (answer_or_unknown_of_acyclic hresolved hbodies hplain hacyclic _).imp_left fun h => ?_
      obtain ⟨answer, hanswer⟩ := h
      rw [match?, hanswer, henum.eq_head? hanswer]
  · rw [← String.length_toList]
    exact Matcher.repeated_min _ _ _ _

/-- A rule whose words may be empty. -/
def stretching : Grammar Nat where
  rules := [⟨"V", .choice [⟨.atom "", 1⟩, ⟨.atom "a", 1⟩, ⟨.atom "aa", 1⟩], [], []⟩]
  root := "V"
  useWeights := false

/-- Two of its words, and as many more as memory has addresses for. -/
def stretched : Expr Nat := .repeated (.ref "V") 2 18446744073709551615

theorem match?_eq_head?_stretched :
    stretching.Resolved ∧ stretching.CaptureFree ∧ stretched.hasCaptures = false ∧
      (∀ name ∈ stretched.references, ¬ stretching.CycleBelow name) ∧
      stretching.match? stretched "aa" = .ok (some [0, 2]) ∧
      (∃ others, stretching.Enumerates stretched "aa".toList ([0, 2] :: others) ∧
        [1, 1, 0] ∈ others) ∧
      stretching.match? (.repeated (.ref "V") 2 2) "aa" = stretching.match? stretched "aa" := by
  have hresolved : stretching.Resolved := by decide
  have hbodies : stretching.CaptureFree := by decide
  have hplain : stretched.hasCaptures = false := by decide
  have hacyclic : ∀ name ∈ stretched.references, ¬ stretching.CycleBelow name :=
    fun name _ => not_cycleBelow_of_flat (by decide) name
  have hmatch : stretching.match? stretched "aa" = .ok (some [0, 2]) := by rfl
  obtain ⟨⟨found, henum, hmem, hanswer⟩, hmin⟩ :=
    match?_eq_head? hresolved hbodies hplain hacyclic "aa"
  refine ⟨hresolved, hbodies, hplain, hacyclic, hmatch, ?_,
    hmin (.ref "V") 2 18446744073709551615 (by decide)⟩
  have hhead : found.head? = some [0, 2] := by
    rw [hmatch] at hanswer
    obtain hfirst | ⟨_, -, -, hfault⟩ := hanswer
    · exact (Except.ok.inj hfirst).symm
    · cases hfault
  obtain ⟨others, rfl⟩ := List.head?_eq_some_iff.mp hhead
  -- two letters and an empty word are another way, but not the first
  have hletter : stretching.Derives (.ref "V") ["a".toList] :=
    .ref rfl (.choice (List.mem_cons_of_mem _ (List.mem_cons_self ..)) (.atom "a"))
  have hempty : stretching.Derives (.ref "V") ["".toList] :=
    .ref rfl (.choice (List.mem_cons_self ..) (.atom ""))
  have hthree : [1, 1, 0] ∈ [0, 2] :: others :=
    (hmem _).mpr ⟨["a".toList, "a".toList, "".toList],
      .repeated (n := 3) (by decide) (by decide)
        (.cons hletter (.cons hletter (.cons hempty .nil))),
      rfl, rfl⟩
  exact ⟨others, (henum _).mpr rfl, by simpa using hthree⟩

end Grammar

end WordGrammar
