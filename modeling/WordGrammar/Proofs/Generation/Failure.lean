import WordGrammar.Proofs.Generation.Captures
import WordGrammar.Proofs.Generation.Nesting
import WordGrammar.Proofs.Generation.Trace

namespace WordGrammar

section Makers

variable {rule : String → Sampler (List Char)} {names : String → Prop}
  {owns : GenerationError → Prop} {α β : Type}

/-- Whatever failure a run of what is made ends in, it is one of its own, or that of a word called
    for of a rule with one of the names. -/
def FailsBy (rule : String → Sampler (List Char)) (names : String → Prop)
    (owns : GenerationError → Prop) (make : Maker α) : Prop :=
  ∀ source error left told,
    (make rule).run? source = some ⟨.error (.failed error), left, told⟩ →
      owns error ∨ ∃ name between events, names name ∧
        PartOf rule (fun rule => rule name) between make source ∧
        (rule name).run? between = some ⟨.error (.failed error), left, events⟩

namespace FailsBy

theorem own {p : Sampler α} (hp : ∀ error, p.Ends (.error (.failed error)) → owns error) :
    FailsBy rule names owns fun _ => p :=
  fun _ error _ _ hrun => .inl (hp error (Sampler.ends_of_run? hrun))

theorem done (a : α) : FailsBy rule names owns fun _ => Sampler.done a :=
  FailsBy.own nofun

theorem faulted (fault : Fault) :
    FailsBy rule names owns fun _ => (Sampler.stop (.faulted fault) : Sampler α) :=
  FailsBy.own nofun

theorem call {name : String} (hname : names name) :
    FailsBy rule names owns fun rule => rule name :=
  fun source _ _ told hrun => .inr ⟨name, source, told, hname, .here, hrun⟩

theorem bind {make : Maker α} {next : α → Maker β} (hmake : FailsBy rule names owns make)
    (hnext : ∀ a, FailsBy rule names owns (next a)) :
    FailsBy rule names owns fun rule => make rule >>= fun a => next a rule := by
  intro source error left told hrun
  rcases Sampler.exists_of_run?_bind hrun with hfirst | ⟨a, between, _, _, hfirst, hsecond⟩
  · rcases hmake _ _ _ _ hfirst with howned | ⟨name, at', events, hname, hpart, hcall⟩
    · exact .inl howned
    · exact .inr ⟨name, at', events, hname, .first hpart, hcall⟩
  · rcases hnext a _ _ _ _ hsecond with howned | ⟨name, at', events, hname, hpart, hcall⟩
    · exact .inl howned
    · exact .inr ⟨name, at', events, hname, .later hfirst hpart, hcall⟩

theorem law : Maker.Law fun _ => FailsBy rule names owns where
  done := .done
  tell event := .own fun _ hends => by cases Sampler.ends_note.mp hends
  bind := .bind

end FailsBy

end Makers

variable {W : Type} [Weight W] {rule : String → Sampler (List Char)} {names : String → Prop}
  {owns : GenerationError → Prop}

namespace Sampler

theorem ask_not_failed (d : Draw) (error : GenerationError) :
    ¬ (ask d).Ends (.error (.failed error)) := by
  intro hends
  obtain ⟨answer, hanswer⟩ := ends_draw.mp hends
  cases hanswer

/-- Drawing a position does not fail. -/
theorem position_not_failed (useWeights : Bool) (weights : List W) (error : GenerationError) :
    ¬ (position useWeights weights).Ends (.error (.failed error)) := by
  intro hends
  unfold position at hends
  split at hends
  · rcases ends_bind_error.mp hends with hask | ⟨_, -, hdone⟩
    · exact ask_not_failed _ error hask
    · cases hdone
  · rcases ends_bind_error.mp hends with hask | ⟨_, -, hdone⟩
    · exact ask_not_failed _ error hask
    · cases hdone

end Sampler

namespace Expr

variable {useWeights : Bool} {captures : Option (List (List Char))}

/-- A capture fails if there are no more than as many as its index. -/
theorem exists_of_captured {index : Nat} {error : GenerationError}
    (hends : (captured captures index).Ends (.error (.failed error))) :
    ∃ texts, captures = some texts ∧ texts.length ≤ index ∧
      error = .captureOutOfRange index texts.length := by
  cases captures with
  | none => cases hends
  | some texts =>
    unfold captured at hends
    dsimp only at hends
    split at hends
    · cases hends
    · rename_i hnone
      cases hends
      exact ⟨texts, rfl, List.getElem?_eq_none_iff.mp hnone, rfl⟩

/-- Expanding fails by a word of a rule that is referred to, or for a capture beyond those there
    are. -/
theorem expand_failsBy (e : Expr W) (hnames : ∀ name, e.Contains (.ref name) → names name)
    (hown : ∀ index texts, captures = some texts → e.Contains (.capture index) →
      texts.length ≤ index → owns (.captureOutOfRange index texts.length)) :
    FailsBy rule names owns fun rule => e.expand rule useWeights captures := by
  refine e.expand_keeps FailsBy.law ⟨fun name hname => .call (hnames name hname), ?_, ?_, ?_, ?_⟩
  · intro index hindex
    refine .own fun error hends => ?_
    obtain ⟨texts, hsome, hle, rfl⟩ := exists_of_captured hends
    exact hown index texts hsome hindex hle
  · exact fun _ _ _ => .own fun error hends => (Sampler.position_not_failed _ _ error hends).elim
  · exact fun _ _ _ _ _ => .own fun error hends => (Sampler.ask_not_failed _ error hends).elim
  · exact fun _ _ _ _ _ => .faulted _

end Expr

namespace Grammar

open Relation

variable {g : Grammar W} {r : Rule W} {source left : Source} {error : GenerationError}
  {told : List Event}

/-- A substitution fails in the expansion of its replacement, for one of the matches that it comes
    to. -/
theorem exists_match_of_substituteFrom {name : String} {s : Substitution W} {word : List Char}
    (hrun : (g.substituteFrom rule name s word 0).run? source =
      some ⟨.error (.failed error), left, told⟩) :
    ∃ before stretch segments after rest written between told told',
      (g.matcher s.target).Scans word (before ++ .matched stretch segments :: after) rest ∧
      (before.foldlM (g.writePiece rule name s.replacement) []).run? source =
        some ⟨.ok written, between, told⟩ ∧
      (s.replacement.expand rule g.useWeights (some (cut segments stretch))).run? between =
        some ⟨.error (.failed error), left, told'⟩ := by
  obtain ⟨pieces, rest, hscan, hends⟩ := (g.matcher s.target).exists_scans word
  have hpieces : ∃ told, (pieces.foldlM (g.writePiece rule name s.replacement) []).run? source =
      some ⟨.error (.failed error), left, told⟩ := by
    rcases hends with rfl | ⟨stretch, fault, hmeets⟩
    · rw [substituteFrom_of_scans hscan] at hrun
      exact ⟨told, hrun⟩
    · rw [substituteFrom_of_fault hscan hmeets] at hrun
      rcases Sampler.exists_of_run?_bind hrun with hrun | ⟨_, _, _, _, -, hfault⟩
      · exact ⟨told, hrun⟩
      · cases hfault
  obtain ⟨_, hpieces⟩ := hpieces
  obtain ⟨before, piece, after, written, between, told, _, rfl, hbefore, hpiece⟩ :=
    Sampler.exists_of_run?_foldlM hpieces
  cases piece with
  | kept c => cases hpiece
  | matched stretch segments =>
    rcases Sampler.exists_of_run?_bind hpiece with hexpand | ⟨_, _, _, _, -, hwritten⟩
    · exact ⟨before, stretch, segments, after, rest, written, between, told, _, hscan, hbefore,
        hexpand⟩
    · cases hwritten

/-- An attempt fails in the expansion of the body, or of the replacement of a match. -/
theorem exists_of_attempt (hrun : (g.attempt rule r).run? source =
      some ⟨.error (.failed error), left, told⟩) :
    (∃ told, (r.body.expand rule g.useWeights none).run? source =
      some ⟨.error (.failed error), left, told⟩) ∨
    ∃ s stretch segments between told, g.Finds rule r source s stretch segments between ∧
      (s.replacement.expand rule g.useWeights (some (cut segments stretch))).run? between =
        some ⟨.error (.failed error), left, told⟩ := by
  rcases Sampler.exists_of_run?_bind hrun with hbody | ⟨body, expanded, _, _, hbody, hsubstitutions⟩
  · exact .inl ⟨told, hbody⟩
  · rw [substituteAll_eq_foldlM] at hsubstitutions
    obtain ⟨front, s, back, word, scanned, _, _, hsplit, hfront, hfrom⟩ :=
      Sampler.exists_of_run?_foldlM hsubstitutions
    rw [← substituteAll_eq_foldlM] at hfront
    obtain ⟨before, stretch, segments, after, rest, written, between, _, told, hscan, hbefore,
      hexpand⟩ := exists_match_of_substituteFrom hfrom
    exact .inr ⟨s, stretch, segments, between, told,
      .intro hbody hsplit hfront hscan hbefore, hexpand⟩

/-- `g.Fails call error left`: the call fails of itself, not because another fails that it
    enters. -/
inductive Fails (g : Grammar W) (call : Call) : GenerationError → Source → Prop
  | exhausted {depth : Nat} {r : Rule W} {words : List (List Char)} {left : Source}
      (hdepth : call.depth = depth + 1) (hrule : g.rule? call.name = some r)
      (hdrops : g.Drops (g.ruleWord depth) r call.source words left)
      (hlength : words.length = maxAttempts) :
      Fails g call (.exclusionsTooRestrictive call.name) left
  | missing {depth : Nat} {r : Rule W} {start between left : Source} {s : Substitution W}
      {stretch : List Char} {segments : List Nat} {index : Nat}
      (hattempts : g.Attempts call depth r start)
      (hfinds : g.Finds (g.ruleWord depth) r start s stretch segments between)
      (hcapture : s.replacement.Contains (.capture index)) (hindex : segments.length ≤ index) :
      Fails g call (.captureOutOfRange index segments.length) left

/-- A failed attempt fails for a capture, or by a word that it calls for. -/
theorem Attempts.origin {call : Call} {depth : Nat} {start : Source}
    (hattempts : g.Attempts call depth r start)
    (hrun : (g.attempt (g.ruleWord depth) r).run? start =
      some ⟨.error (.failed error), left, told⟩) :
    g.Fails call error left ∨ ∃ called told, called.depth = depth ∧ g.Enters call called ∧
      (g.through Rule.expanded).Refers call.name called.name ∧
      g.answer? called = some ⟨.error (.failed error), left, told⟩ := by
  have hcalled {name : String} {between : Source} {events : List Event} {e : Expr W}
      (he : e ∈ r.expanded) (hname : e.Contains (.ref name))
      (hpart : PartOf (g.ruleWord depth) (fun rule => rule name) between
        (fun rule => g.attempt rule r) start)
      (hcall : (g.ruleWord depth name).run? between =
        some ⟨.error (.failed error), left, events⟩) :
      ∃ called told, called.depth = depth ∧ g.Enters call called ∧
        (g.through Rule.expanded).Refers call.name called.name ∧
        g.answer? called = some ⟨.error (.failed error), left, told⟩ :=
    ⟨⟨depth, name, between⟩, events, rfl, ⟨r, start, hattempts, hpart⟩,
      refers_through.mpr ⟨r, hattempts.rule, e, he, hname⟩, hcall⟩
  rcases exists_of_attempt hrun with
    ⟨_, hbody⟩ | ⟨s, stretch, segments, between, _, hfinds, hexpand⟩
  · have hfails : FailsBy (g.ruleWord depth) (fun name => r.body.Contains (.ref name))
        (fun _ => False) fun rule => r.body.expand rule g.useWeights none :=
      r.body.expand_failsBy (fun _ => id) nofun
    rcases hfails _ _ _ _ hbody with hnone | ⟨name, between, events, hname, hpart, hcall⟩
    · exact hnone.elim
    · exact .inr (hcalled (List.mem_cons_self ..) hname (.first hpart) hcall)
  · have hfails : FailsBy (g.ruleWord depth) (fun name => s.replacement.Contains (.ref name))
        (fun error => ∃ index, s.replacement.Contains (.capture index) ∧
          segments.length ≤ index ∧ error = .captureOutOfRange index segments.length)
        fun rule => s.replacement.expand rule g.useWeights (some (cut segments stretch)) := by
      refine s.replacement.expand_failsBy (fun _ => id) ?_
      rintro index texts ⟨⟩ hindex hle
      rw [length_cut] at hle ⊢
      exact ⟨index, hindex, hle, rfl⟩
    rcases hfails _ _ _ _ hexpand with
      ⟨index, hindex, hle, rfl⟩ | ⟨name, _, events, hname, hpart, hcall⟩
    · exact .inl (.missing hattempts hfinds hindex hle)
    · exact .inr (hcalled (List.mem_cons_of_mem _ (List.mem_map_of_mem hfinds.answer.1)) hname
        (hfinds.partOf.trans hpart) hcall)

/-- A call that fails leads to one that fails of itself. -/
theorem exists_fails {call : Call}
    (hrun : g.answer? call = some ⟨.error (.failed error), left, told⟩) :
    ∃ called, ReflTransGen g.Enters call called ∧
      ReflTransGen (g.through Rule.expanded).Refers call.name called.name ∧
      g.Fails called error left := by
  generalize hdepth : call.depth = depth
  induction depth generalizing call told with
  | zero =>
    rw [answer?, hdepth] at hrun
    cases hrun
  | succ depth ih =>
    simp only [answer?, hdepth, ruleWord] at hrun
    cases hrule : g.rule? call.name with
    | none =>
      rw [hrule] at hrun
      cases hrun
    | some r =>
      rw [hrule] at hrun
      obtain ⟨words, start, hdrops, ⟨hlength, rfl, rfl⟩ | ⟨hlength, _, hattempt⟩⟩ :=
        exists_drops_of_tryWord hrun
      · rw [name_of_rule? hrule]
        exact ⟨call, .refl, .refl, .exhausted hdepth hrule hdrops hlength⟩
      · have hattempts : g.Attempts call depth r start := ⟨hdepth, hrule, words, hdrops, hlength⟩
        rcases hattempts.origin hattempt with
          hfails | ⟨called, _, hcalled, henters, hrefers, hanswer⟩
        · exact ⟨call, .refl, .refl, hfails⟩
        · obtain ⟨last, hreach, hchain, hfails⟩ := ih hanswer hcalled
          exact ⟨last, .head henters hreach, .head hrefers hchain, hfails⟩

/-- No word comes about for want of a root, or because of a call that fails of itself. -/
theorem exists_fails_of_word {run : Run String} (hrun : g.word.run? source = some run)
    (houtcome : run.outcome = .error (.failed error)) :
    (error = .rootNotFound g.root ∧ g.hasRule g.root = false) ∨
      ∃ call, g.Makes source call ∧
        ReflTransGen (g.through Rule.expanded).Refers g.root call.name ∧
        g.Fails call error run.source := by
  obtain ⟨outcome, left, told⟩ := run
  cases houtcome
  cases hroot : g.hasRule g.root with
  | false =>
    rw [word, hroot] at hrun
    cases hrun
    exact .inl ⟨rfl, rfl⟩
  | true =>
    rw [word, if_pos hroot, map_eq_pure_bind] at hrun
    rcases Sampler.exists_of_run?_bind hrun with hfirst | ⟨_, _, _, _, -, hdone⟩
    · have hanswer : g.answer? ⟨g.depthLimit, g.root, source⟩ =
          some ⟨.error (.failed error), left, told⟩ := hfirst
      obtain ⟨call, hreach, hchain, hfails⟩ := exists_fails hanswer
      exact .inr ⟨call, ⟨hroot, hreach⟩, hchain, hfails⟩
    · cases hdone

/-- If no rule excludes anything and no replacement has captures, no call fails of itself. -/
theorem not_fails (hexclusions : ∀ r ∈ g.rules, r.exclusions = [])
    (hcaptures : ∀ r ∈ g.rules, ∀ s ∈ r.substitutions, s.replacement.hasCaptures = false)
    {call : Call} : ¬ g.Fails call error left := by
  intro hfails
  cases hfails with
  | exhausted hdepth hrule hdrops hlength =>
    exact hdrops.exclusions_ne_nil hlength (hexclusions _ (mem_rules_of_rule? hrule))
  | missing hattempts hfinds hcapture _ =>
    exact Expr.not_contains_capture
      (hcaptures _ (mem_rules_of_rule? hattempts.rule) _ hfinds.answer.1) _ hcapture

/-- If no rule excludes anything and no replacement has captures, the making of a word does not fail
    for anything but want of a root. -/
theorem outcome_ne_failed {run : Run String} (hrun : g.word.run? source = some run)
    (hroot : g.hasRule g.root = true) (hexclusions : ∀ r ∈ g.rules, r.exclusions = [])
    (hcaptures : ∀ r ∈ g.rules, ∀ s ∈ r.substitutions, s.replacement.hasCaptures = false)
    (error : GenerationError) : run.outcome ≠ .error (.failed error) := by
  intro houtcome
  rcases exists_fails_of_word hrun houtcome with ⟨-, hmissing⟩ | ⟨_, -, -, hfails⟩
  · rw [hroot] at hmissing
    cases hmissing
  · exact not_fails hexclusions hcaptures hfails

/-- Every failure has its cause in the run. The root is not found if no rule has its name. A rule is
    named for its exclusions if it can be reached from the root, and one call for its words has made
    a hundred of them in a row, in each of which an exclusion occurs. A capture is named if it is in
    the replacement of a rule that can be reached, and beyond those of a match that was to be
    replaced by it. Whatever stops a call or a replacement stops the whole, with nothing drawn or
    told behind it. Without exclusions and captures, nothing fails, and if there is no circle
    either, a word comes about. -/
theorem failures_have_causes {run : Run String} (hrun : g.word.run? source = some run) :
    (∀ name, run.outcome = .error (.failed (.rootNotFound name)) ↔
      name = g.root ∧ g.hasRule name = false) ∧
    (∀ name, run.outcome = .error (.failed (.exclusionsTooRestrictive name)) →
      ReflTransGen (g.through Rule.expanded).Refers g.root name ∧
      ∃ r depth start words, g.rule? name = some r ∧ r.exclusions ≠ [] ∧
        g.Makes source ⟨depth + 1, name, start⟩ ∧ words.length = 100 ∧
        g.Drops (g.ruleWord depth) r start words run.source ∧ ∀ word ∈ words, g.Forbids r word) ∧
    (∀ index available, run.outcome = .error (.failed (.captureOutOfRange index available)) →
      ∃ call r s depth start stretch segments between,
        ReflTransGen (g.through Rule.expanded).Refers g.root call.name ∧
        g.rule? call.name = some r ∧ s ∈ r.substitutions ∧
        s.replacement.Contains (.capture index) ∧
        g.Makes source call ∧ g.Attempts call depth r start ∧
        g.Finds (g.ruleWord depth) r start s stretch segments between ∧ stretch ≠ [] ∧
        g.matcher s.target stretch = .ok (some segments) ∧ segments.length = available ∧
        available ≤ index) ∧
    (∀ call, g.Makes source call → ∀ why left told,
      g.answer? call = some ⟨.error why, left, told⟩ →
        run.outcome = .error why ∧ run.source = left ∧ told <:+ run.events) ∧
    (∀ call r s depth start stretch segments between, g.Makes source call →
      g.Attempts call depth r start →
      g.Finds (g.ruleWord depth) r start s stretch segments between → ∀ why left told,
      (s.replacement.expand (g.ruleWord depth) g.useWeights (some (cut segments stretch))).run?
        between = some ⟨.error why, left, told⟩ →
          run.outcome = .error why ∧ run.source = left ∧ told <:+ run.events) ∧
    (g.hasRule g.root = true → (∀ r ∈ g.rules, r.exclusions = []) →
      (∀ r ∈ g.rules, ∀ s ∈ r.substitutions, s.replacement.hasCaptures = false) →
        (∀ error, run.outcome ≠ .error (.failed error)) ∧
        ∀ usable, g.WellFormed usable → ¬ (g.through Rule.expressions).CycleBelow g.root →
          ∃ w, run.outcome = .ok w) := by
  refine ⟨fun name => ⟨fun houtcome => ?_, ?_⟩, ?_, ?_, ?_, ?_, ?_⟩
  · rcases exists_fails_of_word hrun houtcome with ⟨⟨⟩, hroot⟩ | ⟨_, -, -, ⟨⟩⟩
    exact ⟨rfl, hroot⟩
  · rintro ⟨rfl, hroot⟩
    rw [word, hroot] at hrun
    cases hrun
    rfl
  · intro name houtcome
    rcases exists_fails_of_word hrun houtcome with
      ⟨⟨⟩, -⟩ | ⟨⟨depth, name, start⟩, hmakes, hchain, hfails⟩
    obtain ⟨⟨⟩, hrule, hdrops, hlength⟩ := hfails
    exact ⟨hchain, _, _, start, _, hrule, hdrops.exclusions_ne_nil hlength, hmakes, hlength, hdrops,
      hdrops.forbids⟩
  · intro index available houtcome
    rcases exists_fails_of_word hrun houtcome with ⟨⟨⟩, -⟩ | ⟨call, hmakes, hchain, hfails⟩
    obtain _ | ⟨hattempts, hfinds, hcapture, hindex⟩ := hfails
    obtain ⟨hmem, hne, hanswer⟩ := hfinds.answer
    exact ⟨call, _, _, _, _, _, _, _, hchain, hattempts.rule, hmem, hcapture, hmakes, hattempts,
      hfinds, hne, hanswer, rfl, hindex⟩
  · intro call hmakes why left told hcall
    exact hmakes.stops hrun hcall
  · intro call r s depth start stretch segments between hmakes hattempts hfinds why left told
      hexpand
    exact hmakes.stops_of_finds hrun hattempts hfinds hexpand
  · intro hroot hexclusions hcaptures
    have hnot := outcome_ne_failed hrun hroot hexclusions hcaptures
    refine ⟨hnot, fun usable hwf hacyclic => ?_⟩
    have hends := Sampler.ends_of_run? hrun
    cases houtcome : run.outcome with
    | ok w => exact ⟨w, rfl⟩
    | error why =>
      rw [houtcome] at hends
      cases why with
      | failed error => exact (hnot error houtcome).elim
      | faulted fault => exact (hwf.word_raises_of_acyclic hacyclic fault hends).elim

/-- Words of a `t` and another syllable. Those of one kind are all excluded, and for those of the
    other a capture is missing. -/
def thwarted : Grammar Float where
  rules := [
    ⟨"S", .choice [⟨.atom "sa", 1⟩, ⟨.atom "si", 1⟩], [.atom "s"], []⟩,
    ⟨"K", .atom "tka", [], [⟨.seq [.atom "k", .atom "a"], .seq [.capture 1, .capture 2]⟩]⟩,
    ⟨"W", .seq [.atom "t", .choice [⟨.ref "S", 1⟩, ⟨.ref "K", 1⟩]], [], []⟩]
  root := "W"
  useWeights := false

-- A hundred attempts are deep to evaluate.
set_option maxRecDepth 2000 in
theorem failures_have_causes_thwarted :
    (∃ (run : Run String) (r : Rule Float) (words : List (List Char)),
      thwarted.word.run? ⟨List.replicate 102 0, 0, 0⟩ = some run ∧
      run.outcome = .error (.failed (.exclusionsTooRestrictive "S")) ∧ run.source.taken = 101 ∧
      thwarted.rule? "S" = some r ∧ words.length = 100 ∧
      ∀ word ∈ words, thwarted.Forbids r word) ∧
    ∃ (run : Run String) (r : Rule Float) (s : Substitution Float) (stretch : List Char)
      (segments : List Nat), thwarted.word.run? ⟨[0x8000000000000000], 0, 0⟩ = some run ∧
      run.outcome = .error (.failed (.captureOutOfRange 2 2)) ∧ s ∈ r.substitutions ∧
      s.replacement.Contains (.capture 2) ∧
      thwarted.matcher s.target stretch = .ok (some segments) ∧ segments.length = 2 := by
  -- The first value makes for `S`, and each of the hundred behind it for one of its words.
  have hexcluded : (thwarted.word.run? ⟨List.replicate 102 0, 0, 0⟩).map
      (fun run => (run.outcome, run.source.taken)) =
        some (.error (.failed (.exclusionsTooRestrictive "S")), 101) := by cbv
  have hmissing : (thwarted.word.run? ⟨[0x8000000000000000], 0, 0⟩).map (·.outcome) =
      some (.error (.failed (.captureOutOfRange 2 2))) := by cbv
  constructor
  · obtain ⟨run, hrun, hresult⟩ := Option.map_eq_some_iff.mp hexcluded
    obtain ⟨houtcome, htaken⟩ := Prod.mk.inj hresult
    obtain ⟨-, hexclusions, -⟩ := failures_have_causes hrun
    obtain ⟨-, r, _, _, words, hrule, -, -, hlength, -, hforbids⟩ := hexclusions "S" houtcome
    exact ⟨run, r, words, hrun, houtcome, htaken, hrule, hlength, hforbids⟩
  · obtain ⟨run, hrun, houtcome⟩ := Option.map_eq_some_iff.mp hmissing
    obtain ⟨-, -, hcaptures, -⟩ := failures_have_causes hrun
    obtain ⟨_, r, s, _, _, stretch, segments, _, -, -, hmem, hcapture, -, -, -, -, hanswer, hlength,
      -⟩ := hcaptures 2 2 houtcome
    exact ⟨run, r, s, stretch, segments, hrun, houtcome, hmem, hcapture, hanswer, hlength⟩

end Grammar

end WordGrammar
