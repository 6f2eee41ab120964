import Mathlib.Logic.Relation
import WordGrammar.Proofs.Generation.Calls
import WordGrammar.Proofs.Generation.Exclusion
import WordGrammar.Proofs.Generation.Substitution

namespace WordGrammar

/-- `PartOf rule part between make source`: with these words of rules, a run of what is made comes
    to the part when the source it began with is left as `between`. -/
inductive PartOf (rule : String → Sampler (List Char)) {β : Type} (part : Maker β)
    (between : Source) : {α : Type} → Maker α → Source → Prop
  | here : PartOf rule part between part between
  | first {α γ : Type} {make : Maker α} {next : α → Maker γ} {source : Source}
      (hfirst : PartOf rule part between make source) :
      PartOf rule part between (fun rule => make rule >>= fun a => next a rule) source
  | later {α γ : Type} {make : Maker α} {next : α → Maker γ} {a : α} {source after : Source}
      {events : List Event} (hdone : (make rule).run? source = some ⟨.ok a, after, events⟩)
      (hlater : PartOf rule part between (next a) after) :
      PartOf rule part between (fun rule => make rule >>= fun a => next a rule) source

namespace PartOf

variable {rule : String → Sampler (List Char)} {α β γ : Type} {make : Maker α} {part : Maker β}
  {inner : Maker γ} {source between within left : Source}

theorem trans (hpart : PartOf rule part between make source)
    (hinner : PartOf rule inner within part between) : PartOf rule inner within make source := by
  induction hpart with
  | here => exact hinner
  | first _ ih => exact .first ih
  | later hdone _ ih => exact .later hdone ih

/-- What stops a part stops the whole. -/
theorem stops (hpart : PartOf rule part between make source) {why : Stop} {told : List Event}
    (hrun : (part rule).run? between = some ⟨.error why, left, told⟩) :
    ∃ events, (make rule).run? source = some ⟨.error why, left, events ++ told⟩ := by
  induction hpart with
  | here => exact ⟨[], hrun⟩
  | first _ ih =>
    obtain ⟨events, hfirst⟩ := ih
    exact ⟨events, Sampler.run?_bind_of_stopped hfirst _⟩
  | @later _ _ _ _ _ _ _ events hdone _ ih =>
    obtain ⟨events', hlater⟩ := ih
    refine ⟨events ++ events', ?_⟩
    rw [Sampler.run?_bind_of_done hdone, hlater, List.append_assoc]
    rfl

end PartOf

/-- A call for a word of the rule with this name, on this source, where at most so many rules may be
    under way. -/
structure Call where
  depth : Nat
  name : String
  source : Source

namespace Grammar

open Relation

variable {W : Type} [Weight W] {g : Grammar W} {rule : String → Sampler (List Char)} {r : Rule W}
  {source between left : Source} {why : Stop} {told : List Event}

/-- `g.Finds rule r source s stretch segments between`: on this source, an attempt at a word of the
    rule comes to a stretch that the target of the substitution matches, with these segments, and
    that is to be replaced when the source is left as `between`. -/
inductive Finds (g : Grammar W) (rule : String → Sampler (List Char)) (r : Rule W)
    (source : Source) (s : Substitution W) (stretch : List Char) (segments : List Nat)
    (between : Source) : Prop
  | intro {body word written rest : List Char} {front back : List (Substitution W)}
      {before after : List Piece} {expanded scanned : Source}
      {events events' events'' : List Event}
      (hbody : (r.body.expand rule g.useWeights none).run? source =
        some ⟨.ok body, expanded, events⟩)
      (hsubstitutions : r.substitutions = front ++ s :: back)
      (hfront : (g.substituteAll rule r.name front body).run? expanded =
        some ⟨.ok word, scanned, events'⟩)
      (hscan : (g.matcher s.target).Scans word (before ++ .matched stretch segments :: after) rest)
      (hbefore : (before.foldlM (g.writePiece rule r.name s.replacement) []).run? scanned =
        some ⟨.ok written, between, events''⟩) : Finds g rule r source s stretch segments between

/-- `g.Drops rule r source words start`: from the source on, the rule tries these words one after
    the other, an exclusion occurs in each of them, and the source is left as `start`. -/
inductive Drops (g : Grammar W) (rule : String → Sampler (List Char)) (r : Rule W) :
    Source → List (List Char) → Source → Prop
  | none (source : Source) : Drops g rule r source [] source
  | more {source between start : Source} {word : List Char} {words : List (List Char)}
      {events : List Event}
      (hattempt : (g.attempt rule r).run? source = some ⟨.ok word, between, events⟩)
      (hexcluded : g.occursAny r.exclusions word = .ok true)
      (hlater : Drops g rule r between words start) : Drops g rule r source (word :: words) start

section Attempt

variable {s : Substitution W} {stretch : List Char} {segments : List Nat}

theorem substituteAll_append (name : String) (front back : List (Substitution W))
    (text : List Char) :
    g.substituteAll rule name (front ++ back) text =
      g.substituteAll rule name front text >>= fun text => g.substituteAll rule name back text := by
  simp only [substituteAll_eq_foldlM, List.foldlM_append]

/-- The stretch is matched, and not empty. -/
theorem Finds.answer (hfinds : g.Finds rule r source s stretch segments between) :
    s ∈ r.substitutions ∧ stretch ≠ [] ∧ g.matcher s.target stretch = .ok (some segments) := by
  obtain ⟨-, hsubstitutions, -, hscan, -⟩ := hfinds
  refine ⟨by simp [hsubstitutions], hscan.answer_of_mem (by simp)⟩

/-- The replacement of a match is expanded in the attempt that comes to it. -/
theorem Finds.partOf (hfinds : g.Finds rule r source s stretch segments between) :
    PartOf rule (fun rule => s.replacement.expand rule g.useWeights (some (cut segments stretch)))
      between (fun rule => g.attempt rule r) source := by
  cases hfinds with
  | @intro body word written rest front back before after _ _ _ _ _ hbody hsubstitutions hfront
      hscan hbefore =>
    have hattempt : (fun rule => g.attempt rule r) = fun rule =>
        r.body.expand rule g.useWeights none >>= fun text =>
          g.substituteAll rule r.name front text >>= fun text =>
            g.substituteFrom rule r.name s text 0 >>= fun text =>
              g.substituteAll rule r.name back text := by
      funext rule
      simp only [attempt, hsubstitutions, substituteAll_append, substituteAll]
    have hsubstitute : (fun rule => g.substituteFrom rule r.name s word 0) = fun rule =>
        before.foldlM (g.writePiece rule r.name s.replacement) [] >>= fun written =>
          (s.replacement.expand rule g.useWeights (some (cut segments stretch)) >>= fun text =>
            Sampler.tell (.substituted r.name (String.ofList stretch) written.length
              (String.ofList text)) >>= fun _ => pure (written ++ text)) >>= fun written =>
            after.foldlM (g.writePiece rule r.name s.replacement) written >>= fun written =>
              g.substituteFrom rule r.name s (written ++ rest) written.length := by
      funext rule
      have hscanned : g.substituteFrom rule r.name s word 0 = _ := substituteFrom_append hscan []
      simpa only [List.foldlM_append, List.foldlM_cons, bind_assoc, writePiece] using hscanned
    rw [hattempt]
    refine .later hbody (.later hfront (.first ?_))
    rw [hsubstitute]
    exact .later hbefore (.first (.first .here))

end Attempt

section Trying

variable {words : List (List Char)} {start : Source}

/-- What is dropped is forbidden. -/
theorem Drops.forbids (hdrops : g.Drops rule r source words start) :
    ∀ word ∈ words, g.Forbids r word := by
  induction hdrops with
  | none => simp
  | more _ hexcluded _ ih => exact List.forall_mem_cons.mpr ⟨(occursAny_iff hexcluded).mp rfl, ih⟩

/-- A rule that drops all of its attempts excludes something. -/
theorem Drops.exclusions_ne_nil (hdrops : g.Drops rule r source words start)
    (hlength : words.length = maxAttempts) : r.exclusions ≠ [] := by
  have hpositive : 0 < words.length := hlength ▸ Nat.succ_pos 99
  obtain ⟨word, hword⟩ := List.exists_mem_of_length_pos hpositive
  obtain ⟨e, he, -⟩ := hdrops.forbids word hword
  exact List.ne_nil_of_mem he

/-- What stops the rule behind the attempts that it drops stops all of its trying. -/
theorem Drops.stops (hdrops : g.Drops rule r source words start) {more : Nat}
    (hrun : (g.tryWord rule r more).run? start = some ⟨.error why, left, told⟩) :
    ∃ events, (g.tryWord rule r (words.length + more)).run? source =
      some ⟨.error why, left, events ++ told⟩ := by
  induction hdrops with
  | none =>
    rw [List.length_nil, Nat.zero_add]
    exact ⟨[], hrun⟩
  | @more _ between _ word words events hattempt hexcluded _ ih =>
    obtain ⟨later, hlater⟩ := ih hrun
    refine ⟨events ++ .excluded r.name (maxAttempts - (words.length + more)) (String.ofList word) ::
      later, ?_⟩
    rw [List.length_cons, Nat.add_right_comm, tryWord, Sampler.run?_bind_of_done hattempt,
      hexcluded]
    show Option.map _ (Option.map _ ((g.tryWord rule r (words.length + more)).run? between)) = _
    rw [hlater, List.append_assoc]
    rfl

/-- If the rule fails, either it has dropped as many attempts as it had, or it fails in the one
    behind those that it has dropped. -/
theorem exists_drops_of_tryWord {more : Nat} {error : GenerationError}
    (hrun : (g.tryWord rule r more).run? source = some ⟨.error (.failed error), left, told⟩) :
    ∃ words start, g.Drops rule r source words start ∧
      (words.length = more ∧ start = left ∧ error = .exclusionsTooRestrictive r.name ∨
        words.length < more ∧ ∃ told,
          (g.attempt rule r).run? start = some ⟨.error (.failed error), left, told⟩) := by
  induction more generalizing source told with
  | zero =>
    cases hrun
    exact ⟨[], source, .none source, .inl ⟨rfl, rfl, rfl⟩⟩
  | succ more ih =>
    rcases Sampler.exists_of_run?_bind hrun with
      hattempt | ⟨word, between, events, later, hattempt, hjudged⟩
    · exact ⟨[], source, .none source, .inr ⟨Nat.succ_pos _, told, hattempt⟩⟩
    · cases hchecked : g.occursAny r.exclusions word with
      | error fault =>
        rw [hchecked] at hjudged
        cases hjudged
      | ok found =>
        rw [hchecked] at hjudged
        cases found with
        | false => cases hjudged
        | true =>
          obtain ⟨⟨outcome, _, events'⟩, hlater, hnoted⟩ := Option.map_eq_some_iff.mp hjudged
          cases hnoted
          obtain ⟨words, start, hdrops, hend⟩ := ih hlater
          refine ⟨word :: words, start, .more hattempt hchecked hdrops, ?_⟩
          rw [List.length_cons, Nat.add_lt_add_iff_right, Nat.add_right_cancel_iff]
          exact hend

end Trying

section Calls

/-- The run of what is called for. -/
def answer? (g : Grammar W) (call : Call) : Option (Run (List Char)) :=
  (g.ruleWord call.depth call.name).run? call.source

/-- `g.Attempts call depth r start`: the call makes an attempt at a word of the rule from `start`
    on, after attempts that are dropped. -/
structure Attempts (g : Grammar W) (call : Call) (depth : Nat) (r : Rule W) (start : Source) :
    Prop where
  deeper : call.depth = depth + 1
  rule : g.rule? call.name = some r
  dropped : ∃ words, g.Drops (g.ruleWord depth) r call.source words start ∧
    words.length < maxAttempts

/-- `g.Enters call called`: an attempt that the one call makes comes to the other. -/
def Enters (g : Grammar W) (call called : Call) : Prop :=
  ∃ r start, g.Attempts call called.depth r start ∧
    PartOf (g.ruleWord called.depth) (fun rule => rule called.name) called.source
      (fun rule => g.attempt rule r) start

/-- `g.Makes source call`: a word of the root is made on the source, and comes to the call. -/
def Makes (g : Grammar W) (source : Source) (call : Call) : Prop :=
  g.hasRule g.root = true ∧ ReflTransGen g.Enters ⟨g.depthLimit, g.root, source⟩ call

variable {call called : Call} {depth : Nat} {start : Source}

theorem Attempts.stops (hattempts : g.Attempts call depth r start)
    (hrun : (g.attempt (g.ruleWord depth) r).run? start = some ⟨.error why, left, told⟩) :
    ∃ events, g.answer? call = some ⟨.error why, left, events ++ told⟩ := by
  obtain ⟨hdepth, hrule, words, hdrops, hlength⟩ := hattempts
  obtain ⟨more, hmore⟩ := Nat.exists_eq_add_of_lt hlength
  have htries : (g.tryWord (g.ruleWord depth) r (more + 1)).run? start =
      some ⟨.error why, left, told⟩ := Sampler.run?_bind_of_stopped hrun _
  simp only [answer?, hdepth, ruleWord, hrule, hmore]
  exact hdrops.stops htries

theorem Enters.stops (henters : g.Enters call called)
    (hrun : g.answer? called = some ⟨.error why, left, told⟩) :
    ∃ events, g.answer? call = some ⟨.error why, left, events ++ told⟩ := by
  obtain ⟨r, start, hattempts, hpart⟩ := henters
  obtain ⟨events, hattempt⟩ := hpart.stops hrun
  obtain ⟨before, hcall⟩ := hattempts.stops hattempt
  exact ⟨before ++ events, by rw [hcall, List.append_assoc]⟩

/-- What stops a call stops the making of the word. -/
theorem Makes.stops {run : Run String} (hmakes : g.Makes source call)
    (hword : g.word.run? source = some run)
    (hrun : g.answer? call = some ⟨.error why, left, told⟩) :
    run.outcome = .error why ∧ run.source = left ∧ told <:+ run.events := by
  obtain ⟨hroot, hreach⟩ := hmakes
  obtain ⟨events, hfirst⟩ : ∃ events, g.answer? ⟨g.depthLimit, g.root, source⟩ =
      some ⟨.error why, left, events ++ told⟩ := by
    clear hword
    induction hreach generalizing told with
    | refl => exact ⟨[], hrun⟩
    | tail _ henters ih =>
      obtain ⟨later, hcall⟩ := henters.stops hrun
      obtain ⟨events, hfirst⟩ := ih hcall
      exact ⟨events ++ later, by rw [hfirst, List.append_assoc]⟩
  have hstopped : g.word.run? source = some ⟨.error why, left, events ++ told⟩ := by
    rw [word, if_pos hroot, map_eq_pure_bind]
    exact Sampler.run?_bind_of_stopped hfirst _
  rw [hstopped] at hword
  cases hword
  exact ⟨rfl, rfl, events, rfl⟩

/-- What stops the replacement of a match stops the making of the word. -/
theorem Makes.stops_of_finds {run : Run String} {s : Substitution W} {stretch : List Char}
    {segments : List Nat} (hmakes : g.Makes source call) (hword : g.word.run? source = some run)
    (hattempts : g.Attempts call depth r start)
    (hfinds : g.Finds (g.ruleWord depth) r start s stretch segments between)
    (hrun : (s.replacement.expand (g.ruleWord depth) g.useWeights
      (some (cut segments stretch))).run? between = some ⟨.error why, left, told⟩) :
    run.outcome = .error why ∧ run.source = left ∧ told <:+ run.events := by
  obtain ⟨events, hattempt⟩ := hfinds.partOf.stops hrun
  obtain ⟨events', hcall⟩ := hattempts.stops hattempt
  obtain ⟨houtcome, hleft, hevents⟩ := hmakes.stops hword hcall
  refine ⟨houtcome, hleft, .trans ?_ hevents⟩
  rw [← List.append_assoc]
  exact List.suffix_append _ told

end Calls

end Grammar

end WordGrammar
