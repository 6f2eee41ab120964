import WordGrammar.Generation.Batch

namespace WordGrammar

variable {W : Type} [Weight W] {g : Grammar W} {source left : Source}

/-- A batch, and behind it another one on the source that it leaves, unless it is stopped. -/
def Batch.goOn? (first : Batch) (next : Source → Option Batch) : Option Batch :=
  match first.stopped with
  | some _ => some first
  | none =>
    (next first.source).map fun second =>
      { second with
        words := first.words ++ second.words
        events := first.events ++ second.events }

namespace Grammar

/-- `g.Consecutive source runs left`: the runs of words one after the other, each from the source as
    the one before has left it. -/
inductive Consecutive (g : Grammar W) : Source → List (Run String) → Source → Prop
  | none (source : Source) : Consecutive g source [] source
  | call {source left : Source} {run : Run String} {runs : List (Run String)}
      (hrun : g.word.run? source = some run) (hlater : Consecutive g run.source runs left) :
      Consecutive g source (run :: runs) left

theorem Consecutive.uncons {run : Run String} {runs : List (Run String)}
    (hcalls : g.Consecutive source (run :: runs) left) :
    g.word.run? source = some run ∧ g.Consecutive run.source runs left := by
  cases hcalls with
  | call hrun hlater => exact ⟨hrun, hlater⟩

/-- The source that is left is the one that the last run leaves. -/
theorem Consecutive.source_eq {run : Run String} {runs : List (Run String)}
    (hcalls : g.Consecutive source (runs ++ [run]) left) : run.source = left := by
  induction runs generalizing source with
  | nil =>
    cases hcalls.uncons.2
    rfl
  | cons first runs ih => exact ih hcalls.uncons.2

/-- The batch is what consecutive runs come to: a word each, and for the last of them what stopped
    it, if it is not one word for each of the calls asked for. -/
structure Yields (g : Grammar W) (count : Nat) (source : Source) (runs : List (Run String))
    (batch : Batch) : Prop where
  calls : g.Consecutive source runs batch.source
  outcomes : runs.map (·.outcome) = batch.words.map .ok ++ batch.stopped.toList.map .error
  events : batch.events = runs.flatMap (·.events)
  bounded : batch.words.length ≤ count
  full : batch.stopped = none ↔ batch.words.length = count

theorem words?_add (m n : Nat) (source : Source) :
    g.words? (m + n) source = (g.words? m source).bind fun first => first.goOn? (g.words? n) := by
  induction m generalizing source with
  | zero =>
    rw [Nat.zero_add]
    exact Option.map_id'.symm
  | succ m ih =>
    rw [Nat.add_right_comm, words?, words?]
    cases hrun : g.word.run? source with
    | none => rfl
    | some run =>
      obtain ⟨outcome, between, events⟩ := run
      cases outcome with
      | error why => rfl
      | ok word =>
        -- The first word stands before the words of both batches.
        dsimp only
        rw [ih between]
        cases g.words? m between with
        | none => rfl
        | some first =>
          obtain ⟨words, stopped, left, told⟩ := first
          cases stopped with
          | some why => rfl
          | none =>
            simp only [Option.bind_some, Option.map_some, Batch.goOn?, Option.map_map,
              List.cons_append, List.append_assoc]
            rfl

theorem yields_zero_iff {runs : List (Run String)} {batch : Batch} :
    g.Yields 0 source runs batch ↔ runs = [] ∧ batch = ⟨[], none, source, []⟩ := by
  constructor
  · intro hyields
    have hwords : batch.words = [] := List.length_eq_zero_iff.mp (Nat.le_zero.mp hyields.bounded)
    have hstopped : batch.stopped = none := hyields.full.mpr (by rw [hwords]; rfl)
    have houtcomes := hyields.outcomes
    rw [hwords, hstopped] at houtcomes
    obtain rfl : runs = [] := List.map_eq_nil_iff.mp houtcomes
    have hsource : batch.source = source := by
      cases hyields.calls
      rfl
    have hevents : batch.events = [] := hyields.events
    obtain ⟨words, stopped, left, events⟩ := batch
    simp_all
  · intro h
    obtain ⟨rfl, rfl⟩ := h
    exact ⟨.none source, rfl, rfl, Nat.le_refl 0, by simp⟩

namespace Yields

variable {count : Nat} {runs : List (Run String)} {batch : Batch} {events : List Event}

/-- A call that is stopped is the last. -/
theorem stopped {why : Stop} (hrun : g.word.run? source = some ⟨.error why, left, events⟩) :
    g.Yields (count + 1) source [⟨.error why, left, events⟩] ⟨[], some why, left, events⟩ where
  calls := .call hrun (.none left)
  outcomes := rfl
  events := (List.append_nil events).symm
  bounded := Nat.zero_le _
  full := ⟨nofun, nofun⟩

/-- A word comes before those of the calls behind it. -/
theorem word {w : String} (hrun : g.word.run? source = some ⟨.ok w, left, events⟩)
    (hlater : g.Yields count left runs batch) :
    g.Yields (count + 1) source (⟨.ok w, left, events⟩ :: runs)
      { batch with words := w :: batch.words, events := events ++ batch.events } where
  calls := .call hrun hlater.calls
  outcomes := congrArg (Except.ok w :: ·) hlater.outcomes
  events := congrArg (events ++ ·) hlater.events
  bounded := Nat.succ_le_succ hlater.bounded
  full := hlater.full.trans Nat.succ_inj.symm

/-- The first call is stopped, or makes the first word. -/
theorem exists_first (hyields : g.Yields (count + 1) source runs batch) :
    ∃ outcome left events, g.word.run? source = some ⟨outcome, left, events⟩ ∧
      ((∃ why, outcome = .error why ∧ batch = ⟨[], some why, left, events⟩) ∨
        ∃ w later rest, outcome = .ok w ∧ g.Yields count left later rest ∧
          batch = { rest with words := w :: rest.words, events := events ++ rest.events }) := by
  obtain ⟨words, stopped, last, told⟩ := batch
  obtain ⟨hcalls, houtcomes, hevents, hbounded, hfull⟩ := hyields
  dsimp only at *
  cases words with
  | nil =>
    cases stopped with
    | none => exact absurd (hfull.mp rfl) (Nat.succ_ne_zero count).symm
    | some why =>
      obtain ⟨⟨outcome, left, events⟩, rfl, houtcome⟩ := List.map_eq_singleton_iff.mp houtcomes
      obtain ⟨hrun, hlast⟩ := hcalls.uncons
      cases hlast
      refine ⟨outcome, left, events, hrun, .inl ⟨why, houtcome, ?_⟩⟩
      rw [hevents, List.flatMap_singleton]
  | cons w words =>
    obtain ⟨⟨outcome, left, events⟩, later, rfl, houtcome, hlater⟩ :=
      List.map_eq_cons_iff.mp houtcomes
    obtain ⟨hrun, hcalls'⟩ := hcalls.uncons
    refine ⟨outcome, left, events, hrun, .inr ⟨w, later, ⟨words, stopped, last, _⟩, houtcome,
      ⟨hcalls', hlater, rfl, Nat.le_of_succ_le_succ hbounded, hfull.trans Nat.succ_inj⟩, ?_⟩⟩
    rw [hevents, List.flatMap_cons]
    rfl

/-- The words are the results of the runs, in their order. -/
theorem exists_run_of_word (hyields : g.Yields count source runs batch) {k : Nat} {w : String}
    (hw : batch.words[k]? = some w) : ∃ run, runs[k]? = some run ∧ run.outcome = .ok w := by
  have hresult : (runs.map (·.outcome))[k]? = some (.ok w) := by
    rw [hyields.outcomes]
    refine List.getElem?_append_left (?_ : k < _) |>.trans ?_
    · rw [List.length_map]
      exact (List.getElem?_eq_some_iff.mp hw).1
    · rw [List.getElem?_map, hw]
      rfl
  rw [List.getElem?_map] at hresult
  exact Option.map_eq_some_iff.mp hresult

/-- What stops a batch is the last run, which leaves the source as the batch does. -/
theorem exists_last_of_stopped (hyields : g.Yields count source runs batch) {why : Stop}
    (hstopped : batch.stopped = some why) :
    ∃ before run, runs = before ++ [run] ∧ run.outcome = .error why ∧
      run.source = batch.source := by
  have houtcomes := hyields.outcomes
  rw [hstopped] at houtcomes
  obtain ⟨before, last, rfl, -, hlast⟩ := List.map_eq_append_iff.mp houtcomes
  obtain ⟨run, rfl, houtcome⟩ := List.map_eq_singleton_iff.mp hlast
  exact ⟨before, run, rfl, houtcome, hyields.calls.source_eq⟩

end Yields

/-- A batch is made exactly if consecutive runs yield it. -/
theorem words?_eq_some_iff {count : Nat} {batch : Batch} :
    g.words? count source = some batch ↔ ∃ runs, g.Yields count source runs batch := by
  induction count generalizing source batch with
  | zero =>
    simp only [yields_zero_iff, words?, Option.some.injEq, eq_comm (a := batch), exists_eq_left]
  | succ count ih =>
    constructor
    · intro hwords
      rw [words?] at hwords
      split at hwords
      · cases hwords
      · rename_i hrun
        cases hwords
        exact ⟨_, .stopped hrun⟩
      · rename_i hrun
        obtain ⟨rest, hrest, rfl⟩ := Option.map_eq_some_iff.mp hwords
        obtain ⟨runs, hyields⟩ := ih.mp hrest
        exact ⟨_, .word hrun hyields⟩
    · intro h
      obtain ⟨runs, hyields⟩ := h
      obtain ⟨outcome, left, events, hrun, hfirst⟩ := hyields.exists_first
      rw [words?, hrun]
      rcases hfirst with ⟨why, rfl, rfl⟩ | ⟨w, later, rest, rfl, hlater, rfl⟩
      · rfl
      · dsimp only
        rw [ih.mpr ⟨later, hlater⟩]
        rfl

/-- As long as there is room for all words, a batch of `m + n` words is one of `m` words, and behind
    it one of `n` words on the source that is left, unless the first is stopped. A batch comes about
    exactly if consecutive runs yield it: its words are their results in order, it is complete
    exactly if nothing has stopped it, and behind what stops it nothing is drawn. -/
theorem batches_compose (g : Grammar W) (m n : Nat) (source : Source) :
    (m + n ≤ Batch.largest → g.batch? (m + n) source =
      (g.batch? m source).bind fun first => first.goOn? (g.batch? n)) ∧
    (Batch.largest < m + n →
      g.batch? (m + n) source = some ⟨[], some (.faulted .batchTooLarge), source, []⟩) ∧
    (m ≤ Batch.largest → ∀ batch,
      g.batch? m source = some batch ↔ ∃ runs, g.Yields m source runs batch) ∧
    ∀ (runs : List (Run String)) (batch : Batch), g.Yields m source runs batch →
      (batch.stopped = none ↔ batch.words.length = m) ∧
      (∀ (k : Nat) (w : String), batch.words[k]? = some w →
        ∃ run, runs[k]? = some run ∧ run.outcome = .ok w) ∧
      ∀ why, batch.stopped = some why → ∃ before run, runs = before ++ [run] ∧
        run.outcome = .error why ∧ run.source = batch.source := by
  have hroom {count : Nat} (hle : count ≤ Batch.largest) : g.batch? count = g.words? count := by
    funext source
    rw [batch?, if_pos hle]
  refine ⟨fun hle => ?_, fun hlt => ?_, fun hle batch => ?_, fun runs batch hyields => ?_⟩
  · rw [hroom hle, hroom (Nat.le_of_add_right_le hle), hroom (Nat.le_of_add_left_le hle),
      words?_add]
  · rw [batch?, if_neg (Nat.not_le.mpr hlt)]
  · rw [hroom hle, words?_eq_some_iff]
  · exact ⟨hyields.full, fun _ _ => hyields.exists_run_of_word,
      fun _ => hyields.exists_last_of_stopped⟩

/-- A word of one vowel, where no word can be made of the second: its replacement asks for more
    than the match captures. -/
def faltering : Grammar Float where
  rules := [⟨"W", .choice [⟨.atom "a", 1⟩, ⟨.atom "u", 1⟩], [], [⟨.atom "u", .capture 3⟩]⟩]
  root := "W"
  useWeights := false

theorem batches_compose_faltering :
    2 + 2 ≤ Batch.largest ∧
    faltering.batch? 2 ⟨[0, 1, 0x8000000000000000, 0], 7, 0⟩ =
      some ⟨["a", "a"], none, ⟨[0x8000000000000000, 0], 7, 2⟩, []⟩ ∧
    faltering.batch? 2 ⟨[0x8000000000000000, 0], 7, 2⟩ =
      some ⟨[], some (.failed (.captureOutOfRange 3 1)), ⟨[0], 7, 3⟩, []⟩ ∧
    faltering.batch? (2 + 2) ⟨[0, 1, 0x8000000000000000, 0], 7, 0⟩ =
      some ⟨["a", "a"], some (.failed (.captureOutOfRange 3 1)), ⟨[0], 7, 3⟩, []⟩ ∧
    ∃ run : Run String, run.outcome = .error (.failed (.captureOutOfRange 3 1)) ∧
      run.source = ⟨[0], 7, 3⟩ := by
  have hle : 2 + 2 ≤ Batch.largest := by decide
  have hfirst : faltering.batch? 2 ⟨[0, 1, 0x8000000000000000, 0], 7, 0⟩ =
      some ⟨["a", "a"], none, ⟨[0x8000000000000000, 0], 7, 2⟩, []⟩ := by cbv
  have hsecond : faltering.batch? 2 ⟨[0x8000000000000000, 0], 7, 2⟩ =
      some ⟨[], some (.failed (.captureOutOfRange 3 1)), ⟨[0], 7, 3⟩, []⟩ := by cbv
  obtain ⟨hwhole, -, -, -⟩ :=
    batches_compose faltering 2 2 ⟨[0, 1, 0x8000000000000000, 0], 7, 0⟩
  obtain ⟨-, -, hyields, hparts⟩ :=
    batches_compose faltering 2 2 ⟨[0x8000000000000000, 0], 7, 2⟩
  obtain ⟨runs, hruns⟩ := (hyields (Nat.le_of_add_right_le hle) _).mp hsecond
  obtain ⟨-, -, hstopped⟩ := hparts _ _ hruns
  obtain ⟨-, run, -, houtcome, hsource⟩ := hstopped _ rfl
  refine ⟨hle, hfirst, hsecond, ?_, run, houtcome, hsource⟩
  rw [hwhole hle, hfirst, Option.bind_some, Batch.goOn?, hsecond]
  rfl

end Grammar

end WordGrammar
