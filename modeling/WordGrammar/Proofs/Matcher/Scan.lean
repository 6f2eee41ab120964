import WordGrammar.Proofs.Matcher.Occurrence

namespace WordGrammar

/-- A part of a scanned text. -/
inductive Piece where
  /-- A character at which no match begins. -/
  | kept (c : Char)
  /-- A match with its segments. -/
  | matched (stretch : List Char) (segments : List Nat)

/-- The part of the text that the piece covers. -/
def Piece.original : Piece → List Char
  | .kept c => [c]
  | .matched stretch _ => stretch

namespace Matcher

/-- No match begins where the text does, but for an empty one. -/
def Misses (p : Matcher) (s : List Char) : Prop :=
  ∀ stretch, stretch <+: s → stretch ≠ [] → p stretch = .ok none

/-- The stretch begins where the text does and is not empty. This is the answer for it, and all
    shorter ones do not match. -/
structure Meets (p : Matcher) (s stretch : List Char) (answer : Except Fault (Option (List Nat))) :
    Prop where
  begins : stretch <+: s
  ne_nil : stretch ≠ []
  answer : p stretch = answer
  shortest : ∀ shorter, shorter <+: stretch → shorter ≠ [] → shorter ≠ stretch →
    p shorter = .ok none

/-- `p.Scans s pieces rest`: a scan of the text makes these pieces of it and has got as far as the
    rest. -/
inductive Scans (p : Matcher) : List Char → List Piece → List Char → Prop
  | here (s : List Char) : Scans p s [] s
  | kept {c : Char} {s rest : List Char} {pieces : List Piece} (hmisses : p.Misses (c :: s))
      (hlater : Scans p s pieces rest) : Scans p (c :: s) (.kept c :: pieces) rest
  | matched {s stretch later rest : List Char} {segments : List Nat} {pieces : List Piece}
      (hs : stretch ++ later = s) (hmeets : p.Meets s stretch (.ok (some segments)))
      (hlater : Scans p later pieces rest) : Scans p s (.matched stretch segments :: pieces) rest

variable {p : Matcher} {s : List Char}

section Trials

theorem prefix_iff_take {stretch : List Char} :
    stretch <+: s ∧ stretch ≠ [] ↔ ∃ k < s.length, stretch = s.take (k + 1) := by
  constructor
  · rintro ⟨hbegins, hne⟩
    obtain ⟨k, hk⟩ := Nat.exists_eq_add_one_of_ne_zero (List.length_pos_iff.mpr hne).ne'
    have hlength := hbegins.length_le
    exact ⟨k, by omega, by rw [← hk]; exact List.prefix_iff_eq_take.mp hbegins⟩
  · rintro ⟨k, hk, rfl⟩
    refine ⟨List.take_prefix _ _, fun hempty => ?_⟩
    have hlength := congrArg List.length hempty
    simp only [List.length_take, List.length_nil] at hlength
    omega

theorem hit?_eq_none_iff_misses : p.hit? s = .ok none ↔ p.Misses s := by
  rw [hit?_eq_none_iff]
  constructor
  · intro hnone stretch hbegins hne
    obtain ⟨k, hk, rfl⟩ := prefix_iff_take.mp ⟨hbegins, hne⟩
    exact hnone k hk
  · intro hmisses k hk
    obtain ⟨hbegins, hne⟩ := prefix_iff_take.mpr ⟨k, hk, rfl⟩
    exact hmisses _ hbegins hne

/-- One trial of a search for a match: its length exceeds `k` by one. -/
def hitTrial (p : Matcher) (s : List Char) (k : Nat) : Except Fault (Option Hit) :=
  p (s.take (k + 1)) >>= fun answer => pure (answer.map (⟨k, ·⟩))

theorem hit?_eq (p : Matcher) (s : List Char) :
    p.hit? s = (List.range s.length).findSomeM? (hitTrial p s) := rfl

theorem meets_of_trials {k : Nat} (hk : k < s.length)
    (hbefore : ∀ j < k, hitTrial p s j = .ok none) {answer : Except Fault (Option (List Nat))}
    (hanswer : p (s.take (k + 1)) = answer) : p.Meets s (s.take (k + 1)) answer := by
  obtain ⟨hbegins, hne⟩ := prefix_iff_take.mpr ⟨k, hk, rfl⟩
  refine ⟨hbegins, hne, hanswer, fun shorter hshorter hne' hother => ?_⟩
  obtain ⟨j, hj, rfl⟩ := prefix_iff_take.mp ⟨hshorter.trans hbegins, hne'⟩
  refine Outcome.map_eq_none_iff.mp (hbefore j ?_)
  by_contra hle
  exact hother (hshorter.eq_of_length_le (by simp only [List.length_take]; omega))

theorem exists_meets_of_hit? {hit : Hit} (hhit : p.hit? s = .ok (some hit)) :
    ∃ stretch later, stretch ++ later = s ∧ stretch.length = hit.length ∧
      p.Meets s stretch (.ok (some hit.segments)) := by
  obtain ⟨k, hk, hbefore, htrial⟩ := Search.exists_first_of_range hhit nofun
  obtain ⟨answer, hanswer, hfound⟩ := Outcome.bind_eq_ok_iff.mp htrial
  cases answer with
  | none => cases hfound
  | some segments =>
    cases hfound
    refine ⟨s.take (k + 1), s.drop (k + 1), List.take_append_drop _ _, ?_, ?_⟩
    · rw [List.length_take, Nat.min_eq_left hk, Hit.length]
    · exact meets_of_trials hk hbefore hanswer

theorem exists_meets_of_error {fault : Fault} (hhit : p.hit? s = .error fault) :
    ∃ stretch, p.Meets s stretch (.error fault) := by
  obtain ⟨k, hk, hbefore, htrial⟩ := Search.exists_first_of_range hhit nofun
  obtain hfault | ⟨answer, -, hfound⟩ := Outcome.bind_eq_error_iff.mp htrial
  · exact ⟨_, meets_of_trials hk hbefore hfault⟩
  · cases hfound

theorem Meets.hit?_eq {stretch : List Char} {answer : Except Fault (Option (List Nat))}
    (hmeets : p.Meets s stretch answer) (hspeaks : answer ≠ .ok none) :
    p.hit? s = answer >>= fun found => pure (found.map (⟨stretch.length - 1, ·⟩)) := by
  obtain ⟨hbegins, hne, rfl, hshortest⟩ := hmeets
  obtain ⟨k, hk, rfl⟩ := prefix_iff_take.mp ⟨hbegins, hne⟩
  have hlength : (s.take (k + 1)).length - 1 = k := by
    simp only [List.length_take]
    omega
  have hbefore : ∀ j < k, hitTrial p s j = .ok none := by
    intro j hj
    obtain ⟨hbegins', hne'⟩ := prefix_iff_take.mpr ⟨j, hj.trans hk, rfl⟩
    refine Outcome.map_eq_none_iff.mpr (hshortest _ ?_ hne' fun heq => ?_)
    · exact List.take_prefix_take_left (by omega)
    · have hlength' := congrArg List.length heq
      simp only [List.length_take] at hlength'
      omega
  rw [hlength, Matcher.hit?_eq]
  exact Search.range_eq_of_first hk hbefore (mt Outcome.map_eq_none_iff.mp hspeaks)

end Trials

section Scanning

variable {pieces pieces' : List Piece} {rest rest' : List Char}

/-- The pieces cover the text one after the other, up to the rest. -/
theorem Scans.original (hscan : p.Scans s pieces rest) :
    pieces.flatMap Piece.original ++ rest = s := by
  induction hscan with
  | here s => rfl
  | kept _ _ ih => rw [List.flatMap_cons, List.append_assoc, ih]; rfl
  | matched hs _ _ ih => rw [List.flatMap_cons, List.append_assoc, ih, ← hs]; rfl

/-- No piece is empty. -/
theorem Scans.length_le (hscan : p.Scans s pieces rest) : pieces.length ≤ s.length := by
  induction hscan with
  | here s => exact Nat.zero_le _
  | kept _ _ ih =>
    rw [List.length_cons, List.length_cons]
    omega
  | matched hs hmeets _ ih =>
    have hpositive := List.length_pos_iff.mpr hmeets.ne_nil
    rw [List.length_cons, ← hs, List.length_append]
    omega

/-- What a scan takes for a match is one, and not empty. -/
theorem Scans.answer_of_mem {stretch : List Char} {segments : List Nat}
    (hscan : p.Scans s pieces rest) (hmem : .matched stretch segments ∈ pieces) :
    stretch ≠ [] ∧ p stretch = .ok (some segments) := by
  induction hscan with
  | here s => cases hmem
  | kept _ _ ih =>
    obtain heq | hmem := List.mem_cons.mp hmem
    · cases heq
    · exact ih hmem
  | matched _ hmeets _ ih =>
    obtain heq | hmem := List.mem_cons.mp hmem
    · cases heq
      exact ⟨hmeets.ne_nil, hmeets.answer⟩
    · exact ih hmem

/-- Every text is scanned to its end, unless the matcher is at fault on the way. -/
theorem exists_scans (p : Matcher) (s : List Char) :
    ∃ pieces rest, p.Scans s pieces rest ∧
      (rest = [] ∨ ∃ stretch fault, p.Meets rest stretch (.error fault)) := by
  generalize hlength : s.length = n
  induction n using Nat.strongRecOn generalizing s with
  | ind n ih =>
    cases s with
    | nil => exact ⟨[], [], .here [], .inl rfl⟩
    | cons c s =>
      cases hhit : p.hit? (c :: s) with
      | error fault =>
        obtain ⟨stretch, hmeets⟩ := exists_meets_of_error hhit
        exact ⟨[], c :: s, .here _, .inr ⟨stretch, fault, hmeets⟩⟩
      | ok found =>
        cases found with
        | none =>
          obtain ⟨pieces, rest, hscan, hends⟩ := ih s.length (by simp [← hlength]) s rfl
          exact ⟨_, rest, .kept (hit?_eq_none_iff_misses.mp hhit) hscan, hends⟩
        | some hit =>
          obtain ⟨stretch, later, heq, hstretch, hmeets⟩ := exists_meets_of_hit? hhit
          have hshorter : later.length < n := by
            rw [← hlength, ← heq, List.length_append, hstretch, Hit.length]
            omega
          obtain ⟨pieces, rest, hscan, hends⟩ := ih _ hshorter later rfl
          exact ⟨_, rest, .matched heq hmeets hscan, hends⟩

theorem Misses.answer_eq {stretch : List Char} {answer : Except Fault (Option (List Nat))}
    (hmisses : p.Misses s) (hmeets : p.Meets s stretch answer) : answer = .ok none :=
  hmeets.answer.symm.trans (hmisses stretch hmeets.begins hmeets.ne_nil)

/-- There is one shortest stretch that anything is said about. -/
theorem Meets.unique {stretch stretch' : List Char}
    {answer answer' : Except Fault (Option (List Nat))} (hmeets : p.Meets s stretch answer)
    (hmeets' : p.Meets s stretch' answer') (hspeaks : answer ≠ .ok none)
    (hspeaks' : answer' ≠ .ok none) : stretch = stretch' ∧ answer = answer' := by
  have hsame : stretch = stretch' := by
    by_contra hother
    rcases List.prefix_or_prefix_of_prefix hmeets.begins hmeets'.begins with hshorter | hshorter
    · exact hspeaks (hmeets.answer.symm.trans (hmeets'.shortest _ hshorter hmeets.ne_nil hother))
    · exact hspeaks' (hmeets'.answer.symm.trans
        (hmeets.shortest _ hshorter hmeets'.ne_nil (Ne.symm hother)))
  refine ⟨hsame, ?_⟩
  rw [← hmeets.answer, ← hmeets'.answer, hsame]

/-- A scan that has come to its end or to a fault has got as far as any. -/
theorem Scans.isPrefix (hscan : p.Scans s pieces rest)
    (hends : rest = [] ∨ ∃ stretch fault, p.Meets rest stretch (.error fault))
    (hscan' : p.Scans s pieces' rest') : pieces' <+: pieces := by
  induction hscan' generalizing pieces with
  | here s => exact List.nil_prefix
  | @kept c s rest' pieces' hmisses _ ih =>
    cases hscan with
    | here =>
      rcases hends with hnil | ⟨stretch, fault, hmeets⟩
      · cases hnil
      · cases hmisses.answer_eq hmeets
    | kept _ hlater => exact (List.prefix_cons_inj _).mpr (ih hlater)
    | matched _ hmeets => cases hmisses.answer_eq hmeets
  | @matched s stretch later rest' segments pieces' hs hmeets _ ih =>
    cases hscan with
    | here =>
      rcases hends with rfl | ⟨stretch', fault, hmeets'⟩
      · exact (hmeets.ne_nil (List.prefix_nil.mp hmeets.begins)).elim
      · cases (hmeets.unique hmeets' nofun nofun).2
    | kept hmisses => cases hmisses.answer_eq hmeets
    | matched hs' hmeets' hlater =>
      obtain ⟨rfl, hsame⟩ := hmeets.unique hmeets' nofun nofun
      cases hsame
      rw [← hs'] at hs
      obtain rfl := List.append_cancel_left hs
      exact (List.prefix_cons_inj _).mpr (ih hlater)

end Scanning

end Matcher

end WordGrammar
