import WordGrammar.Proofs.Pattern.Limits
import WordGrammar.Proofs.Pattern.RoundTrip

namespace WordGrammar.Pattern

variable {α β : Type} {kind : Kind} {inner : Reader (Expr Float)} {n : Nat}

/-- In a source of no more than `n` characters, what the reader takes before a character that it
    does not expect is the beginning of a phrase. In place of the character the empty atom would do,
    and behind that one bracket for each that is still open. -/
def Completable (kind : Kind) (reader : Reader α) (phrase : α → Phrase) (n : Nat) : Prop :=
  ∀ source c rest, source.length ≤ n → reader source = .error ⟨.unexpected c, rest⟩ →
    ∃ before tail a, source = before ++ rest ∧ Writes kind (before ++ tail) (phrase a)

section Levels

/-- A term is missing here, or within the brackets of this one, which can still be closed. -/
theorem term_completable (hinner : Completable kind inner .expression n) :
    Completable kind (term kind inner) .term (n + 1) := by
  have hbody {bracket : Char} {source rest : List Char} {c : Char}
      (hlength : (bracket :: source).length ≤ n + 1)
      (hread : inner (skipBlanks source) = .error ⟨.unexpected c, rest⟩) :
      ∃ blanks before tail e, source = blanks ++ (before ++ rest) ∧
        (∀ c ∈ blanks, isBlank c = true) ∧ Writes kind (before ++ tail) (.expression e) := by
    obtain ⟨before, tail, e, hskip, hwrites⟩ := hinner _ _ _
      ((length_skipBlanks_le source).trans (Nat.le_of_succ_le_succ hlength)) hread
    obtain ⟨blanks, hsource, hblanks⟩ := gap_skipBlanks source
    exact ⟨blanks, before, tail, e, hskip ▸ hsource, hblanks, hwrites⟩
  intro source c rest hlength hread
  unfold term at hread
  split at hread
  · cases hread
  · exact (readAtom_ne_unexpected (Outcome.error_of_bind_ok hread)).elim
  · rcases Outcome.bind_eq_error_iff.mp hread with hread | ⟨_, -, hclose⟩
    · obtain ⟨blanks, before, tail, e, rfl, hblanks, hwrites⟩ := hbody hlength hread
      refine ⟨'(' :: (blanks ++ before), tail ++ [')'], .repeated e 0 1, by simp, ?_⟩
      simpa using writes_optional blanks hblanks hwrites
    · exact (close_ne_unexpected (by simp) hclose).elim
  · rcases Outcome.bind_eq_error_iff.mp hread with hread | ⟨_, -, hclose⟩
    · obtain ⟨blanks, before, tail, e, rfl, hblanks, hwrites⟩ := hbody hlength hread
      refine ⟨'[' :: (blanks ++ before), tail ++ [']'], e, by simp, ?_⟩
      simpa using writes_group blanks hblanks hwrites
    · exact (close_ne_unexpected (by simp) hclose).elim
  · split at hread
    · exact (readCapture_ne_unexpected (Outcome.error_of_bind_ok hread)).elim
    · split at hread
      · cases hread
      · cases hread
        exact ⟨[], quoteAtom [], .atom "", rfl, writes_atom ""⟩

theorem quantified_completable (hinner : Completable kind inner .expression n) :
    Completable kind (quantified kind inner) .quantified (n + 1) := by
  intro source c rest hlength hread
  rcases Outcome.bind_eq_error_iff.mp hread with hterm | ⟨⟨body, behind⟩, -, hbounds⟩
  · obtain ⟨before, tail, e, hsource, hwrites⟩ := term_completable hinner _ _ _ hlength hterm
    exact ⟨before, tail, e, hsource, hwrites.imp fun _ _ => .once⟩
  · dsimp only at hbounds
    split at hbounds
    · exact (readBounds_ne_unexpected (Outcome.error_of_bind_ok hbounds)).elim
    · cases hbounds

section Joined

variable {separator : Char} {item : Reader α} {one : α → Phrase} {joined : List α → Phrase}

/-- Where the first item or one behind it is completed, all of them are. -/
theorem joined_completable (hsees : Nearsighted item)
    (hsound : ∀ source a rest, item source = .ok (a, rest) → Derives kind (one a) source rest)
    (hitem : Completable kind item one n)
    (hone : ∀ a source rest, Derives kind (one a) source rest →
      Derives kind (joined [a]) source rest)
    (hmore : ∀ a as source behind next rest, Derives kind (one a) source behind →
      Word [separator] behind next → Derives kind (joined as) next rest →
      Derives kind (joined (a :: as)) source rest)
    {source rest : List Char} {c : Char} {budget : α × List Char → Nat}
    {f : α × List Char → List α × List Char → β × List Char} (hlength : source.length ≤ n)
    (hread : item source = .error ⟨.unexpected c, rest⟩ ∨
      ∃ read, item source = .ok read ∧
        (following separator item (budget read) read.2 >>= fun later => .ok (f read later)) =
          .error ⟨.unexpected c, rest⟩) :
    ∃ before tail a as, source = before ++ rest ∧
      Writes kind (before ++ tail) (joined (a :: as)) := by
  rcases hread with hfirst | ⟨⟨a, behind⟩, hfirst, hlater⟩
  · obtain ⟨before, tail, a, hsource, hwrites⟩ := hitem _ _ _ hlength hfirst
    exact ⟨before, tail, a, [], hsource, hwrites.imp (hone a)⟩
  have hfollow := Outcome.error_of_bind_ok hlater
  clear hlater
  generalize budget (a, behind) = budget at hfollow
  induction budget generalizing a source behind with
  | zero => cases hfollow
  | succ budget ih =>
    unfold following at hfollow
    split at hfollow
    · cases hfollow
    rename_i next hsymbol
    obtain ⟨more, rfl, blanks, rfl, hblanks⟩ := word_of_symbol? hsymbol
    obtain ⟨taken, rfl, htaken⟩ := hsees.ok hfirst
    have hshorter : next.length ≤ n := by
      simp only [List.length_append] at hlength
      omega
    have hlater : ∃ before tail as, next = before ++ rest ∧
        Writes kind (before ++ tail) (joined as) := by
      rcases Outcome.bind_eq_error_iff.mp hfollow with hnext | ⟨⟨b, behind⟩, hnext, hlater⟩
      · obtain ⟨before, tail, b, hsource, hwrites⟩ := hitem _ _ _ hshorter hnext
        exact ⟨before, tail, [b], hsource, hwrites.imp (hone b)⟩
      · obtain ⟨before, tail, b, bs, hsource, hwrites⟩ :=
          ih hshorter b behind hnext (Outcome.error_of_bind_ok hlater)
        exact ⟨before, tail, b :: bs, hsource, hwrites⟩
    obtain ⟨before, tail, as, rfl, hwrites⟩ := hlater
    refine ⟨taken ++ separator :: (blanks ++ before), tail, a, as, by simp, ?_⟩
    intro behind rest hpart hgap
    -- The item is read alike before what is put behind the separator now.
    have hderives := hsound _ _ _ (htaken (separator :: (blanks ++ (before ++ tail ++ behind)))
      (Resumes.cons separator _ _))
    have hword : Word [separator] (separator :: (blanks ++ (before ++ tail ++ behind)))
        (before ++ tail ++ behind) := ⟨_, rfl, blanks, rfl, hblanks⟩
    simpa using hmore a as _ _ _ _ hderives hword (hwrites behind rest hpart hgap)

end Joined

theorem sequence_completable (hsees : Nearsighted inner)
    (hsound : ∀ n, Sound kind inner .expression n) (hinner : Completable kind inner .expression n) :
    Completable kind (sequence kind inner) .sequence (n + 1) := by
  intro source c rest hlength hread
  obtain ⟨before, tail, first, others, hsource, hwrites⟩ := joined_completable
    (nearsighted_quantified hsees)
    (fun source e rest => quantified_sound (hsound source.length) source e rest (Nat.le_succ _))
    (quantified_completable hinner) (fun _ _ _ => Derives.item) (fun _ _ _ _ _ _ => Derives.items)
    hlength (Outcome.bind_eq_error_iff.mp hread)
  cases others with
  | nil => exact ⟨before, tail, first, hsource, hwrites.imp fun _ _ => .single⟩
  | cons second others =>
    exact ⟨before, tail, .seq (first :: second :: others), hsource,
      hwrites.imp fun _ _ h => .seq h (by simp)⟩

theorem alternative_completable (hsees : Nearsighted inner)
    (hsound : ∀ n, Sound kind inner .expression n) (hinner : Completable kind inner .expression n) :
    Completable kind (alternative kind inner) .alternative (n + 1) := by
  intro source c rest hlength hread
  rcases Outcome.bind_eq_error_iff.mp hread with hsequence | ⟨_, -, hweight⟩
  · obtain ⟨before, tail, e, hsource, hwrites⟩ :=
      sequence_completable hsees hsound hinner _ _ _ hlength hsequence
    exact ⟨before, tail, (e, none), hsource, hwrites.imp fun _ _ => .unweighted⟩
  · exact (readOptionalWeight_ne_unexpected (Outcome.error_of_bind_ok hweight)).elim

theorem choice_completable (hsees : Nearsighted inner)
    (hsound : ∀ n, Sound kind inner .expression n) (hinner : Completable kind inner .expression n) :
    Completable kind (choice kind inner) .expression (n + 1) := by
  intro source c rest hlength hread
  obtain ⟨before, tail, ⟨e, weight⟩, others, hsource, hwrites⟩ := joined_completable
    (nearsighted_alternative hsees)
    (fun source a rest => alternative_sound (hsound source.length) source a rest (Nat.le_succ _))
    (alternative_completable hsees hsound hinner) (fun _ _ _ => Derives.alternative)
    (fun _ _ _ _ _ _ => Derives.alternatives) hlength (Outcome.bind_eq_error_iff.mp hread)
  match others, weight with
  | [], none => exact ⟨before, tail, e, hsource, hwrites.imp fun _ _ => .plain⟩
  | [], some weight =>
    exact ⟨before, tail, _, hsource, hwrites.imp fun _ _ h => .choice h (.inr ⟨e, weight, rfl⟩)⟩
  | _ :: _, _ =>
    exact ⟨before, tail, _, hsource, hwrites.imp fun _ _ h => .choice h (.inl (by simp))⟩

theorem unlimited_completable (n : Nat) :
    Completable kind (unlimited kind) .expression n := by
  induction n with
  | zero =>
    intro source c rest hlength hread
    obtain rfl := List.length_eq_zero_iff.mp (Nat.le_zero.mp hlength)
    cases hread
  | succ n ih =>
    rw [← choice_unlimited]
    exact choice_completable nearsighted_unlimited unlimited_sound ih

end Levels

/-- What stands before a character that is not expected is the beginning of a text. -/
theorem exists_denotes_of_whole {source rest : List Char} {c : Char}
    (hread : whole kind source = .error ⟨.unexpected c, rest⟩) :
    ∃ before tail e, source = before ++ rest ∧ Denotes kind (String.ofList (before ++ tail)) e := by
  obtain ⟨blanks, hsource, hblanks⟩ := gap_skipBlanks source
  rcases Outcome.bind_eq_error_iff.mp hread with hread | ⟨⟨e, behind⟩, hread, hleft⟩
  · obtain ⟨before, tail, e, hskip, hwrites⟩ := unlimited_completable _ _ _ _ le_rfl hread
    refine ⟨blanks ++ before, tail, e, by rw [hsource, hskip, List.append_assoc], before ++ tail,
      ?_, ?_⟩
    · exact ⟨blanks, by simp, hblanks⟩
    · simpa using hwrites [] [] (by simp) (.refl [])
  · obtain ⟨taken, hskip, htaken⟩ := nearsighted_unlimited.ok hread
    have hend : unlimited kind taken = .ok (e, []) := by
      simpa using htaken [] (by simp [Resumes])
    cases behind with
    | nil => cases hleft
    | cons d more =>
      cases hleft
      refine ⟨blanks ++ taken, [], e, by rw [hsource, hskip, List.append_assoc], taken, ?_, ?_⟩
      · exact ⟨blanks, by simp, hblanks⟩
      · exact unlimited_sound _ _ _ _ le_rfl hend

/-- A character that is not expected is the first that cannot be gone on with: what stands before it
    is the beginning of a text that is read, and every text that begins with it and what stands
    before it is refused for it. -/
theorem unexpected_first {text : String} {c : Char} {position : Nat}
    (hread : read kind text = .error ⟨.unexpected c, position⟩) :
    (∃ other e, text.toList.take position <+: other.toList ∧ read kind other = .ok e) ∧
      ∀ other : String, text.toList.take (position + 1) <+: other.toList →
        read kind other = .error ⟨.unexpected c, position⟩ := by
  obtain ⟨⟨objection, rest⟩, hwhole, hmalformed⟩ := read_eq_error_iff.mp hread
  cases hmalformed
  constructor
  · obtain ⟨before, tail, e, htext, hdenotes⟩ := exists_denotes_of_whole hwhole
    refine ⟨String.ofList (before ++ tail), e, ?_, read_of_denotes hdenotes⟩
    simp [htext]
  · obtain ⟨before, more, rfl, htext, hbefore⟩ := nearsighted_whole.unexpected hwhole
    rintro other ⟨more', hother⟩
    have htake :
        text.toList.take (text.toList.length - (c :: more).length + 1) = before ++ [c] := by
      simp [htext, List.take_append]
    replace hother : before ++ c :: more' = other.toList := by
      rw [← hother, htake, List.append_assoc, List.singleton_append]
    refine read_eq_error_iff.mpr ⟨_, hother ▸ hbefore more', ?_⟩
    simp [htext, ← hother]

/-- A term is missing within two brackets, behind bounds, a slash and a dot. -/
theorem unexpected_first_in_brackets :
    read .pattern "[a\x7b:2\x7d / (b. )]" = .error ⟨.unexpected ')', 13⟩ ∧
      (∃ other e, "[a\x7b:2\x7d / (b. )]".toList.take 13 <+: other.toList ∧
        read .pattern other = .ok e) ∧
        ∀ other : String, "[a\x7b:2\x7d / (b. )]".toList.take 14 <+: other.toList →
          read .pattern other = .error ⟨.unexpected ')', 13⟩ :=
  have hread : read .pattern "[a\x7b:2\x7d / (b. )]" = .error ⟨.unexpected ')', 13⟩ := by cbv
  ⟨hread, unexpected_first hread⟩

end WordGrammar.Pattern
