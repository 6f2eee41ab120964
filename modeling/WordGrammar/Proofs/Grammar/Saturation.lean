import Mathlib.Algebra.BigOperators.Intervals
import Mathlib.Algebra.BigOperators.Ring.Finset
import WordGrammar.Proofs.Grammar.Combinations
import WordGrammar.Proofs.Grammar.Count
import WordGrammar.Proofs.Grammar.Cycle

namespace WordGrammar

variable {W : Type}

namespace Combinations

theorem capped_of_le {n : Nat} (hle : n ≤ ceiling) : capped n = n :=
  Nat.min_eq_left hle

theorem capped_of_ge {n : Nat} (hge : ceiling ≤ n) : capped n = ceiling :=
  Nat.min_eq_right hge

theorem ceiling_pos : 0 < ceiling := by decide

/-- Products may be cut off before or after multiplying: a factor of zero makes a product zero
    however large the other was, and any other factor leaves it beyond the ceiling. -/
theorem capped_mul (a b : Nat) : capped (capped a * capped b) = capped (a * b) := by
  have hbeyond : ∀ {a : Nat} (b : Nat), ceiling ≤ a →
      capped (capped a * capped b) = capped (a * b) := by
    intro a b ha
    rcases Nat.eq_zero_or_pos b with rfl | hb
    · rw [capped_of_le (Nat.zero_le _), Nat.mul_zero, Nat.mul_zero]
    · have hb' : 0 < capped b := Nat.lt_min.mpr ⟨hb, ceiling_pos⟩
      rw [capped_of_ge ha, capped_of_ge (Nat.le_mul_of_pos_right _ hb'),
        capped_of_ge (ha.trans (Nat.le_mul_of_pos_right _ hb))]
  rcases Nat.le_total ceiling a with ha | ha
  · exact hbeyond b ha
  · rcases Nat.le_total ceiling b with hb | hb
    · rw [Nat.mul_comm, hbeyond a hb, Nat.mul_comm]
    · rw [capped_of_le ha, capped_of_le hb]

/-- Sums may be cut off before or after adding. -/
theorem capped_add (a b : Nat) : capped (capped a + capped b) = capped (a + b) := by
  unfold capped
  omega

theorem saturatingPower_capped (n exponent product : Nat) :
    saturatingPower (capped n) exponent (capped product) = capped (product * n ^ exponent) := by
  induction exponent generalizing product with
  | zero =>
    rw [Nat.pow_zero, Nat.mul_one]
    rfl
  | succ exponent ih =>
    have hsplit : product * n ^ (exponent + 1) = product * n * n ^ exponent := by
      rw [Nat.pow_succ', Nat.mul_assoc]
    rw [saturatingPower]
    simp only [capped_mul]
    rw [hsplit]
    split
    · rename_i hfull
      have hle : ceiling ≤ product * n := by
        rw [← hfull]
        exact Nat.min_le_left ..
      have hn : 0 < n := Nat.pos_of_mul_pos_left (ceiling_pos.trans_le hle)
      rw [capped_of_ge (hle.trans (Nat.le_mul_of_pos_right _ (Nat.pow_pos hn)))]
    · exact ih (product * n)

/-- An exponent that is not raised to belongs to a power beyond the ceiling. -/
theorem power_capped {n : Nat} (hbase : 2 ≤ capped n) (exponent : Nat) :
    power (capped n) exponent = capped (n ^ exponent) := by
  unfold power
  split
  · rename_i hlarge
    have hn : 2 ≤ n := hbase.trans (Nat.min_le_left ..)
    have hceiling : ceiling ≤ 2 ^ 128 := by decide
    have htwo : 2 ^ 128 ≤ 2 ^ exponent := Nat.pow_le_pow_right (by decide) (by omega)
    have hpower : 2 ^ exponent ≤ n ^ exponent := Nat.pow_le_pow_left hn exponent
    rw [capped_of_ge (hceiling.trans (htwo.trans hpower))]
  · have hone : capped 1 = 1 := by decide
    have hraised := saturatingPower_capped n exponent 1
    rwa [hone, Nat.one_mul] at hraised

/-- Adding powers up to the ceiling gives their sum, cut off. -/
theorem sumOfPowers_capped {n : Nat} (hbase : 2 ≤ capped n) (terms exponent sum : Nat) :
    sumOfPowers (capped n) terms exponent (capped sum) =
      capped (sum + ∑ i ∈ Finset.Ico exponent (exponent + terms), n ^ i) := by
  induction terms generalizing exponent sum with
  | zero => simp [sumOfPowers]
  | succ terms ih =>
    have hsplit : ∑ i ∈ Finset.Ico exponent (exponent + (terms + 1)), n ^ i =
        n ^ exponent + ∑ i ∈ Finset.Ico (exponent + 1) (exponent + 1 + terms), n ^ i := by
      rw [Finset.sum_eq_sum_Ico_succ_bot (by omega), Nat.add_right_comm exponent 1, Nat.add_assoc]
    rw [sumOfPowers]
    simp only [power_capped hbase, capped_add]
    rw [hsplit, ← Nat.add_assoc]
    split
    · rename_i hfull
      have hle : ceiling ≤ sum + n ^ exponent := by
        rw [← hfull]
        exact Nat.min_le_left ..
      rw [capped_of_ge (hle.trans (Nat.le_add_right ..))]
    · exact ih (exponent + 1) (sum + n ^ exponent)

/-- The count of a repetition is the sum of the powers of its body's count, cut off. -/
theorem ofRepetition_capped {least most : Nat} (hle : least ≤ most) (hmost : most < UInt64.size)
    (n : Nat) :
    ofRepetition (capped n) least most = .ok (capped (∑ i ∈ Finset.Icc least most, n ^ i)) := by
  have hceiling : UInt64.size ≤ ceiling := by decide
  obtain hzero | hone | hbase : n = 0 ∨ n = 1 ∨ 2 ≤ n := by omega
  · have hsum : ∑ i ∈ Finset.Icc least most, n ^ i = if least = 0 then 1 else 0 := by
      simp [hzero, zero_pow_eq]
    have hsmall : (if least = 0 then 1 else 0) ≤ ceiling := by split <;> decide
    rw [hsum, capped_of_le hsmall, hzero]
    rfl
  · have hsum : ∑ i ∈ Finset.Icc least most, n ^ i = most - least + 1 := by
      simp only [hone, one_pow]
      rw [← Finset.card_eq_sum_ones, Nat.card_Icc]
      omega
    have hsmall : most - least + 1 ≤ ceiling := by omega
    rw [hsum, capped_of_le hsmall, hone]
    exact if_neg (Nat.not_lt.mpr hle)
  · have hbase' : 2 ≤ capped n := Nat.le_min.mpr ⟨hbase, by decide⟩
    have hsum := sumOfPowers_capped hbase' (most + 1 - least) least 0
    have hend : least + (most + 1 - least) = most + 1 := by omega
    rw [hend, Nat.zero_add, Finset.Ico_add_one_right_eq_Icc] at hsum
    unfold ofRepetition
    split
    · omega
    · omega
    · exact congrArg Except.ok hsum

end Combinations

open Combinations

namespace Grammar

variable {g : Grammar W} {m n : Nat}

/-- Whatever has been recorded for a rule is its number of derivations, cut off. -/
def Recorded (g : Grammar W) (counts : List (String × Nat)) : Prop :=
  ∀ name m, counts.lookup name = some m → ∃ n, g.Counts (.ref name) n ∧ m = capped n

/-- With right records, the tally gives this number, cut off, and leaves the records right. -/
def Tallies (g : Grammar W) (t : Tally) (n : Nat) : Prop :=
  ∀ counts, g.Recorded counts →
    ∃ counts', t.run counts = .ok (capped n, counts') ∧ g.Recorded counts'

theorem Recorded.nil : g.Recorded [] := nofun

theorem Recorded.cons {counts : List (String × Nat)} {name : String} (hcounts : g.Recorded counts)
    (hname : g.Counts (.ref name) n) : g.Recorded ((name, capped n) :: counts) := by
  intro other m hlookup
  rw [List.lookup_cons] at hlookup
  split at hlookup
  · rename_i heq
    cases hlookup
    rw [eq_of_beq heq]
    exact ⟨n, hname, rfl⟩
  · exact hcounts other m hlookup

theorem Tallies.pure (n : Nat) : g.Tallies (Pure.pure (capped n)) n :=
  fun counts hcounts => ⟨counts, rfl, hcounts⟩

theorem Tallies.bind {t : Tally} {f : Nat → Tally} (ht : g.Tallies t m)
    (hf : g.Tallies (f (capped m)) n) : g.Tallies (t >>= f) n := by
  intro counts hcounts
  obtain ⟨counts', hrun, hcounts'⟩ := ht counts hcounts
  obtain ⟨counts'', hrun', hcounts''⟩ := hf counts' hcounts'
  refine ⟨counts'', ?_, hcounts''⟩
  rw [StateT.run_bind, hrun]
  exact hrun'

end Grammar

namespace Expr

open Grammar

variable {g : Grammar W} {rule : String → Tally}

theorem tallyItems_tallies {items : List (Expr W)} {count : Expr W → Nat}
    (hitems : ∀ item ∈ items, g.Tallies (item.tally rule) (count item)) (product : Nat) :
    g.Tallies (tallyItems rule (capped product) items) (product * (items.map count).prod) := by
  induction items generalizing product with
  | nil =>
    rw [List.map_nil, List.prod_nil, Nat.mul_one]
    exact .pure product
  | cons item items ih =>
    obtain ⟨hitem, hrest⟩ := List.forall_mem_cons.mp hitems
    rw [List.map_cons, List.prod_cons, ← Nat.mul_assoc]
    refine hitem.bind ?_
    rw [capped_mul]
    exact ih hrest _

theorem tallyAlternatives_tallies {alternatives : List (Weighted W (Expr W))}
    {count : Weighted W (Expr W) → Nat}
    (halternatives : ∀ a ∈ alternatives, g.Tallies (a.item.tally rule) (count a)) (sum : Nat) :
    g.Tallies (tallyAlternatives rule (capped sum) alternatives)
      (sum + (alternatives.map count).sum) := by
  induction alternatives generalizing sum with
  | nil => exact .pure sum
  | cons a alternatives ih =>
    obtain ⟨ha, hrest⟩ := List.forall_mem_cons.mp halternatives
    rw [List.map_cons, List.sum_cons, ← Nat.add_assoc]
    refine ha.bind ?_
    rw [capped_add]
    exact ih hrest _

/-- An expression without captures, and with bounds in order that a source can hold, has a number of
    derivations, which is what it is counted as, if the rules that it refers to are counted. -/
theorem exists_counts_tallies (e : Expr W)
    (hrule : ∀ name, e.Contains (.ref name) →
      ∃ n, g.Counts (.ref name) n ∧ g.Tallies (rule name) n)
    (hcaptures : ∀ index, ¬ e.Contains (.capture index))
    (hbounds : ∀ body least most, e.Contains (.repeated body least most) →
      least ≤ most ∧ most < UInt64.size) :
    ∃ n, g.Counts e n ∧ g.Tallies (e.tally rule) n := by
  induction e with
  | atom text => exact ⟨1, .atom text, .pure 1⟩
  | ref name => exact hrule name (.self _)
  | capture index => exact (hcaptures index (.self _)).elim
  | seq items ih =>
    have hitems : ∀ item ∈ items, ∃ n, g.Counts item n ∧ g.Tallies (item.tally rule) n := by
      intro item hmem
      apply ih item hmem
      · exact fun name hname => hrule name (.item hmem hname)
      · exact fun index hindex => hcaptures index (.item hmem hindex)
      · exact fun body least most hbody => hbounds body least most (.item hmem hbody)
    choose! count hcount htally using hitems
    refine ⟨_, .seq count hcount, ?_⟩
    rw [← Nat.one_mul (List.prod _)]
    exact tallyItems_tallies htally 1
  | choice alternatives ih =>
    have halternatives : ∀ a ∈ alternatives,
        ∃ n, g.Counts a.item n ∧ g.Tallies (a.item.tally rule) n := by
      intro a hmem
      apply ih a hmem
      · exact fun name hname => hrule name (.alternative hmem hname)
      · exact fun index hindex => hcaptures index (.alternative hmem hindex)
      · exact fun body least most hbody => hbounds body least most (.alternative hmem hbody)
    choose! count hcount htally using halternatives
    refine ⟨_, .choice count hcount, ?_⟩
    rw [← Nat.zero_add (List.sum _)]
    exact tallyAlternatives_tallies htally 0
  | repeated body least most ih =>
    obtain ⟨hle, hmost⟩ := hbounds body least most (.self _)
    have hbody : ∃ n, g.Counts body n ∧ g.Tallies (body.tally rule) n := by
      apply ih
      · exact fun name hname => hrule name (.body hname)
      · exact fun index hindex => hcaptures index (.body hindex)
      · exact fun inner low high hinner => hbounds inner low high (.body hinner)
    obtain ⟨n, hcount, htally⟩ := hbody
    refine ⟨_, .repeated least most hcount, htally.bind ?_⟩
    rw [ofRepetition_capped hle hmost]
    exact .pure _

end Expr

/-- The body of the rule can be counted: it has no captures, and the bounds of its repetitions are
    in order and within 64 bits. -/
structure Rule.Countable (r : Rule W) : Prop where
  captures : ∀ index, ¬ r.body.Contains (.capture index)
  bounds : ∀ body least most, r.body.Contains (.repeated body least most) →
    least ≤ most ∧ most < UInt64.size

namespace Grammar

open Relation

variable {g : Grammar W}

/-- A rule below which references nest no deeper than rules may be counted is counted right, be it
    anew or from the records. -/
theorem Shallow.exists_counts_tallies (hresolved : g.Resolved) {depth : Nat} {name : String}
    (hname : g.hasRule name = true) (hrules : ∀ next, ReflTransGen g.Refers name next →
      ∀ r, g.rule? next = some r → r.Countable)
    (hshallow : g.Shallow depth name) :
    ∃ n, g.Counts (.ref name) n ∧ g.Tallies (g.tally depth name) n := by
  induction depth generalizing name with
  | zero => exact hshallow.elim
  | succ depth ih =>
    obtain ⟨r, hrule⟩ := hasRule_iff.mp hname
    have hr := hrules name .refl r hrule
    have hbody : ∃ n, g.Counts r.body n ∧ g.Tallies (r.body.tally (g.tally depth)) n := by
      refine r.body.exists_counts_tallies (fun next hnext => ?_) hr.captures hr.bounds
      have hrefers : g.Refers name next := ⟨r, hrule, Expr.mem_references_iff.mpr hnext⟩
      apply ih (hresolved.hasRule_of_refers hrefers)
      · exact fun later hreach => hrules later (.head hrefers hreach)
      · exact hshallow next hrefers
    obtain ⟨n, hcount, htally⟩ := hbody
    have hcount' : g.Counts (.ref name) n := .ref hrule hcount
    refine ⟨n, hcount', fun counts hcounts => ?_⟩
    cases hlookup : counts.lookup name with
    | some m =>
      obtain ⟨n', hn', rfl⟩ := hcounts name m hlookup
      obtain rfl := hn'.unique hcount'
      exact ⟨counts, tally_of_lookup hrule hlookup depth, hcounts⟩
    | none =>
      obtain ⟨counts', hrun, hcounts'⟩ := htally counts hcounts
      refine ⟨_, ?_, hcounts'.cons hcount'⟩
      rw [tally_of_no_lookup hrule hlookup, hrun]
      rfl

/-- Where the root leads to no circle of references, and only to rules that can be counted, the
    count is its number of derivations, cut off. -/
theorem exists_counts_combinations (hresolved : g.Resolved) (hroot : g.hasRule g.root = true)
    (hcycle : g.cycle? = none)
    (hrules : ∀ name, ReflTransGen g.Refers g.root name →
      ∀ r, g.rule? name = some r → r.Countable) :
    ∃ n, g.Counts (.ref g.root) n ∧ g.combinations = .ok (capped n) := by
  have hshallow := shallow_of_acyclic hresolved hroot (not_cycleBelow_of_cycle? hcycle)
  obtain ⟨n, hcount, htally⟩ := hshallow.succ.exists_counts_tallies hresolved hroot hrules
  obtain ⟨counts, hrun, -⟩ := htally [] .nil
  refine ⟨n, hcount, ?_⟩
  rw [combinations, if_pos hroot, hrun]

/-- Counting is exact up to saturation. Where the root leads to no circle of references, and only to
    rules that can be counted, it has one number of derivations, and this is its count, unless no
    count is as large. -/
theorem combinations_eq_min (hresolved : g.Resolved) (hroot : g.hasRule g.root = true)
    (hcycle : g.cycle? = none)
    (hrules : ∀ name, ReflTransGen g.Refers g.root name →
      ∀ r, g.rule? name = some r → r.Countable) :
    ∃ n, g.Counts (.ref g.root) n ∧ (∀ m, g.Counts (.ref g.root) m → m = n) ∧
      g.combinations = .ok (min n (2 ^ 128 - 1)) := by
  obtain ⟨n, hcount, hcombinations⟩ := exists_counts_combinations hresolved hroot hcycle hrules
  exact ⟨n, hcount, fun m hm => hm.unique hcount, hcombinations⟩

/-- Words of up to `2 ^ 64 - 1` syllables, each of which has one of two consonants, or none, before
    its vowel. -/
def syllabary : Grammar Nat where
  rules := [
    ⟨"V", .choice [⟨.atom "a", 1⟩], [], []⟩,
    ⟨"S", .seq [.repeated (.choice [⟨.atom "p", 1⟩, ⟨.atom "t", 3⟩]) 0 1, .ref "V"], [], []⟩,
    ⟨"W", .repeated (.ref "S") 1 0xFFFFFFFFFFFFFFFF, [.atom "tata"], []⟩]
  root := "W"
  useWeights := false

theorem combinations_syllabary :
    syllabary.Resolved ∧ syllabary.hasRule syllabary.root = true ∧ syllabary.cycle? = none ∧
      (∀ r ∈ syllabary.rules, r.Countable) ∧
      ∃ n, syllabary.Counts (.ref "W") n ∧ 2 ^ 128 - 1 ≤ n ∧
        syllabary.combinations = .ok (2 ^ 128 - 1) := by
  have hresolved : syllabary.Resolved := by decide
  have hroot : syllabary.hasRule syllabary.root = true := by decide
  have hcycle : syllabary.cycle? = none := by decide
  have hcountable : ∀ r ∈ syllabary.rules, r.Countable := by
    have hsize : UInt64.size = 0x10000000000000000 := rfl
    simp only [syllabary, List.forall_mem_cons]
    refine ⟨⟨by simp, by simp⟩, ⟨by simp, ?_⟩, ⟨by simp, ?_⟩, nofun⟩
    · intro body least most hcontains
      simp at hcontains
      omega
    · intro body least most hcontains
      simp at hcontains
      omega
  obtain ⟨n, hcount, -, hcombinations⟩ := combinations_eq_min hresolved hroot hcycle
    fun name _ r hrule => hcountable r (mem_rules_of_rule? hrule)
  have hfull : syllabary.combinations = .ok (2 ^ 128 - 1) := by decide +kernel
  rw [hfull] at hcombinations
  have hmin := Except.ok.inj hcombinations
  exact ⟨hresolved, hroot, hcycle, hcountable, n, hcount, by omega, hfull⟩

end Grammar

end WordGrammar
