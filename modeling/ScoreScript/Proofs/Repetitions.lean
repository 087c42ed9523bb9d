import ScoreScript.Proofs.Joined

set_option autoImplicit false

namespace ScoreScript.Phrase

variable {phrases : List Text}

def copied (previous : Text) : List Text → List Text
  | [] => []
  | phrase :: rest =>
    let put := if name phrase = repeatPrevious then previous else phrase
    put :: copied put rest

def startsCyclic (phrases : List Text) : Bool := phrases.head?.any (name · = repeatCycle)

/-- How many phrases are put out at least. A repetition of all phrases counts if it has none before it. -/
def leastCount (phrases : List Text) : Nat :=
  phrases.countP (name · ≠ repeatCycle) + if startsCyclic phrases then 1 else 0

theorem length_copied (previous : Text) (phrases : List Text) :
    (copied previous phrases).length = phrases.length := by
  induction phrases generalizing previous with
  | nil => rfl
  | cons phrase rest ih => simp [copied, ih]

theorem leastCount_cons (first : Text) (rest : List Text) :
    leastCount (first :: rest) = 1 + rest.length - cycleCount rest := by
  have parts : rest.length = cycleCount rest + rest.countP (name · ≠ repeatCycle) := by
    have split := @List.length_eq_countP_add_countP _ (fun phrase => decide (name phrase = repeatCycle)) rest
    simpa [cycleCount] using split
  have counted : leastCount (first :: rest) = 1 + rest.countP (name · ≠ repeatCycle) := by
    by_cases cycles : name first = repeatCycle <;>
      simp [leastCount, startsCyclic, cycles, Nat.add_comm]
  omega

variable (measures line : Int) (done : List Text)

theorem repeatFrom_concat (first second : List Text) :
    (repeatFrom measures line done (first ++ second)).1 =
      (repeatFrom measures line (repeatFrom (measures - second.length) line done first).1 second).1 := by
  induction first generalizing done with
  | nil => rfl
  | cons phrase rest ih =>
    have behind : measures - ((rest ++ second).length : Int) - done.length =
        measures - second.length - rest.length - done.length := by
      rw [List.length_append]
      omega
    rw [List.cons_append, repeatFrom, repeatFrom, behind]
    split_ifs <;> exact ih _

theorem prefix_repeatFrom (phrases : List Text) : done <+: (repeatFrom measures line done phrases).1 := by
  induction phrases generalizing done with
  | nil => exact List.prefix_rfl
  | cons phrase rest ih =>
    rw [repeatFrom]
    split_ifs with previous cycles nothing
    · exact (List.prefix_append _ _).trans (ih _)
    · rw [nothing]
      exact List.nil_prefix
    · exact (List.prefix_append _ _).trans (ih _)
    · exact (List.prefix_append _ _).trans (ih _)

theorem repeatFrom_of_calm (calm : ∀ phrase ∈ phrases, name phrase ≠ repeatCycle) :
    (repeatFrom measures line done phrases).1 =
      done ++ copied (done.getLast?.getD silence) phrases := by
  induction phrases generalizing done with
  | nil => simp [repeatFrom, copied]
  | cons phrase rest ih =>
    obtain ⟨here, later⟩ := List.forall_mem_cons.1 calm
    rw [repeatFrom, if_neg here, copied]
    split_ifs <;> rw [ih _ later] <;> simp

theorem exists_copy_of_split (before : List Text) {star : Text} (repeats : name star = repeatPrevious)
    (after : List Text) : ∃ made later,
      made = (expandRepetitions (measures - (after.length + 1)) line before).1 ∧
      (expandRepetitions measures line (before ++ star :: after)).1 =
        made ++ made.getLast?.getD silence :: later := by
  obtain ⟨later, whole⟩ := prefix_repeatFrom measures line
    ((repeatFrom (measures - (star :: after).length) line [] before).1 ++
      [(repeatFrom (measures - (star :: after).length) line [] before).1.getLast?.getD silence]) after
  refine ⟨_, later, rfl, ?_⟩
  rw [expandRepetitions, repeatFrom_concat, repeatFrom, if_pos repeats, ← whole, List.append_assoc]
  rfl

theorem getElem?_cycle (present : phrases ≠ []) {k count : Nat} (inside : k < count) :
    (cycle count phrases)[k]? = phrases[k % phrases.length]? := by
  induction count with
  | zero => omega
  | succ count ih =>
    have bound := Nat.mod_lt count (List.length_pos_iff.2 present)
    have next : cycle (count + 1) phrases = cycle count phrases ++ [phrases[count % phrases.length]] := by
      simp [cycle, List.range_succ, List.filterMap_append, List.getElem?_eq_getElem bound]
    have size := length_cycle count present
    rw [next]
    by_cases last : k = count
    · rw [last, List.getElem?_append_right (by omega), size, List.getElem?_eq_getElem bound]
      simp
    · rw [List.getElem?_append_left (by omega), ih (by omega)]

theorem exists_filling_of_split {before after : List Text} {mark : Text} (begun : before ≠ [])
    (cycles : name mark = repeatCycle) (calm : ∀ phrase ∈ before, name phrase ≠ repeatCycle)
    (calm' : ∀ phrase ∈ after, name phrase ≠ repeatCycle) : ∃ filling,
      (expandRepetitions measures line (before ++ mark :: after)).1 =
        copied silence before ++ filling ++
          copied ((copied silence before ++ filling).getLast?.getD silence) after ∧
      filling.length = (measures - before.length - after.length).toNat ∧
      ∀ k < filling.length, filling[k]? = (copied silence before)[k % before.length]? := by
  have start (count : Int) : (repeatFrom count line [] before).1 = copied silence before :=
    repeatFrom_of_calm count line [] calm
  have present : copied silence before ≠ [] := by
    rwa [← List.length_pos_iff, length_copied, List.length_pos_iff]
  have other : name mark ≠ repeatPrevious := by
    rw [cycles]
    decide
  have missing : measures - (after.length : Int) - (copied silence before).length =
      measures - before.length - after.length := by
    rw [length_copied]
    omega
  refine ⟨cycle (measures - before.length - after.length).toNat (copied silence before), ?_,
    length_cycle _ present, fun k inside => ?_⟩
  · rw [expandRepetitions, repeatFrom_concat, start, repeatFrom, if_neg other, if_pos cycles,
      if_neg present, missing, repeatFrom_of_calm measures line _ calm']
  · rw [length_cycle _ present] at inside
    rw [getElem?_cycle present inside, length_copied]

theorem reports_repeatFrom {done : List Text} (begun : done ≠ []) (phrases : List Text) :
    (repeatFrom measures line done phrases).2 = [] := by
  induction phrases generalizing done with
  | nil => rfl
  | cons phrase rest ih =>
    rw [repeatFrom]
    split_ifs <;> exact ih (by simp [begun])

theorem reports_expandRepetitions (phrases : List Text) : (expandRepetitions measures line phrases).2 =
    if startsCyclic phrases then [⟨.syntaxError, repeatCycle, line⟩] else [] := by
  cases phrases with
  | nil => rfl
  | cons first rest =>
    have quiet {copy : Text} : (repeatFrom measures line [copy] rest).2 = [] :=
      reports_repeatFrom measures line (by simp) rest
    have starts : startsCyclic (first :: rest) = decide (name first = repeatCycle) := rfl
    by_cases cycles : name first = repeatCycle
    · have other : name first ≠ repeatPrevious := by
        rw [cycles]
        decide
      rw [expandRepetitions, repeatFrom, if_neg other, if_pos cycles, if_pos rfl, starts,
        if_pos (decide_eq_true cycles)]
      exact congrArg _ quiet
    · have calm : ¬startsCyclic (first :: rest) = true := by simpa [starts] using cycles
      rw [expandRepetitions, repeatFrom, if_neg cycles, if_neg calm]
      split_ifs <;> exact quiet

/-- A repetition of all phrases behind at least one phrase fills a line up to the measures that are asked for;
otherwise the phrases count. A repetition of the phrase before puts out the last phrase so far. A single
repetition of all phrases puts out those before it, from the first one on. All phrases are reported only if
there are none to repeat. -/
theorem repetitions_put_out (phrases : List Text) :
    ((expandRepetitions measures line phrases).1.length : Int) =
        (if ∃ phrase ∈ phrases.tail, name phrase = repeatCycle then max measures (leastCount phrases)
          else leastCount phrases) ∧
      (∀ before star after, phrases = before ++ star :: after → name star = repeatPrevious →
        ∃ made later, made = (expandRepetitions (measures - (after.length + 1)) line before).1 ∧
          (expandRepetitions measures line phrases).1 = made ++ made.getLast?.getD silence :: later) ∧
      (∀ before mark after, phrases = before ++ mark :: after → before ≠ [] → name mark = repeatCycle →
        (∀ phrase ∈ before ++ after, name phrase ≠ repeatCycle) → ∃ filling,
          (expandRepetitions measures line phrases).1 = copied silence before ++ filling ++
            copied ((copied silence before ++ filling).getLast?.getD silence) after ∧
          filling.length = (measures - before.length - after.length).toNat ∧
          ∀ k < filling.length, filling[k]? = (copied silence before)[k % before.length]?) ∧
      (expandRepetitions measures line phrases).2 =
        if startsCyclic phrases then [⟨.syntaxError, repeatCycle, line⟩] else [] := by
  refine ⟨?_, ?_, ?_, reports_expandRepetitions measures line phrases⟩
  · cases phrases with
    | nil => simp [expandRepetitions, repeatFrom, leastCount, startsCyclic]
    | cons first rest =>
      have most : cycleCount rest ≤ rest.length := List.countP_le_length
      have behind : (∃ phrase ∈ rest, name phrase = repeatCycle) ↔ cycleCount rest ≠ 0 := by
        rw [← Nat.pos_iff_ne_zero, cycleCount, List.countP_pos_iff]
        simp
      rw [length_expandRepetitions, List.tail_cons, leastCount_cons]
      simp only [behind]
      split_ifs <;> omega
  · rintro before star after rfl repeats
    exact exists_copy_of_split measures line before repeats after
  · rintro before mark after rfl begun cycles calm
    obtain ⟨calm, calm'⟩ := List.forall_mem_append.1 calm
    exact exists_filling_of_split measures line begun cycles calm calm'

def filledLine : List Text := ["1 2", "3 4", "...", "*", "5"]

theorem repetitions_put_out_of_filledLine :
    (∃ phrase ∈ filledLine.tail, name phrase = repeatCycle) ∧
      (expandRepetitions 7 9 filledLine).1.length = 7 ∧
      name "*" = repeatPrevious ∧ (∃ made later, made = (expandRepetitions 5 9 ["1 2", "3 4", "..."]).1 ∧
        (expandRepetitions 7 9 filledLine).1 = made ++ made.getLast?.getD silence :: later) ∧
      name "..." = repeatCycle ∧ ∃ filling, filling.length = 3 ∧
        (expandRepetitions 7 9 filledLine).1 = copied silence ["1 2", "3 4"] ++ filling ++
          copied ((copied silence ["1 2", "3 4"] ++ filling).getLast?.getD silence) ["*", "5"] := by
  obtain ⟨size, stars, fills, -⟩ := repetitions_put_out 7 9 filledLine
  have cycles : ∃ phrase ∈ filledLine.tail, name phrase = repeatCycle := by decide
  rw [if_pos cycles] at size
  obtain ⟨filling, whole, count, -⟩ :=
    fills ["1 2", "3 4"] "..." ["*", "5"] rfl (by decide) (by decide) (by decide)
  refine ⟨cycles, Int.ofNat_inj.1 (size.trans (by decide)), by decide, ?_, by decide, filling, ?_, whole⟩
  · exact stars ["1 2", "3 4", "..."] "*" ["5"] rfl (by decide)
  · exact count.trans (by decide)

end ScoreScript.Phrase
