import Userstyle.Proofs.Concatenation

/-!
# Merging sets of patterns

A set of patterns comes about by moves: patterns are added, the set is frozen, or another set that
came about in this way is absorbed. All that is left of the moves is whether one of them freezes the
set, and the patterns that they offer, each where it was offered first (`empty_after`). The laws of
absorbing follow from that: sets are merged by putting the patterns on offer behind each other.
-/

namespace Userstyle.PatternSet

/-! ## Moves -/

/-- Something that is done to a set of patterns. -/
inductive Move where
  /-- A pattern is added. -/
  | add (p : String)
  /-- The set is frozen. -/
  | freeze
  /-- A set is absorbed that came about by moves of its own, out of the empty set. -/
  | absorb (moves : List Move)

mutual

/-- The set after a move. -/
def Move.on (s : PatternSet) : Move → PatternSet
  | .add p => s.add p
  | .freeze => s.freeze.2
  | .absorb ms => s.absorb (empty.after ms)

/-- The set after moves that are made one after the other. -/
def after (s : PatternSet) : List Move → PatternSet
  | [] => s
  | m :: ms => (m.on s).after ms

end

mutual

/-- The patterns that a move offers. A set that is absorbed offers what was offered to it. -/
def Move.offered : Move → List String
  | .add p => [p]
  | .freeze => []
  | .absorb ms => offered ms

/-- The patterns that moves offer, in the order of the moves. -/
def offered : List Move → List String
  | [] => []
  | m :: ms => m.offered ++ offered ms

end

mutual

/-- Whether a move freezes the set. -/
def Move.freezes : Move → Bool
  | .add _ => false
  | .freeze => true
  | .absorb ms => freezes ms

/-- Whether one of several moves freezes the set. -/
def freezes : List Move → Bool
  | [] => false
  | m :: ms => m.freezes || freezes ms

end

/-- What freezing a set answers; the other moves give no answer. -/
def Move.answer? (s : PatternSet) : Move → Option Bool
  | .freeze => some s.freeze.1
  | _ => none

/-- The answers to moves that are made one after the other. -/
def answers (s : PatternSet) : List Move → List (Option Bool)
  | [] => []
  | m :: ms => m.answer? s :: (m.on s).answers ms

/-! ## What is left of the moves -/

/-- The set to which some patterns were offered, and which was frozen or not. -/
def gathered (frozen : Bool) (ps : List String) : PatternSet :=
  if frozen then .frozen else .listed ps.eraseDups

variable (b c : Bool) (ps qs : List String)

theorem gathered_add (p : String) : (gathered b ps).add p = gathered b (ps ++ [p]) := by
  cases b with
  | true => rfl
  | false => exact listed_add ps p

theorem gathered_absorb :
    (gathered b ps).absorb (gathered c qs) = gathered (b || c) (ps ++ qs) := by
  cases c with
  | true =>
    rw [Bool.or_true]
    rfl
  | false =>
    rw [Bool.or_false]
    show (gathered b ps).addAll qs.eraseDups = gathered b (ps ++ qs)
    cases b with
    | true => exact frozen_addAll _
    | false =>
      show (listed ps.eraseDups).addAll qs.eraseDups = listed (ps ++ qs).eraseDups
      rw [listed_addAll, eraseDups_append_eraseDups]

mutual

theorem Move.on_gathered (b : Bool) (ps : List String) (m : Move) :
    m.on (gathered b ps) = gathered (b || m.freezes) (ps ++ m.offered) := by
  cases m with
  | add p => rw [Move.on, Move.freezes, Move.offered, gathered_add, Bool.or_false]
  | freeze =>
    rw [Move.on, Move.freezes, Bool.or_true]
    rfl
  | absorb ms => rw [Move.on, Move.freezes, Move.offered, empty_after ms, gathered_absorb]

theorem after_gathered (b : Bool) (ps : List String) (ms : List Move) :
    (gathered b ps).after ms = gathered (b || freezes ms) (ps ++ offered ms) := by
  cases ms with
  | nil => rw [after, freezes, offered, Bool.or_false, List.append_nil]
  | cons m ms =>
    rw [after, freezes, offered, m.on_gathered b ps, after_gathered, Bool.or_assoc,
      List.append_assoc]

theorem empty_after (ms : List Move) : empty.after ms = gathered (freezes ms) (offered ms) := by
  have h := after_gathered false [] ms
  rw [Bool.false_or, List.nil_append] at h
  exact h

end

example : empty.after [.add "b", .absorb [.add "a", .add "b", .add "c"], .add "a"] =
    .listed ["b", "a", "c"] := by decide

/-! ## Laws of absorbing -/

/-- Every pattern is listed once. -/
theorem nodup_eraseDups (ps : List String) : ps.eraseDups.Nodup := by
  induction ps using List.reverseRecOn with
  | nil => exact List.nodup_nil
  | append_singleton ps p ih =>
    rw [eraseDups_concat]
    by_cases hp : p ∈ ps
    · rwa [if_pos hp]
    · rw [if_neg hp]
      have hnew : p ∉ ps.eraseDups := fun h => hp (List.mem_eraseDups.mp h)
      refine List.nodup_append.mpr ⟨ih, List.nodup_cons.mpr ⟨List.not_mem_nil, List.nodup_nil⟩, ?_⟩
      intro q hq r hr
      rw [List.mem_singleton.mp hr]
      rintro rfl
      exact hnew hq

section Laws

variable (ls ms ns : List Move)

theorem patterns_after_nodup : (empty.after ms).patterns.Nodup := by
  rw [empty_after]
  cases freezes ms with
  | true => exact List.nodup_nil
  | false => exact nodup_eraseDups _

theorem after_absorb_assoc :
    ((empty.after ls).absorb (empty.after ms)).absorb (empty.after ns) =
      (empty.after ls).absorb ((empty.after ms).absorb (empty.after ns)) := by
  simp only [empty_after, gathered_absorb]
  rw [Bool.or_assoc, List.append_assoc]

theorem after_absorb_self : (empty.after ms).absorb (empty.after ms) = empty.after ms := by
  have hps : (offered ms ++ offered ms).eraseDups = (offered ms).eraseDups := by
    have hnone : (offered ms).removeAll (offered ms) = [] := by
      simp [List.removeAll, List.filter_eq_nil_iff]
    rw [List.eraseDups_append, hnone, List.eraseDups_nil, List.append_nil]
  rw [empty_after, gathered_absorb, Bool.or_self]
  unfold gathered
  rw [hps]

theorem absorb_empty (s : PatternSet) : s.absorb empty = s := rfl

theorem empty_absorb_after : empty.absorb (empty.after ms) = empty.after ms := by
  have h := gathered_absorb false (freezes ms) [] (offered ms)
  rw [Bool.false_or, List.nil_append] at h
  rw [empty_after]
  exact h

theorem absorb_frozen (s : PatternSet) : s.absorb frozen = frozen := rfl

theorem frozen_absorb (s : PatternSet) : frozen.absorb s = frozen := by
  cases s with
  | listed ps => exact frozen_addAll ps
  | frozen => rfl

end Laws

/-! ## Freezing -/

theorem Move.on_frozen (m : Move) : m.on frozen = frozen := by
  cases m with
  | add p => rfl
  | freeze => rfl
  | absorb ms =>
    rw [Move.on]
    exact frozen_absorb _

theorem frozen_after (ms : List Move) : frozen.after ms = frozen := by
  induction ms with
  | nil => rfl
  | cons m ms ih => rw [after, m.on_frozen, ih]

/-- Only a set that is open can be told that it was frozen by this very move. -/
theorem Move.answer?_eq_true {s : PatternSet} {m : Move} (h : m.answer? s = some true) :
    s ≠ frozen ∧ m.on s = frozen := by
  cases m with
  | freeze =>
    refine ⟨?_, rfl⟩
    rintro rfl
    cases h
  | add p => cases h
  | absorb ms => cases h

theorem count_answers_frozen (ms : List Move) : (frozen.answers ms).count (some true) = 0 := by
  induction ms with
  | nil => rfl
  | cons m ms ih =>
    have hno : ¬ m.answer? frozen = some true := fun h => (Move.answer?_eq_true h).1 rfl
    rw [answers, m.on_frozen, List.count_cons_of_ne hno, ih]

theorem count_answers_le_one (s : PatternSet) (ms : List Move) :
    (s.answers ms).count (some true) ≤ 1 := by
  induction ms generalizing s with
  | nil => exact Nat.zero_le 1
  | cons m ms ih =>
    rw [answers]
    by_cases h : m.answer? s = some true
    · rw [h, List.count_cons_self, (Move.answer?_eq_true h).2, count_answers_frozen]
    · rw [List.count_cons_of_ne h]
      exact ih _

theorem length_answers (s : PatternSet) (ms : List Move) :
    (s.answers ms).length = ms.length := by
  induction ms generalizing s with
  | nil => rfl
  | cons m ms ih => rw [answers, List.length_cons, ih, List.length_cons]

theorem answers_append (s : PatternSet) (ms ns : List Move) :
    s.answers (ms ++ ns) = s.answers ms ++ (s.after ms).answers ns := by
  induction ms generalizing s with
  | nil => rfl
  | cons m ms ih => rw [List.cons_append, answers, answers, after, ih, List.cons_append]

/-- The answer to freezing a set after some moves. -/
theorem answers_freeze (s : PatternSet) (before behind : List Move) :
    (s.answers (before ++ .freeze :: behind))[before.length]? =
      some (some (!(s.after before).isFrozen)) := by
  rw [answers_append, answers, ← length_answers s before, List.getElem?_append_right (Nat.le_refl _),
    Nat.sub_self]
  rfl

/-- Absorbing is the merge that goes with reading conditions: what conditions amount to is what the
first of them amount to, with what the others amount to absorbed. On the sets that moves can lead to
it is associative and idempotent, the empty set is its identity on both sides, and a frozen set on
either side freezes the result. Such a set lists no pattern twice, and lists the patterns in the
order in which they were offered first. A frozen set stays frozen whatever is done to it, and
freezing answers that the set was open at most once in a row of moves, which is when it was. -/
theorem absorb_merges :
    (∀ cs ds : List Condition,
      (Targeting.empty.addAll (cs ++ ds)).patterns =
          (Targeting.empty.addAll cs).patterns.absorb (Targeting.empty.addAll ds).patterns ∧
        (Targeting.empty.addAll (cs ++ ds)).diagnostics =
          (Targeting.empty.addAll cs).diagnostics ++ (Targeting.empty.addAll ds).diagnostics) ∧
    (∀ ms : List Move,
      (empty.after ms).patterns.Nodup ∧
        empty.after ms = if freezes ms then frozen else listed (offered ms).eraseDups) ∧
    (∀ ls ms ns : List Move,
      ((empty.after ls).absorb (empty.after ms)).absorb (empty.after ns) =
        (empty.after ls).absorb ((empty.after ms).absorb (empty.after ns))) ∧
    (∀ ms : List Move,
      (empty.after ms).absorb (empty.after ms) = empty.after ms ∧
        (empty.after ms).absorb empty = empty.after ms ∧
        empty.absorb (empty.after ms) = empty.after ms ∧
        (empty.after ms).absorb frozen = frozen ∧
        frozen.absorb (empty.after ms) = frozen ∧
        frozen.after ms = frozen) ∧
    (∀ (s : PatternSet) (ms : List Move), (s.answers ms).count (some true) ≤ 1) ∧
    ∀ (s : PatternSet) (before behind : List Move),
      (s.answers (before ++ .freeze :: behind))[before.length]? =
        some (some (!(s.after before).isFrozen)) := by
  refine ⟨Targeting.addAll_absorb, fun ms => ⟨patterns_after_nodup ms, empty_after ms⟩,
    after_absorb_assoc, fun ms => ⟨after_absorb_self ms, absorb_empty _, empty_absorb_after ms,
      absorb_frozen _, frozen_absorb _, frozen_after ms⟩, count_answers_le_one,
    answers_freeze⟩

end Userstyle.PatternSet
