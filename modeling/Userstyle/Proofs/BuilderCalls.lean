import Userstyle.Proofs.Compilation

/-!
# Sequences of calls on one builder

A new builder is called any number of times, in any order. What it answers to a call follows from
the calls before that one: from the style sheet of the first `consume` and from whether a `build`
stands between that `consume` and the call. `due` is this answer, read off the calls alone, and
`Builder.reached_call` is the step that carries it through a sequence.
-/

namespace Userstyle.Script

/-- A call on a builder. -/
inductive Operation where
  | consume (css : String)
  | build (m : Metadata)

/-- What a builder answers to a call. -/
inductive Answer where
  | consumed (r : Except Error Unit)
  | built (r : Except Error Userscript)

namespace Operation

def isBuild : Operation → Bool
  | consume _ => false
  | build _ => true

end Operation

namespace Answer

/-- Whether a style sheet was taken. -/
def taken : Answer → Bool
  | consumed (.ok _) => true
  | _ => false

/-- Whether a script was handed out. -/
def handedOut : Answer → Bool
  | built (.ok _) => true
  | _ => false

end Answer

namespace Builder

def call (b : Builder) : Operation → Answer × Builder
  | .consume css => (.consumed (b.consume css).1.result, (b.consume css).2)
  | .build m => (.built (b.build m).1, (b.build m).2)

/-- The answers to calls that are made one after the other. -/
def answers (b : Builder) : List Operation → List Answer
  | [] => []
  | op :: ops => (b.call op).1 :: (b.call op).2.answers ops

end Builder

/-! ## Answers by history -/

/-- The style sheet of the first `consume` and the calls behind it. -/
def firstSheet? : List Operation → Option (String × List Operation)
  | [] => none
  | .consume css :: ops => some (css, ops)
  | .build _ :: ops => firstSheet? ops

/-- The answer to a call on a builder that was new before the calls `before`. -/
def due (before : List Operation) : Operation → Answer
  | .consume css =>
    match firstSheet? before with
    | none => .consumed (Builder.empty.consume css).1.result
    | some _ => .consumed (.error .alreadyConsumed)
  | .build m =>
    match firstSheet? before with
    | none => .built (.error .notReady)
    | some (css, between) =>
      match (Builder.empty.consume css).1.result with
      | .error _ => .built (.error .notReady)
      | .ok _ =>
        if between.any Operation.isBuild then .built (.error .alreadyBuilt)
        else .built (convert css m).result

namespace Builder

/-- What has become of a new builder after some calls. -/
def reached (before : List Operation) : Builder :=
  match firstSheet? before with
  | none => .empty
  | some (css, between) =>
    match (compile css).result with
    | .error _ => .failed
    | .ok program => if between.any Operation.isBuild then .built else .ready program

end Builder

theorem firstSheet?_concat (before : List Operation) (op : Operation) :
    firstSheet? (before ++ [op]) =
      match firstSheet? before with
      | none => firstSheet? [op]
      | some (css, between) => some (css, between ++ [op]) := by
  induction before with
  | nil => rfl
  | cons o before ih =>
    cases o with
    | consume css => rfl
    | build m => exact ih

theorem consume_empty_result (css : String) :
    (Builder.empty.consume css).1.result = (compile css).result.map fun _ => () := by
  unfold Builder.consume
  cases hc : (compile css).result <;> simp only [hc] <;> rfl

theorem consume_empty_state (css : String) :
    (Builder.empty.consume css).2 = .reached [.consume css] := by
  unfold Builder.consume Builder.reached firstSheet?
  cases hc : (compile css).result with
  | error e => simp only [hc]
  | ok program =>
    simp only [hc]
    rfl

namespace Builder

/-- One call: its answer is the one that is due, and the builder is where the calls up to and
including this one bring it. -/
theorem reached_call (before : List Operation) (op : Operation) :
    (reached before).call op = (due before op, reached (before ++ [op])) := by
  have hnext := firstSheet?_concat before op
  cases hsheet : firstSheet? before with
  | none =>
    have hempty : reached before = .empty := by
      unfold reached
      rw [hsheet]
    rw [hsheet] at hnext
    rw [hempty]
    cases op with
    | consume css =>
      have hstate : reached (before ++ [.consume css]) = reached [.consume css] := by
        unfold reached
        rw [hnext]
      rw [hstate, ← consume_empty_state, due, hsheet, call]
    | build m =>
      have hstate : reached (before ++ [.build m]) = .empty := by
        unfold reached
        rw [hnext]
        rfl
      rw [hstate, due, hsheet]
      rfl
  | some sheet =>
    obtain ⟨css, between⟩ := sheet
    rw [hsheet] at hnext
    have hresult := consume_empty_result css
    unfold reached
    cases op with
    | consume css' =>
      rw [hnext, due, hsheet]
      simp only [List.any_append, List.any_cons, List.any_nil, Operation.isBuild, Bool.or_false]
      -- each of the three states that a builder with a sheet can be in refuses a second one
      cases (compile css).result with
      | error e => rfl
      | ok program => cases between.any Operation.isBuild <;> rfl
    | build m =>
      rw [hnext, due, hsheet]
      simp only [List.any_append, List.any_cons, List.any_nil, Operation.isBuild, Bool.or_false,
        Bool.or_true]
      rw [hresult, convert_result_eq]
      cases (compile css).result with
      | error e => rfl
      | ok program => cases between.any Operation.isBuild <;> rfl

theorem length_answers (b : Builder) (ops : List Operation) :
    (b.answers ops).length = ops.length := by
  induction ops generalizing b with
  | nil => rfl
  | cons op ops ih => exact congrArg (· + 1) (ih _)

/-- The calls made on a builder that other calls have brought where it is. -/
theorem answers_reached_append (done before : List Operation) (op : Operation)
    (after : List Operation) :
    (reached done).answers (before ++ op :: after) =
      (reached done).answers before ++
        due (done ++ before) op :: (reached (done ++ before ++ [op])).answers after := by
  induction before generalizing done with
  | nil =>
    rw [List.nil_append, List.append_nil]
    change ((reached done).call op).1 :: ((reached done).call op).2.answers after = _
    rw [reached_call]
    rfl
  | cons o before ih =>
    have hrest := ih (done ++ [o])
    rw [List.append_assoc, List.singleton_append] at hrest
    rw [List.cons_append, answers, answers, reached_call, hrest]
    rfl

/-! ## How often a builder says yes -/

/-- How many style sheets the builder still takes. -/
def sheetsLeft : Builder → Nat
  | .empty => 1
  | _ => 0

/-- How many scripts the builder still hands out. -/
def scriptsLeft : Builder → Nat
  | .empty => 1
  | .ready _ => 1
  | _ => 0

/-- A call uses up what it is granted. -/
theorem call_uses (b : Builder) (op : Operation) :
    (b.call op).2.sheetsLeft + (if (b.call op).1.taken then 1 else 0) ≤ b.sheetsLeft ∧
      (b.call op).2.scriptsLeft + (if (b.call op).1.handedOut then 1 else 0) ≤ b.scriptsLeft := by
  cases b with
  | empty =>
    cases op with
    | consume css =>
      rw [call, consume]
      cases (compile css).result with
      | error e => exact ⟨Nat.zero_le 1, Nat.zero_le 1⟩
      | ok program => exact ⟨Nat.le_refl 1, Nat.le_refl 1⟩
    | build m => exact ⟨Nat.le_refl 1, Nat.le_refl 1⟩
  | ready program =>
    cases op with
    | consume css => exact ⟨Nat.le_refl 0, Nat.le_refl 1⟩
    | build m => exact ⟨Nat.le_refl 0, Nat.le_refl 1⟩
  | built => cases op <;> exact ⟨Nat.le_refl 0, Nat.le_refl 0⟩
  | failed => cases op <;> exact ⟨Nat.le_refl 0, Nat.le_refl 0⟩

theorem answers_uses (b : Builder) (ops : List Operation) :
    (b.answers ops).countP Answer.taken ≤ b.sheetsLeft ∧
      (b.answers ops).countP Answer.handedOut ≤ b.scriptsLeft := by
  induction ops generalizing b with
  | nil => exact ⟨Nat.zero_le _, Nat.zero_le _⟩
  | cons op ops ih =>
    obtain ⟨hsheets, hscripts⟩ := call_uses b op
    obtain ⟨hsheets', hscripts'⟩ := ih (b.call op).2
    rw [answers, List.countP_cons, List.countP_cons]
    constructor <;> omega

/-- Every call in every sequence of calls on a new builder gets the answer that the calls before it
make due, and of all the calls at most one `consume` and at most one `build` succeeds. A `build`
without a sheet changes nothing; a sheet that fails leaves every later `build` not ready; and the
first `build` behind a sheet that was taken gives what `convert` gives, with any number of refused
sheets in between. -/
theorem answers_by_history :
    (∀ before op after,
      (empty.answers (before ++ op :: after))[before.length]? = some (due before op)) ∧
    (∀ ops, (empty.answers ops).countP Answer.taken ≤ 1) ∧
    (∀ ops, (empty.answers ops).countP Answer.handedOut ≤ 1) := by
  refine ⟨fun before op after => ?_, fun ops => (answers_uses empty ops).1,
    fun ops => (answers_uses empty ops).2⟩
  have happend := answers_reached_append [] before op after
  have hlength := length_answers (reached []) before
  change empty.answers _ = _ at happend
  rw [happend, ← hlength, List.getElem?_append_right (Nat.le_refl _), Nat.sub_self]
  rfl

end Builder

end Userstyle.Script
