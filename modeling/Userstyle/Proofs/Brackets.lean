import Userstyle.Css.Stylesheet

/-!
# Matching brackets

Lexemes are balanced if every bracket that is opened among them is closed among them (`Balanced`).
Inside of a bracket everything may stand but what closes it, and a closing bracket of another kind
counts for nothing there. Lexemes that are not balanced leave brackets open (`Leaves`). The brackets
that the reader keeps count of are those that the lexemes leave open (`Leaves.snoc`).
-/

namespace Userstyle.Css

/-! ## Brackets that are open -/

theorem nestingAfter_opening (b : Bracket) (nesting : List Bracket) :
    nestingAfter (.opening b) nesting = b :: nesting := by
  cases nesting <;> rfl

theorem nestingAfter_closing (b : Bracket) (outer : List Bracket) :
    nestingAfter (.closing b) (b :: outer) = outer := by
  simp [nestingAfter]

theorem nestingAfter_nil {t : Token} (ht : ∀ b, t ≠ .opening b) : nestingAfter t [] = [] := by
  cases t with
  | opening b => exact absurd rfl (ht b)
  | _ => rfl

/-- A token that neither opens a bracket nor closes the innermost one changes nothing. -/
theorem nestingAfter_of_ne {t : Token} {b : Bracket} (outer : List Bracket)
    (ht : ∀ c, t ≠ .opening c) (hb : t ≠ .closing b) :
    nestingAfter t (b :: outer) = b :: outer := by
  cases t with
  | opening c => exact absurd rfl (ht c)
  | closing c =>
    have hne : c ≠ b := fun h => hb (congrArg Token.closing h)
    simp [nestingAfter, hne]
  | _ => rfl

/-- What a token does to brackets does not depend on the brackets around them. -/
theorem nestingAfter_append {t : Token} {nesting : List Bracket} (outer : List Bracket)
    (hn : nesting ≠ []) : nestingAfter t (nesting ++ outer) = nestingAfter t nesting ++ outer := by
  cases nesting with
  | nil => exact absurd rfl hn
  | cons b nesting =>
    cases t with
    | opening c => rfl
    | closing c =>
      by_cases hc : c = b
      · simp [nestingAfter, hc]
      · simp [nestingAfter, hc]
    | _ => rfl

/-! ## Balanced lexemes -/

/-- Every bracket that is opened among the lexemes is closed among them. Outside of these brackets
all tokens are admitted ones. -/
inductive Balanced : (Token → Prop) → List Lexeme → Prop where
  /-- No lexemes at all. -/
  | nil {ok : Token → Prop} : Balanced ok []
  /-- One more lexeme that opens no bracket. -/
  | mark {ok : Token → Prop} {ls : List Lexeme} {l : Lexeme} (h : Balanced ok ls)
      (hok : ok l.token) (hl : ∀ b, l.token ≠ .opening b) : Balanced ok (ls ++ [l])
  /-- One more bracket, from the lexeme that opens it to the one that closes it. -/
  | group {ok : Token → Prop} {ls ms : List Lexeme} {l m : Lexeme} {b : Bracket}
      (h : Balanced ok ls) (hok : ok l.token) (hl : l.token = .opening b)
      (hms : Balanced (· ≠ .closing b) ms) (hm : m.token = .closing b) :
      Balanced ok (ls ++ l :: (ms ++ [m]))

/-- The lexemes may stand inside of a bracket that is still open behind them. -/
abbrev Enclosed (b : Bracket) (ls : List Lexeme) : Prop := Balanced (· ≠ .closing b) ls

/-- The lexemes leave the brackets open, innermost first. -/
inductive Leaves (ok : Token → Prop) : List Bracket → List Lexeme → Prop where
  /-- All brackets are closed. -/
  | none {ls : List Lexeme} (h : Balanced ok ls) : Leaves ok [] ls
  /-- One more bracket is opened and stays open. -/
  | more {nesting : List Bracket} {ls ms : List Lexeme} {l : Lexeme} {b : Bracket}
      (h : Leaves ok nesting ls) (hok : nesting = [] → ok l.token) (hl : l.token = .opening b)
      (hms : Enclosed b ms) : Leaves ok (b :: nesting) (ls ++ l :: ms)

section

variable {ok ok' : Token → Prop} {ls ms : List Lexeme} {nesting : List Bracket}

theorem Balanced.mono (h : Balanced ok ls) (hok : ∀ t, ok t → ok' t) : Balanced ok' ls := by
  induction h with
  | nil => exact .nil
  | mark h ht hl ih => exact .mark (ih hok) (hok _ ht) hl
  | group h ht hl hms hm ih => exact .group (ih hok) (hok _ ht) hl hms hm

theorem Balanced.append (h : Balanced ok ls) (h' : Balanced ok ms) : Balanced ok (ls ++ ms) := by
  induction h' with
  | nil => simpa using h
  | mark h' hok hl ih =>
    rw [← List.append_assoc]
    exact .mark (ih h) hok hl
  | group h' hok hl hms hm ih =>
    rw [← List.append_assoc]
    exact .group (ih h) hok hl hms hm

theorem Balanced.cons {l : Lexeme} (h : Balanced ok ls) (hok : ok l.token)
    (hl : ∀ b, l.token ≠ .opening b) : Balanced ok (l :: ls) := by
  have hmark : Balanced ok ([] ++ [l]) := .mark .nil hok hl
  exact hmark.append h

theorem balanced_of_marks (h : ∀ l ∈ ls, ok l.token ∧ ∀ b, l.token ≠ .opening b) :
    Balanced ok ls := by
  induction ls with
  | nil => exact .nil
  | cons l ls ih =>
    rw [List.forall_mem_cons] at h
    exact (ih h.2).cons h.1.1 h.1.2

theorem Leaves.balanced (h : Leaves ok [] ls) : Balanced ok ls := by
  cases h with
  | none h => exact h

theorem Leaves.around {l : Lexeme} {b : Bracket} (h : Balanced ok ls) (hok : ok l.token)
    (hl : l.token = .opening b) (hms : Leaves (· ≠ .closing b) nesting ms) :
    Leaves ok (nesting ++ [b]) (ls ++ l :: ms) := by
  induction hms with
  | none hms => exact .more (.none h) (fun _ => hok) hl hms
  | @more nesting ms ks k c hms hk hc hks ih =>
    have hassoc : ls ++ l :: (ms ++ k :: ks) = (ls ++ l :: ms) ++ k :: ks := by simp
    rw [hassoc]
    exact .more ih (fun hn => absurd hn (by simp)) hc hks

theorem Leaves.group {l m : Lexeme} {b : Bracket} (h : Leaves ok nesting ls)
    (hok : nesting = [] → ok l.token) (hl : l.token = .opening b) (hms : Enclosed b ms)
    (hm : m.token = .closing b) : Leaves ok nesting (ls ++ l :: (ms ++ [m])) := by
  cases h with
  | none h => exact .none (.group h (hok rfl) hl hms hm)
  | @more nesting ls ks k c h hk hc hks =>
    have hlc : l.token ≠ .closing c := by
      rw [hl]
      exact Token.noConfusion
    rw [List.append_assoc, List.cons_append]
    exact .more h hk hc (.group hks hlc hl hms hm)

/-- One more lexeme does to the brackets that are left open what its token does. -/
theorem Leaves.snoc {l : Lexeme} (h : Leaves ok nesting ls) (hok : nesting = [] → ok l.token) :
    Leaves ok (nestingAfter l.token nesting) (ls ++ [l]) := by
  by_cases hopen : ∃ b, l.token = .opening b
  · obtain ⟨b, hb⟩ := hopen
    rw [hb, nestingAfter_opening]
    exact .more h hok hb .nil
  rw [not_exists] at hopen
  cases h with
  | none h =>
    rw [nestingAfter_nil hopen]
    exact .none (.mark h (hok rfl) hopen)
  | @more nesting ls ms k b h hk hb hms =>
    by_cases hclose : l.token = .closing b
    · rw [hclose, nestingAfter_closing, List.append_assoc, List.cons_append]
      exact h.group hk hb hms hclose
    · rw [nestingAfter_of_ne _ hopen hclose, List.append_assoc, List.cons_append]
      exact .more h hk hb (.mark hms hclose hopen)

/-- Inside of a bracket, one more lexeme closes the bracket or leaves it open. -/
theorem Leaves.inside {l : Lexeme} {b : Bracket} (h : Leaves (· ≠ .closing b) nesting ls) :
    nestingAfter l.token (nesting ++ [b]) = [] ∧ Enclosed b ls ∧ l.token = .closing b ∨
      ∃ nesting', nestingAfter l.token (nesting ++ [b]) = nesting' ++ [b] ∧
        Leaves (· ≠ .closing b) nesting' (ls ++ [l]) := by
  cases nesting with
  | nil =>
    by_cases hclose : l.token = .closing b
    · refine Or.inl ⟨?_, h.balanced, hclose⟩
      rw [hclose, List.nil_append, nestingAfter_closing]
    · refine Or.inr ⟨nestingAfter l.token [], ?_, h.snoc fun _ => hclose⟩
      by_cases hopen : ∃ c, l.token = .opening c
      · obtain ⟨c, hc⟩ := hopen
        rw [hc]
        rfl
      · rw [not_exists] at hopen
        rw [nestingAfter_nil hopen, List.nil_append, nestingAfter_of_ne _ hopen hclose]
  | cons c nesting =>
    refine Or.inr ⟨nestingAfter l.token (c :: nesting), ?_, h.snoc fun hn => ?_⟩
    · exact nestingAfter_append _ (List.cons_ne_nil c nesting)
    · cases hn

end

end Userstyle.Css
