import Userstyle.Proofs.LineScans

/-!
# Sequences of calls on one line cursor

A new line cursor is called any number of times, by `resolve` and by `slice`, which looks up two
positions. Whatever was looked up before, it answers as the plain scan does, unless it refuses a
line that it has left (`resolve_eq_scan`). Which lines it has left follows from the look-ups alone
(`IsLine.after`): a look-up takes the cursor to the line that it asks for, or to the last line, and
that is so whether it finds its position there or not. So it is not only the look-ups that succeed
on which a refusal depends (`refuses_resolve_iff`).
-/

namespace Userstyle.Source

open Text

/-- The line on which the look-up of a position ends: its own, or the last one of the text. -/
def Position.lineIn (text : List Char) (p : Position) : Nat := min p.line (lastLine text)

namespace LineCursor

/-! ## Calls -/

/-- A call on a line cursor. -/
inductive Call where
  | resolve (p : Position)
  | slice (span : Span Position)

/-- What a line cursor answers to a call. -/
inductive Answer where
  | offset (r : Except Error Nat)
  | text (r : Except Error (List Char))

def call (c : LineCursor) : Call → Answer × LineCursor
  | .resolve p => (.offset (c.resolve p).1, (c.resolve p).2)
  | .slice span => (.text (c.slice span).1, (c.slice span).2)

/-- The cursor after calls that are made one after the other. -/
def after (c : LineCursor) : List Call → LineCursor
  | [] => c
  | op :: ops => (c.call op).2.after ops

/-- The answers to calls that are made one after the other. -/
def answers (c : LineCursor) : List Call → List Answer
  | [] => []
  | op :: ops => (c.call op).1 :: (c.call op).2.answers ops

/-- Whether an answer is the refusal of a line that the cursor has left. -/
def refuses {α : Type} : Except Error α → Bool
  | .error (.notMonotonic _ _) => true
  | _ => false

/-! ## Look-ups -/

/-- A position that was looked up, and the answer. -/
structure LookUp where
  position : Position
  answer : Except Error Nat

namespace LookUp

/-- The position was found. -/
def Found (x : LookUp) : Prop := ∃ o, x.answer = .ok o

/-- The text has no such line, or the line no such column. -/
def Missed (x : LookUp) : Prop :=
  x.answer = .error (.outOfRange x.position.line x.position.column)

/-- The look-up takes a cursor to the line `n` or to a later one. -/
def Reaches (text : List Char) (n : Nat) (x : LookUp) : Prop :=
  x.Found ∧ n ≤ x.position.line ∨ x.Missed ∧ n ≤ x.position.lineIn text

end LookUp

def lookUp (c : LineCursor) (p : Position) : LookUp := ⟨p, (c.resolve p).1⟩

/-- The look-ups that a call makes. The second position of a span is looked up if the first one was
found. -/
def Call.lookUps (c : LineCursor) : Call → List LookUp
  | .resolve p => [c.lookUp p]
  | .slice span =>
    c.lookUp span.first ::
      match (c.resolve span.first).1 with
      | .ok _ => [(c.resolve span.first).2.lookUp span.last]
      | .error _ => []

/-- The look-ups that calls make one after the other. -/
def lookUps (c : LineCursor) : List Call → List LookUp
  | [] => []
  | op :: ops => op.lookUps c ++ (c.call op).2.lookUps ops

variable {text : List Char} {c d : LineCursor}

theorem slice_snd (c : LineCursor) (span : Span Position) :
    (c.slice span).2 =
      match (c.resolve span.first).1 with
      | .ok _ => ((c.resolve span.first).2.resolve span.last).2
      | .error _ => (c.resolve span.first).2 := by
  unfold slice resolve
  rcases hfirst : c.find span.first with ⟨e | first, d⟩
  · rfl
  · rcases hlast : d.find span.last with ⟨e | last, d'⟩
    · simp only [Except.map, hlast]
    · simp only [Except.map, hlast]
      split <;> rfl

theorem refuses_scan (text : List Char) (p : Position) : refuses (scan text p) = false := by
  rcases scan_cases text p with ⟨o, hscan, -⟩ | hscan
  · rw [hscan]
    rfl
  · rw [hscan]
    rfl

/-! ## The lines that a cursor has reached -/

theorem scan_reaches (text : List Char) (p : Position) (n : Nat) :
    (⟨p, scan text p⟩ : LookUp).Reaches text n ↔ n ≤ p.lineIn text := by
  unfold LookUp.Reaches LookUp.Found LookUp.Missed
  rcases scan_cases text p with ⟨o, hscan, hline⟩ | hscan
  · have hmin : p.lineIn text = p.line := Nat.min_eq_left hline
    rw [hscan, hmin]
    simp
  · rw [hscan]
    simp

theorem not_reaches_refused (text : List Char) (p : Position) (n requested current : Nat) :
    ¬ (⟨p, .error (.notMonotonic requested current)⟩ : LookUp).Reaches text n := by
  rintro (⟨⟨o, hfound⟩, -⟩ | ⟨hmissed, -⟩)
  · cases hfound
  · cases hmissed

/-- One look-up: the cursor has reached the lines that it had reached before, and those that the
look-up reaches. -/
theorem IsLine.lookUp (h : IsLine text c) (p : Position) :
    IsLine text (c.resolve p).2 ∧
      ∀ n, n ≤ (c.resolve p).2.line ↔ n ≤ c.line ∨ (c.lookUp p).Reaches text n := by
  unfold LineCursor.lookUp
  rw [h.resolve_eq]
  split
  · refine ⟨h, fun n => ?_⟩
    rw [or_iff_left (not_reaches_refused text p n _ _)]
  · rename_i hge
    refine ⟨isLine_down text p.line, fun n => ?_⟩
    have hle := h.line_le
    rw [scan_reaches, line_down_start]
    unfold Position.lineIn
    omega

/-- One call, by its look-ups. -/
theorem IsLine.call (h : IsLine text c) (op : Call) :
    IsLine text (c.call op).2 ∧
      ∀ n, n ≤ (c.call op).2.line ↔ n ≤ c.line ∨ ∃ x ∈ op.lookUps c, x.Reaches text n := by
  cases op with
  | resolve p =>
    obtain ⟨hon, hline⟩ := h.lookUp p
    refine ⟨hon, fun n => ?_⟩
    simpa [Call.lookUps, LineCursor.call] using hline n
  | slice span =>
    obtain ⟨hon, hline⟩ := h.lookUp span.first
    simp only [LineCursor.call, Call.lookUps, slice_snd]
    cases hfirst : (c.resolve span.first).1 with
    | error e =>
      refine ⟨hon, fun n => ?_⟩
      simpa using hline n
    | ok o =>
      obtain ⟨hon', hline'⟩ := hon.lookUp span.last
      refine ⟨hon', fun n => ?_⟩
      simp [hline' n, hline n, or_assoc]

/-- Calls one after the other: the cursor has reached the lines that it had reached before, and
those that one of the look-ups reaches. -/
theorem IsLine.after (h : IsLine text c) (ops : List Call) :
    IsLine text (c.after ops) ∧
      ∀ n, n ≤ (c.after ops).line ↔ n ≤ c.line ∨ ∃ x ∈ c.lookUps ops, x.Reaches text n := by
  induction ops generalizing c with
  | nil => exact ⟨h, fun n => by simp [LineCursor.after, lookUps]⟩
  | cons op ops ih =>
    obtain ⟨hon, hline⟩ := h.call op
    obtain ⟨hon', hline'⟩ := ih hon
    refine ⟨hon', fun n => ?_⟩
    rw [lookUps, LineCursor.after, hline', hline, or_assoc]
    simp [or_and_right, exists_or]

theorem isLine_after (text : List Char) (ops : List Call) :
    IsLine text ((start text).after ops) :=
  ((isLine_start text).after ops).1

theorem le_line_after (text : List Char) (ops : List Call) (n : Nat) :
    n ≤ ((start text).after ops).line ↔
      n = 0 ∨ ∃ x ∈ (start text).lookUps ops, x.Reaches text n := by
  rw [((isLine_start text).after ops).2 n]
  exact or_congr_left Nat.le_zero

theorem IsLine.refuses_iff (h : IsLine text c) (p : Position) :
    refuses (c.resolve p).1 = true ↔ p.line < c.line := by
  rw [h.resolve_eq]
  split
  · rename_i hlt
    exact iff_of_true rfl hlt
  · rename_i hge
    rw [refuses_scan]
    exact iff_of_false Bool.false_ne_true hge

/-! ## Answers to positions -/

/-- Whatever was called before, a position that is not refused gets the answer that it gets from a
new cursor, and that is the answer of the plain scan: the bytes of the lines above and of the
characters before it, or that the text has no such line or the line no such column. -/
theorem resolve_eq_scan (text : List Char) (ops : List Call) (p : Position) :
    ((start text).resolve p).1 = scan text p ∧
      (refuses (((start text).after ops).resolve p).1 = false →
        (((start text).after ops).resolve p).1 = ((start text).resolve p).1) := by
  refine ⟨by rw [resolve_start], fun hanswered => ?_⟩
  have hon := isLine_after text ops
  have hge : ¬ p.line < ((start text).after ops).line := by
    rw [← hon.refuses_iff, hanswered]
    exact Bool.false_ne_true
  rw [hon.resolve_eq, if_neg hge, resolve_start]

/-- A column is found behind a character of two bytes, on a line to which a look-up that misses and
one that is refused have led. -/
theorem resolve_eq_scan_behind :
    refuses (((start ['\u00e9', '\n', '\u00e9', 'b']).after
        [.resolve ⟨9, 0⟩, .slice ⟨⟨0, 0⟩, ⟨1, 0⟩⟩]).resolve ⟨1, 1⟩).1 = false ∧
      (((start ['\u00e9', '\n', '\u00e9', 'b']).after
        [.resolve ⟨9, 0⟩, .slice ⟨⟨0, 0⟩, ⟨1, 0⟩⟩]).resolve ⟨1, 1⟩).1 = .ok 5 := by
  have hanswered : refuses (((start ['\u00e9', '\n', '\u00e9', 'b']).after
      [.resolve ⟨9, 0⟩, .slice ⟨⟨0, 0⟩, ⟨1, 0⟩⟩]).resolve ⟨1, 1⟩).1 = false := by decide
  obtain ⟨hscan, hused⟩ := resolve_eq_scan ['\u00e9', '\n', '\u00e9', 'b']
    [.resolve ⟨9, 0⟩, .slice ⟨⟨0, 0⟩, ⟨1, 0⟩⟩] ⟨1, 1⟩
  refine ⟨hanswered, ?_⟩
  rw [hused hanswered, hscan]
  rfl

/-! ## Look-ups that miss -/

/-- Two cursors on one text answer alike if and only if they are on the same line. -/
theorem answers_eq_iff (hc : IsLine text c) (hd : IsLine text d) :
    (∀ ops, d.answers ops = c.answers ops) ↔ d.line = c.line := by
  constructor
  · intro hanswers
    have hrefuses (p : Position) : refuses (d.resolve p).1 = refuses (c.resolve p).1 := by
      have hp := hanswers [.resolve p]
      simp only [answers, LineCursor.call, List.cons.injEq, Answer.offset.injEq, and_true] at hp
      rw [hp]
    -- the cursor that is further down refuses the line on which the other one is
    have hc' := hrefuses ⟨c.line, 0⟩
    have hd' := hrefuses ⟨d.line, 0⟩
    rw [Bool.eq_iff_iff, hc.refuses_iff, hd.refuses_iff] at hc' hd'
    simp only at hc' hd'
    omega
  · intro hline ops
    rw [hd.eq_of_line_eq hc hline]

/-- The call makes a look-up of `q` that misses. Without it the call would be the calls `rest`. -/
inductive Misses (c : LineCursor) : Call → List Call → Position → Prop where
  | resolve {q : Position} (h : (c.lookUp q).Missed) : Misses c (.resolve q) [] q
  | first {q last : Position} (h : (c.lookUp q).Missed) : Misses c (.slice ⟨q, last⟩) [] q
  | last {first q : Position} (h : (c.lookUp first).Found)
    (h' : ((c.resolve first).2.lookUp q).Missed) : Misses c (.slice ⟨first, q⟩) [.resolve first] q

theorem Misses.after_eq {op : Call} {rest : List Call} {q : Position} (h : c.Misses op rest q) :
    ((c.after rest).lookUp q).Missed ∧ (c.call op).2 = ((c.after rest).resolve q).2 := by
  cases h with
  | resolve h => exact ⟨h, rfl⟩
  | first h =>
    refine ⟨h, ?_⟩
    have hmissed : (c.resolve q).1 = _ := h
    rw [LineCursor.call, slice_snd, hmissed]
    rfl
  | @last first q h h' =>
    refine ⟨h', ?_⟩
    obtain ⟨o, hfound⟩ := h
    have hfirst : (c.resolve first).1 = .ok o := hfound
    rw [LineCursor.call, slice_snd, hfirst]
    rfl

/-- A look-up that misses takes the cursor to the line of the position or to the last line. -/
theorem IsLine.resolve_missed (h : IsLine text c) {q : Position} (hq : (c.lookUp q).Missed) :
    IsLine text (c.resolve q).2 ∧ (c.resolve q).2.line = q.lineIn text ∧
      c.line ≤ q.lineIn text := by
  have hmissed : (c.resolve q).1 = .error (.outOfRange q.line q.column) := hq
  have hge : ¬ q.line < c.line := by
    rw [← h.refuses_iff, hmissed]
    exact Bool.false_ne_true
  have hle := h.line_le
  rw [h.resolve_eq, if_neg hge]
  refine ⟨isLine_down text q.line, line_down_start text q.line, ?_⟩
  unfold Position.lineIn
  omega

theorem after_append (c : LineCursor) (ops ops' : List Call) :
    c.after (ops ++ ops') = (c.after ops).after ops' := by
  induction ops generalizing c with
  | nil => rfl
  | cons op ops ih => exact ih _

/-- A cursor refuses a line exactly if a position on a later line was found before, or one was
missed and the look-up of it ended on a later line. A look-up that misses leaves all later answers
as they would be without it exactly if it ends on the first line or on one that was reached
before. -/
theorem refuses_resolve_iff (text : List Char) (ops : List Call) :
    (∀ p, refuses (((start text).after ops).resolve p).1 = true ↔
      (∃ x ∈ (start text).lookUps ops, x.Found ∧ p.line < x.position.line) ∨
        ∃ x ∈ (start text).lookUps ops, x.Missed ∧ p.line < x.position.lineIn text) ∧
    ∀ op rest q, ((start text).after ops).Misses op rest q →
      ((∀ later, ((start text).after (ops ++ [op])).answers later =
          ((start text).after (ops ++ rest)).answers later) ↔
        q.lineIn text = 0 ∨
          ∃ x ∈ (start text).lookUps (ops ++ rest), x.Reaches text (q.lineIn text)) := by
  constructor
  · intro p
    have hreached := le_line_after text ops (p.line + 1)
    rw [or_iff_right (Nat.succ_ne_zero _)] at hreached
    rw [(isLine_after text ops).refuses_iff, ← Nat.succ_le_iff, hreached, ← exists_or]
    simp only [LookUp.Reaches, ← and_or_left, Nat.succ_le_iff]
  · intro op rest q hmisses
    obtain ⟨hmissed, hcall⟩ := hmisses.after_eq
    rw [← after_append] at hmissed hcall
    have hafter : (start text).after (ops ++ [op]) =
        (((start text).after (ops ++ rest)).resolve q).2 := by
      rw [after_append, ← hcall]
      rfl
    have hon := isLine_after text (ops ++ rest)
    obtain ⟨hon', hline, hle⟩ := hon.resolve_missed hmissed
    rw [hafter, answers_eq_iff hon hon', hline, ← le_line_after]
    omega

/-- The second look-up of a `slice` misses on the line of the first one. Afterwards the cursor
answers as if only the first one had been made. -/
theorem refuses_resolve_iff_sameLine :
    ((start ['a', '\n', 'b']).after []).Misses (.slice ⟨⟨1, 0⟩, ⟨1, 5⟩⟩) [.resolve ⟨1, 0⟩] ⟨1, 5⟩ ∧
      ∀ later, ((start ['a', '\n', 'b']).after [.slice ⟨⟨1, 0⟩, ⟨1, 5⟩⟩]).answers later =
        ((start ['a', '\n', 'b']).after [.resolve ⟨1, 0⟩]).answers later := by
  have hmisses : ((start ['a', '\n', 'b']).after []).Misses (.slice ⟨⟨1, 0⟩, ⟨1, 5⟩⟩)
      [.resolve ⟨1, 0⟩] ⟨1, 5⟩ := .last ⟨2, rfl⟩ rfl
  have hfound : LookUp.Reaches ['a', '\n', 'b'] 1 ((start ['a', '\n', 'b']).lookUp ⟨1, 0⟩) :=
    Or.inl ⟨⟨2, rfl⟩, Nat.le_refl 1⟩
  refine ⟨hmisses, ?_⟩
  exact ((refuses_resolve_iff _ []).2 _ _ _ hmisses).mpr
    (Or.inr ⟨_, List.mem_singleton_self _, hfound⟩)

/-- A cursor refuses the first line although it has found no position, and has only missed one on a
line that the text does not have. -/
theorem resolve_refused_after_miss :
    (start ['a', '\n', 'b']).Misses (.resolve ⟨2, 0⟩) [] ⟨2, 0⟩ ∧
      (∀ x ∈ (start ['a', '\n', 'b']).lookUps [.resolve ⟨2, 0⟩], ¬ x.Found) ∧
      (((start ['a', '\n', 'b']).after [.resolve ⟨2, 0⟩]).resolve ⟨0, 0⟩).1 =
        .error (.notMonotonic 0 1) ∧
      (((start ['a', '\n', 'b']).after []).resolve ⟨0, 0⟩).1 = .ok 0 := by
  refine ⟨.resolve rfl, fun x hx => ?_, rfl, rfl⟩
  rw [List.mem_singleton.mp hx]
  rintro ⟨o, ho⟩
  cases ho

end LineCursor

end Userstyle.Source
