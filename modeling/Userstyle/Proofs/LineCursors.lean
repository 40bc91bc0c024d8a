import Userstyle.Proofs.Positions
import Userstyle.Source.Locator

/-!
# Line cursors and locators agree

A line cursor finds the place of a position, a locator the position of an offset. Both are settled
by one relation: `AtLine before after c` says that the cursor `c` stands at the beginning of the
line on which the place between `before` and `after` lies. Going down by lines reaches it, and so
does seeking an offset; from there both look-ups are a matter of columns.
-/

namespace Userstyle.Source

open Text Position

namespace LineCursor

/-- The cursor stands at the beginning of a line of the text, and knows the number of the line. -/
def On (text : List Char) (c : LineCursor) : Prop :=
  ∃ head, text = head ++ c.place.rest ∧ byteLength head = c.place.offset ∧
    behind head = ⟨c.line, 0⟩

/-- The cursor stands at the beginning of the line on which `before` ends and `after` begins. -/
def AtLine (before after : List Char) (c : LineCursor) : Prop :=
  ∃ head l, before = head ++ l ∧ c.place.rest = l ++ after ∧ byteLength head = c.place.offset ∧
    behind head = ⟨c.line, 0⟩ ∧ '\n' ∉ l

theorem start_on (text : List Char) : (start text).On text := ⟨[], rfl, rfl, rfl⟩

theorem AtLine.on {before after : List Char} {c : LineCursor} (h : AtLine before after c) :
    c.On (before ++ after) := by
  obtain ⟨head, l, rfl, hr, ho, hp, -⟩ := h
  exact ⟨head, by rw [hr, List.append_assoc], ho, hp⟩

theorem AtLine.behind_eq {before after : List Char} {c : LineCursor} (h : AtLine before after c) :
    ∃ l, c.place.rest = l ++ after ∧ behind before = ⟨c.line, l.length⟩ ∧
      byteLength before = c.place.offset + byteLength l := by
  obtain ⟨head, l, rfl, hr, ho, hp, hl⟩ := h
  refine ⟨l, hr, ?_, by rw [byteLength_append, ho]⟩
  rw [behind_append, hp, through_of_not_mem _ hl, Nat.zero_add]

theorem AtLine.line_eq {before after : List Char} {c : LineCursor} (h : AtLine before after c) :
    (behind before).line = c.line := by
  obtain ⟨l, -, hb, -⟩ := h.behind_eq
  rw [hb]

/-! ## Lines -/

theorem lineText_append {n o : Nat} {l s : List Char} (h : '\n' ∉ l) :
    (⟨n, ⟨o, l ++ s⟩⟩ : LineCursor).lineText = l ++ s.takeWhile (· != '\n') := by
  have hl : ∀ c ∈ l, (c != '\n') = true := by
    intro c hc
    rw [bne_iff_ne]
    rintro rfl
    exact h hc
  simp only [lineText]
  rw [List.takeWhile_append_of_pos hl]

theorem next?_line {n o : Nat} {l r : List Char} (h : '\n' ∉ l) :
    (⟨n, ⟨o, l ++ ['\n'] ++ r⟩⟩ : LineCursor).next? =
      some ⟨n + 1, ⟨o + byteLength (l ++ ['\n']), r⟩⟩ := by
  have ht : (⟨n, ⟨o, l ++ ['\n'] ++ r⟩⟩ : LineCursor).lineText = l := by
    rw [List.append_assoc, lineText_append h]
    simp
  have hd : (l ++ ['\n'] ++ r).drop l.length = '\n' :: r := by simp
  have hlen : (l ++ ['\n']).length = l.length + 1 := by simp
  unfold next?
  rw [ht]
  simp only [hd, Place.advance]
  rw [← hlen, List.take_left, List.drop_left]

theorem next?_last {n o : Nat} {s : List Char} (h : '\n' ∉ s) :
    (⟨n, ⟨o, s⟩⟩ : LineCursor).next? = none := by
  have ht : (⟨n, ⟨o, s⟩⟩ : LineCursor).lineText = s := by
    simpa using lineText_append (n := n) (o := o) (s := []) h
  unfold next?
  rw [ht]
  simp

/-- A text either is one line or has a first line that ends with a line feed. -/
theorem line_cases (s : List Char) : '\n' ∉ s ∨ ∃ l r, '\n' ∉ l ∧ s = l ++ ['\n'] ++ r := by
  by_cases h : '\n' ∈ s
  · obtain ⟨l, r, hs, hl⟩ := List.eq_append_cons_of_mem h
    exact Or.inr ⟨l, r, hl, by rw [hs]; simp⟩
  · exact Or.inl h

theorem next?_eq_none {c : LineCursor} (h : c.next? = none) : '\n' ∉ c.place.rest := by
  obtain ⟨n, o, s⟩ := c
  rcases line_cases s with hs | ⟨l, r, hl, rfl⟩
  · exact hs
  · rw [next?_line hl] at h
    cases h

theorem next?_eq_some {c d : LineCursor} (h : c.next? = some d) :
    ∃ l r, '\n' ∉ l ∧ c.place.rest = l ++ ['\n'] ++ r ∧
      d = ⟨c.line + 1, ⟨c.place.offset + byteLength (l ++ ['\n']), r⟩⟩ := by
  obtain ⟨n, o, s⟩ := c
  rcases line_cases s with hs | ⟨l, r, hl, rfl⟩
  · rw [next?_last hs] at h
    cases h
  · rw [next?_line hl] at h
    cases h
    exact ⟨l, r, hl, rfl, rfl⟩

/-- The beginning of the next line, when the line of the cursor begins behind `head`. -/
theorem behind_line {head l : List Char} {n : Nat} (hp : behind head = ⟨n, 0⟩) (hl : '\n' ∉ l) :
    behind (head ++ (l ++ ['\n'])) = ⟨n + 1, 0⟩ := by
  rw [behind_append, hp, through_line _ hl]

/-! ## Reaching a line -/

/-- Going down as many lines as a text has left behind reaches the line on which it ends. -/
theorem down_atLine {head m after : List Char} {c : LineCursor} {n : Nat}
    (hr : c.place.rest = m ++ after) (ho : byteLength head = c.place.offset)
    (hp : behind head = ⟨c.line, 0⟩) (hn : (behind (head ++ m)).line = c.line + n) :
    AtLine (head ++ m) after (c.down n) := by
  induction n generalizing c head m with
  | zero =>
    rcases line_cases m with hm | ⟨l, r, hl, rfl⟩
    · exact ⟨head, m, rfl, hr, ho, hp, hm⟩
    · have hle := line_le_of_le (le_through ⟨c.line + 1, 0⟩ r)
      rw [← List.append_assoc, behind_append, behind_line hp hl] at hn
      simp only at hle
      omega
  | succ n ih =>
    rcases line_cases m with hm | ⟨l, r, hl, rfl⟩
    · rw [behind_append, hp, through_of_not_mem _ hm] at hn
      simp only at hn
      omega
    · obtain ⟨k, o, s⟩ := c
      simp only at hr ho hp hn
      subst hr
      rw [List.append_assoc (l ++ ['\n']), down, next?_line hl]
      rw [← List.append_assoc head] at hn ⊢
      refine ih rfl ?_ (behind_line hp hl) ?_
      · rw [byteLength_append, ho]
      · rw [hn, Nat.add_right_comm, Nat.add_assoc]

/-- Seeking the offset of a place reaches the line on which the place lies. -/
theorem seek_atLine {head m after : List Char} {c : LineCursor}
    (hr : c.place.rest = m ++ after) (ho : byteLength head = c.place.offset)
    (hp : behind head = ⟨c.line, 0⟩) :
    AtLine (head ++ m) after (c.seek (byteLength (head ++ m))) := by
  generalize hs : byteLength (head ++ m) = offset
  fun_induction c.seek offset generalizing head m with
  | case1 c h =>
    have hn := next?_eq_none h
    rw [hr, List.mem_append, not_or] at hn
    exact ⟨head, m, rfl, hr, ho, hp, hn.1⟩
  | case2 c d h hle ih =>
    obtain ⟨l, r, hl, hcr, rfl⟩ := next?_eq_some h
    simp only at hle
    rw [← ho, ← byteLength_append, ← hs] at hle
    have ht : (head ++ (l ++ ['\n'])) ++ r = (head ++ m) ++ after := by
      rw [List.append_assoc head m, ← hr, hcr, List.append_assoc head]
    obtain ⟨m', hm, rfl⟩ := exists_append_of_byteLength_le ht hle
    rw [hm]
    refine ih rfl ?_ (behind_line hp hl) (by rw [← hm, hs])
    rw [byteLength_append, ho]
  | case3 c d h hlt =>
    refine ⟨head, m, rfl, hr, ho, hp, ?_⟩
    obtain ⟨l, r, hl, hcr, rfl⟩ := next?_eq_some h
    rcases line_cases m with hm | ⟨l', r', hl', rfl⟩
    · exact hm
    · -- the line feed of `m` would be that of the line, and the next line not behind the offset
      exfalso
      obtain ⟨k, o, s⟩ := c
      simp only at hr hcr ho hlt
      rw [hr, List.append_assoc (l' ++ ['\n'])] at h
      rw [next?_line hl'] at h
      simp only [Option.some.injEq, LineCursor.mk.injEq, Place.mk.injEq] at h
      rw [← h.2.1, ← hs, ← ho] at hlt
      simp only [byteLength_append] at hlt
      omega

/-- A cursor that is not on a later line than a place has it ahead. -/
theorem On.exists_head {before after : List Char} {c : LineCursor} (hc : c.On (before ++ after))
    (hle : c.line ≤ (behind before).line) :
    ∃ head m, before = head ++ m ∧ c.place.rest = m ++ after ∧
      byteLength head = c.place.offset ∧ behind head = ⟨c.line, 0⟩ := by
  obtain ⟨head, ht, ho, hp⟩ := hc
  rcases List.append_eq_append_iff.mp ht with ⟨m, hh, ha⟩ | ⟨m, hb, hr⟩
  · cases m with
    | nil =>
      refine ⟨head, [], ?_, ?_, ho, hp⟩
      · simpa using hh.symm
      · simpa using ha.symm
    | cons x m =>
      have hlt := lt_through (behind before) (List.cons_ne_nil x m)
      rw [← behind_append, ← hh, hp, lt_def] at hlt
      simp only at hlt
      omega
  · exact ⟨head, m, hb, hr, ho, hp⟩

/-! ## Looking up a position -/

/-- On its line, a position is found by its column. -/
theorem AtLine.column?_eq {before after : List Char} {c : LineCursor}
    (h : AtLine before after c) :
    c.column? (behind before).column = some ⟨byteLength before, after⟩ := by
  obtain ⟨n, o, s⟩ := c
  obtain ⟨head, l, rfl, hr, ho, hp, hl⟩ := h
  simp only at hr ho hp
  subst hr
  rw [behind_append, hp, through_of_not_mem _ hl, Nat.zero_add]
  unfold column?
  rw [lineText_append hl, if_pos (by simp), Place.advance]
  simp only [List.take_left, List.drop_left]
  rw [byteLength_append, ho]

/-- The position behind the beginning of the text is found, and the cursor is on its line then. -/
theorem On.find_behind {before after : List Char} {c : LineCursor} (hc : c.On (before ++ after))
    (hle : c.line ≤ (behind before).line) :
    ∃ d, c.find (behind before) = (.ok ⟨byteLength before, after⟩, d) ∧
      AtLine before after d := by
  obtain ⟨head, m, rfl, hr, ho, hp⟩ := hc.exists_head hle
  have hd := down_atLine (n := (behind (head ++ m)).line - c.line) hr ho hp (by omega)
  refine ⟨_, ?_, hd⟩
  unfold find
  rw [if_neg (by omega)]
  simp only [← hd.line_eq, hd.column?_eq]
  rw [if_neg (Nat.lt_irrefl _)]

/-- The text between the positions of two characters, both included, is cut out, and the cursor is
on the line of the second one then. -/
theorem On.slice_behind {before mid after : List Char} {ch : Char} {c : LineCursor}
    (hc : c.On (before ++ mid ++ ch :: after)) (hle : c.line ≤ (behind before).line) :
    ∃ d, c.slice ⟨behind before, behind (before ++ mid)⟩ = (.ok (mid ++ [ch]), d) ∧
      d.On (before ++ mid ++ ch :: after) ∧ d.line = (behind (before ++ mid)).line := by
  have hline := line_le_of_le (le_through (behind before) mid)
  rw [← behind_append] at hline
  rw [List.append_assoc] at hc
  obtain ⟨d₁, hf₁, hd₁⟩ := hc.find_behind hle
  have hon₁ := hd₁.on
  rw [← List.append_assoc] at hon₁
  obtain ⟨d₂, hf₂, hd₂⟩ := hon₁.find_behind (hd₁.line_eq ▸ hline)
  refine ⟨d₂, ?_, hd₂.on, hd₂.line_eq.symm⟩
  have hpast : (⟨byteLength (before ++ mid), ch :: after⟩ : Place).pastChar =
      ⟨byteLength before + byteLength (mid ++ [ch]), after⟩ := by
    simp [Place.pastChar, Place.advance, Nat.add_assoc]
  have hrest : mid ++ ch :: after = (mid ++ [ch]) ++ after := by simp
  unfold slice
  simp only [hf₁, hf₂, hpast]
  rw [if_pos (Nat.le_add_right _ _), hrest, Place.textTo_append]

end LineCursor

/-! ## Looking up an offset -/

namespace Locator

open LineCursor

/-- The locator belongs to the text. -/
structure On (text : List Char) (l : Locator) : Prop where
  text_eq : l.text = text
  cursor_on : l.cursor.On text

theorem start_on (text : List Char) : (start text).On text := ⟨rfl, LineCursor.start_on text⟩

/-- The offset of a place has the position of the place, whatever was located before. -/
theorem On.locate_byteLength {before after : List Char} {l : Locator}
    (hl : l.On (before ++ after)) :
    ∃ l', l.locate (byteLength before) = (behind before, l') ∧ l'.On (before ++ after) := by
  obtain ⟨ht, hc⟩ := hl
  obtain ⟨text, c⟩ := l
  simp only at ht hc
  subst ht
  have hseek : AtLine before after
      ((if byteLength before < c.place.offset then .start (before ++ after) else c).seek
        (byteLength before)) := by
    split
    · exact @seek_atLine [] before after (.start (before ++ after)) rfl rfl rfl
    · rename_i hge
      obtain ⟨head, ht, ho, hp⟩ := hc
      obtain ⟨m, rfl, hr⟩ := exists_append_of_byteLength_le ht.symm (by omega)
      exact seek_atLine hr ho hp
  generalize hd : LineCursor.seek _ _ = d at hseek
  refine ⟨⟨before ++ after, d⟩, ?_, rfl, hseek.on⟩
  obtain ⟨s, hr, hb, hbl⟩ := hseek.behind_eq
  have hs : takeBytes (byteLength before - d.place.offset) d.place.rest = s := by
    rw [hr, hbl, Nat.add_sub_cancel_left, takeBytes_append]
  unfold locate
  simp only [hd, hs, hb]

end Locator

end Userstyle.Source
