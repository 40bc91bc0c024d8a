import Userstyle.Proofs.NodeTexts

/-!
# The characters of lexemes

The lexemes of a text stand in it one behind the other, so every character of the text belongs to
one of them (`exists_hasChar`) and the offsets of lexemes are in their order (`lexemes_pairwise`).
The text between two lexemes is that of the lexemes between them (`textTo_getLastD`).
-/

namespace Userstyle.Css

open Source Text

/-! ## Blank lexemes -/

theorem isBlank_of_isSpace {c : Char} (h : isSpace c = true) : isBlank c = true := by
  unfold isSpace isNewline at h
  simp only [Bool.or_eq_true, beq_iff_eq] at h
  rcases h with (rfl | rfl) | (rfl | rfl) | rfl <;> decide

/-- The tokens that may be spelled with blank characters alone. -/
def Token.MayBeBlank (t : Token) : Prop := t = .plain ∨ t = .space ∨ t = .badUrl

theorem scanName_notBlank {s : List Char} (h : ¬(scanName s).1.MayBeBlank) :
    '(' ∈ s.take (scanName s).2 := by
  rw [scanName_eq] at h ⊢
  split at h
  · rename_i hround
    rw [if_pos hround]
    rw [List.head?_drop] at hround
    obtain ⟨hlt, hchar⟩ := List.getElem?_eq_some_iff.mp hround
    have hmem (n : Nat) (hn : nameLength s < n) : '(' ∈ s.take n := by
      rw [← hchar]
      exact List.mem_take_iff_getElem.mpr ⟨nameLength s, by omega, rfl⟩
    split
    · exact hmem _ (by dsimp only; omega)
    · exact hmem _ (by dsimp only; omega)
  · exact absurd (Or.inl rfl) h

theorem scanOther_notBlank {c : Char} {r : List Char} (h : ¬(scanOther c r).1.MayBeBlank) :
    '(' ∈ (c :: r).take (scanOther c r).2 := by
  unfold scanOther at h ⊢
  split at h
  · exact absurd (Or.inl rfl) h
  · split at h
    · exact absurd (Or.inl rfl) h
    · split at h
      · rename_i h₁ h₂ h₃
        rw [if_neg h₁, if_neg h₂, if_pos h₃]
        exact scanName_notBlank h
      · exact absurd (Or.inl rfl) h

/-- Apart from white space, names and malformed URLs, what a text begins with has a character that
is not blank. -/
theorem scan_notBlank {c : Char} {r : List Char} (h : ¬(scan (c :: r)).1.MayBeBlank) :
    ∃ x ∈ (c :: r).take (scan (c :: r)).2, isBlank x = false := by
  by_cases hplain : beginsToken c = false
  · rw [scan_other hplain] at h ⊢
    exact ⟨'(', scanOther_notBlank h, rfl⟩
  · have hc : isBlank c = false := by
      rw [Bool.not_eq_false, beginsToken] at hplain
      have hspace : isSpace c = false := by
        by_contra hspace
        rw [Bool.not_eq_false, ← scan_eq_space_iff c r] at hspace
        exact h (Or.inr (Or.inl hspace))
      rw [hspace, Bool.false_or] at hplain
      simp only [List.contains_eq_mem, decide_eq_true_eq, List.mem_cons, List.not_mem_nil,
        or_false] at hplain
      rcases hplain with rfl | rfl | rfl | rfl | rfl | rfl | rfl | rfl | rfl | rfl | rfl | rfl |
        rfl | rfl <;> decide
    have hpos := scan_pos c r
    obtain ⟨n, hn⟩ := Nat.exists_eq_add_of_lt hpos
    refine ⟨c, ?_, hc⟩
    rw [hn]
    exact List.mem_cons_self

section Words

variable {s : List Char} {w : Word}

theorem Word.notBlank (h : w ∈ words s) (hw : ¬w.token.MayBeBlank) : isAllBlank w.text = false := by
  obtain ⟨us, vs, hs⟩ := List.append_of_mem h
  obtain ⟨r, -, hr⟩ := words_eq_append hs
  obtain ⟨htoken, hne, u, hu, -, htext, -⟩ := words_eq_cons hr
  cases r with
  | nil =>
    rw [words_nil] at hr
    cases hr
  | cons c r =>
    rw [← htoken] at hw
    obtain ⟨x, hx, hblank⟩ := scan_notBlank hw
    rw [← htext] at hx
    unfold isAllBlank
    rw [List.all_eq_false]
    exact ⟨x, hx, by rw [hblank]; exact Bool.false_ne_true⟩

theorem Word.isSpace_text (h : w ∈ words s) (hw : w.token = .space) :
    ∀ c ∈ w.text, isSpace c = true := by
  obtain ⟨us, vs, hs⟩ := List.append_of_mem h
  obtain ⟨r, -, hr⟩ := words_eq_append hs
  exact (Word.space_text hr hw).1

end Words

section Lexemes

variable {p : Place} {l : Lexeme}

theorem word_mem_words (h : l ∈ lexemes p) : l.word ∈ words p.rest := by
  rw [← map_word_lexemes]
  exact List.mem_map_of_mem h

theorem Lexeme.notBlank (h : l ∈ lexemes p) (hl : ¬l.token.MayBeBlank) :
    isAllBlank l.text = false := Word.notBlank (word_mem_words h) hl

theorem Lexeme.isSpace_text (h : l ∈ lexemes p) (hl : l.token = .space) :
    ∀ c ∈ l.text, isSpace c = true := Word.isSpace_text (word_mem_words h) hl

/-! ## The order of lexemes -/

theorem lexemes_offsets {l : Lexeme} {ls : List Lexeme} (h : lexemes p = l :: ls) :
    l.start.offset = p.offset ∧ l.start.offset ≤ l.lastOffset ∧ l.lastOffset < l.stop.offset := by
  obtain ⟨hstart, hne, -, -, hstop⟩ := lexemes_eq_cons h
  obtain ⟨init, x, hl⟩ := (List.eq_nil_or_concat l.text).resolve_left hne
  have hx := x.utf8Size_pos
  rw [List.concat_eq_append] at hl
  unfold Lexeme.lastOffset
  rw [hstop, hl, List.dropLast_concat, byteLength_append, hstart]
  refine ⟨rfl, Nat.le_add_right _ _, ?_⟩
  rw [byteLength_cons, byteLength_nil]
  omega

/-- The lexemes stand one behind the other. -/
structure InOrder (ls : List Lexeme) : Prop where
  pairwise : ls.Pairwise fun l m => l.lastOffset < m.start.offset
  start_le : ∀ l ∈ ls, l.start.offset ≤ l.lastOffset

theorem InOrder.append {ls ms : List Lexeme} (h : InOrder (ls ++ ms)) :
    InOrder ls ∧ InOrder ms ∧ ∀ l ∈ ls, ∀ m ∈ ms, l.lastOffset < m.start.offset := by
  obtain ⟨hls, hms, hbetween⟩ := List.pairwise_append.mp h.pairwise
  refine ⟨⟨hls, fun l hl => ?_⟩, ⟨hms, fun m hm => ?_⟩, hbetween⟩
  · exact h.start_le l (List.mem_append_left ms hl)
  · exact h.start_le m (List.mem_append_right ls hm)

theorem lexemes_inOrder (p : Place) :
    InOrder (lexemes p) ∧ ∀ l ∈ lexemes p, p.offset ≤ l.start.offset := by
  generalize hls : lexemes p = ls
  induction ls generalizing p with
  | nil => exact ⟨⟨.nil, by simp⟩, by simp⟩
  | cons l ls ih =>
    obtain ⟨hstart, hle, hlt⟩ := lexemes_offsets hls
    obtain ⟨-, -, hrest, -, -⟩ := lexemes_eq_cons hls
    obtain ⟨horder, hoffsets⟩ := ih l.stop hrest
    have hbehind : ∀ m ∈ ls, l.lastOffset < m.start.offset := by
      intro m hm
      have := hoffsets m hm
      omega
    refine ⟨⟨.cons hbehind horder.pairwise, ?_⟩, ?_⟩
    · rw [List.forall_mem_cons]
      exact ⟨hle, horder.start_le⟩
    · rw [List.forall_mem_cons]
      refine ⟨by omega, fun m hm => ?_⟩
      have := hbehind m hm
      omega

/-! ## The text of lexemes -/

theorem textTo_getLastD {k : Lexeme} {ls ms : List Lexeme} (h : lexemes k.stop = ls ++ ms) :
    k.stop.textTo (ls.getLastD k).stop = spelling (wordsOf ls) := by
  have hplace : k.stop.rest = spelling (wordsOf ls) ++ (ls.getLastD k).stop.rest ∧
      (ls.getLastD k).stop.offset = k.stop.offset + byteLength (spelling (wordsOf ls)) := by
    induction ls generalizing k with
    | nil => exact ⟨rfl, rfl⟩
    | cons l ls ih =>
      obtain ⟨-, -, hrest, htext, hoffset⟩ := lexemes_eq_cons h
      obtain ⟨htext', hoffset'⟩ := ih hrest
      have hword : spelling (wordsOf (l :: ls)) = l.text ++ spelling (wordsOf ls) := rfl
      rw [List.getLastD_cons, hword]
      constructor
      · rw [htext, htext', List.append_assoc]
      · rw [hoffset', hoffset, byteLength_append, Nat.add_assoc]
  obtain ⟨hrest, hoffset⟩ := hplace
  have hcut := Place.textTo_append k.stop.offset (spelling (wordsOf ls)) (ls.getLastD k).stop.rest
  rwa [← hrest, ← hoffset] at hcut

/-- The character `c` at the byte offset `o` belongs to the lexeme. -/
def Lexeme.HasChar (l : Lexeme) (c : Char) (o : Nat) : Prop :=
  ∃ s t, l.text = s ++ c :: t ∧ o = l.start.offset + byteLength s

theorem Lexeme.HasChar.within {c : Char} {o : Nat} (h : l.HasChar c o) :
    l.start.offset ≤ o ∧ o ≤ l.lastOffset := by
  obtain ⟨s, t, ht, rfl⟩ := h
  refine ⟨Nat.le_add_right _ _, ?_⟩
  have hlast : l.text.dropLast = s ++ (c :: t).dropLast := by
    rw [ht]
    exact List.dropLast_append_of_ne_nil (List.cons_ne_nil c t)
  unfold Lexeme.lastOffset
  rw [hlast, byteLength_append]
  omega

/-- Every character of a text belongs to a lexeme. -/
theorem exists_hasChar {before after : List Char} {c : Char} (h : p.rest = before ++ c :: after) :
    ∃ l ∈ lexemes p, l.HasChar c (p.offset + byteLength before) := by
  generalize hls : lexemes p = ls
  induction ls generalizing p before with
  | nil =>
    have hwords := map_word_lexemes p
    rw [hls] at hwords
    have hspell := spelling_words p.rest
    rw [← hwords, h] at hspell
    simp at hspell
  | cons l ls ih =>
    obtain ⟨hstart, -, hrest, htext, hoffset⟩ := lexemes_eq_cons hls
    rw [h] at htext
    rcases List.append_eq_append_iff.mp htext.symm with ⟨m, hm, hc⟩ | ⟨m, hm, hc⟩
    · -- The character stands behind the lexeme.
      obtain ⟨k, hk, hchar⟩ := ih hc hrest
      refine ⟨k, List.mem_cons_of_mem l hk, ?_⟩
      rwa [hoffset, Nat.add_assoc, ← byteLength_append, ← hm] at hchar
    · cases m with
      | nil =>
        have hnext : l.stop.rest = [] ++ c :: after := hc.symm
        obtain ⟨k, hk, hchar⟩ := ih hnext hrest
        refine ⟨k, List.mem_cons_of_mem l hk, ?_⟩
        rw [List.append_nil] at hm
        rwa [hoffset, hm] at hchar
      | cons d m =>
        obtain ⟨rfl, -⟩ := List.cons.inj hc
        exact ⟨l, List.mem_cons_self, before, m, hm, by rw [hstart]⟩

theorem Lexeme.HasChar.isStart {text : List Char} {c : Char} {o : Nat}
    (hl : l ∈ lexemes (.start text)) (h : l.HasChar c o) : IsStart text o := by
  obtain ⟨a, b, hab⟩ := List.append_of_mem hl
  obtain ⟨q, hq, hrest, hoffset⟩ := lexemes_eq_append hab
  obtain ⟨hstart, -, -, htext, -⟩ := lexemes_eq_cons hq
  obtain ⟨s, t, hst, rfl⟩ := h
  have hrest : text = spelling (wordsOf a) ++ q.rest := hrest
  refine ⟨spelling (wordsOf a) ++ s, c, t ++ l.stop.rest, ?_, ?_⟩
  · rw [hrest, htext, hst]
    simp
  · rw [hstart, hoffset, byteLength_append]
    simp [Place.start]

end Lexemes

end Userstyle.Css
