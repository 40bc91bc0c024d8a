import Userstyle.Proofs.ReaderLexemes

/-!
# The text of nodes

The text that a piece of a style sheet takes up is that of its lexemes (`Covers.stretch_eq`), and
its words are those of its lexemes when the last of them is closed (`Covers.words_stretch`).
-/

namespace Userstyle.Css

open Source Text

/-- The words of lexemes. -/
def wordsOf (ls : List Lexeme) : List Word := ls.map Lexeme.word

@[simp] theorem wordsOf_append (ls ms : List Lexeme) :
    wordsOf (ls ++ ms) = wordsOf ls ++ wordsOf ms := List.map_append

/-- The first lexeme from a place on, and the place behind it. -/
theorem lexemes_eq_cons {p : Place} {l : Lexeme} {ls : List Lexeme} (h : lexemes p = l :: ls) :
    l.start = p ∧ l.text ≠ [] ∧ lexemes l.stop = ls ∧ p.rest = l.text ++ l.stop.rest ∧
      l.stop.offset = p.offset + byteLength l.text := by
  rw [lexemes] at h
  split at h
  · cases h
  · rename_i k hk
    obtain ⟨rfl, hls⟩ := List.cons.inj h
    obtain ⟨n, ht, hne, hs, hstop⟩ := Lexeme.at?_eq hk
    refine ⟨hs, hne, hls, ?_, ?_⟩
    · rw [hstop, ht]
      exact (List.take_append_drop n p.rest).symm
    · rw [hstop, ht]
      rfl

/-- The place between lexemes. -/
theorem lexemes_eq_append {p : Place} {ls ms : List Lexeme} (h : lexemes p = ls ++ ms) :
    ∃ q : Place, lexemes q = ms ∧ p.rest = spelling (wordsOf ls) ++ q.rest ∧
      q.offset = p.offset + byteLength (spelling (wordsOf ls)) := by
  induction ls generalizing p with
  | nil => exact ⟨p, h, rfl, rfl⟩
  | cons l ls ih =>
    obtain ⟨-, -, hls, hrest, hoffset⟩ := lexemes_eq_cons h
    obtain ⟨q, hq, hrest', hoffset'⟩ := ih hls
    refine ⟨q, hq, ?_, ?_⟩
    · rw [hrest, hrest', ← List.append_assoc]
      rfl
    · rw [hoffset', hoffset, Nat.add_assoc, ← byteLength_append]
      rfl

theorem text_ne_nil_of_mem_words {s : List Char} {w : Word} (h : w ∈ words s) : w.text ≠ [] := by
  obtain ⟨us, vs, hs⟩ := List.append_of_mem h
  obtain ⟨r, -, hr⟩ := words_eq_append hs
  exact (words_eq_cons hr).2.1

section Lexemes

variable {text : List Char} {a ms b : List Lexeme} {span : Span Nat}

/-- The last of some lexemes. -/
theorem lexemes_eq_concat {l : Lexeme} (h : lexemes (.start text) = a ++ l :: b) :
    ∃ s c, l.text = s ++ [c] ∧
      l.lastOffset = byteLength (spelling (wordsOf a) ++ s) := by
  obtain ⟨q, hq, -, hoffset⟩ := lexemes_eq_append h
  obtain ⟨hstart, hne, -⟩ := lexemes_eq_cons hq
  obtain ⟨s, c, hl⟩ := (List.eq_nil_or_concat l.text).resolve_left hne
  rw [List.concat_eq_append] at hl
  refine ⟨s, c, hl, ?_⟩
  unfold Lexeme.lastOffset
  rw [hl, List.dropLast_concat, hstart, hoffset, byteLength_append]
  simp [Place.start]

theorem spelling_lexemes (text : List Char) :
    spelling (wordsOf (lexemes (.start text))) = text := by
  unfold wordsOf
  rw [map_word_lexemes]
  exact spelling_words text

/-- What lexemes cover is their text. -/
theorem Covers.stretch_eq (h : Covers span ms) (hls : lexemes (.start text) = a ++ ms ++ b) :
    stretch text ⟨positionAt text span.first, positionAt text span.last⟩ =
      spelling (wordsOf ms) := by
  obtain ⟨init, x, rfl⟩ : ∃ init x, ms = init ++ [x] := by
    obtain ⟨init, x, hms⟩ := (List.eq_nil_or_concat ms).resolve_left h.ne_nil
    exact ⟨init, x, hms.trans (List.concat_eq_append)⟩
  have hfirst : span.first = byteLength (spelling (wordsOf a)) := by
    rw [List.append_assoc] at hls
    obtain ⟨q, hq, -, hoffset⟩ := lexemes_eq_append hls
    have hf := h.first
    cases hms : init ++ [x] with
    | nil => simp at hms
    | cons l ms =>
      rw [hms] at hq hf
      obtain ⟨hstart, -⟩ := lexemes_eq_cons hq
      have hl : l.start.offset = span.first := Option.some.inj hf
      rw [← hl, hstart, hoffset]
      exact Nat.zero_add _
  obtain ⟨s, c, hx, hlast⟩ : ∃ s c, x.text = s ++ [c] ∧
      span.last = byteLength (spelling (wordsOf (a ++ init)) ++ s) := by
    have hsplit : lexemes (.start text) = (a ++ init) ++ x :: b := by rw [hls]; simp
    obtain ⟨s, c, hx, hoffset⟩ := lexemes_eq_concat hsplit
    refine ⟨s, c, hx, ?_⟩
    have hl := h.last
    rw [List.getLast?_concat] at hl
    rw [← hoffset]
    exact (Option.some.inj hl).symm
  have hword : spelling (wordsOf [x]) = s ++ [c] := by simp [wordsOf, Lexeme.word, hx]
  have hspell : spelling (wordsOf (init ++ [x])) = spelling (wordsOf init) ++ s ++ [c] := by
    rw [wordsOf_append, spelling_append, hword, List.append_assoc]
  have htext : text = spelling (wordsOf a) ++ (spelling (wordsOf init) ++ s) ++
      c :: spelling (wordsOf b) := by
    rw [← spelling_lexemes text, hls, wordsOf_append, wordsOf_append, spelling_append,
      spelling_append, hspell]
    simp
  rw [wordsOf_append, spelling_append, List.append_assoc] at hlast
  have hfirstAt : positionAt text (byteLength (spelling (wordsOf a))) =
      Position.behind (spelling (wordsOf a)) := by
    rw [htext, List.append_assoc]
    exact positionAt_byteLength _ _
  have hlastAt : positionAt text
      (byteLength (spelling (wordsOf a) ++ (spelling (wordsOf init) ++ s))) =
      Position.behind (spelling (wordsOf a) ++ (spelling (wordsOf init) ++ s)) := by
    rw [htext]
    exact positionAt_byteLength _ _
  rw [hfirst, hlast, hfirstAt, hlastAt, hspell, htext]
  exact stretch_append _ _ c _

/-- The words from a lexeme on are those of the lexemes from there on. -/
theorem words_lexemes (h : lexemes (.start text) = a ++ ms) :
    words (spelling (wordsOf ms)) = wordsOf ms := by
  obtain ⟨q, hq, -, -⟩ := lexemes_eq_append h
  have hwords := map_word_lexemes q
  rw [hq] at hwords
  show words (spelling (ms.map Lexeme.word)) = ms.map Lexeme.word
  rw [hwords, spelling_words]

/-! ## Pieces that end with a word of its own -/

theorem eq_nil_of_spelling {us : List Word} (hne : ∀ w ∈ us, w.text ≠ []) (h : spelling us = []) :
    us = [] := by
  cases us with
  | nil => rfl
  | cons w us =>
    rw [spelling_cons] at h
    exact absurd (List.append_eq_nil_iff.mp h).1 (hne w List.mem_cons_self)

/-- The first words of a text with the same spelling are the same. -/
theorem words_prefix {s : List Char} {us vs us' vs' : List Word} (h : words s = us ++ vs)
    (h' : words s = us' ++ vs') (hs : spelling us = spelling us') : us = us' := by
  have hne : ∀ w ∈ words s, w.text ≠ [] := fun w hw => text_ne_nil_of_mem_words hw
  rcases List.append_eq_append_iff.mp (h.symm.trans h') with ⟨m, rfl, -⟩ | ⟨m, rfl, -⟩
  · rw [spelling_append, List.self_eq_append_right] at hs
    have hm := eq_nil_of_spelling (fun w hw => hne w (by rw [h']; simp [hw])) hs
    rw [hm, List.append_nil]
  · rw [spelling_append, List.append_right_eq_self] at hs
    have hm := eq_nil_of_spelling (fun w hw => hne w (by rw [h]; simp [hw])) hs
    rw [hm, List.append_nil]

/-- If the text that lexemes cover ends with a closed word, its words are those of the lexemes. -/
theorem wordsOf_eq {us : List Word} {w : Word}
    (hls : lexemes (.start text) = a ++ ms ++ b)
    (h : words (spelling (wordsOf ms)) = us ++ [w]) (hw : w.Closed) : wordsOf ms = us ++ [w] := by
  rw [List.append_assoc] at hls
  have hrest := words_lexemes hls
  rw [wordsOf_append, spelling_append] at hrest
  have hlast : ∀ v ∈ (us ++ [w]).getLast?, v.StandsAlone := by
    intro v hv
    rw [List.getLast?_concat] at hv
    cases hv
    exact hw.standsAlone
  have halone := words_append_of_standsAlone (spelling (wordsOf b))
    (h.trans (List.append_nil _).symm) hlast
  refine words_prefix hrest halone ?_
  rw [← h, spelling_words]

end Lexemes

/-! ## All nodes -/

theorem Reader.Took.run {r r' : Reader} {done ls : List Lexeme} (h : r.Took done)
    (hr : r.run ls = .ok r') : r'.Took (done ++ ls) := by
  induction ls generalizing r done with
  | nil =>
    cases hr
    rwa [List.append_nil]
  | cons l ls ih =>
    rw [Reader.run] at hr
    split at hr
    · have hrest := ih (h.step ‹_›) hr
      rwa [List.append_assoc] at hrest
    · cases hr

theorem endsAt_lexemes {text : List Char} {last : Nat} (h : closingOffset? text = some last) :
    EndsAt last (lexemes (.start text)) := by
  unfold closingOffset? at h
  split at h
  · rename_i hbrace
    obtain ⟨init, hinit⟩ := List.getLast?_eq_some_iff.mp hbrace
    have hspell := spelling_lexemes text
    rcases List.eq_nil_or_concat (lexemes (.start text)) with hnil | ⟨ls, l, hls⟩
    · rw [hnil] at hspell
      rw [← hspell] at hbrace
      cases hbrace
    · rw [List.concat_eq_append] at hls
      obtain ⟨s, c, hl, hoffset⟩ := lexemes_eq_concat hls
      have htext : text = spelling (wordsOf ls) ++ s ++ [c] := by
        rw [← hspell, hls, wordsOf_append, spelling_append]
        simp [wordsOf, Lexeme.word, hl]
      rw [htext, List.getLast?_concat] at hbrace
      rw [htext, List.dropLast_concat] at h
      refine ⟨l, by rw [hls, List.getLast?_concat], ?_, ?_⟩
      · rw [hoffset]
        exact Option.some.inj h
      · rw [hl, List.getLast?_concat]
        exact hbrace
  · cases h

/-- All nodes of a style sheet have their places among its lexemes. -/
theorem readNodes_allPlaced {text : List Char} {ns : List (Node Nat)}
    (h : readNodes text = .ok ns) : AllPlaced ns (lexemes (.start text)) := by
  unfold readNodes at h
  split at h
  · cases h
  · rename_i r hr
    have hstart : Reader.start.Took [] := Reader.took_of_between rfl (.sheet .nil)
    exact (hstart.run hr).finish h fun last hl => endsAt_lexemes hl

/-! ## Outlines -/

theorem Node.outline_map {α β : Type} (f : α → β) (n : Node α) : (n.map f).outline = n.outline := by
  cases n <;> rfl

theorem Node.map_outline_map {α β : Type} (f : α → β) (ns : List (Node α)) :
    (ns.map (Node.map f)).map Node.outline = ns.map Node.outline := by
  rw [List.map_map]
  exact congrArg (ns.map ·) (funext fun n => outline_map f n)

/-- The outlines of the nodes of a style sheet are those in its tokens. -/
theorem outlines_parse (css : String) :
    (parse css).toOption.map (·.map Node.outline) = outlinesIn? css.toList := by
  rw [← outlines_readNodes]
  cases hp : parse css with
  | error e =>
    unfold parse at hp
    split at hp
    · rename_i fault hf
      rw [hf]
      rfl
    · cases hp
  | ok nodes =>
    obtain ⟨ns, hns, -, rfl⟩ := parse_eq_ok hp
    rw [hns]
    exact congrArg some (Node.map_outline_map _ ns)

end Userstyle.Css
