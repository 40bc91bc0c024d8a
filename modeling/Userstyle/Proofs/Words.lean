import Userstyle.Proofs.TokenEnds

/-!
# Words

The words of a text are its tokens with their characters, without the places where they stand. The
words of a text put together are the text (`spelling_words`), and the lexemes from a place on are
the words of what stands there (`map_word_lexemes`).

Up to a word that stands alone, a text is read as the same words whatever follows it
(`words_append_of_standsAlone`). Its words also stay the same when it is cut off behind most other
words (`words_cutOff`), and when lines are left out inside of its white space, its comments and its
unquoted URLs (`words_thinned`).
-/

namespace Userstyle.Css

open Source

/-! ## A token takes up at least one character -/

theorem isNameChar_of_isNameStart {c : Char} (h : isNameStart c = true) : isNameChar c = true := by
  simp [isNameChar, h]

theorem nameLength_pos {s : List Char} (h : beginsWithName s = true) : 0 < nameLength s := by
  cases s with
  | nil => cases h
  | cons c r =>
    rw [beginsWithName_cons] at h
    rw [nameLength_cons]
    by_cases hslash : c = '\\'
    · rw [if_pos hslash] at h
      rw [if_pos hslash, if_neg (by simpa using h)]
      omega
    rw [if_neg hslash] at h
    rw [if_neg hslash, if_pos]
    · omega
    · by_cases hhyphen : c = '-'
      · subst hhyphen
        rfl
      · rw [if_neg hhyphen] at h
        exact isNameChar_of_isNameStart h

theorem digitCount_pos {s : List Char} (h : beginsWithDigit s = true) : 0 < digitCount s := by
  cases s with
  | nil => cases h
  | cons c r =>
    have hc : c.isDigit = true := h
    simp [digitCount, hc]

theorem numberLength_pos {s : List Char} (h : beginsWithNumber s = true) :
    0 < numberLength s := by
  unfold numberLength
  by_cases hsign : signLength s = 0
  · unfold beginsWithNumber at h
    rw [hsign, List.drop_zero] at h
    split at h
    · rename_i r
      have hdigits := digitCount_pos h
      have hwhole : digitCount ('.' :: r) = 0 := rfl
      have hfraction : fractionLength ('.' :: r) = 1 + digitCount r := by simp [fractionLength, h]
      simp only [hsign, List.drop_zero, hwhole, Nat.add_zero, hfraction]
      omega
    · have hdigits := digitCount_pos h
      simp only [hsign, List.drop_zero]
      omega
  · dsimp only
    omega

theorem scanOther_pos (c : Char) (r : List Char) : 0 < (scanOther c r).2 := by
  unfold scanOther
  split
  · exact Nat.two_pos
  · split
    · exact numberLength_pos ‹_›
    · split
      · exact Nat.lt_of_lt_of_le (nameLength_pos ‹_›) (nameLength_le_scanName _)
      · exact Nat.one_pos

theorem scanOther_token (c : Char) (r : List Char) :
    (scanOther c r).1 = .plain ∨ (scanOther c r).1 = .badUrl ∨
      (scanOther c r).1 = .opening .round := by
  unfold scanOther
  split
  · exact Or.inl rfl
  split
  · exact Or.inl rfl
  split
  · rw [scanName_eq]
    split
    · split
      · unfold scanUrl
        split
        · exact Or.inr (Or.inr rfl)
        · dsimp only
          split
          · exact Or.inl rfl
          · exact Or.inr (Or.inl rfl)
      · exact Or.inr (Or.inr rfl)
    · exact Or.inl rfl
  · exact Or.inl rfl

/-- What a text that begins with the character `c` can begin with: white space, a comment, what
`scanOther` finds, or a token of another kind. -/
inductive Begins (c : Char) (r : List Char) : Token × Nat → Prop where
  | space (hc : isSpace c = true) : Begins c r (.space, 1 + (r.takeWhile isSpace).length)
  | comment {b : List Char} (hc : c = '/') (hr : r = '*' :: b) :
      Begins c r (.comment, 2 + commentLength b)
  | other (hc : isSpace c = false) : Begins c r (scanOther c r)
  | mark {t : Token} {n : Nat} (hc : isSpace c = false) (hspace : t ≠ .space)
      (hcomment : t ≠ .comment) : Begins c r (t, 1 + n)

theorem scan_begins (c : Char) (r : List Char) : Begins c r (scan (c :: r)) := by
  by_cases hspace : isSpace c = true
  · rw [scan_space hspace]
    exact .space hspace
  rw [Bool.not_eq_true] at hspace
  have hother (h : scan (c :: r) = scanOther c r) : Begins c r (scan (c :: r)) := by
    rw [h]
    exact .other hspace
  have hsingle {t : Token} (h : scan (c :: r) = (t, 1)) (ht : t ≠ .space) (ht' : t ≠ .comment) :
      Begins c r (scan (c :: r)) := by
    rw [h]
    exact .mark (n := 0) hspace ht ht'
  by_cases hplain : beginsToken c = false
  · exact hother (scan_other hplain)
  rw [Bool.not_eq_false, beginsToken, hspace, Bool.false_or] at hplain
  simp only [List.contains_eq_mem, decide_eq_true_eq, List.mem_cons, List.not_mem_nil,
    or_false] at hplain
  rcases hplain with rfl | rfl | rfl | rfl | rfl | rfl | rfl | rfl | rfl | rfl | rfl | rfl | rfl | rfl
  · refine .mark hspace ?_ ?_ <;> split <;> exact Token.noConfusion
  · refine .mark hspace ?_ ?_ <;> split <;> exact Token.noConfusion
  · exact hsingle rfl Token.noConfusion Token.noConfusion
  · exact hsingle rfl Token.noConfusion Token.noConfusion
  · exact hsingle rfl Token.noConfusion Token.noConfusion
  · exact hsingle rfl Token.noConfusion Token.noConfusion
  · exact hsingle rfl Token.noConfusion Token.noConfusion
  · exact hsingle rfl Token.noConfusion Token.noConfusion
  · exact hsingle rfl Token.noConfusion Token.noConfusion
  · by_cases hopen : ['*'] <+: r
    · obtain ⟨b, rfl⟩ := hopen
      exact .comment rfl rfl
    · exact hother (scan_slash hopen)
  · by_cases hopen : ['!', '-', '-'] <+: r
    · obtain ⟨b, rfl⟩ := hopen
      exact .mark (n := 3) hspace Token.noConfusion Token.noConfusion
    · exact hother (scan_less hopen)
  · by_cases hclose : ['-', '>'] <+: r
    · obtain ⟨b, rfl⟩ := hclose
      exact .mark (n := 2) hspace Token.noConfusion Token.noConfusion
    · exact hother (scan_hyphen hclose)
  · rw [scan]
    split
    · exact .mark hspace Token.noConfusion Token.noConfusion
    · exact .mark (n := 0) hspace Token.noConfusion Token.noConfusion
  · rw [scan]
    split
    · exact .mark hspace Token.noConfusion Token.noConfusion
    · exact .mark (n := 0) hspace Token.noConfusion Token.noConfusion

/-- A token takes up at least one character. -/
theorem scan_pos (c : Char) (r : List Char) : 0 < (scan (c :: r)).2 := by
  have h := scan_begins c r
  generalize scan (c :: r) = found at h
  cases h with
  | space => exact Nat.add_pos_left Nat.one_pos _
  | comment => exact Nat.add_pos_left Nat.two_pos _
  | other => exact scanOther_pos c r
  | mark => exact Nat.add_pos_left Nat.one_pos _

/-- White space is a token of its own. -/
theorem scan_eq_space_iff (c : Char) (r : List Char) :
    (scan (c :: r)).1 = .space ↔ isSpace c = true := by
  have h := scan_begins c r
  generalize scan (c :: r) = found at h
  cases h with
  | space hc => simp [hc]
  | comment hc => simp [hc, isSpace, isNewline]
  | other hc =>
    rw [hc]
    rcases scanOther_token c r with h | h | h <;> simp [h]
  | mark hc hspace => simp [hc, hspace]

/-- A comment begins with its opening mark and ends with its closing mark or the text. -/
theorem scan_comment {c : Char} {r : List Char} (h : (scan (c :: r)).1 = .comment) :
    ∃ b, c :: r = '/' :: '*' :: b ∧ scan (c :: r) = (.comment, 2 + commentLength b) := by
  have hb := scan_begins c r
  generalize scan (c :: r) = found at h hb ⊢
  cases hb with
  | space => cases h
  | comment hc hr => exact ⟨_, by rw [hc, hr], rfl⟩
  | other => rcases scanOther_token c r with h' | h' | h' <;> rw [h'] at h <;> cases h
  | mark _ _ hcomment => exact absurd h hcomment

/-! ## The words of a text -/

/-- A token with the characters that make it up. -/
structure Word where
  /-- What kind of token it is. -/
  token : Token
  /-- Its characters. -/
  text : List Char
  deriving DecidableEq, Repr

/-- A lexeme without its places. -/
def Lexeme.word (l : Lexeme) : Word := ⟨l.token, l.text⟩

/-- The words of a text. -/
def words : List Char → List Word
  | [] => []
  | c :: r =>
    ⟨(scan (c :: r)).1, (c :: r).take (scan (c :: r)).2⟩ :: words ((c :: r).drop (scan (c :: r)).2)
termination_by s => s.length
decreasing_by
  have := scan_pos c r
  rw [List.length_drop, List.length_cons]
  omega

theorem words_nil : words [] = [] := by rw [words]

/-- The text that words make up. -/
def spelling (ws : List Word) : List Char := ws.flatMap Word.text

@[simp] theorem spelling_nil : spelling [] = [] := rfl

@[simp] theorem spelling_cons (w : Word) (ws : List Word) :
    spelling (w :: ws) = w.text ++ spelling ws := List.flatMap_cons

@[simp] theorem spelling_append (ws vs : List Word) :
    spelling (ws ++ vs) = spelling ws ++ spelling vs := List.flatMap_append

theorem map_word_lexemes (p : Place) : (lexemes p).map Lexeme.word = words p.rest := by
  fun_induction lexemes p with
  | case1 p hnone =>
    unfold Lexeme.at? at hnone
    split at hnone
    · rename_i hrest
      rw [hrest, words]
      rfl
    · cases hnone
  | case2 p l hl ih =>
    rw [List.map_cons, ih]
    unfold Lexeme.at? at hl
    split at hl
    · cases hl
    · rename_i c r hrest
      have hpos := scan_pos c r
      rw [hrest, words]
      generalize scan (c :: r) = token at hl hpos
      have hmax : max token.2 1 = token.2 := Nat.max_eq_left hpos
      cases hl
      simp only [hmax, Place.advance, hrest, Lexeme.word]

/-- The first word of a text, and the text behind it. -/
theorem words_eq_cons {s : List Char} {w : Word} {ws : List Word} (h : words s = w :: ws) :
    (scan s).1 = w.token ∧ w.text ≠ [] ∧ ∃ r, s = w.text ++ r ∧ words r = ws ∧
      w.text = s.take (scan s).2 ∧ r = s.drop (scan s).2 := by
  cases s with
  | nil =>
    rw [words] at h
    cases h
  | cons c r =>
    rw [words] at h
    obtain ⟨rfl, rfl⟩ := List.cons.inj h
    have hpos := scan_pos c r
    refine ⟨rfl, ?_, _, (List.take_append_drop _ _).symm, rfl, rfl, rfl⟩
    rw [ne_eq, List.take_eq_nil_iff]
    simp only [List.cons_ne_nil, or_false]
    omega

/-- The first word of a text is its first token, if that does not reach past the end of the text. -/
theorem scan_of_words {w : Word} {ws : List Word} {r : List Char}
    (h : words (w.text ++ r) = w :: ws) (hend : r = [] → (scan w.text).2 ≤ w.text.length) :
    scan (w.text ++ r) = (w.token, w.text.length) := by
  obtain ⟨htoken, -, -, -, -, htext, -⟩ := words_eq_cons h
  refine Prod.ext htoken ?_
  have hlen := congrArg List.length htext
  rw [List.length_take, List.length_append] at hlen
  cases r with
  | nil =>
    have hle := hend rfl
    rw [List.append_nil, List.length_nil] at *
    dsimp only
    omega
  | cons x r =>
    rw [List.length_cons] at hlen
    dsimp only
    omega

/-- The words of a text put together are the text. -/
theorem words_eq_append {s : List Char} {ws vs : List Word} (h : words s = ws ++ vs) :
    ∃ r, s = spelling ws ++ r ∧ words r = vs := by
  induction ws generalizing s with
  | nil => exact ⟨s, rfl, h⟩
  | cons w ws ih =>
    obtain ⟨-, -, r, hs, hr, -, -⟩ := words_eq_cons h
    obtain ⟨r', hr', hvs⟩ := ih hr
    exact ⟨r', by rw [hs, hr', spelling_cons, List.append_assoc], hvs⟩

theorem spelling_words (s : List Char) : spelling (words s) = s := by
  obtain ⟨r, hs, hr⟩ := words_eq_append (List.append_nil (words s)).symm
  cases r with
  | nil => rw [List.append_nil] at hs; exact hs.symm
  | cons c r =>
    rw [words] at hr
    cases hr

/-- A text begins with a word if its first token has the length of the word. -/
theorem words_append {w : Word} {r : List Char} (hw : w.text ≠ [])
    (h : scan (w.text ++ r) = (w.token, w.text.length)) : words (w.text ++ r) = w :: words r := by
  obtain ⟨c, s, hs⟩ := List.exists_cons_of_ne_nil hw
  have hcons : w.text ++ r = c :: (s ++ r) := by rw [hs, List.cons_append]
  rw [hcons] at h ⊢
  rw [words, h, ← hcons]
  simp

/-! ## Words of white space -/

theorem take_takeWhile {p : Char → Bool} (s : List Char) :
    s.take (s.takeWhile p).length = s.takeWhile p := by
  have h := List.takeWhile_append_dropWhile (p := p) (l := s)
  exact (congrArg (List.take _) h.symm).trans List.take_left

/-- White space is a word with everything that belongs to it. -/
theorem Word.space_text {s : List Char} {w : Word} {ws : List Word} (h : words s = w :: ws)
    (hw : w.token = .space) :
    (∀ x ∈ w.text, isSpace x = true) ∧ ∃ r, s = w.text ++ r ∧ words r = ws ∧
      ∀ c t, r = c :: t → isSpace c = false := by
  obtain ⟨htoken, hne, r, hs, hr, htext, hdrop⟩ := words_eq_cons h
  cases s with
  | nil =>
    rw [words] at h
    cases h
  | cons d u =>
    rw [hw, scan_eq_space_iff] at htoken
    have hlen : 1 + (u.takeWhile isSpace).length = ((d :: u).takeWhile isSpace).length := by
      rw [List.takeWhile_cons_of_pos htoken, List.length_cons, Nat.add_comm]
    rw [scan_space htoken, hlen] at htext hdrop
    rw [take_takeWhile] at htext
    rw [drop_takeWhile] at hdrop
    refine ⟨fun x hx => ?_, r, hs, hr, fun c t hct => ?_⟩
    · rw [htext] at hx
      exact List.mem_takeWhile_imp hx
    · have hhead := List.head?_dropWhile_not isSpace (d :: u)
      rw [← hdrop, hct] at hhead
      exact hhead

/-! ## Tokens that are always spelled in the same way -/

/-- The characters of a token that is always spelled in the same way. -/
def Token.spelling? : Token → Option (List Char)
  | .semicolon => some [';']
  | .opening .curly => some ['\x7b']
  | .opening .square => some ['[']
  | .closing b => some [b.closer]
  | .commentOpen => some ['<', '!', '-', '-']
  | .commentClose => some ['-', '-', '>']
  | _ => none

theorem scan_spelling {s w : List Char} (h : (scan s).1.spelling? = some w) :
    ∃ r, s = w ++ r ∧ (scan s).2 = w.length := by
  have hstring (quote : Char) (r : List Char) : (scanString quote r).1.spelling? ≠ some w := by
    unfold scanString
    dsimp only
    split <;> exact (Option.some_ne_none w).symm
  have hother (c : Char) (r : List Char) : (scanOther c r).1.spelling? ≠ some w := by
    rcases scanOther_token c r with ht | ht | ht <;> rw [ht] <;> exact (Option.some_ne_none w).symm
  revert h
  fun_cases scan s <;> intro h
  all_goals first
    | exact absurd h (hstring _ _)
    | exact absurd h (hother _ _)
    | cases h
  all_goals exact ⟨_, rfl, rfl⟩

theorem Word.exists_scan {s : List Char} {w : Word} (hw : w ∈ words s) :
    ∃ c r, (scan (c :: r)).1 = w.token ∧ w.text = (c :: r).take (scan (c :: r)).2 := by
  obtain ⟨us, vs, hs⟩ := List.append_of_mem hw
  obtain ⟨r, -, hr⟩ := words_eq_append hs
  obtain ⟨htoken, hne, u, hu, -, htext, -⟩ := words_eq_cons hr
  cases r with
  | nil => exact absurd (List.append_eq_nil_iff.mp hu.symm).1 hne
  | cons c r => exact ⟨c, r, htoken, htext⟩

theorem Word.text_of_spelling {s t : List Char} {w : Word} (hw : w ∈ words s)
    (h : w.token.spelling? = some t) : w.text = t := by
  obtain ⟨c, r, htoken, htext⟩ := Word.exists_scan hw
  rw [← htoken] at h
  obtain ⟨v, hv, hlength⟩ := scan_spelling h
  rw [htext, hlength, hv, List.take_left]

/-! ## Words behind which the text changes -/

/-- The texts begin with the same character, also behind the white space that they begin with. -/
def SameStart (r r' : List Char) : Prop :=
  r'.head? = r.head? ∧ (r'.dropWhile isSpace).head? = (r.dropWhile isSpace).head?

theorem SameStart.append {r r' : List Char} (h : SameStart r r') (a : List Char) :
    SameStart (a ++ r) (a ++ r') := by
  induction a with
  | nil => exact h
  | cons c a ih =>
    refine ⟨rfl, ?_⟩
    by_cases hc : isSpace c = true
    · rw [List.cons_append, List.cons_append, List.dropWhile_cons_of_pos hc,
        List.dropWhile_cons_of_pos hc]
      exact ih.2
    · rw [List.cons_append, List.cons_append, List.dropWhile_cons_of_neg hc,
        List.dropWhile_cons_of_neg hc]
      rfl

theorem sameStart_cons {c : Char} (hc : isSpace c = false) (r r' : List Char) :
    SameStart (c :: r) (c :: r') := by
  refine ⟨rfl, ?_⟩
  rw [List.dropWhile_cons_of_neg (by simp [hc]), List.dropWhile_cons_of_neg (by simp [hc])]
  rfl

/-- The first word of a text stays the same when the text changes behind it and behind a
boundary. -/
theorem words_cons_congr {v : Word} {ws : List Word} {a t t' : List Char}
    (h : words (v.text ++ (a ++ t)) = v :: ws) (hend : SameEnd (v.text ++ a) t t')
    (hstart : SameStart (a ++ t) (a ++ t')) :
    words (v.text ++ (a ++ t')) = v :: words (a ++ t') := by
  have hrest : a ++ t ≠ [] := fun hnil => hend.ne_nil (List.append_eq_nil_iff.mp hnil).2
  have hrest' : a ++ t' ≠ [] := by
    intro hnil
    have hhead := hstart.1
    rw [hnil] at hhead
    exact hrest (List.head?_eq_none_iff.mp hhead.symm)
  have hscan := scan_of_words h fun hnil => absurd hnil hrest
  obtain ⟨-, hne, -⟩ := words_eq_cons h
  refine words_append hne ?_
  rw [← hscan]
  obtain ⟨c, b, hb⟩ := List.exists_cons_of_ne_nil hne
  have htext (u : List Char) : v.text ++ (a ++ u) = c :: (b ++ a) ++ u := by rw [hb]; simp
  rw [htext, htext]
  rw [hb] at hend
  refine scan_congr hend ?_ (fun _ => ?_) fun _ => ?_
  · rw [← htext, hscan, hb, List.length_cons, List.length_append]
    omega
  · unfold SameAhead
    rw [← htext, ← htext, hscan, List.drop_left, List.drop_left]
    exact hstart.2
  · rw [← htext, ← htext, hscan, List.length_append]
    exact Nat.lt_add_of_pos_right (List.length_pos_iff.mpr hrest')

/-- The first words of a text stay the same when the text changes behind them and behind a
boundary. -/
theorem words_congr {us ws : List Word} {e t z : List Char}
    (h : words (spelling us ++ (e ++ t)) = us ++ ws) (hend : SameEnd (spelling us ++ e) t z)
    (hstart : SameStart (e ++ t) (e ++ z)) :
    words (spelling us ++ (e ++ z)) = us ++ words (e ++ z) := by
  induction us with
  | nil => rfl
  | cons v us ih =>
    have hassoc (u : List Char) : spelling (v :: us) ++ (e ++ u) =
        v.text ++ (spelling us ++ e ++ u) := by simp
    have hends : SameEnd (v.text ++ (spelling us ++ e)) t z := by
      rwa [spelling_cons, List.append_assoc] at hend
    obtain ⟨-, -, r, hr, hrest, -⟩ := words_eq_cons h
    rw [hassoc] at h hr
    obtain rfl := List.append_cancel_left hr
    rw [List.append_assoc] at hrest
    have hbehind := ih hrest (hends.of_suffix (List.suffix_append v.text _))
    have hstarts := hstart.append (spelling us)
    rw [← List.append_assoc, ← List.append_assoc] at hstarts
    rw [hassoc, words_cons_congr h hends hstarts, List.append_assoc, hbehind, List.cons_append]

/-- A word that begins with a boundary other than white space and is read as it is whatever
follows it. -/
structure Word.StandsAlone (w : Word) : Prop where
  head : ∃ x s, w.text = x :: s ∧ isBoundary x = true ∧ isSpace x = false
  words_append (z : List Char) : words (w.text ++ z) = w :: words z

/-- The words of a text up to one that stands alone do not depend on what stands behind it. -/
theorem words_behind {us vs : List Word} {w : Word} {r : List Char} (z : List Char)
    (h : words (spelling us ++ (w.text ++ r)) = us ++ w :: vs) (hw : w.StandsAlone) :
    words (spelling us ++ (w.text ++ z)) = us ++ w :: words z := by
  obtain ⟨x, t, hx, hboundary, hspace⟩ := hw.head
  have hsplit (u : List Char) : w.text ++ u = [] ++ x :: (t ++ u) := by rw [hx]; rfl
  rw [hsplit] at h
  have hbehind := words_congr (z := x :: (t ++ z)) h ⟨x, _, hboundary, rfl, Or.inl ⟨_, rfl⟩⟩
    (sameStart_cons hspace _ _)
  rw [hsplit, hbehind, ← hsplit, hw.words_append]

theorem words_append_of_standsAlone {s : List Char} {us vs : List Word} (z : List Char)
    (h : words s = us ++ vs) (hus : ∀ w ∈ us.getLast?, w.StandsAlone) :
    words (s ++ z) = us ++ words (spelling vs ++ z) := by
  have hs : s = spelling us ++ spelling vs := by
    rw [← spelling_append, ← h, spelling_words]
  rcases List.eq_nil_or_concat us with rfl | ⟨us, w, rfl⟩
  · rw [hs]
    rfl
  · rw [List.concat_eq_append] at *
    have hsplit (u : List Char) : spelling (us ++ [w]) ++ u = spelling us ++ (w.text ++ u) := by
      simp
    rw [hs, hsplit, List.append_assoc, List.singleton_append] at h
    rw [hs, List.append_assoc, hsplit, words_behind _ h (hus w List.getLast?_concat)]
    simp

/-- A text that is cut off in front of a boundary, behind a word that is neither white space nor the
beginning of something longer. -/
theorem words_cutOff {us ws : List Word} {w : Word} {x : Char} {r : List Char}
    (h : words (spelling us ++ (w.text ++ x :: r)) = us ++ w :: ws) (hx : isBoundary x = true)
    (hw : w.token ≠ .space ∧ w.token ≠ .opening .round ∧ w.token ≠ .badString)
    (hslash : ¬['\\'] <:+ w.text) : words (spelling us ++ w.text) = us ++ [w] := by
  obtain ⟨hspace, hround, hbad⟩ := hw
  obtain ⟨t, ht, hwords⟩ := words_eq_append h
  obtain rfl := List.append_cancel_left ht
  have hscan := scan_of_words hwords fun hnil => absurd hnil (List.cons_ne_nil x r)
  obtain ⟨htoken, hne, -⟩ := words_eq_cons hwords
  obtain ⟨c, b, hb⟩ := List.exists_cons_of_ne_nil hne
  have hc : isSpace c = false := by
    rw [← Bool.not_eq_true, ← scan_eq_space_iff c (b ++ x :: r), ← List.cons_append, ← hb, htoken]
    exact hspace
  have hend {a : List Char} (ha : ¬['\\'] <:+ a) : SameEnd a (x :: r) [] :=
    ⟨x, r, hx, rfl, Or.inr ⟨rfl, ha⟩⟩
  -- The words in front of `w` are the same, and so is `w` itself.
  have hbehind := words_congr h (hend fun hsuffix => ?_) (z := []) ?_
  · rw [List.append_nil] at hbehind
    rw [hbehind]
    have hcut : scan (w.text ++ []) = scan (w.text ++ x :: r) := by
      rw [hb] at hslash hscan ⊢
      refine scan_congr (hend hslash) ?_ (fun h => ?_) fun h => ?_
      · rw [hscan]
        exact Nat.le_refl _
      · rw [hscan] at h
        exact absurd h hround
      · rw [hscan] at h
        exact absurd h hbad
    have hword := words_append (r := []) hne (hcut.trans hscan)
    rw [List.append_nil] at hword
    rw [hword, words_nil]
  · exact hslash (List.suffix_of_suffix_length_le hsuffix (List.suffix_append _ _)
      (List.length_pos_iff.mpr hne))
  · rw [hb]
    exact sameStart_cons hc _ _

/-- A text that is cut off behind a function. What is left of the function may count as a URL that
the end of the text ends. -/
theorem words_cutOff_round {us ws : List Word} {w : Word} {r : List Char}
    (h : words (spelling us ++ (w.text ++ r)) = us ++ w :: ws) (hr : r ≠ [])
    (hw : w.token = .opening .round) :
    ∃ t, (t = .opening .round ∨ t = .plain) ∧
      words (spelling us ++ w.text) = us ++ [⟨t, w.text⟩] := by
  obtain ⟨u, hu, hwords⟩ := words_eq_append h
  obtain rfl := List.append_cancel_left hu
  have hscan := scan_of_words hwords fun hnil => absurd hnil hr
  obtain ⟨n, r', hn, hlen⟩ := scan_round ((congrArg Prod.fst hscan).trans hw)
  have hlen : w.text.length = n.length + 1 := (congrArg Prod.snd hscan).symm.trans hlen
  have hsplit : w.text ++ r = (n ++ ['(']) ++ r' := by rw [hn]; simp
  obtain ⟨htext, rfl⟩ := List.append_inj hsplit (by rw [hlen]; simp)
  rw [hn, hw, hlen] at hscan
  rw [hn] at h
  have hbehind := words_congr (z := ['(']) h ⟨'(', _, by decide, rfl, Or.inl ⟨[], rfl⟩⟩
    ((sameStart_cons (by decide) r []).append n)
  rw [htext, hbehind]
  have hne : n ++ ['('] ≠ [] := by simp
  have hword {t : Token} (ht : scan (n ++ ['(']) = (t, n.length + 1)) :
      words (n ++ ['(']) = [⟨t, n ++ ['(']⟩] := by
    have hone := words_append (w := ⟨t, n ++ ['(']⟩) (r := []) hne (by simpa using ht)
    rwa [List.append_nil, words_nil] at hone
  rcases scan_function hscan with hround | hurl
  · exact ⟨_, Or.inl rfl, by rw [hword (hround [])]⟩
  · have hplain := hurl []
    rw [scanUrl_nil] at hplain
    exact ⟨_, Or.inr rfl, by rw [hword hplain]⟩

/-! ## Words with lines left out -/

/-- The text ends a comment, whatever follows it. -/
def ClosesComment (s : List Char) : Prop := ∀ u, commentLength (s ++ u) = s.length

/-- A word that ends with a character of its own: a semicolon, a closing curly bracket, or a comment
that is not cut off by the end of the text. -/
inductive Word.Closed : Word → Prop where
  | semicolon : Word.Closed ⟨.semicolon, [';']⟩
  | curly : Word.Closed ⟨.closing .curly, ['\x7d']⟩
  | comment {s : List Char} (hs : ClosesComment s) : Word.Closed ⟨.comment, '/' :: '*' :: s⟩

/-- A comment consists of its opening mark and what follows it. It is closed if it is not the last
word. -/
theorem Word.comment_text {s : List Char} {w : Word} {ws : List Word} (h : words s = w :: ws)
    (hw : w.token = .comment) :
    ∃ t, w = ⟨.comment, '/' :: '*' :: t⟩ ∧ (ws ≠ [] → ClosesComment t) := by
  obtain ⟨htoken, hne, r, rfl, hr, htext, -⟩ := words_eq_cons h
  obtain ⟨c, v, hv⟩ := List.exists_cons_of_ne_nil hne
  rw [hw, hv, List.cons_append] at htoken
  obtain ⟨b, hb, hscan⟩ := scan_comment htoken
  rw [← List.cons_append, ← hv] at hb hscan
  rw [hscan, hb, Nat.add_comm, List.take_succ_cons, List.take_succ_cons] at htext
  refine ⟨b.take (commentLength b), ?_, fun hws u => ?_⟩
  · rw [← htext, ← hw]
  · have hrest : r ≠ [] := by
      rintro rfl
      rw [words_nil] at hr
      exact hws hr.symm
    have hsplit : b.take (commentLength b) ++ r = b := by
      rw [htext] at hb
      exact (List.cons.inj (List.cons.inj hb).2).2
    have hlength : (b.take (commentLength b)).length = commentLength b := by
      rw [List.length_take, Nat.min_eq_left (commentLength_le b)]
    rw [commentLength_congr hrest, hsplit, hlength]
    rw [hsplit, hlength]

/-- The second word is the first one, or it is white space, a comment or an unquoted URL like the
first one, which has lost some of what is inside of it. It ends where the first one does. -/
inductive Thins : Word → Word → Prop where
  | same (w : Word) : Thins w w
  | space {c : Char} {s t : List Char} (hs : ∀ x ∈ c :: s, isSpace x = true)
      (ht : ∀ x ∈ t, isSpace x = true) : Thins ⟨.space, c :: s⟩ ⟨.space, c :: t⟩
  | comment {s t : List Char}
      (h : ∀ u, commentLength (s ++ u) = s.length → commentLength (t ++ u) = t.length) :
      Thins ⟨.comment, '/' :: '*' :: s⟩ ⟨.comment, '/' :: '*' :: t⟩
  | url {n s t : List Char} (hn : BeginsUrl n)
      (h : ∀ u, scanUrl (s ++ u) = (.plain, s.length) → scanUrl (t ++ u) = (.plain, t.length)) :
      Thins ⟨.plain, n ++ '(' :: s⟩ ⟨.plain, n ++ '(' :: t⟩

theorem Word.Closed.eq_or {w : Word} (h : w.Closed) :
    w = ⟨.semicolon, [';']⟩ ∨ w = ⟨.closing .curly, ['\x7d']⟩ ∨ w.token = .comment := by
  cases h
  · exact Or.inl rfl
  · exact Or.inr (Or.inl rfl)
  · exact Or.inr (Or.inr rfl)

theorem Word.Closed.standsAlone {w : Word} (h : w.Closed) : w.StandsAlone := by
  cases h with
  | semicolon =>
    exact ⟨⟨_, _, rfl, by decide, by decide⟩, fun z => Css.words_append (by simp) rfl⟩
  | curly => exact ⟨⟨_, _, rfl, by decide, by decide⟩, fun z => Css.words_append (by simp) rfl⟩
  | comment hs =>
    rename_i s
    refine ⟨⟨_, _, rfl, by decide, by decide⟩, fun z => Css.words_append (by simp) ?_⟩
    show (Token.comment, 2 + commentLength (s ++ z)) = (.comment, s.length + 2)
    rw [hs z, Nat.add_comm]

theorem Word.closed_of_token {s : List Char} {w : Word} (hw : w ∈ words s)
    (h : w.token = .semicolon ∨ w.token = .closing .curly) : w.Closed := by
  obtain ⟨token, text⟩ := w
  dsimp only at h
  rcases h with rfl | rfl
  · obtain rfl : text = [';'] := Word.text_of_spelling hw rfl
    exact .semicolon
  · obtain rfl : text = ['\x7d'] := Word.text_of_spelling hw rfl
    exact .curly

theorem isBoundary_of_isSpace {c : Char} (h : isSpace c = true) : isBoundary c = true := by
  rcases isSpace_iff.mp h with rfl | rfl | rfl | rfl | rfl <;> decide

theorem dropWhile_of_head {p : Char → Bool} {s : List Char}
    (h : ∀ c, s.head? = some c → p c = false) : s.dropWhile p = s := by
  cases s with
  | nil => rfl
  | cons c s => exact List.dropWhile_cons_of_neg (by simp [h c rfl])

namespace Thins

variable {w v : Word}

/-- The two words begin with the same characters, up to a boundary. -/
theorem ahead (h : Thins w v) : v = w ∨ ∃ a x r r', isBoundary x = true ∧
    w.text = a ++ x :: r ∧ v.text = a ++ x :: r' := by
  cases h with
  | same => exact Or.inl rfl
  | space hs =>
    exact Or.inr ⟨[], _, _, _, isBoundary_of_isSpace (hs _ List.mem_cons_self), rfl, rfl⟩
  | comment => exact Or.inr ⟨[], '/', _, _, by decide, rfl, rfl⟩
  | url => exact Or.inr ⟨_, '(', _, _, by decide, rfl, rfl⟩

theorem head?_eq (h : Thins w v) : v.text.head? = w.text.head? := by
  rcases h.ahead with rfl | ⟨a, x, r, r', -, hw, hv⟩
  · rfl
  · rw [hw, hv]
    cases a <;> rfl

theorem isSpace_text (h : Thins w v) (hspace : w.token = .space)
    (hw : ∀ x ∈ w.text, isSpace x = true) : ∀ x ∈ v.text, isSpace x = true := by
  cases h with
  | same => exact hw
  | space hs ht => exact List.forall_mem_cons.mpr ⟨hs _ List.mem_cons_self, ht⟩
  | comment => cases hspace
  | url => cases hspace

/-- In front of the same text, the second word is found where the first one is. -/
theorem words_append {r : List Char} (h : Thins w v)
    (hw : words (w.text ++ r) = w :: words r) : words (v.text ++ r) = v :: words r := by
  have hne := (words_eq_cons hw).2.1
  cases h with
  | same => exact hw
  | @space c s t hs ht =>
    rw [List.forall_mem_cons] at hs
    have hscan := scan_of_words hw fun _ => by
      rw [scan_space hs.1, Nat.add_comm]
      exact Nat.succ_le_succ (List.takeWhile_prefix _).length_le
    rw [List.cons_append, scan_space hs.1, List.takeWhile_append_of_pos hs.2] at hscan
    have hlen := congrArg Prod.snd hscan
    simp only [List.length_append, List.length_cons] at hlen
    have hr : r.takeWhile isSpace = [] := List.eq_nil_of_length_eq_zero (by omega)
    refine Css.words_append (List.cons_ne_nil c t) ?_
    rw [List.cons_append, scan_space hs.1, List.takeWhile_append_of_pos ht, hr, List.append_nil,
      List.length_cons, Nat.add_comm]
  | @comment s t h =>
    have hcomment (u : List Char) :
        scan ('/' :: '*' :: u) = (.comment, 2 + commentLength u) := rfl
    have hscan := scan_of_words hw fun _ => by
      have hle := commentLength_le s
      rw [hcomment, List.length_cons, List.length_cons]
      dsimp only
      omega
    rw [List.cons_append, List.cons_append, hcomment] at hscan
    have hlen := congrArg Prod.snd hscan
    simp only [List.length_cons] at hlen
    refine Css.words_append (List.cons_ne_nil _ _) ?_
    rw [List.cons_append, List.cons_append, hcomment, h r (by omega), List.length_cons,
      List.length_cons, Nat.add_comm]
  | @url n s t hn h =>
    have hscan := scan_of_words hw fun _ => by
      have hle := scanUrl_le s
      rw [hn, List.length_append, List.length_cons]
      dsimp only
      omega
    rw [List.append_assoc, List.cons_append, hn] at hscan
    obtain ⟨htoken, hlen⟩ := Prod.mk.inj hscan
    rw [List.length_append, List.length_cons] at hlen
    have hs : scanUrl (s ++ r) = (.plain, s.length) := Prod.ext htoken (by dsimp only; omega)
    refine Css.words_append (by simp) ?_
    rw [List.append_assoc, List.cons_append, hn, h r hs, List.length_append, List.length_cons]
    dsimp only
    rw [Nat.add_assoc, Nat.add_comm 1]

theorem standsAlone (h : Thins w v) (hw : w.StandsAlone) : v.StandsAlone := by
  refine ⟨?_, fun z => h.words_append (hw.words_append z)⟩
  obtain ⟨x, s, hs, hboundary, hspace⟩ := hw.head
  have hhead := h.head?_eq
  rw [hs, List.head?_cons, List.head?_eq_some_iff] at hhead
  obtain ⟨t, ht⟩ := hhead
  exact ⟨x, t, ht, hboundary, hspace⟩

end Thins

section Thinned

variable {f : Word → Word} {us : List Word}

/-- A thinned text begins with the same characters as the text, up to a boundary. -/
theorem thinned_ahead (hf : ∀ v ∈ us, Thins v (f v)) :
    spelling (us.map f) = spelling us ∨ ∃ a x r r', isBoundary x = true ∧
      spelling us = a ++ x :: r ∧ spelling (us.map f) = a ++ x :: r' := by
  induction us with
  | nil => exact Or.inl rfl
  | cons v us ih =>
    rw [List.forall_mem_cons] at hf
    rw [List.map_cons, spelling_cons, spelling_cons]
    rcases hf.1.ahead with heq | ⟨a, x, r, r', hx, hr, hr'⟩
    · rw [heq]
      rcases ih hf.2 with hsame | ⟨a, x, r, r', hx, hr, hr'⟩
      · exact Or.inl (by rw [hsame])
      · exact Or.inr ⟨v.text ++ a, x, r, r', hx, by rw [hr, List.append_assoc],
          by rw [hr', List.append_assoc]⟩
    · exact Or.inr ⟨a, x, r ++ spelling us, r' ++ spelling (us.map f), hx,
        by rw [hr, List.append_assoc, List.cons_append],
        by rw [hr', List.append_assoc, List.cons_append]⟩

theorem thinned_head {s : List Char} (h : words s = us) (hf : ∀ v ∈ us, Thins v (f v)) :
    (spelling (us.map f)).head? = s.head? := by
  cases us with
  | nil =>
    rw [← spelling_words s, h]
    rfl
  | cons v us =>
    obtain ⟨-, hne, r, rfl, -⟩ := words_eq_cons h
    have hv := hf v List.mem_cons_self
    obtain ⟨c, t, ht⟩ := List.exists_cons_of_ne_nil hne
    have hhead := hv.head?_eq
    rw [ht, List.head?_cons, List.head?_eq_some_iff] at hhead
    obtain ⟨t', ht'⟩ := hhead
    rw [List.map_cons, spelling_cons, ht, ht']
    rfl

/-- A thinned text begins like the text, also behind white space. -/
theorem thinned_sameStart {s : List Char} (h : words s = us) (hf : ∀ v ∈ us, Thins v (f v)) :
    SameStart s (spelling (us.map f)) := by
  have hhead := thinned_head h hf
  refine ⟨hhead, ?_⟩
  by_cases hspace : ∃ v vs, us = v :: vs ∧ v.token = .space
  · obtain ⟨v, vs, rfl, hv⟩ := hspace
    obtain ⟨htext, r, rfl, hr, hend⟩ := Word.space_text h hv
    rw [List.forall_mem_cons] at hf
    have hhead := thinned_head hr hf.2
    have hr' : ∀ c, r.head? = some c → isSpace c = false := by
      intro c hc
      obtain ⟨t, ht⟩ := List.head?_eq_some_iff.mp hc
      exact hend c t ht
    rw [List.map_cons, spelling_cons, List.dropWhile_append_of_pos (hf.1.isSpace_text hv htext),
      List.dropWhile_append_of_pos htext, dropWhile_of_head hr',
      dropWhile_of_head (by rwa [hhead]), hhead]
  · have hs : ∀ c, s.head? = some c → isSpace c = false := by
      intro c hc
      obtain ⟨r, rfl⟩ := List.head?_eq_some_iff.mp hc
      rw [words] at h
      rw [← Bool.not_eq_true, ← scan_eq_space_iff c r]
      exact fun htoken => hspace ⟨_, _, h.symm, htoken⟩
    rw [dropWhile_of_head hs, dropWhile_of_head (by rwa [hhead]), hhead]

/-- A thinned text is read anew as the thinned words. -/
theorem words_thinned {s : List Char} (h : words s = us) (hf : ∀ v ∈ us, Thins v (f v)) :
    words (spelling (us.map f)) = us.map f := by
  induction us generalizing s with
  | nil => exact words_nil
  | cons v us ih =>
    obtain ⟨-, -, r, rfl, hr, -⟩ := words_eq_cons h
    have hstart := thinned_sameStart hr (List.forall_mem_cons.mp hf).2
    have hrest := ih hr (List.forall_mem_cons.mp hf).2
    rw [List.forall_mem_cons] at hf
    have hspell : spelling us = r := by rw [← hr, spelling_words]
    -- First what stands behind `v` is thinned, then `v` itself.
    have hbehind : words (v.text ++ spelling (us.map f)) = v :: words (spelling (us.map f)) := by
      rcases thinned_ahead hf.2 with hsame | ⟨a, x, q, q', hx, hq, hq'⟩
      · rw [hsame, hspell, h, hr]
      · rw [hspell] at hq
        rw [hq, hq'] at hstart
        rw [hq] at h
        rw [hq']
        exact words_cons_congr h ⟨x, q, hx, rfl, Or.inl ⟨q', rfl⟩⟩ hstart
    rw [List.map_cons, spelling_cons, hf.1.words_append hbehind, hrest]

end Thinned

end Userstyle.Css
