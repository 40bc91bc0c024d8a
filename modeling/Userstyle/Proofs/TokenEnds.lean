import Mathlib.Data.List.TakeWhile
import Userstyle.Proofs.NameEnds

/-!
# Where tokens end

The first token of a text stays what it is when the text changes behind a boundary that the token
does not reach, or is cut off in front of it (`scan_congr`). There is one exception: whether `url(`
begins a URL or a function is decided by the first character behind it that is not white space.
-/

namespace Userstyle.Css

section Limited

variable {a t t' : List Char}

/-! ## Comments, strings and URLs -/

theorem commentLength_cons (c : Char) (r : List Char) :
    commentLength (c :: r) =
      if c = '*' ∧ r.head? = some '/' then 2 else 1 + commentLength r := by
  by_cases h : c = '*' ∧ r.head? = some '/'
  · obtain ⟨rfl, hr⟩ := h
    obtain ⟨r, rfl⟩ := List.head?_eq_some_iff.mp hr
    simp [commentLength]
  · rw [if_neg h, commentLength]
    rintro r' rfl rfl
    exact h ⟨rfl, rfl⟩

theorem commentLength_le (s : List Char) : commentLength s ≤ s.length := by
  induction s with
  | nil => exact Nat.le_refl 0
  | cons c r ih =>
    rw [commentLength_cons]
    split
    · rename_i hclose
      obtain ⟨r, rfl⟩ := List.head?_eq_some_iff.mp hclose.2
      simp
    · rw [List.length_cons]
      omega

/-- A comment that ends before the end of the text. -/
theorem commentLength_congr (ht : t ≠ []) (hlen : commentLength (a ++ t) ≤ a.length) :
    commentLength (a ++ t') = commentLength (a ++ t) := by
  induction a with
  | nil =>
    obtain ⟨x, r, rfl⟩ := List.exists_cons_of_ne_nil ht
    rw [List.nil_append, commentLength_cons] at hlen
    split at hlen <;> simp at hlen
  | cons c a ih =>
    simp only [List.cons_append, commentLength_cons, List.length_cons] at hlen ⊢
    cases a with
    | nil =>
      -- Nothing but the one character is there, which is less than a closing mark.
      obtain ⟨x, r, rfl⟩ := List.exists_cons_of_ne_nil ht
      simp only [List.nil_append, commentLength_cons, List.length_nil] at hlen
      split at hlen
      · omega
      · split at hlen <;> omega
    | cons d a =>
      by_cases hclose : c = '*' ∧ d = '/'
      · simp [hclose]
      · have hno : ¬(c = '*' ∧ (d :: a ++ t).head? = some '/') := by simpa using hclose
        have hno' : ¬(c = '*' ∧ (d :: a ++ t').head? = some '/') := by simpa using hclose
        rw [if_neg hno] at hlen
        rw [if_neg hno, if_neg hno', ih (by omega)]

/-- The length of what a backslash in a string takes along. -/
def stringEscapeLength (r : List Char) : Nat :=
  if beginsWithNewline r then newlineLength r else escapeLength r

theorem stringEscapeLength_congr (h : SameEnd ('\\' :: a) t t')
    (hlen : stringEscapeLength (a ++ t) ≤ a.length) :
    stringEscapeLength (a ++ t') = stringEscapeLength (a ++ t) := by
  unfold stringEscapeLength at hlen ⊢
  rw [beginsWithNewline_congr h]
  by_cases hnewline : beginsWithNewline (a ++ t) = true
  · rw [if_pos hnewline] at hlen
    rw [if_pos hnewline, if_pos hnewline]
    refine newlineLength_congr h.tail ?_ hlen
    rintro rfl
    obtain ⟨x, r, -, rfl, -⟩ := h
    have hx : isNewline x = true := hnewline
    rw [List.nil_append, newlineLength_cons, if_pos hx] at hlen
    split at hlen <;> cases hlen
  · rw [if_neg hnewline] at hlen
    rw [if_neg hnewline, if_neg hnewline, escapeLength_congr h.tail hlen]

theorem stringLength_cons (quote c : Char) (r : List Char) :
    stringLength quote (c :: r) =
      if c = quote then (true, 1)
      else if isNewline c then (false, 0)
      else if c = '\\' then
        ((stringLength quote (r.drop (stringEscapeLength r))).1,
          1 + stringEscapeLength r + (stringLength quote (r.drop (stringEscapeLength r))).2)
      else ((stringLength quote r).1, 1 + (stringLength quote r).2) := by
  rw [stringLength]
  rfl

/-- A string that ends in front of a boundary. One that is cut off by the end of the text counts as
whole, so something has to follow one that is not. -/
theorem stringLength_congr {quote : Char} (h : SameEnd a t t')
    (hlen : (stringLength quote (a ++ t)).2 ≤ a.length)
    (hwhole : (stringLength quote (a ++ t)).1 = true ∨
      (stringLength quote (a ++ t)).2 < (a ++ t').length) :
    stringLength quote (a ++ t') = stringLength quote (a ++ t) := by
  induction hn : a.length using Nat.strongRecOn generalizing a with
  | ind n ih =>
    cases a with
    | nil =>
      obtain ⟨x, r, -, rfl, hr⟩ := h
      simp only [List.nil_append, stringLength_cons, List.length_nil] at hlen hwhole ⊢
      by_cases hquote : x = quote
      · simp [hquote] at hlen
      by_cases hx : isNewline x = true
      · obtain ⟨r', rfl⟩ | ⟨rfl, -⟩ := hr
        · simp [stringLength_cons, hquote, hx]
        · simp [hquote, hx] at hwhole
      · rw [if_neg hquote, if_neg hx] at hlen
        split at hlen <;> simp at hlen
    | cons c a =>
      rw [List.length_cons] at hn hlen
      simp only [List.cons_append, stringLength_cons] at hlen hwhole ⊢
      by_cases hquote : c = quote
      · rw [if_pos hquote, if_pos hquote]
      by_cases hnewline : isNewline c = true
      · rw [if_neg hquote, if_pos hnewline, if_neg hquote, if_pos hnewline]
      rw [if_neg hquote, if_neg hnewline] at hlen hwhole
      rw [if_neg hquote, if_neg hnewline, if_neg hquote, if_neg hnewline]
      by_cases hslash : c = '\\'
      · subst hslash
        simp only [if_true] at hlen hwhole ⊢
        have hescape : stringEscapeLength (a ++ t) ≤ a.length := by omega
        have hdrop (u : List Char) : (a ++ u).drop (stringEscapeLength (a ++ t)) =
            a.drop (stringEscapeLength (a ++ t)) ++ u :=
          List.drop_append_of_le_length hescape
        rw [hdrop] at hlen hwhole
        rw [stringEscapeLength_congr h hescape, hdrop, hdrop,
          ih (a.drop (stringEscapeLength (a ++ t))).length _ (h.tail.drop _) _ _ rfl]
        · rw [List.length_drop]
          omega
        · rw [List.length_drop]
          omega
        · refine hwhole.imp_right fun hlt => ?_
          rw [List.length_cons, List.length_append] at hlt
          rw [List.length_append, List.length_drop]
          omega
      · rw [if_neg hslash] at hlen hwhole
        rw [if_neg hslash, if_neg hslash, ih a.length (by omega) h.tail (by omega) _ rfl]
        refine hwhole.imp_right fun hlt => ?_
        rw [List.length_cons] at hlt
        omega

theorem badUrlLength_cons (c : Char) (r : List Char) :
    badUrlLength (c :: r) =
      if c = ')' then 1
      else if c = '\\' ∧ (r.head? = some ')' ∨ r.head? = some '\\') then 2 + badUrlLength r.tail
      else 1 + badUrlLength r := by
  by_cases hclose : c = ')'
  · rw [if_pos hclose, hclose]
    rfl
  rw [if_neg hclose]
  by_cases hslash : c = '\\' ∧ (r.head? = some ')' ∨ r.head? = some '\\')
  · rw [if_pos hslash]
    obtain ⟨rfl, hr | hr⟩ := hslash
    all_goals
      obtain ⟨r, rfl⟩ := List.head?_eq_some_iff.mp hr
      rfl
  · rw [if_neg hslash, badUrlLength]
    · exact hclose
    · rintro r' rfl rfl
      exact hslash ⟨rfl, Or.inl rfl⟩
    · rintro r' rfl rfl
      exact hslash ⟨rfl, Or.inr rfl⟩

theorem badUrlLength_pos {s : List Char} (hs : s ≠ []) : 0 < badUrlLength s := by
  obtain ⟨c, r, rfl⟩ := List.exists_cons_of_ne_nil hs
  rw [badUrlLength_cons]
  split
  · omega
  · split <;> omega

theorem badUrlLength_le (s : List Char) : badUrlLength s ≤ s.length := by
  induction hn : s.length using Nat.strongRecOn generalizing s with
  | ind n ih =>
    cases s with
    | nil => exact Nat.zero_le _
    | cons c r =>
      rw [List.length_cons] at hn
      have hr := ih r.length (by omega) r rfl
      rw [badUrlLength_cons]
      split
      · omega
      · split
        · rename_i hslash
          cases r with
          | nil => rcases hslash.2 with h | h <;> cases h
          | cons d r =>
            rw [List.length_cons] at hn
            have htail := ih r.length (by omega) r rfl
            rw [List.tail_cons]
            omega
        · omega

/-- A bad URL that ends before the end of the text. -/
theorem badUrlLength_congr (ht : t ≠ []) (hlen : badUrlLength (a ++ t) ≤ a.length) :
    badUrlLength (a ++ t') = badUrlLength (a ++ t) := by
  induction hn : a.length using Nat.strongRecOn generalizing a with
  | ind n ih =>
    cases a with
    | nil =>
      have hpos := badUrlLength_pos ht
      rw [List.nil_append, List.length_nil] at hlen
      omega
    | cons c a =>
      rw [List.length_cons] at hn hlen
      simp only [List.cons_append, badUrlLength_cons] at hlen ⊢
      by_cases hclose : c = ')'
      · rw [if_pos hclose, if_pos hclose]
      rw [if_neg hclose] at hlen
      rw [if_neg hclose, if_neg hclose]
      cases a with
      | nil =>
        have hpos := badUrlLength_pos ht
        rw [List.nil_append, List.length_nil] at hlen
        split at hlen <;> omega
      | cons d a =>
        rw [List.length_cons] at hn hlen
        have hhead (u : List Char) : (d :: a ++ u).head? = some d := rfl
        have htail (u : List Char) : (d :: a ++ u).tail = a ++ u := rfl
        simp only [hhead, htail] at hlen ⊢
        by_cases hslash : c = '\\' ∧ (some d = some ')' ∨ some d = some '\\')
        · rw [if_pos hslash] at hlen
          rw [if_pos hslash, if_pos hslash, ih a.length (by omega) (by omega) rfl]
        · rw [if_neg hslash] at hlen
          have hle : badUrlLength (d :: a ++ t) ≤ (d :: a).length := by
            rw [List.length_cons]
            omega
          rw [if_neg hslash, if_neg hslash, ih (d :: a).length (by simp; omega) hle rfl]

theorem drop_takeWhile {p : Char → Bool} (s : List Char) :
    s.drop (s.takeWhile p).length = s.dropWhile p := by
  have h := List.takeWhile_append_dropWhile (p := p) (l := s)
  exact (congrArg (List.drop _) h.symm).trans List.drop_left

/-- White space in front of another character ends where it did. -/
theorem space_append {b : List Char} (hb : b.dropWhile isSpace ≠ []) (u : List Char) :
    (b ++ u).takeWhile isSpace = b.takeWhile isSpace ∧
      (b ++ u).dropWhile isSpace = b.dropWhile isSpace ++ u := by
  induction b with
  | nil => exact absurd rfl hb
  | cons c b ih =>
    by_cases hc : isSpace c = true
    · rw [List.dropWhile_cons_of_pos hc] at hb
      obtain ⟨htake, hdrop⟩ := ih hb
      simp [hc, htake, hdrop]
    · simp [hc]

/-- The length of a URL from a place where its white space is behind. -/
def closeLength : List Char → Bool × Nat
  | [] => (true, 0)
  | c :: r => if c = ')' then (true, 1) else (false, 1 + badUrlLength r)

theorem urlEndLength_eq (s : List Char) :
    urlEndLength s = ((closeLength (s.dropWhile isSpace)).1,
      (s.takeWhile isSpace).length + (closeLength (s.dropWhile isSpace)).2) := by
  unfold urlEndLength
  dsimp only
  rw [drop_takeWhile]
  generalize s.dropWhile isSpace = r
  cases r with
  | nil => rfl
  | cons c r =>
    by_cases hc : c = ')'
    · subst hc
      rfl
    · simp [closeLength, hc, Nat.add_assoc]

theorem closeLength_pos {s : List Char} (hs : s ≠ []) : 0 < (closeLength s).2 := by
  obtain ⟨c, r, rfl⟩ := List.exists_cons_of_ne_nil hs
  by_cases hc : c = ')'
  · simp [closeLength, hc]
  · simp only [closeLength, if_neg hc]
    omega

theorem closeLength_congr (ht : t ≠ []) (hlen : (closeLength (a ++ t)).2 ≤ a.length) :
    closeLength (a ++ t') = closeLength (a ++ t) := by
  cases a with
  | nil =>
    have hpos := closeLength_pos ht
    rw [List.nil_append, List.length_nil] at hlen
    omega
  | cons c a =>
    by_cases hc : c = ')'
    · simp [closeLength, hc]
    · simp only [List.cons_append, closeLength, if_neg hc, List.length_cons] at hlen ⊢
      rw [badUrlLength_congr ht (by omega)]

theorem urlEndLength_pos {s : List Char} (hs : s ≠ []) : 0 < (urlEndLength s).2 := by
  rw [urlEndLength_eq]
  cases hd : s.dropWhile isSpace with
  | nil =>
    have hsplit := List.takeWhile_append_dropWhile (p := isSpace) (l := s)
    rw [hd, List.append_nil] at hsplit
    rw [hsplit]
    exact Nat.lt_of_lt_of_le (List.length_pos_iff.mpr hs) (Nat.le_add_right _ _)
  | cons c r =>
    exact Nat.lt_of_lt_of_le (closeLength_pos (List.cons_ne_nil c r)) (Nat.le_add_left _ _)

theorem closeLength_le (s : List Char) : (closeLength s).2 ≤ s.length := by
  cases s with
  | nil => exact Nat.le_refl 0
  | cons c r =>
    have hbad := badUrlLength_le r
    rw [closeLength, List.length_cons]
    split
    · exact Nat.le_add_left 1 _
    · dsimp only
      omega

theorem urlEndLength_le (s : List Char) : (urlEndLength s).2 ≤ s.length := by
  have hclose := closeLength_le (s.dropWhile isSpace)
  have hsplit := congrArg List.length (List.takeWhile_append_dropWhile (p := isSpace) (l := s))
  rw [List.length_append] at hsplit
  rw [urlEndLength_eq]
  dsimp only
  omega

/-- The end of a URL, good or bad, that ends before the end of the text. -/
theorem urlEndLength_congr (ht : t ≠ []) (hlen : (urlEndLength (a ++ t)).2 ≤ a.length) :
    urlEndLength (a ++ t') = urlEndLength (a ++ t) := by
  -- If `a` were all white space, the URL would end behind it.
  have ha : a.dropWhile isSpace ≠ [] := by
    intro hspace
    rw [List.dropWhile_eq_nil_iff] at hspace
    have hpos := urlEndLength_pos ht
    rw [urlEndLength_eq] at hpos hlen
    rw [List.takeWhile_append_of_pos hspace, List.dropWhile_append_of_pos hspace,
      List.length_append] at hlen
    dsimp only at hpos hlen
    omega
  obtain ⟨htake, hdrop⟩ := space_append ha t
  obtain ⟨htake', hdrop'⟩ := space_append ha t'
  rw [urlEndLength_eq, htake, hdrop] at hlen
  rw [urlEndLength_eq, urlEndLength_eq, htake, hdrop, htake', hdrop', closeLength_congr ht]
  have hlength : (a.takeWhile isSpace).length + (a.dropWhile isSpace).length = a.length := by
    rw [← List.length_append, List.takeWhile_append_dropWhile]
  dsimp only at hlen
  omega

theorem urlLength_nil : urlLength [] = (true, 0) := by rw [urlLength]

theorem urlLength_cons (c : Char) (r : List Char) :
    urlLength (c :: r) =
      if c = ')' then (true, 1)
      else if isSpace c then urlEndLength (c :: r)
      else if isBarredFromUrl c then (false, 1 + badUrlLength r)
      else if c = '\\' then
        if beginsWithNewline r then (false, 1 + badUrlLength r)
        else ((urlLength (r.drop (escapeLength r))).1,
          1 + escapeLength r + (urlLength (r.drop (escapeLength r))).2)
      else ((urlLength r).1, 1 + (urlLength r).2) := by
  rw [urlLength]

theorem urlLength_pos {s : List Char} (hs : s ≠ []) : 0 < (urlLength s).2 := by
  obtain ⟨c, r, rfl⟩ := List.exists_cons_of_ne_nil hs
  rw [urlLength_cons]
  by_cases hclose : c = ')'
  · simp [hclose]
  by_cases hspace : isSpace c = true
  · simpa [hclose, hspace] using urlEndLength_pos (List.cons_ne_nil c r)
  rw [if_neg hclose, if_neg hspace]
  split
  · dsimp only
    omega
  · split
    · split <;> dsimp only <;> omega
    · dsimp only
      omega

theorem urlLength_le (s : List Char) : (urlLength s).2 ≤ s.length := by
  induction hn : s.length using Nat.strongRecOn generalizing s with
  | ind n ih =>
    cases s with
    | nil => exact (congrArg Prod.snd urlLength_nil).le.trans (Nat.zero_le _)
    | cons c r =>
      have hend := urlEndLength_le (c :: r)
      rw [List.length_cons] at hn hend
      have hbad := badUrlLength_le r
      have hescape := escapeLength_le r
      have hdrop := ih (r.drop (escapeLength r)).length (by rw [List.length_drop]; omega) _ rfl
      rw [List.length_drop] at hdrop
      have hr := ih r.length (by omega) r rfl
      rw [urlLength_cons]
      split
      · dsimp only
        omega
      split
      · omega
      split
      · dsimp only
        omega
      split
      · split
        · dsimp only
          omega
        · dsimp only
          omega
      · dsimp only
        omega

/-- An unquoted URL, good or bad, that ends before the end of the text. -/
theorem urlLength_congr (h : SameEnd a t t') (hlen : (urlLength (a ++ t)).2 ≤ a.length) :
    urlLength (a ++ t') = urlLength (a ++ t) := by
  have ht := h.ne_nil
  induction hn : a.length using Nat.strongRecOn generalizing a with
  | ind n ih =>
    cases a with
    | nil =>
      have hpos := urlLength_pos ht
      rw [List.nil_append, List.length_nil] at hlen
      omega
    | cons c a =>
      rw [List.length_cons] at hn hlen
      have hend (hle : (urlEndLength (c :: a ++ t)).2 ≤ (c :: a).length) :
          urlEndLength (c :: a ++ t') = urlEndLength (c :: a ++ t) :=
        urlEndLength_congr ht hle
      simp only [List.cons_append, urlLength_cons] at hlen hend ⊢
      by_cases hclose : c = ')'
      · rw [if_pos hclose, if_pos hclose]
      by_cases hspace : isSpace c = true
      · rw [if_neg hclose, if_pos hspace] at hlen
        rw [if_neg hclose, if_pos hspace, if_neg hclose, if_pos hspace, hend hlen]
      rw [if_neg hclose, if_neg hspace] at hlen
      rw [if_neg hclose, if_neg hspace, if_neg hclose, if_neg hspace]
      by_cases hbarred : isBarredFromUrl c = true
      · rw [if_pos hbarred] at hlen
        rw [if_pos hbarred, if_pos hbarred, badUrlLength_congr ht (by dsimp only at hlen; omega)]
      rw [if_neg hbarred] at hlen
      rw [if_neg hbarred, if_neg hbarred]
      by_cases hslash : c = '\\'
      · subst hslash
        rw [if_pos rfl] at hlen
        rw [if_pos rfl, if_pos rfl, beginsWithNewline_congr h]
        by_cases hnewline : beginsWithNewline (a ++ t) = true
        · rw [if_pos hnewline] at hlen
          rw [if_pos hnewline, if_pos hnewline,
            badUrlLength_congr ht (by dsimp only at hlen; omega)]
        · rw [if_neg hnewline] at hlen
          dsimp only at hlen
          have hescape : escapeLength (a ++ t) ≤ a.length := by omega
          have hdrop (u : List Char) : (a ++ u).drop (escapeLength (a ++ t)) =
              a.drop (escapeLength (a ++ t)) ++ u :=
            List.drop_append_of_le_length hescape
          rw [hdrop] at hlen
          rw [if_neg hnewline, if_neg hnewline, escapeLength_congr h.tail hescape, hdrop, hdrop,
            ih (a.drop (escapeLength (a ++ t))).length _ (h.tail.drop _) _ rfl]
          · rw [List.length_drop]
            omega
          · rw [List.length_drop]
            omega
      · rw [if_neg hslash] at hlen
        dsimp only at hlen
        rw [if_neg hslash, if_neg hslash, ih a.length (by omega) h.tail (by omega) rfl]

/-! ## Tokens -/

/-- The first character behind a token, white space aside, is the same in two texts. -/
def SameAhead (n : Nat) (s s' : List Char) : Prop :=
  ((s'.drop n).dropWhile isSpace).head? = ((s.drop n).dropWhile isSpace).head?

theorem scanString_congr {quote : Char} (h : SameEnd a t t')
    (hlen : (scanString quote (a ++ t)).2 ≤ a.length + 1)
    (hbad : (scanString quote (a ++ t)).1 = .badString →
      (scanString quote (a ++ t)).2 < (a ++ t').length + 1) :
    scanString quote (a ++ t') = scanString quote (a ++ t) := by
  unfold scanString at hlen hbad ⊢
  dsimp only at hlen hbad ⊢
  rw [stringLength_congr h (by omega)]
  cases hw : (stringLength quote (a ++ t)).1 with
  | true => exact Or.inl rfl
  | false =>
    rw [hw] at hbad
    have hlt := hbad rfl
    exact Or.inr (by omega)

/-- Whether a quoted URL follows `url(`. -/
def beginsWithQuote (s : List Char) : Bool :=
  (s.dropWhile isSpace).head?.any fun c => c == '\"' || c == '\''

/-- The token that begins with `url(`, given what follows that, and how far it goes from there. -/
def scanUrl (r : List Char) : Token × Nat :=
  if beginsWithQuote r then (.opening .round, 0)
  else (if (urlLength (r.dropWhile isSpace)).1 then .plain else .badUrl,
    (r.takeWhile isSpace).length + (urlLength (r.dropWhile isSpace)).2)

theorem scanName_eq (s : List Char) :
    scanName s =
      if (s.drop (nameLength s)).head? = some '(' then
        if sameName (decodeName (s.take (nameLength s))) "url".toList then
          ((scanUrl (s.drop (nameLength s + 1))).1,
            nameLength s + 1 + (scanUrl (s.drop (nameLength s + 1))).2)
        else (.opening .round, nameLength s + 1)
      else (.plain, nameLength s) := by
  have htail : s.drop (nameLength s + 1) = (s.drop (nameLength s)).tail := by simp
  rw [htail]
  unfold scanName
  dsimp only
  cases s.drop (nameLength s) with
  | nil => rfl
  | cons c r =>
    by_cases hc : c = '('
    · subst hc
      rw [if_pos List.head?_cons, List.tail_cons]
      split
      · rename_i r' heq
        obtain rfl := (List.cons.inj heq).2
        by_cases hname : sameName (decodeName (s.take (nameLength s))) "url".toList = true
        · rw [if_pos hname, if_pos hname, drop_takeWhile]
          unfold scanUrl beginsWithQuote
          split
          · simp [*]
          · simp [*]
          · rename_i hdouble hsingle
            have hquote : ((r.dropWhile isSpace).head?.any fun c => c == '\"' || c == '\'') =
                false := by
              cases hd : r.dropWhile isSpace with
              | nil => rfl
              | cons d u =>
                have h₁ : d ≠ '\"' := fun h => hdouble u (by rw [hd, h])
                have h₂ : d ≠ '\'' := fun h => hsingle u (by rw [hd, h])
                simp [h₁, h₂]
            simp [hquote, Nat.add_assoc]
        · rw [if_neg hname, if_neg hname]
      · exact absurd rfl (‹∀ r' : List Char, '(' :: r = '(' :: r' → False› r)
    · simp [hc]

theorem scanUrl_nil : scanUrl [] = (.plain, 0) := by
  simp [scanUrl, beginsWithQuote, urlLength_nil]

theorem scanUrl_le (r : List Char) : (scanUrl r).2 ≤ r.length := by
  have hurl := urlLength_le (r.dropWhile isSpace)
  have hsplit := congrArg List.length (List.takeWhile_append_dropWhile (p := isSpace) (l := r))
  rw [List.length_append] at hsplit
  unfold scanUrl
  split
  · exact Nat.zero_le _
  · dsimp only
    omega

theorem scanUrl_congr (h : SameEnd a t t') (hlen : (scanUrl (a ++ t)).2 ≤ a.length)
    (hquote : beginsWithQuote (a ++ t) = true → beginsWithQuote (a ++ t') = true) :
    scanUrl (a ++ t') = scanUrl (a ++ t) := by
  by_cases hq : beginsWithQuote (a ++ t) = true
  · rw [scanUrl, if_pos (hquote hq), scanUrl, if_pos hq]
  unfold scanUrl at hlen
  rw [if_neg hq] at hlen
  dsimp only at hlen
  -- If `a` were all white space, the URL would end behind it.
  have ha : a.dropWhile isSpace ≠ [] := by
    intro hspace
    rw [List.dropWhile_eq_nil_iff] at hspace
    rw [List.takeWhile_append_of_pos hspace, List.dropWhile_append_of_pos hspace,
      List.length_append] at hlen
    have hsplit := congrArg List.length (List.takeWhile_append_dropWhile (p := isSpace) (l := t))
    rw [List.length_append] at hsplit
    have ht := List.length_pos_iff.mpr h.ne_nil
    have hrest : t.dropWhile isSpace ≠ [] := by
      intro hnil
      rw [hnil, List.length_nil] at hsplit
      omega
    have hpos := urlLength_pos hrest
    omega
  obtain ⟨htake, hdrop⟩ := space_append ha t
  obtain ⟨htake', hdrop'⟩ := space_append ha t'
  have hsame : beginsWithQuote (a ++ t') = beginsWithQuote (a ++ t) := by
    unfold beginsWithQuote
    rw [hdrop, hdrop']
    cases hd : a.dropWhile isSpace with
    | nil => exact absurd hd ha
    | cons c r => rfl
  have hlength : (a.takeWhile isSpace).length + (a.dropWhile isSpace).length = a.length := by
    rw [← List.length_append, List.takeWhile_append_dropWhile]
  rw [htake, hdrop] at hlen
  have hurl := urlLength_congr (h.of_suffix (List.dropWhile_suffix isSpace)) (by omega)
  unfold scanUrl
  rw [hsame, htake, hdrop, htake', hdrop', hurl]

theorem nameLength_le_scanName (s : List Char) : nameLength s ≤ (scanName s).2 := by
  rw [scanName_eq]
  split
  · split <;> dsimp only <;> omega
  · exact Nat.le_refl _

theorem scanName_congr (h : SameEnd a t t') (hlen : (scanName (a ++ t)).2 ≤ a.length)
    (hround : (scanName (a ++ t)).1 = .opening .round →
      SameAhead (scanName (a ++ t)).2 (a ++ t) (a ++ t')) :
    scanName (a ++ t') = scanName (a ++ t) := by
  have hname : nameLength (a ++ t) ≤ a.length :=
    Nat.le_trans (nameLength_le_scanName (a ++ t)) hlen
  have hdrop (u : List Char) : (a ++ u).drop (nameLength (a ++ t)) =
      a.drop (nameLength (a ++ t)) ++ u :=
    List.drop_append_of_le_length hname
  have htake (u : List Char) : (a ++ u).take (nameLength (a ++ t)) =
      a.take (nameLength (a ++ t)) :=
    List.take_append_of_le_length hname
  have hdropTail (u : List Char) : (a ++ u).drop (nameLength (a ++ t) + 1) =
      ((a ++ u).drop (nameLength (a ++ t))).tail := by simp
  have hlength : (a.drop (nameLength (a ++ t))).length = a.length - nameLength (a ++ t) :=
    List.length_drop
  have hsame := h.drop (nameLength (a ++ t))
  unfold SameAhead at hround
  rw [scanName_eq] at hlen hround
  rw [scanName_eq, scanName_eq, nameLength_congr h hname]
  simp only [hdropTail, hdrop, htake] at hlen hround ⊢
  generalize nameLength (a ++ t) = k at *
  cases hb : a.drop k with
  | nil =>
    rw [hb] at hlen hlength hsame
    obtain ⟨x, r, -, rfl, hr⟩ := hsame
    have hx : x ≠ '(' := by
      rintro rfl
      rw [List.nil_append, if_pos List.head?_cons] at hlen
      split at hlen <;> simp at hlen hlength <;> omega
    have hhead : ([] ++ x :: r).head? ≠ some '(' := by simpa using hx
    have hhead' : ([] ++ t').head? ≠ some '(' := by
      obtain ⟨r', rfl⟩ | ⟨rfl, -⟩ := hr
      · simpa using hx
      · simp
    rw [if_neg hhead, if_neg hhead']
  | cons c b =>
    rw [hb] at hlen hround hlength hsame
    have hhead (u : List Char) : (c :: b ++ u).head? = some c := rfl
    have htail (u : List Char) : (c :: b ++ u).tail = b ++ u := rfl
    simp only [hhead, htail] at hlen hround ⊢
    by_cases hc : some c = some '('
    · rw [if_pos hc] at hlen hround
      rw [if_pos hc, if_pos hc]
      split
      · rename_i hurl
        rw [if_pos hurl] at hlen hround
        dsimp only at hlen hround
        rw [List.length_cons] at hlength
        rw [scanUrl_congr hsame.tail (by omega)]
        intro hquote
        have hopen : scanUrl (b ++ t) = (.opening .round, 0) := if_pos hquote
        have hahead := hround (by rw [hopen])
        rw [hopen, Nat.add_zero, hdropTail, hdrop, hdropTail, hdrop, hb] at hahead
        unfold beginsWithQuote at hquote ⊢
        rw [htail, htail] at hahead
        rwa [hahead]
      · rfl
    · rw [if_neg hc, if_neg hc]

/-! ## The first token of a text -/

/-- A mark without boundaries lies before the boundary or not at all. -/
theorem prefix_append_iff {w : List Char} (ht : Limited t) (hw : w.any isBoundary = false) :
    w <+: a ++ t ↔ w <+: a := by
  induction a generalizing w with
  | nil =>
    cases w with
    | nil => simp
    | cons y w =>
      refine iff_of_false (fun hp => ?_) (by simp)
      obtain ⟨r, rfl⟩ := hp
      have hy := ht y (w ++ r) rfl
      rw [List.any_cons, hy] at hw
      cases hw
  | cons c a ih =>
    cases w with
    | nil => simp
    | cons y w =>
      rw [List.any_cons, Bool.or_eq_false_iff] at hw
      rw [List.cons_append, List.cons_prefix_cons, List.cons_prefix_cons, ih hw.2]

/-- What kind of token `scanOther` finds does not change behind a boundary. -/
theorem scanOther_kind {c : Char} (h : SameEnd (c :: a) t t') :
    ((c ∈ ['$', '*', '^', '|', '~'] ∧ (a ++ t').head? = some '=') ↔
      (c ∈ ['$', '*', '^', '|', '~'] ∧ (a ++ t).head? = some '=')) ∧
    beginsWithNumber (c :: (a ++ t')) = beginsWithNumber (c :: (a ++ t)) ∧
    beginsWithName (c :: (a ++ t')) = beginsWithName (c :: (a ++ t)) := by
  have hequals (u : List Char) (hu : Limited u) :
      (a ++ u).head? = some '=' ↔ ['='] <+: a := by
    rw [← prefix_append_iff hu (by decide)]
    cases a ++ u <;> simp [eq_comm]
  have hnumber (u : List Char) (hu : Limited u) :
      beginsWithNumber (c :: (a ++ u)) = beginsWithNumber (c :: a) :=
    beginsWithNumber_append (a := c :: a) hu
  refine ⟨?_, ?_, beginsWithName_congr h⟩
  · rw [hequals t h.left, hequals t' h.right]
  · rw [hnumber t h.left, hnumber t' h.right]

theorem scanOther_congr {c : Char} (h : SameEnd (c :: a) t t')
    (hlen : (scanOther c (a ++ t)).2 ≤ a.length + 1)
    (hround : (scanOther c (a ++ t)).1 = .opening .round →
      SameAhead (scanOther c (a ++ t)).2 (c :: a ++ t) (c :: a ++ t')) :
    scanOther c (a ++ t') = scanOther c (a ++ t) := by
  obtain ⟨hoperator, hnumber, hname⟩ := scanOther_kind h
  unfold scanOther at hlen hround ⊢
  rw [hnumber, hname]
  by_cases hop : c ∈ ['$', '*', '^', '|', '~'] ∧ (a ++ t).head? = some '='
  · rw [if_pos hop, if_pos (hoperator.mpr hop)]
  rw [if_neg hop] at hlen hround
  rw [if_neg hop, if_neg fun hop' => hop (hoperator.mp hop')]
  by_cases hn : beginsWithNumber (c :: (a ++ t)) = true
  · rw [if_pos hn] at hlen
    rw [if_pos hn, if_pos hn]
    exact congrArg (Prod.mk Token.plain) (numberLength_congr h hlen)
  rw [if_neg hn] at hlen hround
  rw [if_neg hn, if_neg hn]
  by_cases hb : beginsWithName (c :: (a ++ t)) = true
  · rw [if_pos hb] at hlen hround
    rw [if_pos hb, if_pos hb]
    exact scanName_congr h hlen hround
  · rw [if_neg hb, if_neg hb]

/-- A function is found as a name. -/
theorem scanOther_round {c : Char} {r : List Char} (h : (scanOther c r).1 = .opening .round) :
    scanOther c r = scanName (c :: r) := by
  unfold scanOther at h ⊢
  split
  · rename_i hop
    rw [if_pos hop] at h
    cases h
  rename_i hop
  rw [if_neg hop] at h
  split
  · rename_i hnumber
    rw [if_pos hnumber] at h
    cases h
  rename_i hnumber
  rw [if_neg hnumber] at h
  split
  · rfl
  · rename_i hname
    rw [if_neg hname] at h
    cases h

/-- What is found as a name is found as one when the text changes behind a boundary. -/
theorem scanOther_name {c : Char} (h : SameEnd (c :: a) t t')
    (hround : (scanOther c (a ++ t)).1 = .opening .round) :
    scanOther c (a ++ t') = scanName (c :: (a ++ t')) := by
  obtain ⟨hoperator, hnumber, hname⟩ := scanOther_kind h
  unfold scanOther at hround ⊢
  by_cases hop : c ∈ ['$', '*', '^', '|', '~'] ∧ (a ++ t).head? = some '='
  · rw [if_pos hop] at hround
    cases hround
  rw [if_neg hop] at hround
  rw [if_neg fun hop' => hop (hoperator.mp hop'), hnumber]
  by_cases hn : beginsWithNumber (c :: (a ++ t)) = true
  · rw [if_pos hn] at hround
    cases hround
  rw [if_neg hn] at hround
  rw [if_neg hn, hname]
  by_cases hb : beginsWithName (c :: (a ++ t)) = true
  · rw [if_pos hb]
  · rw [if_neg hb] at hround
    cases hround

theorem scan_slash {s : List Char} (hs : ¬['*'] <+: s) : scan ('/' :: s) = scanOther '/' s := by
  cases s with
  | nil => rfl
  | cons c s =>
    have hc : c ≠ '*' := by simpa [eq_comm] using hs
    simp [scan, hc, isSpace, isNewline]

theorem scan_less {s : List Char} (hs : ¬['!', '-', '-'] <+: s) :
    scan ('<' :: s) = scanOther '<' s := by
  have hno (r : List Char) : s ≠ '!' :: '-' :: '-' :: r := by
    rintro rfl
    exact hs ⟨r, rfl⟩
  rw [scan]
  · rfl
  all_goals simp
  exact hno

theorem scan_hyphen {s : List Char} (hs : ¬['-', '>'] <+: s) :
    scan ('-' :: s) = scanOther '-' s := by
  have hno (r : List Char) : s ≠ '-' :: '>' :: r := by
    rintro rfl
    exact hs ⟨r, rfl⟩
  rw [scan]
  · rfl
  all_goals simp
  exact hno

theorem isSpace_iff {c : Char} :
    isSpace c = true ↔ c = ' ' ∨ c = '\t' ∨ c = '\n' ∨ c = '\r' ∨ c = '\x0c' := by
  simp [isSpace, isNewline, or_assoc]

theorem scan_space {c : Char} {s : List Char} (hc : isSpace c = true) :
    scan (c :: s) = (.space, 1 + (s.takeWhile isSpace).length) := by
  rcases isSpace_iff.mp hc with rfl | rfl | rfl | rfl | rfl <;> rfl

/-- The characters that begin a token by themselves or with fixed ones behind them. -/
def beginsToken (c : Char) : Bool :=
  isSpace c ||
    ['\"', '\'', '(', '[', '\x7b', ')', ']', '\x7d', ';', '/', '<', '-', '#', '@'].contains c

theorem scan_other {c : Char} {s : List Char} (hc : beginsToken c = false) :
    scan (c :: s) = scanOther c s := by
  simp only [beginsToken, Bool.or_eq_false_iff] at hc
  obtain ⟨hspace, hc⟩ := hc
  have hne (d : Char) (hd : d ∈ ['\"', '\'', '(', '[', '\x7b', ')', ']', '\x7d', ';', '/', '<', '-',
      '#', '@']) : c ≠ d := by
    rintro rfl
    simp only [List.contains_eq_mem, decide_eq_false_iff_not] at hc
    exact hc hd
  rw [scan]
  · rw [if_neg (by simp [hspace])]
  all_goals
    intros
    refine hne _ ?_ (by assumption)
    decide

theorem takeWhile_space_congr (h : SameEnd a t t')
    (hlen : ((a ++ t).takeWhile isSpace).length ≤ a.length) :
    (a ++ t').takeWhile isSpace = (a ++ t).takeWhile isSpace := by
  by_cases ha : a.dropWhile isSpace = []
  · rw [List.dropWhile_eq_nil_iff] at ha
    rw [List.takeWhile_append_of_pos ha] at hlen
    rw [List.takeWhile_append_of_pos ha, List.takeWhile_append_of_pos ha]
    obtain ⟨x, r, -, rfl, hr⟩ := h
    have hx : isSpace x = false := by
      refine Bool.eq_false_iff.mpr fun hx => ?_
      rw [List.takeWhile_cons_of_pos hx, List.length_append, List.length_cons] at hlen
      omega
    obtain ⟨r', rfl⟩ | ⟨rfl, -⟩ := hr <;> simp [hx]
  · rw [(space_append ha t').1, (space_append ha t).1]

theorem scanHash_congr (h : SameEnd a t t') (hlen : (scan ('#' :: (a ++ t))).2 ≤ a.length + 1) :
    scan ('#' :: (a ++ t')) = scan ('#' :: (a ++ t)) := by
  have hhash (s : List Char) : scan ('#' :: s) =
      if beginsWithName s || beginsWithDigit s || s.head? == some '-' then
        (.plain, 1 + nameLength s)
      else (.plain, 1) := rfl
  have hhyphen : ((a ++ t').head? == some '-') = ((a ++ t).head? == some '-') := by
    have hiff {u : List Char} (hu : Limited u) : (a ++ u).head? = some '-' ↔ ['-'] <+: a := by
      rw [← prefix_append_iff hu (by decide)]
      cases a ++ u <;> simp [eq_comm]
    rw [Bool.eq_iff_iff, beq_iff_eq, beq_iff_eq, hiff h.left, hiff h.right]
  rw [hhash] at hlen
  rw [hhash, hhash, beginsWithName_congr h, beginsWithDigit_append h.left,
    beginsWithDigit_append h.right, hhyphen]
  rw [beginsWithDigit_append h.left] at hlen
  split
  · rename_i hname
    rw [if_pos hname] at hlen
    rw [nameLength_congr h (by dsimp only at hlen; omega)]
  · rfl

theorem scanAt_congr (h : SameEnd a t t') (hlen : (scan ('@' :: (a ++ t))).2 ≤ a.length + 1) :
    scan ('@' :: (a ++ t')) = scan ('@' :: (a ++ t)) := by
  have hat (s : List Char) : scan ('@' :: s) =
      if beginsWithName s then
        (.atKeyword (String.ofList (decodeName (s.take (nameLength s)))), 1 + nameLength s)
      else (.plain, 1) := rfl
  rw [hat] at hlen
  rw [hat, hat, beginsWithName_congr h]
  split
  · rename_i hname
    rw [if_pos hname] at hlen
    have hle : nameLength (a ++ t) ≤ a.length := by
      dsimp only at hlen
      omega
    rw [nameLength_congr h hle, List.take_append_of_le_length hle,
      List.take_append_of_le_length hle]
  · rfl

/-- The first token of a text stays the same when the text changes behind a boundary that it does
not reach, unless a function loses or gains a quote in front of its first argument, or nothing is
left behind a string that is cut by the end of its line. -/
theorem scan_congr {c : Char} (h : SameEnd (c :: a) t t')
    (hlen : (scan (c :: a ++ t)).2 ≤ a.length + 1)
    (hround : (scan (c :: a ++ t)).1 = .opening .round →
      SameAhead (scan (c :: a ++ t)).2 (c :: a ++ t) (c :: a ++ t'))
    (hbad : (scan (c :: a ++ t)).1 = .badString →
      (scan (c :: a ++ t)).2 < (c :: a ++ t').length) :
    scan (c :: a ++ t') = scan (c :: a ++ t) := by
  have hother : scan (c :: a ++ t) = scanOther c (a ++ t) →
      scan (c :: a ++ t') = scanOther c (a ++ t') → scan (c :: a ++ t') = scan (c :: a ++ t) := by
    intro heq heq'
    rw [heq] at hlen hround
    rw [heq, heq', scanOther_congr h hlen hround]
  have hprefix (w : List Char) (hw : w.any isBoundary = false) :
      (w <+: a ++ t ↔ w <+: a) ∧ (w <+: a ++ t' ↔ w <+: a) :=
    ⟨prefix_append_iff h.left hw, prefix_append_iff h.right hw⟩
  rw [List.cons_append] at hlen hround hbad hother ⊢
  rw [List.cons_append] at hround hother ⊢
  by_cases hplain : beginsToken c = false
  · exact hother (scan_other hplain) (scan_other hplain)
  rw [Bool.not_eq_false, beginsToken, Bool.or_eq_true] at hplain
  rcases hplain with hspace | hmember
  · rw [scan_space hspace] at hlen
    rw [scan_space hspace, scan_space hspace, takeWhile_space_congr h.tail (by omega)]
  simp only [List.contains_eq_mem, decide_eq_true_eq, List.mem_cons, List.not_mem_nil,
    or_false] at hmember
  rcases hmember with rfl | rfl | rfl | rfl | rfl | rfl | rfl | rfl | rfl | rfl | rfl | rfl | rfl | rfl
  · exact scanString_congr h.tail hlen hbad
  · exact scanString_congr h.tail hlen hbad
  · rfl
  · rfl
  · rfl
  · rfl
  · rfl
  · rfl
  · rfl
  · have hiff := hprefix ['*'] (by decide)
    by_cases hopen : ['*'] <+: a
    · obtain ⟨b, rfl⟩ := hopen
      have hcomment (u : List Char) : scan ('/' :: (['*'] ++ b ++ u)) =
          (.comment, 2 + commentLength (b ++ u)) := rfl
      rw [hcomment] at hlen
      rw [hcomment, hcomment, commentLength_congr h.ne_nil]
      simp only [List.length_append, List.length_singleton] at hlen
      omega
    · exact hother (scan_slash fun hp => hopen (hiff.1.mp hp))
        (scan_slash fun hp => hopen (hiff.2.mp hp))
  · have hiff := hprefix ['!', '-', '-'] (by decide)
    by_cases hopen : ['!', '-', '-'] <+: a
    · obtain ⟨b, rfl⟩ := hopen
      rfl
    · exact hother (scan_less fun hp => hopen (hiff.1.mp hp))
        (scan_less fun hp => hopen (hiff.2.mp hp))
  · have hiff := hprefix ['-', '>'] (by decide)
    by_cases hclose : ['-', '>'] <+: a
    · obtain ⟨b, rfl⟩ := hclose
      rfl
    · exact hother (scan_hyphen fun hp => hclose (hiff.1.mp hp))
        (scan_hyphen fun hp => hclose (hiff.2.mp hp))
  · exact scanHash_congr h.tail hlen
  · exact scanAt_congr h.tail hlen

end Limited

/-! ## Names with a parenthesis behind them -/

/-- The text is a name that begins an unquoted URL when a parenthesis follows it, or a function if a
quote stands behind the parenthesis. -/
def BeginsUrl (n : List Char) : Prop :=
  ∀ r, scan (n ++ '(' :: r) = ((scanUrl r).1, n.length + 1 + (scanUrl r).2)

theorem scanUrl_round {r : List Char} (h : (scanUrl r).1 = .opening .round) :
    (scanUrl r).2 = 0 := by
  unfold scanUrl at h ⊢
  split
  · rfl
  · rename_i hquote
    rw [if_neg hquote] at h
    dsimp only at h
    split at h <;> cases h

/-- The name of a function ends in front of its parenthesis. -/
theorem scanName_round {s : List Char} (h : (scanName s).1 = .opening .round) :
    (s.drop (nameLength s)).head? = some '(' ∧ (scanName s).2 = nameLength s + 1 := by
  rw [scanName_eq] at h ⊢
  by_cases hparen : (s.drop (nameLength s)).head? = some '('
  · refine ⟨hparen, ?_⟩
    rw [if_pos hparen] at h ⊢
    split
    · rename_i hurl
      rw [if_pos hurl] at h
      dsimp only
      rw [scanUrl_round h]
    · rfl
  · rw [if_neg hparen] at h
    cases h

theorem scanString_ne_round (quote : Char) (r : List Char) :
    (scanString quote r).1 ≠ .opening .round := by
  unfold scanString
  dsimp only
  split <;> exact Token.noConfusion

/-- A function that does not begin with its parenthesis is found by `scanOther`, also when the text
changes behind the parenthesis. -/
theorem scan_function_other {c : Char} {a r : List Char} (r' : List Char)
    (h : scan (c :: (a ++ '(' :: r)) = (.opening .round, a.length + 2)) :
    scan (c :: (a ++ '(' :: r)) = scanOther c (a ++ '(' :: r) ∧
      scan (c :: (a ++ '(' :: r')) = scanOther c (a ++ '(' :: r') := by
  have hround : (scan (c :: (a ++ '(' :: r))).1 = .opening .round := congrArg Prod.fst h
  have hprefix (w : List Char) (hw : w.any isBoundary = false) (u : List Char) :
      w <+: a ++ '(' :: u ↔ w <+: a := by
    refine prefix_append_iff (fun x s hx => ?_) hw
    rw [← (List.cons.inj hx).1]
    rfl
  by_cases hplain : beginsToken c = false
  · exact ⟨scan_other hplain, scan_other hplain⟩
  rw [Bool.not_eq_false, beginsToken, Bool.or_eq_true] at hplain
  rcases hplain with hspace | hmember
  · rw [scan_space hspace] at hround
    cases hround
  simp only [List.contains_eq_mem, decide_eq_true_eq, List.mem_cons, List.not_mem_nil,
    or_false] at hmember
  rcases hmember with rfl | rfl | rfl | rfl | rfl | rfl | rfl | rfl | rfl | rfl | rfl | rfl | rfl | rfl
  · exact absurd hround (scanString_ne_round _ _)
  · exact absurd hround (scanString_ne_round _ _)
  · exact absurd (congrArg Prod.snd h) (by simp [scan])
  · cases hround
  · cases hround
  · cases hround
  · cases hround
  · cases hround
  · cases hround
  · by_cases hopen : ['*'] <+: a
    · obtain ⟨b, rfl⟩ := hopen
      cases hround
    · have hiff := hprefix ['*'] (by decide)
      exact ⟨scan_slash fun hp => hopen ((hiff r).mp hp),
        scan_slash fun hp => hopen ((hiff r').mp hp)⟩
  · by_cases hopen : ['!', '-', '-'] <+: a
    · obtain ⟨b, rfl⟩ := hopen
      cases hround
    · have hiff := hprefix ['!', '-', '-'] (by decide)
      exact ⟨scan_less fun hp => hopen ((hiff r).mp hp),
        scan_less fun hp => hopen ((hiff r').mp hp)⟩
  · by_cases hclose : ['-', '>'] <+: a
    · obtain ⟨b, rfl⟩ := hclose
      cases hround
    · have hiff := hprefix ['-', '>'] (by decide)
      exact ⟨scan_hyphen fun hp => hclose ((hiff r).mp hp),
        scan_hyphen fun hp => hclose ((hiff r').mp hp)⟩
  · rw [scan] at hround
    split at hround <;> cases hround
  · rw [scan] at hround
    split at hround <;> cases hround

/-- A function ends with its parenthesis. -/
theorem scan_round {s : List Char} (h : (scan s).1 = .opening .round) :
    ∃ n r, s = n ++ '(' :: r ∧ (scan s).2 = n.length + 1 := by
  have hother {c : Char} {r : List Char} (h : (scanOther c r).1 = .opening .round) :
      ∃ n u, c :: r = n ++ '(' :: u ∧ (scanOther c r).2 = n.length + 1 := by
    have hname := scanOther_round h
    rw [hname] at h ⊢
    obtain ⟨hparen, hlen⟩ := scanName_round h
    obtain ⟨u, hu⟩ := List.head?_eq_some_iff.mp hparen
    refine ⟨(c :: r).take (nameLength (c :: r)), u, ?_, ?_⟩
    · rw [← hu, List.take_append_drop]
    · rw [hlen, List.length_take, Nat.min_eq_left]
      have hdrop := congrArg List.length hu
      simp only [List.length_drop, List.length_cons] at hdrop ⊢
      omega
  revert h
  fun_cases scan s <;> intro h
  all_goals first
    | exact absurd h (scanString_ne_round _ _)
    | exact hother h
    | cases h
  exact ⟨[], _, rfl, rfl⟩

/-- A name that begins a function does so whatever stands behind the parenthesis, or it begins URLs
as well. -/
theorem scan_function {n r : List Char}
    (h : scan (n ++ '(' :: r) = (.opening .round, n.length + 1)) :
    (∀ r', scan (n ++ '(' :: r') = (.opening .round, n.length + 1)) ∨ BeginsUrl n := by
  cases n with
  | nil => exact Or.inl fun r' => rfl
  | cons c a =>
    have hend (r' : List Char) : SameEnd (c :: a) ('(' :: r) ('(' :: r') :=
      ⟨'(', r, by decide, rfl, Or.inl ⟨r', rfl⟩⟩
    have hname (r' : List Char) :
        scan (c :: (a ++ '(' :: r')) = scanName (c :: a ++ '(' :: r') := by
      obtain ⟨hother, hother'⟩ := scan_function_other r' h
      have hround : (scanOther c (a ++ '(' :: r)).1 = .opening .round := by
        rw [← hother]
        exact congrArg Prod.fst h
      rw [hother', scanOther_name (hend r') hround]
      rfl
    have hlength : nameLength (c :: a ++ '(' :: r) = (c :: a).length := by
      have hscan := hname r
      rw [← List.cons_append, h] at hscan
      have hlen := (scanName_round (congrArg Prod.fst hscan.symm)).2
      rw [← hscan] at hlen
      omega
    have hlengths (r' : List Char) : nameLength (c :: a ++ '(' :: r') = (c :: a).length := by
      rw [nameLength_congr (hend r') hlength.le, hlength]
    have hscan (r' : List Char) : scan (c :: a ++ '(' :: r') =
        if sameName (decodeName (c :: a)) "url".toList then
          ((scanUrl r').1, (c :: a).length + 1 + (scanUrl r').2)
        else (.opening .round, (c :: a).length + 1) := by
      have hdrop : (c :: a ++ '(' :: r').drop ((c :: a).length + 1) = r' := by simp
      rw [List.cons_append, hname, scanName_eq, hlengths, List.drop_left, List.take_left, hdrop,
        if_pos List.head?_cons]
    by_cases hurl : sameName (decodeName (c :: a)) "url".toList = true
    · exact Or.inr fun r' => by rw [hscan, if_pos hurl]
    · exact Or.inl fun r' => by rw [hscan, if_neg hurl]

end Userstyle.Css
