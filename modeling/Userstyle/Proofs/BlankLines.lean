import Userstyle.Proofs.Words
import Userstyle.Text.Blank
import Userstyle.Text.Lines

/-!
# Blank lines inside of words

White space, comments and unquoted URLs are the words that blank lines can be left out of. What is
left of such a word is a word of the same kind (`Word.thins_thin`): it begins as before, and a
comment or a URL is closed where it was. A text is read line by line for this: what is read of a
comment or of a URL ends on its first line or goes on behind it, and then the line can be left out
(`ByLines`).
-/

namespace Userstyle.Css

open Text

/-- The first line of a text, and what its other lines are without those that are blank. What
follows the last line feed counts as part of a line that goes on. -/
def thinLines (s : List Char) : List Char :=
  match lines s with
  | [] => []
  | l :: ls => l ++ (ls.filter fun l => !(isAllBlank l && l.getLast? == some '\n')).flatten

/-- Whether a name begins an unquoted URL: with a parenthesis behind it, it is a function in front
of a quote, but not in front of nothing. -/
def isUrlName (n : List Char) : Bool :=
  scan (n ++ ['(', '\"']) == (.opening .round, n.length + 1) &&
    scan (n ++ ['(']) != (.opening .round, n.length + 1)

/-- The word without the blank lines inside of it, if it is white space, a comment or an unquoted
URL. -/
def Word.thin (w : Word) : Word :=
  match w.token with
  | .space | .comment => { w with text := thinLines w.text }
  | .plain =>
    let name := w.text.takeWhile (· != '(')
    match w.text.dropWhile (· != '(') with
    | '(' :: body => if isUrlName name then { w with text := name ++ '(' :: thinLines body } else w
    | _ => w
  | _ => w

theorem thinLines_cons_of_ne {c : Char} (r : List Char) (hc : c ≠ '\n') :
    thinLines (c :: r) = c :: thinLines r := by
  unfold thinLines
  rw [lines, if_neg hc]
  cases lines r <;> rfl

theorem mem_of_mem_thinLines {s : List Char} {x : Char} (h : x ∈ thinLines s) : x ∈ s := by
  unfold thinLines at h
  rw [← flatten_lines s]
  cases hl : lines s with
  | nil =>
    rw [hl] at h
    exact h
  | cons l ls =>
    rw [hl] at h
    rw [List.flatten_cons, List.mem_append]
    refine (List.mem_append.mp h).imp_right fun hx => ?_
    obtain ⟨line, hline, hx⟩ := List.mem_flatten.mp hx
    exact List.mem_flatten.mpr ⟨line, (List.mem_filter.mp hline).1, hx⟩

theorem thinLines_head {c : Char} (r : List Char) : ∃ t, thinLines (c :: r) = c :: t := by
  by_cases hc : c = '\n'
  · unfold thinLines
    rw [lines, if_pos hc]
    exact ⟨_, rfl⟩
  · exact ⟨_, thinLines_cons_of_ne r hc⟩

theorem eq_nil_of_lines {s : List Char} (h : lines s = []) : s = [] := by
  rw [← flatten_lines s, h, List.flatten_nil]

/-- The first line of a text ends with a line feed, or it is the whole text. -/
theorem lines_eq_cons {s l : List Char} {ls : List (List Char)} (h : lines s = l :: ls) :
    (∃ b r, l = b ++ ['\n'] ∧ s = b ++ '\n' :: r ∧ ls = lines r) ∨ (s = l ∧ ls = []) := by
  induction s generalizing l with
  | nil => cases h
  | cons c s ih =>
    rw [lines] at h
    split at h
    · rename_i hc
      cases h
      exact Or.inl ⟨[], s, by rw [hc]; rfl, by rw [hc]; rfl, rfl⟩
    · cases hs : lines s with
      | nil =>
        rw [hs] at h
        cases h
        exact Or.inr ⟨by rw [eq_nil_of_lines hs], rfl⟩
      | cons l' ls' =>
        rw [hs] at h
        cases h
        rcases ih hs with ⟨b, r, rfl, rfl, rfl⟩ | ⟨rfl, rfl⟩
        · exact Or.inl ⟨c :: b, r, rfl, rfl, rfl⟩
        · exact Or.inr ⟨rfl, rfl⟩

/-! ## Texts that are read line by line -/

/-- Where a text that is good in one state has a line, it is good behind the line in another state.
What is good in that state is good in the first one, behind the line and in place of it. -/
def ByLines {ι : Type} (good : ι → List Char → Prop) : Prop :=
  ∀ i b r, good i (b ++ '\n' :: r) →
    ∃ j, good j r ∧ ∀ r', good j r' → good i (b ++ '\n' :: r') ∧ good i r'

namespace ByLines

variable {ι : Type} {good : ι → List Char → Prop} {i : ι} {s : List Char}

/-- Without some of its lines, a good text is still good. -/
theorem filter (h : ByLines good) {p : List Char → Bool}
    (hp : ∀ l, p l = false → l.getLast? = some '\n') (hs : good i s) :
    good i ((lines s).filter p).flatten := by
  induction hn : s.length using Nat.strongRecOn generalizing i s with
  | ind n ih =>
    cases hl : lines s with
    | nil =>
      rw [eq_nil_of_lines hl] at hs
      exact hs
    | cons l ls =>
      rcases lines_eq_cons hl with ⟨b, r, rfl, rfl, rfl⟩ | ⟨rfl, rfl⟩
      · obtain ⟨j, hr, hline⟩ := h i b r hs
        have hrest := ih r.length (by rw [← hn, List.length_append, List.length_cons]; omega) hr rfl
        by_cases hkeep : p (b ++ ['\n']) = true
        · rw [List.filter_cons_of_pos hkeep, List.flatten_cons, List.append_assoc]
          exact (hline _ hrest).1
        · rw [List.filter_cons_of_neg hkeep]
          exact (hline _ hrest).2
      · by_cases hkeep : p s = true
        · simpa [hkeep] using hs
        · obtain ⟨b, rfl⟩ := List.getLast?_eq_some_iff.mp (hp s (by simpa using hkeep))
          obtain ⟨j, hr, hline⟩ := h i b [] hs
          rw [List.filter_cons_of_neg hkeep]
          exact (hline [] hr).2

theorem thinLines (h : ByLines good) (hs : good i s) : good i (thinLines s) := by
  have hp (l : List Char) (hl : (!(isAllBlank l && l.getLast? == some '\n')) = false) :
      l.getLast? = some '\n' := by
    simp only [Bool.not_eq_false', Bool.and_eq_true, beq_iff_eq] at hl
    exact hl.2
  unfold Css.thinLines
  cases hl : lines s with
  | nil =>
    exact eq_nil_of_lines hl ▸ hs
  | cons l ls =>
    rcases lines_eq_cons hl with ⟨b, r, rfl, rfl, rfl⟩ | ⟨rfl, rfl⟩
    · obtain ⟨j, hr, hline⟩ := h i b r hs
      dsimp only
      rw [List.append_assoc]
      exact (hline _ (h.filter hp hr)).1
    · simpa using hs

end ByLines

/-- A text keeps its last character when blank lines are left out, unless it is a line feed. -/
theorem getLast?_thinLines {s : List Char} {c : Char} (hc : c ≠ '\n') (h : s.getLast? = some c) :
    (thinLines s).getLast? = some c := by
  have hlines : ByLines fun (_ : Unit) (s : List Char) => s.getLast? = some c := by
    intro _ b r hr
    have hsplit (u : List Char) : (b ++ '\n' :: u).getLast? = u.getLast?.or (some '\n') := by
      simp [List.getLast?_append, List.getLast?_cons]
    rw [hsplit] at hr
    have hlast : r.getLast? = some c := by
      cases hr' : r.getLast? with
      | none =>
        rw [hr'] at hr
        exact absurd (Option.some.inj hr).symm hc
      | some d =>
        rw [hr'] at hr
        exact hr
    refine ⟨(), hlast, fun r' hr' => ⟨?_, hr'⟩⟩
    have hr' : r'.getLast? = some c := hr'
    show (b ++ '\n' :: r').getLast? = some c
    rw [hsplit, hr']
    rfl
  exact hlines.thinLines (i := ()) h

/-! ## Comments -/

/-- A comment ends on its first line, or it goes on behind it. -/
theorem commentLength_line (b : List Char) :
    (∃ k ≤ b.length, ∀ r, commentLength (b ++ '\n' :: r) = k) ∨
      ∀ r, commentLength (b ++ '\n' :: r) = b.length + 1 + commentLength r := by
  induction b with
  | nil =>
    refine Or.inr fun r => ?_
    simp [commentLength_cons]
  | cons c b ih =>
    by_cases hclose : c = '*' ∧ (b ++ ['\n']).head? = some '/'
    · obtain ⟨rfl, hb⟩ := hclose
      cases b with
      | nil => simp at hb
      | cons d b =>
        obtain rfl : d = '/' := Option.some.inj hb
        exact Or.inl ⟨2, by simp, fun r => by simp [commentLength_cons]⟩
    · have hstep (r : List Char) :
          commentLength (c :: b ++ '\n' :: r) = 1 + commentLength (b ++ '\n' :: r) := by
        rw [List.cons_append, commentLength_cons, if_neg]
        rintro ⟨hc, hb⟩
        refine hclose ⟨hc, ?_⟩
        cases b with
        | nil => cases hb
        | cons d b => exact hb
      rcases ih with ⟨k, hk, hlen⟩ | hlen
      · refine Or.inl ⟨1 + k, by rw [List.length_cons]; omega, fun r => by rw [hstep, hlen]⟩
      · refine Or.inr fun r => ?_
        rw [hstep, hlen, List.length_cons]
        omega

/-- The texts that a comment goes on with and is closed in front of `u`. -/
theorem byLines_comment (u : List Char) :
    ByLines fun (_ : Unit) (s : List Char) => commentLength (s ++ u) = s.length := by
  intro _ b r h
  rw [List.append_assoc, List.cons_append, List.length_append, List.length_cons] at h
  rcases commentLength_line b with ⟨k, hk, hline⟩ | hline
  · rw [hline] at h
    omega
  · rw [hline] at h
    refine ⟨(), by omega, fun r' hr' => ⟨?_, hr'⟩⟩
    have hr' : commentLength (r' ++ u) = r'.length := hr'
    show commentLength ((b ++ '\n' :: r') ++ u) = (b ++ '\n' :: r').length
    rw [List.append_assoc, List.cons_append, hline, hr', List.length_append, List.length_cons]
    omega

/-! ## Unquoted URLs -/

/-- What is being read of an unquoted URL. -/
inductive UrlPart where
  /-- The white space in front of it. -/
  | start
  /-- Its characters. -/
  | body
  /-- The white space behind it. -/
  | tail

/-- Whether a URL is whole and how far it goes, from a place on where the part is being read. One in
quotes is none. -/
def UrlPart.length (part : UrlPart) (s : List Char) : Bool × Nat :=
  match part with
  | .start =>
    (!beginsWithQuote s && (urlLength (s.dropWhile isSpace)).1,
      (s.takeWhile isSpace).length +
        if beginsWithQuote s then 0 else (urlLength (s.dropWhile isSpace)).2)
  | .body => urlLength s
  | .tail => urlEndLength s

/-- The parts in their order. -/
def UrlPart.rank : UrlPart → Nat
  | .start => 0
  | .body => 1
  | .tail => 2

theorem scanUrl_eq_plain_iff {s : List Char} {n : Nat} :
    scanUrl s = (.plain, n) ↔ UrlPart.start.length s = (true, n) := by
  unfold scanUrl UrlPart.length
  by_cases hquote : beginsWithQuote s = true
  · simp [hquote]
  · cases (urlLength (s.dropWhile isSpace)).1 <;> simp [hquote]

theorem urlLength_of_close {s : List Char} {n : Nat} (h : closeLength s = (true, n)) :
    urlLength s = (true, n) := by
  cases s with
  | nil => rw [urlLength_nil, ← h]; rfl
  | cons c r =>
    rw [closeLength] at h
    rw [urlLength_cons]
    split at h
    · rename_i hc
      rw [if_pos hc, h]
    · cases h

theorem urlLength_of_end {s : List Char} {n : Nat} (h : urlEndLength s = (true, n)) :
    urlLength s = (true, n) := by
  cases s with
  | nil => exact urlLength_of_close (by rw [← h]; rfl)
  | cons c r =>
    by_cases hc : isSpace c = true
    · rw [urlLength_cons, if_neg, if_pos hc, h]
      rintro rfl
      cases hc
    · rw [urlEndLength_eq, List.takeWhile_cons_of_neg hc, List.dropWhile_cons_of_neg hc] at h
      refine urlLength_of_close ?_
      rw [← h]
      simp

theorem beginsWithQuote_cons {c : Char} {r : List Char} (hc : isSpace c = false) :
    beginsWithQuote (c :: r) = (c == '\"' || c == '\'') := by
  unfold beginsWithQuote
  rw [List.dropWhile_cons_of_neg (by simp [hc])]
  rfl

theorem UrlPart.start_of_body {s : List Char} {n : Nat} (h : urlLength s = (true, n)) :
    UrlPart.start.length s = (true, n) := by
  cases s with
  | nil =>
    rw [← h]
    simp [UrlPart.length, beginsWithQuote, urlLength_nil]
  | cons c r =>
    unfold UrlPart.length
    by_cases hc : isSpace c = true
    · have hclose : c ≠ ')' := by
        rintro rfl
        cases hc
      rw [urlLength_cons, if_neg hclose, if_pos hc, urlEndLength_eq] at h
      obtain ⟨hwhole, hlen⟩ := Prod.mk.inj h
      have hurl := urlLength_of_close (Prod.ext hwhole rfl)
      have hquote : beginsWithQuote (c :: r) = false := by
        unfold beginsWithQuote
        cases hd : (c :: r).dropWhile isSpace with
        | nil => rfl
        | cons d u =>
          rw [hd, closeLength] at hwhole
          split at hwhole
          · rename_i hd'
            rw [hd']
            rfl
          · cases hwhole
      rw [hquote, hurl, ← hlen]
      rfl
    · have hquote : beginsWithQuote (c :: r) = false := by
        rw [beginsWithQuote_cons (by simpa using hc)]
        by_contra hq
        have hbarred : isBarredFromUrl c = true ∧ c ≠ ')' := by
          simp only [Bool.not_eq_false, Bool.or_eq_true, beq_iff_eq] at hq
          rcases hq with rfl | rfl <;> decide
        rw [urlLength_cons, if_neg hbarred.2, if_neg hc, if_pos hbarred.1] at h
        cases h
      rw [hquote, List.takeWhile_cons_of_neg hc, List.dropWhile_cons_of_neg hc, h]
      simp

theorem UrlPart.length_of_rank {part next : UrlPart} (h : part.rank ≤ next.rank) {s : List Char}
    {n : Nat} (hs : next.length s = (true, n)) : part.length s = (true, n) := by
  cases part with
  | start =>
    cases next with
    | start => exact hs
    | body => exact start_of_body hs
    | tail => exact start_of_body (urlLength_of_end hs)
  | body =>
    cases next with
    | start => exact absurd h (by decide)
    | body => exact hs
    | tail => exact urlLength_of_end hs
  | tail =>
    cases next with
    | start => exact absurd h (by decide)
    | body => exact absurd h (by decide)
    | tail => exact hs

theorem takenSpace_line (b r : List Char) :
    takenSpace (b ++ '\n' :: r) = takenSpace (b ++ ['\n']) := by
  cases b with
  | nil => rfl
  | cons c b =>
    have hhead : (b ++ '\n' :: r).head? = (b ++ ['\n']).head? := by cases b <;> rfl
    simp only [List.cons_append, takenSpace, newlineLength_cons, hhead]

/-- What an escape takes does not reach past the end of the line. -/
theorem escapeLength_line (b r : List Char) :
    escapeLength (b ++ '\n' :: r) = escapeLength (b ++ ['\n']) := by
  have hlimited (r : List Char) : Limited ('\n' :: r) := by
    intro x s hx
    rw [← (List.cons.inj hx).1]
    rfl
  have hdrop (r : List Char) : (b ++ '\n' :: r).drop (escapeDigits b).length =
      b.drop (escapeDigits b).length ++ '\n' :: r :=
    List.drop_append_of_le_length (escapeDigits_le b)
  have hne (r : List Char) : b ++ '\n' :: r ≠ [] := by simp
  rw [escapeLength_eq, escapeLength_eq, escapeDigits_append (hlimited r),
    escapeDigits_append (hlimited []), hdrop, hdrop, takenSpace_line _ r, if_neg (hne r),
    if_neg (hne [])]

namespace UrlPart

/-- A URL ends on its first line or is not whole, or it goes on behind the line, in the same part or
in one that comes after it. -/
def EndsOrGoesOn (part : UrlPart) (b : List Char) : Prop :=
  (∀ r, (part.length (b ++ '\n' :: r)).1 = true → (part.length (b ++ '\n' :: r)).2 ≤ b.length) ∨
    ∃ next : UrlPart, part.rank ≤ next.rank ∧ ∀ r, part.length (b ++ '\n' :: r) =
      ((next.length r).1, b.length + 1 + (next.length r).2)

theorem takeWhile_line {b : List Char} (hb : ∀ x ∈ b, isSpace x = true) (r : List Char) :
    (b ++ '\n' :: r).takeWhile isSpace = b ++ '\n' :: r.takeWhile isSpace ∧
      (b ++ '\n' :: r).dropWhile isSpace = r.dropWhile isSpace := by
  rw [List.takeWhile_append_of_pos hb, List.dropWhile_append_of_pos hb,
    List.takeWhile_cons_of_pos (by decide), List.dropWhile_cons_of_pos (by decide)]
  exact ⟨rfl, rfl⟩

theorem endsOrGoesOn_of_not_whole {part : UrlPart} {b : List Char}
    (h : ∀ r, (part.length (b ++ '\n' :: r)).1 = false) : EndsOrGoesOn part b := by
  refine Or.inl fun r hwhole => ?_
  rw [h r] at hwhole
  cases hwhole

theorem tail_line (b : List Char) : EndsOrGoesOn .tail b := by
  by_cases hspace : b.dropWhile isSpace = []
  · refine Or.inr ⟨.tail, Nat.le_refl _, fun r => ?_⟩
    show urlEndLength _ = ((urlEndLength r).1, b.length + 1 + (urlEndLength r).2)
    obtain ⟨htake, hdrop⟩ := takeWhile_line (List.dropWhile_eq_nil_iff.mp hspace) r
    rw [urlEndLength_eq, urlEndLength_eq, htake, hdrop, List.length_append, List.length_cons]
    exact Prod.ext rfl (by dsimp only; omega)
  · have hlength := congrArg List.length (List.takeWhile_append_dropWhile (p := isSpace) (l := b))
    rw [List.length_append] at hlength
    refine Or.inl fun r => ?_
    show (urlEndLength _).1 = true → (urlEndLength _).2 ≤ _
    obtain ⟨htake, hdrop⟩ := space_append hspace ('\n' :: r)
    rw [urlEndLength_eq, htake, hdrop]
    obtain ⟨c, d, hd⟩ := List.exists_cons_of_ne_nil hspace
    rw [hd, List.length_cons] at hlength
    rw [hd, List.cons_append, closeLength]
    by_cases hc : c = ')'
    · rw [if_pos hc]
      dsimp only
      omega
    · rw [if_neg hc]
      exact Bool.noConfusion

/-- A URL that ends with its white space ends like that white space. -/
theorem body_line_of_end {b : List Char}
    (h : ∀ r, urlLength (b ++ '\n' :: r) = urlEndLength (b ++ '\n' :: r)) :
    EndsOrGoesOn .body b := by
  have hlength (r : List Char) : UrlPart.body.length (b ++ '\n' :: r) =
      UrlPart.tail.length (b ++ '\n' :: r) := h r
  rcases tail_line b with hends | ⟨next, hrank, hgoesOn⟩
  · exact Or.inl fun r => by rw [hlength]; exact hends r
  · exact Or.inr ⟨next, Nat.le_of_succ_le hrank, fun r => by rw [hlength]; exact hgoesOn r⟩

/-- A URL goes on as it does behind some of its characters. -/
theorem body_line_of_behind {b d : List Char} {k : Nat} (hlen : b.length = k + d.length)
    (hstep : ∀ r, urlLength (b ++ '\n' :: r) =
      ((urlLength (d ++ '\n' :: r)).1, k + (urlLength (d ++ '\n' :: r)).2))
    (h : EndsOrGoesOn .body d) : EndsOrGoesOn .body b := by
  rcases h with hends | ⟨next, hrank, hgoesOn⟩
  · refine Or.inl fun r => ?_
    have hr := hends r
    unfold UrlPart.length at hr ⊢
    rw [hstep]
    dsimp only at hr ⊢
    intro hwhole
    have := hr hwhole
    omega
  · refine Or.inr ⟨next, hrank, fun r => ?_⟩
    have hr : urlLength (d ++ '\n' :: r) = _ := hgoesOn r
    show urlLength (b ++ '\n' :: r) = _
    rw [hstep, hr]
    exact Prod.ext rfl (by dsimp only; omega)

/-- An escape ends on the line, or it takes the line feed along, or it is none. -/
theorem body_line_of_escape {b : List Char}
    (ih : ∀ b' : List Char, b'.length ≤ b.length → EndsOrGoesOn .body b') :
    EndsOrGoesOn .body ('\\' :: b) := by
  have hcons (r : List Char) : urlLength ('\\' :: b ++ '\n' :: r) =
      if beginsWithNewline (b ++ '\n' :: r) then (false, 1 + badUrlLength (b ++ '\n' :: r))
      else ((urlLength ((b ++ '\n' :: r).drop (escapeLength (b ++ ['\n'])))).1,
        1 + escapeLength (b ++ ['\n']) +
          (urlLength ((b ++ '\n' :: r).drop (escapeLength (b ++ ['\n'])))).2) := by
    rw [List.cons_append, urlLength_cons, if_neg (by decide), if_neg (by decide),
      if_neg (by decide), if_pos rfl, escapeLength_line]
  have hhead (r : List Char) :
      beginsWithNewline (b ++ '\n' :: r) = beginsWithNewline (b ++ ['\n']) := by
    cases b <;> rfl
  by_cases hnewline : beginsWithNewline (b ++ ['\n']) = true
  · refine endsOrGoesOn_of_not_whole fun r => ?_
    show (urlLength _).1 = _
    rw [hcons, hhead, if_pos hnewline]
  have hstep (r : List Char) := (hcons r).trans (if_neg (by rw [hhead]; exact hnewline))
  have hle := escapeLength_le (b ++ ['\n'])
  rw [List.length_append, List.length_singleton] at hle
  generalize escapeLength (b ++ ['\n']) = k at hle hstep
  by_cases hwithin : k ≤ b.length
  · refine body_line_of_behind (d := b.drop k) (k := 1 + k) ?_ (fun r => ?_) (ih _ ?_)
    · rw [List.length_cons, List.length_drop]
      omega
    · rw [hstep, List.drop_append_of_le_length hwithin]
    · rw [List.length_drop]
      exact Nat.sub_le _ _
  · refine Or.inr ⟨.body, Nat.le_refl _, fun r => ?_⟩
    obtain rfl : k = b.length + 1 := by omega
    have hdrop : (b ++ '\n' :: r).drop (b.length + 1) = r := by
      rw [List.drop_append, List.drop_of_length_le (Nat.le_succ _)]
      simp
    show urlLength _ = ((urlLength r).1, _ + (urlLength r).2)
    rw [hstep, hdrop, List.length_cons, Nat.add_comm 1]

theorem body_line (b : List Char) : EndsOrGoesOn .body b := by
  induction hn : b.length using Nat.strongRecOn generalizing b with
  | ind n ih =>
    cases b with
    | nil =>
      refine body_line_of_end fun r => ?_
      rw [List.nil_append, urlLength_cons, if_neg (by decide), if_pos (by decide)]
    | cons c b =>
      rw [List.length_cons] at hn
      have hcons (r : List Char) := urlLength_cons c (b ++ '\n' :: r)
      by_cases hclose : c = ')'
      · refine Or.inl fun r _ => ?_
        show (urlLength (c :: (b ++ '\n' :: r))).2 ≤ _
        rw [hcons, if_pos hclose]
        simp
      by_cases hspace : isSpace c = true
      · refine body_line_of_end fun r => ?_
        rw [List.cons_append, hcons, if_neg hclose, if_pos hspace]
      by_cases hbarred : isBarredFromUrl c = true
      · refine endsOrGoesOn_of_not_whole fun r => ?_
        show (urlLength (c :: (b ++ '\n' :: r))).1 = _
        rw [hcons, if_neg hclose, if_neg hspace, if_pos hbarred]
      by_cases hslash : c = '\\'
      · rw [hslash]
        exact body_line_of_escape fun b' hb' => ih _ (by omega) b' rfl
      · refine body_line_of_behind (d := b) (k := 1) ?_ (fun r => ?_) (ih _ ?_ b rfl)
        · rw [List.length_cons, Nat.add_comm]
        · rw [List.cons_append, hcons, if_neg hclose, if_neg hspace, if_neg hbarred, if_neg hslash]
        · omega

theorem start_line (b : List Char) : EndsOrGoesOn .start b := by
  by_cases hspace : b.dropWhile isSpace = []
  · have hb := List.dropWhile_eq_nil_iff.mp hspace
    refine Or.inr ⟨.start, Nat.le_refl _, fun r => ?_⟩
    obtain ⟨htake, hdrop⟩ := takeWhile_line hb r
    have hquote : beginsWithQuote (b ++ '\n' :: r) = beginsWithQuote r := by
      unfold beginsWithQuote
      rw [hdrop]
    unfold UrlPart.length
    dsimp only
    rw [htake, hdrop, hquote, List.length_append, List.length_cons]
    exact Prod.ext rfl (by dsimp only; omega)
  have hlength := congrArg List.length (List.takeWhile_append_dropWhile (p := isSpace) (l := b))
  rw [List.length_append] at hlength
  have hstart (r : List Char) : beginsWithQuote (b ++ '\n' :: r) = beginsWithQuote b := by
    unfold beginsWithQuote
    rw [(space_append hspace _).2]
    obtain ⟨c, d, hd⟩ := List.exists_cons_of_ne_nil hspace
    rw [hd]
    rfl
  by_cases hquote : beginsWithQuote b = true
  · refine endsOrGoesOn_of_not_whole fun r => ?_
    unfold UrlPart.length
    dsimp only
    rw [hstart, hquote]
    rfl
  have hurl (r : List Char) : UrlPart.start.length (b ++ '\n' :: r) =
      ((urlLength (b.dropWhile isSpace ++ '\n' :: r)).1, (b.takeWhile isSpace).length +
        (urlLength (b.dropWhile isSpace ++ '\n' :: r)).2) := by
    obtain ⟨htake, hdrop⟩ := space_append hspace ('\n' :: r)
    unfold UrlPart.length
    dsimp only
    rw [hstart, htake, hdrop]
    simp [hquote]
  rcases body_line (b.dropWhile isSpace) with hends | ⟨next, hrank, hgoesOn⟩
  · refine Or.inl fun r hwhole => ?_
    have hr := hends r
    rw [hurl] at hwhole ⊢
    unfold UrlPart.length at hr
    dsimp only at hr hwhole ⊢
    have := hr hwhole
    omega
  · refine Or.inr ⟨next, Nat.zero_le _, fun r => ?_⟩
    have hr : urlLength (b.dropWhile isSpace ++ '\n' :: r) = _ := hgoesOn r
    rw [hurl, hr]
    exact Prod.ext rfl (by dsimp only; omega)

theorem endsOrGoesOn (part : UrlPart) (b : List Char) : part.EndsOrGoesOn b := by
  cases part with
  | start => exact start_line b
  | body => exact body_line b
  | tail => exact tail_line b

/-- The texts that an unquoted URL goes on with and is whole in front of `u`. -/
theorem byLines (u : List Char) : ByLines fun (part : UrlPart) (s : List Char) =>
    part.length (s ++ u) = (true, s.length) := by
  intro part b r h
  rw [List.append_assoc, List.cons_append, List.length_append, List.length_cons] at h
  rcases endsOrGoesOn part b with hends | ⟨next, hrank, hgoesOn⟩
  · have hle := hends (r ++ u) (congrArg Prod.fst h)
    rw [h] at hle
    dsimp only at hle
    omega
  · rw [hgoesOn] at h
    obtain ⟨hwhole, hlen⟩ := Prod.mk.inj h
    refine ⟨next, Prod.ext hwhole (by dsimp only; omega), fun r' hr' =>
      ⟨?_, length_of_rank hrank hr'⟩⟩
    have hr' : next.length (r' ++ u) = (true, r'.length) := hr'
    show part.length ((b ++ '\n' :: r') ++ u) = (true, (b ++ '\n' :: r').length)
    rw [List.append_assoc, List.cons_append, hgoesOn, hr', List.length_append, List.length_cons]
    exact Prod.ext rfl (by dsimp only; omega)

end UrlPart

theorem beginsUrl_of_isUrlName {n : List Char} (h : isUrlName n = true) : BeginsUrl n := by
  unfold isUrlName at h
  rw [Bool.and_eq_true, beq_iff_eq, bne_iff_ne] at h
  obtain ⟨hround, hurl⟩ := h
  exact (scan_function hround).resolve_left fun hall => hurl (hall [])

/-! ## Blank lines left out of words -/

/-- Leaving out blank lines thins a word. -/
theorem Word.thins_thin {s : List Char} {w : Word} {ws : List Word} (h : words s = w :: ws) :
    Thins w w.thin := by
  obtain ⟨token, text⟩ := w
  by_cases hspace : token = .space
  · subst hspace
    obtain ⟨-, hne, -⟩ := words_eq_cons h
    obtain ⟨htext, -⟩ := Word.space_text h rfl
    obtain ⟨c, t, ht⟩ := List.exists_cons_of_ne_nil hne
    dsimp only at ht htext
    subst ht
    obtain ⟨t', ht'⟩ := thinLines_head t (c := c)
    have hthin : Word.thin ⟨.space, c :: t⟩ = ⟨.space, c :: t'⟩ := congrArg (Word.mk .space) ht'
    rw [hthin]
    refine .space htext fun x hx => htext x (mem_of_mem_thinLines ?_)
    rw [ht']
    exact List.mem_cons_of_mem c hx
  by_cases hcomment : token = .comment
  · subst hcomment
    obtain ⟨t, ht, -⟩ := Word.comment_text h rfl
    obtain rfl := congrArg Word.text ht
    have hthin : Word.thin ⟨.comment, '/' :: '*' :: t⟩ =
        ⟨.comment, '/' :: '*' :: thinLines t⟩ := by
      unfold Word.thin
      dsimp only
      rw [thinLines_cons_of_ne _ (by decide), thinLines_cons_of_ne _ (by decide)]
    rw [hthin]
    exact .comment fun u hu => (byLines_comment u).thinLines (i := ()) hu
  by_cases hplain : token = .plain
  · subst hplain
    unfold Word.thin
    dsimp only
    split
    · rename_i body hbody
      split
      · rename_i hname
        have htext : text = text.takeWhile (· != '(') ++ '(' :: body := by
          rw [← hbody, List.takeWhile_append_dropWhile]
        have hurl : Thins ⟨.plain, text.takeWhile (· != '(') ++ '(' :: body⟩
            ⟨.plain, text.takeWhile (· != '(') ++ '(' :: thinLines body⟩ := by
          refine .url (beginsUrl_of_isUrlName hname) fun u hu => ?_
          rw [scanUrl_eq_plain_iff] at hu ⊢
          exact (UrlPart.byLines u).thinLines hu
        rwa [← htext] at hurl
      · exact .same _
    · exact .same _
  · have hthin : Word.thin ⟨token, text⟩ = ⟨token, text⟩ := by
      unfold Word.thin
      split <;> simp_all
    rw [hthin]
    exact .same _

theorem Word.token_thin (w : Word) : w.thin.token = w.token := by
  unfold Word.thin
  split
  · rfl
  · rfl
  · dsimp only
    split
    · split <;> rfl
    · rfl
  · rfl

/-- A word keeps its last character when blank lines are left out, unless it is a line feed. -/
theorem Word.getLast?_thin {w : Word} {c : Char} (hc : c ≠ '\n') (h : w.text.getLast? = some c) :
    w.thin.text.getLast? = some c := by
  unfold Word.thin
  split
  · exact getLast?_thinLines hc h
  · exact getLast?_thinLines hc h
  · dsimp only
    split
    · rename_i body hbody
      split
      · have htext : w.text.takeWhile (· != '(') ++ '(' :: body = w.text := by
          rw [← hbody, List.takeWhile_append_dropWhile]
        have hlast (s : List Char) : (w.text.takeWhile (· != '(') ++ '(' :: s).getLast? =
            s.getLast?.or (some '(') := by
          simp [List.getLast?_append, List.getLast?_cons]
        rw [← htext, hlast] at h
        rw [hlast]
        cases hb : body.getLast? with
        | none =>
          rw [List.getLast?_eq_none_iff.mp hb]
          rw [hb] at h
          exact h
        | some d =>
          rw [hb] at h
          rw [getLast?_thinLines hc (hb.trans h)]
          rfl
      · exact h
    · exact h
  · exact h

/-- Leaving out blank lines thins all words of a text. -/
theorem thins_words {s : List Char} : ∀ v ∈ words s, Thins v v.thin := by
  intro v hv
  obtain ⟨vs, rest, hsplit⟩ := List.append_of_mem hv
  obtain ⟨r, -, hr⟩ := words_eq_append hsplit
  exact Word.thins_thin hr

end Userstyle.Css
