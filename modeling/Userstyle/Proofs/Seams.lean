import Userstyle.Proofs.ClosingTokens
import Userstyle.Proofs.MovedSheets

/-!
# Texts one behind the other

A style sheet whose last node is closed by a token of its own can be followed by any other: the two
split into the nodes of the first and those of the second (`readNodes_append`). Up to that token the
first text is read in the same way whatever follows it. Behind the token there is nothing but gaps,
and these may run together with what the second text begins with, but then they are gaps still.
-/

namespace Userstyle.Css

open Source Text

/-! ## Tokens that close a node -/

/-- A comment that ends with its closing mark ends there whatever follows it. -/
theorem closesComment_of_suffix {b : List Char} (h : ['*', '/'] <:+ b.take (commentLength b)) :
    ClosesComment (b.take (commentLength b)) := by
  induction b with
  | nil =>
    obtain ⟨t, ht⟩ := h
    simp at ht
  | cons c r ih =>
    rw [commentLength_cons] at h ⊢
    by_cases hmark : c = '*' ∧ r.head? = some '/'
    · rw [if_pos hmark]
      obtain ⟨rfl, hr⟩ := hmark
      obtain ⟨r, rfl⟩ := List.head?_eq_some_iff.mp hr
      exact fun u => rfl
    · rw [if_neg hmark, Nat.add_comm, List.take_succ_cons] at h ⊢
      have hrest : ['*', '/'] <:+ r.take (commentLength r) := by
        rcases List.suffix_cons_iff.mp h with heq | hsuffix
        · -- Then the mark would begin with `c`.
          obtain ⟨hc, hr⟩ := List.cons.inj heq
          refine absurd ⟨hc.symm, ?_⟩ hmark
          rw [← List.take_append_drop (commentLength r) r, ← hr]
          rfl
        · exact hsuffix
      have hclosed := ih hrest
      have hne : r.take (commentLength r) ≠ [] := by
        intro hnil
        rw [hnil] at hrest
        obtain ⟨t, ht⟩ := hrest
        simp at ht
      have hhead (u : List Char) : (r.take (commentLength r) ++ u).head? = r.head? := by
        have hsplit := List.take_append_drop (commentLength r) r
        rw [List.head?_append_of_ne_nil _ hne]
        conv => rhs; rw [← hsplit, List.head?_append_of_ne_nil _ hne]
      intro u
      rw [List.cons_append, commentLength_cons, hhead, if_neg hmark, hclosed u, List.length_cons,
        Nat.add_comm]

theorem Word.closed_comment {s : List Char} {w : Word} (hw : w ∈ words s)
    (ht : w.token = .comment) (h : ['*', '/'] <:+ w.text.drop 2) : w.Closed := by
  obtain ⟨c, r, htoken, htext⟩ := Word.exists_scan hw
  obtain ⟨b, hb, hscan⟩ := scan_comment (htoken.trans ht)
  rw [hscan, hb, Nat.add_comm] at htext
  obtain ⟨token, text⟩ := w
  dsimp only at ht htext h
  subst ht htext
  exact .comment (closesComment_of_suffix h)

/-- What a lexeme that closes a node is made up of does not depend on what follows it. -/
theorem closed_of_closes {s : List Char} {before : List Lexeme} {l : Lexeme}
    (hl : l.word ∈ words s) (h : closes before l = true) : l.word.Closed := by
  unfold closes at h
  split at h
  · rename_i ht
    rw [Bool.and_eq_true, List.isSuffixOf_iff_suffix] at h
    exact Word.closed_comment hl ht h.2
  · rename_i ht
    exact Word.closed_of_token hl (Or.inl ht)
  · rename_i ht
    exact Word.closed_of_token hl (Or.inr ht)
  · cases h

/-- If the last node is closed, the lexemes up to its end do not depend on what follows the text. -/
theorem EndsWithNode.closed {a : List Char} {ns : List (Node Nat)} {core gaps : List Lexeme}
    (h : EndsWithNode ns core) (hall : lexemes (.start a) = core ++ gaps)
    (hc : ∀ n ∈ ns.getLast?, n.isClosedIn (lexemes (.start a)) = true) :
    ∀ w ∈ (wordsOf core).getLast?, w.Closed := by
  intro w hw
  rcases h with ⟨-, rfl⟩ | ⟨n, hn, front, ms, rfl, hcovers, -⟩
  · cases hw
  · obtain ⟨init, l, rfl, hcl⟩ := hcovers.closes_last hall (lexemes_inOrder _).1 (hc n hn)
    have hl : l ∈ lexemes (.start a) := by simp [hall]
    rw [← List.append_assoc, wordsOf, List.getLast?_map, List.getLast?_concat] at hw
    cases hw
    exact closed_of_closes (word_mem_words hl) hcl

/-! ## Gaps -/

section Gaps

variable {r : Reader} {l : Lexeme}

/-- The first lexeme of a text that begins with a token. -/
theorem lexemes_of_scan {t z : List Char} {token : Token} (o : Nat) (ht : t ≠ [])
    (h : scan (t ++ z) = (token, t.length)) :
    lexemes ⟨o, t ++ z⟩ =
      ⟨token, t, ⟨o, t ++ z⟩, ⟨o + byteLength t, z⟩⟩ :: lexemes ⟨o + byteLength t, z⟩ := by
  obtain ⟨c, u, rfl⟩ := List.exists_cons_of_ne_nil ht
  have hat : Lexeme.at? ⟨o, c :: u ++ z⟩ =
      some ⟨token, c :: u, ⟨o, c :: u ++ z⟩, ⟨o + byteLength (c :: u), z⟩⟩ := by
    rw [List.cons_append] at h ⊢
    unfold Lexeme.at?
    simp [h, Place.advance]
  rw [lexemes]
  split
  · rename_i hnone
    rw [hat] at hnone
    cases hnone
  · rename_i k hk
    rw [hat] at hk
    cases hk
    rfl

/-- Between two nodes, white space makes no difference. -/
theorem Reader.run_dropWhile (hm : r.mode = .between) (o : Nat) (s : List Char) :
    r.run (lexemes ⟨o, s⟩) =
      r.run (lexemes ⟨o + byteLength (s.takeWhile isSpace), s.dropWhile isSpace⟩) := by
  by_cases hs : s.takeWhile isSpace = []
  · have hsplit := List.takeWhile_append_dropWhile (p := isSpace) (l := s)
    rw [hs, List.nil_append] at hsplit
    rw [hs, hsplit]
    rfl
  · obtain ⟨c, u, rfl⟩ : ∃ c u, s = c :: u := by
      cases s with
      | nil => exact absurd rfl hs
      | cons c u => exact ⟨c, u, rfl⟩
    have hc : isSpace c = true := by
      by_contra hc
      exact hs (List.takeWhile_cons_of_neg hc)
    have hscan : scan ((c :: u).takeWhile isSpace ++ (c :: u).dropWhile isSpace) =
        (.space, ((c :: u).takeWhile isSpace).length) := by
      rw [List.takeWhile_append_dropWhile, scan_space hc, List.takeWhile_cons_of_pos hc,
        List.length_cons, Nat.add_comm]
    have hlexemes := lexemes_of_scan o hs hscan
    rw [List.takeWhile_append_dropWhile] at hlexemes
    rw [hlexemes]
    exact run_cons _ (step_gap hm trivial)

/-- What counts for nothing between two nodes does so in front of any text. -/
theorem Reader.run_gap {s : List Char} {w : Word} (hm : r.mode = .between) (hw : w ∈ words s)
    (hgap : w.token.IsGap) (o : Nat) (z : List Char) :
    r.run (lexemes ⟨o, w.text ++ z⟩) = r.run (lexemes ⟨o + byteLength w.text, z⟩) := by
  cases ht : w.token with
  | space =>
    have hspaces := Word.isSpace_text hw ht
    rw [run_dropWhile hm, run_dropWhile hm (o + byteLength w.text),
      List.takeWhile_append_of_pos hspaces, List.dropWhile_append_of_pos hspaces,
      byteLength_append, Nat.add_assoc]
  | commentOpen =>
    have htext : w.text = ['<', '!', '-', '-'] := Word.text_of_spelling hw (by rw [ht]; rfl)
    have hscan : scan (['<', '!', '-', '-'] ++ z) = (.commentOpen, 4) := rfl
    rw [htext, lexemes_of_scan o (by simp) hscan]
    exact run_cons _ (step_gap hm trivial)
  | commentClose =>
    have htext : w.text = ['-', '-', '>'] := Word.text_of_spelling hw (by rw [ht]; rfl)
    have hscan : scan (['-', '-', '>'] ++ z) = (.commentClose, 3) := rfl
    rw [htext, lexemes_of_scan o (by simp) hscan]
    exact run_cons _ (step_gap hm trivial)
  | _ =>
    rw [ht] at hgap
    exact hgap.elim

theorem Reader.run_gaps {s : List Char} {ws : List Word} (hm : r.mode = .between)
    (hws : ∀ w ∈ ws, w ∈ words s ∧ w.token.IsGap) (o : Nat) (z : List Char) :
    r.run (lexemes ⟨o, spelling ws ++ z⟩) =
      r.run (lexemes ⟨o + byteLength (spelling ws), z⟩) := by
  induction ws generalizing o with
  | nil => rfl
  | cons w ws ih =>
    rw [List.forall_mem_cons] at hws
    rw [spelling_cons, List.append_assoc, run_gap hm hws.1.1 hws.1.2, ih hws.2, byteLength_append,
      Nat.add_assoc]

end Gaps

/-! ## Sheets one behind the other -/

section Append

variable {a b : List Char} {ns ms : List (Node Nat)}

/-- Between two nodes, and in front of any other text, a style sheet whose last node is closed is
read as its nodes, wherever it stands. -/
theorem Reader.run_text {r : Reader} (h : readNodes a = .ok ns) (hc : endsClosed a = true)
    (hm : r.mode = .between) (o : Nat) (b : List Char) :
    r.run (lexemes ⟨o, a ++ b⟩) =
      (r.addAll (ns.map (Node.map (· + o)))).run (lexemes ⟨o + byteLength a, b⟩) := by
  obtain ⟨hsheet, -⟩ := (endsClosed_iff h).mp hc
  obtain ⟨core, gaps, hls, hcore, hlast, hgaps⟩ := hsheet.core
  have hwords : wordsOf core ++ wordsOf gaps = words a := by
    rw [← wordsOf_append, ← hls]
    exact map_word_lexemes _
  have halone : ∀ w ∈ (wordsOf core).getLast?, w.StandsAlone := fun w hw =>
    (hlast.closed hls (isClosedIn_of_endsClosed h hc) w hw).standsAlone
  -- Up to the end of the last node the lexemes are those of `a`.
  have hmoved := lexemes_moved o b hls (words_append_of_standsAlone b hwords.symm halone)
  have hends : EndAt _ (core ++ gaps) := hls ▸ endAt_lexemes (.start a)
  have hcoreRun := (hcore.moved o b hends.append.1).reaches.run hm
  have hgapWords : ∀ w ∈ wordsOf gaps, w ∈ words a ∧ w.token.IsGap := by
    intro w hw
    rw [← hwords]
    obtain ⟨l, hl, rfl⟩ := List.mem_map.mp hw
    exact ⟨List.mem_append_right _ hw, hgaps l hl⟩
  have hlength : o + byteLength a =
      o + byteLength (spelling (wordsOf core)) + byteLength (spelling (wordsOf gaps)) := by
    rw [Nat.add_assoc, ← byteLength_append, ← spelling_append, hwords, spelling_words]
  have hplace : movedPlace o b (.start a) = ⟨o, a ++ b⟩ := by simp [movedPlace, Place.start]
  have hoffset : (Place.start a).offset + o = o := Nat.zero_add o
  rw [hplace, hoffset] at hmoved
  rw [hmoved, Reader.run_append _ hcoreRun, Reader.run_gaps rfl hgapWords, hlength]

/-- Behind another text, the lexemes of a text are the same. -/
theorem lexemes_at (o : Nat) (b : List Char) :
    lexemes ⟨o, b⟩ = (lexemes (.start b)).map (Lexeme.moved o []) := by
  have hall : lexemes (.start b) = lexemes (.start b) ++ [] := (List.append_nil _).symm
  have hmap : wordsOf (lexemes (.start b)) = words b := map_word_lexemes (.start b)
  have hwords : words (b ++ []) =
      wordsOf (lexemes (.start b)) ++ words (spelling (wordsOf []) ++ []) := by
    rw [hmap, List.append_nil]
    exact (words_nil ▸ List.append_nil (words b)).symm
  have hmoved := lexemes_moved o [] hall hwords
  have hplace : movedPlace o [] (.start b) = ⟨o, b⟩ := by
    simp [movedPlace, Place.start]
  have hnone (p : Place) (hp : p.rest = []) : lexemes p = [] := by
    have hmap := map_word_lexemes p
    rw [hp, words_nil] at hmap
    exact List.map_eq_nil_iff.mp hmap
  rw [hplace, hnone ⟨_, spelling (wordsOf []) ++ []⟩ rfl, List.append_nil] at hmoved
  exact hmoved

theorem closingOffset?_append (a : List Char) (h : b.getLast? = some '\x7d') :
    closingOffset? (a ++ b) = some (byteLength b.dropLast + byteLength a) := by
  have hne : b ≠ [] := by
    rintro rfl
    cases h
  have hlast : (a ++ b).getLast? = some '\x7d' := by
    rw [List.getLast?_append_of_ne_nil _ hne, h]
  unfold closingOffset?
  rw [if_pos hlast, List.dropLast_append_of_ne_nil hne, byteLength_append, Nat.add_comm]

/-- A style sheet whose last node is closed by a token of its own can be followed by any other. The
nodes of the two are those of the first and those of the second. -/
theorem readNodes_append (ha : readNodes a = .ok ns) (hc : endsClosed a = true)
    (hb : readNodes b = .ok ms) :
    readNodes (a ++ b) = .ok (ns ++ ms.map (Node.map (· + byteLength a))) := by
  obtain ⟨ending, isOpen, hsheet, hne, hopen⟩ := readNodes_sheet hb
  obtain ⟨last, hlast⟩ :=
    exists_lastOffset ((lexemes (.start b)).map (Lexeme.moved (byteLength a) []))
  obtain ⟨r, hrun, hleft⟩ := (hsheet.moved (byteLength a) [] (endAt_lexemes _)).reaches
    (Reader.start.addAll ns) last rfl hlast
  have hfirst : Reader.start.run (lexemes (.start (a ++ b))) =
      (Reader.start.addAll ns).run (lexemes ⟨byteLength a, b⟩) := by
    have htext := Reader.run_text (r := .start) ha hc rfl 0 b
    rwa [Node.map_add_zero, Nat.zero_add] at htext
  rw [readNodes, hfirst, lexemes_at, hrun]
  dsimp only
  cases isOpen with
  | false =>
    rw [hleft.finish_closed hne]
    rfl
  | true =>
    have hbrace := hopen rfl
    have hend : byteLength b.dropLast + byteLength a = last := by
      obtain ⟨l, hl, hoffset, -⟩ := endsAt_lexemes (if_pos hbrace)
      rw [← hoffset, ← Lexeme.lastOffset_moved]
      refine hlast _ ?_
      rw [List.getLast?_map, hl]
      rfl
    rw [closingOffset?_append a hbrace, hend, hleft.finish_some hne]
    rfl

end Append

end Userstyle.Css
