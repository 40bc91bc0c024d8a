import Userstyle.Proofs.LexemeTexts
import Userstyle.Proofs.SheetNodes

/-!
# The ends of nodes

What stands behind the last lexeme of a node (`Covers.endsNode`), and what becomes of the node when
the text is cut off there (`EndsNode.words_cutOff`). Its words are then read as before, unless the
last of them ends with a backslash, which begins an escape at the end of a text. A function at the
end may turn into a URL, but what is being read goes on in the same way behind either of them
(`Sketch.step_plain`).
-/

namespace Userstyle.Css

open Source Text

/-- The lexeme is the last one of a node, in front of the other lexemes. -/
inductive EndsNode (l : Lexeme) (b : List Lexeme) : Prop
  /-- It is always the last one of its node. -/
  | mark (h : l.token = .comment ∨ l.token = .semicolon ∨ l.token = .closing .curly)
  /-- It opens the brackets at the end of a prelude. -/
  | opening {c : Bracket} (h : l.token = .opening c) (hc : c ≠ .curly)
  /-- It ends a prelude in front of white space or of the end of a block. -/
  | space {m : Lexeme} {ms : List Lexeme} (hl : l.token.InPrelude) (hs : l.token ≠ .space)
      (hb : b = m :: ms) (hm : m.token = .space ∨ m.token = .closing .curly)
  /-- It is the last one of the text. -/
  | last (hb : b = [])

/-- The last lexeme of a prelude that is cut short. -/
theorem PreludeParts.endsNode {nesting : List Bracket} {kept lost spaces b : List Lexeme}
    {keyword : Lexeme} {name : String} (h : PreludeParts nesting kept lost)
    (hk : keyword.token = .atKeyword name) (hl : (kept.getLastD keyword).token ≠ .space)
    (hs : ∀ l ∈ spaces, l.token = .space)
    (hb : b = [] ∨ nesting = [] ∧ ∃ l ls, b = l :: ls ∧ l.token = .closing .curly) :
    EndsNode (kept.getLastD keyword) (lost ++ spaces ++ b) := by
  have hbehind {l : Lexeme} (hl : l.token.InPrelude) (hne : l.token ≠ .space) :
      EndsNode l (spaces ++ b) := by
    cases spaces with
    | cons m ms => exact .space hl hne rfl (Or.inl (hs m List.mem_cons_self))
    | nil =>
      rcases hb with rfl | ⟨-, m, ms, rfl, hm⟩
      · exact .last rfl
      · exact .space hl hne rfl (Or.inr hm)
  have hopening {ls : List Lexeme} {l : Lexeme} {c : Bracket} (b : List Lexeme)
      (hok : l.token.InPrelude) (hc : l.token = .opening c) :
      EndsNode ((ls ++ [l]).getLastD keyword) b := by
    rw [List.getLastD_concat]
    refine .opening hc ?_
    rintro rfl
    rw [hc] at hok
    exact hok
  cases h with
  | nil => exact hbehind (by rw [List.getLastD_nil, hk]; trivial) hl
  | mark h hok hopen =>
    rw [List.getLastD_concat] at hl ⊢
    exact hbehind hok hl
  | inside h hok hc hms => exact hopening _ hok hc
  | group h hok hc hms hm => exact hopening _ hok hc

/-- Every node ends with one of the lexemes of the text. -/
theorem Node.ReadIn.endsNode {all : List Lexeme} {mayOpen : Bool} {n : Node Nat}
    (h : n.ReadIn all mayOpen) :
    ∃ a l b, all = a ++ l :: b ∧ l.lastOffset = n.span.last ∧ EndsNode l b := by
  cases h with
  | @leaf _ _ a ms b hall hn =>
    cases hn with
    | @comment l hl => exact ⟨a, l, b, by simp [hall], rfl, .mark (Or.inl hl)⟩
    | @statement keyword semicolon name kept lost hk hp hs =>
      exact ⟨a ++ keyword :: (kept ++ lost), semicolon, b, by simp [hall], rfl,
        .mark (Or.inr (Or.inl hs))⟩
    | @block owner head body closer hh hd hb hc =>
      refine ⟨a ++ (head ++ body), closer, b, by simp [hall], ?_, .mark (Or.inr (Or.inr hc))⟩
      rw [Owner.span_node]
  | @document _ ending children a head inner b owner closer hall hh hd hi he hc =>
    refine ⟨a ++ (head ++ inner), closer, b, by simp [hall], ?_, .mark (Or.inr (Or.inr hc))⟩
    rw [Owner.span_node]
  | @cutShort _ nesting a kept lost spaces b keyword name hall hk hp hl hs hb =>
    have hlast : (keyword :: kept).getLast? = some (kept.getLastD keyword) := by
      rw [List.getLast?_cons, List.getLastD_eq_getLast?]
    obtain ⟨init, hinit⟩ := List.getLast?_eq_some_iff.mp hlast
    have hplace : keyword :: (kept ++ lost ++ spaces) ++ b =
        (init ++ [kept.getLastD keyword]) ++ (lost ++ spaces ++ b) := by
      rw [← hinit]
      simp
    refine ⟨a ++ init, _, lost ++ spaces ++ b, ?_, rfl, hp.endsNode hk hl hs hb⟩
    rw [hall, hplace]
    simp
  | @openBlock nesting a head body owner last hall hh hd hb hl =>
    obtain ⟨init, hinit⟩ := List.getLast?_eq_some_iff.mp hl
    refine ⟨a ++ init, last, [], by rw [hall, hinit]; simp, ?_, .last rfl⟩
    rw [Owner.span_node]
  | @openDocument ending isOpen children a head inner owner last hall hh hd hi he hl =>
    obtain ⟨init, hinit⟩ := List.getLast?_eq_some_iff.mp hl
    refine ⟨a ++ init, last, [], by rw [hall, hinit]; simp, ?_, .last rfl⟩
    rw [Owner.span_node]

/-- A lexeme is known by its last offset. -/
theorem InOrder.eq_of_lastOffset {a b x y : List Lexeme} {l m : Lexeme}
    (h : InOrder (a ++ l :: b)) (heq : a ++ l :: b = x ++ m :: y)
    (ho : l.lastOffset = m.lastOffset) : l = m ∧ b = y := by
  have hbehind {l m : Lexeme} {ls : List Lexeme} (h : InOrder (l :: ls)) (hm : m ∈ ls) :
      l.lastOffset < m.lastOffset := by
    have hsplit : InOrder ([l] ++ ls) := h
    obtain ⟨-, hls, hbetween⟩ := hsplit.append
    exact Nat.lt_of_lt_of_le (hbetween l (List.mem_singleton_self l) m hm) (hls.start_le m hm)
  have hl := h.append.2.1
  have hm := (heq ▸ h).append.2.1
  rcases List.append_eq_append_iff.mp heq with ⟨c, -, hc⟩ | ⟨c, -, hc⟩
  · cases c with
    | nil => exact List.cons.inj hc
    | cons d c =>
      obtain ⟨-, rfl⟩ := List.cons.inj hc
      exact absurd ho (Nat.ne_of_lt (hbehind hl (by simp)))
  · cases c with
    | nil =>
      obtain ⟨rfl, rfl⟩ := List.cons.inj hc
      exact ⟨rfl, rfl⟩
    | cons d c =>
      obtain ⟨-, rfl⟩ := List.cons.inj hc
      exact absurd ho.symm (Nat.ne_of_lt (hbehind hm (by simp)))

/-- What stands behind lexemes that end where a node ends. -/
theorem Covers.endsNode {text : List Char} {ns : List (Node Nat)} {n : Node Nat} {span : Span Nat}
    {a ms b : List Lexeme} (hns : readNodes text = .ok ns) (hn : n.Occurs ns)
    (hls : lexemes (.start text) = a ++ ms ++ b) (h : Covers span ms)
    (hlast : n.span.last = span.last) : ∃ init l, ms = init ++ [l] ∧ EndsNode l b := by
  obtain ⟨mayOpen, -, hread⟩ := readNodes_readIn hns
  obtain ⟨x, m, y, hplace, hoffset, hends⟩ := (hread n hn).endsNode
  obtain ⟨l, hl, hlastOffset⟩ := Option.map_eq_some_iff.mp h.last
  obtain ⟨init, rfl⟩ := List.getLast?_eq_some_iff.mp hl
  have heq : (a ++ init) ++ l :: b = x ++ m :: y := by rw [← hplace, hls]; simp
  have horder : InOrder ((a ++ init) ++ l :: b) := by
    rw [heq, ← hplace]
    exact (lexemes_inOrder _).1
  obtain ⟨rfl, rfl⟩ := horder.eq_of_lastOffset heq (by rw [hlastOffset, hoffset, hlast])
  exact ⟨init, l, rfl, hends⟩

/-! ## Texts that are cut off behind a node -/

theorem Word.standsAlone_of_square {s : List Char} {w : Word} (hw : w ∈ words s)
    (h : w.token = .opening .square) : w.StandsAlone := by
  obtain ⟨token, text⟩ := w
  dsimp only at h
  subst h
  obtain rfl : text = ['['] := Word.text_of_spelling hw rfl
  exact ⟨⟨_, _, rfl, by decide, by decide⟩, fun z => Css.words_append (by simp) rfl⟩

section CutOff

variable {text : List Char} {a init b : List Lexeme} {l : Lexeme}

/-- Behind the last lexeme of a node, the text can be cut off if that lexeme does not end with a
backslash. Only a function can turn into something else. -/
theorem EndsNode.words_cutOff (h : EndsNode l b)
    (hls : lexemes (.start text) = a ++ (init ++ [l]) ++ b)
    (hslash : ¬['\\'] <:+ spelling (wordsOf (init ++ [l]))) :
    ∃ t, (t = l.token ∨ l.token = .opening .round ∧ t = .plain) ∧
      words (spelling (wordsOf (init ++ [l]))) = wordsOf init ++ [⟨t, l.text⟩] := by
  have hspell : spelling (wordsOf (init ++ [l])) = spelling (wordsOf init) ++ l.text := by
    simp [wordsOf, Lexeme.word]
  have hwords : words (spelling (wordsOf init) ++ (l.text ++ spelling (wordsOf b))) =
      wordsOf init ++ l.word :: wordsOf b := by
    have hplace : lexemes (.start text) = a ++ (init ++ l :: b) := by rw [hls]; simp
    have hrest := words_lexemes hplace
    rwa [wordsOf_append, spelling_append] at hrest
  rw [hspell] at hslash ⊢
  by_cases hb : b = []
  · subst hb
    refine ⟨l.token, Or.inl rfl, ?_⟩
    rwa [show wordsOf [] = [] from rfl, spelling_nil, List.append_nil] at hwords
  obtain ⟨m, ms, rfl⟩ := List.exists_cons_of_ne_nil hb
  have hmem {w : Word} (hw : w ∈ wordsOf init ++ l.word :: wordsOf (m :: ms)) :
      w ∈ words (spelling (wordsOf init) ++ (l.text ++ spelling (wordsOf (m :: ms)))) := by
    rwa [hwords]
  have hm : m.word ∈ words _ := hmem (w := m.word) (by simp [wordsOf])
  obtain ⟨x, r, hx⟩ := List.exists_cons_of_ne_nil (text_ne_nil_of_mem_words hm)
  have hnext : spelling (wordsOf (m :: ms)) = x :: (r ++ spelling (wordsOf ms)) := by
    have hcons : spelling (wordsOf (m :: ms)) = m.word.text ++ spelling (wordsOf ms) := rfl
    rw [hcons, hx, List.cons_append]
  by_cases hround : l.token = .opening .round
  · have hne : spelling (wordsOf (m :: ms)) ≠ [] := by
      rw [hnext]
      exact List.cons_ne_nil _ _
    obtain ⟨t, ht, hcut⟩ := words_cutOff_round (w := l.word) hwords hne hround
    exact ⟨t, ht.imp (·.trans hround.symm) fun hplain => ⟨hround, hplain⟩, hcut⟩
  have halone (hw : l.word.StandsAlone) :
      words (spelling (wordsOf init) ++ l.text) = wordsOf init ++ [l.word] := by
    have hcut := words_behind (w := l.word) [] hwords hw
    rwa [List.append_nil, words_nil] at hcut
  have hl : l.word ∈ words _ := hmem (w := l.word) (by simp)
  refine ⟨l.token, Or.inl rfl, ?_⟩
  cases h with
  | mark h =>
    rcases h with hcomment | hmark
    · obtain ⟨s, -, hs⟩ := words_eq_append hwords
      obtain ⟨t, ht, hclosed⟩ := Word.comment_text hs hcomment
      have hcloses := hclosed (by simp [wordsOf])
      refine halone ?_
      rw [ht]
      exact (Word.Closed.comment hcloses).standsAlone
    · exact halone (Word.closed_of_token hl hmark).standsAlone
  | @opening c h hc =>
    cases c with
    | curly => exact absurd rfl hc
    | round => exact absurd h hround
    | square => exact halone (Word.standsAlone_of_square hl h)
  | space hprelude hspace hcons hm' =>
    obtain ⟨rfl, rfl⟩ := List.cons.inj hcons
    have hboundary : isBoundary x = true := by
      rcases hm' with hspace | hcurly
      · refine isBoundary_of_isSpace (Word.isSpace_text hm hspace x ?_)
        rw [hx]
        exact List.mem_cons_self
      · have hcloser : m.word.text = ['\x7d'] :=
          Word.text_of_spelling hm (by rw [Lexeme.word, hcurly]; rfl)
        rw [hx] at hcloser
        rw [(List.cons.inj hcloser).1]
        decide
    rw [hnext] at hwords
    refine Css.words_cutOff (w := l.word) hwords hboundary ⟨hspace, hround, ?_⟩ fun hsuffix => ?_
    · intro hbad
      have hbad : l.token = .badString := hbad
      rw [hbad] at hprelude
      exact hprelude
    · exact hslash (hsuffix.trans (List.suffix_append _ _))
  | last hb => cases hb

end CutOff

/-- When a text with the last character `last?` ends, the first sketch has the nodes that the second
one has. -/
def Sketch.FinishesLike (s' s : Sketch) (last? : Option Char) : Prop :=
  ∀ closed nodes, (last? = some '\x7d' → closed = true) → s.finish closed = some nodes →
    s'.finish closed = some nodes

/-- What goes on with a function goes on with another word as well, and ends in the same way. -/
theorem Sketch.step_plain {s s' : Sketch} (h : s.step (.opening .round) = some s') :
    ∃ s'', s.step .plain = some s'' ∧ ∀ last?, s''.FinishesLike s' last? := by
  unfold Sketch.step at h ⊢
  cases hstage : s.stage with
  | between =>
    rw [hstage] at h
    cases h
    exact ⟨_, rfl, fun last? closed nodes _ hfinish => by cases hfinish⟩
  | prelude name nesting =>
    rw [hstage] at h
    cases nesting with
    | nil =>
      cases h
      exact ⟨_, rfl, fun last? closed nodes _ => id⟩
    | cons c outer =>
      cases h
      exact ⟨_, rfl, fun last? closed nodes _ => id⟩
  | selector nesting =>
    rw [hstage] at h
    cases nesting with
    | nil =>
      cases h
      exact ⟨_, rfl, fun last? closed nodes _ hfinish => by cases hfinish⟩
    | cons c outer =>
      cases h
      exact ⟨_, rfl, fun last? closed nodes _ hfinish => by cases hfinish⟩
  | block o nesting =>
    rw [hstage] at h
    cases nesting with
    | nil =>
      cases h
      refine ⟨_, rfl, fun last? closed nodes _ hfinish => ?_⟩
      cases closed with
      | false => cases hfinish
      | true => exact hfinish
    | cons c outer =>
      cases h
      exact ⟨_, rfl, fun last? closed nodes _ => id⟩

/-- Nodes that end with a lexeme are also read with the word that the lexeme is when nothing stands
behind it. -/
theorem Yields.finishes {final : Bool} {os : List Outline} {init : List Lexeme} {l : Lexeme}
    {t : Token} (h : Yields final os (init ++ [l]))
    (ht : t = l.token ∨ l.token = .opening .round ∧ t = .plain) {s : Sketch}
    (hs : s.stage = .between) :
    ∃ s', s.run (tokensOf init ++ [t]) = some s' ∧ s'.FinishesLike (s.add os) l.text.getLast? := by
  have hsame : ∃ s', s.run (tokensOf init ++ [l.token]) = some s' ∧
      s'.FinishesLike (s.add os) l.text.getLast? := by
    have htokens : tokensOf init ++ [l.token] = tokensOf (init ++ [l]) := by simp [tokensOf]
    rw [htokens]
    cases h with
    | whole h => exact ⟨_, h s hs, fun closed nodes _ => id⟩
    | cutShort h hlast =>
      obtain ⟨before, name, nesting, rfl, hrun⟩ := h
      have hpush : (s.add before).push (.atRule name) = s.add (before ++ [.atRule name]) := by
        simp [Sketch.add, Sketch.push]
      refine ⟨_, hrun s hs, fun closed nodes _ hfinish => ?_⟩
      rw [← hpush] at hfinish
      exact hfinish
    | completes hf h ho hlast =>
      obtain ⟨s', hrun, hfinish⟩ := h s hs
      refine ⟨s', hrun, fun closed nodes hclosed hnodes => ?_⟩
      obtain rfl := hclosed (hlast l List.getLast?_concat)
      rw [hfinish, hnodes]
  rcases ht with rfl | ⟨hround, rfl⟩
  · exact hsame
  · obtain ⟨s', hrun, hfinish⟩ := hsame
    rw [Sketch.run_append, hround] at hrun
    obtain ⟨s₀, hinit, hlast⟩ := Option.bind_eq_some_iff.mp hrun
    have hstep : s₀.step (.opening .round) = some s' :=
      (Option.bind_fun_some _).symm.trans hlast
    obtain ⟨s'', hplain, hends⟩ := Sketch.step_plain hstep
    refine ⟨s'', ?_, fun closed nodes hclosed hnodes => ?_⟩
    · rw [Sketch.run_append, hinit, Option.bind_some, Sketch.run, hplain]
      rfl
    · exact hends _ closed nodes hclosed (hfinish closed nodes hclosed hnodes)

end Userstyle.Css
