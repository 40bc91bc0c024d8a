import Userstyle.Proofs.Seams

/-!
# Style sheets inside of a document block

A style sheet that can be followed by another one can stand in the block of a document rule as well:
what are nodes of the sheet are the children of the rule (`readNodes_block`). In the block, its
places move by what stands in front of it: on the first line the columns, and on all other lines
nothing (`parse_documentBlock`).
-/

namespace Userstyle.Source

open Text

/-- The position when the first line has `n` characters more in front. -/
def Position.indented (n : Nat) (p : Position) : Position :=
  if p.line = 0 then ⟨0, p.column + n⟩ else p

namespace Position

variable {s t : List Char}

theorem after_indented (n : Nat) (p : Position) (c : Char) :
    (p.indented n).after c = (p.after c).indented n := by
  unfold after indented
  by_cases hline : p.line = 0
  · by_cases hc : c = '\n'
    · simp [hline, hc]
    · simp [hline, hc, Nat.add_right_comm]
  · by_cases hc : c = '\n'
    · simp [hline, hc]
    · simp [hline, hc]

theorem through_indented (n : Nat) (p : Position) (t : List Char) :
    (p.indented n).through t = (p.through t).indented n := by
  induction t generalizing p with
  | nil => rfl
  | cons c t ih => rw [through_cons, through_cons, after_indented, ih]

/-- A text without line feeds in front moves the position on the first line only. -/
theorem behind_append_line (hs : '\n' ∉ s) (t : List Char) :
    behind (s ++ t) = (behind t).indented s.length := by
  have hline : behind s = (⟨0, 0⟩ : Position).indented s.length := through_of_not_mem ⟨0, 0⟩ hs
  rw [behind_append, hline, through_indented]
  rfl

end Position

theorem positionAt_moved {before text : List Char} {o : Nat} (hb : '\n' ∉ before)
    (ho : IsStart text o) (behind : List Char) :
    positionAt (before ++ (text ++ behind)) (o + byteLength before) =
      (positionAt text o).indented before.length := by
  obtain ⟨s, c, t, rfl, rfl⟩ := ho
  have htext : before ++ (s ++ c :: t ++ behind) = before ++ s ++ (c :: t ++ behind) := by simp
  have hoffset : byteLength s + byteLength before = byteLength (before ++ s) := by
    rw [byteLength_append, Nat.add_comm]
  rw [htext, hoffset, positionAt_byteLength, positionAt_byteLength,
    Position.behind_append_line hb]

end Userstyle.Source

namespace Userstyle.Css

open Source Text

/-! ## Places of nodes -/

section Places

variable {α β γ : Type}

mutual

theorem Node.map_map (f : α → β) (g : β → γ) :
    (n : Node α) → (n.map f).map g = n.map fun a => g (f a)
  | .rule _ => rfl
  | .comment _ => rfl
  | .atRule name params children span => by
    rw [Node.map, Node.map, Node.map, Node.mapAll_mapAll f g children]

theorem Node.mapAll_mapAll (f : α → β) (g : β → γ) :
    (ns : List (Node α)) → Node.mapAll g (Node.mapAll f ns) = Node.mapAll (fun a => g (f a)) ns
  | [] => rfl
  | n :: ns => by
    rw [Node.mapAll, Node.mapAll, Node.mapAll, Node.map_map f g n, Node.mapAll_mapAll f g ns]

end

variable {text : List Char} {f g : Nat → α}

mutual

/-- Only the offsets at which characters of the text begin are places of its nodes. -/
theorem Node.Within.map_congr (hfg : ∀ o, IsStart text o → f o = g o) {lo hi : Nat} :
    (n : Node Nat) → n.Within text lo hi → n.map f = n.map g
  | .rule span, h => by rw [Node.map, Node.map, hfg _ h.first, hfg _ h.last]
  | .comment span, h => by rw [Node.map, Node.map, hfg _ h.first, hfg _ h.last]
  | .atRule name params children span, h => by
    rw [Node.map, Node.map, hfg _ h.1.first, hfg _ h.1.last, Laid.mapAll_congr hfg children h.2]

theorem Laid.mapAll_congr (hfg : ∀ o, IsStart text o → f o = g o) {lo hi : Nat} :
    (ns : List (Node Nat)) → Laid text lo hi ns → Node.mapAll f ns = Node.mapAll g ns
  | [], _ => rfl
  | n :: ns, h => by
    rw [Node.mapAll, Node.mapAll, Node.Within.map_congr hfg n h.1, Laid.mapAll_congr hfg ns h.2]

end

end Places

/-! ## The block of a document rule -/

section Blocks

variable {front text : List Char} {owner : Owner} {ns : List (Node Nat)}

theorem standsAlone_openingCurly : Word.StandsAlone ⟨.opening .curly, ['\x7b']⟩ where
  head := ⟨'\x7b', [], rfl, by decide, by decide⟩
  words_append _ := words_append (List.cons_ne_nil _ _) rfl

/-- In front of any other text, the lexemes of a text up to the block are the same. -/
theorem lexemes_head (h : owner.Heads (lexemes (.start front))) (z : List Char) :
    lexemes (.start (front ++ z)) =
      (lexemes (.start front)).map (Lexeme.moved 0 z) ++ lexemes ⟨byteLength front, z⟩ := by
  have hwords : words front = wordsOf (lexemes (.start front)) ++ [] := by
    rw [List.append_nil]
    exact (map_word_lexemes (.start front)).symm
  have halone : ∀ w ∈ (wordsOf (lexemes (.start front))).getLast?, w.StandsAlone := by
    obtain ⟨init, opener, hls, ho, -⟩ := h.opener
    have hmem : opener ∈ lexemes (.start front) := by simp [hls]
    have htext : opener.text = ['\x7b'] :=
      Word.text_of_spelling (word_mem_words hmem) (by rw [Lexeme.word, ho]; rfl)
    intro w hw
    rw [hls, wordsOf, List.getLast?_map, List.getLast?_concat] at hw
    cases hw
    rw [Lexeme.word, ho, htext]
    exact standsAlone_openingCurly
  have hall : lexemes (.start front) = lexemes (.start front) ++ [] := (List.append_nil _).symm
  have hmoved := lexemes_moved 0 z hall (words_append_of_standsAlone z hwords halone)
  have hlength : byteLength (spelling (wordsOf (lexemes (.start front)))) = byteLength front := by
    rw [wordsOf, map_word_lexemes, spelling_words]
    rfl
  rw [hlength] at hmoved
  have hoffset : (Place.start front).offset + 0 + byteLength front = byteLength front :=
    Nat.zero_add _
  rw [hoffset] at hmoved
  exact hmoved

/-- In the block of a document rule, a style sheet whose last node is closed is read as its
nodes. -/
theorem readNodes_block (hh : owner.Heads (lexemes (.start front))) (hd : owner.isDocument = true)
    (h : readNodes text = .ok ns) (hc : endsClosed text = true) :
    readNodes (front ++ (text ++ ['\x7d'])) =
      .ok [owner.node (ns.map (Node.map (· + byteLength front)))
        (byteLength front + byteLength text)] := by
  have hhead := (hh.moved 0 (text ++ ['\x7d']) (endAt_lexemes _)).run (r := .start) rfl
  rw [Owner.isDocument_moved, if_pos hd] at hhead
  have hscan : scan (['\x7d'] ++ []) = (.closing .curly, ['\x7d'].length) := rfl
  have hcloser := lexemes_of_scan (byteLength front + byteLength text) (List.cons_ne_nil _ _) hscan
  rw [List.append_nil] at hcloser
  have hnone (o : Nat) : lexemes ⟨o, []⟩ = [] := by
    rw [lexemes]
    rfl
  rw [hnone] at hcloser
  unfold readNodes
  rw [lexemes_head hh, Reader.run_append _ hhead, Reader.run_text h hc rfl, hcloser]
  cases owner <;> rfl

/-- The keyword of an at-rule stands at the beginning of its text. -/
theorem Owner.Heads.keyword_start {keyword : Lexeme} {name params : String}
    (h : (Owner.atRule keyword name params).Heads (lexemes (.start front))) :
    keyword.start = .start front := by
  generalize hls : lexemes (.start front) = ls at h
  cases h
  exact (lexemes_eq_cons hls).1

/-- A style sheet whose last node is closed, in the block of a document rule that begins on the
first line, is one at-rule with the nodes of the sheet as its children. Their positions are moved by
the text in front of the block. -/
theorem parse_documentBlock {keyword : Lexeme} {name params css : String}
    {nodes : List (Node Position)}
    (hh : (Owner.atRule keyword name params).Heads (lexemes (.start front)))
    (hd : isDocumentName name = true) (hline : '\n' ∉ front) (h : parse css = .ok nodes)
    (hc : endsClosed css.toList = true) :
    parse (String.ofList front ++ css ++ "\x7d") =
      .ok [.atRule name params (nodes.map (Node.map (Position.indented front.length)))
        ⟨⟨0, 0⟩, (Position.behind css.toList).indented front.length⟩] := by
  obtain ⟨ns, hns, hlaid, rfl⟩ := parse_eq_ok h
  have hread := readNodes_block hh hd hns hc
  have htext : (String.ofList front ++ css ++ "\x7d").toList =
      front ++ (css.toList ++ ['\x7d']) := by
    rw [String.toList_append, String.toList_append, String.toList_ofList, List.append_assoc]
    rfl
  rw [← htext] at hread
  obtain ⟨nodes, hnodes⟩ := parse_of_readNodes hread
  obtain ⟨ns', hns', -, rfl⟩ := parse_eq_ok hnodes
  rw [hread] at hns'
  cases hns'
  rw [hnodes, htext]
  have hfirst : positionAt (front ++ (css.toList ++ ['\x7d'])) keyword.start.offset = ⟨0, 0⟩ := by
    rw [hh.keyword_start]
    exact positionAt_byteLength [] _
  have hlast : positionAt (front ++ (css.toList ++ ['\x7d']))
      (byteLength front + byteLength css.toList) =
        (Position.behind css.toList).indented front.length := by
    rw [← List.append_assoc, ← byteLength_append, positionAt_byteLength]
    exact Position.behind_append_line hline _
  have hmoved : ∀ o, IsStart css.toList o →
      positionAt (front ++ (css.toList ++ ['\x7d'])) (o + byteLength front) =
        (positionAt css.toList o).indented front.length := fun o ho => positionAt_moved hline ho _
  have hchildren : Node.mapAll (positionAt (front ++ (css.toList ++ ['\x7d'])))
      (ns.map (Node.map (· + byteLength front))) =
        (ns.map (Node.map (positionAt css.toList))).map
          (Node.map (Position.indented front.length)) := by
    rw [← Node.mapAll_eq_map, ← Node.mapAll_eq_map, ← Node.mapAll_eq_map, Node.mapAll_mapAll,
      Node.mapAll_mapAll]
    exact Laid.mapAll_congr hmoved ns hlaid
  rw [List.map_singleton, Owner.node, Node.map, hchildren, hfirst, hlast]

end Blocks

/-! ## A block behind one condition -/

/-- The beginning of a document rule, up to its block. -/
def openingText : List Char :=
  ['@', '-', 'm', 'o', 'z', '-', 'd', 'o', 'c', 'u', 'm', 'e', 'n', 't', ' ', 'd', 'o', 'm', 'a',
    'i', 'n', '(', 'a', ')', ' ', '\x7b']

theorem heads_openingText :
    ∃ keyword : Lexeme, (Owner.atRule keyword "-moz-document" "domain(a)").Heads
      (lexemes (.start openingText)) := by
  have hwords : (lexemes (.start openingText)).map Lexeme.word =
      [⟨.atKeyword "-moz-document",
          ['@', '-', 'm', 'o', 'z', '-', 'd', 'o', 'c', 'u', 'm', 'e', 'n', 't']⟩,
        ⟨.space, [' ']⟩, ⟨.opening .round, ['d', 'o', 'm', 'a', 'i', 'n', '(']⟩, ⟨.plain, ['a']⟩,
        ⟨.closing .round, [')']⟩, ⟨.space, [' ']⟩, ⟨.opening .curly, ['\x7b']⟩] := by
    decide +kernel
  simp only [List.map_eq_cons_iff, List.map_eq_nil_iff] at hwords
  obtain ⟨keyword, _, hls, hk, space, _, rfl, hspace, round, _, rfl, hround, name, _, rfl, hname,
    closer, _, rfl, hcloser, gap, _, rfl, hgap, curly, _, rfl, hcurly, rfl⟩ := hwords
  obtain ⟨-, -, hrest, -, -⟩ := lexemes_eq_cons hls
  have htoken {l : Lexeme} {w : Word} (h : l.word = w) : l.token = w.token := congrArg Word.token h
  have hopen {l : Lexeme} {w : Word} (h : l.word = w) (hw : ∀ b, w.token ≠ .opening b) :
      ∀ b, l.token ≠ .opening b := htoken h ▸ hw
  have hin {l : Lexeme} {w : Word} (h : l.word = w) (hw : w.token.InPrelude) :
      l.token.InPrelude := htoken h ▸ hw
  have hfirst : Balanced Token.InPrelude ([] ++ [space]) :=
    .mark .nil (hin hspace trivial) (hopen hspace (by simp))
  have hinside : Enclosed .round ([] ++ [name]) := by
    refine .mark .nil ?_ (hopen hname (by simp))
    rw [htoken hname]
    exact Token.noConfusion
  have hgroup := hfirst.group (hin hround trivial) (htoken hround) hinside (htoken hcloser)
  have hparts : PreludeParts [] [space, round, name, closer, gap] [] :=
    PreludeParts.mark (l := gap) hgroup (hin hgap trivial) (hopen hgap (by simp))
  have hprelude : lexemes keyword.stop = [space, round, name, closer, gap] ++ [curly] := hrest
  have hparams : paramsBetween keyword ([space, round, name, closer, gap].getLastD keyword) =
      "domain(a)" := by
    unfold paramsBetween
    rw [textTo_getLastD hprelude]
    simp only [wordsOf, List.map_cons, List.map_nil, hspace, hround, hname, hcloser, hgap]
    decide +kernel
  have hheads := Owner.Heads.atRule (htoken hk) hparts (htoken hcurly)
  rw [hparams] at hheads
  exact ⟨keyword, hls ▸ hheads⟩

/-- A style sheet whose last node is closed, in the block of a document rule, is one at-rule with the
nodes of the sheet as its children. Their lines are the same, and their columns on the first line
are moved by the text in front of the block. -/
theorem parse_block {css : String} {nodes : List (Node Position)} (h : parse css = .ok nodes)
    (hc : endsClosed css.toList = true) :
    parse ("@-moz-document domain(a) \x7b" ++ css ++ "\x7d") =
      .ok [.atRule "-moz-document" "domain(a)" (nodes.map (Node.map (Position.indented 26)))
        ⟨⟨0, 0⟩, (Position.behind css.toList).indented 26⟩] := by
  obtain ⟨keyword, hheads⟩ := heads_openingText
  exact parse_documentBlock hheads rfl (by decide) h hc

/-- A document rule with a block of its own, and white space, in the block. -/
theorem parse_block_document :
    ∃ nodes, parse "a \x7b\x7d\n@-moz-document url(b) \x7bc \x7b\x7d\x7d\n" = .ok nodes ∧
      nodes.length = 2 ∧
      parse ("@-moz-document domain(a) \x7b" ++
          "a \x7b\x7d\n@-moz-document url(b) \x7bc \x7b\x7d\x7d\n" ++ "\x7d") =
        .ok [.atRule "-moz-document" "domain(a)" (nodes.map (Node.map (Position.indented 26)))
          ⟨⟨0, 0⟩, ⟨2, 0⟩⟩] := by
  have hlength : (parse "a \x7b\x7d\n@-moz-document url(b) \x7bc \x7b\x7d\x7d\n").toOption.map
      List.length = some 2 := by decide +kernel
  cases hp : parse "a \x7b\x7d\n@-moz-document url(b) \x7bc \x7b\x7d\x7d\n" with
  | error e =>
    rw [hp] at hlength
    cases hlength
  | ok nodes =>
    rw [hp] at hlength
    exact ⟨nodes, rfl, Option.some.inj hlength, parse_block hp (by decide +kernel)⟩

end Userstyle.Css
