import Userstyle.Proofs.SheetNodes

/-!
# Closed blocks

A node whose block is closed ends with a closing curly bracket of its own: between the one that
opens the block and the one that closes it, brackets match. A text that is split into nodes closes
the blocks of all its nodes, at whatever depth, unless its last character is a closing curly bracket
(`parse_closed`). That character counts as the end of every block that is still open, although it
may have closed another bracket or may be a part of a comment or a string.
-/

namespace Userstyle.Css

open Source Text

/-- The node has no block, or its block is closed by a curly bracket of its own. -/
inductive Node.Closed (all : List Lexeme) : Node Nat → Prop where
  /-- A comment. -/
  | comment {a b : List Lexeme} {l : Lexeme} (hall : all = a ++ l :: b)
      (hl : l.token = .comment) : Closed all (.comment ⟨l.start.offset, l.lastOffset⟩)
  /-- An at-rule that ends before a block begins: with a semicolon, or with the document block or
  the text around it. -/
  | blockless {a prelude b : List Lexeme} {keyword : Lexeme} {name params : String} {last : Nat}
      {nesting : List Bracket} (hall : all = a ++ keyword :: (prelude ++ b))
      (hk : keyword.token = .atKeyword name) (hp : Leaves Token.InPrelude nesting prelude)
      (hb : b = [] ∨ nesting = [] ∧
        ∃ l ls, b = l :: ls ∧ (l.token = .semicolon ∨ l.token = .closing .curly)) :
      Closed all (.atRule name params [] ⟨keyword.start.offset, last⟩)
  /-- A rule or an at-rule with its block. -/
  | block {a head body b : List Lexeme} {owner : Owner} {children : List (Node Nat)}
      {closer : Lexeme} (hall : all = a ++ (head ++ (body ++ closer :: b)))
      (hh : owner.Heads head) (hb : Enclosed .curly body) (hc : closer.token = .closing .curly) :
      Closed all (owner.node children closer.lastOffset)

/-! ## Brackets match in what a document block holds -/

section Enclosed

variable {ls ms : List Lexeme} {l m : Lexeme} {b : Bracket}

theorem Enclosed.snoc (h : Enclosed b ls) (hl : ∀ c, l.token ≠ .opening c)
    (hb : l.token ≠ .closing b) : Enclosed b (ls ++ [l]) := Balanced.mark h hb hl

theorem enclosed_of_prelude (h : Balanced Token.InPrelude ls) : Enclosed .curly ls := by
  refine h.mono fun t ht heq => ?_
  rw [heq] at ht
  exact ht

theorem enclosed_of_selector (h : Balanced Token.InSelector ls) : Enclosed .curly ls := by
  refine h.mono fun t ht heq => ?_
  rw [heq] at ht
  exact ht

theorem enclosed_keyword {name : String} (hl : l.token = .atKeyword name)
    (h : Balanced Token.InPrelude ls) : Enclosed .curly (l :: ls) := by
  refine Balanced.cons (enclosed_of_prelude h) ?_ fun b hb => ?_
  · rw [hl]
    exact Token.noConfusion
  · rw [hl] at hb
    cases hb

/-- What owns a block ends with the bracket that opens the block. -/
theorem Owner.Heads.opener {owner : Owner} {head : List Lexeme} (h : owner.Heads head) :
    ∃ front opener, head = front ++ [opener] ∧ opener.token = .opening .curly ∧
      Enclosed .curly front := by
  cases h with
  | @rule selector opener first h ho hf hb =>
    exact ⟨selector, opener, rfl, ho, enclosed_of_selector h⟩
  | @atRule keyword opener name kept lost hk hp ho =>
    exact ⟨keyword :: (kept ++ lost), opener, by simp, ho, enclosed_keyword hk hp.balanced⟩

theorem Owner.Heads.enclosed {owner : Owner} {head body : List Lexeme} {closer : Lexeme}
    (h : owner.Heads head) (hb : Enclosed .curly body) (hc : closer.token = .closing .curly) :
    Enclosed .curly (head ++ (body ++ [closer])) := by
  obtain ⟨front, opener, rfl, ho, hfront⟩ := h.opener
  have hopener : opener.token ≠ .closing .curly := by
    rw [ho]
    exact Token.noConfusion
  rw [List.append_assoc]
  exact .group hfront hopener ho hb hc

theorem Leaf.enclosed {n : Node Nat} (h : Leaf n ls) : Enclosed .curly ls := by
  cases h with
  | @comment l hl =>
    refine Balanced.cons .nil ?_ fun b hb => ?_
    · rw [hl]
      exact Token.noConfusion
    · rw [hl] at hb
      cases hb
  | @statement keyword semicolon name kept lost hk hp hs =>
    have hrule := enclosed_keyword hk hp.balanced
    rw [← List.cons_append]
    refine hrule.snoc (fun b hb => ?_) ?_
    · rw [hs] at hb
      cases hb
    · rw [hs]
      exact Token.noConfusion
  | block hh hd hb hc => exact hh.enclosed hb hc

/-- In what a document block holds, brackets match. -/
theorem Sheet.enclosed {ending : Ending} {ns : List (Node Nat)} (h : Sheet ending false ns ls)
    (he : ending = .between ∨ ending = .prelude []) : Enclosed .curly ls := by
  generalize ho : false = isOpen at h
  induction h with
  | nil => exact .nil
  | @gap ns ls l h hl ih =>
    refine Enclosed.snoc (ih (Or.inl rfl) rfl) (fun b hb => ?_) fun hb => ?_
    · rw [hb] at hl
      exact hl
    · rw [hb] at hl
      exact hl
  | leaf h hn ih => exact (ih (Or.inl rfl) rfl).append hn.enclosed
  | document h hh hd hi hending hc ih ihi =>
    exact (ih (Or.inl rfl) rfl).append (hh.enclosed (ihi hending rfl) hc)
  | @cutShort ns nesting ls kept lost spaces keyword name h hk hp hl hs hn ih =>
    obtain rfl : nesting = [] := by simpa using he
    exact (ih (Or.inl rfl) rfl).append
      (enclosed_keyword hk (hp.balanced.append_spaces trivial hs))
  | selector => simp at he
  | openBlock => cases ho
  | openDocument => cases ho

end Enclosed

/-! ## Every node is closed -/

theorem Leaves.append_spaces {nesting : List Bracket} {ls spaces : List Lexeme}
    (h : Leaves Token.InPrelude nesting ls) (hs : ∀ l ∈ spaces, l.token = .space) :
    Leaves Token.InPrelude nesting (ls ++ spaces) := by
  induction spaces generalizing ls with
  | nil => simpa using h
  | cons l spaces ih =>
    rw [List.forall_mem_cons] at hs
    have hl : Leaves Token.InPrelude (nestingAfter l.token nesting) (ls ++ [l]) := by
      refine h.snoc fun _ => ?_
      rw [hs.1]
      trivial
    have hsame : nestingAfter l.token nesting = nesting := by
      rw [hs.1]
      cases nesting <;> rfl
    rw [hsame] at hl
    have hall := ih hl hs.2
    rwa [List.append_assoc] at hall

theorem Node.ReadIn.closed {all : List Lexeme} {n : Node Nat} (h : n.ReadIn all false) :
    n.Closed all := by
  cases h with
  | @leaf _ n a ms b hall hn =>
    cases hn with
    | comment hl => exact .comment hall hl
    | @statement keyword semicolon name kept lost hk hp hs =>
      have hplace : all = a ++ keyword :: ((kept ++ lost) ++ semicolon :: b) := by simp [hall]
      exact .blockless hplace hk (.none hp.balanced)
        (Or.inr ⟨rfl, semicolon, b, rfl, Or.inl hs⟩)
    | @block owner head body closer hh hd hb hc =>
      have hplace : all = a ++ (head ++ (body ++ closer :: b)) := by simp [hall]
      exact .block hplace hh hb hc
  | document hall hh hd hi he hc => exact .block hall hh (hi.enclosed he) hc
  | @cutShort _ nesting a kept lost spaces b keyword name hall hk hp hl hs hb =>
    have hplace : all = a ++ keyword :: ((kept ++ lost ++ spaces) ++ b) := by simp [hall]
    refine .blockless hplace hk (hp.leaves.append_spaces hs) (hb.imp_right ?_)
    rintro ⟨hn, l, ls, rfl, hl⟩
    exact ⟨hn, l, ls, rfl, Or.inr hl⟩

/-! ## Texts -/

theorem Sheet.closed {ending : Ending} {ns : List (Node Nat)} {ls : List Lexeme}
    (h : Sheet ending false ns ls) (he : ending ≠ .selector) {n : Node Nat} (hn : n.Occurs ns) :
    n.Closed ls := by
  have hplace : ls = [] ++ (ls ++ []) := by simp
  have hread := h.readIn hplace (Ending.before_nil ending) Bool.noConfusion he hn
  exact hread.closed

theorem parse_of_readNodes {css : String} {ns : List (Node Nat)}
    (h : readNodes css.toList = .ok ns) : ∃ nodes, parse css = .ok nodes := by
  rw [parse, h]
  exact ⟨_, rfl⟩

theorem parse_of_fault {css : String} {fault : Fault} (h : readNodes css.toList = .error fault) :
    ∃ issue line column, parse css = .error (.invalidCss issue line column) := by
  rw [parse, h]
  exact ⟨_, _, _, rfl⟩

/-- In a text that is split into nodes, all blocks are closed, or the last character is a closing
curly bracket. A text whose blocks are not all closed at its end is refused, unless its last
character is a closing curly bracket and it does not end in a selector. -/
theorem parse_closed (css : String) :
    (∀ nodes, parse css = .ok nodes →
      ∃ ns : List (Node Nat), nodes = ns.map (Node.map (positionAt css.toList)) ∧
        ((∀ n : Node Nat, n.Occurs ns → n.Closed (lexemes (.start css.toList))) ∨
          css.toList.getLast? = some '\x7d' ∧
            ∃ ending, Sheet ending true ns (lexemes (.start css.toList)))) ∧
      ∀ ending ns, Sheet ending true ns (lexemes (.start css.toList)) →
        ((∃ issue line column, parse css = .error (.invalidCss issue line column)) ↔
          ending = .selector ∨ css.toList.getLast? ≠ some '\x7d') := by
  constructor
  · intro nodes h
    obtain ⟨ns, hns, -, hnodes⟩ := parse_eq_ok h
    obtain ⟨ending, isOpen, hsheet, hne, hopen⟩ := readNodes_sheet hns
    refine ⟨ns, hnodes, ?_⟩
    cases isOpen with
    | false => exact Or.inl fun n hn => hsheet.closed hne hn
    | true => exact Or.inr ⟨hopen rfl, ending, hsheet⟩
  · intro ending ns h
    constructor
    · rintro ⟨issue, line, column, herror⟩
      by_contra hnot
      rw [not_or, not_not] at hnot
      obtain ⟨nodes, hnodes⟩ :=
        parse_of_readNodes (readNodes_of_sheet h hnot.1 fun _ => hnot.2)
      rw [hnodes] at herror
      cases herror
    · intro hrefused
      by_cases he : ending = .selector
      · subst he
        obtain ⟨o, ho⟩ := readNodes_selector h
        exact parse_of_fault ho
      · exact parse_of_fault (readNodes_unclosed h he (hrefused.resolve_left he))

/-! ## A block that is open at the end of the text -/

/-- A rule whose block is never closed. -/
theorem sheet_openRule {ls : List Lexeme} {ts : List Token}
    (h : tokensOf ls = .plain :: .space :: .opening .curly :: ts) (hts : ∀ t ∈ ts, t = .comment) :
    ∃ ns, Sheet .block true ns ls := by
  obtain ⟨first, ls, rfl, hfirst, h⟩ := List.map_eq_cons_iff.mp h
  obtain ⟨space, ls, rfl, hspace, h⟩ := List.map_eq_cons_iff.mp h
  obtain ⟨opener, body, rfl, hopener, rfl⟩ := List.map_eq_cons_iff.mp h
  have hselector : Balanced Token.InSelector [first, space] := by
    refine balanced_of_marks fun l hl => ?_
    rcases List.mem_pair.mp hl with rfl | rfl
    · rw [hfirst]
      exact ⟨trivial, fun b => Token.noConfusion⟩
    · rw [hspace]
      exact ⟨trivial, fun b => Token.noConfusion⟩
  have hhead : (Owner.rule first).Heads ([first, space] ++ [opener]) := by
    refine .rule hselector hopener rfl ?_
    rw [hfirst]
    trivial
  have hbody : Enclosed .curly body := by
    refine balanced_of_marks fun l hl => ?_
    rw [hts _ (List.mem_map_of_mem hl)]
    exact ⟨Token.noConfusion, fun b => Token.noConfusion⟩
  obtain ⟨last, hlast⟩ : ∃ last, ([first, space] ++ [opener] ++ body).getLast? = some last :=
    ⟨_, List.getLast?_eq_some_getLast (by simp)⟩
  exact ⟨_, Sheet.openBlock .nil hhead rfl (.none hbody) hlast⟩

/-- A block that is open at the end of the text is an error. -/
theorem parse_closed_open :
    (∃ ns, Sheet .block true ns (lexemes (.start "a \x7b".toList))) ∧
      ∃ issue line column, parse "a \x7b" = .error (.invalidCss issue line column) := by
  have htokens : tokensOf (lexemes (.start "a \x7b".toList)) =
      [.plain, .space, .opening .curly] := by decide +kernel
  obtain ⟨ns, hsheet⟩ := sheet_openRule htokens (by simp)
  exact ⟨⟨ns, hsheet⟩, ((parse_closed "a \x7b").2 _ _ hsheet).mpr (Or.inr (by decide))⟩

/-- It is none if the text ends with a comment that ends with a closing curly bracket. -/
theorem parse_open_comment :
    (∃ ns, Sheet .block true ns (lexemes (.start "a \x7b/*\x7d".toList))) ∧
      ∃ nodes, parse "a \x7b/*\x7d" = .ok nodes := by
  have htokens : tokensOf (lexemes (.start "a \x7b/*\x7d".toList)) =
      [.plain, .space, .opening .curly, .comment] := by decide +kernel
  obtain ⟨ns, hsheet⟩ := sheet_openRule htokens (by simp)
  have hread := readNodes_of_sheet hsheet Ending.noConfusion fun _ => by decide
  exact ⟨⟨ns, hsheet⟩, parse_of_readNodes hread⟩

end Userstyle.Css
