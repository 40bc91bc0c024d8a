import Userstyle.Css.Stylesheet

/-!
# The moves of the reader

What a reader can do with a lexeme, one case for each thing it may be in the middle of, with the
tokens for which it does so. `Reader.step_move` is the only place where the functions of a step are
opened; what a step keeps is shown by going through the moves.
-/

namespace Userstyle.Css

open Source

/-- The tokens that a selector goes on with. -/
def Token.continuesSelector : Token → Bool
  | .opening .curly | .semicolon | .badString | .badUrl | .closing _ => false
  | _ => true

/-- The tokens other than white space that the prelude of an at-rule goes on with. -/
def Token.continuesPrelude : Token → Bool
  | .opening .curly | .semicolon | .badString | .badUrl | .closing .curly | .space => false
  | _ => true

/-- The reader takes the lexeme as part of a selector, outside of brackets. The selector began with
`first`. -/
inductive Reader.Selects (r : Reader) (l : Lexeme) : Lexeme → Prop where
  /-- The lexeme begins a selector. -/
  | begins (hm : r.mode = .between) : r.Selects l l
  /-- The lexeme goes on with a selector. -/
  | goesOn {first : Lexeme} {asked : Place} (hm : r.mode = .selector first asked []) :
      r.Selects l first

/-- The states to which a lexeme can take the reader. -/
inductive Move (r : Reader) (l : Lexeme) : Reader → Prop where
  /-- White space and the marks of HTML comments count for nothing between two nodes. -/
  | pass (hm : r.mode = .between)
      (ht : l.token = .space ∨ l.token = .commentOpen ∨ l.token = .commentClose) : Move r l r
  /-- A comment between two nodes is a node. -/
  | comment (hm : r.mode = .between) (ht : l.token = .comment) :
      Move r l (r.push (.comment ⟨l.start.offset, l.lastOffset⟩))
  /-- An at-keyword begins an at-rule. -/
  | keyword {name : String} (hm : r.mode = .between) (ht : l.token = .atKeyword name) :
      Move r l { r with mode := .prelude ⟨l, name, l, l.stop, []⟩ }
  /-- A closing curly bracket between two nodes ends the document block around them. -/
  | leave {d : Document} {outer : List Document} (hm : r.mode = .between)
      (ht : l.token = .closing .curly) (hd : r.documents = d :: outer) :
      Move r l (r.closeDocument d outer l.lastOffset)
  /-- A selector begins or goes on. -/
  | select {first : Lexeme} (hs : r.Selects l first) (ht : l.token.continuesSelector) :
      Move r l { r with mode := .selector first l.stop (nestingAfter l.token []) }
  /-- A selector goes on inside of brackets. -/
  | selectInside {first : Lexeme} {asked : Place} {b : Bracket} {outer : List Bracket}
      (hm : r.mode = .selector first asked (b :: outer)) :
      Move r l { r with mode := .selector first asked (nestingAfter l.token (b :: outer)) }
  /-- The block of a rule begins. -/
  | openRule {first : Lexeme} (hs : r.Selects l first) (ht : l.token = .opening .curly) :
      Move r l { r with mode := .block (.rule first) [.curly] }
  /-- A prelude goes on. -/
  | prelude {p : Prelude} (hm : r.mode = .prelude p) (hn : p.nesting = [])
      (ht : l.token.continuesPrelude) :
      Move r l { r with
        mode := .prelude { p with last := l, asked := l.stop, nesting := nestingAfter l.token [] } }
  /-- A prelude goes on with white space. -/
  | preludeSpace {p : Prelude} (hm : r.mode = .prelude p) (hn : p.nesting = [])
      (ht : l.token = .space) : Move r l { r with mode := .prelude { p with asked := l.stop } }
  /-- A prelude goes on inside of brackets. -/
  | preludeInside {p : Prelude} (hm : r.mode = .prelude p) (hn : p.nesting ≠ []) :
      Move r l { r with mode := .prelude { p with nesting := nestingAfter l.token p.nesting } }
  /-- A semicolon ends an at-rule. -/
  | statement {p : Prelude} (hm : r.mode = .prelude p) (hn : p.nesting = [])
      (ht : l.token = .semicolon) : Move r l (r.push (p.statement p.asked l.lastOffset))
  /-- The end of the document block around it cuts an at-rule short. -/
  | cutShort {p : Prelude} {d : Document} {outer : List Document} (hm : r.mode = .prelude p)
      (hn : p.nesting = []) (ht : l.token = .closing .curly) (hd : r.documents = d :: outer) :
      Move r l ((r.push p.cutShort).closeDocument d outer l.lastOffset)
  /-- The block of a document rule begins. -/
  | openDocument {p : Prelude} (hm : r.mode = .prelude p) (hn : p.nesting = [])
      (ht : l.token = .opening .curly) (hname : isDocumentName p.name = true) :
      Move r l ⟨.between, [], ⟨.atRule p.keyword p.name (p.params p.asked), r.nodes⟩ :: r.documents⟩
  /-- The block of another at-rule begins. -/
  | openBlock {p : Prelude} (hm : r.mode = .prelude p) (hn : p.nesting = [])
      (ht : l.token = .opening .curly) (hname : isDocumentName p.name = false) :
      Move r l { r with mode := .block (.atRule p.keyword p.name (p.params p.asked)) [.curly] }
  /-- A block goes on. -/
  | inside {owner : Owner} {nesting : List Bracket} (hm : r.mode = .block owner nesting)
      (hn : nestingAfter l.token nesting ≠ []) :
      Move r l { r with mode := .block owner (nestingAfter l.token nesting) }
  /-- A block ends. -/
  | close {owner : Owner} {nesting : List Bracket} (hm : r.mode = .block owner nesting)
      (hn : nestingAfter l.token nesting = []) : Move r l (r.push (owner.node [] l.lastOffset))

namespace Reader

theorem stepSelector_move {r r' : Reader} {first l : Lexeme} {asked : Place}
    (hs : r.Selects l first) (h : r.stepSelector first asked l = .ok r') : Move r l r' := by
  unfold stepSelector at h
  split at h
  · rename_i ht
    cases h
    exact .openRule hs ht
  · cases h
  · cases h
  · cases h
  · split at h <;> cases h
  · cases h
  · rename_i h₁ h₂ h₃ h₄ h₅ h₆
    cases h
    refine .select hs ?_
    unfold Token.continuesSelector
    split
    · exact absurd ‹_› h₁
    · exact absurd ‹_› h₂
    · exact absurd ‹_› h₃
    · exact absurd ‹_› h₄
    · exact absurd ‹_› (h₆ _)
    · rfl

theorem stepPrelude_move {r r' : Reader} {p : Prelude} {l : Lexeme} (hm : r.mode = .prelude p)
    (hn : p.nesting = []) (h : r.stepPrelude p l = .ok r') : Move r l r' := by
  unfold stepPrelude at h
  split at h
  · rename_i ht
    cases h
    exact .statement hm hn ht
  · rename_i ht
    simp only at h
    split at h
    · cases h
      exact .openDocument hm hn ht ‹_›
    · rename_i hname
      cases h
      exact .openBlock hm hn ht (by simpa using hname)
  · cases h
  · cases h
  · rename_i ht
    split at h
    · cases h
    · cases h
      exact .cutShort hm hn ht ‹_›
  · rename_i ht
    cases h
    exact .preludeSpace hm hn ht
  · rename_i h₁ h₂ h₃ h₄ h₅ h₆
    cases h
    refine .prelude hm hn ?_
    unfold Token.continuesPrelude
    split
    · exact absurd ‹_› h₂
    · exact absurd ‹_› h₁
    · exact absurd ‹_› h₃
    · exact absurd ‹_› h₄
    · exact absurd ‹_› h₅
    · exact absurd ‹_› h₆
    · rfl

theorem stepBetween_move {r r' : Reader} {l : Lexeme} (hm : r.mode = .between)
    (h : r.stepBetween l = .ok r') : Move r l r' := by
  unfold stepBetween at h
  split at h
  · rename_i ht
    cases h
    exact .pass hm (Or.inl ht)
  · rename_i ht
    cases h
    exact .pass hm (Or.inr (Or.inl ht))
  · rename_i ht
    cases h
    exact .pass hm (Or.inr (Or.inr ht))
  · rename_i ht
    cases h
    exact .comment hm ht
  · rename_i ht
    cases h
    exact .keyword hm ht
  · rename_i ht
    split at h
    · exact stepSelector_move (.begins hm) h
    · cases h
      exact .leave hm ht ‹_›
  · exact stepSelector_move (.begins hm) h

/-- Every step of the reader is one of its moves. -/
theorem step_move {r r' : Reader} {l : Lexeme} (h : r.step l = .ok r') : Move r l r' := by
  unfold step at h
  split at h
  · exact stepBetween_move ‹_› h
  · rename_i p hm
    split at h
    · exact stepPrelude_move hm ‹_› h
    · rename_i hn
      cases h
      exact .preludeInside hm hn
  · rename_i first asked nesting hm
    split at h
    · exact stepSelector_move (.goesOn hm) h
    · rename_i hn
      cases h
      cases nesting with
      | nil => exact absurd rfl hn
      | cons b outer => exact .selectInside hm
  · rename_i owner nesting hm
    split at h
    · rename_i hn
      cases h
      exact .close hm hn
    · rename_i hn
      cases h
      exact .inside hm hn

end Reader

end Userstyle.Css
