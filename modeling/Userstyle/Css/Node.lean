import Userstyle.Css.Lexeme
import Userstyle.Source.Locator

/-!
# Nodes

A style sheet is a list of nodes: rules, at-rules and comments, each with the stretch of text that
it takes up. Only `@-moz-document` rules have children; what stands in the blocks of other rules is
text. Nodes are read with byte offsets (`Node Nat`) and then placed on lines and columns
(`Node Position`).
-/

namespace Userstyle.Css

open Source

/-- A node of a style sheet, with places of type `α`. -/
inductive Node (α : Type) where
  /-- A selector with its block. -/
  | rule (span : Span α)
  /-- An at-rule: its name, its trimmed parameters and the rules in its block. -/
  | atRule (name params : String) (children : List (Node α)) (span : Span α)
  /-- A comment. -/
  | comment (span : Span α)

/-- The name of the at-rule whose block is split into rules as well. -/
def documentName : String := "-moz-document"

/-- The name of the at-rule that sets a namespace. -/
def namespaceName : String := "namespace"

/-- Whether an at-rule with this name is a document rule. -/
def isDocumentName (name : String) : Bool := sameName name.toList documentName.toList

/-- Whether an at-rule with this name is a namespace rule. -/
def isNamespaceName (name : String) : Bool := sameName name.toList namespaceName.toList

namespace Node

variable {α : Type}

/-- The text that a node takes up. -/
def span : Node α → Span α
  | .rule span => span
  | .atRule _ _ _ span => span
  | .comment span => span

/-- The rules inside a node. -/
def children : Node α → List (Node α)
  | .rule _ => []
  | .atRule _ _ children _ => children
  | .comment _ => []

/-- Whether a node is a comment. -/
def isComment : Node α → Bool
  | .comment _ => true
  | _ => false

mutual

/-- Turns the offsets of a node into positions, in the order first character, children, last
character. -/
def locate (l : Locator) : Node Nat → Node Position × Locator
  | .rule span =>
    let (first, l₁) := l.locate span.first
    let (last, l₂) := l₁.locate span.last
    (.rule ⟨first, last⟩, l₂)
  | .atRule name params children span =>
    let (first, l₁) := l.locate span.first
    let (children', l₂) := locateAll l₁ children
    let (last, l₃) := l₂.locate span.last
    (.atRule name params children' ⟨first, last⟩, l₃)
  | .comment span =>
    let (first, l₁) := l.locate span.first
    let (last, l₂) := l₁.locate span.last
    (.comment ⟨first, last⟩, l₂)

/-- Turns the offsets of nodes into positions, one node after the other. -/
def locateAll (l : Locator) : List (Node Nat) → List (Node Position) × Locator
  | [] => ([], l)
  | n :: ns =>
    let (n', l₁) := locate l n
    let (ns', l₂) := locateAll l₁ ns
    (n' :: ns', l₂)

end

end Node

end Userstyle.Css
