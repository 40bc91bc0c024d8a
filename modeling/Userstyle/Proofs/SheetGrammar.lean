import Userstyle.Proofs.Brackets

/-!
# The grammar of style sheets

How the lexemes of a style sheet make up its nodes, said without a reader that goes through them one
by one. A node is a comment, an at-rule that ends with a semicolon, or a rule or an at-rule with a
block; in a block, brackets match (`Balanced`). Between two nodes stand lexemes that count for
nothing. What makes up the nodes of a document block is a style sheet again (`Sheet`).

Not every sheet ends between two nodes. An at-rule may be cut short by the end of the text, or of
the document block around it; a selector may have no block; and blocks may be open when the text
ends.
-/

namespace Userstyle.Css

open Source Text

/-! ## Tokens by where they may stand -/

/-- The tokens that may stand in the prelude of an at-rule, outside of brackets. -/
def Token.InPrelude (t : Token) : Prop :=
  match t with
  | .opening .curly | .closing .curly | .semicolon | .badString | .badUrl => False
  | _ => True

/-- The tokens that may stand in the selector of a rule, outside of brackets. -/
def Token.InSelector (t : Token) : Prop :=
  match t with
  | .opening .curly | .closing _ | .semicolon | .badString | .badUrl => False
  | _ => True

/-- The tokens with which a rule may begin. -/
def Token.BeginsRule (t : Token) : Prop :=
  match t with
  | .opening _ | .plain => True
  | _ => False

/-- The tokens that count for nothing between two nodes: white space and the marks of HTML
comments. -/
def Token.IsGap (t : Token) : Prop :=
  match t with
  | .space | .commentOpen | .commentClose => True
  | _ => False

/-! ## Preludes -/

/-- The lexemes of a prelude in two parts. The first goes up to the last lexeme outside of brackets;
the second is what stands in the brackets which that lexeme opens. The brackets `nesting` are open
at the end of the prelude. -/
inductive PreludeParts : List Bracket → List Lexeme → List Lexeme → Prop where
  /-- An empty prelude. -/
  | nil : PreludeParts [] [] []
  /-- The last lexeme outside of brackets is not a bracket itself. -/
  | mark {ls : List Lexeme} {l : Lexeme} (h : Balanced Token.InPrelude ls)
      (hok : l.token.InPrelude) (hl : ∀ b, l.token ≠ .opening b) : PreludeParts [] (ls ++ [l]) []
  /-- The prelude ends inside of a bracket. -/
  | inside {nesting : List Bracket} {ls ms : List Lexeme} {l : Lexeme} {b : Bracket}
      (h : Balanced Token.InPrelude ls) (hok : l.token.InPrelude) (hl : l.token = .opening b)
      (hms : Leaves (· ≠ .closing b) nesting ms) : PreludeParts (nesting ++ [b]) (ls ++ [l]) ms
  /-- The prelude ends with a bracket that is closed. -/
  | group {ls ms : List Lexeme} {l m : Lexeme} {b : Bracket} (h : Balanced Token.InPrelude ls)
      (hok : l.token.InPrelude) (hl : l.token = .opening b) (hms : Enclosed b ms)
      (hm : m.token = .closing b) : PreludeParts [] (ls ++ [l]) (ms ++ [m])

/-- The trimmed text behind one lexeme up to the end of another one. -/
def paramsBetween (keyword last : Lexeme) : String :=
  String.ofList (trim (keyword.stop.textTo last.stop))

/-! ## Nodes -/

/-- The lexemes of the owner of a block, the opening bracket of the block included. -/
inductive Owner.Heads : Owner → List Lexeme → Prop where
  /-- A selector, which may be empty. -/
  | rule {selector : List Lexeme} {opener first : Lexeme} (h : Balanced Token.InSelector selector)
      (ho : opener.token = .opening .curly) (hf : (selector ++ [opener]).head? = some first)
      (hb : first.token.BeginsRule) : Heads (.rule first) (selector ++ [opener])
  /-- The keyword of an at-rule and its prelude. -/
  | atRule {keyword opener : Lexeme} {name : String} {kept lost : List Lexeme}
      (hk : keyword.token = .atKeyword name) (hp : PreludeParts [] kept lost)
      (ho : opener.token = .opening .curly) :
      Heads (.atRule keyword name (paramsBetween keyword (kept.getLastD keyword)))
        (keyword :: (kept ++ lost ++ [opener]))

/-- Whether a block is that of a document rule. -/
def Owner.isDocument : Owner → Bool
  | .rule _ => false
  | .atRule _ name _ => isDocumentName name

/-- The lexemes are those of a node that ends with a lexeme of its own and has no nodes inside. -/
inductive Leaf : Node Nat → List Lexeme → Prop where
  /-- A comment. -/
  | comment {l : Lexeme} (hl : l.token = .comment) :
      Leaf (.comment ⟨l.start.offset, l.lastOffset⟩) [l]
  /-- An at-rule that ends with a semicolon. -/
  | statement {keyword semicolon : Lexeme} {name : String} {kept lost : List Lexeme}
      (hk : keyword.token = .atKeyword name) (hp : PreludeParts [] kept lost)
      (hs : semicolon.token = .semicolon) :
      Leaf (.atRule name (paramsBetween keyword (kept.getLastD keyword)) []
        ⟨keyword.start.offset, semicolon.lastOffset⟩) (keyword :: (kept ++ lost ++ [semicolon]))
  /-- A rule or an at-rule with a block, from its first lexeme to the one that closes the block. -/
  | block {owner : Owner} {head body : List Lexeme} {closer : Lexeme} (hh : owner.Heads head)
      (hd : owner.isDocument = false) (hb : Enclosed .curly body)
      (hc : closer.token = .closing .curly) :
      Leaf (owner.node [] closer.lastOffset) (head ++ (body ++ [closer]))

/-! ## Style sheets -/

/-- Where a style sheet ends. -/
inductive Ending where
  /-- Between two nodes. -/
  | between
  /-- In the prelude of an at-rule, with brackets open in it, innermost first. -/
  | prelude (nesting : List Bracket)
  /-- In the selector of a rule. -/
  | selector
  /-- In a block that is not split. -/
  | block
  deriving DecidableEq, Repr

/-- The lexemes make up the nodes. They end at `ending`, and `isOpen` tells whether a block is open
there, that of a document rule or one that is not split. -/
inductive Sheet : (ending : Ending) → (isOpen : Bool) → List (Node Nat) → List Lexeme → Prop where
  /-- The empty sheet. -/
  | nil : Sheet .between false [] []
  /-- One more lexeme that counts for nothing. -/
  | gap {ns : List (Node Nat)} {ls : List Lexeme} {l : Lexeme} (h : Sheet .between false ns ls)
      (hl : l.token.IsGap) : Sheet .between false ns (ls ++ [l])
  /-- One more node without nodes inside. -/
  | leaf {ns : List (Node Nat)} {ls ms : List Lexeme} {n : Node Nat}
      (h : Sheet .between false ns ls) (hn : Leaf n ms) :
      Sheet .between false (ns ++ [n]) (ls ++ ms)
  /-- One more document rule. The end of its block may cut an at-rule short. -/
  | document {ending : Ending} {ns children : List (Node Nat)} {ls head inner : List Lexeme}
      {owner : Owner} {closer : Lexeme} (h : Sheet .between false ns ls) (hh : owner.Heads head)
      (hd : owner.isDocument = true) (hi : Sheet ending false children inner)
      (he : ending = .between ∨ ending = .prelude []) (hc : closer.token = .closing .curly) :
      Sheet .between false (ns ++ [owner.node children closer.lastOffset])
        (ls ++ (head ++ (inner ++ [closer])))
  /-- An at-rule that is cut short ends with its last lexeme outside of brackets that is not white
  space. -/
  | cutShort {ns : List (Node Nat)} {nesting : List Bracket}
      {ls kept lost spaces : List Lexeme} {keyword : Lexeme} {name : String}
      (h : Sheet .between false ns ls) (hk : keyword.token = .atKeyword name)
      (hp : PreludeParts nesting kept lost) (hl : (kept.getLastD keyword).token ≠ .space)
      (hs : ∀ l ∈ spaces, l.token = .space) (hn : nesting ≠ [] → spaces = []) :
      Sheet (.prelude nesting) false
        (ns ++ [.atRule name (paramsBetween keyword (kept.getLastD keyword)) []
          ⟨keyword.start.offset, (kept.getLastD keyword).lastOffset⟩])
        (ls ++ (keyword :: (kept ++ lost ++ spaces)))
  /-- A selector without a block makes up no node. -/
  | selector {ns : List (Node Nat)} {nesting : List Bracket} {ls selector : List Lexeme}
      {first : Lexeme} (h : Sheet .between false ns ls)
      (hs : Leaves Token.InSelector nesting selector) (hf : selector.head? = some first)
      (hb : first.token.BeginsRule) : Sheet .selector false ns (ls ++ selector)
  /-- A block that is open makes up a node that ends with the last lexeme. -/
  | openBlock {ns : List (Node Nat)} {nesting : List Bracket} {ls head body : List Lexeme}
      {owner : Owner} {last : Lexeme} (h : Sheet .between false ns ls) (hh : owner.Heads head)
      (hd : owner.isDocument = false) (hb : Leaves (· ≠ .closing .curly) nesting body)
      (hl : (head ++ body).getLast? = some last) :
      Sheet .block true (ns ++ [owner.node [] last.lastOffset]) (ls ++ (head ++ body))
  /-- So does a document block that is open. -/
  | openDocument {ending : Ending} {isOpen : Bool} {ns children : List (Node Nat)}
      {ls head inner : List Lexeme} {owner : Owner} {last : Lexeme}
      (h : Sheet .between false ns ls) (hh : owner.Heads head) (hd : owner.isDocument = true)
      (hi : Sheet ending isOpen children inner) (hl : (head ++ inner).getLast? = some last) :
      Sheet ending true (ns ++ [owner.node children last.lastOffset]) (ls ++ (head ++ inner))

theorem Owner.Heads.ne_nil {owner : Owner} {head : List Lexeme} (h : owner.Heads head) :
    head ≠ [] := by
  cases h <;> simp

/-! ## Preludes as balanced lexemes -/

section Preludes

variable {nesting : List Bracket} {kept lost : List Lexeme} {l : Lexeme}

theorem PreludeParts.leaves (h : PreludeParts nesting kept lost) :
    Leaves Token.InPrelude nesting (kept ++ lost) := by
  cases h with
  | nil => exact .none .nil
  | mark h hok hl =>
    rw [List.append_nil]
    exact .none (.mark h hok hl)
  | inside h hok hl hms =>
    rw [List.append_assoc]
    exact .around h hok hl hms
  | group h hok hl hms hm =>
    rw [List.append_assoc]
    exact .none (.group h hok hl hms hm)

theorem PreludeParts.balanced (h : PreludeParts [] kept lost) :
    Balanced Token.InPrelude (kept ++ lost) := h.leaves.balanced

theorem PreludeParts.opener (h : PreludeParts nesting kept lost) (hlost : lost ≠ []) :
    ∃ init opener b, kept = init ++ [opener] ∧ opener.token = .opening b ∧
      Balanced Token.InPrelude init := by
  cases h with
  | nil => exact absurd rfl hlost
  | mark => exact absurd rfl hlost
  | inside h hok hl => exact ⟨_, _, _, rfl, hl, h⟩
  | group h hok hl => exact ⟨_, _, _, rfl, hl, h⟩

theorem PreludeParts.snoc (h : PreludeParts [] kept lost) (hok : l.token.InPrelude) :
    PreludeParts (nestingAfter l.token []) (kept ++ lost ++ [l]) [] := by
  by_cases hopen : ∃ b, l.token = .opening b
  · obtain ⟨b, hb⟩ := hopen
    rw [hb, nestingAfter_opening]
    have hinside : PreludeParts ([] ++ [b]) (kept ++ lost ++ [l]) [] :=
      .inside h.balanced hok hb (.none .nil)
    exact hinside
  · rw [not_exists] at hopen
    rw [nestingAfter_nil hopen]
    exact .mark h.balanced hok hopen

theorem PreludeParts.snocInside (h : PreludeParts nesting kept lost) (hn : nesting ≠ []) :
    PreludeParts (nestingAfter l.token nesting) kept (lost ++ [l]) := by
  cases h with
  | nil => exact absurd rfl hn
  | mark => exact absurd rfl hn
  | group => exact absurd rfl hn
  | inside h hok hl hms =>
    rcases hms.inside (l := l) with ⟨hnil, henclosed, hclose⟩ | ⟨nesting', hnesting, hleaves⟩
    · rw [hnil]
      exact .group h hok hl henclosed hclose
    · rw [hnesting]
      exact .inside h hok hl hleaves

end Preludes

end Userstyle.Css
