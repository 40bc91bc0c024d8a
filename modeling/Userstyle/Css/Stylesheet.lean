import Userstyle.Css.Node
import Userstyle.Logged
import Userstyle.Text.Blank

/-!
# Splitting a style sheet into nodes

The lexemes of a style sheet are read one after the other by a machine that knows what it is in the
middle of (`Mode`) and which `@-moz-document` blocks are open around it (`Document`). `Reader.step`
takes one lexeme and `Reader.finish` the end of the text.

Two rules decide the places in errors and parameters. The place at which the next lexeme is asked
for is the end of the one before; but behind an opening bracket the block is passed over only when
the lexeme after it is asked for, so that place is the one just behind the bracket. And a block
that is open when the text ends counts as closed there if the last character of the text is a
closing curly bracket.
-/

namespace Userstyle.Css

open Source Text

/-- A syntax issue and the byte offset that it is reported at. -/
structure Fault where
  /-- What is wrong. -/
  issue : SyntaxIssue
  /-- Where it is. -/
  offset : Nat
  deriving DecidableEq, Repr

/-- What an open block belongs to. -/
inductive Owner where
  /-- A rule, by the first lexeme of its selector. -/
  | rule (first : Lexeme)
  /-- An at-rule, by its keyword, with its name and its parameters. -/
  | atRule (keyword : Lexeme) (name params : String)
  deriving DecidableEq, Repr

/-- The finished node of an owner. -/
def Owner.node (owner : Owner) (children : List (Node Nat)) (last : Nat) : Node Nat :=
  match owner with
  | .rule first => .rule ⟨first.start.offset, last⟩
  | .atRule keyword name params => .atRule name params children ⟨keyword.start.offset, last⟩

/-- The at-rule whose prelude is being read. -/
structure Prelude where
  /-- The lexeme of the at-keyword. -/
  keyword : Lexeme
  /-- The name of the at-rule. -/
  name : String
  /-- The last lexeme so far that is not white space. -/
  last : Lexeme
  /-- The place at which the next lexeme is asked for. -/
  asked : Place
  /-- The brackets that are open in the prelude, innermost first. -/
  nesting : List Bracket
  deriving DecidableEq, Repr

/-- The trimmed text of a prelude up to a place. -/
def Prelude.params (p : Prelude) (stop : Place) : String :=
  String.ofList (trim (p.keyword.stop.textTo stop))

/-- The at-rule as a statement that ends with the lexeme `last`. -/
def Prelude.statement (p : Prelude) (stop : Place) (last : Nat) : Node Nat :=
  .atRule p.name (p.params stop) [] ⟨p.keyword.start.offset, last⟩

/-- The at-rule as a statement that was cut short by the end of the text or of a block. -/
def Prelude.cutShort (p : Prelude) : Node Nat := p.statement p.last.stop p.last.lastOffset

/-- What the reader is in the middle of. -/
inductive Mode where
  /-- It is between two nodes. -/
  | between
  /-- It is in the prelude of an at-rule. -/
  | prelude (p : Prelude)
  /-- It is in the selector of a rule, with brackets open in it, innermost first. -/
  | selector (first : Lexeme) (asked : Place) (nesting : List Bracket)
  /-- It is in a block that is not split, with brackets open in it, innermost first. -/
  | block (owner : Owner) (nesting : List Bracket)
  deriving DecidableEq, Repr

/-- An `@-moz-document` block that is open. -/
structure Document where
  /-- The rule that the block belongs to. -/
  owner : Owner
  /-- The nodes before that rule. -/
  before : List (Node Nat)

/-- The state of reading a style sheet. -/
structure Reader where
  /-- What the reader is in the middle of. -/
  mode : Mode
  /-- The nodes read so far in the innermost open document block or, without one, in the sheet. -/
  nodes : List (Node Nat)
  /-- The open document blocks, innermost first. -/
  documents : List Document

/-- The open brackets behind a lexeme that is read inside of brackets. A closing bracket that does
not match the innermost open one changes nothing. -/
def nestingAfter (t : Token) : List Bracket → List Bracket
  | [] =>
    match t with
    | .opening b => [b]
    | _ => []
  | b :: outer =>
    match t with
    | .opening c => c :: b :: outer
    | .closing c => if c = b then outer else b :: outer
    | _ => b :: outer

namespace Reader

/-- The state before the first lexeme. -/
def start : Reader := ⟨.between, [], []⟩

/-- Adds a finished node. -/
def push (r : Reader) (n : Node Nat) : Reader :=
  { r with mode := .between, nodes := r.nodes ++ [n] }

/-- Closes the innermost document block, whose last character is at the offset `last`. -/
def closeDocument (r : Reader) (d : Document) (outer : List Document) (last : Nat) : Reader :=
  ⟨.between, d.before ++ [d.owner.node r.nodes last], outer⟩

/-- Takes a lexeme of a selector, outside of brackets. -/
def stepSelector (r : Reader) (first : Lexeme) (asked : Place) (l : Lexeme) :
    Except Fault Reader :=
  match l.token with
  | .opening .curly => .ok { r with mode := .block (.rule first) [.curly] }
  | .semicolon => .error ⟨.unexpectedSemicolon, asked.offset⟩
  | .badString => .error ⟨.badString, asked.offset⟩
  | .badUrl => .error ⟨.badUrl, asked.offset⟩
  | .closing .curly =>
    match r.documents with
    | [] => .error ⟨.strayToken '\x7d', asked.offset⟩
    | _ :: _ => .error ⟨.missingBlock, asked.offset⟩
  | .closing b => .error ⟨.strayToken b.closer, asked.offset⟩
  | t => .ok { r with mode := .selector first l.stop (nestingAfter t []) }

/-- Takes a lexeme of a prelude, outside of brackets. -/
def stepPrelude (r : Reader) (p : Prelude) (l : Lexeme) : Except Fault Reader :=
  match l.token with
  | .semicolon => .ok (r.push (p.statement p.asked l.lastOffset))
  | .opening .curly =>
    let owner := .atRule p.keyword p.name (p.params p.asked)
    if isDocumentName p.name then
      .ok ⟨.between, [], ⟨owner, r.nodes⟩ :: r.documents⟩
    else .ok { r with mode := .block owner [.curly] }
  | .badString => .error ⟨.badString, p.asked.offset⟩
  | .badUrl => .error ⟨.badUrl, p.asked.offset⟩
  | .closing .curly =>
    match r.documents with
    | [] => .error ⟨.strayToken '\x7d', p.asked.offset⟩
    | d :: outer => .ok ((r.push p.cutShort).closeDocument d outer l.lastOffset)
  | .space => .ok { r with mode := .prelude { p with asked := l.stop } }
  | t =>
    let p := { p with last := l, asked := l.stop, nesting := nestingAfter t [] }
    .ok { r with mode := .prelude p }

/-- Takes a lexeme between two nodes. -/
def stepBetween (r : Reader) (l : Lexeme) : Except Fault Reader :=
  match l.token with
  | .space | .commentOpen | .commentClose => .ok r
  | .comment => .ok (r.push (.comment ⟨l.start.offset, l.lastOffset⟩))
  | .atKeyword name => .ok { r with mode := .prelude ⟨l, name, l, l.stop, []⟩ }
  | .closing .curly =>
    match r.documents with
    | [] => r.stepSelector l l.start l
    | d :: outer => .ok (r.closeDocument d outer l.lastOffset)
  | _ => r.stepSelector l l.start l

/-- Takes the next lexeme. -/
def step (r : Reader) (l : Lexeme) : Except Fault Reader :=
  match r.mode with
  | .between => r.stepBetween l
  | .prelude p =>
    match p.nesting with
    | [] => r.stepPrelude p l
    | nesting =>
      .ok { r with mode := .prelude { p with nesting := nestingAfter l.token nesting } }
  | .selector first asked nesting =>
    match nesting with
    | [] => r.stepSelector first asked l
    | nesting => .ok { r with mode := .selector first asked (nestingAfter l.token nesting) }
  | .block owner nesting =>
    match nestingAfter l.token nesting with
    | [] => .ok (r.push (owner.node [] l.lastOffset))
    | nesting => .ok { r with mode := .block owner nesting }

/-- Takes lexemes one after the other. -/
def run (r : Reader) : List Lexeme → Except Fault Reader
  | [] => .ok r
  | l :: ls =>
    match r.step l with
    | .ok r' => r'.run ls
    | .error e => .error e

/-- The nodes of the sheet when document blocks, innermost first, all end with the character at the
offset `last`, and `nodes` are those in the innermost one. -/
def nodesAround (last : Nat) (nodes : List (Node Nat)) : List Document → List (Node Nat)
  | [] => nodes
  | d :: outer => nodesAround last (d.before ++ [d.owner.node nodes last]) outer

/-- Closes the open document blocks at the end of the text, given the offset of a closing curly
bracket that is the last character of the text, if there is one. -/
def closeAll (r : Reader) (stop : Nat) (last? : Option Nat) : Except Fault (List (Node Nat)) :=
  match r.documents, last? with
  | [], _ => .ok r.nodes
  | _ :: _, none => .error ⟨.unclosedBlock, stop⟩
  | _ :: _, some last => .ok (nodesAround last r.nodes r.documents)

/-- Takes the end of the text. -/
def finish (r : Reader) (stop : Nat) (last? : Option Nat) : Except Fault (List (Node Nat)) :=
  match r.mode with
  | .between => r.closeAll stop last?
  | .prelude p => (r.push p.cutShort).closeAll stop last?
  | .selector _ asked _ => .error ⟨.missingBlock, asked.offset⟩
  | .block owner _ =>
    match last? with
    | none => .error ⟨.unclosedBlock, stop⟩
    | some last => (r.push (owner.node [] last)).closeAll stop last?

end Reader

/-- The offset of the last character of a text if it is a closing curly bracket. -/
def closingOffset? (text : List Char) : Option Nat :=
  if text.getLast? = some '\x7d' then some (byteLength text.dropLast) else none

/-- Splits a text into nodes with byte offsets. -/
def readNodes (text : List Char) : Except Fault (List (Node Nat)) :=
  match Reader.start.run (lexemes (.start text)) with
  | .error e => .error e
  | .ok r => r.finish (byteLength text) (closingOffset? text)

/-- How many lines end in a text. A carriage return and the line feed behind it end one line. -/
def lineBreaks : List Char → Nat
  | [] => 0
  | '\r' :: '\n' :: r => 1 + lineBreaks r
  | c :: r => (if isNewline c then 1 else 0) + lineBreaks r

/-- The text behind the last end of a line. -/
def lastLine (s : List Char) : List Char := (s.reverse.takeWhile fun c => !isNewline c).reverse

/-- The error of a fault. Line and column are those of the tokens of CSS: lines end with any of the
characters that end a line there, and columns count UTF-16 units. -/
def Fault.error (f : Fault) (text : List Char) : Error :=
  let before := takeBytes f.offset text
  .invalidCss f.issue (lineBreaks before + 1) (unitLength (lastLine before) + 1)

/-- Splits a style sheet into its top-level nodes. -/
def parse (text : String) : Except Error (List (Node Position)) :=
  match readNodes text.toList with
  | .error fault => .error (fault.error text.toList)
  | .ok nodes => .ok (Node.locateAll (.start text.toList) nodes).1

/-- Splits a style sheet into its top-level nodes and records how many there are. -/
def parseLogged (text : String) : Logged (List (Node Position)) := do
  let nodes ← .ofExcept (parse text)
  .record (.parsed nodes.length)
  return nodes

/-- The text without the byte-order mark that it may begin with. -/
def withoutMark (text : String) : String :=
  match text.toList with
  | '\ufeff' :: r => String.ofList r
  | _ => text

end Userstyle.Css
