import Userstyle.Proofs.ReaderMoves
import Userstyle.Proofs.Words

/-!
# What the tokens of a style sheet say

The kinds and names of the nodes of a style sheet are decided by its tokens alone. A `Sketch` is a
reader without the places in the text: it takes a token where the reader takes a lexeme, and at
every step it is the sketch of the reader (`Reader.sketch_step`). So the outlines of the nodes that
a text splits into are those that a sketch finds in its tokens (`outlines_readNodes`).
-/

namespace Userstyle.Css

open Source

/-- The kind of a node and, for an at-rule, its name. -/
inductive Outline where
  | rule
  | atRule (name : String)
  | comment
  deriving DecidableEq, Repr

/-- The kind of a node, with its name if it is an at-rule. -/
def Node.outline {α : Type} : Node α → Outline
  | .rule _ => .rule
  | .atRule name _ _ _ => .atRule name
  | .comment _ => .comment

/-- What a sketch is in the middle of. -/
inductive Stage where
  /-- It is between two nodes. -/
  | between
  /-- It is in the prelude of an at-rule, with brackets open in it. -/
  | prelude (name : String) (nesting : List Bracket)
  /-- It is in the selector of a rule, with brackets open in it. -/
  | selector (nesting : List Bracket)
  /-- It is in a block that is not split, with brackets open in it. -/
  | block (outline : Outline) (nesting : List Bracket)
  deriving DecidableEq, Repr

/-- A reader without places: the outlines of the nodes read so far, and those of the open document
blocks, each with the outlines of the nodes before it. -/
structure Sketch where
  stage : Stage
  nodes : List Outline
  frames : List (Outline × List Outline)
  deriving DecidableEq, Repr

namespace Sketch

/-- The sketch before the first token. -/
def start : Sketch := ⟨.between, [], []⟩

/-- Adds a finished node. -/
def push (s : Sketch) (o : Outline) : Sketch :=
  { s with stage := .between, nodes := s.nodes ++ [o] }

/-- Closes the innermost document block. -/
def close (s : Sketch) : Option Sketch :=
  match s.frames with
  | [] => none
  | (o, before) :: outer => some ⟨.between, before ++ [o], outer⟩

/-- Takes a token of a selector, outside of brackets. -/
def stepSelector (s : Sketch) (t : Token) : Option Sketch :=
  if t = .opening .curly then some { s with stage := .block .rule [.curly] }
  else if t.continuesSelector then some { s with stage := .selector (nestingAfter t []) }
  else none

/-- Takes a token of a prelude, outside of brackets. -/
def stepPrelude (s : Sketch) (name : String) (t : Token) : Option Sketch :=
  match t with
  | .semicolon => some (s.push (.atRule name))
  | .opening .curly =>
    if isDocumentName name then some ⟨.between, [], (.atRule name, s.nodes) :: s.frames⟩
    else some { s with stage := .block (.atRule name) [.curly] }
  | .closing .curly => (s.push (.atRule name)).close
  | .badString | .badUrl => none
  | .space => some { s with stage := .prelude name [] }
  | t => some { s with stage := .prelude name (nestingAfter t []) }

/-- Takes a token between two nodes. -/
def stepBetween (s : Sketch) (t : Token) : Option Sketch :=
  match t with
  | .space | .commentOpen | .commentClose => some s
  | .comment => some (s.push .comment)
  | .atKeyword name => some { s with stage := .prelude name [] }
  | .closing .curly => s.close
  | t => s.stepSelector t

/-- Takes the next token. -/
def step (s : Sketch) (t : Token) : Option Sketch :=
  match s.stage with
  | .between => s.stepBetween t
  | .prelude name [] => s.stepPrelude name t
  | .prelude name nesting => some { s with stage := .prelude name (nestingAfter t nesting) }
  | .selector [] => s.stepSelector t
  | .selector nesting => some { s with stage := .selector (nestingAfter t nesting) }
  | .block o nesting =>
    match nestingAfter t nesting with
    | [] => some (s.push o)
    | nesting => some { s with stage := .block o nesting }

/-- Takes tokens one after the other. -/
def run (s : Sketch) : List Token → Option Sketch
  | [] => some s
  | t :: ts => (s.step t).bind fun s' => s'.run ts

/-- The outlines of the nodes when all open document blocks end. -/
def around (nodes : List Outline) : List (Outline × List Outline) → List Outline
  | [] => nodes
  | (o, before) :: outer => around (before ++ [o]) outer

/-- Closes the open document blocks at the end of the text, if its last character can close them. -/
def closeAll (s : Sketch) (closed : Bool) : Option (List Outline) :=
  if s.frames = [] ∨ closed then some (around s.nodes s.frames) else none

/-- Takes the end of the text. -/
def finish (s : Sketch) (closed : Bool) : Option (List Outline) :=
  match s.stage with
  | .between => s.closeAll closed
  | .prelude name _ => (s.push (.atRule name)).closeAll closed
  | .selector _ => none
  | .block o _ => if closed then (s.push o).closeAll closed else none

theorem run_append (s : Sketch) (ts us : List Token) :
    s.run (ts ++ us) = (s.run ts).bind fun s' => s'.run us := by
  induction ts generalizing s with
  | nil => rfl
  | cons t ts ih =>
    rw [List.cons_append, run, run, Option.bind_assoc]
    exact congrArg _ (funext fun s' => ih s')

end Sketch

/-- The outline of the node that a block belongs to. -/
def Owner.outline : Owner → Outline
  | .rule _ => .rule
  | .atRule _ name _ => .atRule name

@[simp] theorem Owner.outline_node (owner : Owner) (children : List (Node Nat)) (last : Nat) :
    (owner.node children last).outline = owner.outline := by
  cases owner <;> rfl

/-- What a reader is in the middle of, without places. -/
def Mode.stage : Mode → Stage
  | .between => .between
  | .prelude p => .prelude p.name p.nesting
  | .selector _ _ nesting => .selector nesting
  | .block owner nesting => .block owner.outline nesting

/-- The outlines in an open document block. -/
def Document.frame (d : Document) : Outline × List Outline :=
  (d.owner.outline, d.before.map Node.outline)

namespace Reader

/-- A reader without places. -/
def sketch (r : Reader) : Sketch :=
  ⟨r.mode.stage, r.nodes.map Node.outline, r.documents.map Document.frame⟩

theorem sketch_push (r : Reader) (n : Node Nat) : (r.push n).sketch = r.sketch.push n.outline := by
  simp [sketch, push, Sketch.push, Mode.stage]

theorem sketch_closeDocument (r : Reader) (d : Document) (outer : List Document) (last : Nat)
    (hd : r.documents = d :: outer) :
    some (r.closeDocument d outer last).sketch = r.sketch.close := by
  simp [sketch, closeDocument, Sketch.close, hd, Document.frame, Mode.stage]

theorem sketch_stepSelector (r : Reader) (first : Lexeme) (asked : Place) (l : Lexeme) :
    (r.stepSelector first asked l).toOption.map sketch = r.sketch.stepSelector l.token := by
  unfold stepSelector
  cases l.token with
  | opening b => cases b <;> rfl
  | closing b =>
    cases b with
    | curly => cases r.documents <;> rfl
    | round | square => rfl
  | _ => rfl

theorem sketch_stepPrelude (r : Reader) (p : Prelude) (l : Lexeme) (hn : p.nesting = []) :
    (r.stepPrelude p l).toOption.map sketch = r.sketch.stepPrelude p.name l.token := by
  unfold stepPrelude
  cases l.token with
  | semicolon => exact congrArg some (sketch_push r _)
  | opening b =>
    cases b with
    | curly =>
      by_cases hname : isDocumentName p.name = true
      · simp [sketch, Sketch.stepPrelude, hname, Document.frame, Owner.outline, Mode.stage,
          Except.toOption]
      · simp [sketch, Sketch.stepPrelude, hname, Owner.outline, Mode.stage, Except.toOption]
    | round | square => rfl
  | closing b =>
    cases b with
    | curly =>
      cases hd : r.documents with
      | nil => simp [sketch, Sketch.stepPrelude, Sketch.close, Sketch.push, hd, Except.toOption]
      | cons d outer =>
        have hpush : (r.push p.cutShort).documents = d :: outer := hd
        exact (sketch_closeDocument _ d outer _ hpush).trans
          (congrArg Sketch.close (sketch_push r _))
    | round | square => rfl
  | space => simp [sketch, Sketch.stepPrelude, Mode.stage, hn, Except.toOption]
  | _ => rfl

theorem sketch_stepBetween (r : Reader) (l : Lexeme) :
    (r.stepBetween l).toOption.map sketch = r.sketch.stepBetween l.token := by
  have hselect := sketch_stepSelector r l l.start l
  unfold stepBetween
  cases ht : l.token with
  | space | commentOpen | commentClose => rfl
  | comment => exact congrArg some (sketch_push r _)
  | atKeyword name => rfl
  | closing b =>
    cases b with
    | curly =>
      cases hd : r.documents with
      | nil =>
        simp [stepSelector, ht, hd, Sketch.stepBetween, Sketch.close, sketch, Except.toOption]
      | cons d outer => exact sketch_closeDocument r d outer _ hd
    | round | square => rwa [ht] at hselect
  | _ => rwa [ht] at hselect

/-- A step of a reader is a step of its sketch. -/
theorem sketch_step (r : Reader) (l : Lexeme) :
    (r.step l).toOption.map sketch = r.sketch.step l.token := by
  unfold step Sketch.step
  cases hm : r.mode with
  | between =>
    have hstage : r.sketch.stage = .between := by simp [sketch, hm, Mode.stage]
    rw [hstage]
    exact sketch_stepBetween r l
  | prelude p =>
    have hstage : r.sketch.stage = .prelude p.name p.nesting := by simp [sketch, hm, Mode.stage]
    rw [hstage]
    obtain ⟨keyword, name, last, asked, nesting⟩ := p
    cases nesting with
    | nil => exact sketch_stepPrelude r _ l rfl
    | cons b outer => rfl
  | selector first asked nesting =>
    have hstage : r.sketch.stage = .selector nesting := by simp [sketch, hm, Mode.stage]
    rw [hstage]
    cases nesting with
    | nil => exact sketch_stepSelector r first asked l
    | cons b outer => rfl
  | block owner nesting =>
    have hstage : r.sketch.stage = .block owner.outline nesting := by simp [sketch, hm, Mode.stage]
    rw [hstage]
    dsimp only
    cases nestingAfter l.token nesting with
    | nil => exact congrArg some ((sketch_push r _).trans (by rw [Owner.outline_node]))
    | cons b outer => rfl

theorem sketch_run (r : Reader) (ls : List Lexeme) :
    (r.run ls).toOption.map sketch = r.sketch.run (ls.map Lexeme.token) := by
  induction ls generalizing r with
  | nil => rfl
  | cons l ls ih =>
    rw [List.map_cons, Sketch.run, ← sketch_step, run]
    cases r.step l with
    | error e => rfl
    | ok r' => exact ih r'

/-! ## The end of the text -/

theorem outline_nodesAround (last : Nat) (nodes : List (Node Nat)) (ds : List Document) :
    (nodesAround last nodes ds).map Node.outline =
      Sketch.around (nodes.map Node.outline) (ds.map Document.frame) := by
  induction ds generalizing nodes with
  | nil => rfl
  | cons d outer ih =>
    rw [nodesAround, ih, List.map_append, List.map_singleton, Owner.outline_node]
    rfl

theorem sketch_closeAll (r : Reader) (stop : Nat) (last? : Option Nat) :
    (r.closeAll stop last?).toOption.map (·.map Node.outline) =
      r.sketch.closeAll last?.isSome := by
  unfold closeAll Sketch.closeAll
  cases hd : r.documents with
  | nil => simp [sketch, hd, Except.toOption, Sketch.around]
  | cons d outer =>
    cases last? with
    | none => simp [sketch, hd, Except.toOption]
    | some last =>
      simp [sketch, hd, Except.toOption, outline_nodesAround]

theorem sketch_finish (r : Reader) (stop : Nat) (last? : Option Nat) :
    (r.finish stop last?).toOption.map (·.map Node.outline) =
      r.sketch.finish last?.isSome := by
  unfold finish Sketch.finish
  cases hm : r.mode with
  | between =>
    have hstage : r.sketch.stage = .between := by simp [sketch, hm, Mode.stage]
    rw [hstage]
    exact sketch_closeAll r stop last?
  | prelude p =>
    have hstage : r.sketch.stage = .prelude p.name p.nesting := by simp [sketch, hm, Mode.stage]
    rw [hstage]
    have h := sketch_closeAll (r.push p.cutShort) stop last?
    rwa [sketch_push] at h
  | selector first asked nesting =>
    have hstage : r.sketch.stage = .selector nesting := by simp [sketch, hm, Mode.stage]
    rw [hstage]
    rfl
  | block owner nesting =>
    have hstage : r.sketch.stage = .block owner.outline nesting := by simp [sketch, hm, Mode.stage]
    rw [hstage]
    cases last? with
    | none => rfl
    | some last =>
      have h := sketch_closeAll (r.push (owner.node [] last)) stop (some last)
      rwa [sketch_push, Owner.outline_node] at h

end Reader

/-- The outlines of the nodes that a text splits into, by its tokens. -/
def outlinesIn? (text : List Char) : Option (List Outline) :=
  (Sketch.start.run ((words text).map Word.token)).bind fun s =>
    s.finish (text.getLast? == some '\x7d')

/-- The outlines of the nodes that a text splits into are those in its tokens. -/
theorem outlines_readNodes (text : List Char) :
    (readNodes text).toOption.map (·.map Node.outline) = outlinesIn? text := by
  have hclosed : (text.getLast? == some '\x7d') = (closingOffset? text).isSome := by
    unfold closingOffset?
    split <;> simp_all
  have htokens : (words text).map Word.token = (lexemes (.start text)).map Lexeme.token := by
    have h : (lexemes (.start text)).map Lexeme.word = words text := map_word_lexemes (.start text)
    rw [← h, List.map_map]
    rfl
  have hstart : Sketch.start = Reader.start.sketch := rfl
  unfold readNodes outlinesIn?
  rw [hclosed, htokens, hstart, ← Reader.sketch_run]
  cases Reader.start.run (lexemes (.start text)) with
  | error e => rfl
  | ok r => exact r.sketch_finish _ _

end Userstyle.Css
