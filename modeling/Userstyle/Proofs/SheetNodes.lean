import Userstyle.Proofs.SheetRuns

/-!
# The nodes of a style sheet and their lexemes

Every node of a style sheet, at whatever depth, comes from one place in the grammar. `Node.ReadIn`
names this place among all lexemes of the text, with the lexemes before and behind it.
-/

namespace Userstyle.Css

open Source Text

/-! ## Nodes at every depth -/

/-- The node is one of the nodes or occurs in the block of one of them. -/
inductive Node.Occurs {α : Type} (n : Node α) : List (Node α) → Prop where
  | top {ns : List (Node α)} (h : n ∈ ns) : Occurs n ns
  | deep {ns : List (Node α)} {m : Node α} (hm : m ∈ ns) (h : Occurs n m.children) : Occurs n ns

namespace Node

section

variable {α β : Type} {n m : Node α} {ns ms : List (Node α)}

theorem not_occurs_nil : ¬n.Occurs [] := by
  intro h
  cases h with
  | top h => cases h
  | deep hm => cases hm

theorem occurs_append : n.Occurs (ns ++ ms) ↔ n.Occurs ns ∨ n.Occurs ms := by
  constructor
  · intro h
    cases h with
    | top h => exact (List.mem_append.mp h).imp .top .top
    | deep hm h =>
      exact (List.mem_append.mp hm).imp (fun hm => .deep hm h) (fun hm => .deep hm h)
  · rintro (h | h)
    · cases h with
      | top h => exact .top (List.mem_append_left ms h)
      | deep hm h => exact .deep (List.mem_append_left ms hm) h
    · cases h with
      | top h => exact .top (List.mem_append_right ns h)
      | deep hm h => exact .deep (List.mem_append_right ns hm) h

theorem occurs_singleton : n.Occurs [m] ↔ n = m ∨ n.Occurs m.children := by
  constructor
  · intro h
    cases h with
    | top h => exact Or.inl (List.mem_singleton.mp h)
    | deep hm h =>
      rw [List.mem_singleton.mp hm] at h
      exact Or.inr h
  · rintro (rfl | h)
    · exact .top (List.mem_singleton_self n)
    · exact .deep (List.mem_singleton_self m) h

/-- The nodes that occur among nodes with other places are those that occur, with other places. -/
theorem occurs_map {f : α → β} {k : Node β} (h : k.Occurs (ns.map (Node.map f))) :
    ∃ n : Node α, n.Occurs ns ∧ k = n.map f := by
  generalize hks : ns.map (Node.map f) = ks at h
  induction h generalizing ns with
  | top h =>
    subst hks
    obtain ⟨n, hn, rfl⟩ := List.mem_map.mp h
    exact ⟨n, .top hn, rfl⟩
  | deep hm _ ih =>
    subst hks
    obtain ⟨m, hmem, rfl⟩ := List.mem_map.mp hm
    obtain ⟨n, hn, rfl⟩ := ih (children_map f m).symm
    exact ⟨n, .deep hmem hn, rfl⟩

end

/-! ## Where a node is read -/

/-- How the node is read among all lexemes of a text. The flag tells whether the block of a node may
be open at the end of the text. -/
inductive ReadIn (all : List Lexeme) : Bool → Node Nat → Prop where
  | leaf {mayOpen : Bool} {n : Node Nat} {a ms b : List Lexeme} (hall : all = a ++ (ms ++ b))
      (hn : Leaf n ms) : ReadIn all mayOpen n
  | document {mayOpen : Bool} {ending : Ending} {children : List (Node Nat)}
      {a head inner b : List Lexeme} {owner : Owner} {closer : Lexeme}
      (hall : all = a ++ (head ++ (inner ++ closer :: b))) (hh : owner.Heads head)
      (hd : owner.isDocument = true) (hi : Sheet ending false children inner)
      (he : ending = .between ∨ ending = .prelude []) (hc : closer.token = .closing .curly) :
      ReadIn all mayOpen (owner.node children closer.lastOffset)
  | cutShort {mayOpen : Bool} {nesting : List Bracket} {a kept lost spaces b : List Lexeme}
      {keyword : Lexeme} {name : String}
      (hall : all = a ++ (keyword :: (kept ++ lost ++ spaces) ++ b))
      (hk : keyword.token = .atKeyword name) (hp : PreludeParts nesting kept lost)
      (hl : (kept.getLastD keyword).token ≠ .space) (hs : ∀ l ∈ spaces, l.token = .space)
      (hb : b = [] ∨ nesting = [] ∧ ∃ l ls, b = l :: ls ∧ l.token = .closing .curly) :
      ReadIn all mayOpen (.atRule name (paramsBetween keyword (kept.getLastD keyword)) []
        ⟨keyword.start.offset, (kept.getLastD keyword).lastOffset⟩)
  | openBlock {nesting : List Bracket} {a head body : List Lexeme} {owner : Owner} {last : Lexeme}
      (hall : all = a ++ (head ++ body)) (hh : owner.Heads head) (hd : owner.isDocument = false)
      (hb : Leaves (· ≠ .closing .curly) nesting body) (hl : (head ++ body).getLast? = some last) :
      ReadIn all true (owner.node [] last.lastOffset)
  | openDocument {ending : Ending} {isOpen : Bool} {children : List (Node Nat)}
      {a head inner : List Lexeme} {owner : Owner} {last : Lexeme}
      (hall : all = a ++ (head ++ inner)) (hh : owner.Heads head) (hd : owner.isDocument = true)
      (hi : Sheet ending isOpen children inner) (he : ending ≠ .selector)
      (hl : (head ++ inner).getLast? = some last) :
      ReadIn all true (owner.node children last.lastOffset)

theorem ReadIn.mayOpen {all : List Lexeme} {n : Node Nat} (h : ReadIn all false n)
    (mayOpen : Bool) : ReadIn all mayOpen n := by
  cases h with
  | leaf hall hn => exact .leaf hall hn
  | document hall hh hd hi he hc => exact .document hall hh hd hi he hc
  | cutShort hall hk hp hl hs hb => exact .cutShort hall hk hp hl hs hb

end Node

theorem Leaf.children {n : Node Nat} {ms : List Lexeme} (h : Leaf n ms) : n.children = [] := by
  cases h with
  | comment => rfl
  | statement => rfl
  | @block owner => cases owner <;> rfl

theorem Owner.children_node {owner : Owner} (hd : owner.isDocument = true)
    (children : List (Node Nat)) (last : Nat) : (owner.node children last).children = children := by
  cases owner with
  | rule first => cases hd
  | atRule keyword name params => rfl

/-- What may stand behind a sheet with the ending. -/
def Ending.Before : Ending → List Lexeme → Prop
  | .between, _ => True
  | .prelude [], b => b = [] ∨ ∃ l ls, b = l :: ls ∧ l.token = .closing .curly
  | _, b => b = []

theorem Ending.before_nil (ending : Ending) : ending.Before [] := by
  unfold Before
  split
  · trivial
  · exact Or.inl rfl
  · rfl

theorem Ending.before_closer {ending : Ending} {closer : Lexeme} (ls : List Lexeme)
    (he : ending = .between ∨ ending = .prelude []) (hc : closer.token = .closing .curly) :
    ending.Before (closer :: ls) := by
  rcases he with rfl | rfl
  · trivial
  · exact Or.inr ⟨closer, ls, rfl, hc⟩

theorem Sheet.readIn {ending : Ending} {isOpen : Bool} {ns : List (Node Nat)}
    {all ls a b : List Lexeme} (h : Sheet ending isOpen ns ls) (hall : all = a ++ (ls ++ b))
    (hb : ending.Before b) (ho : isOpen = true → b = []) (hne : ending ≠ .selector) {n : Node Nat}
    (hn : n.Occurs ns) : n.ReadIn all isOpen := by
  induction h generalizing a b with
  | nil => exact absurd hn Node.not_occurs_nil
  | @gap ns ls l h hl ih =>
    rw [List.append_assoc] at hall
    exact ih hall trivial Bool.noConfusion Ending.noConfusion hn
  | @leaf ns ls ms m h hm ih =>
    rw [List.append_assoc] at hall
    rcases Node.occurs_append.mp hn with hn | hn
    · exact ih hall trivial Bool.noConfusion Ending.noConfusion hn
    · rcases Node.occurs_singleton.mp hn with rfl | hn
      · rw [← List.append_assoc] at hall
        exact .leaf hall hm
      · rw [hm.children] at hn
        exact absurd hn Node.not_occurs_nil
  | @document ending ns children ls head inner owner closer h hh hd hi he hc ih ihi =>
    rcases Node.occurs_append.mp hn with hn | hn
    · rw [List.append_assoc] at hall
      exact ih hall trivial Bool.noConfusion Ending.noConfusion hn
    · rcases Node.occurs_singleton.mp hn with rfl | hn
      · have hplace : all = (a ++ ls) ++ (head ++ (inner ++ closer :: b)) := by simp [hall]
        exact .document hplace hh hd hi he hc
      · rw [Owner.children_node hd] at hn
        have hplace : all = (a ++ ls ++ head) ++ (inner ++ closer :: b) := by simp [hall]
        refine ihi hplace (Ending.before_closer b he hc) Bool.noConfusion ?_ hn
        rcases he with rfl | rfl <;> exact Ending.noConfusion
  | @cutShort ns nesting ls kept lost spaces keyword name h hk hp hl hs hspaces ih =>
    rcases Node.occurs_append.mp hn with hn | hn
    · rw [List.append_assoc] at hall
      exact ih hall trivial Bool.noConfusion Ending.noConfusion hn
    · rcases Node.occurs_singleton.mp hn with rfl | hn
      · have hplace : all = (a ++ ls) ++ (keyword :: (kept ++ lost ++ spaces) ++ b) := by
          simp [hall]
        refine .cutShort hplace hk hp hl hs ?_
        cases nesting with
        | nil => exact hb.imp_right fun hcloser => ⟨rfl, hcloser⟩
        | cons => exact Or.inl hb
      · exact absurd hn Node.not_occurs_nil
  | @selector ns nesting ls selector first h hs hf hbegins ih =>
    rw [List.append_assoc] at hall
    exact ih hall trivial Bool.noConfusion Ending.noConfusion hn
  | @openBlock ns nesting ls head body owner last h hh hd hbody hl ih =>
    rcases Node.occurs_append.mp hn with hn | hn
    · rw [List.append_assoc] at hall
      exact (ih hall trivial Bool.noConfusion Ending.noConfusion hn).mayOpen true
    · rcases Node.occurs_singleton.mp hn with rfl | hn
      · have hplace : all = (a ++ ls) ++ (head ++ body) := by simp [hall, ho rfl]
        exact .openBlock hplace hh hd hbody hl
      · cases owner <;> exact absurd hn Node.not_occurs_nil
  | @openDocument ending isOpen ns children ls head inner owner last h hh hd hi hl ih ihi =>
    rcases Node.occurs_append.mp hn with hn | hn
    · rw [List.append_assoc] at hall
      exact (ih hall trivial Bool.noConfusion Ending.noConfusion hn).mayOpen true
    · rcases Node.occurs_singleton.mp hn with rfl | hn
      · have hplace : all = (a ++ ls) ++ (head ++ inner) := by simp [hall, ho rfl]
        exact .openDocument hplace hh hd hi hne hl
      · rw [Owner.children_node hd] at hn
        have hplace : all = (a ++ ls ++ head) ++ (inner ++ []) := by simp [hall, ho rfl]
        have hread := ihi hplace (Ending.before_nil ending) (fun _ => rfl) hne hn
        cases isOpen with
        | true => exact hread
        | false => exact hread.mayOpen true

/-- Every node of a text, at whatever depth, is read in the lexemes of the text. If a block may be
open at its end, a closing curly bracket is the last character. -/
theorem readNodes_readIn {text : List Char} {ns : List (Node Nat)} (h : readNodes text = .ok ns) :
    ∃ mayOpen, (mayOpen = true → text.getLast? = some '\x7d') ∧
      ∀ n : Node Nat, n.Occurs ns → n.ReadIn (lexemes (.start text)) mayOpen := by
  obtain ⟨ending, isOpen, hsheet, hne, hopen⟩ := readNodes_sheet h
  refine ⟨isOpen, hopen, fun n hn => ?_⟩
  have hplace : lexemes (.start text) = [] ++ (lexemes (.start text) ++ []) := by simp
  exact hsheet.readIn hplace (Ending.before_nil ending) (fun _ => rfl) hne hn

end Userstyle.Css
