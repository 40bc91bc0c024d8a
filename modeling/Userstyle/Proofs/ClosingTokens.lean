import Userstyle.Proofs.ClosedBlocks
import Userstyle.Proofs.HeldCharacters

/-!
# Nodes that a token of their own closes

A node may end because the text does: an at-rule that is cut short, a block that is open, a comment
without its closing mark. Whether it does can be told from its lexemes alone, by counting the
brackets in front of the last of them (`closes`). If the last node of a style sheet does not end in
this way, the sheet ends between two nodes and outside of all blocks, and everything behind the last
lexeme of that node is a gap (`Sheet.core`).
-/

namespace Userstyle.Css

open Source Text

/-- The brackets that are open behind lexemes, given those that are open in front of them. -/
def bracketsAfter (nesting : List Bracket) (ls : List Lexeme) : List Bracket :=
  ls.foldl (fun nesting l => nestingAfter l.token nesting) nesting

/-- Whether the lexeme closes what the lexemes in front of it have begun: it is a comment with its
closing mark and nothing is in front of it, or a semicolon outside of all brackets, or the closing
curly bracket of the only bracket that is open. -/
def closes (before : List Lexeme) (l : Lexeme) : Bool :=
  match l.token with
  | .comment => before.isEmpty && ['*', '/'].isSuffixOf (l.text.drop 2)
  | .semicolon => bracketsAfter [] before == []
  | .closing .curly => bracketsAfter [] before == [.curly]
  | _ => false

/-- Those of the lexemes that lie inside of the node. -/
def Node.lexemesIn (n : Node Nat) (all : List Lexeme) : List Lexeme :=
  all.filter fun l => n.span.first ≤ l.start.offset ∧ l.lastOffset ≤ n.span.last

/-- Whether the node is closed by the last of its lexemes. -/
def Node.isClosedIn (n : Node Nat) (all : List Lexeme) : Bool :=
  match (n.lexemesIn all).getLast? with
  | some l => closes (n.lexemesIn all).dropLast l
  | none => false

/-- Whether a style sheet has no nodes or its last one is closed by a token of its own: a semicolon,
a closing curly bracket or the closing mark of a comment. -/
def endsClosed (text : List Char) : Bool :=
  match readNodes text with
  | .ok ns => ns.getLast?.all fun n => n.isClosedIn (lexemes (.start text))
  | .error _ => true

/-! ## Counting brackets -/

section Brackets

variable {ok : Token → Prop} {nesting : List Bracket} {ls ms : List Lexeme} {l : Lexeme}
  {b : Bracket}

theorem bracketsAfter_append (nesting : List Bracket) (ls ms : List Lexeme) :
    bracketsAfter nesting (ls ++ ms) = bracketsAfter (bracketsAfter nesting ls) ms :=
  List.foldl_append

theorem bracketsAfter_snoc (nesting : List Bracket) (ls : List Lexeme) (l : Lexeme) :
    bracketsAfter nesting (ls ++ [l]) = nestingAfter l.token (bracketsAfter nesting ls) :=
  bracketsAfter_append nesting ls [l]

theorem bracketsAfter_cons (nesting : List Bracket) (l : Lexeme) (ls : List Lexeme) :
    bracketsAfter nesting (l :: ls) = bracketsAfter (nestingAfter l.token nesting) ls := rfl

theorem Balanced.bracketsAfter_inside (h : Balanced ok ls) (hok : ∀ t, ok t → t ≠ .closing b)
    (outer : List Bracket) : bracketsAfter (b :: outer) ls = b :: outer := by
  induction h generalizing b outer with
  | nil => rfl
  | mark h hl hopen ih =>
    rw [bracketsAfter_snoc, ih hok, nestingAfter_of_ne outer hopen (hok _ hl)]
  | @group ok ls ms l m c h hl hc hms hm ih ihms =>
    rw [bracketsAfter_append, ih hok, bracketsAfter_cons, hc, nestingAfter_opening,
      bracketsAfter_snoc, ihms (fun _ => id), hm, nestingAfter_closing]

theorem Balanced.bracketsAfter_nil (h : Balanced ok ls) : bracketsAfter [] ls = [] := by
  induction h with
  | nil => rfl
  | mark h hl hopen ih => rw [bracketsAfter_snoc, ih, nestingAfter_nil hopen]
  | group h hl hc hms hm ih ihms =>
    rw [bracketsAfter_append, ih, bracketsAfter_cons, hc, nestingAfter_opening,
      bracketsAfter_snoc, hms.bracketsAfter_inside (fun _ => id), hm, nestingAfter_closing]

theorem Leaves.bracketsAfter_nil (h : Leaves ok nesting ls) : bracketsAfter [] ls = nesting := by
  induction h with
  | none h => exact h.bracketsAfter_nil
  | more h hok hl hms ih =>
    rw [bracketsAfter_append, ih, bracketsAfter_cons, hl, nestingAfter_opening,
      Balanced.bracketsAfter_inside hms (fun _ => id)]

/-- Behind a lexeme that closes what has been begun, no bracket is open. -/
theorem bracketsAfter_of_closes (h : closes ls l = true) : bracketsAfter [] (ls ++ [l]) = [] := by
  rw [bracketsAfter_snoc]
  unfold closes at h
  split at h
  · rename_i ht
    rw [Bool.and_eq_true, List.isEmpty_iff] at h
    rw [ht, h.1]
    rfl
  · rename_i ht
    rw [ht, beq_iff_eq.mp h]
    rfl
  · rename_i ht
    rw [ht, beq_iff_eq.mp h]
    rfl
  · cases h

/-! ## What open blocks hold -/

theorem Leaves.mono {ok' : Token → Prop} (h : Leaves ok nesting ls)
    (hok : ∀ t, ok t → ok' t) : Leaves ok' nesting ls := by
  induction h with
  | none h => exact .none (h.mono hok)
  | more h ht hl hms ih => exact .more ih (fun hn => hok _ (ht hn)) hl hms

theorem Leaves.after (h : Balanced ok ls) (h' : Leaves ok nesting ms) :
    Leaves ok nesting (ls ++ ms) := by
  induction h' with
  | none h' => exact .none (h.append h')
  | more h' ht hl hms ih =>
    rw [← List.append_assoc]
    exact .more ih ht hl hms

/-- The lexemes of a node with an open block leave the bracket of the block open. -/
theorem Owner.Heads.leaves {owner : Owner} {head body : List Lexeme} (h : owner.Heads head)
    (hb : Leaves (· ≠ .closing .curly) nesting body) :
    Leaves (· ≠ .closing .curly) (nesting ++ [.curly]) (head ++ body) := by
  obtain ⟨front, opener, rfl, ho, hfront⟩ := h.opener
  have hopener : opener.token ≠ .closing .curly := by
    rw [ho]
    exact Token.noConfusion
  rw [List.append_assoc]
  exact .around hfront hopener ho hb

/-- Wherever a style sheet ends, it does not close the curly bracket around it. -/
theorem Sheet.leaves {ending : Ending} {isOpen : Bool} {ns : List (Node Nat)}
    (h : Sheet ending isOpen ns ls) : ∃ nesting, Leaves (· ≠ .closing .curly) nesting ls := by
  induction h with
  | nil => exact ⟨[], .none .nil⟩
  | gap h hl => exact ⟨[], .none ((h.gap hl).enclosed (Or.inl rfl))⟩
  | leaf h hn => exact ⟨[], .none ((h.leaf hn).enclosed (Or.inl rfl))⟩
  | document h hh hd hi he hc =>
    exact ⟨[], .none ((h.document hh hd hi he hc).enclosed (Or.inl rfl))⟩
  | @cutShort ns nesting ls kept lost spaces keyword name h hk hp hl hs hn =>
    have hmarks : ∀ t : Token, t.InPrelude → t ≠ .closing .curly := by
      rintro t ht rfl
      exact ht
    have hprelude := (hp.leaves.append_spaces hs).mono hmarks
    refine ⟨nesting, Leaves.after (h.enclosed (Or.inl rfl)) ?_⟩
    exact Leaves.after (enclosed_keyword hk .nil) hprelude
  | @selector ns nesting ls selector first h hs =>
    have hmarks : ∀ t : Token, t.InSelector → t ≠ .closing .curly := by
      rintro t ht rfl
      exact ht
    exact ⟨nesting, Leaves.after (h.enclosed (Or.inl rfl)) (hs.mono hmarks)⟩
  | openBlock h hh hd hb => exact ⟨_, Leaves.after (h.enclosed (Or.inl rfl)) (hh.leaves hb)⟩
  | openDocument h hh hd hi hl ih ihi =>
    obtain ⟨nesting, hleaves⟩ := ihi
    exact ⟨_, Leaves.after (h.enclosed (Or.inl rfl)) (hh.leaves hleaves)⟩

end Brackets

/-! ## The lexemes of a node -/

section Lexemes

variable {n : Node Nat} {all a ms b : List Lexeme} {l : Lexeme}

/-- The lexemes inside of a node are those that it takes up. -/
theorem Covers.lexemesIn (h : Covers n.span ms) (hall : all = a ++ ms ++ b)
    (horder : InOrder all) : n.lexemesIn all = ms := by
  subst hall
  obtain ⟨hams, hb, hmsb⟩ := horder.append
  obtain ⟨ha, hms, hams'⟩ := hams.append
  obtain ⟨⟨first, hfirst, hstart⟩, last, hlast, hend⟩ := h.ends
  have hbefore : a.filter (fun l => n.span.first ≤ l.start.offset ∧
      l.lastOffset ≤ n.span.last) = [] := by
    refine List.filter_eq_nil_iff.mpr fun l hl hin => ?_
    have hin := of_decide_eq_true hin
    have := hams' l hl first hfirst
    have := ha.start_le l hl
    omega
  have hbehind : b.filter (fun l => n.span.first ≤ l.start.offset ∧
      l.lastOffset ≤ n.span.last) = [] := by
    refine List.filter_eq_nil_iff.mpr fun l hl hin => ?_
    have hin := of_decide_eq_true hin
    have := hmsb last (List.mem_append_right a hlast) l hl
    have := hb.start_le l hl
    omega
  have hinside : ms.filter (fun l => n.span.first ≤ l.start.offset ∧
      l.lastOffset ≤ n.span.last) = ms := by
    refine List.filter_eq_self.mpr fun l hl => decide_eq_true ?_
    have hle := hms.start_le l hl
    exact ⟨(h.holds hms hl (Nat.le_refl _) hle).1, (h.holds hms hl hle (Nat.le_refl _)).2⟩
  unfold Node.lexemesIn
  rw [List.filter_append, List.filter_append, hbefore, hbehind, hinside, List.nil_append,
    List.append_nil]

/-- A node that is closed is closed by the last of the lexemes that it takes up. -/
theorem Covers.closes_last (h : Covers n.span ms) (hall : all = a ++ ms ++ b)
    (horder : InOrder all) (hc : n.isClosedIn all = true) :
    ∃ init l, ms = init ++ [l] ∧ closes init l = true := by
  unfold Node.isClosedIn at hc
  rw [h.lexemesIn hall horder] at hc
  split at hc
  · rename_i l hl
    obtain ⟨init, rfl⟩ := List.getLast?_eq_some_iff.mp hl
    rw [List.dropLast_concat] at hc
    exact ⟨init, l, rfl, hc⟩
  · cases hc

/-- An at-rule that is cut short ends with no token that closes it. -/
theorem PreludeParts.not_closes {nesting : List Bracket} {kept lost init : List Lexeme}
    {keyword : Lexeme} {name : String} (h : PreludeParts nesting kept lost)
    (hk : keyword.token = .atKeyword name) (heq : keyword :: kept = init ++ [l]) :
    closes init l ≠ true := by
  intro hc
  unfold closes at hc
  cases init with
  | nil =>
    obtain ⟨rfl, -⟩ := List.cons.inj heq
    rw [hk] at hc
    cases hc
  | cons k init =>
    have hkept : kept = init ++ [l] := (List.cons.inj heq).2
    have hok : l.token.InPrelude := by
      cases h with
      | nil => simp at hkept
      | mark h hok | inside h hok | group h hok =>
        obtain ⟨-, hl⟩ := List.append_inj' hkept rfl
        rwa [← List.singleton_inj.mp hl]
    split at hc
    · cases hc
    · rename_i ht
      rw [ht] at hok
      exact hok
    · rename_i ht
      rw [ht] at hok
      exact hok
    · cases hc

end Lexemes

/-! ## Sheets that end with a closed node -/

section Sheets

variable {all ls : List Lexeme} {ns : List (Node Nat)}

/-- If the last node is closed by a token of its own, the sheet ends outside of all nodes. -/
theorem Sheet.between_of_closed {ending : Ending} {isOpen : Bool} (h : Sheet ending isOpen ns all)
    (he : ending ≠ .selector) (horder : InOrder all)
    (hc : ∀ n ∈ ns.getLast?, n.isClosedIn all = true) : ending = .between ∧ isOpen = false := by
  have hopen {n : Node Nat} {a ms : List Lexeme} {nesting : List Bracket}
      (hall : all = a ++ ms ++ []) (hn : Covers n.span ms) (hclosed : n.isClosedIn all = true)
      (hleaves : Leaves (· ≠ .closing .curly) (nesting ++ [.curly]) ms) : False := by
    obtain ⟨init, l, rfl, hcl⟩ := hn.closes_last hall horder hclosed
    have hnil := bracketsAfter_of_closes hcl
    rw [hleaves.bracketsAfter_nil] at hnil
    simp at hnil
  cases h with
  | nil | gap | leaf | document => exact ⟨rfl, rfl⟩
  | @cutShort ns nesting ls kept lost spaces keyword name h hk hp hl hs hn =>
    have hclosed := hc _ List.getLast?_concat
    have hall : ls ++ keyword :: (kept ++ lost ++ spaces) =
        ls ++ (keyword :: kept) ++ (lost ++ spaces) := by simp
    have hcovers : Covers (Node.atRule name (paramsBetween keyword (kept.getLastD keyword)) []
        ⟨keyword.start.offset, (kept.getLastD keyword).lastOffset⟩).span (keyword :: kept) :=
      covers_cutShort keyword kept
    obtain ⟨init, l, heq, hcl⟩ := hcovers.closes_last hall horder hclosed
    exact absurd hcl (hp.not_closes hk heq)
  | selector => exact absurd rfl he
  | @openBlock ns nesting ls head body owner last h hh hd hb hl =>
    have hall : ls ++ (head ++ body) = ls ++ (head ++ body) ++ [] := (List.append_nil _).symm
    exact (hopen hall (hh.covers [] hl) (hc _ List.getLast?_concat) (hh.leaves hb)).elim
  | @openDocument _ _ ns children ls head inner owner last h hh hd hi hl =>
    obtain ⟨nesting, hleaves⟩ := hi.leaves
    have hall : ls ++ (head ++ inner) = ls ++ (head ++ inner) ++ [] := (List.append_nil _).symm
    exact (hopen hall (hh.covers children hl) (hc _ List.getLast?_concat)
      (hh.leaves hleaves)).elim

/-- A block is closed by its closing curly bracket. -/
theorem Owner.Heads.closes {owner : Owner} {head body : List Lexeme} {closer : Lexeme}
    (h : owner.Heads head) (hb : Enclosed .curly body) (hc : closer.token = .closing .curly) :
    closes (head ++ body) closer = true := by
  have hopen : bracketsAfter [] (head ++ body) = [.curly] := (h.leaves (.none hb)).bracketsAfter_nil
  unfold Css.closes
  rw [hc, hopen]
  rfl

theorem Leaf.closes {n : Node Nat} {ms : List Lexeme} (h : Leaf n ms)
    (hn : n.isComment = false) : ∃ init l, ms = init ++ [l] ∧ closes init l = true := by
  cases h with
  | comment => cases hn
  | @statement keyword semicolon name kept lost hk hp hs =>
    have hnone : bracketsAfter [] (keyword :: (kept ++ lost)) = [] :=
      (enclosed_keyword hk hp.balanced).bracketsAfter_nil
    refine ⟨keyword :: (kept ++ lost), semicolon, rfl, ?_⟩
    unfold Css.closes
    rw [hs, hnone]
    rfl
  | @block owner head body closer hh hd hb hc =>
    exact ⟨head ++ body, closer, (List.append_assoc _ _ _).symm, hh.closes hb hc⟩

/-- The sheet is empty, or its last lexemes are those of its last node. That node is a comment or is
closed by its last lexeme. -/
def EndsWithNode (ns : List (Node Nat)) (ls : List Lexeme) : Prop :=
  (ns = [] ∧ ls = []) ∨ ∃ n ∈ ns.getLast?, ∃ front ms, ls = front ++ ms ∧ Covers n.span ms ∧
    (n.isComment = false → ∃ init l, ms = init ++ [l] ∧ closes init l = true)

/-- A sheet that ends between two nodes ends with its last node, and with gaps behind it. -/
theorem Sheet.core (h : Sheet .between false ns ls) :
    ∃ core gaps, ls = core ++ gaps ∧ Sheet .between false ns core ∧ EndsWithNode ns core ∧
      ∀ l ∈ gaps, l.token.IsGap := by
  generalize he : Ending.between = ending at h
  generalize ho : false = isOpen at h
  induction h with
  | nil => exact ⟨[], [], rfl, .nil, Or.inl ⟨rfl, rfl⟩, by simp⟩
  | @gap ns ls l h hl ih =>
    obtain ⟨core, gaps, rfl, hcore, hends, hgaps⟩ := ih rfl rfl
    refine ⟨core, gaps ++ [l], List.append_assoc core gaps [l], hcore, hends, fun k hk => ?_⟩
    rcases List.mem_append.mp hk with hk | hk
    · exact hgaps k hk
    · rwa [List.mem_singleton.mp hk]
  | @leaf ns ls ms n h hn =>
    exact ⟨ls ++ ms, [], (List.append_nil _).symm, h.leaf hn,
      Or.inr ⟨n, List.getLast?_concat, ls, ms, rfl, hn.covers, hn.closes⟩, by simp⟩
  | @document ending ns children ls head inner owner closer h hh hd hi hending hc =>
    have hlast : (head ++ (inner ++ [closer])).getLast? = some closer := by
      rw [← List.append_assoc, List.getLast?_concat]
    have hcloses := hh.closes (hi.enclosed hending) hc
    exact ⟨_, [], (List.append_nil _).symm, h.document hh hd hi hending hc,
      Or.inr ⟨_, List.getLast?_concat, ls, _, rfl, hh.covers children hlast, fun _ =>
        ⟨head ++ inner, closer, (List.append_assoc _ _ _).symm, hcloses⟩⟩, by simp⟩
  | cutShort => cases he
  | selector => cases he
  | openBlock => cases ho
  | openDocument => cases ho

end Sheets

/-! ## Texts that end with a closed node -/

section Texts

variable {text : List Char} {ns : List (Node Nat)}

theorem isClosedIn_of_endsClosed (h : readNodes text = .ok ns) (hc : endsClosed text = true) :
    ∀ n ∈ ns.getLast?, n.isClosedIn (lexemes (.start text)) = true := by
  unfold endsClosed at hc
  rw [h] at hc
  exact (Option.all_eq_true _ _).mp hc

/-- A text ends with a closed node if and only if it ends between two nodes and, where its last node
is a comment, that comment has its closing mark. -/
theorem endsClosed_iff (h : readNodes text = .ok ns) :
    endsClosed text = true ↔ Sheet .between false ns (lexemes (.start text)) ∧
      ∀ n ∈ ns.getLast?, n.isComment = true → n.isClosedIn (lexemes (.start text)) = true := by
  have horder := (lexemes_inOrder (.start text)).1
  constructor
  · intro hc
    have hclosed := isClosedIn_of_endsClosed h hc
    obtain ⟨ending, isOpen, hsheet, he, -⟩ := readNodes_sheet h
    obtain ⟨rfl, rfl⟩ := hsheet.between_of_closed he horder hclosed
    exact ⟨hsheet, fun n hn _ => hclosed n hn⟩
  · rintro ⟨hsheet, hcomment⟩
    unfold endsClosed
    rw [h]
    refine (Option.all_eq_true _ _).mpr fun n hn => ?_
    cases hkind : n.isComment with
    | true => exact hcomment n hn hkind
    | false =>
      obtain ⟨core, gaps, hls, -, hends, -⟩ := hsheet.core
      rcases hends with ⟨rfl, -⟩ | ⟨k, hk, front, ms, rfl, hcovers, hcloses⟩
      · cases hn
      · obtain rfl : n = k := Option.some.inj (hn.symm.trans hk)
        obtain ⟨init, l, rfl, hcl⟩ := hcloses hkind
        unfold Node.isClosedIn
        rw [hcovers.lexemesIn hls horder, List.getLast?_concat, List.dropLast_concat]
        exact hcl

end Texts

end Userstyle.Css
