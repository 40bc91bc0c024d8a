import Userstyle.Proofs.LexemeTexts
import Userstyle.Proofs.SheetGrammar

/-!
# Style sheets at another place

The lexemes of a style sheet can be moved to another place in a text, where other characters stand
before and behind them (`Lexeme.moved`). What they make up does not change by that: the nodes are
the same with the same parameters, and their offsets are moved with the lexemes (`Sheet.moved`).
-/

namespace Userstyle.Text

theorem takeBytes_append_of_le {n : Nat} {s : List Char} (h : n ≤ byteLength s) (t : List Char) :
    takeBytes n (s ++ t) = takeBytes n s := by
  induction s generalizing n with
  | nil =>
    obtain rfl : n = 0 := Nat.le_zero.mp h
    cases t <;> rfl
  | cons c s ih =>
    rw [List.cons_append, takeBytes, takeBytes]
    by_cases hn : n = 0
    · rw [if_pos hn, if_pos hn]
    · rw [byteLength_cons] at h
      rw [if_neg hn, if_neg hn, ih (by omega)]

end Userstyle.Text

namespace Userstyle.Css

open Source Text

/-- The place in a text with `d` bytes more in front and other characters behind. -/
def movedPlace (d : Nat) (behind : List Char) (p : Place) : Place :=
  ⟨p.offset + d, p.rest ++ behind⟩

/-- The lexeme in a text with `d` bytes more in front and other characters behind. -/
def Lexeme.moved (d : Nat) (behind : List Char) (l : Lexeme) : Lexeme where
  token := l.token
  text := l.text
  start := movedPlace d behind l.start
  stop := movedPlace d behind l.stop

def Owner.moved (d : Nat) (behind : List Char) : Owner → Owner
  | .rule first => .rule (first.moved d behind)
  | .atRule keyword name params => .atRule (keyword.moved d behind) name params

section Moved

variable (d : Nat) (behind : List Char) {n : Nat} {ls : List Lexeme}

theorem Lexeme.lastOffset_moved (l : Lexeme) :
    (l.moved d behind).lastOffset = l.lastOffset + d := Nat.add_right_comm _ _ _

theorem getLastD_moved (k : Lexeme) (ls : List Lexeme) :
    (ls.map (Lexeme.moved d behind)).getLastD (k.moved d behind) =
      (ls.getLastD k).moved d behind := by
  rw [List.getLastD_eq_getLast?, List.getLastD_eq_getLast?, List.getLast?_map]
  cases ls.getLast? <;> rfl

/-! ## Brackets and preludes -/

theorem Balanced.moved {ok : Token → Prop} (h : Balanced ok ls) :
    Balanced ok (ls.map (Lexeme.moved d behind)) := by
  induction h with
  | nil => exact .nil
  | mark h hok hl ih =>
    rw [List.map_append]
    exact .mark ih hok hl
  | group h hok hl hms hm ih ihms =>
    rw [List.map_append, List.map_cons, List.map_append]
    exact .group ih hok hl ihms hm

theorem Leaves.moved {ok : Token → Prop} {nesting : List Bracket} (h : Leaves ok nesting ls) :
    Leaves ok nesting (ls.map (Lexeme.moved d behind)) := by
  induction h with
  | none h => exact .none (h.moved d behind)
  | more h hok hl hms ih =>
    rw [List.map_append, List.map_cons]
    exact .more ih hok hl (hms.moved d behind)

theorem PreludeParts.moved {nesting : List Bracket} {kept lost : List Lexeme}
    (h : PreludeParts nesting kept lost) :
    PreludeParts nesting (kept.map (Lexeme.moved d behind))
      (lost.map (Lexeme.moved d behind)) := by
  cases h with
  | nil => exact .nil
  | mark h hok hl =>
    rw [List.map_append]
    exact .mark (h.moved d behind) hok hl
  | inside h hok hl hms =>
    rw [List.map_append]
    exact .inside (h.moved d behind) hok hl (hms.moved d behind)
  | group h hok hl hms hm =>
    rw [List.map_append, List.map_append]
    exact .group (h.moved d behind) hok hl (hms.moved d behind) hm

/-! ## Parameters -/

/-- The lexemes stand in a text of `n` bytes, with all of it behind them as far as it goes. -/
def EndAt (n : Nat) (ls : List Lexeme) : Prop :=
  ∀ l ∈ ls, l.stop.offset + byteLength l.stop.rest = n

theorem EndAt.append {ms : List Lexeme} (h : EndAt n (ls ++ ms)) : EndAt n ls ∧ EndAt n ms := by
  constructor
  · intro l hl
    exact h l (List.mem_append_left ms hl)
  · intro l hl
    exact h l (List.mem_append_right ls hl)

theorem endAt_lexemes (p : Place) : EndAt (p.offset + byteLength p.rest) (lexemes p) := by
  generalize hls : lexemes p = ls
  induction ls generalizing p with
  | nil => exact fun l hl => absurd hl List.not_mem_nil
  | cons l ls ih =>
    obtain ⟨-, -, hrest, htext, hoffset⟩ := lexemes_eq_cons hls
    have hsame : l.stop.offset + byteLength l.stop.rest = p.offset + byteLength p.rest := by
      rw [hoffset, htext, byteLength_append, Nat.add_assoc]
    intro k hk
    rcases List.mem_cons.mp hk with rfl | hk
    · exact hsame
    · rw [← hsame]
      exact ih l.stop hrest k hk

theorem paramsBetween_moved {k l : Lexeme} (hk : k.stop.offset + byteLength k.stop.rest = n)
    (hl : l.stop.offset + byteLength l.stop.rest = n) :
    paramsBetween (k.moved d behind) (l.moved d behind) = paramsBetween k l := by
  have hlength : l.stop.offset + d - (k.stop.offset + d) = l.stop.offset - k.stop.offset := by
    omega
  unfold paramsBetween Lexeme.moved movedPlace Place.textTo
  simp only
  rw [hlength, takeBytes_append_of_le (by omega)]

theorem EndAt.params {keyword : Lexeme} {kept rest : List Lexeme}
    (h : EndAt n (keyword :: (kept ++ rest))) :
    paramsBetween (keyword.moved d behind)
        ((kept.map (Lexeme.moved d behind)).getLastD (keyword.moved d behind)) =
      paramsBetween keyword (kept.getLastD keyword) := by
  rw [getLastD_moved]
  refine paramsBetween_moved d behind (h keyword List.mem_cons_self) (h _ ?_)
  rw [← List.cons_append]
  exact List.mem_append_left rest (List.getLastD_mem_cons)

/-! ## Nodes -/

mutual

theorem Node.map_id {α : Type} : (n : Node α) → n.map id = n
  | .rule _ => rfl
  | .comment _ => rfl
  | .atRule name params children span => by
    rw [Node.map, Node.mapAll_id children]
    rfl

theorem Node.mapAll_id {α : Type} : (ns : List (Node α)) → Node.mapAll id ns = ns
  | [] => rfl
  | n :: ns => by rw [Node.mapAll, Node.map_id n, Node.mapAll_id ns]

end

theorem Node.map_add_zero (ns : List (Node Nat)) : ns.map (Node.map (· + 0)) = ns := by
  rw [← Node.mapAll_eq_map]
  exact Node.mapAll_id ns

theorem Owner.isDocument_moved (owner : Owner) :
    (owner.moved d behind).isDocument = owner.isDocument := by
  cases owner <;> rfl

theorem Owner.node_moved (owner : Owner) (children : List (Node Nat)) (last : Nat) :
    (owner.moved d behind).node (children.map (Node.map (· + d))) (last + d) =
      (owner.node children last).map (· + d) := by
  cases owner with
  | rule first => rfl
  | atRule keyword name params =>
    rw [← Node.mapAll_eq_map]
    rfl

theorem Owner.Heads.moved {owner : Owner} {head : List Lexeme} (h : owner.Heads head)
    (hn : EndAt n head) : (owner.moved d behind).Heads (head.map (Lexeme.moved d behind)) := by
  cases h with
  | @rule selector opener first h ho hf hb =>
    have hf' : ((selector ++ [opener]).map (Lexeme.moved d behind)).head? =
        some (first.moved d behind) := by
      rw [List.head?_map, hf]
      rfl
    rw [List.map_append] at hf' ⊢
    exact .rule (h.moved d behind) ho hf' hb
  | @atRule keyword opener name kept lost hk hp ho =>
    rw [List.append_assoc] at hn
    have hmoved := @Owner.Heads.atRule (keyword.moved d behind) (opener.moved d behind) name _ _
      hk (hp.moved d behind) ho
    rw [hn.params d behind] at hmoved
    rw [List.map_cons, List.map_append, List.map_append]
    exact hmoved

theorem Leaf.moved {m : Node Nat} (h : Leaf m ls) (hn : EndAt n ls) :
    Leaf (m.map (· + d)) (ls.map (Lexeme.moved d behind)) := by
  cases h with
  | @comment l hl =>
    have hmoved : Leaf _ [l.moved d behind] := .comment hl
    rwa [Lexeme.lastOffset_moved] at hmoved
  | @statement keyword semicolon name kept lost hk hp hs =>
    rw [List.append_assoc] at hn
    have hmoved := @Leaf.statement (keyword.moved d behind) (semicolon.moved d behind) name _ _
      hk (hp.moved d behind) hs
    rw [hn.params d behind, Lexeme.lastOffset_moved] at hmoved
    rw [List.map_cons, List.map_append, List.map_append]
    exact hmoved
  | @block owner head body closer hh hd hb hc =>
    have hhead := hh.moved d behind hn.append.1
    rw [← Owner.isDocument_moved d behind] at hd
    have hmoved := @Leaf.block _ _ _ (closer.moved d behind) hhead hd (hb.moved d behind) hc
    rw [Lexeme.lastOffset_moved] at hmoved
    rw [← Owner.node_moved d behind]
    simpa using hmoved

/-- A style sheet at another place has the same nodes there. -/
theorem Sheet.moved {ending : Ending} {isOpen : Bool} {ns : List (Node Nat)}
    (h : Sheet ending isOpen ns ls) (hn : EndAt n ls) :
    Sheet ending isOpen (ns.map (Node.map (· + d))) (ls.map (Lexeme.moved d behind)) := by
  induction h with
  | nil => exact .nil
  | gap h hl ih =>
    rw [List.map_append]
    exact .gap (ih hn.append.1) hl
  | leaf h hleaf ih =>
    rw [List.map_append, List.map_append]
    exact .leaf (ih hn.append.1) (hleaf.moved d behind hn.append.2)
  | @document ending ns children ls head inner owner closer h hh hd hi he hc ih ihi =>
    obtain ⟨hls, hrest⟩ := hn.append
    obtain ⟨hhead, hinner⟩ := hrest.append
    rw [← Owner.isDocument_moved d behind] at hd
    have hmoved := @Sheet.document ending _ _ _ _ _ _ (closer.moved d behind) (ih hls)
      (hh.moved d behind hhead) hd (ihi hinner.append.1) he hc
    rw [Lexeme.lastOffset_moved, Owner.node_moved] at hmoved
    simpa using hmoved
  | @cutShort ns nesting ls kept lost spaces keyword name h hk hp hl hs hnesting ih =>
    obtain ⟨hls, hrest⟩ := hn.append
    rw [List.append_assoc] at hrest
    have hlast : ((kept.map (Lexeme.moved d behind)).getLastD
        (keyword.moved d behind)).token ≠ .space := by
      rw [getLastD_moved]
      exact hl
    have hspaces : ∀ l ∈ spaces.map (Lexeme.moved d behind), l.token = .space := by
      intro l hl
      obtain ⟨k, hk, rfl⟩ := List.mem_map.mp hl
      exact hs k hk
    have hmoved := @Sheet.cutShort _ nesting _ _ _ _ (keyword.moved d behind) name (ih hls) hk
      (hp.moved d behind) hlast hspaces fun hne => by rw [hnesting hne]; rfl
    rw [hrest.params d behind, getLastD_moved, Lexeme.lastOffset_moved] at hmoved
    simp only [List.map_append, List.map_cons]
    exact hmoved
  | @selector ns nesting ls selector first h hs hf hb ih =>
    have hf' : (selector.map (Lexeme.moved d behind)).head? = some (first.moved d behind) := by
      rw [List.head?_map, hf]
      rfl
    rw [List.map_append]
    exact .selector (ih hn.append.1) (hs.moved d behind) hf' hb
  | @openBlock ns nesting ls head body owner last h hh hd hb hl ih =>
    obtain ⟨hls, hrest⟩ := hn.append
    have hl' : (head.map (Lexeme.moved d behind) ++ body.map (Lexeme.moved d behind)).getLast? =
        some (last.moved d behind) := by
      rw [← List.map_append, List.getLast?_map, hl]
      rfl
    rw [← Owner.isDocument_moved d behind] at hd
    have hmoved := Sheet.openBlock (ih hls) (hh.moved d behind hrest.append.1) hd
      (hb.moved d behind) hl'
    have hnode := Owner.node_moved d behind owner [] last.lastOffset
    rw [List.map_nil] at hnode
    rw [Lexeme.lastOffset_moved, hnode] at hmoved
    simpa using hmoved
  | @openDocument ending isOpen ns children ls head inner owner last h hh hd hi hl ih ihi =>
    obtain ⟨hls, hrest⟩ := hn.append
    have hl' : (head.map (Lexeme.moved d behind) ++ inner.map (Lexeme.moved d behind)).getLast? =
        some (last.moved d behind) := by
      rw [← List.map_append, List.getLast?_map, hl]
      rfl
    rw [← Owner.isDocument_moved d behind] at hd
    have hmoved := Sheet.openDocument (ih hls) (hh.moved d behind hrest.append.1) hd
      (ihi hrest.append.2) hl'
    rw [Lexeme.lastOffset_moved, Owner.node_moved] at hmoved
    simpa using hmoved

/-! ## Lexemes of a text inside of another -/

/-- Lexemes that are read in the same way when other characters stand behind the text are those of
the longer text up to there. -/
theorem lexemes_moved {p : Place} {ms : List Lexeme} (h : lexemes p = ls ++ ms)
    (hw : words (p.rest ++ behind) = wordsOf ls ++ words (spelling (wordsOf ms) ++ behind)) :
    lexemes (movedPlace d behind p) =
      ls.map (Lexeme.moved d behind) ++
        lexemes ⟨p.offset + d + byteLength (spelling (wordsOf ls)),
          spelling (wordsOf ms) ++ behind⟩ := by
  induction ls generalizing p with
  | nil =>
    have hrest : p.rest = spelling (wordsOf ms) := by
      rw [List.nil_append] at h
      rw [← h, wordsOf, map_word_lexemes, spelling_words]
    unfold movedPlace
    rw [hrest]
    rfl
  | cons l ls ih =>
    obtain ⟨hstart, -, hls, htext, hoffset⟩ := lexemes_eq_cons h
    cases hm : lexemes (movedPlace d behind p) with
    | nil =>
      have hwords := map_word_lexemes (movedPlace d behind p)
      rw [hm] at hwords
      have hw : words (movedPlace d behind p).rest = _ := hw
      rw [← hwords] at hw
      cases hw
    | cons k ks =>
      obtain ⟨hkstart, -, hks, hktext, hkoffset⟩ := lexemes_eq_cons hm
      have hwords := map_word_lexemes (movedPlace d behind p)
      have hw' : words (movedPlace d behind p).rest = _ := hw
      rw [hm, hw'] at hwords
      obtain ⟨hkl, hrest⟩ := List.cons.inj hwords
      have htoken : k.token = l.token := congrArg Word.token hkl
      have hkltext : k.text = l.text := congrArg Word.text hkl
      -- Behind the lexeme stands what stood there, and the characters behind the text.
      have hstop : k.stop = movedPlace d behind l.stop := by
        have hsplit : (movedPlace d behind p).rest = l.text ++ (l.stop.rest ++ behind) := by
          rw [← List.append_assoc, ← htext]
          rfl
        rw [hsplit, hkltext, List.append_cancel_left_eq] at hktext
        have hoffset' : k.stop.offset = l.stop.offset + d := by
          rw [hkoffset, hkltext, hoffset]
          exact Nat.add_right_comm _ _ _
        unfold movedPlace
        rw [← hoffset', hktext]
      have hk : k = l.moved d behind := by
        unfold Lexeme.moved
        rw [← htoken, ← hkltext, ← hstop, hstart, ← hkstart]
      have hwstop : words (l.stop.rest ++ behind) =
          wordsOf ls ++ words (spelling (wordsOf ms) ++ behind) := by
        have hmap := map_word_lexemes k.stop
        rw [hks, hstop] at hmap
        exact hmap.symm.trans hrest
      have hih := ih hls hwstop
      rw [← hstop, hks] at hih
      have hlength : l.stop.offset + d + byteLength (spelling (wordsOf ls)) =
          p.offset + d + byteLength (spelling (wordsOf (l :: ls))) := by
        have hword : spelling (wordsOf (l :: ls)) = l.text ++ spelling (wordsOf ls) := rfl
        rw [hword, byteLength_append, hoffset]
        omega
      rw [hk, hih, List.map_cons, List.cons_append, hlength]

end Moved

end Userstyle.Css
