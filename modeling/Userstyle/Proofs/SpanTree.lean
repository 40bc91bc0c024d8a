import Userstyle.Proofs.PageReach

/-!
# The tree of spans

The spans of the nodes of a style sheet nest like the nodes, and siblings lie one behind the other
(`WellNested`). So the places of all nodes, each node's first character before those of its children
and its last one behind them, ascend through the text, and one line cursor finds the positions in
this order (`LineCursor.resolveEach_positions`). It finds the offsets that the reader has recorded,
where a node's first token begins and where its last character is.
-/

namespace Userstyle.Source

open Text

/-- Looks up positions one after the other. -/
def LineCursor.resolveEach (c : LineCursor) : List Position → List (Except Error Nat)
  | [] => []
  | p :: ps => (c.resolve p).1 :: (c.resolve p).2.resolveEach ps

end Userstyle.Source

namespace Userstyle.Css

open Source Text Script

/-! ## Places in order -/

mutual

/-- The places of a node: its first character, the places of its children, its last character. -/
def Node.places {α : Type} : Node α → List α
  | .rule span => [span.first, span.last]
  | .atRule _ _ children span => span.first :: (Node.placesAll children ++ [span.last])
  | .comment span => [span.first, span.last]

def Node.placesAll {α : Type} : List (Node α) → List α
  | [] => []
  | n :: ns => n.places ++ Node.placesAll ns

end

mutual

theorem Node.places_map {α β : Type} (f : α → β) :
    (n : Node α) → (n.map f).places = n.places.map f
  | .rule _ => rfl
  | .atRule _ _ children _ => by
    rw [Node.map, Node.places, Node.placesAll_mapAll f children, Node.places, List.map_cons,
      List.map_append]
    rfl
  | .comment _ => rfl

theorem Node.placesAll_mapAll {α β : Type} (f : α → β) :
    (ns : List (Node α)) → Node.placesAll (Node.mapAll f ns) = (Node.placesAll ns).map f
  | [] => rfl
  | n :: ns => by
    rw [Node.mapAll, Node.placesAll, Node.places_map f n, Node.placesAll_mapAll f ns,
      Node.placesAll, List.map_append]

end

variable {text : List Char}

/-- The offsets are those of characters of the text from `lo` on and before `hi`, in order. -/
structure Ascends (text : List Char) (lo hi : Nat) (os : List Nat) : Prop where
  within : ∀ o ∈ os, IsStart text o ∧ lo ≤ o ∧ o < hi
  sorted : os.Pairwise (· ≤ ·)

namespace Ascends

variable {lo lo' mid hi hi' o : Nat} {os os' : List Nat}

theorem nil : Ascends text lo hi [] := ⟨by simp, .nil⟩

theorem mono (h : Ascends text lo hi os) (hlo : lo' ≤ lo) (hhi : hi ≤ hi') :
    Ascends text lo' hi' os := by
  refine ⟨fun o ho => ?_, h.sorted⟩
  obtain ⟨hs, hle, hlt⟩ := h.within o ho
  exact ⟨hs, by omega, by omega⟩

theorem append (h : Ascends text lo mid os) (h' : Ascends text mid hi os') (hlo : lo ≤ mid)
    (hhi : mid ≤ hi) : Ascends text lo hi (os ++ os') := by
  refine ⟨fun o ho => ?_, ?_⟩
  · rcases List.mem_append.mp ho with ho | ho
    · exact (h.mono (Nat.le_refl lo) hhi).within o ho
    · exact (h'.mono hlo (Nat.le_refl hi)).within o ho
  · refine List.pairwise_append.mpr ⟨h.sorted, h'.sorted, fun o ho o' ho' => ?_⟩
    have := (h.within o ho).2.2
    have := (h'.within o' ho').2.1
    omega

/-- A span goes around the offsets that lie inside of it. -/
theorem around {span : Span Nat} (hs : SpanWithin text lo hi span)
    (h : Ascends text (span.first + 1) (span.last + 1) os) :
    Ascends text lo (span.last + 1) (span.first :: (os ++ [span.last])) := by
  have hlo := hs.lo_le
  have hle := hs.first_le
  refine ⟨?_, ?_⟩
  · intro o ho
    rw [List.mem_cons, List.mem_append, List.mem_singleton] at ho
    rcases ho with rfl | ho | rfl
    · exact ⟨hs.first, hlo, by omega⟩
    · obtain ⟨hstart, hfirst, hlast⟩ := h.within o ho
      exact ⟨hstart, by omega, hlast⟩
    · exact ⟨hs.last, by omega, by omega⟩
  · refine List.pairwise_cons.mpr ⟨fun o ho => ?_, ?_⟩
    · rw [List.mem_append, List.mem_singleton] at ho
      rcases ho with ho | rfl
      · have := (h.within o ho).2.1
        omega
      · exact hle
    · refine List.pairwise_append.mpr ⟨h.sorted, List.pairwise_singleton _ _, fun o ho o' ho' => ?_⟩
      have := (h.within o ho).2.2
      rw [List.mem_singleton.mp ho']
      omega

end Ascends

mutual

theorem Node.Within.ascends {lo hi : Nat} :
    (n : Node Nat) → n.Within text lo hi → Ascends text lo (n.span.last + 1) n.places
  | .rule _, h => .around h .nil
  | .atRule _ _ children _, h => .around h.1 (Laid.ascends children h.2)
  | .comment _, h => .around h .nil

theorem Laid.ascends {lo hi : Nat} :
    (ns : List (Node Nat)) → Laid text lo hi ns → Ascends text lo hi (Node.placesAll ns)
  | [], _ => .nil
  | n :: ns, h => by
    have hlo := h.1.span.lo_le
    have hle := h.1.span.first_le
    exact (Node.Within.ascends n h.1).append (Laid.ascends ns h.2) (by omega) h.2.le

end

end Userstyle.Css

namespace Userstyle.Script

open Css Source Text

variable {text : List Char}

/-! ## Looking up places in order -/

/-- A position that lies ahead is found, and what lies behind it can be found after that. -/
theorem Ready.resolve {lo o : Nat} {c : LineCursor} (h : Ready text lo c) (ho : IsStart text o)
    (hlo : lo ≤ o) :
    ∃ d, c.resolve (positionAt text o) = (.ok o, d) ∧ Ready text o d := by
  have hline := h.line_le o ho hlo
  have hon := h.on
  obtain ⟨b, ch, a, ht, hb⟩ := id ho
  have hpos : positionAt text o = Position.behind b := by
    rw [ht, ← hb, positionAt_byteLength]
  rw [hpos] at hline ⊢
  rw [ht] at hon
  obtain ⟨d, hfind, hat⟩ := hon.find_behind hline
  have hond := hat.on
  rw [← ht] at hond
  refine ⟨d, ?_, hond, fun o' ho' hle => ?_⟩
  · unfold LineCursor.resolve
    rw [hfind, ← hb]
    rfl
  · rw [← hat.line_eq, ← hpos]
    exact Position.line_le_of_le (positionAt_le ho ho' hle)

/-- The positions of ascending offsets are all found, each at its offset. -/
theorem Ready.resolveEach {lo hi : Nat} {c : LineCursor} {os : List Nat} (h : Ready text lo c)
    (hos : Ascends text lo hi os) :
    c.resolveEach (os.map (positionAt text)) = os.map .ok := by
  induction os generalizing lo c with
  | nil => rfl
  | cons o os ih =>
    obtain ⟨hstart, hlo, -⟩ := hos.within o List.mem_cons_self
    obtain ⟨hle, hsorted⟩ := List.pairwise_cons.mp hos.sorted
    obtain ⟨d, hresolve, hd⟩ := h.resolve hstart hlo
    have hrest : Ascends text o hi os := by
      refine ⟨fun o' ho' => ?_, hsorted⟩
      obtain ⟨hs, -, hlt⟩ := hos.within o' (List.mem_cons_of_mem o ho')
      exact ⟨hs, hle o' ho', hlt⟩
    rw [List.map_cons, LineCursor.resolveEach, hresolve, ih hd hrest]
    rfl

end Userstyle.Script

namespace Userstyle.Css

open Source Text Script

variable {text : List Char}

/-! ## Nesting -/

/-- The spans of nodes nest like the nodes. -/
structure WellNested (nodes : List (Node Position)) : Prop where
  /-- A span starts at or before its end. -/
  ordered : ∀ n : Node Position, n.Occurs nodes → n.span.first ≤ n.span.last
  /-- Nodes that are not inside of others lie one behind the other. -/
  apart : nodes.Pairwise fun m n => m.span.last < n.span.first
  /-- So do the children of a node. -/
  children_apart : ∀ n : Node Position, n.Occurs nodes →
    n.children.Pairwise fun m k => m.span.last < k.span.first
  /-- A child starts behind the beginning of its parent and ends with it at the latest. -/
  inside : ∀ n : Node Position, n.Occurs nodes → ∀ k ∈ n.children,
    n.span.first < k.span.first ∧ k.span.last ≤ n.span.last
  /-- Only document rules have children. -/
  documents : ∀ n : Node Position, n.Occurs nodes → n.children ≠ [] →
    n.documentParams?.isSome = true

theorem Laid.occurs {lo hi : Nat} {ns : List (Node Nat)} {n : Node Nat} (h : Laid text lo hi ns)
    (hn : n.Occurs ns) : ∃ lo' hi', n.Within text lo' hi' := by
  induction hn generalizing lo hi with
  | top hmem => exact ⟨lo, hi, h.within hmem⟩
  | deep hmem _ ih => exact ih (h.within hmem).children

theorem Laid.apart {lo hi : Nat} {ns : List (Node Nat)} (h : Laid text lo hi ns) :
    (ns.map (Node.map (positionAt text))).Pairwise fun m n => m.span.last < n.span.first := by
  induction ns generalizing lo with
  | nil => exact .nil
  | cons n ns ih =>
    refine List.pairwise_cons.mpr ⟨fun k hk => ?_, ih h.2⟩
    obtain ⟨m, hm, rfl⟩ := List.mem_map.mp hk
    have hspan := (h.2.within hm).span
    rw [Node.span_map, Node.span_map]
    exact positionAt_lt h.1.span.last hspan.first hspan.lo_le

theorem Node.Within.inside {lo hi : Nat} {n k : Node Nat} (h : n.Within text lo hi)
    (hk : k ∈ n.children) :
    positionAt text n.span.first < positionAt text k.span.first ∧
      positionAt text k.span.last ≤ positionAt text n.span.last := by
  have hspan := h.span
  have hchild := (h.children.within hk).span
  refine ⟨positionAt_lt hspan.first hchild.first hchild.lo_le, ?_⟩
  exact positionAt_le hchild.last hspan.last (Nat.le_of_lt_succ hchild.last_lt)

theorem Owner.documentParams?_node {owner : Owner} (hd : owner.isDocument = true)
    (children : List (Node Nat)) (last : Nat) :
    (owner.node children last).documentParams?.isSome = true := by
  cases owner with
  | rule first => cases hd
  | atRule keyword name params =>
    have hname : isDocumentName name = true := hd
    unfold Owner.node Node.documentParams?
    simp [hname]

theorem Node.ReadIn.documents {all : List Lexeme} {mayOpen : Bool} {n : Node Nat}
    (h : n.ReadIn all mayOpen) (hn : n.children ≠ []) : n.documentParams?.isSome = true := by
  cases h with
  | leaf hall hleaf => exact absurd hleaf.children hn
  | document hall hh hd => exact Owner.documentParams?_node hd _ _
  | cutShort => exact absurd rfl hn
  | @openBlock _ _ _ _ owner => cases owner <;> exact absurd rfl hn
  | openDocument hall hh hd => exact Owner.documentParams?_node hd _ _

/-! ## First and last lexemes -/

/-- A node of this kind begins with the token. -/
def Node.BeginsWith {α : Type} (n : Node α) (t : Token) : Prop :=
  match n with
  | .rule _ => t.BeginsRule
  | .atRule name _ _ _ => t = .atKeyword name
  | .comment _ => t = .comment

/-- A node of this kind may end with the token before the end of the text. What cuts an at-rule
short is not a part of it, and neither is white space before that. -/
def Node.EndsWith {α : Type} (n : Node α) (t : Token) : Prop :=
  match n with
  | .rule _ => t = .closing .curly
  | .atRule _ _ _ _ => t ≠ .space
  | .comment _ => t = .comment

/-- The character at the offset `o` is the last one before the offset `stop`. -/
def IsLastBefore (text : List Char) (o stop : Nat) : Prop :=
  ∃ before c after, text = before ++ c :: after ∧ o = byteLength before ∧
    stop = byteLength (before ++ [c])

/-- The span of a node goes from where its first token begins to the last character before the end
of its last token. -/
structure Node.Exact (text : List Char) (n : Node Nat) : Prop where
  first : ∃ l ∈ lexemes (.start text), n.BeginsWith l.token ∧ n.span.first = l.start.offset
  last : ∃ l ∈ lexemes (.start text),
    (n.EndsWith l.token ∨ (lexemes (.start text)).getLast? = some l) ∧
      IsLastBefore text n.span.last l.stop.offset

theorem Lexeme.isLastBefore {l : Lexeme} (h : l ∈ lexemes (.start text)) :
    IsLastBefore text l.lastOffset l.stop.offset := by
  obtain ⟨a, b, hab⟩ := List.append_of_mem h
  obtain ⟨s, c, hl, hlast⟩ := lexemes_eq_concat hab
  obtain ⟨q, hq, hrest, hoffset⟩ := lexemes_eq_append hab
  obtain ⟨-, -, -, htext, hstop⟩ := lexemes_eq_cons hq
  have hrest : text = spelling (wordsOf a) ++ q.rest := hrest
  refine ⟨spelling (wordsOf a) ++ s, c, l.stop.rest, ?_, hlast, ?_⟩
  · rw [hrest, htext, hl]
    simp
  · rw [hstop, hoffset, hl]
    simp [Place.start]

theorem Owner.Heads.begins {owner : Owner} {head : List Lexeme} (h : owner.Heads head)
    (children : List (Node Nat)) (last : Nat) :
    ∃ l ∈ head, (owner.node children last).BeginsWith l.token ∧
      (owner.node children last).span.first = l.start.offset := by
  cases h with
  | @rule selector opener first h ho hf hb => exact ⟨first, List.mem_of_head? hf, hb, rfl⟩
  | @atRule keyword opener name kept lost hk hp ho => exact ⟨keyword, List.mem_cons_self, hk, rfl⟩

theorem Owner.ends_closer {owner : Owner} {closer : Lexeme} (children : List (Node Nat))
    (hc : closer.token = .closing .curly) :
    (owner.node children closer.lastOffset).EndsWith closer.token := by
  rw [hc]
  cases owner with
  | rule first => rfl
  | atRule keyword name params => exact Token.noConfusion

theorem Owner.node_last (owner : Owner) (children : List (Node Nat)) (last : Nat) :
    (owner.node children last).span.last = last := by
  cases owner <;> rfl

theorem Leaf.begins {n : Node Nat} {ms : List Lexeme} (h : Leaf n ms) :
    ∃ l ∈ ms, n.BeginsWith l.token ∧ n.span.first = l.start.offset := by
  cases h with
  | comment hl => exact ⟨_, List.mem_singleton_self _, hl, rfl⟩
  | statement hk hp hs => exact ⟨_, List.mem_cons_self, hk, rfl⟩
  | block hh hd hb hc =>
    obtain ⟨l, hl, hbegins, hfirst⟩ := hh.begins [] _
    exact ⟨l, List.mem_append_left _ hl, hbegins, hfirst⟩

theorem Leaf.ends {n : Node Nat} {ms : List Lexeme} (h : Leaf n ms) :
    ∃ l ∈ ms, n.EndsWith l.token ∧ n.span.last = l.lastOffset := by
  cases h with
  | comment hl => exact ⟨_, List.mem_singleton_self _, hl, rfl⟩
  | @statement keyword semicolon name kept lost hk hp hs =>
    refine ⟨semicolon, by simp, ?_, rfl⟩
    show semicolon.token ≠ .space
    rw [hs]
    exact Token.noConfusion
  | @block owner head body closer hh hd hb hc =>
    exact ⟨closer, by simp, Owner.ends_closer [] hc, Owner.node_last owner [] _⟩

theorem Node.ReadIn.begins {all : List Lexeme} {mayOpen : Bool} {n : Node Nat}
    (h : n.ReadIn all mayOpen) :
    ∃ l ∈ all, n.BeginsWith l.token ∧ n.span.first = l.start.offset := by
  cases h with
  | leaf hall hn =>
    obtain ⟨l, hl, hbegins, hfirst⟩ := hn.begins
    exact ⟨l, by simp [hall, hl], hbegins, hfirst⟩
  | @cutShort _ nesting a kept lost spaces b keyword name hall hk =>
    exact ⟨keyword, by simp [hall], hk, rfl⟩
  | document hall hh | openBlock hall hh | openDocument hall hh =>
    obtain ⟨l, hl, hbegins, hfirst⟩ := hh.begins _ _
    exact ⟨l, by simp [hall, hl], hbegins, hfirst⟩

theorem Node.ReadIn.ends {all : List Lexeme} {mayOpen : Bool} {n : Node Nat}
    (h : n.ReadIn all mayOpen) :
    ∃ l ∈ all, (n.EndsWith l.token ∨ all.getLast? = some l) ∧ n.span.last = l.lastOffset := by
  cases h with
  | leaf hall hn =>
    obtain ⟨l, hl, hends, hlast⟩ := hn.ends
    exact ⟨l, by simp [hall, hl], Or.inl hends, hlast⟩
  | @document _ ending children a head inner b owner closer hall hh hd hi he hc =>
    exact ⟨closer, by simp [hall], Or.inl (Owner.ends_closer children hc),
      Owner.node_last owner children _⟩
  | @cutShort _ nesting a kept lost spaces b keyword name hall hk hp hl =>
    have hmem : kept.getLastD keyword ∈ all := by
      have hsplit : all = a ++ (keyword :: kept ++ (lost ++ spaces ++ b)) := by simp [hall]
      rw [hsplit]
      exact List.mem_append_right a (List.mem_append_left _ List.getLastD_mem_cons)
    exact ⟨kept.getLastD keyword, hmem, Or.inl hl, rfl⟩
  | @openBlock nesting a head body owner last hall hh hd hb hl =>
    have hlast : all.getLast? = some last := by
      rw [hall, List.getLast?_append, hl]
      rfl
    exact ⟨last, List.mem_of_getLast? hlast, Or.inr hlast, Owner.node_last owner [] _⟩
  | @openDocument ending isOpen children a head inner owner last hall hh hd hi he hl =>
    have hlast : all.getLast? = some last := by
      rw [hall, List.getLast?_append, hl]
      rfl
    exact ⟨last, List.mem_of_getLast? hlast, Or.inr hlast, Owner.node_last owner children _⟩

theorem Node.ReadIn.exact {mayOpen : Bool} {n : Node Nat}
    (h : n.ReadIn (lexemes (.start text)) mayOpen) : n.Exact text := by
  obtain ⟨l, hl, hends, hlast⟩ := h.ends
  refine ⟨h.begins, l, hl, hends, ?_⟩
  rw [hlast]
  exact Lexeme.isLastBefore hl

/-! ## The spans of a style sheet -/

theorem wellNested_of_laid {lo hi : Nat} {ns : List (Node Nat)} (h : Laid text lo hi ns)
    (hd : ∀ n : Node Nat, n.Occurs ns → n.children ≠ [] → n.documentParams?.isSome = true) :
    WellNested (ns.map (Node.map (positionAt text))) := by
  refine ⟨fun k hk => ?_, h.apart, fun k hk => ?_, fun k hk c hc => ?_, fun k hk hc => ?_⟩
  all_goals
    obtain ⟨n, hn, rfl⟩ := Node.occurs_map hk
    obtain ⟨lo', hi', hwithin⟩ := h.occurs hn
  · rw [Node.span_map]
    have hspan := hwithin.span
    exact positionAt_le hspan.first hspan.last hspan.first_le
  · rw [Node.children_map]
    exact hwithin.children.apart
  · rw [Node.children_map] at hc
    obtain ⟨m, hm, rfl⟩ := List.mem_map.mp hc
    rw [Node.span_map, Node.span_map]
    exact hwithin.inside hm
  · rw [Node.children_map, ne_eq, List.map_eq_nil_iff] at hc
    rw [Node.documentParams?_map]
    exact hd n hn hc

/-- The spans of the nodes of a style sheet nest. Resolved one after the other, first character,
children, last character, they give the offsets of the nodes that were read, and these are exact:
where the first token begins, and the last character before the end of the last token. -/
theorem parse_spanTree {css : String} {nodes : List (Node Position)} (h : parse css = .ok nodes) :
    WellNested nodes ∧
      ∃ ns, readNodes css.toList = .ok ns ∧
        nodes = ns.map (Node.map (positionAt css.toList)) ∧
        (LineCursor.start css.toList).resolveEach (Node.placesAll nodes) =
          (Node.placesAll ns).map .ok ∧
        ∀ n : Node Nat, n.Occurs ns → n.Exact css.toList := by
  obtain ⟨ns, hns, hlaid, rfl⟩ := parse_eq_ok h
  obtain ⟨mayOpen, -, hread⟩ := readNodes_readIn hns
  have hplaces := Node.placesAll_mapAll (positionAt css.toList) ns
  rw [Node.mapAll_eq_map] at hplaces
  refine ⟨?_, ns, hns, rfl, ?_, fun n hn => (hread n hn).exact⟩
  · exact wellNested_of_laid hlaid fun n hn => (hread n hn).documents
  · rw [hplaces]
    exact (Ready.start css.toList).resolveEach (Laid.ascends ns hlaid)

/-- An at-rule that is cut short behind a character of two bytes, and a block that is open. -/
theorem parse_spanTree_open :
    ∃ nodes, parse "@-moz-document domain(a) \x7b\n @b \u00e9 \x7d c \x7b /* \x7d" = .ok nodes ∧
      WellNested nodes ∧
      (LineCursor.start
        "@-moz-document domain(a) \x7b\n @b \u00e9 \x7d c \x7b /* \x7d".toList).resolveEach
        (Node.placesAll nodes) = [0, 28, 31, 34, 36, 43].map .ok := by
  have hplaces : (readNodes
      "@-moz-document domain(a) \x7b\n @b \u00e9 \x7d c \x7b /* \x7d".toList).toOption.map
      Node.placesAll = some [0, 28, 31, 34, 36, 43] := by
    decide +kernel
  have hok : (parse
      "@-moz-document domain(a) \x7b\n @b \u00e9 \x7d c \x7b /* \x7d").toOption.isSome = true := by
    decide +kernel
  cases hp : parse "@-moz-document domain(a) \x7b\n @b \u00e9 \x7d c \x7b /* \x7d" with
  | error e =>
    rw [hp] at hok
    cases hok
  | ok nodes =>
    obtain ⟨hnested, ns, hns, -, hresolve, -⟩ := parse_spanTree hp
    rw [hns] at hplaces
    refine ⟨nodes, rfl, hnested, ?_⟩
    rw [hresolve, Option.some.inj hplaces]

end Userstyle.Css
