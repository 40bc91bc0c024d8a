import Userstyle.Proofs.Execution
import Userstyle.Proofs.LexemeTexts
import Userstyle.Proofs.SheetNodes

/-!
# The parameters of at-rules

The prelude of an at-rule is what stands between its keyword and the semicolon or the block that
ends it, or the end of the text or of the document block around it. The parameters are the trimmed
text of the prelude up to its last lexeme outside of brackets. If that lexeme opens a bracket, what
stands in the bracket is lost (`parse_params`): that happens when a closing bracket is the last
lexeme of the prelude. White space in front of the semicolon or the block keeps it from happening.
-/

namespace Userstyle.Text

variable {s t : List Char}

theorem trimStart_append (t : List Char) (hs : isAllBlank s = false) :
    trimStart (s ++ t) = trimStart s ++ t := by
  have hne : (s.dropWhile isBlank).isEmpty = false := by
    rw [List.isEmpty_eq_false_iff, ne_eq, List.dropWhile_eq_nil_iff, ← List.all_eq_true]
    unfold isAllBlank at hs
    simp [hs]
  unfold trimStart
  rw [List.dropWhile_append, hne]
  rfl

theorem trimEnd_append (s : List Char) (ht : isAllBlank t = false) :
    trimEnd (s ++ t) = s ++ trimEnd t := by
  have hreverse : isAllBlank t.reverse = false := by
    unfold isAllBlank at ht ⊢
    rwa [List.all_reverse]
  have h := trimStart_append s.reverse hreverse
  unfold trimStart at h
  unfold trimEnd
  rw [List.reverse_append, h, List.reverse_append, List.reverse_reverse]

theorem trimEnd_append_blank (s : List Char) (ht : isAllBlank t = true) :
    trimEnd (s ++ t) = trimEnd s := by
  have hnil : t.reverse.dropWhile isBlank = [] := by
    rw [List.dropWhile_eq_nil_iff]
    intro c hc
    exact List.all_eq_true.mp ht c (List.mem_reverse.mp hc)
  unfold trimEnd
  rw [List.reverse_append, List.dropWhile_append, hnil]
  rfl

theorem trim_append_blank (s : List Char) (ht : isAllBlank t = true) : trim (s ++ t) = trim s := by
  by_cases hs : isAllBlank s = true
  · have hst : isAllBlank (s ++ t) = true := by
      unfold isAllBlank at *
      rw [List.all_append, hs, ht]
      rfl
    rw [(Script.trim_eq_nil_iff s).mpr hs, (Script.trim_eq_nil_iff (s ++ t)).mpr hst]
  · rw [Bool.not_eq_true] at hs
    unfold trim
    rw [trimStart_append t hs, trimEnd_append_blank _ ht]

/-- Behind a text that is not blank, only blank characters do not matter. -/
theorem trim_append_eq_iff (hs : isAllBlank s = false) :
    trim (s ++ t) = trim s ↔ isAllBlank t = true := by
  constructor
  · intro h
    by_contra ht
    rw [Bool.not_eq_true] at ht
    have hlonger : trim (s ++ t) = trimStart s ++ trimEnd t := by
      unfold trim
      rw [trimStart_append t hs, trimEnd_append _ ht]
    have hlength : (trim s).length ≤ (trimStart s).length :=
      (trimEnd_isPrefix (trimStart s)).length_le
    have hne : 0 < (trimEnd t).length := by
      rw [List.length_pos_iff]
      intro hnil
      unfold trimEnd at hnil
      rw [List.reverse_eq_nil_iff, List.dropWhile_eq_nil_iff] at hnil
      have hall : isAllBlank t = true :=
        List.all_eq_true.mpr fun c hc => hnil c (List.mem_reverse.mpr hc)
      rw [hall] at ht
      cases ht
    rw [← h, hlonger, List.length_append] at hlength
    omega
  · exact trim_append_blank s

end Userstyle.Text

namespace Userstyle.Css

open Source Text

/-- The trimmed text of lexemes. -/
def trimmed (ls : List Lexeme) : String := String.ofList (trim (spelling (wordsOf ls)))

/-- The prelude of an at-rule with `b` behind it, cut into the part that the parameters are taken
from, the part that is lost, and white space. -/
inductive PreludeCut : (prelude kept lost b : List Lexeme) → Prop where
  /-- A semicolon or a block ends the prelude. -/
  | ended {kept lost ls : List Lexeme} {l : Lexeme} (hp : PreludeParts [] kept lost)
      (hl : l.token = .semicolon ∨ l.token = .opening .curly) :
      PreludeCut (kept ++ lost) kept lost (l :: ls)
  /-- The end of the text or of the document block around the at-rule cuts the prelude short. -/
  | cutShort {nesting : List Bracket} {kept lost spaces b : List Lexeme}
      (hp : PreludeParts nesting kept lost) (hl : ∀ l ∈ kept.getLast?, l.token ≠ .space)
      (hs : ∀ l ∈ spaces, l.token = .space)
      (hb : b = [] ∨ nesting = [] ∧ ∃ l ls, b = l :: ls ∧ l.token = .closing .curly) :
      PreludeCut (kept ++ lost ++ spaces) kept lost b

/-- Among all lexemes, the prelude stands behind the keyword of an at-rule with the name, and `b`
behind the prelude. -/
structure HasPrelude (all : List Lexeme) (name : String) (keyword : Lexeme)
    (prelude kept lost b : List Lexeme) : Prop where
  token : keyword.token = .atKeyword name
  place : ∃ a, all = a ++ keyword :: (prelude ++ b)
  cut : PreludeCut prelude kept lost b

section

variable {all : List Lexeme} {name params : String} {children : List (Node Nat)} {span : Span Nat}

/-- An at-rule that owns a block has a prelude in front of the block. -/
theorem Owner.Heads.prelude {keyword : Lexeme} {a head rest : List Lexeme}
    (h : (Owner.atRule keyword name params).Heads head) (hall : all = a ++ (head ++ rest)) :
    ∃ prelude kept lost opener, opener.token = .opening .curly ∧
      HasPrelude all name keyword prelude kept lost (opener :: rest) ∧
      params = paramsBetween keyword (kept.getLastD keyword) := by
  cases h with
  | @atRule _ opener _ kept lost hk hp ho =>
    refine ⟨kept ++ lost, kept, lost, opener, ho, ⟨hk, ⟨a, ?_⟩, ?_⟩, rfl⟩
    · simp [hall]
    · exact .ended hp (Or.inr ho)

theorem Owner.Heads.hasPrelude {owner : Owner} {a head rest : List Lexeme} {last : Nat}
    {nodes : List (Node Nat)} (h : owner.Heads head) (hall : all = a ++ (head ++ rest))
    (hn : Node.atRule name params children span = owner.node nodes last) :
    ∃ keyword prelude kept lost b, HasPrelude all name keyword prelude kept lost b ∧
      span.first = keyword.start.offset ∧
      params = paramsBetween keyword (kept.getLastD keyword) := by
  cases owner with
  | rule => cases hn
  | atRule keyword =>
    cases hn
    obtain ⟨prelude, kept, lost, opener, -, hprelude, hparams⟩ := h.prelude hall
    exact ⟨keyword, prelude, kept, lost, _, hprelude, rfl, hparams⟩

theorem Node.ReadIn.hasPrelude {mayOpen : Bool}
    (h : (Node.atRule name params children span).ReadIn all mayOpen) :
    ∃ keyword prelude kept lost b, HasPrelude all name keyword prelude kept lost b ∧
      span.first = keyword.start.offset ∧
      params = paramsBetween keyword (kept.getLastD keyword) := by
  generalize hnode : Node.atRule name params children span = n at h
  cases h with
  | @leaf _ n a ms b hall hn =>
    cases hn with
    | comment => cases hnode
    | @statement keyword semicolon name kept lost hk hp hs =>
      cases hnode
      refine ⟨keyword, kept ++ lost, kept, lost, semicolon :: b, ⟨hk, ⟨a, ?_⟩, ?_⟩, rfl, rfl⟩
      · simp [hall]
      · exact .ended hp (Or.inl hs)
    | @block owner head body closer hh hd hb hc =>
      rw [List.append_assoc] at hall
      exact hh.hasPrelude hall hnode
  | document hall hh => exact hh.hasPrelude hall hnode
  | @cutShort _ nesting a kept lost spaces b keyword name hall hk hp hl hs hb =>
    cases hnode
    refine ⟨keyword, kept ++ lost ++ spaces, kept, lost, b, ⟨hk, ⟨a, ?_⟩, ?_⟩, rfl, rfl⟩
    · simp [hall]
    · refine .cutShort hp (fun l hlast => ?_) hs hb
      rwa [List.getLastD_eq_getLast?, hlast] at hl
  | openBlock hall hh => exact hh.hasPrelude hall hnode
  | openDocument hall hh => exact hh.hasPrelude hall hnode

end

/-! ## The text of preludes -/

section Texts

variable {p : Place} {name : String} {keyword : Lexeme} {prelude kept lost b : List Lexeme}

theorem PreludeCut.spaces (h : PreludeCut prelude kept lost b) :
    ∃ spaces, prelude = kept ++ lost ++ spaces ∧ ∀ l ∈ spaces, l.token = .space := by
  cases h with
  | ended => exact ⟨[], by simp, by simp⟩
  | @cutShort nesting kept lost spaces b hp hl hs hb => exact ⟨spaces, rfl, hs⟩

theorem PreludeCut.parts (h : PreludeCut prelude kept lost b) :
    ∃ nesting, PreludeParts nesting kept lost := by
  cases h with
  | ended hp => exact ⟨_, hp⟩
  | cutShort hp => exact ⟨_, hp⟩

theorem isAllBlank_append (s t : List Char) :
    isAllBlank (s ++ t) = (isAllBlank s && isAllBlank t) := List.all_append

theorem isAllBlank_spaces {ls : List Lexeme} (hls : ∀ l ∈ ls, l ∈ lexemes p)
    (hs : ∀ l ∈ ls, l.token = .space) : isAllBlank (spelling (wordsOf ls)) = true := by
  induction ls with
  | nil => rfl
  | cons l ls ih =>
    rw [List.forall_mem_cons] at hls hs
    have hword : spelling (wordsOf (l :: ls)) = l.text ++ spelling (wordsOf ls) := rfl
    have hl : isAllBlank l.text = true := by
      refine List.all_eq_true.mpr fun c hc => isBlank_of_isSpace ?_
      exact Lexeme.isSpace_text hls.1 hs.1 c hc
    rw [hword, isAllBlank_append, hl, ih hls.2 hs.2]
    rfl

/-- The parameters are the trimmed text of the whole prelude just if what is lost is blank. -/
theorem HasPrelude.params_eq_iff (h : HasPrelude (lexemes p) name keyword prelude kept lost b) :
    trimmed kept = trimmed prelude ↔ isAllBlank (spelling (wordsOf lost)) = true := by
  obtain ⟨a, hall⟩ := h.place
  have hcut := h.cut
  have hmem : ∀ l ∈ prelude, l ∈ lexemes p := by
    intro l hl
    rw [hall]
    simp [hl]
  obtain ⟨spaces, rfl, hs⟩ := hcut.spaces
  have hblank : isAllBlank (spelling (wordsOf spaces)) = true :=
    isAllBlank_spaces (fun l hl => hmem l (by simp [hl])) hs
  have htrim : trimmed (kept ++ lost ++ spaces) = trimmed (kept ++ lost) := by
    unfold trimmed
    rw [wordsOf_append, spelling_append, trim_append_blank _ hblank]
  rw [htrim]
  by_cases hlost : lost = []
  · subst hlost
    simp [wordsOf, isAllBlank]
  · obtain ⟨nesting, hparts⟩ := hcut.parts
    obtain ⟨init, l, c, rfl, hl, -⟩ := hparts.opener hlost
    have hkept : isAllBlank (spelling (wordsOf (init ++ [l]))) = false := by
      have hopener : isAllBlank l.text = false := by
        refine Lexeme.notBlank (hmem l (by simp)) ?_
        rw [hl]
        simp [Token.MayBeBlank]
      rw [wordsOf_append, spelling_append, isAllBlank_append]
      simp [wordsOf, Lexeme.word, hopener]
    unfold trimmed
    rw [String.ofList_inj, wordsOf_append _ lost, spelling_append _ (wordsOf lost), eq_comm]
    exact trim_append_eq_iff hkept

theorem HasPrelude.params (h : HasPrelude (lexemes p) name keyword prelude kept lost b) :
    paramsBetween keyword (kept.getLastD keyword) = trimmed kept := by
  obtain ⟨a, hall⟩ := h.place
  obtain ⟨spaces, rfl, -⟩ := h.cut.spaces
  obtain ⟨q, hq, -, -⟩ := lexemes_eq_append hall
  obtain ⟨-, -, hrest, -, -⟩ := lexemes_eq_cons hq
  rw [List.append_assoc, List.append_assoc] at hrest
  unfold paramsBetween trimmed
  rw [textTo_getLastD hrest]

end Texts

/-- White space in front of a semicolon or a block keeps all of the prelude. -/
theorem PreludeCut.lost_of_space {prelude kept lost b : List Lexeme} {l : Lexeme}
    (h : PreludeCut prelude kept lost b)
    (hb : ∃ k ls, b = k :: ls ∧ (k.token = .semicolon ∨ k.token = .opening .curly))
    (hl : prelude.getLast? = some l) (hs : l.token = .space) : lost = [] := by
  have hspace : ∀ {c}, l.token ≠ .closing c := by
    intro c hc
    rw [hs] at hc
    cases hc
  cases h with
  | ended hp =>
    generalize hn : ([] : List Bracket) = nesting at hp
    cases hp with
    | nil => rfl
    | mark => rfl
    | inside => simp at hn
    | @group ls ms k m c hls hok hk hms hm =>
      rw [← List.append_assoc, List.getLast?_concat] at hl
      rw [Option.some.inj hl] at hm
      exact absurd hm hspace
  | @cutShort nesting kept lost spaces b hp hkept hspaces hcut =>
    obtain ⟨k, ls, rfl, hk⟩ := hb
    rcases hcut with hcut | ⟨-, m, ms, hcut, hm⟩
    · cases hcut
    · obtain ⟨rfl, -⟩ := List.cons.inj hcut
      rw [hm] at hk
      simp at hk

/-- The parameters of an at-rule, at whatever depth, are the trimmed text of its prelude up to what
is lost, so that of the whole prelude if and only if what is lost is blank. That is so if white
space stands in front of the semicolon or the block. -/
theorem parse_params {css : String} {nodes : List (Node Position)} (h : parse css = .ok nodes)
    {name params : String} {children : List (Node Position)} {span : Span Position}
    (hn : (Node.atRule name params children span).Occurs nodes) :
    ∃ keyword prelude kept lost b,
      HasPrelude (lexemes (.start css.toList)) name keyword prelude kept lost b ∧
      span.first = positionAt css.toList keyword.start.offset ∧ params = trimmed kept ∧
      (params = trimmed prelude ↔ isAllBlank (spelling (wordsOf lost)) = true) ∧
      ((∃ l ls, b = l :: ls ∧ (l.token = .semicolon ∨ l.token = .opening .curly)) →
        (∃ l, prelude.getLast? = some l ∧ l.token = .space) → params = trimmed prelude) := by
  obtain ⟨ns, hns, -, rfl⟩ := parse_eq_ok h
  obtain ⟨n, hoccurs, hmap⟩ := Node.occurs_map hn
  obtain ⟨mayOpen, -, hread⟩ := readNodes_readIn hns
  cases n with
  | rule => cases hmap
  | comment => cases hmap
  | atRule name params children span =>
    cases hmap
    obtain ⟨keyword, prelude, kept, lost, b, hprelude, hfirst, hparams⟩ :=
      (hread _ hoccurs).hasPrelude
    rw [hprelude.params] at hparams
    refine ⟨keyword, prelude, kept, lost, b, hprelude,
      congrArg (positionAt css.toList) hfirst, hparams, ?_, ?_⟩
    · rw [hparams]
      exact hprelude.params_eq_iff
    · rintro hb ⟨l, hl, hspace⟩
      rw [hparams, hprelude.params_eq_iff, hprelude.cut.lost_of_space hb hl hspace]
      rfl

theorem Node.eq_atRule {α : Type} {n : Node α} {params : String}
    (h : n.documentParams? = some params) :
    ∃ name children span, n = .atRule name params children span := by
  cases n with
  | rule => cases h
  | comment => cases h
  | atRule name params' children span =>
    by_cases hname : isDocumentName name = true
    · simp only [documentParams?, hname, if_true, Option.some.injEq] at h
      exact ⟨name, children, span, by rw [h]⟩
    · simp [documentParams?, hname] at h

/-- A list of conditions that ends with a bracket is cut. -/
theorem parse_params_document :
    ∃ nodes name children span,
      parse "@-moz-document domain(a)\x7b\x7d" = .ok nodes ∧
      (Node.atRule name "domain(" children span).Occurs nodes ∧
      ∃ keyword prelude kept lost b,
        HasPrelude (lexemes (.start "@-moz-document domain(a)\x7b\x7d".toList)) name keyword prelude
          kept lost b ∧
        "domain(" = trimmed kept := by
  have hdocument : (parse "@-moz-document domain(a)\x7b\x7d").toOption.map
      (·.map Node.documentParams?) = some [some "domain("] := by decide +kernel
  cases h : parse "@-moz-document domain(a)\x7b\x7d" with
  | error e =>
    rw [h] at hdocument
    cases hdocument
  | ok nodes =>
    rw [h] at hdocument
    obtain ⟨n, ns, rfl, hn, -⟩ := List.map_eq_cons_iff.mp (Option.some.inj hdocument)
    obtain ⟨name, children, span, rfl⟩ := Node.eq_atRule hn
    have hoccurs : (Node.atRule name "domain(" children span).Occurs
        (.atRule name "domain(" children span :: ns) := .top List.mem_cons_self
    obtain ⟨keyword, prelude, kept, lost, b, hprelude, -, hparams, -⟩ := parse_params h hoccurs
    exact ⟨_, name, children, span, rfl, hoccurs, keyword, prelude, kept, lost, b, hprelude,
      hparams⟩

/-- White space in front of the block makes a difference behind a bracket. -/
theorem documentParams?_parse :
    (parse "@-moz-document domain(a) \x7b\x7d").toOption.map (·.map Node.documentParams?) =
        some [some "domain(a)"] ∧
      (parse "@-moz-document domain(a)\x7b\x7d").toOption.map (·.map Node.documentParams?) =
        some [some "domain("] := by
  decide +kernel

end Userstyle.Css
