import Userstyle.Proofs.HeldCharacters
import Userstyle.Proofs.PatternCoverage

/-!
# Which pages a script reaches

A script runs on the pages that one of its match patterns covers, or on every page if it has none.
What a document rule gathers is never lost to the patterns. The patterns know nothing of the other
nodes, though: these gather style text on every page, also on those that no pattern covers
(`convert_reaches_iff`).
-/

namespace Userstyle.Css

open Script Source Text

/-! ## Nodes are not blank -/

theorem Owner.Heads.notBlank {owner : Owner} {head : List Lexeme} (h : owner.Heads head) :
    ∃ l ∈ head, ¬l.token.MayBeBlank := by
  obtain ⟨front, opener, rfl, ho, -⟩ := h.opener
  refine ⟨opener, by simp, ?_⟩
  simp [ho, Token.MayBeBlank]

theorem Leaf.notBlank {n : Node Nat} {ms : List Lexeme} (h : Leaf n ms) :
    ∃ l ∈ ms, ¬l.token.MayBeBlank := by
  cases h with
  | @comment l hl =>
    refine ⟨l, List.mem_singleton_self l, ?_⟩
    simp [hl, Token.MayBeBlank]
  | @statement keyword semicolon name kept lost hk hp hs =>
    refine ⟨keyword, List.mem_cons_self, ?_⟩
    simp [hk, Token.MayBeBlank]
  | block hh hd hb hc =>
    obtain ⟨l, hl, hmark⟩ := hh.notBlank
    exact ⟨l, List.mem_append_left _ hl, hmark⟩

/-- A node takes up lexemes that stand next to each other, and one of them cannot be blank. -/
theorem Node.ReadIn.covers {all : List Lexeme} {mayOpen : Bool} {n : Node Nat}
    (h : n.ReadIn all mayOpen) :
    ∃ a ms b, all = a ++ ms ++ b ∧ Covers n.span ms ∧ ∃ l ∈ ms, ¬l.token.MayBeBlank := by
  cases h with
  | @leaf _ n a ms b hall hn => exact ⟨a, ms, b, by simp [hall], hn.covers, hn.notBlank⟩
  | @document _ ending children a head inner b owner closer hall hh =>
    obtain ⟨l, hl, hmark⟩ := hh.notBlank
    refine ⟨a, head ++ (inner ++ [closer]), b, by simp [hall], hh.covers children ?_, l,
      List.mem_append_left _ hl, hmark⟩
    rw [← List.append_assoc, List.getLast?_concat]
  | @cutShort _ nesting a kept lost spaces b keyword name hall hk =>
    refine ⟨a, keyword :: kept, lost ++ spaces ++ b, by simp [hall], covers_cutShort keyword kept,
      keyword, List.mem_cons_self, ?_⟩
    simp [hk, Token.MayBeBlank]
  | @openBlock nesting a head body owner last hall hh hd hb hl =>
    obtain ⟨l, hmem, hmark⟩ := hh.notBlank
    exact ⟨a, head ++ body, [], by simp [hall], hh.covers [] hl, l, List.mem_append_left _ hmem,
      hmark⟩
  | @openDocument ending isOpen children a head inner owner last hall hh hd hi he hl =>
    obtain ⟨l, hmem, hmark⟩ := hh.notBlank
    exact ⟨a, head ++ inner, [], by simp [hall], hh.covers children hl, l,
      List.mem_append_left _ hmem, hmark⟩

theorem Node.ReadIn.notBlank {text : List Char} {mayOpen : Bool} {n : Node Nat}
    (h : n.ReadIn (lexemes (.start text)) mayOpen) :
    isAllBlank (stretch text (n.map (positionAt text)).span) = false := by
  obtain ⟨a, ms, b, hall, hcovers, l, hl, hmark⟩ := h.covers
  obtain ⟨x, y, rfl⟩ := List.append_of_mem hl
  have hmem : l ∈ lexemes (.start text) := by simp [hall]
  have hword : spelling (wordsOf (l :: y)) = l.text ++ spelling (wordsOf y) := rfl
  rw [Node.span_map, hcovers.stretch_eq hall, wordsOf_append, spelling_append, hword,
    isAllBlank_append, isAllBlank_append, Lexeme.notBlank hmem hmark, Bool.false_and,
    Bool.and_false]

end Userstyle.Css

namespace Userstyle

open Css Script Source Text

/-! ## Pages and patterns -/

/-- Apart from stars, every character of a pattern is one of the text that the pattern covers. -/
theorem Covers.mem {p s : List Char} {c : Char} (h : Covers p s) (hc : c ∈ p) (hstar : c ≠ '*') :
    c ∈ s := by
  induction h with
  | done => cases hc
  | char hd _ ih =>
    rcases List.mem_cons.mp hc with rfl | hc
    · exact List.mem_cons_self
    · exact List.mem_cons_of_mem _ (ih hc)
  | star run _ ih =>
    rcases List.mem_cons.mp hc with rfl | hc
    · exact absurd rfl hstar
    · exact List.mem_append_right run (ih hc)

/-- A script with these patterns in its header runs on the page with the URL. -/
def PatternSet.Reaches (s : PatternSet) (u : Url) : Prop :=
  s.patterns = [] ∨ ∃ p ∈ s.patterns, Covers p.toList u.text

/-- The page may be the one with the URL, as far as the conditions go: the check of one of them is
true only if the condition may hold. -/
def Script.Page.IsAt (page : Page) (u : Url) (cs : List Condition) : Prop :=
  ∀ c ∈ cs, page c.check = true → c.MayHold u

/-- The patterns of some conditions reach every page on which one of the conditions may hold. -/
theorem Targeting.reaches {cs : List Condition} {c : Condition} {u : Url} (hc : c ∈ cs)
    (hu : c.MayHold u) : (empty.addAll cs).patterns.Reaches u := by
  have hpatterns := (Of.empty.addAll cs).patterns
  rw [List.nil_append] at hpatterns
  rw [hpatterns]
  by_cases hf : ∃ d ∈ cs, d.Freezing
  · rw [if_pos hf]
    exact Or.inl rfl
  · obtain ⟨p, hp, hcovers⟩ := Condition.covered (fun hfc => hf ⟨c, hc, hfc⟩) hu
    rw [if_neg hf]
    refine Or.inr ⟨p, ?_, hcovers⟩
    show p ∈ (cs.flatMap Condition.contributed).eraseDups
    rw [List.mem_eraseDups]
    exact List.mem_flatMap.mpr ⟨c, hc, hp⟩

namespace Script

/-! ## What nodes gather -/

theorem dropBlankLines_ne_nil {s : List Char} (h : isAllBlank s = false) :
    dropBlankLines s ≠ [] := by
  intro hnil
  rw [dropBlankLines_eq, List.flatten_eq_nil_iff] at hnil
  have hlines : ∀ line ∈ lines s, isAllBlank line = true := by
    intro line hline
    by_contra hblank
    have hkept := hnil line (List.mem_filter.mpr ⟨hline, by simpa using hblank⟩)
    rw [hkept] at hblank
    exact hblank rfl
  have hall : isAllBlank s = true := by
    rw [← flatten_lines s]
    refine List.all_eq_true.mpr fun c hc => ?_
    obtain ⟨line, hline, hc⟩ := List.mem_flatten.mp hc
    exact List.all_eq_true.mp (hlines line hline) c hc
  rw [h] at hall
  cases hall

section Shown

variable {css : String} {nodes : List (Node Position)} {n : Node Position} {page : Page}

/-- A node that is not a document rule gathers style text on every page. -/
theorem shown_ne_nil (page : Page) (hp : parse css = .ok nodes) (hn : n ∈ nodes)
    (hd : n.documentParams? = none) : shown page css.toList n ≠ [] := by
  obtain ⟨ns, hns, -, rfl⟩ := parse_eq_ok hp
  obtain ⟨k, hk, rfl⟩ := List.mem_map.mp hn
  obtain ⟨mayOpen, -, hread⟩ := readNodes_readIn hns
  unfold shown
  rw [hd]
  exact dropBlankLines_ne_nil (hread k (.top hk)).notBlank

/-- A document rule gathers style text only where the check of one of its conditions is true. -/
theorem check_of_shown {text : List Char} (hd : n.documentParams?.isSome = true)
    (h : shown page text n ≠ []) : ∃ c ∈ n.conditions, page c.check = true := by
  obtain ⟨params, hparams⟩ := Option.isSome_iff_exists.mp hd
  unfold shown at h
  rw [hparams] at h
  by_contra hnone
  have hany : n.conditions.any (page ·.check) = false := by
    rw [← Bool.not_eq_true, List.any_eq_true]
    exact hnone
  simp [hany] at h

end Shown

/-! ## Scripts -/

/-- What document rules gather for a page reaches the page. All that a script gathers for a page
reaches it exactly if the script reaches the page anyway or the style sheet has document rules
only: other nodes gather style text on every page. -/
theorem convert_reaches_iff {css : String} {m : Metadata} {script : Userscript}
    (h : (convert css m).result = .ok script) :
    ∃ program nodes, (compile css).result = .ok program ∧ script = program.assemble m ∧
      parse (withoutMark css) = .ok nodes ∧
      ∀ (page : Page) (u : Url), page.IsAt u (nodes.flatMap Node.conditions) →
        ∃ gathered, gather page program.statements = some gathered ∧
          (∀ n ∈ nodes, n.documentParams?.isSome = true →
            shown page (withoutMark css).toList n ≠ [] → script.patterns.Reaches u) ∧
          ((gathered ≠ [] → script.patterns.Reaches u) ↔
            script.patterns.Reaches u ∨ ∀ n ∈ nodes, n.documentParams?.isSome = true) := by
  obtain ⟨nodes, hp, haccepted⟩ := (convert_ok_iff css m).mp ⟨script, h⟩
  have hn : ∀ n ∈ nodes, n.refusal? = none := fun n hn => accepted_iff.mp (haccepted n hn)
  have hc := compile_ok hp hn
  rw [convert_result_eq, hc] at h
  cases h
  refine ⟨_, nodes, hc, rfl, hp, fun page u hu => ?_⟩
  obtain ⟨program, hprogram, hg⟩ := gather_compile page hp hn
  rw [hc] at hprogram
  cases hprogram
  have hdocument : ∀ n ∈ nodes, n.documentParams?.isSome = true →
      shown page (withoutMark css).toList n ≠ [] →
      (Targeting.empty.addAll (nodes.flatMap Node.conditions)).patterns.Reaches u := by
    intro n hmem hd hne
    obtain ⟨c, hcond, hcheck⟩ := check_of_shown hd hne
    have hread : c ∈ nodes.flatMap Node.conditions := List.mem_flatMap.mpr ⟨n, hmem, hcond⟩
    exact Targeting.reaches hread (hu c hread hcheck)
  refine ⟨_, hg, hdocument, ?_⟩
  constructor
  · intro hreaches
    by_cases hall : ∀ n ∈ nodes, n.documentParams?.isSome = true
    · exact Or.inr hall
    · obtain ⟨n, hmem, hd⟩ : ∃ n ∈ nodes, n.documentParams? = none := by simpa using hall
      refine Or.inl (hreaches fun hnil => ?_)
      exact shown_ne_nil page hp hmem hd (List.flatMap_eq_nil_iff.mp hnil n hmem)
  · rintro (hreaches | hall) hne
    · exact hreaches
    · obtain ⟨n, hmem, hshown⟩ : ∃ n ∈ nodes, shown page (withoutMark css).toList n ≠ [] := by
        by_contra hnone
        simp only [not_exists, not_and, not_not] at hnone
        exact hne (List.flatMap_eq_nil_iff.mpr hnone)
      exact hdocument n hmem (hall n hmem) hshown

/-- The script of a document rule alone reaches a subdomain, to which the rule applies. -/
theorem convert_reaches_document :
    ∃ script program, (convert "@-moz-document domain(a.com) \x7b b \x7b\x7d \x7d" .empty).result =
        .ok script ∧
      (compile "@-moz-document domain(a.com) \x7b b \x7b\x7d \x7d").result = .ok program ∧
      script = program.assemble .empty ∧
      gather (· == "/(?:^|\\.)a\\.com$/.test(domain)") program.statements =
        some "b \x7b\x7d".toList ∧
      script.patterns.Reaches ⟨"http".toList, "www.a.com".toList, []⟩ := by
  have hnodes : (parse (withoutMark
      "@-moz-document domain(a.com) \x7b b \x7b\x7d \x7d")).toOption.map
      (fun nodes => (nodes.flatMap Node.conditions, nodes.all (·.documentParams?.isSome))) =
      some ([⟨.domain, "a.com"⟩], true) := by
    decide +kernel
  have htext : (compile "@-moz-document domain(a.com) \x7b b \x7b\x7d \x7d").result.toOption.map
      (fun program => gather (· == "/(?:^|\\.)a\\.com$/.test(domain)") program.statements) =
      some (some "b \x7b\x7d".toList) := by
    decide +kernel
  cases hc : (compile "@-moz-document domain(a.com) \x7b b \x7b\x7d \x7d").result with
  | error e =>
    rw [hc] at htext
    cases htext
  | ok program =>
    rw [hc] at htext
    have hgathered := Option.some.inj htext
    have hscript : (convert "@-moz-document domain(a.com) \x7b b \x7b\x7d \x7d" .empty).result =
        .ok (program.assemble .empty) := by
      rw [convert_result_eq, hc]
      rfl
    obtain ⟨program', nodes, hc', -, hp, hreaches⟩ := convert_reaches_iff hscript
    rw [hc] at hc'
    cases hc'
    rw [hp] at hnodes
    obtain ⟨hconditions, hall⟩ := Prod.mk.inj (Option.some.inj hnodes)
    have hat : Page.IsAt (· == "/(?:^|\\.)a\\.com$/.test(domain)")
        ⟨"http".toList, "www.a.com".toList, []⟩ (nodes.flatMap Node.conditions) := by
      intro c hmem _
      rw [hconditions] at hmem
      rw [List.mem_singleton.mp hmem]
      exact Or.inr ⟨"www".toList, by decide⟩
    obtain ⟨gathered, hg, -, hiff⟩ := hreaches _ _ hat
    have hne : gathered ≠ [] := by
      rw [Option.some.inj (hg.symm.trans hgathered)]
      exact List.cons_ne_nil _ _
    have hreached := hiff.mpr (Or.inr (List.all_eq_true.mp hall)) hne
    exact ⟨_, program, hscript, rfl, rfl, hgathered, hreached⟩

/-- A rule in front of a document rule does not reach a page to which the document rule does not
apply, though the script gathers it for that page. -/
theorem convert_not_reaches :
    ∃ script program nodes gathered,
      (convert "b \x7b\x7d\n@-moz-document domain(a.com) \x7b c \x7b\x7d \x7d" .empty).result =
        .ok script ∧
      (compile "b \x7b\x7d\n@-moz-document domain(a.com) \x7b c \x7b\x7d \x7d").result =
        .ok program ∧
      script = program.assemble .empty ∧
      parse (withoutMark "b \x7b\x7d\n@-moz-document domain(a.com) \x7b c \x7b\x7d \x7d") =
        .ok nodes ∧
      (∀ c ∈ nodes.flatMap Node.conditions, ¬c.MayHold ⟨"http".toList, "b.org".toList, []⟩) ∧
      gather (fun _ => false) program.statements = some gathered ∧ gathered ≠ [] ∧
      ¬script.patterns.Reaches ⟨"http".toList, "b.org".toList, []⟩ := by
  have hnodes : (parse (withoutMark
      "b \x7b\x7d\n@-moz-document domain(a.com) \x7b c \x7b\x7d \x7d")).toOption.map
      (·.flatMap Node.conditions) = some [⟨.domain, "a.com"⟩] := by
    decide +kernel
  have htext : (compile
      "b \x7b\x7d\n@-moz-document domain(a.com) \x7b c \x7b\x7d \x7d").result.toOption.map
      (fun program => (gather (fun _ => false) program.statements, program.targeting.patterns)) =
      some (some "b \x7b\x7d".toList, .listed ["*://a.com/*", "*://*.a.com/*"]) := by
    decide +kernel
  cases hp : parse (withoutMark
      "b \x7b\x7d\n@-moz-document domain(a.com) \x7b c \x7b\x7d \x7d") with
  | error e =>
    rw [hp] at hnodes
    cases hnodes
  | ok nodes =>
    cases hc : (compile
        "b \x7b\x7d\n@-moz-document domain(a.com) \x7b c \x7b\x7d \x7d").result with
    | error e =>
      rw [hc] at htext
      cases htext
    | ok program =>
      rw [hp] at hnodes
      rw [hc] at htext
      obtain ⟨hgathered, hpatterns⟩ := Prod.mk.inj (Option.some.inj htext)
      refine ⟨program.assemble .empty, program, nodes, _, ?_, rfl, rfl, rfl, ?_, hgathered,
        List.cons_ne_nil _ _, ?_⟩
      · rw [convert_result_eq, hc]
        rfl
      · intro c hmem hholds
        rw [show nodes.flatMap Node.conditions = _ from Option.some.inj hnodes] at hmem
        rw [List.mem_singleton.mp hmem] at hholds
        rcases hholds with hhost | hsubdomain
        · exact absurd hhost (by decide)
        · exact absurd hsubdomain (by decide)
      · show ¬program.targeting.patterns.Reaches _
        rw [hpatterns]
        rintro (hnone | ⟨p, hp, hcovers⟩)
        · cases hnone
        · -- Both patterns have a letter that is not in the URL.
          have hletter : ∀ p ∈ ["*://a.com/*", "*://*.a.com/*"], 'a' ∈ p.toList := by decide
          have hmem := hcovers.mem (hletter p hp) (by decide)
          revert hmem
          decide

end Script

end Userstyle
