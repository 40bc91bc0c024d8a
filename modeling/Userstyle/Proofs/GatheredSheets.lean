import Userstyle.Proofs.BlankLines
import Userstyle.Proofs.Execution
import Userstyle.Proofs.NodeEnds

/-!
# The gathered style text as a style sheet

The style text that a script gathers on a page is a style sheet again. The nodes that it splits into
should be those that apply on the page: the top-level nodes that are not document rules, and the
rules inside of the document rules of which a condition holds.

They are these if what is copied are separate parts (`convert_keepsStructure`). A part loses blank
lines in its white space, its comments and its unquoted URLs only. Each but the last one ends with a
semicolon, a closing curly bracket or a comment of its own; the last one may also be cut short, but
not behind a backslash. Other parts can run into what follows them (`not_keepsStructure`).
-/

namespace Userstyle.Script

open Css Source

/-- The nodes of a style sheet that apply on a page. -/
def applying (page : Page) (nodes : List (Node Position)) : List (Node Position) :=
  nodes.flatMap fun n =>
    match n.documentParams? with
    | none => [n]
    | some _ => if n.conditions.any (page ·.check) then n.children else []

/-- The style text that the script of a style sheet gathers on a page splits into nodes like those
that apply there. -/
def KeepsStructure (page : Page) (css : String) : Prop :=
  ∃ program nodes gathered regained, (compile css).result = .ok program ∧
    parse (withoutMark css) = .ok nodes ∧ gather page program.statements = some gathered ∧
    parse (String.ofList gathered) = .ok regained ∧
    regained.map Node.outline = (applying page nodes).map Node.outline

/-- What is gathered on a page, by the nodes of the style sheet. -/
theorem keepsStructure_iff {page : Page} {css : String} {nodes : List (Node Position)}
    (hp : parse (withoutMark css) = .ok nodes) (hn : ∀ n ∈ nodes, n.refusal? = none) :
    KeepsStructure page css ↔
      outlinesIn? (nodes.flatMap (shown page (withoutMark css).toList)) =
        some ((applying page nodes).map Node.outline) := by
  obtain ⟨program, hc, hg⟩ := gather_compile page hp hn
  have houtlines := outlines_parse
    (String.ofList (nodes.flatMap (shown page (withoutMark css).toList)))
  rw [String.toList_ofList] at houtlines
  rw [← houtlines]
  constructor
  · rintro ⟨program', nodes', gathered, regained, hc', hp', hg', hr, heq⟩
    rw [hc] at hc'
    cases hc'
    rw [hp] at hp'
    cases hp'
    rw [hg] at hg'
    cases hg'
    rw [hr]
    exact congrArg some heq
  · intro h
    cases hr : parse (String.ofList (nodes.flatMap (shown page (withoutMark css).toList))) with
    | error e =>
      rw [hr] at h
      cases h
    | ok regained =>
      rw [hr] at h
      exact ⟨program, nodes, _, regained, hc, hp, hg, hr, Option.some.inj h⟩

/-- Whether the structure of a style sheet is kept, by splitting it and what is gathered. -/
def keepsStructure? (page : Page) (css : String) : Bool :=
  match parse (withoutMark css) with
  | .error _ => false
  | .ok nodes =>
    (nodes.all fun n => n.refusal?.isNone) &&
      outlinesIn? (nodes.flatMap (shown page (withoutMark css).toList)) ==
        some ((applying page nodes).map Node.outline)

theorem keepsStructure?_iff (page : Page) (css : String) :
    keepsStructure? page css = true ↔ KeepsStructure page css := by
  unfold keepsStructure?
  constructor
  · intro h
    split at h
    · cases h
    · rename_i nodes hp
      rw [Bool.and_eq_true, List.all_eq_true, beq_iff_eq] at h
      exact (keepsStructure_iff hp fun n hn => Option.isNone_iff_eq_none.mp (h.1 n hn)).mpr h.2
  · intro h
    obtain ⟨program, -, -, -, hc, -⟩ := id h
    obtain ⟨nodes, hp, hn⟩ := compile_nodes hc
    rw [hp]
    dsimp only
    rw [Bool.and_eq_true, List.all_eq_true, beq_iff_eq]
    exact ⟨fun n hmem => Option.isNone_iff_eq_none.mpr (hn n hmem), (keepsStructure_iff hp hn).mp h⟩

instance (page : Page) (css : String) : Decidable (KeepsStructure page css) :=
  decidable_of_iff _ (keepsStructure?_iff page css)

/-- An at-rule that the end of its document block cuts short runs into the node behind the block. A
blank line that is left out behind an escape at the end of a line lets two names run together. Both
style sheets are converted. -/
theorem not_keepsStructure :
    ((convert "@-moz-document domain(\"a.com\") \x7b @import \"x.css\" \x7d\nb \x7b\x7d"
        .empty).result.toOption.isSome = true ∧
      ¬KeepsStructure (fun _ => true)
        "@-moz-document domain(\"a.com\") \x7b @import \"x.css\" \x7d\nb \x7b\x7d") ∧
    (convert "@m\\6d\n\na \x7b\x7d" .empty).result.toOption.isSome = true ∧
      ¬KeepsStructure (fun _ => true) "@m\\6d\n\na \x7b\x7d" := by
  decide +kernel

/-! ## Parts that can be put together -/

/-- In front of any other text, the text makes up nodes with the outlines. -/
def Prefixes (os : List Outline) (t : List Char) : Prop :=
  ∃ ws : List Word, (∀ z, words (t ++ z) = ws ++ words z) ∧
    ∀ s : Sketch, s.stage = .between → s.run (ws.map Word.token) = some (s.add os)

/-- Behind nodes, the text makes up nodes with the outlines if nothing follows it. -/
def Ends (os : List Outline) (t : List Char) : Prop :=
  ∀ s : Sketch, s.stage = .between → ∃ s', s.run ((words t).map Word.token) = some s' ∧
    s'.FinishesLike (s.add os) t.getLast?

theorem ends_nil : Ends [] [] := by
  intro s hs
  rw [words_nil, Sketch.add_nil hs]
  exact ⟨s, rfl, fun closed nodes _ => id⟩

theorem Prefixes.append_ends {os os' : List Outline} {t t' : List Char} (h : Prefixes os t)
    (h' : Ends os' t') : Ends (os ++ os') (t ++ t') := by
  obtain ⟨ws, hws, hrun⟩ := h
  intro s hs
  obtain ⟨s', hrun', hfinish⟩ := h' (s.add os) rfl
  refine ⟨s', ?_, fun closed nodes hclosed hnodes => hfinish closed nodes (fun hlast => ?_) ?_⟩
  · rw [hws, List.map_append, Sketch.run_append, hrun s hs, Option.bind_some, hrun']
  · refine hclosed ?_
    rw [List.getLast?_append, hlast]
    rfl
  · rwa [Sketch.add_add]

theorem Ends.outlinesIn? {os : List Outline} {t : List Char} (h : Ends os t) :
    outlinesIn? t = some os := by
  obtain ⟨s', hrun, hfinish⟩ := h Sketch.start rfl
  unfold Css.outlinesIn?
  rw [hrun, Option.bind_some]
  refine hfinish _ _ (fun hlast => by rw [hlast]; rfl) ?_
  simp [Sketch.add, Sketch.start, Sketch.finish, Sketch.closeAll, Sketch.around]

/-- The part of a style sheet that is copied for a top-level node on a page. -/
def copied (page : Page) (text : List Char) (n : Node Position) : List Char :=
  match n.documentParams? with
  | none => stretch text n.span
  | some _ => if n.conditions.any (page ·.check) then inner text n.children else []

section Document

variable {n : Node Position} {params : String}

theorem applying_none (page : Page) (h : n.documentParams? = none) : applying page [n] = [n] := by
  simp [applying, h]

theorem applying_document (page : Page) (h : n.documentParams? = some params) :
    applying page [n] = if n.conditions.any (page ·.check) then n.children else [] := by
  simp [applying, h]

theorem copied_document (page : Page) (text : List Char) (h : n.documentParams? = some params) :
    copied page text n =
      if n.conditions.any (page ·.check) then inner text n.children else [] := by
  rw [copied, h]

end Document

theorem shown_eq (page : Page) (text : List Char) (n : Node Position) :
    shown page text n = dropBlankLines (copied page text n) := by
  unfold shown copied
  cases n.documentParams? with
  | none => rfl
  | some params =>
    dsimp only
    split <;> rfl

/-- A part of a style sheet that is copied for nodes `ns` is separate from the nodes `after` them. It
loses blank lines in its white space, its comments and its unquoted URLs only, and it ends with a
word that is closed, which is a comment only if the last of its nodes is one. If nothing of what
follows applies, it need not end so, but it must not end with a backslash: at the end of a text, that
is an escape. -/
structure Separate (page : Page) (part : List Char) (ns after : List (Node Position)) : Prop where
  blank : dropBlankLines part = spelling ((words part).map Word.thin)
  closed : applying page after ≠ [] → ∃ us w, words part = us ++ [w] ∧ w.Closed ∧
    (w.token = .comment → (ns.map Node.outline).getLast? = some .comment)
  last : applying page after = [] → ¬['\\'] <:+ part

/-- What is copied of a style sheet on a page are separate parts. -/
def Separable (page : Page) (css : String) : Prop :=
  ∀ before n after, parse (withoutMark css) = .ok (before ++ n :: after) →
    applying page [n] ≠ [] →
      Separate page (copied page (withoutMark css).toList n) (applying page [n]) after

/-- The words of a part without its blank lines. -/
theorem words_dropBlankLines {part : List Char}
    (h : dropBlankLines part = spelling ((words part).map Word.thin)) :
    words (dropBlankLines part) = (words part).map Word.thin := by
  rw [h]
  exact words_thinned rfl thins_words

theorem map_token_thin (ws : List Word) :
    (ws.map Word.thin).map Word.token = ws.map Word.token := by
  rw [List.map_map]
  exact congrArg (ws.map ·) (funext Word.token_thin)

theorem map_token_wordsOf (ls : List Lexeme) : (wordsOf ls).map Word.token = tokensOf ls := by
  unfold wordsOf tokensOf
  rw [List.map_map]
  rfl

section Parts

variable {page : Page} {text : List Char} {a ls b : List Lexeme} {ns after : List (Node Position)}

/-- A separate part in front of other nodes that apply makes up the nodes that it is copied for. -/
theorem Separate.prefixes (h : Separate page (spelling (wordsOf ls)) ns after)
    (hafter : applying page after ≠ []) (hls : lexemes (.start text) = a ++ ls ++ b)
    (hy : Yields false (ns.map Node.outline) ls) :
    Prefixes (ns.map Node.outline) (dropBlankLines (spelling (wordsOf ls))) := by
  obtain ⟨us, w, hwords, hw, hcomment⟩ := h.closed hafter
  have hls := wordsOf_eq hls hwords hw
  have hthin := words_dropBlankLines h.blank
  refine ⟨(us ++ [w]).map Word.thin, fun z => ?_, fun s hs => ?_⟩
  · rw [hwords] at hthin
    have hend := words_append_of_standsAlone z (hthin.trans (List.append_nil _).symm) fun v hv => by
      rw [List.getLast?_map, List.getLast?_concat] at hv
      cases hv
      exact (thins_words w (by rw [hwords]; simp)).standsAlone hw.standsAlone
    exact hend
  · rw [map_token_thin, ← hls, map_token_wordsOf]
    have hlast : ∃ l, ls.getLast? = some l ∧ l.word = w := by
      have hmap := congrArg List.getLast? hls
      unfold wordsOf at hmap
      rw [List.getLast?_map, List.getLast?_concat] at hmap
      exact Option.map_eq_some_iff.mp hmap
    obtain ⟨l, hl, rfl⟩ := hlast
    cases hy with
    | whole hadds => exact hadds s hs
    | cutShort hbreaks hend =>
      obtain ⟨hsemi, hcurly⟩ := hend l hl
      rcases hw.eq_or with heq | heq | heq
      · exact absurd (congrArg Word.token heq) hsemi
      · exact absurd (congrArg Word.token heq) hcurly
      · exact absurd (hcomment heq) hbreaks.getLast?_ne
    | completes hf => cases hf

/-- A separate part behind which nothing applies makes up the nodes that it is copied for. -/
theorem Separate.ends {final : Bool} {init : List Lexeme} {l : Lexeme}
    (h : Separate page (spelling (wordsOf (init ++ [l]))) ns after)
    (hafter : applying page after = []) (hls : lexemes (.start text) = a ++ (init ++ [l]) ++ b)
    (hy : Yields final (ns.map Node.outline) (init ++ [l])) (hl : EndsNode l b) :
    Ends (ns.map Node.outline) (dropBlankLines (spelling (wordsOf (init ++ [l])))) := by
  obtain ⟨t, ht, hcut⟩ := hl.words_cutOff hls (h.last hafter)
  have hthin := words_dropBlankLines h.blank
  have hblank := h.blank
  rw [hcut] at hthin hblank
  intro s hs
  obtain ⟨s', hrun, hfinish⟩ := hy.finishes ht hs
  refine ⟨s', ?_, fun closed nodes hclosed => hfinish closed nodes fun hbrace => hclosed ?_⟩
  · rw [hthin, map_token_thin, List.map_append, map_token_wordsOf]
    exact hrun
  · have hkeep := Word.getLast?_thin (w := ⟨t, l.text⟩) (by decide) hbrace
    rw [hblank, List.map_append, spelling_append, List.map_singleton, spelling_cons, spelling_nil,
      List.append_nil, List.getLast?_append, hkeep]
    rfl

end Parts

/-- What is copied for a node is the text of lexemes that make up the nodes that apply, and another
node ends where they end. -/
theorem copied_piece {page : Page} {text : List Char} {final : Bool} {ns : List (Node Nat)}
    {n : Node Nat} {a ms b : List Lexeme} (hns : readNodes text = .ok ns) (hn : n ∈ ns)
    (hls : lexemes (.start text) = a ++ ms ++ b) (hplaced : Placed final n ms)
    (happly : applying page [n.map (positionAt text)] ≠ []) :
    ∃ x init l y, lexemes (.start text) = x ++ (init ++ [l]) ++ y ∧ EndsNode l y ∧
      copied page text (n.map (positionAt text)) = spelling (wordsOf (init ++ [l])) ∧
      Yields final ((applying page [n.map (positionAt text)]).map Node.outline) (init ++ [l]) := by
  generalize hn' : n.map (positionAt text) = n' at happly ⊢
  cases hp : n'.documentParams? with
  | none =>
    have hcopied : copied page text n' = spelling (wordsOf ms) := by
      unfold copied
      rw [hp, ← hn', Node.span_map]
      exact hplaced.covers.stretch_eq hls
    have houtline : [n'].map Node.outline = [n.outline] := by
      rw [← hn', List.map_singleton, Node.outline_map]
    obtain ⟨init, l, rfl, hl⟩ := hplaced.covers.endsNode hns (.top hn) hls rfl
    rw [applying_none page hp, houtline]
    exact ⟨a, init, l, b, hls, hl, hcopied, hplaced.yields⟩
  | some params =>
    have hchildren : n'.children = n.children.map (Node.map (positionAt text)) := by
      rw [← hn', Node.children_map]
    rw [applying_document page hp] at happly ⊢
    split at happly
    · rename_i hany
      rw [if_pos hany]
      rcases hplaced.inside with hnil | ⟨x, ls, y, rfl, span, hspan, hcovers, hyields⟩
      · rw [hchildren, hnil] at happly
        exact absurd rfl happly
      · -- The children take up `ls`, in the middle of the lexemes of the document rule.
        have hplace : lexemes (.start text) = (a ++ x) ++ ls ++ (y ++ b) := by rw [hls]; simp
        have hinner : copied page text n' = spelling (wordsOf ls) := by
          rw [copied_document page text hp, if_pos hany, inner, hchildren, Node.spanOf?_map, hspan]
          exact hcovers.stretch_eq hplace
        obtain ⟨k, hk, hlast⟩ := Node.spanOf?_last hspan
        obtain ⟨init, l, rfl, hl⟩ := hcovers.endsNode hns (.deep hn (.top hk)) hplace hlast
        refine ⟨a ++ x, init, l, y ++ b, hplace, hl, hinner, ?_⟩
        rwa [hchildren, Node.map_outline_map]
    · exact absurd rfl happly

theorem applying_cons (page : Page) (n : Node Position) (ns : List (Node Position)) :
    applying page (n :: ns) = applying page [n] ++ applying page ns := by
  simp [applying]

/-- Nothing is copied for nodes of which none applies. -/
theorem shown_of_not_applying {page : Page} {text : List Char} {ns : List (Node Position)}
    (h : applying page ns = []) : ns.flatMap (shown page text) = [] := by
  induction ns with
  | nil => rfl
  | cons n ns ih =>
    rw [applying_cons, List.append_eq_nil_iff] at h
    have hcopied : copied page text n = [] := by
      have hn := h.1
      cases hp : n.documentParams? with
      | none =>
        rw [applying_none page hp] at hn
        cases hn
      | some params =>
        rw [applying_document page hp] at hn
        rw [copied_document page text hp]
        split
        · rename_i hany
          rw [if_pos hany] at hn
          rw [hn]
          rfl
        · rfl
    rw [List.flatMap_cons, ih h.2, shown_eq, hcopied]
    rfl

/-- The parts that are copied for the last nodes of a style sheet make up those that apply. -/
theorem shown_ends {page : Page} {text : List Char} {before ns : List (Node Nat)}
    (hns : readNodes text = .ok (before ++ ns))
    (h : ∀ pre n after, ns.map (Node.map (positionAt text)) = pre ++ n :: after →
      applying page [n] ≠ [] → Separate page (copied page text n) (applying page [n]) after) :
    Ends ((applying page (ns.map (Node.map (positionAt text)))).map Node.outline)
      ((ns.map (Node.map (positionAt text))).flatMap (shown page text)) := by
  induction ns generalizing before with
  | nil => exact ends_nil
  | cons n ns ih =>
    have hbehind : readNodes text = .ok ((before ++ [n]) ++ ns) := by rw [hns, List.append_cons]
    have hrest := ih hbehind fun pre m after heq =>
      h (n.map (positionAt text) :: pre) m after (by rw [List.map_cons, heq]; rfl)
    rw [List.map_cons, applying_cons, List.map_append, List.flatMap_cons]
    by_cases happly : applying page [n.map (positionAt text)] = []
    · have hshown : [n.map (positionAt text)].flatMap (shown page text) = [] :=
        shown_of_not_applying happly
      rw [List.flatMap_singleton] at hshown
      rwa [hshown, happly]
    have hseparate := h [] _ _ rfl happly
    obtain ⟨final, a, ms, b, hls, hplaced, hfinal⟩ := (readNodes_allPlaced hns).exists_placed
    obtain ⟨x, init, l, y, hplace, hl, hcopied, hy⟩ :=
      copied_piece hns (by simp) hls hplaced happly
    rw [shown_eq, hcopied]
    rw [hcopied] at hseparate
    by_cases hafter : applying page (ns.map (Node.map (positionAt text))) = []
    · rw [shown_of_not_applying hafter, hafter, List.map_nil, List.append_nil, List.append_nil]
      exact hseparate.ends hafter hplace hy hl
    · -- Only the last node may need the end of the text.
      have hnot : final = false := by
        rw [← Bool.not_eq_true]
        intro htrue
        rw [hfinal htrue] at hafter
        exact hafter rfl
      subst hnot
      exact (hseparate.prefixes hafter hplace hy).append_ends hrest

/-- A script gathers a style sheet of the same structure when what it copies are separate parts. -/
theorem convert_keepsStructure {page : Page} {css : String} {m : Metadata} {script : Userscript}
    (h : (convert css m).result = .ok script) (hs : Separable page css) :
    KeepsStructure page css := by
  obtain ⟨nodes, hp, haccepted⟩ := (convert_ok_iff css m).mp ⟨script, h⟩
  have hn : ∀ n ∈ nodes, n.refusal? = none := fun n hn => accepted_iff.mp (haccepted n hn)
  rw [keepsStructure_iff hp hn]
  obtain ⟨ns, hns, -, rfl⟩ := parse_eq_ok hp
  have hall : readNodes (withoutMark css).toList = .ok ([] ++ ns) := hns
  refine (shown_ends hall fun pre n after heq => hs pre n after ?_).outlinesIn?
  rw [hp, heq]

/-- Blank lines between two rules and in a comment do not matter. -/
theorem convert_keepsStructure_block :
    ∃ script : Userscript,
      (convert "@-moz-document url(x) \x7ba \x7b/*\n\n*/\x7d\n\nb \x7b\x7d\x7d\nc \x7b\x7d"
        .empty).result = .ok script ∧
      KeepsStructure (fun _ => true)
        "@-moz-document url(x) \x7ba \x7b/*\n\n*/\x7d\n\nb \x7b\x7d\x7d\nc \x7b\x7d" := by
  generalize hcss :
    "@-moz-document url(x) \x7ba \x7b/*\n\n*/\x7d\n\nb \x7b\x7d\x7d\nc \x7b\x7d" = css
  have hsome : (convert css .empty).result.toOption.isSome = true := by
    subst hcss
    decide +kernel
  have hparts : (parse (withoutMark css)).toOption.map (·.all fun n =>
      let part := copied (fun _ => true) (withoutMark css).toList n
      (words part).getLast? == some ⟨.closing .curly, ['\x7d']⟩ &&
        dropBlankLines part == spelling ((words part).map Word.thin)) = some true := by
    subst hcss
    decide +kernel
  have hseparable : Separable (fun _ => true) css := by
    intro before n after hnodes _
    rw [hnodes] at hparts
    have hpart := List.all_eq_true.mp (Option.some.inj hparts) n (by simp)
    rw [Bool.and_eq_true, beq_iff_eq, beq_iff_eq] at hpart
    obtain ⟨us, hus⟩ := List.getLast?_eq_some_iff.mp hpart.1
    refine ⟨hpart.2, fun _ => ⟨us, _, hus, .curly, Token.noConfusion⟩, fun _ hslash => ?_⟩
    rw [← spelling_words (copied _ _ n), hus] at hslash
    obtain ⟨s, hs⟩ := hslash
    have hlast := congrArg List.getLast? hs
    simp at hlast
  cases h : (convert css .empty).result with
  | error e =>
    rw [h] at hsome
    cases hsome
  | ok script => exact ⟨script, rfl, convert_keepsStructure h hseparable⟩

end Userstyle.Script
