import Mathlib.Data.List.Induction
import Userstyle.Proofs.PatternState
import Userstyle.Proofs.Seams

/-!
# Style sheets one behind the other

Conversion goes along with writing one style sheet behind another (`convert_append`). The statements
of a node are cut out of the text by lines and columns, and these are others behind another text, in
particular if that text does not end with the end of a line. But what is cut out is the same
(`SpanWithin.stretch_moved`). The patterns are those of the first sheet with those of the second
absorbed, whether one of the two is frozen or not.
-/

namespace Userstyle

/-! ## Patterns -/

/-- Patterns may be listed once before they are put behind others. -/
theorem eraseDups_append_eraseDups (ps qs : List String) :
    (ps ++ qs.eraseDups).eraseDups = (ps ++ qs).eraseDups := by
  induction qs using List.reverseRecOn with
  | nil => rfl
  | append_singleton qs q ih =>
    rw [eraseDups_concat, ← List.append_assoc, eraseDups_concat]
    by_cases hq : q ∈ qs
    · rw [if_pos hq, if_pos (List.mem_append_right ps hq), ih]
    · rw [if_neg hq, ← List.append_assoc, eraseDups_concat, ih]
      simp only [List.mem_append, List.mem_eraseDups]

/-- What conditions amount to is what the first of them amount to, with the patterns of the others
absorbed. -/
theorem Targeting.addAll_absorb (cs ds : List Condition) :
    (Targeting.empty.addAll (cs ++ ds)).patterns =
      (Targeting.empty.addAll cs).patterns.absorb (Targeting.empty.addAll ds).patterns ∧
    (Targeting.empty.addAll (cs ++ ds)).diagnostics =
      (Targeting.empty.addAll cs).diagnostics ++ (Targeting.empty.addAll ds).diagnostics := by
  have ht : (Targeting.empty.addAll cs).Of cs := Targeting.Of.empty.addAll cs
  have hu : (Targeting.empty.addAll ds).Of ds := Targeting.Of.empty.addAll ds
  have hv : (Targeting.empty.addAll (cs ++ ds)).Of (cs ++ ds) := Targeting.Of.empty.addAll _
  constructor
  · rw [ht.patterns, hu.patterns, hv.patterns]
    by_cases hd : ∃ c ∈ ds, c.Freezing
    · obtain ⟨d, hmem, hd'⟩ := id hd
      rw [if_pos hd, if_pos ⟨d, List.mem_append_right cs hmem, hd'⟩]
      rfl
    by_cases hc : ∃ c ∈ cs, c.Freezing
    · obtain ⟨c, hmem, hc'⟩ := id hc
      rw [if_neg hd, if_pos hc, if_pos ⟨c, List.mem_append_left ds hmem, hc'⟩]
      exact (PatternSet.frozen_addAll _).symm
    · have hnone : ¬∃ c ∈ cs ++ ds, c.Freezing := by
        rintro ⟨c, hmem, hfreezing⟩
        rcases List.mem_append.mp hmem with hmem | hmem
        · exact hc ⟨c, hmem, hfreezing⟩
        · exact hd ⟨c, hmem, hfreezing⟩
      rw [if_neg hd, if_neg hc, if_neg hnone, List.flatMap_append]
      show _ = PatternSet.addAll (.listed _) _
      rw [PatternSet.listed_addAll, eraseDups_append_eraseDups]
  · rw [ht.diagnostics, hu.diagnostics, hv.diagnostics, List.filter_append, List.map_append]

end Userstyle

namespace Userstyle.Script

open Css Source Text

/-! ## Cutting a text out of another -/

section Moved

variable {text : List Char} {lo hi : Nat} (before behind : List Char)

/-- What stands between two characters, by their offsets. -/
theorem stretch_between (a m : List Char) (c : Char) (b : List Char) :
    stretch (a ++ m ++ c :: b)
      (placedSpan (a ++ m ++ c :: b) ⟨byteLength a, byteLength (a ++ m)⟩) = m ++ [c] := by
  have hlast : positionAt (a ++ m ++ c :: b) (byteLength (a ++ m)) = Position.behind (a ++ m) :=
    positionAt_byteLength _ _
  have hfirst : positionAt (a ++ m ++ c :: b) (byteLength a) = Position.behind a := by
    rw [List.append_assoc]
    exact positionAt_byteLength _ _
  unfold placedSpan
  rw [hfirst, hlast, stretch_append]

/-- A span cuts out the same when other texts stand before and behind the text. -/
theorem SpanWithin.stretch_moved {span : Span Nat} (h : SpanWithin text lo hi span) :
    stretch (before ++ text ++ behind) (placedSpan (before ++ text ++ behind)
      ⟨span.first + byteLength before, span.last + byteLength before⟩) =
        stretch text (placedSpan text span) := by
  obtain ⟨first, last⟩ := span
  obtain ⟨a, m, c, b, rfl, hfirst, hlast⟩ := h.first.eq_append h.last h.first_le
  have htext : before ++ (a ++ m ++ c :: b) ++ behind =
      before ++ a ++ m ++ c :: (b ++ behind) := by simp
  have hfirst' : first + byteLength before = byteLength (before ++ a) := by
    rw [byteLength_append, hfirst, Nat.add_comm]
  have hlast' : last + byteLength before = byteLength (before ++ a ++ m) := by
    rw [List.append_assoc, byteLength_append, hlast, Nat.add_comm]
  rw [htext, hfirst', hlast', stretch_between]
  dsimp only at hfirst hlast
  rw [← hfirst, ← hlast, stretch_between]

theorem Laid.inner_moved {ns : List (Node Nat)} (h : Laid text lo hi ns) :
    inner (before ++ text ++ behind) ((ns.map (Node.map (· + byteLength before))).map
      (Node.map (positionAt (before ++ text ++ behind)))) =
        inner text (ns.map (Node.map (positionAt text))) := by
  unfold inner
  rw [Node.spanOf?_map, Node.spanOf?_map, Node.spanOf?_map]
  cases hspan : Node.spanOf? ns with
  | none => rfl
  | some span => exact SpanWithin.stretch_moved before behind (h.spanOf hspan)

/-- The statements of a node do not depend on what stands before and behind the text. -/
theorem Node.Within.statements_moved {n : Node Nat} (h : n.Within text lo hi) :
    statements (before ++ text ++ behind) ((n.map (· + byteLength before)).map
      (positionAt (before ++ text ++ behind))) = statements text (n.map (positionAt text)) := by
  have hinner := Laid.inner_moved before behind h.children
  have hstretch := SpanWithin.stretch_moved before behind h.span
  unfold statements
  simp only [Node.documentParams?_map, Node.conditions_map, Node.children_map, Node.span_map]
  rw [hinner]
  cases n.documentParams? with
  | some params => rfl
  | none => exact congrArg appendStatements hstretch

theorem Laid.statements_moved {ns : List (Node Nat)} (h : Laid text lo hi ns) :
    (ns.map (Node.map (· + byteLength before))).flatMap (fun n =>
      statements (before ++ text ++ behind) (n.map (positionAt (before ++ text ++ behind)))) =
        ns.flatMap fun n => statements text (n.map (positionAt text)) := by
  rw [List.flatMap_map]
  refine List.flatMap_congr fun n hn => ?_
  exact Node.Within.statements_moved before behind (h.within hn)

end Moved

/-! ## Programs -/

/-- The program of the nodes of a text. -/
def programOf (text : List Char) (ns : List (Node Nat)) : Program where
  statements :=
    (ns.flatMap fun n => statements text (n.map (positionAt text))).map (indentOf 1 ++ ·)
  targeting := Targeting.empty.addAll (ns.flatMap Node.conditions)

theorem compile_of_parse {css : String} {nodes : List (Node Position)}
    (hp : parse (withoutMark css) = .ok nodes) (hr : ∀ n ∈ nodes, n.refusal? = none) :
    ∃ ns, readNodes (withoutMark css).toList = .ok ns ∧
      nodes = ns.map (Node.map (positionAt (withoutMark css).toList)) ∧
      (compile css).result = .ok (programOf (withoutMark css).toList ns) := by
  obtain ⟨ns, hns, -, rfl⟩ := parse_eq_ok hp
  refine ⟨ns, hns, rfl, ?_⟩
  rw [compile_ok hp hr, List.flatMap_map, List.flatMap_map]
  simp only [Node.conditions_map]
  rfl

/-- A style sheet that is compiled is split into nodes of which none is refused, and its program is
theirs. -/
theorem compile_eq_ok_iff {css : String} {p : Program} :
    (compile css).result = .ok p ↔ ∃ ns, readNodes (withoutMark css).toList = .ok ns ∧
      (∀ n ∈ ns, n.refusal? = none) ∧ p = programOf (withoutMark css).toList ns := by
  constructor
  · intro h
    obtain ⟨nodes, hp, hr⟩ := compile_nodes h
    obtain ⟨ns, hns, rfl, hcompile⟩ := compile_of_parse hp hr
    refine ⟨ns, hns, fun n hn => ?_, Except.ok.inj (h.symm.trans hcompile)⟩
    rw [← Node.refusal?_map (positionAt (withoutMark css).toList)]
    exact hr _ (List.mem_map_of_mem hn)
  · rintro ⟨ns, hns, hr, rfl⟩
    obtain ⟨nodes, hp⟩ := parse_of_readNodes hns
    obtain ⟨ns', hns', -, hnodes⟩ := parse_eq_ok hp
    obtain rfl : ns' = ns := Except.ok.inj (hns'.symm.trans hns)
    have hr' : ∀ n ∈ nodes, n.refusal? = none := by
      intro n hn
      rw [hnodes] at hn
      obtain ⟨k, hk, rfl⟩ := List.mem_map.mp hn
      rw [Node.refusal?_map]
      exact hr k hk
    obtain ⟨ns', hns', -, hcompile⟩ := compile_of_parse hp hr'
    rw [hcompile, Except.ok.inj (hns'.symm.trans hns)]

/-- The program of two texts, one behind the other. -/
theorem programOf_append {a b : List Char} {ns ms : List (Node Nat)} (ha : readNodes a = .ok ns)
    (hb : readNodes b = .ok ms) :
    programOf (a ++ b) (ns ++ ms.map (Node.map (· + byteLength a))) =
      ⟨(programOf a ns).statements ++ (programOf b ms).statements,
        Targeting.empty.addAll (ns.flatMap Node.conditions ++ ms.flatMap Node.conditions)⟩ := by
  have hfirst := Laid.statements_moved [] b (readNodes_laid ha)
  have hsecond := Laid.statements_moved a [] (readNodes_laid hb)
  have hsame : ns.map (Node.map (· + byteLength [])) = ns := Node.map_add_zero ns
  rw [hsame, List.nil_append] at hfirst
  rw [List.append_nil] at hsecond
  unfold programOf
  rw [List.flatMap_append, hfirst, hsecond, List.map_append, List.flatMap_append, List.flatMap_map]
  simp only [Node.conditions_map]

/-! ## Conversion -/

theorem toList_withoutMark (css : String) : (withoutMark css).toList =
    if css.toList.head? = some '\ufeff' then css.toList.tail else css.toList := by
  unfold withoutMark
  split
  · rename_i r hr
    rw [hr, String.toList_ofList]
    rfl
  · rename_i hne
    rw [if_neg]
    intro hmark
    obtain ⟨r, hr⟩ := List.head?_eq_some_iff.mp hmark
    exact hne r hr

theorem withoutMark_append (A : String) {B : String} (h : B.toList.head? ≠ some '\ufeff') :
    (withoutMark (A ++ B)).toList = (withoutMark A).toList ++ (withoutMark B).toList := by
  rw [toList_withoutMark, toList_withoutMark, toList_withoutMark, if_neg h, String.toList_append]
  cases hA : A.toList with
  | nil => simp [h]
  | cons c r =>
    by_cases hc : c = '\ufeff' <;> simp [hc]

/-- A style sheet whose last node is closed by a token of its own can be converted together with
another one behind it. The statements are those of the first and those of the second, even if the
second begins in the middle of a line. The patterns are those of the first, which absorb those of
the second, and so the diagnostics. -/
theorem convert_append {A B : String} {m₁ m₂ : Metadata} {s t : Userscript}
    (hs : (convert A m₁).result = .ok s) (ht : (convert B m₂).result = .ok t)
    (hmark : B.toList.head? ≠ some '\ufeff') (hclosed : endsClosed (withoutMark A).toList = true)
    (m : Metadata) :
    ∃ p q r, (compile A).result = .ok p ∧ s = p.assemble m₁ ∧
      (compile B).result = .ok q ∧ t = q.assemble m₂ ∧
      (compile (A ++ B)).result = .ok r ∧ (convert (A ++ B) m).result = .ok (r.assemble m) ∧
      r.statements = p.statements ++ q.statements ∧
      (r.assemble m).patterns = s.patterns.absorb t.patterns ∧
      (r.assemble m).diagnostics = s.diagnostics ++ t.diagnostics := by
  obtain ⟨p, hp, rfl⟩ := convert_eq_ok hs
  obtain ⟨q, hq, rfl⟩ := convert_eq_ok ht
  obtain ⟨ns, hns, hnsOk, rfl⟩ := compile_eq_ok_iff.mp hp
  obtain ⟨ms, hms, hmsOk, rfl⟩ := compile_eq_ok_iff.mp hq
  have hread := readNodes_append hns hclosed hms
  rw [← withoutMark_append A hmark] at hread
  have hok : ∀ n ∈ ns ++ ms.map (Node.map (· + byteLength (withoutMark A).toList)),
      n.refusal? = none := by
    intro n hn
    rcases List.mem_append.mp hn with hn | hn
    · exact hnsOk n hn
    · obtain ⟨k, hk, rfl⟩ := List.mem_map.mp hn
      rw [Node.refusal?_map]
      exact hmsOk k hk
  have hr := compile_eq_ok_iff.mpr ⟨_, hread, hok, rfl⟩
  rw [withoutMark_append A hmark, programOf_append hns hms] at hr
  obtain ⟨hpatterns, hdiagnostics⟩ :=
    Targeting.addAll_absorb (ns.flatMap Node.conditions) (ms.flatMap Node.conditions)
  refine ⟨_, _, _, hp, rfl, hq, rfl, hr, ?_, rfl, hpatterns, hdiagnostics⟩
  rw [convert_result_eq, hr]
  rfl

/-- A document rule with patterns, and behind it, on the same line, one that freezes the set. -/
theorem convert_append_frozen :
    ∃ p q r : Program,
      (convert "@-moz-document domain(a.com) \x7b b \x7b\x7d \x7d " .empty).result =
        .ok (p.assemble .empty) ∧
      (convert " @-moz-document url-prefix(c) \x7b d \x7b\x7d \x7d" .empty).result =
        .ok (q.assemble .empty) ∧
      (convert ("@-moz-document domain(a.com) \x7b b \x7b\x7d \x7d " ++
        " @-moz-document url-prefix(c) \x7b d \x7b\x7d \x7d") .empty).result =
        .ok (r.assemble .empty) ∧
      p.targeting.patterns = .listed ["*://a.com/*", "*://*.a.com/*"] ∧
      r.statements = p.statements ++ q.statements ∧ r.targeting.patterns = .frozen ∧
      r.targeting.diagnostics = [.prefixWithoutPath "c"] := by
  have hA : (convert "@-moz-document domain(a.com) \x7b b \x7b\x7d \x7d "
      .empty).result.toOption.map (fun s => (s.patterns, s.diagnostics)) =
      some (.listed ["*://a.com/*", "*://*.a.com/*"], []) := by
    decide +kernel
  have hB : (convert " @-moz-document url-prefix(c) \x7b d \x7b\x7d \x7d"
      .empty).result.toOption.map (fun s => (s.patterns, s.diagnostics)) =
      some (.frozen, [.prefixWithoutPath "c"]) := by
    decide +kernel
  have hclosed : endsClosed
      (withoutMark "@-moz-document domain(a.com) \x7b b \x7b\x7d \x7d ").toList = true := by
    decide +kernel
  cases hs : (convert "@-moz-document domain(a.com) \x7b b \x7b\x7d \x7d " .empty).result with
  | error e =>
    rw [hs] at hA
    cases hA
  | ok s =>
    cases ht : (convert " @-moz-document url-prefix(c) \x7b d \x7b\x7d \x7d" .empty).result with
    | error e =>
      rw [ht] at hB
      cases hB
    | ok t =>
      rw [hs] at hA
      rw [ht] at hB
      obtain ⟨hsPatterns, hsDiagnostics⟩ := Prod.mk.inj (Option.some.inj hA)
      obtain ⟨htPatterns, htDiagnostics⟩ := Prod.mk.inj (Option.some.inj hB)
      obtain ⟨p, q, r, -, rfl, -, rfl, -, hr, hstatements, hpatterns, hdiagnostics⟩ :=
        convert_append hs ht (by decide) hclosed .empty
      rw [hsPatterns, htPatterns] at hpatterns
      rw [hsDiagnostics, htDiagnostics] at hdiagnostics
      exact ⟨p, q, r, rfl, rfl, hr, hsPatterns, hstatements, hpatterns, hdiagnostics⟩

end Userstyle.Script
