import Userstyle.Proofs.NodeSpans
import Userstyle.Script.Builder

/-!
# What a style sheet is compiled to

Each top-level node stands for statements of its own (`Node.statements`), which depend on its text
and, for a document rule, on its parameter list. The statements of a program are those of its nodes
in order. A cut never fails: the nodes lie in the text one behind the other, so their lines are
asked for in order. What can stop a conversion is a text that cannot be split into nodes or a
parameter list that cannot be read, and nothing else.
-/

namespace Userstyle.Css

open Source Script

namespace Node

variable {α : Type}

/-- The parameter list of a document rule. -/
def documentParams? : Node α → Option String
  | .rule _ => none
  | .atRule name params _ _ => if isDocumentName name then some params else none
  | .comment _ => none

/-- Why the parameter list of a document rule cannot be read. -/
def refusal? (n : Node α) : Option Error :=
  match n.documentParams? with
  | none => none
  | some params =>
    match Condition.ofParams params with
    | .ok _ => none
    | .error e => some e

/-- The conditions of a document rule. -/
def conditions (n : Node α) : List Condition :=
  match n.documentParams? with
  | none => []
  | some params =>
    match Condition.ofParams params with
    | .ok cs => cs
    | .error _ => []

/-- The span from the first of some nodes to the last one. -/
def spanOf? (ns : List (Node α)) : Option (Span α) :=
  match ns.head?, ns.getLast? with
  | some first, some last => some ⟨first.span.first, last.span.last⟩
  | _, _ => none

theorem children_map {β : Type} (f : α → β) (n : Node α) :
    (n.map f).children = n.children.map (Node.map f) := by
  cases n with
  | rule span => rfl
  | atRule name params children span => exact mapAll_eq_map f children
  | comment span => rfl

theorem documentParams?_map {β : Type} (f : α → β) (n : Node α) :
    (n.map f).documentParams? = n.documentParams? := by
  cases n <;> rfl

theorem refusal?_map {β : Type} (f : α → β) (n : Node α) : (n.map f).refusal? = n.refusal? := by
  unfold refusal?
  rw [documentParams?_map]

theorem conditions_map {β : Type} (f : α → β) (n : Node α) :
    (n.map f).conditions = n.conditions := by
  unfold conditions
  rw [documentParams?_map]

theorem spanOf?_map {β : Type} (f : α → β) (ns : List (Node α)) :
    spanOf? (ns.map (Node.map f)) = (spanOf? ns).map fun s => ⟨f s.first, f s.last⟩ := by
  unfold spanOf?
  rw [List.head?_map, List.getLast?_map]
  cases ns.head? <;> cases ns.getLast? <;> simp [span_map]

/-- An at-rule that sets a namespace is not a document rule. -/
theorem not_document_of_namespace {name : String} (h : isNamespaceName name = true) :
    isDocumentName name = false := by
  unfold isNamespaceName isDocumentName sameName at *
  rw [beq_iff_eq.mp h]
  decide

/-- A document rule gives a parameter list and either conditions or an error. -/
theorem refusal?_cases {n : Node α} {params : String} (h : n.documentParams? = some params) :
    (∃ e, Condition.ofParams params = .error e ∧ n.refusal? = some e) ∨
      (Condition.ofParams params = .ok n.conditions ∧ n.refusal? = none) := by
  unfold refusal? conditions
  rw [h]
  cases hp : Condition.ofParams params with
  | error e => exact Or.inl ⟨e, rfl, by simp only [hp]⟩
  | ok cs => exact Or.inr ⟨by simp only [hp], by simp only [hp]⟩

theorem refusal?_of_not_document {n : Node α} (h : n.documentParams? = none) :
    n.refusal? = none ∧ n.conditions = [] := by
  unfold refusal? conditions
  rw [h]
  exact ⟨rfl, rfl⟩

end Node

theorem Node.Within.children {text : List Char} {lo hi : Nat} {n : Node Nat}
    (h : n.Within text lo hi) :
    Laid text (n.span.first + 1) (n.span.last + 1) n.children := by
  have hle := h.span.first_le
  cases n with
  | rule span => exact Nat.succ_le_succ hle
  | atRule name params children span => exact h.2
  | comment span => exact Nat.succ_le_succ hle

/-- The last of laid nodes ends behind the beginning of the first. -/
theorem Laid.getLast {text : List Char} {lo hi : Nat} {n m : Node Nat} {ns : List (Node Nat)}
    (h : Laid text lo hi (n :: ns)) (hm : (n :: ns).getLast? = some m) :
    IsStart text m.span.last ∧ n.span.first ≤ m.span.last ∧ m.span.last < hi := by
  induction ns generalizing lo n with
  | nil =>
    cases hm
    have hs := h.1.span
    exact ⟨hs.last, hs.first_le, hs.last_lt⟩
  | cons k ns ih =>
    rw [List.getLast?_cons_cons] at hm
    obtain ⟨hl, hle, hlt⟩ := ih h.2 hm
    have := h.1.span.first_le
    have := h.2.1.span.lo_le
    exact ⟨hl, by omega, hlt⟩

theorem Laid.spanOf {text : List Char} {lo hi : Nat} {ns : List (Node Nat)} {span : Span Nat}
    (h : Laid text lo hi ns) (hs : Node.spanOf? ns = some span) :
    SpanWithin text lo hi span := by
  cases ns with
  | nil => cases hs
  | cons n ns =>
    obtain ⟨m, hm⟩ : ∃ m, (n :: ns).getLast? = some m :=
      ⟨_, List.getLast?_eq_some_getLast (List.cons_ne_nil n ns)⟩
    obtain ⟨hl, hle, hlt⟩ := h.getLast hm
    unfold Node.spanOf? at hs
    rw [hm] at hs
    cases hs
    exact ⟨h.1.span.first, hl, h.1.span.lo_le, hle, hlt⟩

end Userstyle.Css

namespace Userstyle.Script

open Css Source Text

/-! ## Statements -/

/-- The statements of a conditional on the checks of conditions, around other statements. -/
def guarded (cs : List Condition) (body : List String) : List String :=
  ["if ("] ++ (checkLines cs).map (indentation ++ ·) ++ [") \x7b"] ++
    body.map (indentation ++ ·) ++ ["\x7d"]

/-- The text from the first to the last of some nodes, with everything between them. -/
def inner (text : List Char) (ns : List (Node Position)) : List Char :=
  match Node.spanOf? ns with
  | some span => stretch text span
  | none => []

/-- The statements of a top-level node of a text. -/
def statements (text : List Char) (n : Node Position) : List String :=
  match n.documentParams? with
  | some _ => guarded n.conditions (appendStatements (inner text n.children))
  | none => appendStatements (stretch text n.span)

theorem indentOf_append (depth : Nat) : indentOf depth ++ indentation = indentOf (depth + 1) := by
  induction depth with
  | zero => rfl
  | succ depth ih =>
    rw [indentOf, String.append_assoc, ih]
    rfl

namespace Writer

theorem lines_lines (w : Writer) (ls ms : List String) :
    (w.lines ls).lines ms = w.lines (ls ++ ms) := by
  simp [Writer.lines]

theorem outdent_indent_lines (w : Writer) (ls : List String) :
    (w.indent.lines ls).outdent = w.lines (ls.map (indentation ++ ·)) := by
  simp [Writer.lines, Writer.indent, Writer.outdent, ← indentOf_append, String.append_assoc]

end Writer

namespace Draft

/-- A conditional around lines that are written one step deeper. -/
theorem guard_writer (d : Draft) (cs : List Condition) (body : List String) :
    closeGuard { openGuard d cs with writer := (openGuard d cs).writer.lines body } =
      { d with writer := d.writer.lines (guarded cs body) } := by
  unfold closeGuard openGuard guarded Writer.line
  simp only [Writer.outdent_indent_lines, Writer.lines_lines, List.append_assoc]

end Draft

/-! ## Cutting in order -/

/-- The cursor has not gone beyond the line of any character from the offset `lo` on. -/
structure Ready (text : List Char) (lo : Nat) (c : LineCursor) : Prop where
  on : c.On text
  line_le : ∀ o, IsStart text o → lo ≤ o → c.line ≤ (positionAt text o).line

variable {text : List Char}

theorem Ready.start (text : List Char) : Ready text 0 (.start text) :=
  ⟨LineCursor.start_on text, fun _ _ _ => Nat.zero_le _⟩

theorem Ready.mono {lo lo' : Nat} {c : LineCursor} (h : Ready text lo c) (hle : lo ≤ lo') :
    Ready text lo' c :=
  ⟨h.on, fun o ho hlo => h.line_le o ho (Nat.le_trans hle hlo)⟩

/-- The span with the positions of its offsets. -/
def placedSpan (text : List Char) (span : Span Nat) : Span Position :=
  ⟨positionAt text span.first, positionAt text span.last⟩

theorem placedSpan_eq {lo hi : Nat} {span : Span Nat} (hs : SpanWithin text lo hi span) :
    ∃ before mid c after, text = before ++ mid ++ c :: after ∧
      placedSpan text span = ⟨Position.behind before, Position.behind (before ++ mid)⟩ := by
  obtain ⟨b, m, c, a, rfl, hb, hm⟩ := hs.first.eq_append hs.last hs.first_le
  refine ⟨b, m, c, a, rfl, ?_⟩
  unfold placedSpan
  rw [← hm, positionAt_byteLength, ← hb, List.append_assoc, positionAt_byteLength]

/-- A span that lies ahead can be cut out, and what lies behind it can be cut out after that. -/
theorem Ready.slice {lo hi : Nat} {c : LineCursor} {span : Span Nat} (hc : Ready text lo c)
    (hs : SpanWithin text lo hi span) :
    ∃ c', c.slice (placedSpan text span) = (.ok (stretch text (placedSpan text span)), c') ∧
      Ready text (span.last + 1) c' := by
  have hline : c.line ≤ (placedSpan text span).first.line := hc.line_le _ hs.first hs.lo_le
  have hlast : (placedSpan text span).last = positionAt text span.last := rfl
  have hon := hc.on
  obtain ⟨b, m, ch, a, htext, hp⟩ := placedSpan_eq hs
  rw [hp] at hline hlast ⊢
  rw [htext] at hon
  obtain ⟨c', hcut, hon', hline'⟩ := hon.slice_behind hline
  rw [← htext] at hon'
  refine ⟨c', ?_, hon', fun o ho hlo => ?_⟩
  · rw [hcut, htext, stretch_append]
  · rw [hline']
    simp only at hlast
    rw [hlast]
    exact Position.line_le_of_le (positionAt_le hs.last ho (by omega))

/-! ## Adding nodes -/

namespace Draft

/-- Copying a span that lies ahead writes the statements that append its text. -/
theorem copy_result {lo hi : Nat} {d : Draft} {span : Span Nat} (hd : Ready text lo d.cursor)
    (hs : SpanWithin text lo hi span) :
    ∃ c, (d.copy (placedSpan text span)).result =
        .ok ⟨d.writer.lines (appendStatements (stretch text (placedSpan text span))), c,
          d.targeting⟩ ∧ Ready text (span.last + 1) c := by
  obtain ⟨c, hcut, hc⟩ := hd.slice hs
  refine ⟨c, ?_, hc⟩
  unfold copy cut
  rw [hcut]
  rfl

theorem copyAll_eq (d : Draft) (ns : List (Node Position)) :
    d.copyAll ns =
      match Node.spanOf? ns with
      | some span => d.copy span
      | none => pure d := by
  unfold copyAll Node.spanOf?
  cases ns.head? <;> cases ns.getLast? <;> rfl

/-- Copying laid nodes writes the statements that append the text from the first to the last. -/
theorem copyAll_result {lo hi : Nat} {d : Draft} {ns : List (Node Nat)}
    (hd : Ready text lo d.cursor) (hn : Laid text lo hi ns) :
    ∃ c, (d.copyAll (ns.map (Node.map (positionAt text)))).result =
        .ok ⟨d.writer.lines (appendStatements (inner text (ns.map (Node.map (positionAt text))))),
          c, d.targeting⟩ ∧ Ready text hi c := by
  rw [copyAll_eq, inner, Node.spanOf?_map]
  cases hs : Node.spanOf? ns with
  | none =>
    refine ⟨d.cursor, ?_, hd.mono hn.le⟩
    simp [Writer.lines, appendStatements, lines]
  | some span =>
    have hspan := hn.spanOf hs
    obtain ⟨c, hcopy, hc⟩ := copy_result hd hspan
    exact ⟨c, hcopy, hc.mono hspan.last_lt⟩

theorem addDocument_result {lo hi : Nat} {d : Draft} {params : String} {cs : List Condition}
    {ns : List (Node Nat)} (hd : Ready text lo d.cursor) (hn : Laid text lo hi ns)
    (hp : Condition.ofParams params = .ok cs) :
    ∃ c, (d.addDocument params (ns.map (Node.map (positionAt text)))).result =
        .ok ⟨d.writer.lines (guarded cs (appendStatements
          (inner text (ns.map (Node.map (positionAt text)))))), c, d.targeting.addAll cs⟩ ∧
      Ready text hi c := by
  obtain ⟨c, hcopy, hc⟩ := copyAll_result
    (d := openGuard { d with targeting := d.targeting.addAll cs } cs) hd hn
  refine ⟨c, ?_, hc⟩
  have hguard := guard_writer ⟨d.writer, c, d.targeting.addAll cs⟩ cs
    (appendStatements (inner text (ns.map (Node.map (positionAt text)))))
  have hread : (d.targeting.read params).result = .ok (cs, d.targeting.addAll cs) := by
    unfold Targeting.read
    simp only [Logged.result_bind, Logged.result_ofExcept, hp]
    rfl
  unfold addDocument
  rw [Logged.result_bind, hread]
  change ((openGuard { d with targeting := d.targeting.addAll cs } cs).copyAll _ >>=
    fun d => pure d.closeGuard).result = _
  rw [Logged.result_bind, hcopy]
  exact congrArg Except.ok hguard

theorem addDocument_error {d : Draft} {params : String} {e : Error} {ns : List (Node Position)}
    (hp : Condition.ofParams params = .error e) : (d.addDocument params ns).result = .error e := by
  have hread : (d.targeting.read params).result = .error e := by
    unfold Targeting.read
    rw [Logged.result_bind, Logged.result_ofExcept, hp]
    rfl
  unfold addDocument
  rw [Logged.result_bind, hread]
  rfl

/-- What adding a node does, apart from the log: a document rule is added as such, every other
node is copied. -/
theorem addNode_result_eq (d : Draft) (n : Node Position) :
    (d.addNode n).result =
      match n.documentParams? with
      | some params => (d.addDocument params n.children).result
      | none => (d.copy n.span).result := by
  cases n with
  | rule span => rfl
  | comment span => rfl
  | atRule name params children span =>
    unfold addNode Node.documentParams?
    by_cases hns : isNamespaceName name = true
    · have hdoc := Node.not_document_of_namespace hns
      simp only [hns, hdoc, if_true]
      rfl
    · by_cases hdoc : isDocumentName name = true
      · simp only [hns, hdoc, if_true]
        rfl
      · simp only [hns, hdoc]
        rfl

/-- Adding a laid node that is not refused writes its statements. -/
theorem addNode_result {lo hi : Nat} {d : Draft} {n : Node Nat} {n' : Node Position}
    (hd : Ready text lo d.cursor) (hn : n.Within text lo hi) (hn' : n' = n.map (positionAt text))
    (hr : n'.refusal? = none) :
    ∃ c, (d.addNode n').result =
        .ok ⟨d.writer.lines (statements text n'), c, d.targeting.addAll n'.conditions⟩ ∧
      Ready text (n.span.last + 1) c := by
  subst hn'
  rw [addNode_result_eq, statements]
  cases hp : (n.map (positionAt text)).documentParams? with
  | none =>
    obtain ⟨c, hcopy, hc⟩ := copy_result hd hn.span
    rw [(Node.refusal?_of_not_document hp).2, Node.span_map]
    exact ⟨c, hcopy, hc⟩
  | some params =>
    rcases Node.refusal?_cases hp with ⟨e, -, hr'⟩ | ⟨hcs, -⟩
    · rw [hr] at hr'
      cases hr'
    · have hlo := hn.span.lo_le
      rw [Node.children_map]
      exact addDocument_result (hd.mono (by omega)) hn.children hcs

theorem addNode_error {d : Draft} {n : Node Position} {e : Error} (h : n.refusal? = some e) :
    (d.addNode n).result = .error e := by
  rw [addNode_result_eq]
  cases hp : n.documentParams? with
  | none =>
    rw [(Node.refusal?_of_not_document hp).1] at h
    cases h
  | some params =>
    rcases Node.refusal?_cases hp with ⟨e', hcs, hr⟩ | ⟨-, hr⟩
    · rw [hr] at h
      cases h
      exact addDocument_error hcs
    · rw [hr] at h
      cases h

/-- Adding laid nodes of which none is refused writes the statements of all. -/
theorem addNodes_result {lo hi : Nat} {d : Draft} {ns : List (Node Nat)}
    {ns' : List (Node Position)} (hd : Ready text lo d.cursor) (hn : Laid text lo hi ns)
    (hn' : ns' = ns.map (Node.map (positionAt text))) (hr : ∀ n ∈ ns', n.refusal? = none) :
    ∃ c, (d.addNodes ns').result =
        .ok ⟨d.writer.lines (ns'.flatMap (statements text)), c,
          d.targeting.addAll (ns'.flatMap Node.conditions)⟩ := by
  subst hn'
  induction ns generalizing lo d with
  | nil => exact ⟨d.cursor, by simp [addNodes, Writer.lines]⟩
  | cons n ns ih =>
    rw [List.map_cons, List.forall_mem_cons] at hr
    obtain ⟨c, hadd, hc⟩ := addNode_result hd hn.1 rfl hr.1
    obtain ⟨c', hrest⟩ := ih (d := ⟨d.writer.lines (statements text (n.map (positionAt text))), c,
      d.targeting.addAll (n.map (positionAt text)).conditions⟩) hc hn.2 hr.2
    refine ⟨c', ?_⟩
    rw [List.map_cons, addNodes, Logged.result_bind, hadd]
    change (addNodes _ _).result = _
    rw [hrest, Writer.lines_lines, ← Targeting.addAll_append]
    rfl

theorem addNodes_error {lo hi : Nat} {d : Draft} {ns : List (Node Nat)}
    {before after : List (Node Position)} {n : Node Position} {e : Error}
    (hd : Ready text lo d.cursor) (hn : Laid text lo hi ns)
    (hn' : before ++ n :: after = ns.map (Node.map (positionAt text)))
    (hb : ∀ b ∈ before, b.refusal? = none) (he : n.refusal? = some e) :
    (d.addNodes (before ++ n :: after)).result = .error e := by
  induction before generalizing lo d ns with
  | nil =>
    rw [List.nil_append, addNodes, Logged.result_bind, addNode_error he]
    rfl
  | cons b before ih =>
    cases ns with
    | nil => cases hn'
    | cons m ns =>
      rw [List.map_cons, List.cons_append, List.cons.injEq] at hn'
      rw [List.forall_mem_cons] at hb
      obtain ⟨c, hadd, hc⟩ := addNode_result hd hn.1 hn'.1 hb.1
      rw [List.cons_append, addNodes, Logged.result_bind, hadd]
      exact ih (d := ⟨_, c, _⟩) hc hn.2 hn'.2 hb.2

end Draft

/-! ## Compiling -/

theorem compile_result_eq (css : String) :
    (compile css).result =
      match parse (withoutMark css) with
      | .error e => .error e
      | .ok nodes =>
        ((Draft.start (withoutMark css).toList).addNodes nodes).result.map fun d =>
          ⟨d.writer.written, d.targeting⟩ := by
  unfold compile parseLogged
  simp only [Logged.result_bind, Logged.result_ofExcept]
  cases parse (withoutMark css) with
  | error e => rfl
  | ok nodes =>
    change ((Draft.start (withoutMark css).toList).addNodes nodes).result >>= _ =
      ((Draft.start (withoutMark css).toList).addNodes nodes).result.map _
    cases ((Draft.start (withoutMark css).toList).addNodes nodes).result <;> rfl

/-- A style sheet of which no node is refused has a program: the statements of its nodes, and what
their conditions amount to. -/
theorem compile_ok {css : String} {nodes : List (Node Position)}
    (hp : parse (withoutMark css) = .ok nodes) (hr : ∀ n ∈ nodes, n.refusal? = none) :
    (compile css).result =
      .ok ⟨(nodes.flatMap (statements (withoutMark css).toList)).map (indentOf 1 ++ ·),
        Targeting.empty.addAll (nodes.flatMap Node.conditions)⟩ := by
  obtain ⟨ns, -, hlaid, hns⟩ := parse_eq_ok hp
  obtain ⟨c, hadd⟩ := Draft.addNodes_result (d := .start (withoutMark css).toList)
    (Ready.start _) hlaid hns hr
  rw [compile_result_eq, hp]
  simp only [hadd]
  rfl

/-- A style sheet is refused for the first of its nodes that is. -/
theorem compile_refused {css : String} {before after : List (Node Position)} {n : Node Position}
    {e : Error} (hp : parse (withoutMark css) = .ok (before ++ n :: after))
    (hb : ∀ b ∈ before, b.refusal? = none) (he : n.refusal? = some e) :
    (compile css).result = .error e := by
  obtain ⟨ns, -, hlaid, hns⟩ := parse_eq_ok hp
  have hadd := Draft.addNodes_error (d := .start (withoutMark css).toList) (Ready.start _) hlaid hns
    hb he
  rw [compile_result_eq, hp]
  simp only [hadd]
  rfl

theorem compile_invalid {css : String} {e : Error} (hp : parse (withoutMark css) = .error e) :
    (compile css).result = .error e := by
  rw [compile_result_eq, hp]

/-- The script of a style sheet is put together from its program. -/
theorem convert_result_eq (css : String) (m : Metadata) :
    (convert css m).result = (compile css).result.map (·.assemble m) := by
  unfold convert Builder.consume
  cases hc : (compile css).result <;> simp only [hc] <;> rfl

theorem convert_eq_ok {css : String} {m : Metadata} {s : Userscript}
    (h : (convert css m).result = .ok s) :
    ∃ p, (compile css).result = .ok p ∧ s = p.assemble m := by
  rw [convert_result_eq] at h
  cases hp : (compile css).result with
  | error e =>
    rw [hp] at h
    cases h
  | ok p =>
    rw [hp] at h
    exact ⟨p, rfl, (Except.ok.inj h).symm⟩

/-! ## What stops a conversion -/

/-- A node is accepted unless it is a document rule whose parameter list cannot be read. -/
def Accepted (n : Node Position) : Prop :=
  ∀ params, n.documentParams? = some params → ∃ cs, Condition.ofParams params = .ok cs

theorem accepted_iff {n : Node Position} : Accepted n ↔ n.refusal? = none := by
  cases hp : n.documentParams? with
  | none =>
    have h : Accepted n := by
      intro params h
      rw [hp] at h
      cases h
    exact iff_of_true h (Node.refusal?_of_not_document hp).1
  | some params =>
    rcases Node.refusal?_cases hp with ⟨e, hcs, hr⟩ | ⟨hcs, hr⟩
    · refine iff_of_false (fun h => ?_) (by rw [hr]; exact Option.some_ne_none e)
      obtain ⟨cs, h⟩ := h params hp
      rw [hcs] at h
      cases h
    · refine iff_of_true (fun params' h => ?_) hr
      rw [hp] at h
      cases h
      exact ⟨_, hcs⟩

theorem refusal?_eq_some {n : Node Position} {e : Error} (h : n.refusal? = some e) :
    ∃ params, n.documentParams? = some params ∧ Condition.ofParams params = .error e := by
  cases hp : n.documentParams? with
  | none =>
    rw [(Node.refusal?_of_not_document hp).1] at h
    cases h
  | some params =>
    rcases Node.refusal?_cases hp with ⟨e', hcs, hr⟩ | ⟨-, hr⟩
    · rw [hr] at h
      cases h
      exact ⟨params, rfl, hcs⟩
    · rw [hr] at h
      cases h

/-- Either no node is refused or there is a first one that is. -/
theorem refusal_cases (nodes : List (Node Position)) :
    (∀ n ∈ nodes, n.refusal? = none) ∨
      ∃ before n after e, nodes = before ++ n :: after ∧ (∀ b ∈ before, b.refusal? = none) ∧
        n.refusal? = some e := by
  induction nodes with
  | nil => exact Or.inl (fun n hn => absurd hn List.not_mem_nil)
  | cons n nodes ih =>
    cases hr : n.refusal? with
    | some e => exact Or.inr ⟨[], n, nodes, e, rfl, fun b hb => absurd hb List.not_mem_nil, hr⟩
    | none =>
      rcases ih with h | ⟨before, k, after, e, rfl, hb, he⟩
      · exact Or.inl (List.forall_mem_cons.mpr ⟨hr, h⟩)
      · exact Or.inr ⟨n :: before, k, after, e, rfl, List.forall_mem_cons.mpr ⟨hr, hb⟩, he⟩

theorem parse_error {css : String} {e : Error} (h : parse css = .error e) :
    ∃ issue line column, e = .invalidCss issue line column := by
  unfold parse at h
  split at h
  · cases h
    exact ⟨_, _, _, rfl⟩
  · cases h

theorem ofParams_error {params : String} {e : Error} (h : Condition.ofParams params = .error e) :
    ∃ offset fault, e = .invalidCondition params offset fault := by
  unfold Condition.ofParams at h
  split at h
  · cases h
  · cases h
    exact ⟨_, _, rfl⟩

theorem convert_refused {css : String} {m : Metadata} {before after : List (Node Position)}
    {n : Node Position} {params : String} {e : Error}
    (hp : parse (withoutMark css) = .ok (before ++ n :: after)) (hb : ∀ b ∈ before, Accepted b)
    (hn : n.documentParams? = some params) (he : Condition.ofParams params = .error e) :
    (convert css m).result = .error e := by
  rcases Node.refusal?_cases hn with ⟨e', he', hr⟩ | ⟨hcs, -⟩
  · rw [he] at he'
    cases he'
    rw [convert_result_eq, compile_refused hp (fun b hb' => accepted_iff.mp (hb b hb')) hr]
    rfl
  · rw [he] at hcs
    cases hcs

/-- A conversion ends in one of three ways. -/
theorem convert_cases (css : String) (m : Metadata) :
    (∃ e, parse (withoutMark css) = .error e ∧ (convert css m).result = .error e) ∨
      (∃ nodes s, parse (withoutMark css) = .ok nodes ∧ (∀ n ∈ nodes, Accepted n) ∧
        (convert css m).result = .ok s) ∨
      ∃ before n after params e, parse (withoutMark css) = .ok (before ++ n :: after) ∧
        (∀ b ∈ before, Accepted b) ∧ n.documentParams? = some params ∧
        Condition.ofParams params = .error e ∧ (convert css m).result = .error e := by
  rw [convert_result_eq]
  cases hp : parse (withoutMark css) with
  | error e =>
    refine Or.inl ⟨e, rfl, ?_⟩
    rw [compile_invalid hp]
    rfl
  | ok nodes =>
    rcases refusal_cases nodes with h | ⟨before, n, after, e, rfl, hb, he⟩
    · refine Or.inr (Or.inl ⟨nodes, ?_⟩)
      rw [compile_ok hp h]
      exact ⟨_, rfl, fun n hn => accepted_iff.mpr (h n hn), rfl⟩
    · obtain ⟨params, hparams, herror⟩ := refusal?_eq_some he
      refine Or.inr (Or.inr ⟨before, n, after, params, e, rfl,
        fun b hb' => accepted_iff.mpr (hb b hb'), hparams, herror, ?_⟩)
      rw [compile_refused hp hb he]
      rfl

/-- What stops the conversion of a style sheet with an error: its text cannot be split into nodes,
or the parameter list of a node cannot be read and those of the nodes before it can. -/
def Stopped (css : String) (e : Error) : Prop :=
  (parse (withoutMark css) = .error e ∧ ∃ issue line column, e = .invalidCss issue line column) ∨
    ∃ before n after params, parse (withoutMark css) = .ok (before ++ n :: after) ∧
      (∀ b ∈ before, Accepted b) ∧ n.documentParams? = some params ∧
      Condition.ofParams params = .error e ∧
      ∃ offset fault, e = .invalidCondition params offset fault

theorem convert_ok_iff (css : String) (m : Metadata) :
    (∃ s, (convert css m).result = .ok s) ↔
      ∃ nodes, parse (withoutMark css) = .ok nodes ∧ ∀ n ∈ nodes, Accepted n := by
  constructor
  · rintro ⟨s, hs⟩
    rcases convert_cases css m with ⟨e, -, he⟩ | ⟨nodes, -, hp, hn, -⟩ |
      ⟨_, _, _, _, e, -, -, -, -, he⟩
    · rw [hs] at he
      cases he
    · exact ⟨nodes, hp, hn⟩
    · rw [hs] at he
      cases he
  · rintro ⟨nodes, hp, hn⟩
    rw [convert_result_eq, compile_ok hp (fun n h => accepted_iff.mp (hn n h))]
    exact ⟨_, rfl⟩

/-- A style sheet that has a program splits into nodes of which none is refused. -/
theorem compile_nodes {css : String} {program : Program} (h : (compile css).result = .ok program) :
    ∃ nodes, parse (withoutMark css) = .ok nodes ∧ ∀ n ∈ nodes, n.refusal? = none := by
  have hok : ∃ s, (convert css .empty).result = .ok s := by
    rw [convert_result_eq, h]
    exact ⟨_, rfl⟩
  obtain ⟨nodes, hp, haccepted⟩ := (convert_ok_iff css .empty).mp hok
  exact ⟨nodes, hp, fun n hn => accepted_iff.mp (haccepted n hn)⟩

theorem convert_error_iff (css : String) (m : Metadata) (e : Error) :
    (convert css m).result = .error e ↔ Stopped css e := by
  constructor
  · intro h
    rcases convert_cases css m with ⟨e', hp, he⟩ | ⟨nodes, s, -, -, hs⟩ |
      ⟨before, n, after, params, e', hp, hb, hn, he', he⟩
    · rw [h] at he
      cases he
      exact Or.inl ⟨hp, parse_error hp⟩
    · rw [h] at hs
      cases hs
    · rw [h] at he
      cases he
      exact Or.inr ⟨before, n, after, params, hp, hb, hn, he', ofParams_error he'⟩
  · rintro (⟨hp, -⟩ | ⟨before, n, after, params, hp, hb, hn, he, -⟩)
    · rw [convert_result_eq, compile_invalid hp]
      rfl
    · exact convert_refused hp hb hn he

/-- A style sheet is converted if and only if its text splits into nodes and the parameter list of
every document rule at its top level can be read. Otherwise the error is that of the splitting or,
where that succeeds, that of the first of these lists that cannot be read. So whatever the sheet
is, no position of a node is out of range or asked for too late, and the builder is never used in
the wrong order. -/
theorem convert_outcome (css : String) (m : Metadata) :
    ((∃ s, (convert css m).result = .ok s) ↔
      ∃ nodes, parse (withoutMark css) = .ok nodes ∧ ∀ n ∈ nodes, Accepted n) ∧
    (∀ e, (convert css m).result = .error e ↔ Stopped css e) ∧
    (∀ line column, (convert css m).result ≠ .error (.outOfRange line column)) ∧
    (∀ requested current, (convert css m).result ≠ .error (.notMonotonic requested current)) ∧
    (convert css m).result ≠ .error .alreadyConsumed ∧
    (convert css m).result ≠ .error .notReady ∧
    (convert css m).result ≠ .error .alreadyBuilt := by
  have herror := convert_error_iff css m
  refine ⟨convert_ok_iff css m, herror, fun line column => ?_, fun requested current => ?_, ?_, ?_,
    ?_⟩
  all_goals
    intro h
    rcases (herror _).mp h with ⟨-, _, _, _, he⟩ | ⟨_, _, _, _, -, -, -, -, _, _, he⟩ <;> cases he

end Userstyle.Script
