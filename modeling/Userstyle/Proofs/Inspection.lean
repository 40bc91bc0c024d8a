import Userstyle.Proofs.Execution
import Userstyle.Report

/-!
# Reports and scripts say the same

A report and a script are made from the same nodes by two walks of their own. Both stop at the same
node with the same error, or both go through. Then they agree on where the script runs, and the
expressions in the report are the checks of the groups in the script: `groups` reads these off the
lines of the statements, one group after the other.
-/

namespace Userstyle.Css.Node

variable {α : Type}

/-- The expression of a document rule, alone in a list; no expression for any other node. -/
def expressions (n : Node α) : List String :=
  match n.documentParams? with
  | none => []
  | some _ => [Condition.disjunction n.conditions]

end Userstyle.Css.Node

namespace Userstyle.Script

open Css Source Text

/-! ## The groups of a program -/

/-- A line without the spaces before it. -/
def unindented (line : String) : List Char := line.toList.dropWhile (· == ' ')

/-- The check on a line of a group, without the operator behind it. -/
def checkOn (line : String) : String :=
  String.ofList ((continued? (unindented line)).getD (unindented line))

/-- Reads the groups off lines. Inside of the head of a group, the checks of the group so far are
given as well. -/
def groupsFrom : Option (List String) → List String → List (List String)
  | _, [] => []
  | none, line :: lines =>
    groupsFrom (if unindented line = "if (".toList then some [] else none) lines
  | some checks, line :: lines =>
    if unindented line = ") \x7b".toList then checks :: groupsFrom none lines
    else groupsFrom (some (checks ++ [checkOn line])) lines

/-- The groups in the lines of a script, each by the checks in its head. -/
def groups (lines : List String) : List (List String) := groupsFrom none lines

theorem unindented_indented (line : String) :
    unindented (indentation ++ line) = unindented line := by
  unfold unindented
  rw [String.toList_append]
  rfl

theorem checkOn_indented (line : String) : checkOn (indentation ++ line) = checkOn line := by
  unfold checkOn
  rw [unindented_indented]

/-- Indentation makes no difference to the groups. -/
theorem groupsFrom_indented (checks? : Option (List String)) (ls ms : List String) :
    groupsFrom checks? (ls.map (indentation ++ ·) ++ ms) = groupsFrom checks? (ls ++ ms) := by
  induction ls generalizing checks? with
  | nil => rfl
  | cons l ls ih =>
    rw [List.map_cons, List.cons_append, List.cons_append]
    cases checks? with
    | none =>
      rw [groupsFrom, groupsFrom, unindented_indented]
      exact ih _
    | some checks =>
      rw [groupsFrom, groupsFrom, unindented_indented, checkOn_indented, ih, ih]

theorem unindented_appendStatement (text : List Char) :
    ∃ r, unindented (appendStatement text) = 'c' :: r := by
  unfold unindented
  rw [toList_appendStatement]
  exact ⟨_, rfl⟩

/-- The statements that append a text are no part of a group's head. -/
theorem groupsFrom_appendStatements (text : List Char) (ls : List String) :
    groupsFrom none (appendStatements text ++ ls) = groupsFrom none ls := by
  unfold appendStatements
  generalize (lines text).filter _ = pieces
  induction pieces with
  | nil => rfl
  | cons piece pieces ih =>
    have hopen : unindented (appendStatement piece) ≠ "if (".toList := by
      obtain ⟨r, hr⟩ := unindented_appendStatement piece
      rw [hr]
      simp
    rw [List.map_cons, List.cons_append, groupsFrom, if_neg hopen]
    exact ih

theorem unindented_check (c : Condition) (r : String) :
    unindented (c.check ++ r) = c.check.toList ++ r.toList := by
  unfold unindented
  rw [String.toList_append]
  exact dropWhile_check c r.toList

theorem checkOn_check (c : Condition) : checkOn c.check = c.check := by
  have hline := unindented_check c ""
  rw [String.append_empty, String.toList_empty, List.append_nil] at hline
  unfold checkOn
  rw [hline, continued?_check, Option.getD_none, String.ofList_toList]

theorem checkOn_check_or (c : Condition) : checkOn (c.check ++ " ||") = c.check := by
  unfold checkOn
  rw [unindented_check, ← String.toList_append, continued?_check_or, Option.getD_some,
    String.ofList_toList]

/-- A check does not look like the end of a head. -/
theorem unindented_check_ne (c : Condition) (r : String) :
    unindented (c.check ++ r) ≠ ") \x7b".toList := by
  have hhead : ∃ a s, c.check.toList = a :: s ∧ a ≠ ')' := by
    unfold Condition.check
    cases c.matcher <;> simp [String.toList_append]
  obtain ⟨a, s, hc, ha⟩ := hhead
  rw [unindented_check, hc]
  intro h
  exact ha (List.cons.inj h).1

/-- The lines of checks add the checks to the group. -/
theorem groupsFrom_checkLines (checks : List String) (cs : List Condition) (ls : List String) :
    groupsFrom (some checks) (checkLines cs ++ ls) =
      groupsFrom (some (checks ++ cs.map Condition.check)) ls := by
  induction cs generalizing checks with
  | nil => simp [checkLines]
  | cons c cs ih =>
    cases cs with
    | nil =>
      have hne := unindented_check_ne c ""
      rw [String.append_empty] at hne
      show groupsFrom (some checks) (c.check :: ls) = _
      rw [groupsFrom]
      simp only [if_neg hne, checkOn_check]
      rfl
    | cons d cs =>
      show groupsFrom (some checks) ((c.check ++ " ||") :: (checkLines (d :: cs) ++ ls)) = _
      rw [groupsFrom]
      simp only [if_neg (unindented_check_ne c " ||"), checkOn_check_or, ih]
      rw [List.append_assoc]
      rfl

/-- A conditional is one group, with the checks of its conditions. -/
theorem groupsFrom_guarded (cs : List Condition) (text : List Char) (ls : List String) :
    groupsFrom none (guarded cs (appendStatements text) ++ ls) =
      cs.map Condition.check :: groupsFrom none ls := by
  have hopen (ms : List String) : groupsFrom none ("if (" :: ms) = groupsFrom (some []) ms := rfl
  have hclose (checks ms : List String) :
      groupsFrom (some checks) (") \x7b" :: ms) = checks :: groupsFrom none ms := rfl
  have hend (ms : List String) : groupsFrom none ("\x7d" :: ms) = groupsFrom none ms := rfl
  unfold guarded
  simp only [List.append_assoc, List.cons_append, List.nil_append]
  rw [hopen, groupsFrom_indented, groupsFrom_checkLines, List.nil_append, hclose,
    groupsFrom_indented, groupsFrom_appendStatements, hend]

/-- The statements of nodes have one group for each document rule, and the checks of the group are
the parts of the rule's expression. -/
theorem groups_statements (text : List Char) (nodes : List (Node Position)) :
    (groups (nodes.flatMap (statements text))).map (" || ".intercalate ·) =
      nodes.flatMap Node.expressions := by
  unfold groups
  induction nodes with
  | nil => rfl
  | cons n nodes ih =>
    rw [List.flatMap_cons, List.flatMap_cons, ← ih]
    unfold statements Node.expressions
    cases n.documentParams? with
    | none =>
      simp only [groupsFrom_appendStatements]
      rfl
    | some params =>
      simp only [groupsFrom_guarded, List.map_cons]
      rfl

/-- Indenting the lines of a script changes none of its groups. -/
theorem groups_indented (ls : List String) : groups (ls.map (indentation ++ ·)) = groups ls := by
  have h := groupsFrom_indented none ls []
  rwa [List.append_nil, List.append_nil] at h

end Userstyle.Script

namespace Userstyle.Report

open Css Source Script

/-! ## The walk of a report -/

/-- What a report says after some nodes more, counts aside. -/
structure Extends (r r' : Report) (nodes : List (Node Position)) : Prop where
  targeting : r'.targeting = r.targeting.addAll (nodes.flatMap Node.conditions)
  expressions : r'.documents.map DocumentSummary.expression =
    r.documents.map DocumentSummary.expression ++ nodes.flatMap Node.expressions

theorem Extends.refl (r : Report) : r.Extends r [] := ⟨rfl, (List.append_nil _).symm⟩

theorem Extends.cons {r r' r'' : Report} {n : Node Position} {nodes : List (Node Position)}
    (h : r.Extends r' [n]) (h' : r'.Extends r'' nodes) : r.Extends r'' (n :: nodes) := by
  obtain ⟨ht, he⟩ := h
  obtain ⟨ht', he'⟩ := h'
  rw [List.flatMap_singleton] at ht he
  constructor
  · rw [ht', ht, List.flatMap_cons, Targeting.addAll_append]
  · rw [he', he, List.flatMap_cons, List.append_assoc]

/-- A node that is no document rule is counted and has no other effect. -/
theorem add_other {r : Report} {n : Node Position} (hn : n.documentParams? = none) :
    ∃ r', (r.add n).result = .ok r' ∧ r.Extends r' [n] := by
  have hcs : n.conditions = [] := (Node.refusal?_of_not_document hn).2
  have hes : n.expressions = [] := by
    unfold Node.expressions
    rw [hn]
  have hextends {r' : Report} (ht : r'.targeting = r.targeting)
      (hd : r'.documents = r.documents) : r.Extends r' [n] := by
    constructor
    · simp [ht, hcs]
    · simp [hd, hes]
  cases n with
  | rule span => exact ⟨_, rfl, hextends rfl rfl⟩
  | comment span => exact ⟨_, rfl, hextends rfl rfl⟩
  | atRule name params children span =>
    have hdoc : isDocumentName name = false := by
      have hn : (if isDocumentName name then some params else none) = none := hn
      by_contra h
      rw [Bool.not_eq_false] at h
      rw [if_pos h] at hn
      cases hn
    unfold add
    by_cases hns : isNamespaceName name = true
    · simp only [hns, if_true]
      exact ⟨_, rfl, hextends rfl rfl⟩
    · simp only [hns, hdoc]
      exact ⟨_, rfl, hextends rfl rfl⟩

/-- A document rule is summed up once its parameter list is read. -/
theorem add_document {r : Report} {n : Node Position} {params : String}
    (hn : n.documentParams? = some params) :
    (r.add n).result =
      (r.targeting.read params).result.map fun x =>
        { r with
          atRules := r.atRules + 1
          documents := r.documents ++ [documentSummary params n.children n.span x.1]
          targeting := x.2 } := by
  cases n with
  | rule span => cases hn
  | comment span => cases hn
  | atRule name ps children span =>
    have hn : (if isDocumentName name then some ps else none) = some params := hn
    by_cases hdoc : isDocumentName name = true
    · rw [if_pos hdoc] at hn
      cases hn
      have hns : isNamespaceName name = false := by
        by_contra h
        rw [Bool.not_eq_false] at h
        have := Node.not_document_of_namespace h
        rw [hdoc] at this
        cases this
      unfold add
      simp only [hns, hdoc]
      show (r.targeting.read params >>= _).result = _
      rw [Logged.result_bind]
      cases (r.targeting.read params).result <;> rfl
    · rw [if_neg hdoc] at hn
      cases hn

theorem add_accepted {r : Report} {n : Node Position} (hn : n.refusal? = none) :
    ∃ r', (r.add n).result = .ok r' ∧ r.Extends r' [n] := by
  cases hp : n.documentParams? with
  | none => exact add_other hp
  | some params =>
    rcases Node.refusal?_cases hp with ⟨e, -, he⟩ | ⟨hcs, -⟩
    · rw [hn] at he
      cases he
    · have hread : (r.targeting.read params).result =
          .ok (n.conditions, r.targeting.addAll n.conditions) := by
        unfold Targeting.read
        simp only [Logged.result_bind, Logged.result_ofExcept, hcs]
        rfl
      rw [add_document hp, hread]
      refine ⟨_, rfl, ?_, ?_⟩
      · rw [List.flatMap_singleton]
      · unfold Node.expressions
        simp [hp, documentSummary]

theorem add_refused {r : Report} {n : Node Position} {e : Error} (hn : n.refusal? = some e) :
    (r.add n).result = .error e := by
  obtain ⟨params, hp, he⟩ := refusal?_eq_some hn
  rw [add_document hp]
  unfold Targeting.read
  rw [Logged.result_bind, Logged.result_ofExcept, he]
  rfl

theorem addAll_accepted {r : Report} {nodes : List (Node Position)}
    (hn : ∀ n ∈ nodes, n.refusal? = none) :
    ∃ r', (r.addAll nodes).result = .ok r' ∧ r.Extends r' nodes := by
  induction nodes generalizing r with
  | nil => exact ⟨r, rfl, Extends.refl r⟩
  | cons n nodes ih =>
    rw [List.forall_mem_cons] at hn
    obtain ⟨r', hadd, hr'⟩ := add_accepted (r := r) hn.1
    obtain ⟨r'', hrest, hr''⟩ := ih (r := r') hn.2
    refine ⟨r'', ?_, hr'.cons hr''⟩
    rw [addAll, Logged.result_bind, hadd]
    exact hrest

/-- The walk stops at the first node that is refused. -/
theorem addAll_refused {r : Report} {before after : List (Node Position)} {n : Node Position}
    {e : Error} (hb : ∀ b ∈ before, b.refusal? = none) (hn : n.refusal? = some e) :
    (r.addAll (before ++ n :: after)).result = .error e := by
  induction before generalizing r with
  | nil =>
    rw [List.nil_append, addAll, Logged.result_bind, add_refused hn]
    rfl
  | cons b before ih =>
    rw [List.forall_mem_cons] at hb
    obtain ⟨r', hadd, -⟩ := add_accepted (r := r) hb.1
    rw [List.cons_append, addAll, Logged.result_bind, hadd]
    exact ih hb.2

theorem inspect_result_eq (css : String) :
    (inspect css).result =
      match parse (withoutMark css) with
      | .error e => .error e
      | .ok nodes => (empty.addAll nodes).result := by
  unfold inspect parseLogged
  simp only [Logged.result_bind, Logged.result_ofExcept]
  cases parse (withoutMark css) <;> rfl

/-- Whatever the style sheet and the metadata are, the report and the script fail with the same
error, or neither fails. Then they have the same match patterns and the same diagnostics, and the
expressions of the report are, one by one, the checks in the heads of the groups of the script,
joined by the operator. -/
theorem inspect_agrees (css : String) (m : Metadata) :
    (∃ e, (inspect css).result = .error e ∧ (convert css m).result = .error e) ∨
      ∃ report program, (inspect css).result = .ok report ∧ (compile css).result = .ok program ∧
        (convert css m).result = .ok (program.assemble m) ∧
        report.targeting.patterns = (program.assemble m).patterns ∧
        report.targeting.diagnostics = (program.assemble m).diagnostics ∧
        report.documents.map DocumentSummary.expression =
          (groups program.statements).map (" || ".intercalate ·) := by
  rw [inspect_result_eq, convert_result_eq]
  cases hp : parse (withoutMark css) with
  | error e =>
    refine Or.inl ⟨e, rfl, ?_⟩
    rw [compile_invalid hp]
    rfl
  | ok nodes =>
    rcases refusal_cases nodes with hn | ⟨before, n, after, e, rfl, hb, he⟩
    · obtain ⟨report, hr, ht, hd⟩ := addAll_accepted (r := empty) hn
      rw [compile_ok hp hn]
      refine Or.inr ⟨report, _, hr, rfl, rfl, ?_, ?_, ?_⟩
      · rw [ht]
        rfl
      · rw [ht]
        rfl
      · have hindent : (indentOf 1 ++ ·) = (indentation ++ ·) := rfl
        show _ = (groups ((nodes.flatMap _).map _)).map _
        rw [hd, hindent, groups_indented, groups_statements]
        rfl
    · refine Or.inl ⟨e, addAll_refused hb he, ?_⟩
      rw [compile_refused hp hb he]
      rfl

end Userstyle.Report
