import Mathlib.Data.List.TakeWhile
import Userstyle.Proofs.Compilation
import Userstyle.Proofs.StringLiterals

/-!
# Running the statements of a script

The statements of a script are run on a page line by line, by a machine that knows nothing of how
they were written. It reads a line without the spaces before it. A group of statements is run where
one of its checks is true, and a statement that is run appends the value of its literal to the
gathered style text. On every page, the statements of a style sheet gather the text of its nodes,
without those document rules that do not apply there and without blank lines.
-/

namespace Userstyle.Script

open Css Source Text

/-- A page, by the checks that are true on it. Conditions with the same check are true together. -/
abbrev Page := String → Bool

/-! ## The machine -/

/-- Where the machine is between two lines. -/
inductive Control where
  /-- A statement or the end of a group comes next. -/
  | statements
  /-- A check of a group comes next, and one of those before it was true or none was. -/
  | checks (holds : Bool)
  /-- The last check of a group is behind, and one of them was true or none was. -/
  | checked (holds : Bool)
  deriving DecidableEq, Repr

/-- A state of the machine. -/
structure Machine where
  /-- Where it is. -/
  control : Control
  /-- Whether the groups around that place are run, from the inside to the outside. -/
  groups : List Bool
  /-- The style text gathered so far. -/
  gathered : List Char
  deriving DecidableEq, Repr

/-- The text that a statement appends. -/
def appended? (line : List Char) : Option (List Char) :=
  match (accumulator ++ " += \"").toList.isPrefixOf? line with
  | none => none
  | some literal =>
    match readLiteral literal with
    | some (text, [';']) => some text
    | _ => none

/-- The check on a line that ends with the operator. -/
def continued? (line : List Char) : Option (List Char) :=
  match line.reverse with
  | '|' :: '|' :: ' ' :: check => some check.reverse
  | _ => none

namespace Machine

/-- Nothing gathered yet, outside of all groups. -/
def start : Machine := ⟨.statements, [], []⟩

/-- Appends a text, where the groups around are run. -/
def append (s : Machine) (text : List Char) : Machine :=
  if s.groups.all id then { s with gathered := s.gathered ++ text } else s

/-- Reads one line, which has no spaces before it. A line that does not belong where it stands
stops the machine. -/
def step (page : Page) (s : Machine) (line : List Char) : Option Machine :=
  match s.control with
  | .statements =>
    if line = "if (".toList then some { s with control := .checks false }
    else if line = "\x7d".toList then
      match s.groups with
      | [] => none
      | _ :: groups => some { s with groups }
    else (appended? line).map s.append
  | .checks holds =>
    match continued? line with
    | some check => some { s with control := .checks (holds || page (String.ofList check)) }
    | none => some { s with control := .checked (holds || page (String.ofList line)) }
  | .checked holds =>
    if line = ") \x7b".toList then
      some { s with control := .statements, groups := holds :: s.groups }
    else none

/-- Reads lines one after the other. -/
def run (page : Page) (s : Machine) : List String → Option Machine
  | [] => some s
  | line :: lines => do
    let s ← s.step page (line.toList.dropWhile (· == ' '))
    s.run page lines

end Machine

/-- The style text that statements gather on a page, if every group in them is closed. -/
def gather (page : Page) (lines : List String) : Option (List Char) :=
  match Machine.start.run page lines with
  | some ⟨.statements, [], text⟩ => some text
  | _ => none

/-! ## What is to be gathered -/

/-- A text without its blank lines. -/
def dropBlankLines (text : List Char) : List Char :=
  ((lines text).filter fun line => trim line != []).flatten

/-- The style text that a top-level node stands for on a page: that of the node itself, or for a
document rule where one of its conditions holds, that of the rules in it. -/
def shown (page : Page) (text : List Char) (n : Node Position) : List Char :=
  match n.documentParams? with
  | none => dropBlankLines (stretch text n.span)
  | some _ =>
    if n.conditions.any (page ·.check) then dropBlankLines (inner text n.children) else []

theorem trim_eq_nil_iff (s : List Char) : trim s = [] ↔ isAllBlank s = true := by
  unfold trim trimEnd isAllBlank
  rw [List.reverse_eq_nil_iff, List.dropWhile_eq_nil_iff, List.all_eq_true]
  have hs : trimStart s <:+ s := trimStart_isSuffix s
  have hblank : ∀ c ∈ s.takeWhile isBlank, isBlank c := List.all_eq_true.mp List.all_takeWhile
  constructor
  · intro h c hc
    rw [← List.takeWhile_append_dropWhile (p := isBlank) (l := s), List.mem_append] at hc
    rcases hc with hc | hc
    · exact hblank c hc
    · exact h c (List.mem_reverse.mpr hc)
  · intro h c hc
    exact h c (hs.subset (List.mem_reverse.mp hc))

theorem dropBlankLines_eq (text : List Char) :
    dropBlankLines text = ((lines text).filter fun line => !isAllBlank line).flatten := by
  unfold dropBlankLines
  congr 2
  funext line
  by_cases h : isAllBlank line = true
  · rw [h, (trim_eq_nil_iff line).mpr h]
    rfl
  · have hne : trim line ≠ [] := fun ht => h ((trim_eq_nil_iff line).mp ht)
    simp [h, hne]

/-! ## Running the parts of a program -/

namespace Machine

variable (page : Page)

theorem append_control (s : Machine) (t : List Char) : (s.append t).control = s.control := by
  unfold append
  by_cases h : s.groups.all id = true <;> simp [h]

theorem append_nil (s : Machine) : s.append [] = s := by
  unfold append
  by_cases h : s.groups.all id = true <;> simp [h]

theorem append_append (s : Machine) (t u : List Char) :
    (s.append t).append u = s.append (t ++ u) := by
  unfold append
  by_cases h : s.groups.all id = true <;> simp [h]

theorem run_append (s : Machine) (ls ms : List String) :
    s.run page (ls ++ ms) = (s.run page ls).bind (·.run page ms) := by
  induction ls generalizing s with
  | nil => rfl
  | cons l ls ih =>
    show (s.step page _).bind (·.run page (ls ++ ms)) = ((s.step page _).bind _).bind _
    rw [Option.bind_assoc]
    congr 1
    funext s
    exact ih s

/-- Indentation makes no difference to the machine. -/
theorem run_indented (s : Machine) (ls : List String) :
    s.run page (ls.map (indentation ++ ·)) = s.run page ls := by
  induction ls generalizing s with
  | nil => rfl
  | cons l ls ih =>
    have hl : (indentation ++ l).toList.dropWhile (· == ' ') = l.toList.dropWhile (· == ' ') := by
      rw [String.toList_append]
      rfl
    rw [List.map_cons, run, run, hl]
    congr 1
    funext s
    exact ih s

end Machine

/-! ## Statements -/

theorem toList_appendStatement (text : List Char) :
    (appendStatement text).toList =
      (accumulator ++ " += \"").toList ++ (stringBody text ++ '\"' :: [';']) := by
  simp [appendStatement, String.toList_append]

theorem appended?_appendStatement (text : List Char) :
    appended? (appendStatement text).toList = some text := by
  have hliteral : (accumulator ++ " += \"").toList.isPrefixOf? (appendStatement text).toList =
      some (stringBody text ++ '\"' :: [';']) := by
    rw [toList_appendStatement]
    rfl
  unfold appended?
  rw [hliteral]
  simp only [readLiteral_stringBody]

namespace Machine

variable (page : Page)

theorem step_appendStatement {s : Machine} (hs : s.control = .statements) (text : List Char) :
    s.step page ((appendStatement text).toList.dropWhile (· == ' ')) = some (s.append text) := by
  have hhead : ∃ r, (appendStatement text).toList = 'c' :: r := by
    rw [toList_appendStatement]
    exact ⟨_, rfl⟩
  obtain ⟨r, hr⟩ := hhead
  have hdrop : (appendStatement text).toList.dropWhile (· == ' ') =
      (appendStatement text).toList := by
    rw [hr]
    rfl
  have hif : (appendStatement text).toList ≠ "if (".toList := by
    rw [hr]
    simp
  have hend : (appendStatement text).toList ≠ "\x7d".toList := by
    rw [hr]
    simp
  unfold step
  rw [hdrop, hs]
  simp only [if_neg hif, if_neg hend, appended?_appendStatement]
  rfl

/-- The statements that append a text gather it without its blank lines. -/
theorem run_appendStatements {s : Machine} (hs : s.control = .statements) (text : List Char) :
    s.run page (appendStatements text) = some (s.append (dropBlankLines text)) := by
  rw [dropBlankLines_eq, appendStatements]
  generalize (lines text).filter _ = ls
  induction ls generalizing s with
  | nil =>
    show some s = some (s.append [])
    rw [append_nil]
  | cons l ls ih =>
    have hs' : (s.append l).control = .statements := by
      rw [append_control, hs]
    rw [List.map_cons, run, step_appendStatement page hs]
    show (s.append l).run page _ = _
    rw [ih hs', append_append, List.flatten_cons]

end Machine

/-! ## Groups -/

/-- A check does not begin with a space and does not end with the operator. -/
theorem check_ends (c : Condition) :
    ∃ a mid b, c.check.toList = a :: (mid ++ [b]) ∧ a ≠ ' ' ∧ b ≠ '|' := by
  obtain ⟨matcher, argument⟩ := c
  unfold Condition.check
  cases matcher with
  | domain =>
    refine ⟨'/', "(?:^|\\.)".toList ++ regexBody (hostSource argument.toList) ++
      "$/.test(domain".toList, ')', ?_, by decide, by decide⟩
    simp [String.toList_append]
  | url =>
    refine ⟨'u', "rl === \"".toList ++ stringBody argument.toList, '\"', ?_, by decide, by decide⟩
    simp [String.toList_append]
  | urlPrefix =>
    refine ⟨'u', "rl.indexOf(\"".toList ++ stringBody argument.toList ++ "\") === ".toList, '0', ?_,
      by decide, by decide⟩
    simp [String.toList_append]
  | regexp =>
    refine ⟨'/', "^(?:".toList ++ regexBody argument.toList ++ ")$/.test(url".toList, ')', ?_,
      by decide, by decide⟩
    simp [String.toList_append]

theorem continued?_check (c : Condition) : continued? c.check.toList = none := by
  obtain ⟨a, mid, b, hc, -, hb⟩ := check_ends c
  have hrev : c.check.toList.reverse = b :: (mid.reverse ++ [a]) := by
    rw [hc]
    simp
  unfold continued?
  rw [hrev]
  split
  · rename_i heq
    exact absurd (List.cons.inj heq).1 hb
  · rfl

theorem continued?_check_or (c : Condition) :
    continued? (c.check ++ " ||").toList = some c.check.toList := by
  have hrev : (c.check ++ " ||").toList.reverse = '|' :: '|' :: ' ' :: c.check.toList.reverse := by
    rw [String.toList_append, List.reverse_append]
    rfl
  unfold continued?
  rw [hrev]
  simp only [List.reverse_reverse]

theorem dropWhile_check (c : Condition) (r : List Char) :
    (c.check.toList ++ r).dropWhile (· == ' ') = c.check.toList ++ r := by
  obtain ⟨a, mid, b, hc, ha, -⟩ := check_ends c
  rw [hc]
  exact List.dropWhile_cons_of_neg (by simpa using ha)

namespace Machine

variable (page : Page)

/-- After the checks of a group the machine knows whether one of them is true. -/
theorem run_checkLines {cs : List Condition} (hcs : cs ≠ []) (holds : Bool) (groups : List Bool)
    (text : List Char) :
    run page ⟨.checks holds, groups, text⟩ (checkLines cs) =
      some ⟨.checked (holds || cs.any (page ·.check)), groups, text⟩ := by
  induction cs generalizing holds with
  | nil => exact absurd rfl hcs
  | cons c cs ih =>
    cases cs with
    | nil =>
      have hdrop := dropWhile_check c []
      rw [List.append_nil] at hdrop
      show (step page _ _).bind _ = _
      rw [hdrop, step]
      simp only [continued?_check, String.ofList_toList]
      simp [run]
    | cons d cs =>
      have hdrop := dropWhile_check c " ||".toList
      rw [← String.toList_append] at hdrop
      show (step page _ _).bind _ = _
      rw [hdrop, step]
      simp only [continued?_check_or, String.ofList_toList]
      show run page ⟨.checks (holds || page c.check), groups, text⟩ (checkLines (d :: cs)) = _
      rw [ih (List.cons_ne_nil d cs), List.any_cons, Bool.or_assoc]
      rfl

/-- A group gathers the text of its statements where one of its checks is true. -/
theorem run_guarded {cs : List Condition} (hcs : cs ≠ []) (inside gathered : List Char) :
    run page ⟨.statements, [], gathered⟩ (guarded cs (appendStatements inside)) =
      some ⟨.statements, [], gathered ++
        if cs.any (page ·.check) then dropBlankLines inside else []⟩ := by
  have hopen : run page ⟨.statements, [], gathered⟩ ["if ("] =
      some ⟨.checks false, [], gathered⟩ := by
    rfl
  have hclosed (holds : Bool) : run page ⟨.checked holds, [], gathered⟩ [") \x7b"] =
      some ⟨.statements, [holds], gathered⟩ := by
    rfl
  have hend (holds : Bool) (text : List Char) : run page ⟨.statements, [holds], text⟩ ["\x7d"] =
      some ⟨.statements, [], text⟩ := by
    rfl
  have hchecks := run_checkLines page hcs false [] gathered
  rw [Bool.false_or] at hchecks
  unfold guarded
  rw [run_append, run_append, run_append, run_append, hopen, Option.bind_some, run_indented,
    hchecks, Option.bind_some, hclosed, Option.bind_some, run_indented,
    run_appendStatements page rfl, Option.bind_some]
  by_cases h : cs.any (page ·.check) = true
  · rw [h]
    exact hend true _
  · rw [Bool.not_eq_true] at h
    rw [h]
    show run page ⟨.statements, [false], gathered⟩ ["\x7d"] = _
    rw [hend]
    simp

end Machine

/-! ## Conditions that were read -/

theorem readCalls_ne_nil {s : List Char} {cs : List Condition}
    (h : Condition.readCalls s = .ok cs) : cs ≠ [] := by
  rw [Condition.readCalls] at h
  split at h
  · cases h
  · split at h
    · cases h
    · cases h
      exact List.cons_ne_nil _ _
    · rename_i c r hc next hnext
      cases hcs : Condition.readCalls next with
      | error refusal =>
        rw [hcs] at h
        cases h
      | ok rest =>
        rw [hcs] at h
        cases h
        exact List.cons_ne_nil _ _

/-- A parameter list that can be read has a condition. -/
theorem ofParams_ne_nil {params : String} {cs : List Condition}
    (h : Condition.ofParams params = .ok cs) : cs ≠ [] := by
  unfold Condition.ofParams Condition.readList at h
  split at h
  · rename_i cs' hcs
    cases h
    split at hcs
    · cases hcs
    · exact readCalls_ne_nil hcs
  · cases h

/-! ## Running a program -/

/-- The statements of a node gather what is to be shown of it. -/
theorem run_statements (page : Page) (text gathered : List Char) {n : Node Position}
    (hn : n.refusal? = none) :
    Machine.run page ⟨.statements, [], gathered⟩ (statements text n) =
      some ⟨.statements, [], gathered ++ shown page text n⟩ := by
  unfold statements shown
  cases hp : n.documentParams? with
  | none => exact Machine.run_appendStatements page rfl _
  | some params =>
    rcases Node.refusal?_cases hp with ⟨e, -, he⟩ | ⟨hcs, -⟩
    · rw [hn] at he
      cases he
    · exact Machine.run_guarded page (ofParams_ne_nil hcs) _ gathered

/-- The statements of nodes gather what is to be shown of each, in order. -/
theorem run_allStatements (page : Page) (text gathered : List Char) {nodes : List (Node Position)}
    (hn : ∀ n ∈ nodes, n.refusal? = none) :
    Machine.run page ⟨.statements, [], gathered⟩ (nodes.flatMap (statements text)) =
      some ⟨.statements, [], gathered ++ nodes.flatMap (shown page text)⟩ := by
  induction nodes generalizing gathered with
  | nil => simp [Machine.run]
  | cons n nodes ih =>
    rw [List.forall_mem_cons] at hn
    rw [List.flatMap_cons, Machine.run_append, run_statements page text gathered hn.1,
      Option.bind_some, ih _ hn.2, List.flatMap_cons, List.append_assoc]

/-- The statements of a program gather what is to be shown of the nodes, in order. -/
theorem gather_compile {css : String} {nodes : List (Node Position)} (page : Page)
    (hp : parse (withoutMark css) = .ok nodes) (hn : ∀ n ∈ nodes, n.refusal? = none) :
    ∃ program, (compile css).result = .ok program ∧
      gather page program.statements =
        some (nodes.flatMap (shown page (withoutMark css).toList)) := by
  refine ⟨_, compile_ok hp hn, ?_⟩
  have hrun := run_allStatements page (withoutMark css).toList [] hn
  unfold gather
  have hindent : (indentOf 1 ++ ·) = (indentation ++ ·) := rfl
  rw [hindent, Machine.run_indented]
  unfold Machine.start
  rw [hrun]
  rfl

/-- A script is put together from a program, and on every page the statements of that program
gather what is to be shown of the nodes of the style sheet, in order. -/
theorem convert_shows {css : String} {m : Metadata} {script : Userscript} (page : Page)
    (h : (convert css m).result = .ok script) :
    ∃ program nodes, (compile css).result = .ok program ∧ script = program.assemble m ∧
      parse (withoutMark css) = .ok nodes ∧
      gather page program.statements =
        some (nodes.flatMap (shown page (withoutMark css).toList)) := by
  have hok : ∃ s, (convert css m).result = .ok s := ⟨script, h⟩
  obtain ⟨nodes, hp, haccepted⟩ := (convert_ok_iff css m).mp hok
  have hn : ∀ n ∈ nodes, n.refusal? = none := fun n hn => accepted_iff.mp (haccepted n hn)
  obtain ⟨program, hc, hg⟩ := gather_compile page hp hn
  rw [convert_result_eq, hc] at h
  cases h
  exact ⟨program, nodes, hc, rfl, hp, hg⟩

/-- On a page that satisfies the first of two conditions, the rules of a block follow the rule
before it, and the blank line between them is left out. -/
theorem convert_shows_block :
    ∃ (script : Userscript) (program : Program),
      (convert "i \x7b\x7d@-moz-document url(x),domain(y) \x7bb \x7b\x7d\n \nc \x7b\x7d\x7d"
        .empty).result = .ok script ∧
      script = program.assemble .empty ∧
      gather (· == "url === \"x\"") program.statements =
        some "i \x7b\x7db \x7b\x7d\nc \x7b\x7d".toList := by
  have hsome : (convert
      "i \x7b\x7d@-moz-document url(x),domain(y) \x7bb \x7b\x7d\n \nc \x7b\x7d\x7d"
      .empty).result.toOption.isSome = true := by
    decide +kernel
  have htext : (parse (withoutMark
      "i \x7b\x7d@-moz-document url(x),domain(y) \x7bb \x7b\x7d\n \nc \x7b\x7d\x7d")).toOption.map
        (·.flatMap (shown (· == "url === \"x\"") (withoutMark
          "i \x7b\x7d@-moz-document url(x),domain(y) \x7bb \x7b\x7d\n \nc \x7b\x7d\x7d").toList)) =
      some "i \x7b\x7db \x7b\x7d\nc \x7b\x7d".toList := by
    decide +kernel
  cases h : (convert
      "i \x7b\x7d@-moz-document url(x),domain(y) \x7bb \x7b\x7d\n \nc \x7b\x7d\x7d"
      .empty).result with
  | error e =>
    rw [h] at hsome
    cases hsome
  | ok script =>
    obtain ⟨program, nodes, -, hs, hp, hg⟩ := convert_shows (· == "url === \"x\"") h
    rw [hp] at htext
    exact ⟨script, program, rfl, hs, hg.trans htext⟩

end Userstyle.Script
