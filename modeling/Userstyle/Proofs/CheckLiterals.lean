import Userstyle.Condition.Check
import Userstyle.Condition.Reader
import Userstyle.Proofs.StringLiterals

/-!
# Reading checks

A check is written by putting the argument of a condition between the two halves of a template.
`readRegex` and `readGroup` read a regular-expression literal and a group in it by the rules of
JavaScript. A check is whole if what they read ends where the second half of the template stands.
The check of a URL or a prefix always is. The check of a domain or of a regular expression is whole
if and only if the argument stays on one line and closes what it opens.
-/

namespace Userstyle.Script

/-! ## Reading by the rules of JavaScript -/

/-- Whether a character class is open behind a character. -/
def classBehind (inClass : Bool) (c : Char) : Bool := if inClass then c != ']' else c == '['

/-- Reads a regular-expression literal from behind its opening slash, or from inside a character
class of it, and gives what stands behind the closing slash. -/
def readRegex (inClass : Bool) : List Char → Option (List Char)
  | [] => none
  | '\\' :: c :: r => if isLineTerminator c then none else readRegex inClass r
  | c :: r =>
    if c = '\\' || isLineTerminator c then none
    else if c = '/' && !inClass then some r
    else readRegex (classBehind inClass c) r

/-- How many groups are open behind a character. -/
def depthBehind (depth : Nat) (inClass : Bool) (c : Char) : Nat :=
  if inClass then depth else if c = '(' then depth + 1 else if c = ')' then depth - 1 else depth

/-- Whether a character closes a group when none is open. -/
def closesOuter (depth : Nat) (inClass : Bool) (c : Char) : Bool :=
  c == ')' && !inClass && depth == 0

/-- Reads a pattern from inside a group, with `depth` more groups open in it, and gives what stands
behind the parenthesis that closes the group. -/
def readGroup (depth : Nat) (inClass : Bool) : List Char → Option (List Char)
  | [] => none
  | '\\' :: _ :: r => readGroup depth inClass r
  | c :: r =>
    if closesOuter depth inClass c then some r
    else readGroup (depthBehind depth inClass c) (classBehind inClass c) r

/-! ## What a source opens and closes -/

/-- Whether the source of a pattern ends inside a character class. -/
def endsInClass (inClass : Bool) : List Char → Bool
  | [] => inClass
  | '\\' :: _ :: r => endsInClass inClass r
  | c :: r => endsInClass (classBehind inClass c) r

/-- Whether the source of a pattern closes all groups and classes it opens and no others, and does
not end in a backslash with nothing to escape. -/
def closesGroups (depth : Nat) (inClass : Bool) : List Char → Bool
  | [] => depth == 0 && !inClass
  | '\\' :: _ :: r => closesGroups depth inClass r
  | c :: r =>
    if c = '\\' || closesOuter depth inClass c then false
    else closesGroups (depthBehind depth inClass c) (classBehind inClass c) r

/-! ## The source of a pattern in a literal -/

theorem onOneLine_regexBody {s : List Char} : OnOneLine (regexBody s) ↔ OnOneLine s := by
  have hslash : isLineTerminator '\\' = false := rfl
  fun_induction regexBody s with
  | case1 => rfl
  | case2 c r ih => simp [onOneLine_cons, ih]
  | case3 r _ ih => simp [onOneLine_cons, hslash, ih]
  | case4 c r _ _ ih => simp [onOneLine_cons, ih]

theorem onOneLine_hostSource {s : List Char} : OnOneLine (hostSource s) ↔ OnOneLine s := by
  induction s with
  | nil => rfl
  | cons c s ih =>
    have hcons : hostSource (c :: s) = (if c = '.' then ['\\', c] else [c]) ++ hostSource s :=
      List.flatMap_cons
    have hslash : isLineTerminator '\\' = false := rfl
    rw [hcons]
    by_cases hc : c = '.'
    · simp [hc, onOneLine_cons, hslash, ih]
    · simp [hc, onOneLine_cons, ih]

/-- A backslash at the end of a source takes the character behind the source, which is no harm to the
literal. -/
theorem readRegex_regexBody {s : List Char} (h : OnOneLine s) (inClass : Bool) {c : Char}
    (hc : c = '$' ∨ c = ')') (r : List Char) :
    readRegex inClass (regexBody s ++ c :: r) = readRegex (endsInClass inClass s) r := by
  have hstep (k : Bool) : readRegex k (c :: r) = readRegex k r := by
    rcases hc with rfl | rfl <;> cases k <;>
      simp [readRegex, isLineTerminator, classBehind]
  fun_induction regexBody s generalizing inClass with
  | case1 => exact hstep inClass
  | case2 d s ih =>
    rw [onOneLine_cons, onOneLine_cons] at h
    simp [readRegex, endsInClass, h.2.1, ih h.2.2]
  | case3 s hpair ih =>
    rw [onOneLine_cons] at h
    have hclass : classBehind inClass '/' = inClass := by cases inClass <;> rfl
    simp [readRegex, endsInClass, isLineTerminator, hclass, ih h.2]
  | case4 d s hpair hslash ih =>
    rw [onOneLine_cons] at h
    by_cases hd : d = '\\'
    · subst hd
      cases s with
      | nil =>
        have hend : isLineTerminator c = false := by rcases hc with rfl | rfl <;> rfl
        have hclass : classBehind inClass '\\' = inClass := by cases inClass <;> rfl
        simp [regexBody, readRegex, endsInClass, hend, hclass]
      | cons e s => exact absurd rfl (hpair e s rfl)
    · simp [readRegex, endsInClass, hd, h.1, hslash, ih h.2]

theorem hostSource_cons (c : Char) (s : List Char) :
    hostSource (c :: s) = (if c = '.' then ['\\', c] else [c]) ++ hostSource s :=
  List.flatMap_cons

/-- The dots of a host name are no harm to the classes, with or without a backslash of their own. -/
theorem endsInClass_hostSource (inClass : Bool) (s : List Char) :
    endsInClass inClass (hostSource s) = endsInClass inClass s := by
  have hdot (k : Bool) : classBehind k '.' = k := by cases k <;> rfl
  fun_induction endsInClass inClass s with
  | case1 k => rfl
  | case2 k c s ih =>
    rw [hostSource_cons, hostSource_cons]
    by_cases hc : c = '.'
    · simp [hc, endsInClass, hdot, ih]
    · simp [hc, endsInClass, ih]
  | case3 k c s hpair ih =>
    rw [hostSource_cons]
    by_cases hc : c = '.'
    · rw [hc, hdot] at ih
      simp [hc, endsInClass, hdot, ih]
    by_cases hd : c = '\\'
    · cases s with
      | nil => simp [hd, hostSource, endsInClass]
      | cons d s => exact absurd rfl (hpair d s hd)
    · simp [hc, hd, endsInClass, ih]

/-- A source that closes what it opens does not end inside a character class. -/
theorem endsInClass_of_closesGroups {depth : Nat} {inClass : Bool} {s : List Char}
    (h : closesGroups depth inClass s = true) : endsInClass inClass s = false := by
  fun_induction closesGroups depth inClass s with
  | case1 depth k => simpa [endsInClass] using (Bool.and_eq_true_iff.mp h).2
  | case2 depth k c s ih => exact ih h
  | case3 => cases h
  | case4 depth k c s hpair hgood ih =>
    simp [endsInClass, ih h]

/-- A group is closed in front of what is left. -/
theorem readGroup_length {depth : Nat} {inClass : Bool} {s r : List Char}
    (h : readGroup depth inClass s = some r) : r.length < s.length := by
  fun_induction readGroup depth inClass s with
  | case1 => cases h
  | case2 depth k c s ih =>
    have hlt := ih h
    simp only [List.length_cons]
    omega
  | case3 =>
    cases h
    exact Nat.lt_succ_self _
  | case4 depth k c s hpair hclose ih => exact Nat.lt_succ_of_lt (ih h)

/-- A parenthesis behind a source closes the group around it if and only if the source closes what
it opens and nothing else. -/
theorem readGroup_regexBody_iff (depth : Nat) (inClass : Bool) (s r : List Char) :
    readGroup depth inClass (regexBody s ++ ')' :: r) = some r ↔
      closesGroups depth inClass s = true := by
  -- What is left of `r` is shorter than `r`, so the group must close in front of all of it.
  have hrest (d : Nat) (k : Bool) : readGroup d k r ≠ some r :=
    fun h => Nat.lt_irrefl _ (readGroup_length h)
  fun_induction closesGroups depth inClass s with
  | case1 depth k =>
    have hclose : closesOuter depth k ')' = (depth == 0 && !k) := by
      simp [closesOuter, Bool.and_comm]
    cases h : (depth == 0 && !k) <;> simp [regexBody, readGroup, hclose, h, hrest]
  | case2 depth k c s ih => simp [regexBody, readGroup, ih]
  | case3 depth k c s hpair hbad =>
    by_cases hc : c = '\\'
    · cases s with
      | nil => simp [hc, regexBody, readGroup, hrest]
      | cons d s => exact absurd rfl (hpair d s hc)
    · have hclose : closesOuter depth k c = true := by simpa [hc] using hbad
      have hparen : c = ')' := by
        simp only [closesOuter, Bool.and_eq_true, beq_iff_eq] at hclose
        exact hclose.1.1
      subst hparen
      have hne : regexBody s ++ ')' :: r ≠ r := by
        intro h
        have hlen := congrArg List.length h
        simp only [List.length_append, List.length_cons] at hlen
        omega
      simp [regexBody, readGroup, hclose, hne]
  | case4 depth k c s hpair hgood ih =>
    obtain ⟨hc, hclose⟩ : c ≠ '\\' ∧ closesOuter depth k c = false := by simpa using hgood
    by_cases hslash : c = '/'
    · subst hslash
      have hdepth : depthBehind depth k '/' = depth := by cases k <;> rfl
      have hclass : classBehind k '/' = k := by cases k <;> rfl
      rw [hdepth, hclass] at ih
      simp [regexBody, readGroup, hdepth, hclass, ih]
    · simp [regexBody, readGroup, hslash, hc, hclose, ih]

end Userstyle.Script

namespace Userstyle.Condition

open Script

/-! ## Checks -/

/-- What stands behind the first place of a character. -/
def behind (mark : Char) (s : List Char) : List Char := (s.dropWhile (· != mark)).tail

/-- The check of a condition is one expression on one line. The literal it opens and the group in
the literal end where its template closes them. -/
def IsWhole (c : Condition) : Prop :=
  let text := c.check.toList
  OnOneLine text ∧
    match c.matcher with
    | .domain =>
      readRegex false (behind '/' text) = some ".test(domain)".toList ∧
        readGroup 0 false (behind ':' text) =
          some (regexBody (hostSource c.argument.toList) ++ "$/.test(domain)".toList)
    | .url => readLiteral (behind '\"' text) = some (c.argument.toList, [])
    | .urlPrefix => readLiteral (behind '\"' text) = some (c.argument.toList, ") === 0".toList)
    | .regexp =>
      readRegex false (behind '/' text) = some ".test(url)".toList ∧
        readGroup 0 false (behind ':' text) = some "$/.test(url)".toList

/-- The argument of a condition does no harm to the template of its check. -/
def FitsTemplate (c : Condition) : Prop :=
  let argument := c.argument.toList
  match c.matcher with
  | .domain => OnOneLine argument ∧ endsInClass false argument = false
  | .url | .urlPrefix => True
  | .regexp => OnOneLine argument ∧ closesGroups 0 false argument = true

instance (c : Condition) : Decidable c.FitsTemplate :=
  match c with
  | ⟨.domain, _⟩ => inferInstanceAs (Decidable (_ ∧ _))
  | ⟨.url, _⟩ => inferInstanceAs (Decidable True)
  | ⟨.urlPrefix, _⟩ => inferInstanceAs (Decidable True)
  | ⟨.regexp, _⟩ => inferInstanceAs (Decidable (_ ∧ _))

theorem toList_check_domain (argument : String) :
    (check ⟨.domain, argument⟩).toList =
      "/(?:^|\\.)".toList ++ regexBody (hostSource argument.toList) ++ "$/.test(domain)".toList := by
  simp [check]

theorem toList_check_url (argument : String) :
    (check ⟨.url, argument⟩).toList =
      "url === \"".toList ++ stringBody argument.toList ++ ['\"'] := by
  simp [check]

theorem toList_check_urlPrefix (argument : String) :
    (check ⟨.urlPrefix, argument⟩).toList =
      "url.indexOf(\"".toList ++ stringBody argument.toList ++ "\") === 0".toList := by
  simp [check]

theorem toList_check_regexp (argument : String) :
    (check ⟨.regexp, argument⟩).toList =
      "/^(?:".toList ++ regexBody argument.toList ++ ")$/.test(url)".toList := by
  simp [check]

theorem onOneLine_template {head tail : String} {body : List Char} (hhead : OnOneLine head.toList)
    (htail : OnOneLine tail.toList) :
    OnOneLine (head.toList ++ body ++ tail.toList) ↔ OnOneLine body := by
  rw [onOneLine_append, onOneLine_append]
  simp [hhead, htail]

theorem isWhole_domain_iff (argument : String) :
    IsWhole ⟨.domain, argument⟩ ↔ FitsTemplate ⟨.domain, argument⟩ := by
  have hline : OnOneLine (check ⟨.domain, argument⟩).toList ↔ OnOneLine argument.toList := by
    rw [toList_check_domain, onOneLine_template (by decide) (by decide), onOneLine_regexBody,
      onOneLine_hostSource]
  have hgroup : readGroup 0 false (behind ':' (check ⟨.domain, argument⟩).toList) =
      some (regexBody (hostSource argument.toList) ++ "$/.test(domain)".toList) := by
    rw [toList_check_domain]
    simp [behind, readGroup, closesOuter, depthBehind, classBehind]
  unfold IsWhole FitsTemplate
  dsimp only
  rw [hline]
  refine and_congr_right fun hone => ?_
  have hliteral : readRegex false (behind '/' (check ⟨.domain, argument⟩).toList) =
      readRegex (endsInClass false argument.toList) "/.test(domain)".toList := by
    have hread := readRegex_regexBody (onOneLine_hostSource.mpr hone) false (Or.inl rfl)
      "/.test(domain)".toList
    rw [toList_check_domain, ← endsInClass_hostSource, ← hread]
    simp [behind, readRegex, classBehind, isLineTerminator]
  rw [hliteral, hgroup]
  cases endsInClass false argument.toList <;> simp [readRegex, classBehind, isLineTerminator]

theorem isWhole_regexp_iff (argument : String) :
    IsWhole ⟨.regexp, argument⟩ ↔ FitsTemplate ⟨.regexp, argument⟩ := by
  have hline : OnOneLine (check ⟨.regexp, argument⟩).toList ↔ OnOneLine argument.toList := by
    rw [toList_check_regexp, onOneLine_template (by decide) (by decide), onOneLine_regexBody]
  have hgroup : readGroup 0 false (behind ':' (check ⟨.regexp, argument⟩).toList) =
      some "$/.test(url)".toList ↔ closesGroups 0 false argument.toList = true := by
    have hread := readGroup_regexBody_iff 0 false argument.toList "$/.test(url)".toList
    rw [toList_check_regexp, ← hread]
    simp [behind]
  unfold IsWhole FitsTemplate
  dsimp only
  rw [hline, hgroup]
  refine and_congr_right fun hone => ?_
  have hliteral : readRegex false (behind '/' (check ⟨.regexp, argument⟩).toList) =
      readRegex (endsInClass false argument.toList) "$/.test(url)".toList := by
    have hread := readRegex_regexBody hone false (Or.inr rfl) "$/.test(url)".toList
    rw [toList_check_regexp, ← hread]
    simp [behind, readRegex, classBehind, isLineTerminator]
  rw [hliteral]
  -- The classes need no condition of their own: the groups are closed only outside of classes.
  refine ⟨fun h => h.2, fun h => ⟨?_, h⟩⟩
  rw [endsInClass_of_closesGroups h]
  simp [readRegex, classBehind, isLineTerminator]

theorem isWhole_url (argument : String) : IsWhole ⟨.url, argument⟩ := by
  have hread := readLiteral_stringBody argument.toList []
  refine ⟨?_, ?_⟩
  · rw [toList_check_url, onOneLine_append, onOneLine_append]
    exact ⟨⟨by decide, onOneLine_stringBody _⟩, by decide⟩
  · rw [toList_check_url]
    simpa [behind] using hread

theorem isWhole_urlPrefix (argument : String) : IsWhole ⟨.urlPrefix, argument⟩ := by
  have hread := readLiteral_stringBody argument.toList ") === 0".toList
  refine ⟨?_, ?_⟩
  · rw [toList_check_urlPrefix, onOneLine_template (by decide) (by decide)]
    exact onOneLine_stringBody _
  · rw [toList_check_urlPrefix]
    simpa [behind] using hread

/-- The check of a condition is whole if and only if the argument fits the template. An argument of
`url` and `url-prefix` always does; one of `domain` has to stay on one line and to close its
character classes; one of `regexp` has to close its groups as well and must not end in a backslash
with nothing to escape. -/
theorem isWhole_iff (c : Condition) : c.IsWhole ↔ c.FitsTemplate := by
  obtain ⟨matcher, argument⟩ := c
  cases matcher with
  | domain => exact isWhole_domain_iff argument
  | url => exact iff_of_true (isWhole_url argument) trivial
  | urlPrefix => exact iff_of_true (isWhole_urlPrefix argument) trivial
  | regexp => exact isWhole_regexp_iff argument

/-- A line feed, a backslash at the end of a regular expression and an open bracket each break a
check. -/
theorem not_isWhole_ofParams :
    (∃ c, (ofParams "regexp(\"a\nb\")").toOption = some [c] ∧ ¬c.IsWhole) ∧
      (∃ c, (ofParams "regexp(\"a\\\\\")").toOption = some [c] ∧ ¬c.IsWhole) ∧
      ∃ c, (ofParams "domain(a[b)").toOption = some [c] ∧ ¬c.IsWhole := by
  refine ⟨⟨⟨.regexp, "a\nb"⟩, by decide +kernel, ?_⟩, ⟨⟨.regexp, "a\\"⟩, by decide +kernel, ?_⟩,
    ⟨⟨.domain, "a[b"⟩, by decide +kernel, ?_⟩⟩
  · rw [isWhole_regexp_iff]
    decide
  · rw [isWhole_regexp_iff]
    decide
  · rw [isWhole_domain_iff]
    decide

end Userstyle.Condition
