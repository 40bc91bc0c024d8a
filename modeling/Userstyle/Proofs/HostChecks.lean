import Mathlib.Data.List.Infix
import Userstyle.Proofs.CheckLiterals

/-!
# Checks of a host

The check of a domain is a regular expression into which the domain is written. It is literal if the
source of the domain consists of characters that stand for themselves and of escaped ones, and spells
the domain. That is so if and only if the dot and the slash are the only special characters of the
domain (`spells_hostBody_iff`). The host of a page then passes the check if and only if it is the
domain or a subdomain of it. To say so, the part of JavaScript's regular expressions that plain hosts
and alternatives need is read by `readPattern` and carried out by `Pattern.passes`.
-/

namespace Userstyle.Script

/-! ## Literal sources -/

/-- The characters that mean something of their own in a regular expression. -/
def isSpecial (c : Char) : Bool := "\\^$.*+?()[]\x7b\x7d|/".toList.contains c

/-- A source is a sequence of escaped characters and of characters that are not special, and these
spell a text. -/
inductive Spells : List Char → List Char → Prop where
  | done : Spells [] []
  | escaped {c : Char} {source text : List Char} (hc : c.isAlphanum = false)
      (h : Spells source text) : Spells ('\\' :: c :: source) (c :: text)
  | plain {c : Char} {source text : List Char} (hc : isSpecial c = false)
      (h : Spells source text) : Spells (c :: source) (c :: text)

theorem Spells.of_escaped {c : Char} {source text : List Char}
    (h : Spells ('\\' :: c :: source) text) : ∃ rest, text = c :: rest ∧ Spells source rest := by
  cases h with
  | escaped _ h => exact ⟨_, rfl, h⟩
  | plain hc _ => cases hc

theorem Spells.of_unescaped {c : Char} {source text : List Char} (h : Spells (c :: source) text)
    (hslash : c ≠ '\\') : isSpecial c = false ∧ ∃ rest, text = c :: rest ∧ Spells source rest := by
  generalize hs : c :: source = s at h
  cases h with
  | done => cases hs
  | escaped _ _ => exact absurd (List.cons.inj hs).1 hslash
  | plain hc h =>
    obtain ⟨rfl, rfl⟩ := List.cons.inj hs
    exact ⟨hc, _, rfl, h⟩

/-- What the check of a domain writes for the domain. -/
def hostBody (s : List Char) : List Char := regexBody (hostSource s)

/-- The only special characters of a text are dots and slashes. -/
def IsPlainHost (s : List Char) : Prop := ∀ c ∈ s, isSpecial c = true → c = '.' ∨ c = '/'

instance (s : List Char) : Decidable (IsPlainHost s) := List.decidableBAll _ s

theorem isPlainHost_cons {c : Char} {s : List Char} :
    IsPlainHost (c :: s) ↔ (isSpecial c = true → c = '.' ∨ c = '/') ∧ IsPlainHost s :=
  List.forall_mem_cons

section HostBody

variable {c : Char} (s : List Char)

theorem hostBody_dot : hostBody ('.' :: s) = '\\' :: '.' :: hostBody s := by
  rw [hostBody, hostSource_cons]
  simp [regexBody, hostBody]

theorem hostBody_slash : hostBody ('/' :: s) = '\\' :: '/' :: hostBody s := by
  rw [hostBody, hostSource_cons]
  simp [regexBody, hostBody]

theorem hostBody_other (hslash : c ≠ '\\') (hdot : c ≠ '.') (hdiv : c ≠ '/') :
    hostBody (c :: s) = c :: hostBody s := by
  rw [hostBody, hostSource_cons]
  simp [regexBody, hostBody, hslash, hdot, hdiv]

/-- The backslash in front of a dot takes the one that the dot is given, so the dot is left bare. -/
theorem hostBody_escaped_dot :
    hostBody ('\\' :: '.' :: s) = '\\' :: '\\' :: '.' :: hostBody s := by
  rw [hostBody, hostSource_cons, hostSource_cons]
  simp [regexBody, hostBody]

theorem hostBody_escaped (hdot : c ≠ '.') :
    hostBody ('\\' :: c :: s) = '\\' :: c :: hostBody s := by
  rw [hostBody, hostSource_cons, hostSource_cons]
  simp [regexBody, hostBody, hdot]

end HostBody

/-- The source of a plain host spells it. -/
theorem spells_hostBody {s : List Char} (h : IsPlainHost s) : Spells (hostBody s) s := by
  induction s with
  | nil => exact .done
  | cons c s ih =>
    obtain ⟨hc, hs⟩ := isPlainHost_cons.mp h
    by_cases hdot : c = '.'
    · subst hdot
      rw [hostBody_dot]
      exact .escaped (by decide) (ih hs)
    by_cases hdiv : c = '/'
    · subst hdiv
      rw [hostBody_slash]
      exact .escaped (by decide) (ih hs)
    · have hplain : isSpecial c = false := by
        rw [← Bool.not_eq_true]
        exact fun hspecial => (hc hspecial).elim hdot hdiv
      have hslash : c ≠ '\\' := by
        rintro rfl
        cases hplain
      rw [hostBody_other s hslash hdot hdiv]
      exact .plain hplain (ih hs)

/-- What a source spells is not longer than the domain that the source was written for, and it is
shorter if the domain is not a plain host. -/
theorem length_of_spells_hostBody {s text : List Char} (h : Spells (hostBody s) text) :
    text.length ≤ s.length ∧ (text.length = s.length → IsPlainHost s) := by
  have step {c : Char} {s rest : List Char}
      (ih : rest.length ≤ s.length ∧ (rest.length = s.length → IsPlainHost s))
      (hc : isSpecial c = true → c = '.' ∨ c = '/') :
      (c :: rest).length ≤ (c :: s).length ∧
        ((c :: rest).length = (c :: s).length → IsPlainHost (c :: s)) := by
    simp only [List.length_cons]
    exact ⟨by omega, fun heq => isPlainHost_cons.mpr ⟨hc, ih.2 (by omega)⟩⟩
  induction s using regexBody.induct generalizing text with
  | case1 =>
    cases h
    exact ⟨Nat.le_refl 0, fun _ c hc => nomatch hc⟩
  | case2 c s ih =>
    by_cases hdot : c = '.'
    · subst hdot
      rw [hostBody_escaped_dot] at h
      obtain ⟨rest, -, hrest⟩ := h.of_escaped
      cases (hrest.of_unescaped (by decide)).1
    · rw [hostBody_escaped s hdot] at h
      obtain ⟨rest, rfl, hrest⟩ := h.of_escaped
      have hle := (ih hrest).1
      simp only [List.length_cons]
      exact ⟨by omega, fun heq => by omega⟩
  | case3 s hpair ih =>
    rw [hostBody_slash] at h
    obtain ⟨rest, rfl, hrest⟩ := h.of_escaped
    exact step (ih hrest) fun _ => Or.inr rfl
  | case4 c s hpair hdiv ih =>
    by_cases hdot : c = '.'
    · subst hdot
      rw [hostBody_dot] at h
      obtain ⟨rest, rfl, hrest⟩ := h.of_escaped
      exact step (ih hrest) fun _ => Or.inl rfl
    by_cases hslash : c = '\\'
    · cases s with
      | nil =>
        subst hslash
        have hlone : hostBody ['\\'] = ['\\'] := rfl
        rw [hlone] at h
        cases h with
        | plain hc _ => cases hc
      | cons d s => exact absurd rfl (hpair d s hslash)
    · rw [hostBody_other s hslash hdot hdiv] at h
      obtain ⟨hc, rest, rfl, hrest⟩ := h.of_unescaped hslash
      refine step (ih hrest) fun hspecial => ?_
      rw [hc] at hspecial
      cases hspecial

/-- The source of a domain spells the domain if and only if the domain is a plain host. -/
theorem spells_hostBody_iff (s : List Char) : Spells (hostBody s) s ↔ IsPlainHost s :=
  ⟨fun h => (length_of_spells_hostBody h).2 rfl, spells_hostBody⟩

/-! ## Patterns -/

/-- A regular expression without repetitions and character classes. -/
inductive Pattern where
  /-- Reads nothing. -/
  | empty
  /-- Holds at the beginning of the text. -/
  | start
  /-- Holds at the end of the text. -/
  | finish
  /-- Reads any character that does not end a line. -/
  | any
  /-- Reads one character. -/
  | char (c : Char)
  /-- Reads one pattern behind the other. -/
  | seq (p q : Pattern)
  /-- Reads one of two patterns. -/
  | either (p q : Pattern)
  deriving DecidableEq, Repr

namespace Pattern

/-- What may be left of the end of a text when a pattern has read from it. -/
def rests (text : List Char) : Pattern → List Char → List (List Char)
  | .empty, s => [s]
  | .start, s => if s.length = text.length then [s] else []
  | .finish, s => if s = [] then [s] else []
  | .any, [] => []
  | .any, c :: r => if isLineTerminator c then [] else [r]
  | .char _, [] => []
  | .char d, c :: r => if c = d then [r] else []
  | .seq p q, s => (p.rests text s).flatMap (q.rests text)
  | .either p q, s => p.rests text s ++ q.rests text s

/-- Whether a pattern is found anywhere in a text. -/
def passes (p : Pattern) (text : List Char) : Bool :=
  text.tails.any fun s => !(p.rests text s).isEmpty

/-- A pattern with the characters of a text to be read behind it. -/
def spell (p : Pattern) (s : List Char) : Pattern := s.foldl (fun p c => .seq p (.char c)) p

theorem mem_rests_char {text s r : List Char} {c : Char} :
    r ∈ (char c).rests text s ↔ s = c :: r := by
  cases s with
  | nil => simp [rests]
  | cons d s =>
    by_cases h : d = c
    · simp [rests, h, eq_comm]
    · simp [rests, h]

theorem mem_rests_spell {p : Pattern} {text s r : List Char} (host : List Char) :
    r ∈ (p.spell host).rests text s ↔ host ++ r ∈ p.rests text s := by
  induction host generalizing p with
  | nil => rfl
  | cons c host ih =>
    show r ∈ ((p.seq (.char c)).spell host).rests text s ↔ _
    rw [ih, rests, List.mem_flatMap]
    simp only [mem_rests_char, exists_eq_right, List.cons_append]

theorem passes_iff {p : Pattern} {text : List Char} :
    p.passes text = true ↔ ∃ s, s <:+ text ∧ ∃ r, r ∈ p.rests text s := by
  unfold passes
  simp only [List.any_eq_true, List.mem_tails, Bool.not_eq_true', List.isEmpty_eq_false_iff_exists_mem]

end Pattern

/-! ## Reading patterns -/

/-- A group that is being read. -/
structure Group where
  /-- The alternatives that are complete. -/
  complete : Option Pattern := none
  /-- The alternative that is being read. -/
  current : Pattern := .empty

namespace Group

/-- Puts a pattern behind what was read. -/
def put (g : Group) (p : Pattern) : Group := { g with current := .seq g.current p }

/-- The pattern of a group that ends. -/
def pattern (g : Group) : Pattern :=
  match g.complete with
  | none => g.current
  | some p => .either p g.current

/-- Begins the next alternative. -/
def next (g : Group) : Group := { complete := some g.pattern }

/-- Puts characters behind what was read. -/
def spell (g : Group) (s : List Char) : Group := { g with current := g.current.spell s }

end Group

/-- The pattern of a character that is not escaped. -/
def atom? (c : Char) : Option Pattern :=
  if c = '^' then some .start
  else if c = '$' then some .finish
  else if c = '.' then some .any
  else if isSpecial c then none
  else some (.char c)

/-- Reads the rest of a source in a group, with the groups around it from the inside out. Sources
with repetitions, character classes and escapes of letters and digits are not read. -/
def readPattern (outer : List Group) (g : Group) : List Char → Option Pattern
  | [] => if outer.isEmpty then some g.pattern else none
  | '\\' :: c :: r => if c.isAlphanum then none else readPattern outer (g.put (.char c)) r
  | '(' :: '?' :: ':' :: r => readPattern (g :: outer) {} r
  | '|' :: r => readPattern outer g.next r
  | ')' :: r =>
    match outer with
    | [] => none
    | o :: outer => readPattern outer (o.put g.pattern) r
  | c :: r =>
    match atom? c with
    | none => none
    | some p => readPattern outer (g.put p) r

/-- A character that is not special is read as itself. -/
theorem readPattern_plain {c : Char} (hc : isSpecial c = false) (outer : List Group) (g : Group)
    (r : List Char) : readPattern outer g (c :: r) = readPattern outer (g.put (.char c)) r := by
  have hne {d : Char} (hd : isSpecial d = true) : c ≠ d := by
    rintro rfl
    rw [hc] at hd
    cases hd
  have hatom : atom? c = some (.char c) := by
    unfold atom?
    rw [if_neg (hne (by decide)), if_neg (hne (by decide)), if_neg (hne (by decide)), hc]
    rfl
  rw [readPattern, hatom]
  all_goals intros; exact absurd ‹c = _› (hne (by decide))

/-- A source is read as the characters that it spells. -/
theorem readPattern_of_spells {source text : List Char} (h : Spells source text)
    (outer : List Group) (g : Group) (r : List Char) :
    readPattern outer g (source ++ r) = readPattern outer (g.spell text) r := by
  induction h generalizing g with
  | done => rfl
  | escaped hc _ ih =>
    rw [List.cons_append, List.cons_append, readPattern, hc, ih]
    rfl
  | plain hc _ ih =>
    rw [List.cons_append, readPattern_plain hc, ih]
    rfl

/-! ## The pattern of a check -/

/-- The pattern of a check that tries a regular expression on the host of the page. -/
def hostPattern? : List Char → Option Pattern
  | '/' :: s =>
    match readRegex false s with
    | none => none
    | some rest =>
      if rest = ".test(domain)".toList then readPattern [] {} (s.take (s.length - rest.length - 1))
      else none
  | _ => none

/-- The pattern in front of a domain: the domain is the whole host or stands behind a dot. -/
def partStart : Pattern := .seq .empty (.either (.seq .empty .start) (.seq .empty (.char '.')))

theorem mem_rests_partStart {text s r : List Char} :
    r ∈ partStart.rests text s ↔ (s = r ∧ s.length = text.length) ∨ s = '.' :: r := by
  have hstart : r ∈ Pattern.start.rests text s ↔ s = r ∧ s.length = text.length := by
    by_cases h : s.length = text.length <;> simp [Pattern.rests, h, eq_comm]
  simp only [partStart, Pattern.rests, List.mem_flatMap, List.mem_singleton, exists_eq_left,
    List.mem_append]
  exact or_congr hstart Pattern.mem_rests_char

/-- A domain is found behind the beginning of a part of the host, and up to the end of the host, if
and only if it is the host or a domain above it. -/
theorem passes_partStart_iff (host text : List Char) :
    (Pattern.seq (partStart.spell host) .finish).passes text = true ↔
      text = host ∨ '.' :: host <:+ text := by
  have hends {s r : List Char} :
      r ∈ (Pattern.seq (partStart.spell host) .finish).rests text s ↔
        r = [] ∧ ((s = host ∧ s.length = text.length) ∨ s = '.' :: host) := by
    have hfinish {u : List Char} : r ∈ Pattern.finish.rests text u ↔ u = [] ∧ r = [] := by
      by_cases h : u = [] <;> simp [Pattern.rests, h]
    rw [Pattern.rests, List.mem_flatMap]
    simp only [hfinish, Pattern.mem_rests_spell, mem_rests_partStart]
    constructor
    · rintro ⟨u, hu, rfl, rfl⟩
      rw [List.append_nil] at hu
      exact ⟨rfl, hu⟩
    · rintro ⟨rfl, hs⟩
      refine ⟨[], ?_, rfl, rfl⟩
      rwa [List.append_nil]
  rw [Pattern.passes_iff]
  simp only [hends]
  constructor
  · rintro ⟨s, hsuffix, r, -, ⟨rfl, hlength⟩ | rfl⟩
    · exact Or.inl (hsuffix.eq_of_length hlength).symm
    · exact Or.inr hsuffix
  · rintro (rfl | hsuffix)
    · exact ⟨text, List.suffix_rfl, [], rfl, Or.inl ⟨rfl, rfl⟩⟩
    · exact ⟨_, hsuffix, [], rfl, Or.inr rfl⟩

end Userstyle.Script

namespace Userstyle.Condition

open Script

/-- The check of a condition is a regular expression that is tried on the host, and the source
between its template is literal and spells the argument. -/
def IsLiteral (c : Condition) : Prop :=
  ∃ source, c.check.toList = "/(?:^|\\.)".toList ++ source ++ "$/.test(domain)".toList ∧
    Spells source c.argument.toList

theorem isLiteral_domain (argument : String) :
    IsLiteral ⟨.domain, argument⟩ ↔ IsPlainHost argument.toList := by
  rw [← spells_hostBody_iff]
  unfold IsLiteral
  rw [toList_check_domain]
  constructor
  · rintro ⟨source, hsource, hspells⟩
    rw [List.append_assoc, List.append_assoc, List.append_cancel_left_eq,
      List.append_cancel_right_eq] at hsource
    rw [hostBody, hsource]
    exact hspells
  · intro hspells
    exact ⟨_, rfl, hspells⟩

/-- A plain host opens no character class. -/
theorem endsInClass_plainHost {s : List Char} (h : IsPlainHost s) : endsInClass false s = false := by
  induction s with
  | nil => rfl
  | cons c s ih =>
    obtain ⟨hc, hs⟩ := isPlainHost_cons.mp h
    have hne {d : Char} (hd : isSpecial d = true) (hdot : d ≠ '.') (hdiv : d ≠ '/') : c ≠ d := by
      rintro rfl
      exact (hc hd).elim hdot hdiv
    have hclass : classBehind false c = false := by
      simp [classBehind, hne (d := '[') (by decide) (by decide) (by decide)]
    rw [endsInClass, hclass]
    · exact ih hs
    · intro d r hslash
      exact absurd hslash (hne (by decide) (by decide) (by decide))

/-- The template of a check is read around what the source of a domain spells. -/
theorem readPattern_template {source host : List Char} (h : Spells source host) :
    readPattern [] {} ("(?:^|\\.)".toList ++ source ++ ['$']) =
      some (.seq (partStart.spell host) .finish) := by
  have hopen : readPattern [] {} ("(?:^|\\.)".toList ++ (source ++ ['$'])) =
      readPattern [] ⟨none, partStart⟩ (source ++ ['$']) := rfl
  rw [List.append_assoc, hopen, readPattern_of_spells h]
  rfl

/-- The check of a plain host on one line is read as the pattern of that host. -/
theorem hostPattern?_check {argument : String} (hplain : IsPlainHost argument.toList)
    (hone : OnOneLine argument.toList) :
    hostPattern? (check ⟨.domain, argument⟩).toList =
      some (.seq (partStart.spell argument.toList) .finish) := by
  have hwhole := (isWhole_domain_iff argument).mpr ⟨hone, endsInClass_plainHost hplain⟩
  have hread := hwhole.2.1
  have hcheck : (check ⟨.domain, argument⟩).toList =
      '/' :: ("(?:^|\\.)".toList ++ hostBody argument.toList ++ ['$'] ++
        '/' :: ".test(domain)".toList) := by
    rw [toList_check_domain, List.append_assoc _ ['$']]
    rfl
  have hbehind (s : List Char) : behind '/' ('/' :: s) = s := by
    simp [behind]
  have htake (a b : List Char) (c : Char) :
      (a ++ c :: b).take ((a ++ c :: b).length - b.length - 1) = a := by
    have hlength : (a ++ c :: b).length - b.length - 1 = a.length := by
      rw [List.length_append, List.length_cons]
      omega
    rw [hlength, List.take_left]
  rw [hcheck, hbehind] at hread
  rw [hcheck, hostPattern?, hread]
  dsimp only
  rw [if_pos rfl, htake, readPattern_template (spells_hostBody hplain)]

/-- The host of a page passes the check of a condition. -/
def PassedBy (c : Condition) (host : List Char) : Prop :=
  ∃ p, hostPattern? c.check.toList = some p ∧ p.passes host = true

/-- The check of a domain is literal if and only if the domain has no special characters but dots and
slashes. If it also stays on one line, then the hosts that pass the check are the domain and its
subdomains. -/
theorem isLiteral_iff_isPlainHost (argument : String) :
    (IsLiteral ⟨.domain, argument⟩ ↔ IsPlainHost argument.toList) ∧
      (IsLiteral ⟨.domain, argument⟩ ∧ OnOneLine argument.toList →
        ∀ host, PassedBy ⟨.domain, argument⟩ host ↔
          host = argument.toList ∨ '.' :: argument.toList <:+ host) := by
  refine ⟨isLiteral_domain argument, fun ⟨hliteral, hone⟩ host => ?_⟩
  have hpattern := hostPattern?_check ((isLiteral_domain argument).mp hliteral) hone
  unfold PassedBy
  rw [hpattern, ← passes_partStart_iff]
  simp only [Option.some.injEq, exists_eq_left']

/-- A host under the domain passes the check of a domain with dots, and one that only ends with the
same characters does not. -/
theorem isLiteral_iff_isPlainHost_dots :
    IsLiteral ⟨.domain, "a.org"⟩ ∧ OnOneLine "a.org".toList ∧
      PassedBy ⟨.domain, "a.org"⟩ "b.a.org".toList ∧
      ¬PassedBy ⟨.domain, "a.org"⟩ "ba.org".toList := by
  obtain ⟨hplain, hpassed⟩ := isLiteral_iff_isPlainHost "a.org"
  have hliteral : IsLiteral ⟨.domain, "a.org"⟩ := hplain.mpr (by decide)
  have hone : OnOneLine "a.org".toList := by decide
  refine ⟨hliteral, hone, (hpassed ⟨hliteral, hone⟩ _).mpr (by decide), fun h => ?_⟩
  exact absurd ((hpassed ⟨hliteral, hone⟩ _).mp h) (by decide)

/-- A bar in a domain divides the check, so that a host passes that has nothing to do with the domain;
and a backslash in front of a dot leaves the dot bare. -/
theorem not_isLiteral_ofParams :
    (∃ c, (ofParams "domain(a|b)").toOption = some [c] ∧ ¬c.IsLiteral ∧
      c.PassedBy "a.org".toList ∧
      ¬("a.org".toList = c.argument.toList ∨ '.' :: c.argument.toList <:+ "a.org".toList)) ∧
    ∃ c, (ofParams "domain(a\\.b)").toOption = some [c] ∧ ¬c.IsLiteral := by
  refine ⟨⟨⟨.domain, "a|b"⟩, by decide +kernel, ?_, ?_, by decide⟩,
    ⟨⟨.domain, "a\\.b"⟩, by decide +kernel, ?_⟩⟩
  · rw [isLiteral_domain]
    decide
  · exact (Option.any_eq_true _ _).mp (by decide +kernel)
  · rw [isLiteral_domain]
    decide

end Userstyle.Condition
