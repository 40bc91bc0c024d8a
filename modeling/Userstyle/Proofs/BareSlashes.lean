import Mathlib.Data.List.Basic
import Userstyle.Script.Literal

/-!
# Bare slashes in the source of a pattern

The source of a regular expression is read from the left in atoms: a backslash goes with the
character behind it, any other character stands alone. A slash that stands alone would end the
literal. `regexBody` inserts a backslash in front of each such slash and changes nothing else
(`regexBody_eq`), so each of them is part of a pair when the result is read (`atoms_regexBody`), and
nothing is left to insert.
-/

namespace Userstyle.Script

/-- What the source of a regular expression is made of. -/
inductive Atom where
  /-- A backslash with the character behind it. -/
  | pair (c : Char)
  /-- A character that stands alone. -/
  | single (c : Char)
  deriving DecidableEq, Repr

/-- The atoms of a source from the left. A backslash at the end stands alone. -/
def atoms : List Char → List Atom
  | [] => []
  | '\\' :: c :: r => .pair c :: atoms r
  | c :: r => .single c :: atoms r

namespace Atom

/-- The characters of an atom. -/
def text : Atom → List Char
  | pair c => ['\\', c]
  | single c => [c]

/-- A slash without a backslash. -/
def bareSlash : Atom := .single '/'

/-- What is inserted in front of an atom. -/
def inserted (a : Atom) : List Char := if a = bareSlash then ['\\'] else []

/-- The characters that stand for an atom in a literal, each with whether it is inserted. -/
def marked (a : Atom) : List (Char × Bool) := a.inserted.map (·, true) ++ a.text.map (·, false)

/-- The atom that stands for an atom in a literal. -/
def guarded (a : Atom) : Atom := if a = bareSlash then .pair '/' else a

theorem single_ne_bareSlash {c : Char} (h : c ≠ '/') : single c ≠ bareSlash :=
  fun hslash => h (single.inj hslash)

theorem guarded_ne_bareSlash (a : Atom) : a.guarded ≠ bareSlash := by
  unfold guarded
  split
  · exact fun h => nomatch h
  · assumption

end Atom

/-- The characters of a source in a literal, each with whether it is inserted. -/
def markedBody (s : List Char) : List (Char × Bool) := (atoms s).flatMap Atom.marked

section Single

variable {c : Char} {r : List Char}

/-- In front of other text than one character behind a backslash, a character stands alone. -/
theorem atoms_single (h : ∀ d t, c = '\\' → r = d :: t → False) :
    atoms (c :: r) = .single c :: atoms r := by
  rw [atoms]
  exact h

theorem regexBody_single (h : ∀ d t, c = '\\' → r = d :: t → False) :
    regexBody (c :: r) = (Atom.single c).inserted ++ c :: regexBody r := by
  have hbody : regexBody (c :: r) =
      if c = '/' then '\\' :: c :: regexBody r else c :: regexBody r := by
    rw [regexBody]
    exact h
  rw [hbody]
  split
  · rename_i hc
    rw [hc]
    rfl
  · rename_i hc
    rw [Atom.inserted, if_neg (Atom.single_ne_bareSlash hc)]
    rfl

end Single

/-- The atoms of a source are the source. -/
theorem flatMap_text_atoms (s : List Char) : (atoms s).flatMap Atom.text = s := by
  fun_induction atoms s with
  | case1 => rfl
  | case2 c r ih => rw [List.flatMap_cons, ih, Atom.text, List.cons_append, List.singleton_append]
  | case3 c r _ ih => rw [List.flatMap_cons, ih, Atom.text, List.singleton_append]

/-- In the literal each bare slash has a backslash in front of it, and that is all that is new. -/
theorem regexBody_eq (s : List Char) :
    regexBody s = (atoms s).flatMap fun a => a.inserted ++ a.text := by
  fun_induction atoms s with
  | case1 => rfl
  | case2 c r ih =>
    rw [regexBody, List.flatMap_cons, ← ih]
    rfl
  | case3 c r hpair ih =>
    rw [regexBody_single hpair, List.flatMap_cons, ← ih, List.append_assoc]
    rfl

theorem map_fst_markedBody (s : List Char) : (markedBody s).map Prod.fst = regexBody s := by
  rw [markedBody, List.map_flatMap, regexBody_eq]
  congr 1
  funext a
  simp [Atom.marked, Function.comp_def]

theorem filter_markedBody (s : List Char) :
    ((markedBody s).filter fun x => !x.2).map Prod.fst = s := by
  rw [markedBody, List.filter_flatMap, List.map_flatMap]
  refine Eq.trans ?_ (flatMap_text_atoms s)
  congr 1
  funext a
  simp [Atom.marked, List.filter_map, Function.comp_def]

/-- Read again, each bare slash has become a pair, and the other atoms are the same. -/
theorem atoms_regexBody (s : List Char) : atoms (regexBody s) = (atoms s).map Atom.guarded := by
  fun_induction atoms s with
  | case1 => rfl
  | case2 c r ih =>
    rw [regexBody, atoms, List.map_cons, ih]
    rfl
  | case3 c r hpair ih =>
    rw [regexBody_single hpair, List.map_cons, ← ih]
    unfold Atom.inserted Atom.guarded
    split
    · rename_i hslash
      rw [Atom.single.inj hslash]
      rfl
    · refine atoms_single fun d t hc hr => ?_
      cases r with
      | nil => cases hr
      | cons e r => exact hpair e r hc rfl

theorem bareSlash_notMem_regexBody (s : List Char) : .bareSlash ∉ atoms (regexBody s) := by
  rw [atoms_regexBody, List.mem_map]
  rintro ⟨a, -, ha⟩
  exact a.guarded_ne_bareSlash ha

/-- A source without bare slashes is not changed. -/
theorem regexBody_of_notMem {s : List Char} (h : .bareSlash ∉ atoms s) : regexBody s = s := by
  calc regexBody s
    _ = (atoms s).flatMap fun a => a.inserted ++ a.text := regexBody_eq s
    _ = (atoms s).flatMap Atom.text := by
      refine List.flatMap_congr fun a ha => ?_
      have hne : a ≠ .bareSlash := fun hslash => h (hslash ▸ ha)
      rw [Atom.inserted, if_neg hne, List.nil_append]
    _ = s := flatMap_text_atoms s

/-- The source of a pattern goes into a literal with exactly one backslash inserted in front of each
bare slash and nothing else changed: without the inserted characters it is the source again. Read
again it has no bare slash, so inserting once more changes nothing. -/
theorem regexBody_guards (s : List Char) :
    regexBody s = (markedBody s).map Prod.fst ∧
      ((markedBody s).filter fun x => !x.2).map Prod.fst = s ∧
      .bareSlash ∉ atoms (regexBody s) ∧
      regexBody (regexBody s) = regexBody s := by
  have hguarded := bareSlash_notMem_regexBody s
  exact ⟨(map_fst_markedBody s).symm, filter_markedBody s, hguarded, regexBody_of_notMem hguarded⟩

/-- An even run of backslashes leaves the slash behind it bare, and an odd one does not. -/
example : regexBody "a\\\\/b\\/".toList = "a\\\\\\/b\\/".toList := by decide

end Userstyle.Script
