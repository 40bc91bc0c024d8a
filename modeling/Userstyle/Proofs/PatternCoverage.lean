import Userstyle.Proofs.PatternState
import Userstyle.Proofs.Places

/-!
# What match patterns cover

A match pattern is a text in which a star stands for any run of characters. As long as the set of
patterns is not frozen, every page that satisfies a condition is covered by one of them, so a script
is never kept from a page that it is meant for.
-/

namespace Userstyle

open Text

/-! ## Patterns -/

/-- A pattern covers a text: a star stands for any run of characters, every other character for
itself. -/
inductive Covers : List Char → List Char → Prop where
  | done : Covers [] []
  | char {c : Char} {p s : List Char} (hc : c ≠ '*') (h : Covers p s) : Covers (c :: p) (c :: s)
  | star {p s : List Char} (run : List Char) (h : Covers p s) : Covers ('*' :: p) (run ++ s)

namespace Covers

theorem refl (s : List Char) : Covers s s := by
  induction s with
  | nil => exact done
  | cons c s ih =>
    by_cases hc : c = '*'
    · rw [hc]
      exact star ['*'] ih
    · exact char hc ih

theorem append {p q s t : List Char} (h : Covers p s) (h' : Covers q t) :
    Covers (p ++ q) (s ++ t) := by
  induction h with
  | done => exact h'
  | char hc _ ih => exact char hc ih
  | star run _ ih =>
    rw [List.append_assoc]
    exact star run ih

/-- A pattern that ends with a star covers every text that its beginning is a beginning of. -/
theorem append_star (s run : List Char) : Covers (s ++ ['*']) (s ++ run) := by
  have h := star run done
  rw [List.append_nil] at h
  exact (refl s).append h

end Covers

/-! ## Pages -/

/-- The URL of a page, by its parts. -/
structure Url where
  scheme : List Char
  host : List Char
  /-- What stands behind the slash that ends the host. -/
  rest : List Char

/-- The text of a URL. -/
def Url.text (u : Url) : List Char := u.scheme ++ "://".toList ++ u.host ++ '/' :: u.rest

/-- A condition may hold on the page with a URL. What a regular expression matches is left open. -/
def Condition.MayHold (c : Condition) (u : Url) : Prop :=
  match c.matcher with
  | .domain => u.host = c.argument.toList ∨ '.' :: c.argument.toList <:+ u.host
  | .url => u.text = c.argument.toList
  | .urlPrefix => c.argument.toList <+: u.text
  | .regexp => True

/-- What covers the host of a page, with a star on either side, covers the page. -/
theorem covers_of_host {p : List Char} {u : Url} (hp : Covers p u.host) :
    Covers ("*://".toList ++ p ++ "/*".toList) u.text := by
  have hscheme : Covers "*://".toList (u.scheme ++ "://".toList) :=
    Covers.star u.scheme (Covers.refl "://".toList)
  have hrest : Covers "/*".toList ('/' :: u.rest) := Covers.append_star ['/'] u.rest
  exact (hscheme.append hp).append hrest

theorem covers_subdomain {d host : List Char} (h : '.' :: d <:+ host) :
    Covers ('*' :: '.' :: d) host := by
  obtain ⟨sub, rfl⟩ := h
  exact Covers.star sub (Covers.refl ('.' :: d))

/-- The text before a separator is a beginning of the text. -/
theorem takeBytes_of_find? {s : List Char} {x : Nat × Char}
    (h : (charIndices 0 s).find? isPathSeparator = some x) :
    ∃ after, s = takeBytes x.1 s ++ '/' :: after := by
  obtain ⟨before, after, hs, hx⟩ := mem_charIndices (List.mem_of_find?_eq_some h)
  have hsep := List.find?_some h
  have hslash : x.2 = '/' := by
    unfold isPathSeparator at hsep
    rw [Bool.and_eq_true, beq_iff_eq] at hsep
    exact hsep.2
  rw [Nat.zero_add] at hx
  rw [hslash] at hs
  refine ⟨after, ?_⟩
  rw [hx, hs, takeBytes_append]

/-! ## Conditions -/

/-- A page on which a condition may hold is covered by a pattern of the condition, if the condition
has patterns. -/
theorem Condition.covered {c : Condition} {u : Url} (hc : ¬ c.Freezing) (hu : c.MayHold u) :
    ∃ p ∈ c.contributed, Covers p.toList u.text := by
  obtain ⟨matcher, argument⟩ := c
  cases matcher with
  | domain =>
    rcases hu with hu | hu
    · refine ⟨"*://" ++ argument ++ "/*", List.mem_cons_self, ?_⟩
      rw [String.toList_append, String.toList_append]
      exact covers_of_host (hu ▸ Covers.refl u.host)
    · refine ⟨"*://*." ++ argument ++ "/*", List.mem_cons_of_mem _ List.mem_cons_self, ?_⟩
      rw [String.toList_append, String.toList_append]
      exact covers_of_host (covers_subdomain hu)
  | url =>
    refine ⟨argument, List.mem_cons_self, ?_⟩
    have hu : u.text = argument.toList := hu
    rw [hu]
    exact Covers.refl argument.toList
  | urlPrefix =>
    obtain ⟨behind, hu⟩ := hu
    cases hf : (charIndices 0 argument.toList).find? isPathSeparator with
    | none => exact absurd ((freezing_urlPrefix argument).mpr hf) hc
    | some x =>
      obtain ⟨after, hsite⟩ := takeBytes_of_find? hf
      refine ⟨String.ofList (takeBytes x.1 argument.toList) ++ "/*", ?_, ?_⟩
      · unfold contributed
        simp only [hf, List.mem_singleton]
      · have htext : u.text = (takeBytes x.1 argument.toList ++ ['/']) ++ (after ++ behind) := by
          rw [← hu]
          conv => lhs; rw [hsite]
          simp
        rw [htext, String.toList_append, String.toList_ofList]
        have hpattern : "/*".toList = ['/'] ++ ['*'] := rfl
        rw [hpattern, ← List.append_assoc]
        exact Covers.append_star _ _
  | regexp => exact absurd (Or.inl rfl) hc

namespace Targeting

/-- Match patterns never keep a script from a page: whatever parameter lists are read one after the
other, as long as the set of patterns is not frozen in the end, one of the patterns covers each page
on which a condition may hold. -/
theorem readEach_covers {lists ps : List String} {c : Condition} {u : Url}
    (h : (empty.readEach lists).2.patterns = .listed ps) (hc : c ∈ conditionsOf lists)
    (hu : c.MayHold u) : ∃ p ∈ ps, Covers p.toList u.text := by
  have hof := Of.empty.addAll (conditionsOf lists)
  have hp := hof.patterns
  rw [List.nil_append] at hp
  rw [readEach_eq] at h
  by_cases hf : ∃ d ∈ conditionsOf lists, d.Freezing
  · rw [if_pos hf, h] at hp
    cases hp
  · have hps : ps = ((conditionsOf lists).flatMap Condition.contributed).eraseDups := by
      rw [if_neg hf, h] at hp
      exact PatternSet.listed.inj hp
    have hfree : ¬ c.Freezing := fun hfc => hf ⟨c, hc, hfc⟩
    obtain ⟨p, hmem, hcovers⟩ := Condition.covered hfree hu
    refine ⟨p, ?_, hcovers⟩
    rw [hps, List.mem_eraseDups]
    exact List.mem_flatMap.mpr ⟨c, hc, hmem⟩

/-- A subdomain is covered by the second pattern of a domain, also when a list before it fails. -/
theorem readEach_covers_subdomain :
    (empty.readEach ["url-prefix(https://b.com/x)", "domain(a.com", "domain(a.com)"]).2.patterns =
        .listed ["https://b.com/*", "*://a.com/*", "*://*.a.com/*"] ∧
      ∃ p ∈ ["https://b.com/*", "*://a.com/*", "*://*.a.com/*"],
        Covers p.toList (Url.text ⟨"https".toList, "www.a.com".toList, "x".toList⟩) := by
  have hpatterns :
      (empty.readEach ["url-prefix(https://b.com/x)", "domain(a.com", "domain(a.com)"]).2.patterns =
        .listed ["https://b.com/*", "*://a.com/*", "*://*.a.com/*"] := by
    decide +kernel
  have hread : (⟨.domain, "a.com"⟩ : Condition) ∈
      conditionsOf ["url-prefix(https://b.com/x)", "domain(a.com", "domain(a.com)"] := by
    decide +kernel
  have hholds : Condition.MayHold ⟨.domain, "a.com"⟩
      ⟨"https".toList, "www.a.com".toList, "x".toList⟩ := by
    exact Or.inr ⟨"www".toList, by decide⟩
  exact ⟨hpatterns, readEach_covers hpatterns hread hholds⟩

end Targeting

end Userstyle
