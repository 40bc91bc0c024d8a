import Userstyle.Targeting

/-!
# Where URL prefixes are cut

The pattern of a URL prefix is the prefix up to the first slash from its ninth byte on. That slash is
meant to be the one behind the host. It is as long as the scheme has at most five characters and
scheme and host have five bytes together (`cutsBehindHost_iff`). A longer scheme is cut at one of the
two slashes in front of the host, and in a shorter prefix the slash behind the host comes too early
to count.
-/

namespace Userstyle

open Text

/-! ## The first slash that counts -/

theorem beforePath?_eq_none {s : List Char} (h : '/' ∉ s) (skip : Nat) :
    beforePath? skip s = none := by
  induction s generalizing skip with
  | nil => rfl
  | cons c s ih =>
    rw [List.mem_cons, not_or] at h
    rw [beforePath?, if_neg fun hslash => h.1 hslash.2.symm, ih h.2]
    rfl

/-- A beginning without a slash that counts is passed over. -/
theorem beforePath?_append {skip : Nat} {s : List Char} (h : beforePath? skip s = none)
    (t : List Char) :
    beforePath? skip (s ++ t) = (beforePath? (skip - byteLength s) t).map (s ++ ·) := by
  induction s generalizing skip with
  | nil => simp
  | cons c s ih =>
    rw [beforePath?] at h
    split at h
    · cases h
    · rename_i hslash
      rw [Option.map_eq_none_iff] at h
      rw [List.cons_append, beforePath?, if_neg hslash, ih h, Option.map_map, Nat.sub_sub]
      rfl

theorem beforePath?_slash_eq_nil {skip : Nat} {s : List Char} :
    beforePath? skip ('/' :: s) = some [] ↔ skip = 0 := by
  rw [beforePath?]
  by_cases h : skip = 0
  · simp [h]
  · simp [h]

/-- A slash among the bytes to be skipped is passed over. -/
theorem beforePath?_slash {skip : Nat} (h : 0 < skip) (s : List Char) :
    beforePath? skip ('/' :: s) = (beforePath? (skip - 1) s).map ('/' :: ·) := by
  rw [beforePath?, if_neg fun hslash => Nat.ne_of_gt h hslash.1]
  rfl

/-! ## Prefixes by their parts -/

/-- The characters of a scheme: letters, digits and hyphens. -/
def isSchemeChar (c : Char) : Bool := c.isAlphanum || c == '-'

/-- A URL prefix that has a scheme and a host. -/
structure SitePrefix where
  /-- What stands in front of the colon. -/
  scheme : List Char
  /-- What stands between the two slashes and the next one. -/
  host : List Char
  /-- Nothing, or what stands behind the host from a slash on. -/
  rest : List Char
  scheme_ne_nil : scheme ≠ []
  all_isSchemeChar : scheme.all isSchemeChar = true
  host_ne_nil : host ≠ []
  slash_notMem_host : '/' ∉ host
  rest_eq : rest = [] ∨ rest.head? = some '/'

namespace SitePrefix

variable (p : SitePrefix)

/-- The prefix up to the end of the host. -/
def site : List Char := p.scheme ++ "://".toList ++ p.host

/-- The text of the prefix. -/
def text : List Char := p.site ++ p.rest

/-- The condition with the prefix as its argument. -/
def condition : Condition := ⟨.urlPrefix, String.ofList p.text⟩

/-- What the text is cut to. -/
def cut? : Option (List Char) :=
  if 6 < p.scheme.length then some (p.scheme ++ ":".toList)
  else if p.scheme.length = 6 then some (p.scheme ++ ":/".toList)
  else (beforePath? (5 - p.scheme.length - byteLength p.host) p.rest).map (p.site ++ ·)

theorem utf8Size_of_isSchemeChar {c : Char} (h : isSchemeChar c = true) : c.utf8Size = 1 := by
  have hlast : 'Z'.val.toNat = 90 ∧ 'z'.val.toNat = 122 ∧ '9'.val.toNat = 57 := ⟨rfl, rfl, rfl⟩
  have hascii : (127 : UInt32).toNat = 127 := rfl
  rw [isSchemeChar, Bool.or_eq_true, beq_iff_eq] at h
  rw [Char.utf8Size_eq_one_iff, UInt32.le_iff_toNat_le]
  rcases h with h | rfl
  · unfold Char.isAlphanum Char.isAlpha Char.isUpper Char.isLower Char.isDigit at h
    simp only [Bool.or_eq_true, Bool.and_eq_true, decide_eq_true_eq, UInt32.le_iff_toNat_le,
      ge_iff_le] at h
    omega
  · decide

theorem byteLength_scheme : byteLength p.scheme = p.scheme.length := by
  have hscheme := p.all_isSchemeChar
  generalize p.scheme = scheme at hscheme
  induction scheme with
  | nil => rfl
  | cons c scheme ih =>
    rw [List.all_cons, Bool.and_eq_true] at hscheme
    obtain ⟨hc, hrest⟩ := hscheme
    rw [byteLength_cons, utf8Size_of_isSchemeChar hc, ih hrest, List.length_cons, Nat.add_comm]

theorem slash_notMem_scheme : '/' ∉ p.scheme ++ [':'] := by
  intro h
  rcases List.mem_append.mp h with h | h
  · cases List.all_eq_true.mp p.all_isSchemeChar _ h
  · cases List.mem_singleton.mp h

theorem beforePath?_text : beforePath? schemeLength p.text = p.cut? := by
  have htext : p.text = (p.scheme ++ [':']) ++ '/' :: '/' :: (p.host ++ p.rest) := by
    simp [text, site]
  have hskip : schemeLength - byteLength (p.scheme ++ [':']) = 7 - p.scheme.length := by
    rw [byteLength_append, byteLength_scheme]
    show 8 - (p.scheme.length + 1) = _
    omega
  rw [htext, beforePath?_append (beforePath?_eq_none p.slash_notMem_scheme _), hskip]
  unfold cut?
  by_cases hlong : 6 < p.scheme.length
  · rw [if_pos hlong, beforePath?_slash_eq_nil.mpr (by omega)]
    simp
  rw [if_neg hlong, beforePath?_slash (by omega)]
  by_cases hsix : p.scheme.length = 6
  · rw [if_pos hsix, beforePath?_slash_eq_nil.mpr (by omega)]
    simp
  have hleft : 7 - p.scheme.length - 1 - 1 = 5 - p.scheme.length := by omega
  rw [if_neg hsix, beforePath?_slash (by omega), hleft,
    beforePath?_append (beforePath?_eq_none p.slash_notMem_host _)]
  simp [Option.map_map, Function.comp_def, site]

/-- The slash of the text that counts is the one behind the host, or there is none if the text ends
with the host. -/
theorem cut?_eq_site_iff :
    p.cut? = (if p.rest = [] then none else some p.site) ↔
      p.scheme.length ≤ 5 ∧ (p.rest = [] ∨ 5 ≤ p.scheme.length + byteLength p.host) := by
  have hsite : p.site.length = p.scheme.length + 3 + p.host.length := by
    simp [site]
    omega
  have hlonger {s : List Char} (hs : s.length < p.site.length) :
      some s ≠ if p.rest = [] then none else some p.site := by
    intro h
    split at h
    · cases h
    · rw [← Option.some.inj h] at hs
      exact Nat.lt_irrefl _ hs
  unfold cut?
  by_cases hlong : 6 < p.scheme.length
  · rw [if_pos hlong]
    exact iff_of_false (hlonger (by simp [hsite]; omega)) (by omega)
  by_cases hsix : p.scheme.length = 6
  · rw [if_neg hlong, if_pos hsix]
    exact iff_of_false (hlonger (by simp [hsite]; omega)) (by omega)
  rw [if_neg hlong, if_neg hsix]
  rcases p.rest_eq with hrest | hrest
  · rw [hrest]
    exact iff_of_true rfl ⟨by omega, Or.inl rfl⟩
  · obtain ⟨rest, hrest⟩ := List.head?_eq_some_iff.mp hrest
    have hcut : (beforePath? (5 - p.scheme.length - byteLength p.host) p.rest).map (p.site ++ ·) =
        some p.site ↔
          beforePath? (5 - p.scheme.length - byteLength p.host) p.rest = some [] := by
      simp [Option.map_eq_some_iff]
    rw [if_neg (by rw [hrest]; exact List.cons_ne_nil _ _), hcut, hrest, beforePath?_slash_eq_nil]
    simp only [reduceCtorEq, false_or]
    omega

end SitePrefix

/-! ## What a prefix adds -/

/-- An open targeting with the pattern of a prefix that is cut behind `site`, or frozen by a prefix
that is not cut. -/
def Targeting.withSite (ps : List String) (ds : List Diagnostic) (argument : String) :
    Option (List Char) → Targeting
  | some site => ⟨(PatternSet.listed ps).add (String.ofList site ++ "/*"), ds⟩
  | none => ⟨.frozen, ds ++ [.prefixWithoutPath argument]⟩

theorem Targeting.add_urlPrefix (ps : List String) (ds : List Diagnostic) (argument : String) :
    Targeting.add ⟨.listed ps, ds⟩ ⟨.urlPrefix, argument⟩ =
      withSite ps ds argument (beforePath? schemeLength argument.toList) := by
  unfold add Condition.contribution
  cases beforePath? schemeLength argument.toList with
  | none => rfl
  | some site => rfl

/-- The pattern that is added tells where the prefix was cut. -/
theorem Targeting.withSite_inj {argument : String} {s t : Option (List Char)}
    (h : withSite [] [] argument s = withSite [] [] argument t) : s = t := by
  cases s with
  | none =>
    cases t with
    | none => rfl
    | some t => cases congrArg Targeting.patterns h
  | some s =>
    cases t with
    | none => cases congrArg Targeting.patterns h
    | some t =>
      have hpatterns : PatternSet.listed [String.ofList s ++ "/*"] =
          .listed [String.ofList t ++ "/*"] := congrArg Targeting.patterns h
      have hsites : String.ofList s = String.ofList t := by simpa using hpatterns
      rw [← String.toList_ofList (l := s), hsites, String.toList_ofList]

namespace SitePrefix

variable (p : SitePrefix)

/-- Whatever patterns an open targeting has: the prefix adds the pattern of its site if something
follows the host, and freezes the patterns with a diagnostic if not. -/
def CutsBehindHost : Prop :=
  ∀ (ps : List String) (ds : List Diagnostic),
    Targeting.add ⟨.listed ps, ds⟩ p.condition =
      Targeting.withSite ps ds (String.ofList p.text) (if p.rest = [] then none else some p.site)

theorem add_condition (ps : List String) (ds : List Diagnostic) :
    Targeting.add ⟨.listed ps, ds⟩ p.condition =
      Targeting.withSite ps ds (String.ofList p.text) p.cut? := by
  rw [condition, Targeting.add_urlPrefix, String.toList_ofList, beforePath?_text]

/-- A URL prefix is cut right behind its host, or not at all if it ends there, if and only if its
scheme has at most five characters and, where it does not end with the host, scheme and host have
five bytes together. A prefix with a longer scheme is cut in front of the second slash behind the
scheme or, if the scheme has more than six characters, in front of the first one, also if it ends
with the host. Where scheme and host are shorter, the prefix is cut in front of the first slash from
its ninth byte on, and not at all if there is none. -/
theorem cutsBehindHost_iff :
    (p.CutsBehindHost ↔
      p.scheme.length ≤ 5 ∧ (p.rest = [] ∨ 5 ≤ p.scheme.length + byteLength p.host)) ∧
    ∀ (ps : List String) (ds : List Diagnostic),
      Targeting.add ⟨.listed ps, ds⟩ p.condition =
        Targeting.withSite ps ds (String.ofList p.text) p.cut? := by
  refine ⟨?_, p.add_condition⟩
  rw [← cut?_eq_site_iff]
  constructor
  · intro h
    have hempty := h [] []
    rw [add_condition] at hempty
    exact Targeting.withSite_inj hempty
  · intro h ps ds
    rw [add_condition, h]

/-- A long scheme is cut itself, and the slash behind a short host is overlooked. -/
theorem not_cutsBehindHost :
    ¬CutsBehindHost ⟨"chrome-extension".toList, "abc".toList, "/x".toList, by decide, by decide,
        by decide, by decide, by decide⟩ ∧
      Targeting.empty.add ⟨.urlPrefix, "chrome-extension://abc/x"⟩ =
        ⟨.listed ["chrome-extension:/*"], []⟩ ∧
      ¬CutsBehindHost ⟨"ftp".toList, "a".toList, "/x".toList, by decide, by decide,
        by decide, by decide, by decide⟩ ∧
      Targeting.empty.add ⟨.urlPrefix, "ftp://a/x"⟩ =
        ⟨.frozen, [.prefixWithoutPath "ftp://a/x"]⟩ := by
  have hlong : Targeting.empty.add ⟨.urlPrefix, "chrome-extension://abc/x"⟩ =
      ⟨.listed ["chrome-extension:/*"], []⟩ := by decide +kernel
  have hshort : Targeting.empty.add ⟨.urlPrefix, "ftp://a/x"⟩ =
      ⟨.frozen, [.prefixWithoutPath "ftp://a/x"]⟩ := by decide +kernel
  refine ⟨fun h => ?_, hlong, fun h => ?_, hshort⟩
  · exact absurd (h [] []) (by decide +kernel)
  · exact absurd (h [] []) (by decide +kernel)

end SitePrefix

end Userstyle
