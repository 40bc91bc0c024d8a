import Mathlib.Data.List.Basic
import Userstyle.Proofs.HeaderText
import Userstyle.Proofs.MetadataLayers

/-!
# Header values

A value of the metadata is brought on one line before the header shows it. That takes away blank
characters only (`ink_oneLine`), and it leaves a text with no blank at either end and no line end
inside (`IsShown`). Such a text is on one line already, so it is shown as it is
(`headerValue?_of_isShown`).
-/

namespace Userstyle.Text

/-- The characters of a text that are not blank. -/
def ink (s : List Char) : List Char := s.filter fun c => !isBlank c

/-- A text that neither begins nor ends with a blank character, and is not empty. -/
structure Solid (s : List Char) : Prop where
  ne_nil : s ≠ []
  head : ∀ c ∈ s.head?, isBlank c = false
  last : ∀ c ∈ s.getLast?, isBlank c = false

variable {s t : List Char}

theorem ink_append (s t : List Char) : ink (s ++ t) = ink s ++ ink t := List.filter_append s t

theorem ink_eq_nil_iff : ink s = [] ↔ isAllBlank s = true := by
  unfold ink isAllBlank
  rw [List.filter_eq_nil_iff, List.all_eq_true]
  simp

/-! ## Trimming -/

theorem ink_trimStart (s : List Char) : ink (trimStart s) = ink s := by
  have hblank : ink (s.takeWhile isBlank) = [] := by
    rw [ink_eq_nil_iff]
    exact List.all_takeWhile
  calc ink (trimStart s)
    _ = ink (s.takeWhile isBlank) ++ ink (s.dropWhile isBlank) := by
      rw [hblank, List.nil_append]
      rfl
    _ = ink s := by rw [← ink_append, List.takeWhile_append_dropWhile]

theorem ink_reverse (s : List Char) : ink s.reverse = (ink s).reverse := List.filter_reverse

/-- Trimming takes away blank characters only. -/
theorem ink_trim (s : List Char) : ink (trim s) = ink s := by
  have hend (t : List Char) : ink (trimEnd t) = ink t := by
    show ink (trimStart t.reverse).reverse = ink t
    rw [ink_reverse, ink_trimStart, ink_reverse, List.reverse_reverse]
  rw [trim, hend, ink_trimStart]

theorem head?_trimStart {c : Char} (h : c ∈ (trimStart s).head?) : isBlank c = false := by
  have hhead := List.head?_dropWhile_not isBlank s
  unfold trimStart at h
  rw [Option.mem_def.mp h] at hhead
  exact hhead

/-- A trimmed text has no blank at its ends. -/
theorem solid_trim (h : trim s ≠ []) : Solid (trim s) where
  ne_nil := h
  head := by
    intro c hc
    obtain ⟨t, ht⟩ : trim s <+: trimStart s := trimEnd_isPrefix (trimStart s)
    refine head?_trimStart (s := s) ?_
    rw [← ht, List.head?_append, Option.mem_def.mp hc]
    rfl
  last := by
    intro c hc
    refine head?_trimStart (s := (trimStart s).reverse) ?_
    rwa [trim, trimEnd, List.getLast?_reverse] at hc

theorem trim_of_solid (h : Solid s) : trim s = s := by
  have hstart {t : List Char} (ht : ∀ c ∈ t.head?, isBlank c = false) : trimStart t = t := by
    cases t with
    | nil => rfl
    | cons c t =>
      refine List.dropWhile_cons_of_neg ?_
      rw [ht c rfl]
      exact Bool.false_ne_true
  have hend : trimStart s.reverse = s.reverse := by
    refine hstart fun c hc => h.last c ?_
    rwa [List.head?_reverse] at hc
  rw [trim, hstart h.head]
  show (trimStart s.reverse).reverse = s
  rw [hend, List.reverse_reverse]

theorem Solid.append (hs : Solid s) (ht : Solid t) (mid : List Char) : Solid (s ++ mid ++ t) where
  ne_nil := by
    intro h
    exact ht.ne_nil (List.append_eq_nil_iff.mp h).2
  head := by
    intro c hc
    obtain ⟨a, r, rfl⟩ := List.exists_cons_of_ne_nil hs.ne_nil
    exact hs.head c hc
  last := by
    intro c hc
    rw [List.getLast?_append_of_ne_nil _ ht.ne_nil] at hc
    exact ht.last c hc

/-! ## Joining and cutting -/

theorem ink_intercalate {sep : List Char} (hsep : isAllBlank sep = true)
    (parts : List (List Char)) : ink (sep.intercalate parts) = parts.flatMap ink := by
  induction parts with
  | nil => rfl
  | cons p ps ih =>
    cases ps with
    | nil => simp [List.intercalate_singleton]
    | cons q ps =>
      rw [List.intercalate_cons_cons, ink_append, ink_append, ih, ink_eq_nil_iff.mpr hsep,
        List.append_nil]
      exact List.flatMap_cons.symm

theorem solid_intercalate (sep : List Char) {parts : List (List Char)} (hne : parts ≠ [])
    (h : ∀ p ∈ parts, Solid p) : Solid (sep.intercalate parts) := by
  induction parts with
  | nil => exact absurd rfl hne
  | cons p ps ih =>
    obtain ⟨hp, hps⟩ := List.forall_mem_cons.mp h
    cases ps with
    | nil => simpa [List.intercalate_singleton] using hp
    | cons q ps =>
      rw [List.intercalate_cons_cons]
      exact hp.append (ih (List.cons_ne_nil q ps) hps) sep

/-- A text cut at blank characters has the same other characters. -/
theorem flatMap_ink_pieces {isSeparator : Char → Bool}
    (h : ∀ c, isSeparator c = true → isBlank c = true) (s : List Char) :
    (pieces isSeparator s).flatMap ink = ink s := by
  induction s with
  | nil => rfl
  | cons c r ih =>
    rw [pieces]
    by_cases hc : isSeparator c = true
    · rw [if_pos hc, List.flatMap_cons, ih]
      simp [ink, h c hc]
    · rw [if_neg hc]
      cases hp : pieces isSeparator r with
      | nil => exact absurd hp (pieces_ne_nil r)
      | cons piece rest =>
        rw [hp, List.flatMap_cons] at ih
        show ink (c :: piece) ++ rest.flatMap ink = ink (c :: r)
        rw [← List.singleton_append, ink_append, List.append_assoc, ih, ← ink_append]
        rfl

end Userstyle.Text

namespace Userstyle.Metadata

open Text

/-! ## Values on one line -/

/-- A text as the header shows it. -/
structure IsShown (v : List Char) : Prop extends Solid v where
  oneLine : '\r' ∉ v ∧ '\n' ∉ v

/-- Bringing a value on one line takes away blank characters only. -/
theorem ink_oneLine (s : List Char) : ink (oneLine s) = ink s := by
  have hend : ∀ c, isLineEnd c = true → isBlank c = true := by
    intro c hc
    unfold isLineEnd at hc
    rw [Bool.or_eq_true, beq_iff_eq, beq_iff_eq] at hc
    rcases hc with rfl | rfl <;> rfl
  have hempty (parts : List (List Char)) :
      (parts.filter fun part => !part.isEmpty).flatMap ink = parts.flatMap ink := by
    induction parts with
    | nil => rfl
    | cons part parts ih =>
      cases part with
      | nil => exact ih
      | cons c part => exact congrArg (ink (c :: part) ++ ·) ih
  rw [oneLine, ink_intercalate rfl, hempty, List.flatMap_map, ← flatMap_ink_pieces hend s]
  congr 1
  funext part
  exact ink_trim part

theorem isShown_oneLine {s : List Char} (h : oneLine s ≠ []) : IsShown (oneLine s) := by
  have hends : ∀ c ∈ oneLine s, isLineEnd c = false := fun c hc => Script.mem_oneLine hc
  have hsolid : Solid (oneLine s) := by
    unfold oneLine at h ⊢
    refine solid_intercalate [' '] ?_ fun part hpart => ?_
    · intro hnil
      rw [hnil] at h
      exact h rfl
    · obtain ⟨hmem, hne⟩ := List.mem_filter.mp hpart
      obtain ⟨piece, -, rfl⟩ := List.mem_map.mp hmem
      refine solid_trim fun hnil => ?_
      rw [hnil] at hne
      cases hne
  refine ⟨hsolid, fun hc => ?_, fun hc => ?_⟩
  · exact absurd (hends _ hc) (by decide)
  · exact absurd (hends _ hc) (by decide)

/-- A text that the header shows is on one line already. -/
theorem oneLine_of_isShown {v : List Char} (h : IsShown v) : oneLine v = v := by
  obtain ⟨hsolid, hcr, hlf⟩ := h
  have hends : ∀ c ∈ v, isLineEnd c = false := by
    intro c hc
    unfold isLineEnd
    rw [Bool.or_eq_false_iff, beq_eq_false_iff_ne, beq_eq_false_iff_ne]
    exact ⟨fun he => hcr (he ▸ hc), fun he => hlf (he ▸ hc)⟩
  have hne : v.isEmpty = false := List.isEmpty_eq_false_iff.mpr hsolid.ne_nil
  rw [oneLine, pieces_eq_singleton hends, List.map_singleton, trim_of_solid hsolid]
  simp [hne, List.intercalate_singleton]

/-- A value is shown unless it is blank, with its characters other than blank ones. -/
theorem headerValue?_cases (s : String) :
    headerValue? s = none ∧ isAllBlank s.toList = true ∨
      ∃ v, headerValue? s = some v ∧ isAllBlank s.toList = false ∧ IsShown v.toList ∧
        ink v.toList = ink s.toList := by
  have hink := ink_oneLine s.toList
  unfold headerValue?
  split
  · rename_i hnil
    rw [hnil] at hink
    exact Or.inl ⟨rfl, ink_eq_nil_iff.mp hink.symm⟩
  · rename_i hne
    have hshown := isShown_oneLine hne
    refine Or.inr ⟨_, rfl, ?_, ?_, ?_⟩
    · rw [← Bool.not_eq_true, ← ink_eq_nil_iff, ← hink]
      intro hnil
      obtain ⟨c, r, hc⟩ := List.exists_cons_of_ne_nil hshown.ne_nil
      have hhead := hshown.head c (by rw [hc]; rfl)
      rw [hc] at hnil
      simp [ink, hhead] at hnil
    · rwa [String.toList_ofList]
    · rw [String.toList_ofList, hink]

theorem headerValue?_of_isShown {v : String} (h : IsShown v.toList) : headerValue? v = some v := by
  unfold headerValue?
  rw [oneLine_of_isShown h]
  split
  · rename_i hnil
    exact absurd hnil h.ne_nil
  · rw [String.ofList_toList]

/-! ## Fields of the header -/

/-- The fields in the order of the header. -/
def Field.inOrder : List Field := [.name, .scope, .author, .homepage]

/-- The value of a field as it is to be shown, if there is one to show. -/
def shownValue (m : Metadata) (f : Field) : Option String :=
  (m.value f).bind headerValue? <|> f.fallback

/-- The header goes through the fields in order and leaves out those without a value to show. -/
theorem headerFields_eq (m : Metadata) :
    m.headerFields =
      Field.inOrder.flatMap fun f => ((m.shownValue f).map (f.key, ·)).toList := by
  have hscope : m.shownValue .scope = some ((headerValue? m.scope).getD defaultScope) := by
    show (headerValue? m.scope <|> some defaultScope) = _
    cases headerValue? m.scope <;> rfl
  have hfield (f : Field) (hf : f.fallback = none) :
      headerField f.key (m.value f) = ((m.shownValue f).map (f.key, ·)).toList := by
    unfold headerField shownValue
    rw [hf]
    cases (m.value f).bind headerValue? <;> rfl
  show headerField (Field.key .name) (m.value .name) ++
    [(Field.key .scope, (headerValue? m.scope).getD defaultScope)] ++
    headerField (Field.key .author) (m.value .author) ++
    headerField (Field.key .homepage) (m.value .homepage) = _
  rw [hfield .name rfl, hfield .author rfl, hfield .homepage rfl]
  simp [Field.inOrder, hscope]

theorem Field.mem_inOrder (f : Field) : f ∈ inOrder := by
  cases f <;> decide

theorem mem_headerFields_iff {m : Metadata} {e : String × String} :
    e ∈ m.headerFields ↔ ∃ f : Field, e.1 = f.key ∧ m.shownValue f = some e.2 := by
  obtain ⟨key, shown⟩ := e
  simp only [headerFields_eq, List.mem_flatMap, Option.mem_toList, Option.map_eq_some_iff]
  constructor
  · rintro ⟨f, -, v, hv, he⟩
    cases he
    exact ⟨f, rfl, hv⟩
  · rintro ⟨f, rfl, hv⟩
    exact ⟨f, f.mem_inOrder, shown, hv, rfl⟩

theorem exists_mem_headerFields_iff {m : Metadata} {f : Field} :
    (∃ shown, (f.key, shown) ∈ m.headerFields) ↔ ∃ shown, m.shownValue f = some shown := by
  refine exists_congr fun shown => ?_
  rw [mem_headerFields_iff]
  constructor
  · rintro ⟨g, hkey, hg⟩
    rwa [Field.key_injective hkey]
  · intro hf
    exact ⟨f, rfl, hf⟩

/-- Each field is found under its key. -/
theorem lookup_headerFields (m : Metadata) (f : Field) :
    m.headerFields.lookup f.key = m.shownValue f := by
  have hlookup (fs : List Field) :
      (fs.flatMap fun g => ((m.shownValue g).map (g.key, ·)).toList).lookup f.key =
        if f ∈ fs then m.shownValue f else none := by
    induction fs with
    | nil => rfl
    | cons g fs ih =>
      rw [List.flatMap_cons, List.lookup_append, ih]
      by_cases hg : f = g
      · subst hg
        rw [if_pos List.mem_cons_self]
        cases hv : m.shownValue f with
        | none => simp
        | some v => simp
      · have hkey : (f.key == g.key) = false := by
          rw [beq_eq_false_iff_ne]
          exact fun hk => hg (Field.key_injective hk)
        simp only [List.mem_cons, hg, false_or]
        cases m.shownValue g with
        | none => rfl
        | some v => simp [List.lookup_cons, hkey]
  rw [headerFields_eq, hlookup, if_pos f.mem_inOrder]

theorem Field.scope_or (f : Field) : f = .scope ∨ f.fallback = none := by
  cases f with
  | scope => exact Or.inl rfl
  | name => exact Or.inr rfl
  | author => exact Or.inr rfl
  | homepage => exact Or.inr rfl

theorem isShown_defaultScope : IsShown defaultScope.toList := by
  refine ⟨⟨by decide, ?_, ?_⟩, by decide⟩
  · rintro c ⟨⟩
    rfl
  · rintro c ⟨⟩
    rfl

/-- A field is shown if it is set and not blank, with its characters other than blank ones; a blank
namespace is shown as the default one. -/
theorem shownValue_cases (m : Metadata) (f : Field) :
    (m.shownValue f = none ∧ f.fallback = none ∧
      ∀ v, m.value f = some v → isAllBlank v.toList = true) ∨
    ∃ v shown, m.value f = some v ∧ m.shownValue f = some shown ∧ IsShown shown.toList ∧
      (isAllBlank v.toList = false ∧ ink shown.toList = ink v.toList ∨
        f = .scope ∧ isAllBlank v.toList = true ∧ shown = defaultScope) := by
  unfold shownValue
  cases hv : m.value f with
  | none =>
    rcases f.scope_or with rfl | hf
    · cases hv
    · refine Or.inl ⟨?_, hf, fun v h => nomatch h⟩
      rw [hf]
      rfl
  | some v =>
    rw [Option.bind_some]
    rcases headerValue?_cases v with ⟨hnone, hblank⟩ | ⟨shown, hsome, hblank, hshown, hink⟩
    · rw [hnone]
      rcases f.scope_or with rfl | hf
      · exact Or.inr ⟨v, defaultScope, rfl, rfl, isShown_defaultScope, Or.inr ⟨rfl, hblank, rfl⟩⟩
      · refine Or.inl ⟨?_, hf, fun w hw => ?_⟩
        · rw [hf]
          rfl
        · rwa [← Option.some.inj hw]
    · rw [hsome]
      exact Or.inr ⟨v, shown, rfl, rfl, hshown, Or.inl ⟨hblank, hink⟩⟩

/-- The metadata with the value that the header shows for each field. A field that the header leaves
out is as in `rest`. -/
def withShown (m rest : Metadata) : Metadata where
  name := m.headerFields.lookup Field.name.key <|> rest.name
  scope := (m.headerFields.lookup Field.scope.key).getD rest.scope
  author := m.headerFields.lookup Field.author.key <|> rest.author
  homepage := m.headerFields.lookup Field.homepage.key <|> rest.homepage

theorem value_withShown (m rest : Metadata) (f : Field) :
    (m.withShown rest).value f = (m.shownValue f <|> rest.value f) := by
  rw [← lookup_headerFields]
  cases f with
  | scope =>
    show some ((m.headerFields.lookup Field.scope.key).getD rest.scope) = _
    cases m.headerFields.lookup Field.scope.key <;> rfl
  | name => rfl
  | author => rfl
  | homepage => rfl

/-- What is shown once is shown again. -/
theorem headerFields_withShown {m rest : Metadata}
    (h : ∀ f, m.shownValue f = none → rest.shownValue f = none) :
    (m.withShown rest).headerFields = m.headerFields := by
  have hshown (f : Field) : (m.withShown rest).shownValue f = m.shownValue f := by
    rw [shownValue, value_withShown]
    rcases m.shownValue_cases f with ⟨hnone, -⟩ | ⟨v, shown, -, hsome, hv, -⟩
    · rw [hnone]
      exact h f hnone
    · rw [hsome]
      show (headerValue? shown <|> f.fallback) = some shown
      rw [headerValue?_of_isShown hv]
      rfl
  rw [headerFields_eq, headerFields_eq]
  simp only [hshown]

/-- Every value of the header is a text without line ends that neither begins nor ends with a blank
character, and it has the characters of the field other than blank ones in their order, or it is the
default namespace in place of a blank one. All fields are there but those that are not set or blank,
and the namespace is always there. The header of the metadata with the values that the header shows
is the same again, whether the fields that it leaves out are kept as they are or are not set. -/
theorem headerFields_normal (m : Metadata) :
    (∀ e ∈ m.headerFields, IsShown e.2.toList ∧
      ∃ f v, e.1 = Field.key f ∧ m.value f = some v ∧
        if f = .scope ∧ isAllBlank v.toList = true then e.2 = defaultScope
        else ink e.2.toList = ink v.toList) ∧
    (∀ f : Field, (∃ shown, (f.key, shown) ∈ m.headerFields) ↔
      f = .scope ∨ ∃ v, m.value f = some v ∧ isAllBlank v.toList = false) ∧
    (m.withShown m).headerFields = m.headerFields ∧
    (m.withShown empty).headerFields = m.headerFields := by
  refine ⟨fun e he => ?_, fun f => ?_, ?_, ?_⟩
  · obtain ⟨f, hkey, hshown⟩ := mem_headerFields_iff.mp he
    rcases m.shownValue_cases f with ⟨hnone, -⟩ | ⟨v, shown, hv, hsome, hs, hcase⟩
    · cases hshown.symm.trans hnone
    · cases hshown.symm.trans hsome
      refine ⟨hs, f, v, hkey, hv, ?_⟩
      rcases hcase with ⟨hblank, hink⟩ | ⟨rfl, hblank, hdefault⟩
      · rw [if_neg fun h => by simp [hblank] at h]
        exact hink
      · rw [if_pos ⟨rfl, hblank⟩]
        exact hdefault
  · rw [exists_mem_headerFields_iff]
    rcases m.shownValue_cases f with ⟨hnone, hf, hblank⟩ | ⟨v, shown, hv, hsome, -, hcase⟩
    · rw [hnone]
      refine iff_of_false (fun ⟨_, h⟩ => nomatch h) ?_
      rintro (rfl | ⟨v, hv, hnot⟩)
      · cases hf
      · cases (hblank v hv).symm.trans hnot
    · refine iff_of_true ⟨shown, hsome⟩ ?_
      rcases hcase with ⟨hblank, -⟩ | ⟨hscope, -⟩
      · exact Or.inr ⟨v, hv, hblank⟩
      · exact Or.inl hscope
  · exact headerFields_withShown fun f hnone => hnone
  · refine headerFields_withShown fun f hnone => ?_
    rcases m.shownValue_cases f with ⟨-, hf, -⟩ | ⟨_, _, -, hsome, -⟩
    · rw [shownValue, value_empty, hf]
      rfl
    · cases hnone.symm.trans hsome

/-- The lines of a name are joined, and an author of blanks is left out. -/
theorem headerFields_normal_lines :
    ("name", "a b") ∈ headerFields ⟨some "\u3000a\r\n \n\x0bb ", "", some "\t", none⟩ ∧
      IsShown "a b".toList ∧
      ¬∃ shown, ("author", shown) ∈
        headerFields ⟨some "\u3000a\r\n \n\x0bb ", "", some "\t", none⟩ := by
  have hname : ("name", "a b") ∈
      headerFields ⟨some "\u3000a\r\n \n\x0bb ", "", some "\t", none⟩ := by
    decide +kernel
  obtain ⟨hvalues, hkeys, -⟩ :=
    headerFields_normal ⟨some "\u3000a\r\n \n\x0bb ", "", some "\t", none⟩
  refine ⟨hname, (hvalues _ hname).1, fun hauthor => ?_⟩
  rcases (hkeys .author).mp hauthor with hscope | ⟨v, hv, hblank⟩
  · cases hscope
  · cases hv
    exact absurd hblank (by decide)

end Userstyle.Metadata
