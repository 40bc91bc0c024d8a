import Userstyle.Proofs.Compilation
import Userstyle.Proofs.StringLiterals

/-!
# Reading the header of a script back

The header of a script is read back from the text of the script alone: the text is cut where
JavaScript ends a line, and the pieces between the two marks are taken apart into keys and values.
What is read is what was to be written if and only if no value holds the end of a line. The values
of the metadata cannot hold a line feed or a carriage return, but they may hold the two Unicode line
terminators; a match pattern may hold any of the four.
-/

namespace Userstyle.Script

open Text

/-! ## The header as it is read -/

/-- The keys and values that the header of a script is to show, in order. -/
def headerEntries (m : Metadata) (patterns : List String) : List (String × String) :=
  m.headerFields ++ [("run-at", "document-start"), ("grant", styleGrant)] ++
    patterns.map fun pattern => ("match", pattern)

/-- The lines of a script between the mark that opens its header and the next that closes it. -/
def betweenMarks? (text : List Char) : Option (List (List Char)) :=
  match pieces isLineTerminator text with
  | [] => none
  | first :: rest =>
    if first = headerOpen.toList ∧ rest.contains headerClose.toList then
      some (rest.takeWhile (· != headerClose.toList))
    else none

/-- The key and the value of a line of the header, if that is how the line is written. -/
def entryOn? (line : List Char) : Option (String × String) :=
  let key := String.ofList ((line.drop "// @".length).takeWhile (· != ' '))
  let value := String.ofList (line.drop ("// ".length + keyWidth))
  if line = (headerLine key value).toList then some (key, value) else none

/-- What each line of the header of a script says. -/
def readHeader? (text : String) : Option (List (Option (String × String))) :=
  (betweenMarks? text.toList).map fun lines => lines.map entryOn?

/-! ## Lines of the header -/

theorem toList_pushn (s : String) (c : Char) (n : Nat) :
    (s.pushn c n).toList = s.toList ++ List.replicate n c := by
  unfold String.pushn
  induction n with
  | zero => simp [Nat.repeat]
  | succ n ih => simp [Nat.repeat, ih, List.replicate_succ']

theorem toList_keyColumn (key : String) :
    (keyColumn key).toList =
      '@' :: key.toList ++ List.replicate (keyWidth - (key.length + 1)) ' ' := by
  unfold keyColumn
  rw [toList_pushn, String.toList_append]
  rfl

theorem toList_headerLine (key value : String) :
    (headerLine key value).toList =
      "// @".toList ++ key.toList ++ List.replicate (keyWidth - (key.length + 1)) ' ' ++
        value.toList := by
  unfold headerLine
  rw [String.toList_append, String.toList_append, toList_keyColumn]
  simp

/-- The key fits into its column with a space behind it. -/
def FitsColumn (key : String) : Prop := ' ' ∉ key.toList ∧ key.length + 1 < keyWidth

instance (key : String) : Decidable (FitsColumn key) := inferInstanceAs (Decidable (_ ∧ _))

/-- The key and the value of a line can be told apart. -/
theorem entryOn?_headerLine {key value : String} (h : FitsColumn key) :
    entryOn? (headerLine key value).toList = some (key, value) := by
  obtain ⟨hspace, hlen⟩ := h
  obtain ⟨n, hn⟩ : ∃ n, keyWidth - (key.length + 1) = n + 1 := ⟨_, (Nat.succ_pred (by omega)).symm⟩
  have hkey : (((headerLine key value).toList.drop "// @".length).takeWhile (· != ' ')) =
      key.toList := by
    have hne : ∀ c ∈ key.toList, (c != ' ') = true := by
      intro c hc
      rw [bne_iff_ne]
      rintro rfl
      exact hspace hc
    rw [toList_headerLine, hn, List.append_assoc, List.append_assoc]
    show (key.toList ++ (List.replicate (n + 1) ' ' ++ value.toList)).takeWhile _ = _
    rw [List.takeWhile_append_of_pos hne]
    simp [List.replicate_succ]
  have hvalue : (headerLine key value).toList.drop ("// ".length + keyWidth) = value.toList := by
    have hsign : "// ".length = 3 := rfl
    have hcolumn : "// @".length = 4 := rfl
    rw [toList_headerLine]
    apply List.drop_left'
    simp only [List.length_append, List.length_replicate, String.length_toList]
    omega
  unfold entryOn?
  rw [hkey, hvalue, String.ofList_toList, String.ofList_toList, if_pos rfl]

theorem eq_headerLine_of_entryOn? {line : List Char} {key value : String}
    (h : entryOn? line = some (key, value)) : line = (headerLine key value).toList := by
  unfold entryOn? at h
  dsimp only at h
  split at h
  · rename_i hline
    cases h
    exact hline
  · cases h

/-! ## Values without the end of a line -/

theorem onOneLine_headerLine {key value : String} (hk : OnOneLine key.toList)
    (hv : OnOneLine value.toList) : OnOneLine (headerLine key value).toList := by
  have hsign : OnOneLine "// @".toList := by decide
  have hpad : OnOneLine (List.replicate (keyWidth - (key.length + 1)) ' ') := by
    intro c hc
    rw [List.eq_of_mem_replicate hc]
    rfl
  rw [toList_headerLine]
  exact onOneLine_append.mpr
    ⟨onOneLine_append.mpr ⟨onOneLine_append.mpr ⟨hsign, hk⟩, hpad⟩, hv⟩

theorem mem_trim {s : List Char} {c : Char} (h : c ∈ trim s) : c ∈ s := by
  have hstart : c ∈ trimStart s := (trimEnd_isPrefix (trimStart s)).subset h
  exact (trimStart_isSuffix s).subset hstart

theorem mem_intersperse {α : Type} {sep x : α} {l : List α} (h : x ∈ l.intersperse sep) :
    x = sep ∨ x ∈ l := by
  induction l with
  | nil => exact Or.inr h
  | cons a l ih =>
    cases l with
    | nil => exact Or.inr h
    | cons b l =>
      rw [List.intersperse_cons_cons, List.mem_cons, List.mem_cons] at h
      rcases h with rfl | rfl | h
      · exact Or.inr List.mem_cons_self
      · exact Or.inl rfl
      · exact (ih h).imp_right (List.mem_cons_of_mem a)

theorem mem_oneLine {s : List Char} {c : Char} (h : c ∈ Metadata.oneLine s) :
    Metadata.isLineEnd c = false := by
  unfold Metadata.oneLine List.intercalate at h
  obtain ⟨part, hpart, hc⟩ := List.mem_flatten.mp h
  rcases mem_intersperse hpart with rfl | hmem
  · rw [List.mem_singleton.mp hc]
    rfl
  · obtain ⟨piece, hpiece, rfl⟩ := List.mem_map.mp (List.mem_filter.mp hmem).1
    exact not_separator_of_mem_pieces hpiece c (mem_trim hc)

/-- A value of the metadata is a text brought on one line, or the default namespace. -/
theorem mem_headerFields {m : Metadata} {e : String × String} (h : e ∈ m.headerFields) :
    FitsColumn e.1 ∧ OnOneLine e.1.toList ∧
      (e.2 = defaultScope ∨ ∃ s, e.2.toList = Metadata.oneLine s) := by
  have hvalue {s shown : String} (hs : Metadata.headerValue? s = some shown) :
      ∃ t, shown.toList = Metadata.oneLine t := by
    unfold Metadata.headerValue? at hs
    split at hs
    · cases hs
    · cases hs
      exact ⟨s.toList, String.toList_ofList⟩
  have hfield {key : String} {value : Option String} (he : e ∈ Metadata.headerField key value) :
      e.1 = key ∧ ∃ s, e.2.toList = Metadata.oneLine s := by
    unfold Metadata.headerField at he
    split at he
    · rename_i shown hshown
      obtain ⟨s, -, hs⟩ := Option.bind_eq_some_iff.mp hshown
      rw [List.mem_singleton.mp he]
      exact ⟨rfl, hvalue hs⟩
    · cases he
  have hscope : FitsColumn "namespace" ∧ OnOneLine "namespace".toList := by decide
  unfold Metadata.headerFields at h
  simp only [List.mem_append, List.mem_singleton] at h
  rcases h with ((h | rfl) | h) | h
  · obtain ⟨hk, hv⟩ := hfield h
    rw [hk]
    exact ⟨by decide, by decide, Or.inr hv⟩
  · refine ⟨hscope.1, hscope.2, ?_⟩
    cases hs : Metadata.headerValue? m.scope with
    | none => exact Or.inl rfl
    | some shown => exact Or.inr (hvalue hs)
  · obtain ⟨hk, hv⟩ := hfield h
    rw [hk]
    exact ⟨by decide, by decide, Or.inr hv⟩
  · obtain ⟨hk, hv⟩ := hfield h
    rw [hk]
    exact ⟨by decide, by decide, Or.inr hv⟩

/-- The value of a field stays on one line unless it holds one of the two Unicode terminators. -/
theorem onOneLine_value_iff {m : Metadata} {e : String × String} (h : e ∈ m.headerFields) :
    OnOneLine e.2.toList ↔ '\u2028' ∉ e.2.toList ∧ '\u2029' ∉ e.2.toList := by
  have hend : ∀ c ∈ e.2.toList, Metadata.isLineEnd c = false := by
    rcases (mem_headerFields h).2.2 with hs | ⟨s, hs⟩
    · rw [hs]
      simp [defaultScope, Metadata.isLineEnd]
    · rw [hs]
      exact fun c hc => mem_oneLine hc
  constructor
  · intro hone
    exact ⟨fun hc => absurd (hone _ hc) (by decide), fun hc => absurd (hone _ hc) (by decide)⟩
  · rintro ⟨h2028, h2029⟩ c hc
    have hc' := hend c hc
    unfold Metadata.isLineEnd at hc'
    have hne : c ≠ '\u2028' ∧ c ≠ '\u2029' :=
      ⟨fun he => h2028 (he ▸ hc), fun he => h2029 (he ▸ hc)⟩
    unfold isLineTerminator
    simp_all

/-! ## The header of a script -/

/-- The text of a script, line by line. -/
theorem toList_join_lines (ls : List String) :
    (String.join (ls.map (· ++ "\n"))).toList = ls.flatMap fun l => l.toList ++ ['\n'] := by
  rw [String.toList_join, List.flatMap_map]
  simp [String.toList_append]

/-- Cut where JavaScript ends a line, a text that begins with some lines begins with these. -/
theorem pieces_lines {ls : List String} (ms : List Char) (h : ∀ l ∈ ls, OnOneLine l.toList) :
    pieces isLineTerminator ((ls.flatMap fun l => l.toList ++ ['\n']) ++ ms) =
      ls.map String.toList ++ pieces isLineTerminator ms := by
  induction ls with
  | nil => rfl
  | cons l ls ih =>
    rw [List.forall_mem_cons] at h
    have hcut := pieces_append ((ls.flatMap fun l => l.toList ++ ['\n']) ++ ms) h.1
      (c := '\n') (by decide)
    rw [List.flatMap_cons, List.append_assoc, List.append_assoc, List.singleton_append, hcut,
      ih h.2]
    rfl

/-- The line of an entry. -/
def entryLine (e : String × String) : String := headerLine e.1 e.2

theorem headerLines_eq (m : Metadata) (patterns : List String) :
    headerLines m patterns =
      headerOpen :: (headerEntries m patterns).map entryLine ++ [headerClose] := by
  unfold headerLines headerEntries metadataLines
  simp [entryLine, Function.comp_def]

/-- A line of an entry is not the mark that closes the header. -/
theorem toList_entryLine_ne (e : String × String) : (entryLine e).toList ≠ headerClose.toList := by
  intro h
  unfold entryLine at h
  rw [toList_headerLine] at h
  simp [headerClose] at h

theorem mem_headerEntries {m : Metadata} {patterns : List String} {e : String × String}
    (h : e ∈ headerEntries m patterns) : FitsColumn e.1 ∧ OnOneLine e.1.toList := by
  have hmatch : FitsColumn "match" ∧ OnOneLine "match".toList := by decide
  unfold headerEntries at h
  simp only [List.mem_append, List.mem_cons, List.not_mem_nil, or_false, List.mem_map] at h
  rcases h with (h | rfl | rfl) | ⟨pattern, -, rfl⟩
  · exact ⟨(mem_headerFields h).1, (mem_headerFields h).2.1⟩
  · decide
  · decide
  · exact hmatch

/-- If every value stays on its line, the header is read as it was to be written. -/
theorem readHeader?_assemble {p : Program} {m : Metadata}
    (h : ∀ e ∈ headerEntries m p.targeting.patterns.patterns, OnOneLine e.2.toList) :
    readHeader? (p.assemble m).text =
      some ((headerEntries m p.targeting.patterns.patterns).map some) := by
  generalize hentries : headerEntries m p.targeting.patterns.patterns = entries at h
  have hkeys : ∀ e ∈ entries, FitsColumn e.1 ∧ OnOneLine e.1.toList :=
    fun e he => mem_headerEntries (hentries ▸ he)
  have hlines : ∀ l ∈ headerOpen :: entries.map entryLine ++ [headerClose],
      OnOneLine l.toList := by
    intro l hl
    simp only [List.mem_append, List.mem_cons, List.not_mem_nil, or_false, List.mem_map] at hl
    rcases hl with (rfl | ⟨e, he, rfl⟩) | rfl
    · decide
    · exact onOneLine_headerLine (hkeys e he).2 (h e he)
    · decide
  have htext : (p.assemble m).text.toList =
      ((headerOpen :: entries.map entryLine ++ [headerClose]).flatMap fun l => l.toList ++ ['\n']) ++
        (preamble ++ p.statements ++ closing).flatMap fun l => l.toList ++ ['\n'] := by
    unfold Program.assemble
    simp only [toList_join_lines, headerLines_eq, hentries, List.append_assoc, List.flatMap_append]
  have hbefore : ∀ l ∈ (entries.map entryLine).map String.toList,
      (l != headerClose.toList) = true := by
    intro l hl
    simp only [List.map_map, List.mem_map] at hl
    obtain ⟨e, -, rfl⟩ := hl
    exact bne_iff_ne.mpr (toList_entryLine_ne e)
  unfold readHeader? betweenMarks?
  rw [htext, pieces_lines _ hlines]
  simp only [List.map_cons, List.map_append, List.cons_append, List.append_assoc, List.map_nil,
    List.nil_append]
  rw [if_pos (by simp), List.takeWhile_append_of_pos hbefore,
    List.takeWhile_cons_of_neg (by simp), List.append_nil, Option.map_some, List.map_map,
    List.map_map]
  have hentry : ∀ e ∈ entries, entryOn? (entryLine e).toList = some e :=
    fun e he => entryOn?_headerLine (hkeys e he).1
  exact congrArg some (List.map_congr_left hentry)

/-- What is read from a header stays on its line. -/
theorem onOneLine_of_readHeader? {text : String} {entries : List (String × String)}
    (h : readHeader? text = some (entries.map some)) :
    ∀ e ∈ entries, OnOneLine e.2.toList := by
  intro e he
  obtain ⟨ls, hls, hread⟩ := Option.map_eq_some_iff.mp h
  have hmem : some e ∈ ls.map entryOn? := by
    rw [hread]
    exact List.mem_map_of_mem he
  obtain ⟨line, hline, hentry⟩ := List.mem_map.mp hmem
  have hpiece : line ∈ pieces isLineTerminator text.toList := by
    unfold betweenMarks? at hls
    split at hls
    · cases hls
    · rename_i first rest hp
      split at hls
      · cases hls
        rw [hp]
        exact List.mem_cons_of_mem first ((List.takeWhile_prefix _).subset hline)
      · cases hls
  intro c hc
  refine not_separator_of_mem_pieces hpiece c ?_
  rw [eq_headerLine_of_entryOn? hentry, toList_headerLine]
  exact List.mem_append_right _ hc

/-- The header of a script is read as it was to be written, one line for each field of the metadata,
for the two fixed entries and for each match pattern, if and only if no value of the metadata holds
a Unicode line terminator and no match pattern holds the end of a line. -/
theorem readHeader?_convert_iff {css : String} {m : Metadata} {script : Userscript}
    (h : (convert css m).result = .ok script) :
    readHeader? script.text = some ((headerEntries m script.patterns.patterns).map some) ↔
      (∀ e ∈ m.headerFields, '\u2028' ∉ e.2.toList ∧ '\u2029' ∉ e.2.toList) ∧
        ∀ p ∈ script.patterns.patterns, OnOneLine p.toList := by
  obtain ⟨program, rfl⟩ : ∃ program : Program, script = program.assemble m := by
    rw [convert_result_eq] at h
    cases hc : (compile css).result with
    | error e =>
      rw [hc] at h
      cases h
    | ok program =>
      rw [hc] at h
      cases h
      exact ⟨program, rfl⟩
  have hfixed : ∀ e ∈ [("run-at", "document-start"), ("grant", styleGrant)],
      OnOneLine e.2.toList := by decide
  constructor
  · intro hread
    have hone := onOneLine_of_readHeader? hread
    constructor
    · intro e he
      exact (onOneLine_value_iff he).mp
        (hone e (List.mem_append_left _ (List.mem_append_left _ he)))
    · intro p hp
      exact hone ("match", p) (List.mem_append_right _ (List.mem_map_of_mem hp))
  · rintro ⟨hfields, hpatterns⟩
    apply readHeader?_assemble
    intro e he
    unfold headerEntries at he
    rw [List.mem_append, List.mem_append, List.mem_map] at he
    rcases he with (he | he) | ⟨p, hp, rfl⟩
    · exact (onOneLine_value_iff he).mpr (hfields e he)
    · exact hfixed e he
    · exact hpatterns p hp

/-- The lines of a name are joined, and a domain has its two lines. -/
theorem readHeader?_convert_joined :
    ∃ script, (convert "@-moz-document domain(\"a.com\") \x7b\x7d"
        { name := some "Dark\r\nMode" }).result = .ok script ∧
      readHeader? script.text = some [some ("name", "Dark Mode"), some ("namespace", "userstyle"),
        some ("run-at", "document-start"), some ("grant", "GM_addStyle"),
        some ("match", "*://a.com/*"), some ("match", "*://*.a.com/*")] := by
  have hpatterns : (convert "@-moz-document domain(\"a.com\") \x7b\x7d"
      { name := some "Dark\r\nMode" }).result.toOption.map (·.patterns.patterns) =
        some ["*://a.com/*", "*://*.a.com/*"] := by
    decide +kernel
  cases h : (convert "@-moz-document domain(\"a.com\") \x7b\x7d"
      { name := some "Dark\r\nMode" }).result with
  | error e =>
    rw [h] at hpatterns
    cases hpatterns
  | ok script =>
    rw [h] at hpatterns
    have hp : script.patterns.patterns = ["*://a.com/*", "*://*.a.com/*"] :=
      Option.some.inj hpatterns
    have hread := (readHeader?_convert_iff h).mpr (by rw [hp]; decide +kernel)
    rw [hp] at hread
    exact ⟨script, rfl, hread⟩

/-- A line separator in a name and a line feed in a domain each break the header. -/
theorem readHeader?_convert_broken :
    (∃ script, (convert "" { name := some "a\u2028b" }).result = .ok script ∧
      readHeader? script.text ≠ some ((headerEntries { name := some "a\u2028b" }
        script.patterns.patterns).map some)) ∧
    ∃ script, (convert "@-moz-document domain(a\nb) \x7b\x7d" .empty).result = .ok script ∧
      readHeader? script.text ≠
        some ((headerEntries .empty script.patterns.patterns).map some) := by
  constructor
  · have hvalue : ("name", "a\u2028b") ∈ Metadata.headerFields { name := some "a\u2028b" } := by
      decide +kernel
    cases h : (convert "" { name := some "a\u2028b" }).result with
    | error e =>
      have hok : (convert "" { name := some "a\u2028b" }).result.toOption.isSome = true := by
        decide +kernel
      rw [h] at hok
      cases hok
    | ok script =>
      refine ⟨script, rfl, fun hread => ?_⟩
      have hone := onOneLine_of_readHeader? hread ("name", "a\u2028b")
        (List.mem_append_left _ (List.mem_append_left _ hvalue))
      exact absurd (hone '\u2028' (by decide)) (by decide)
  · have hpatterns : (convert "@-moz-document domain(a\nb) \x7b\x7d" .empty).result.toOption.map
        (·.patterns.patterns) = some ["*://a\nb/*", "*://*.a\nb/*"] := by
      decide +kernel
    cases h : (convert "@-moz-document domain(a\nb) \x7b\x7d" .empty).result with
    | error e =>
      rw [h] at hpatterns
      cases hpatterns
    | ok script =>
      rw [h] at hpatterns
      have hp : script.patterns.patterns = ["*://a\nb/*", "*://*.a\nb/*"] :=
        Option.some.inj hpatterns
      refine ⟨script, rfl, fun hread => ?_⟩
      rw [hp] at hread
      have hone := onOneLine_of_readHeader? hread ("match", "*://a\nb/*")
        (List.mem_append_right _ List.mem_cons_self)
      exact absurd (hone '\n' (by decide)) (by decide)

end Userstyle.Script
