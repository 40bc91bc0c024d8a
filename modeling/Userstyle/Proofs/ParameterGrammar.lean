import Mathlib.Data.List.TakeWhile
import Userstyle.Condition.Reader

/-!
# The grammar of parameter lists

What a parameter list may look like, said without a reader that goes through it. A `Reading` is one
way to take a text apart: calls with commas between them, and blank characters at every joint. All
blank characters in front of an argument belong to the joint there, so an argument without quotes
begins neither with one of them nor with a quote.

A text can be taken apart in at most one way (`Reading.eq_of_text_eq`). The reader accepts the texts
that can be taken apart, and gives the conditions of their calls (`ofParams_eq_ok_iff`).
-/

namespace Userstyle.Condition

open Text

/-! ## Readings -/

/-- What stands between quotes stands for a value: of every pair of a backslash and a character the
backslash is dropped. A last backslash with nothing behind it is kept. -/
inductive Unescapes : List Char → List Char → Prop where
  | nil : Unescapes [] []
  | pair {body value : List Char} (c : Char) (h : Unescapes body value) :
      Unescapes ('\\' :: c :: body) (c :: value)
  | char {body value : List Char} {c : Char} (hc : c ≠ '\\') (h : Unescapes body value) :
      Unescapes (c :: body) (c :: value)
  | lone : Unescapes ['\\'] ['\\']

/-- Blank characters, or nothing. -/
abbrev Blanks := { s : List Char // ∀ c ∈ s, isBlank c = true }

/-- The two characters that may stand around an argument. -/
def IsQuote (c : Char) : Prop := c = '\"' ∨ c = '\''

/-- An argument with the parenthesis that closes the call. -/
inductive Argument where
  /-- An argument in quotes. Blank characters may stand behind the second one. -/
  | quoted (quote : Char) (body value : List Char) (gap : Blanks) (hquote : IsQuote quote)
      (hbody : quote ∉ body) (hvalue : Unescapes body value)
  /-- An argument without quotes. -/
  | bare (body : List Char) (hbody : ')' ∉ body)
      (hhead : ∀ c, body.head? = some c → isBlank c = false ∧ ¬IsQuote c)

namespace Argument

/-- The characters of an argument, the parenthesis included. -/
def text : Argument → List Char
  | .quoted quote body _ gap .. => quote :: (body ++ quote :: (gap.val ++ [')']))
  | .bare body .. => body ++ [')']

/-- What an argument stands for. -/
def value : Argument → List Char
  | .quoted _ _ value .. => value
  | .bare body .. => trim body

/-- The argument has quotes. -/
def IsQuoted : Argument → Prop
  | .quoted .. => True
  | .bare .. => False

end Argument

/-- A call, taken apart. -/
structure Call where
  /-- The matching function that is called. -/
  matcher : Matcher
  /-- Its name, in any mix of upper and lower case. -/
  name : List Char
  /-- What stands in front of the opening parenthesis. -/
  gap : Blanks
  /-- What stands behind it. -/
  lead : Blanks
  /-- The argument. -/
  argument : Argument
  name_chars : ∀ c ∈ name, isNameChar c = true
  name_eq : name.map Char.toLower = matcher.name.toList
  quoted_of_regexp : matcher = .regexp → argument.IsQuoted

namespace Call

/-- The characters of a call. -/
def text (c : Call) : List Char :=
  c.name ++ (c.gap.val ++ '(' :: (c.lead.val ++ c.argument.text))

/-- The condition that a call stands for. -/
def condition (c : Call) : Condition := ⟨c.matcher, String.ofList c.argument.value⟩

end Call

/-- A call with the comma in front of it. -/
structure NextCall where
  /-- What stands in front of the comma. -/
  gap : Blanks
  /-- What stands behind it. -/
  lead : Blanks
  /-- The call. -/
  call : Call

/-- The characters of a call with the comma in front of it. -/
def NextCall.text (n : NextCall) : List Char := n.gap.val ++ ',' :: (n.lead.val ++ n.call.text)

/-- A parameter list, taken apart. It has at least one call. -/
structure Reading where
  /-- What stands in front of the first call. -/
  lead : Blanks
  /-- The first call. -/
  first : Call
  /-- The other calls. -/
  more : List NextCall
  /-- What stands behind the last call. -/
  gap : Blanks

namespace Reading

/-- The characters behind the first call. -/
def behind (more : List NextCall) (gap : Blanks) : List Char :=
  more.flatMap NextCall.text ++ gap.val

/-- The characters of a parameter list. -/
def text (r : Reading) : List Char := r.lead.val ++ (r.first.text ++ behind r.more r.gap)

/-- The conditions that a parameter list stands for. -/
def conditions (r : Reading) : List Condition :=
  r.first.condition :: r.more.map fun n => n.call.condition

end Reading

/-! ## Cutting a text -/

section Cutting

variable {p : Char → Bool} {s s' t t' : List Char}

/-- No character of the kind stands at the beginning of the text. -/
def Stops (p : Char → Bool) (t : List Char) : Prop := ∀ c, t.head? = some c → p c = false

theorem Stops.dropWhile (ht : Stops p t) : t.dropWhile p = t := by
  cases t with
  | nil => rfl
  | cons c t => exact List.dropWhile_cons_of_neg (by simp [ht c rfl])

theorem Stops.takeWhile (ht : Stops p t) : t.takeWhile p = [] := by
  cases t with
  | nil => rfl
  | cons c t => exact List.takeWhile_cons_of_neg (by simp [ht c rfl])

theorem takeWhile_append_stops (hs : ∀ c ∈ s, p c = true) (ht : Stops p t) :
    (s ++ t).takeWhile p = s := by
  rw [List.takeWhile_append_of_pos hs, ht.takeWhile, List.append_nil]

theorem dropWhile_append_stops (hs : ∀ c ∈ s, p c = true) (ht : Stops p t) :
    (s ++ t).dropWhile p = t := by
  rw [List.dropWhile_append_of_pos hs, ht.dropWhile]

theorem stops_dropWhile (s : List Char) : Stops p (s.dropWhile p) := by
  intro c hc
  have hhead := List.head?_dropWhile_not p s
  rw [hc] at hhead
  simpa using hhead

/-- Where characters of the kind end, a text can be cut in one way only. -/
theorem eq_of_append_stops (hs : ∀ c ∈ s, p c = true) (hs' : ∀ c ∈ s', p c = true)
    (ht : Stops p t) (ht' : Stops p t') (h : s ++ t = s' ++ t') : s = s' ∧ t = t' := by
  constructor
  · have htake := congrArg (List.takeWhile p) h
    rwa [takeWhile_append_stops hs ht, takeWhile_append_stops hs' ht'] at htake
  · have hdrop := congrArg (List.dropWhile p) h
    rwa [dropWhile_append_stops hs ht, dropWhile_append_stops hs' ht'] at hdrop

theorem stops_cons {c : Char} (hc : p c = false) (r : List Char) : Stops p (c :: r) := by
  intro d hd
  cases hd
  exact hc

theorem forall_bne_of_not_mem {q : Char} (h : q ∉ s) : ∀ c ∈ s, (c != q) = true := by
  intro c hc
  rw [bne_iff_ne]
  rintro rfl
  exact h hc

theorem not_mem_takeWhile_bne (q : Char) (s : List Char) : q ∉ s.takeWhile (· != q) := by
  intro h
  have hq := List.mem_takeWhile_imp (p := (· != q)) h
  simp at hq

/-- The text up to the first occurrence of a character, which must have one. -/
theorem eq_of_dropWhile_bne {q c : Char} {after : List Char}
    (h : s.dropWhile (· != q) = c :: after) : s = s.takeWhile (· != q) ++ q :: after := by
  have hhead := stops_dropWhile (p := (· != q)) s c (by rw [h]; rfl)
  obtain rfl : c = q := by simpa using hhead
  rw [← h]
  exact (List.takeWhile_append_dropWhile).symm

theorem trimStart_eq (s : List Char) :
    ∃ gap : Blanks, s = gap.val ++ trimStart s ∧ Stops isBlank (trimStart s) :=
  ⟨⟨s.takeWhile isBlank, fun _ hc => List.mem_takeWhile_imp hc⟩,
    List.takeWhile_append_dropWhile.symm, stops_dropWhile s⟩

theorem trimStart_blanks (gap : Blanks) (ht : Stops isBlank t) : trimStart (gap.val ++ t) = t :=
  dropWhile_append_stops gap.property ht

theorem Blanks.eq_of_append {gap gap' : Blanks} (ht : Stops isBlank t) (ht' : Stops isBlank t')
    (h : gap.val ++ t = gap'.val ++ t') : gap = gap' ∧ t = t' := by
  obtain ⟨hgap, hrest⟩ := eq_of_append_stops gap.property gap'.property ht ht' h
  exact ⟨Subtype.ext hgap, hrest⟩

end Cutting

/-! ## Arguments -/

theorem unescapes_iff {body value : List Char} : Unescapes body value ↔ unescape body = value := by
  constructor
  · intro h
    induction h with
    | nil => rfl
    | pair c h ih => rw [unescape, ih]
    | @char body value c hc h ih =>
      rw [unescape]
      · rw [ih]
      · intro d r hd
        exact absurd hd hc
    | lone => rfl
  · intro h
    fun_induction unescape body generalizing value with
    | case1 =>
      subst h
      exact .nil
    | case2 c r ih =>
      subst h
      exact .pair c (ih rfl)
    | case3 c r hne ih =>
      subst h
      by_cases hc : c = '\\'
      · cases r with
        | nil =>
          subst hc
          exact .lone
        | cons d r => exact absurd rfl (hne d r hc)
      · exact .char hc (ih rfl)

section Arguments

variable {m : Matcher} {s r v : List Char}

theorem IsQuote.not_isBlank {c : Char} (h : IsQuote c) : isBlank c = false := by
  rcases h with rfl | rfl <;> decide

theorem Argument.stops_text (a : Argument) (r : List Char) : Stops isBlank (a.text ++ r) := by
  cases a with
  | quoted quote body value gap hquote => exact stops_cons hquote.not_isBlank _
  | bare body hbody hhead =>
    cases body with
    | nil => exact stops_cons (by decide) r
    | cons c body => exact stops_cons (hhead c rfl).1 _

theorem Argument.text_quoted_append {quote : Char} {body value : List Char} {gap : Blanks}
    {hquote : IsQuote quote} {hbody : quote ∉ body} {hvalue : Unescapes body value}
    (r : List Char) :
    (Argument.quoted quote body value gap hquote hbody hvalue).text ++ r =
      quote :: (body ++ quote :: (gap.val ++ ')' :: r)) := by
  simp [Argument.text]

theorem Argument.text_bare_append {body : List Char} {hbody : ')' ∉ body}
    {hhead : ∀ c, body.head? = some c → isBlank c = false ∧ ¬IsQuote c} (r : List Char) :
    (Argument.bare body hbody hhead).text ++ r = body ++ ')' :: r := by
  simp [Argument.text]

theorem not_isQuote_bare {body : List Char}
    (hhead : ∀ c, body.head? = some c → isBlank c = false ∧ ¬IsQuote c) (r : List Char) :
    ∀ c, (body ++ ')' :: r).head? = some c → ¬IsQuote c := by
  intro c hc
  cases body with
  | nil =>
    cases hc
    rintro (h | h) <;> cases h
  | cons d body => exact (hhead c hc).2

theorem readQuoted_text {quote : Char} {body value : List Char} (gap : Blanks)
    (hbody : quote ∉ body) (hvalue : Unescapes body value) (r : List Char) :
    readQuoted quote (body ++ quote :: (gap.val ++ ')' :: r)) = .ok (value, r) := by
  have hchars := forall_bne_of_not_mem hbody
  have hstops : Stops (· != quote) (quote :: (gap.val ++ ')' :: r)) := stops_cons (by simp) _
  have htrim : trimStart (gap.val ++ ')' :: r) = ')' :: r :=
    trimStart_blanks gap (stops_cons (by decide) r)
  unfold readQuoted
  rw [dropWhile_append_stops hchars hstops, takeWhile_append_stops hchars hstops]
  simp only [htrim, unescapes_iff.mp hvalue]

theorem readBare_text {body : List Char} (hm : m ≠ .regexp) (hbody : ')' ∉ body)
    (r : List Char) : readBare m (body ++ ')' :: r) = .ok (trim body, r) := by
  have hchars := forall_bne_of_not_mem hbody
  have hstops : Stops (· != ')') (')' :: r) := stops_cons (by decide) _
  unfold readBare
  rw [if_neg hm, dropWhile_append_stops hchars hstops, takeWhile_append_stops hchars hstops]

theorem readArgument_quote {quote : Char} (hquote : IsQuote quote) (r : List Char) :
    readArgument m (quote :: r) = readQuoted quote r := by
  rcases hquote with rfl | rfl <;> rfl

theorem readArgument_bare (hs : ∀ c, s.head? = some c → ¬IsQuote c) :
    readArgument m s = readBare m s := by
  unfold readArgument
  split
  · exact absurd (Or.inl rfl) (hs _ rfl)
  · exact absurd (Or.inr rfl) (hs _ rfl)
  · rfl

/-- An argument is read as what it stands for. -/
theorem Argument.read (a : Argument) (hm : m = .regexp → a.IsQuoted) (r : List Char) :
    readArgument m (a.text ++ r) = .ok (a.value, r) := by
  cases a with
  | quoted quote body value gap hquote hbody hvalue =>
    rw [Argument.text_quoted_append, readArgument_quote hquote]
    exact readQuoted_text gap hbody hvalue r
  | bare body hbody hhead =>
    rw [Argument.text_bare_append, readArgument_bare (not_isQuote_bare hhead r)]
    exact readBare_text hm hbody r

theorem readQuoted_eq_ok {quote : Char} (hquote : IsQuote quote)
    (h : readQuoted quote s = .ok (v, r)) :
    ∃ a : Argument, a.value = v ∧ quote :: s = a.text ++ r ∧ a.IsQuoted := by
  unfold readQuoted at h
  split at h
  · cases h
  · rename_i c after hdrop
    have hbody := eq_of_dropWhile_bne hdrop
    obtain ⟨gap, hafter, -⟩ := trimStart_eq after
    split at h
    · rename_i rest htrim
      rw [htrim] at hafter
      cases h
      refine ⟨.quoted quote _ _ gap hquote (not_mem_takeWhile_bne quote s)
        (unescapes_iff.mpr rfl), rfl, ?_, trivial⟩
      rw [hafter] at hbody
      simpa [Argument.text] using hbody
    · cases h

theorem readBare_eq_ok (hblank : Stops isBlank s) (hquote : ∀ c, s.head? = some c → ¬IsQuote c)
    (h : readBare m s = .ok (v, r)) :
    ∃ a : Argument, a.value = v ∧ s = a.text ++ r ∧ m ≠ .regexp := by
  unfold readBare at h
  split at h
  · cases h
  · rename_i hm
    split at h
    · cases h
    · rename_i c rest hdrop
      have hbody := eq_of_dropWhile_bne hdrop
      cases h
      have hhead : ∀ d, (s.takeWhile (· != ')')).head? = some d →
          isBlank d = false ∧ ¬IsQuote d := by
        intro d hd
        have hs : s.head? = some d := by
          rw [hbody, List.head?_append, hd]
          rfl
        exact ⟨hblank d hs, hquote d hs⟩
      refine ⟨.bare _ (not_mem_takeWhile_bne ')' s) hhead, rfl, ?_, hm⟩
      simpa [Argument.text] using hbody

/-- What is read as an argument is one. -/
theorem readArgument_eq_ok (hs : Stops isBlank s) (h : readArgument m s = .ok (v, r)) :
    ∃ a : Argument, a.value = v ∧ s = a.text ++ r ∧ (m = .regexp → a.IsQuoted) := by
  unfold readArgument at h
  split at h
  · obtain ⟨a, hv, hs, hquoted⟩ := readQuoted_eq_ok (Or.inl rfl) h
    exact ⟨a, hv, hs, fun _ => hquoted⟩
  · obtain ⟨a, hv, hs, hquoted⟩ := readQuoted_eq_ok (Or.inr rfl) h
    exact ⟨a, hv, hs, fun _ => hquoted⟩
  · rename_i hdouble hsingle
    have hquote : ∀ c, s.head? = some c → ¬IsQuote c := by
      intro c hc
      obtain ⟨t, rfl⟩ := List.head?_eq_some_iff.mp hc
      rintro (rfl | rfl)
      · exact hdouble t rfl
      · exact hsingle t rfl
    obtain ⟨a, hv, hs, hm⟩ := readBare_eq_ok hs hquote h
    exact ⟨a, hv, hs, fun hregexp => absurd hregexp hm⟩

/-- What stands behind an argument tells where the argument ends, so it can be taken apart in one
way only. -/
theorem Argument.eq_of_text_append {a a' : Argument} {r' : List Char}
    (h : a.text ++ r = a'.text ++ r') : a = a' ∧ r = r' := by
  cases a with
  | quoted quote body value gap hquote hbody hvalue =>
    rw [text_quoted_append] at h
    cases a' with
    | quoted quote' body' value' gap' hquote' hbody' hvalue' =>
      rw [text_quoted_append, List.cons.injEq] at h
      obtain ⟨rfl, h⟩ := h
      have hstops (t : List Char) : Stops (· != quote) (quote :: t) := stops_cons (by simp) t
      obtain ⟨rfl, hbehind⟩ := eq_of_append_stops (forall_bne_of_not_mem hbody)
        (forall_bne_of_not_mem hbody') (hstops _) (hstops _) h
      obtain ⟨rfl, hclose⟩ := Blanks.eq_of_append (stops_cons (by decide) r)
        (stops_cons (by decide) r') (List.cons.inj hbehind).2
      obtain rfl : value = value' :=
        (unescapes_iff.mp hvalue).symm.trans (unescapes_iff.mp hvalue')
      exact ⟨rfl, (List.cons.inj hclose).2⟩
    | bare body' hbody' hhead' =>
      rw [text_bare_append] at h
      exact absurd hquote (not_isQuote_bare hhead' r' quote (by rw [← h]; rfl))
  | bare body hbody hhead =>
    rw [text_bare_append] at h
    cases a' with
    | quoted quote' body' value' gap' hquote' hbody' hvalue' =>
      rw [text_quoted_append] at h
      exact absurd hquote' (not_isQuote_bare hhead r quote' (by rw [h]; rfl))
    | bare body' hbody' hhead' =>
      rw [text_bare_append] at h
      have hstops (t : List Char) : Stops (· != ')') (')' :: t) := stops_cons (by decide) t
      obtain ⟨rfl, hclose⟩ := eq_of_append_stops (forall_bne_of_not_mem hbody)
        (forall_bne_of_not_mem hbody') (hstops r) (hstops r') h
      exact ⟨rfl, (List.cons.inj hclose).2⟩

end Arguments

/-! ## Calls -/

section Calls

variable {s r r' : List Char} {c : Condition}

theorem not_isNameChar_of_isBlank {d : Char} (h : isBlank d = true) : isNameChar d = false := by
  by_contra hname
  rw [Bool.not_eq_false] at hname
  unfold isNameChar Char.isAlphanum Char.isAlpha Char.isUpper Char.isLower Char.isDigit at hname
  simp only [Bool.or_eq_true, Bool.and_eq_true, decide_eq_true_eq, beq_iff_eq] at hname
  simp only [isBlank, Bool.or_eq_true, Bool.and_eq_true, decide_eq_true_eq, beq_iff_eq] at h
  by_cases hyphen : d = '-'
  · subst hyphen
    simp at h
  · simp only [hyphen, or_false, ge_iff_le, UInt32.le_iff_toNat_le, Char.toNat_val] at hname
    have hcode : (65 ≤ d.toNat ∧ d.toNat ≤ 90 ∨ 97 ≤ d.toNat ∧ d.toNat ≤ 122) ∨
        48 ≤ d.toNat ∧ d.toNat ≤ 57 := hname
    omega

theorem ofName?_eq_some {m : Matcher} {name : List Char} :
    Matcher.ofName? name = some m ↔ name.map Char.toLower = m.name.toList := by
  unfold Matcher.ofName?
  constructor
  · intro h
    have hname := List.find?_some h
    exact beq_iff_eq.mp hname
  · intro h
    rw [h]
    cases m <;> decide

theorem isNameChar_name (m : Matcher) : ∀ d ∈ m.name.toList, isNameChar d = true := by
  rw [← List.all_eq_true]
  cases m <;> decide

theorem Call.text_append (call : Call) (r : List Char) :
    call.text ++ r =
      call.name ++ (call.gap.val ++ '(' :: (call.lead.val ++ (call.argument.text ++ r))) := by
  simp [Call.text]

/-- The name of a call ends where blank characters or the parenthesis begin. -/
theorem Call.stops_name (call : Call) (t : List Char) :
    Stops isNameChar (call.gap.val ++ '(' :: t) := by
  obtain ⟨gap, hgap⟩ := call.gap
  cases gap with
  | nil => exact stops_cons (by decide) t
  | cons d gap => exact stops_cons (not_isNameChar_of_isBlank (hgap d List.mem_cons_self)) _

theorem Call.name_ne_nil (call : Call) : call.name ≠ [] := by
  intro hnil
  have hname := call.name_eq
  rw [hnil] at hname
  cases hm : call.matcher <;> rw [hm] at hname <;> cases hname

/-- A call is read as the condition that it stands for. -/
theorem Call.read (call : Call) (r : List Char) :
    readCall (call.text ++ r) = .ok (call.condition, r) := by
  have hstops := call.stops_name (call.lead.val ++ (call.argument.text ++ r))
  have hopen : trimStart (call.gap.val ++ '(' :: (call.lead.val ++ (call.argument.text ++ r))) =
      '(' :: (call.lead.val ++ (call.argument.text ++ r)) :=
    trimStart_blanks call.gap (stops_cons (by decide) _)
  have hlead : trimStart (call.lead.val ++ (call.argument.text ++ r)) = call.argument.text ++ r :=
    trimStart_blanks call.lead (call.argument.stops_text r)
  have hempty : call.name.isEmpty = false := by simp [call.name_ne_nil]
  unfold readCall
  rw [call.text_append, takeWhile_append_stops call.name_chars hstops,
    dropWhile_append_stops call.name_chars hstops]
  simp only [hempty, ofName?_eq_some.mpr call.name_eq, hopen, hlead,
    call.argument.read call.quoted_of_regexp r]
  rfl

/-- What is read as a call is one. -/
theorem readCall_eq_ok (h : readCall s = .ok (c, r)) :
    ∃ call : Call, call.condition = c ∧ s = call.text ++ r := by
  unfold readCall at h
  simp only at h
  split at h
  · cases h
  · split at h
    · cases h
    · rename_i m hm
      obtain ⟨gap, hgap, -⟩ := trimStart_eq (s.dropWhile isNameChar)
      split at h
      · rename_i t ht
        obtain ⟨lead, hlead, hstops⟩ := trimStart_eq t
        split at h
        · cases h
        · rename_i argument rest ha
          obtain ⟨a, rfl, htext, hquoted⟩ := readArgument_eq_ok hstops ha
          cases h
          refine ⟨⟨m, s.takeWhile isNameChar, gap, lead, a, fun _ => List.mem_takeWhile_imp,
            ofName?_eq_some.mp hm, hquoted⟩, rfl, ?_⟩
          rw [Call.text_append, ← htext, ← hlead, ← ht, ← hgap]
          exact List.takeWhile_append_dropWhile.symm
      · cases h

theorem Call.eq_of_text_append {call call' : Call} (h : call.text ++ r = call'.text ++ r') :
    call = call' ∧ r = r' := by
  rw [text_append, text_append] at h
  obtain ⟨hname, h⟩ := eq_of_append_stops call.name_chars call'.name_chars (call.stops_name _)
    (call'.stops_name _) h
  obtain ⟨hgap, h⟩ := Blanks.eq_of_append (stops_cons (by decide) _) (stops_cons (by decide) _) h
  obtain ⟨hlead, h⟩ := Blanks.eq_of_append (call.argument.stops_text r)
    (call'.argument.stops_text r') (List.cons.inj h).2
  obtain ⟨hargument, hrest⟩ := Argument.eq_of_text_append h
  have hmatcher : call.matcher = call'.matcher := by
    have hname' := ofName?_eq_some.mpr call'.name_eq
    rw [← hname, ofName?_eq_some.mpr call.name_eq] at hname'
    exact Option.some.inj hname'
  refine ⟨?_, hrest⟩
  cases call
  cases call'
  simp only at hname hgap hlead hargument hmatcher
  subst hname hgap hlead hargument hmatcher
  rfl

end Calls

/-! ## Lists -/

section Lists

variable {more more' : List NextCall} {gap gap' : Blanks}

theorem Reading.behind_cons (n : NextCall) (more : List NextCall) (gap : Blanks) :
    behind (n :: more) gap =
      n.gap.val ++ ',' :: (n.lead.val ++ (n.call.text ++ behind more gap)) := by
  simp [behind, NextCall.text]

theorem Call.stops_text (call : Call) (t : List Char) : Stops isBlank (call.text ++ t) := by
  obtain ⟨c, name, hname⟩ := List.exists_cons_of_ne_nil call.name_ne_nil
  have hc : isNameChar c = true := call.name_chars c (by simp [hname])
  rw [call.text_append, hname]
  refine stops_cons ?_ _
  by_contra hblank
  rw [Bool.not_eq_false] at hblank
  rw [not_isNameChar_of_isBlank hblank] at hc
  cases hc

theorem nextCall?_blanks (gap : Blanks) : nextCall? gap.val = .ok none := by
  have htrim := trimStart_blanks gap (t := []) (by intro c hc; cases hc)
  rw [List.append_nil] at htrim
  unfold nextCall?
  rw [htrim]

theorem nextCall?_text (n : NextCall) (t : List Char) :
    nextCall? (n.gap.val ++ ',' :: (n.lead.val ++ (n.call.text ++ t))) =
      .ok (some (n.call.text ++ t)) := by
  have hcomma : trimStart (n.gap.val ++ ',' :: (n.lead.val ++ (n.call.text ++ t))) =
      ',' :: (n.lead.val ++ (n.call.text ++ t)) := trimStart_blanks n.gap (stops_cons (by decide) _)
  have hlead : trimStart (n.lead.val ++ (n.call.text ++ t)) = n.call.text ++ t :=
    trimStart_blanks n.lead (n.call.stops_text t)
  have hne : n.call.text ++ t ≠ [] := by
    rw [n.call.text_append]
    simp [n.call.name_ne_nil]
  unfold nextCall?
  rw [hcomma]
  simp only [hlead]

theorem readCalls_last {s r : List Char} {c : Condition} (hc : readCall s = .ok (c, r))
    (hr : nextCall? r = .ok none) : readCalls s = .ok [c] := by
  rw [readCalls]
  split
  · rename_i h
    rw [hc] at h
    cases h
  · rename_i h
    rw [hc] at h
    cases h
    split <;> rename_i h' <;> rw [hr] at h' <;> cases h'

theorem readCalls_next {s r next : List Char} {c : Condition} (hc : readCall s = .ok (c, r))
    (hr : nextCall? r = .ok (some next)) : readCalls s = (readCalls next).map (c :: ·) := by
  rw [readCalls]
  split
  · rename_i h
    rw [hc] at h
    cases h
  · rename_i h
    rw [hc] at h
    cases h
    split <;> rename_i h' <;> rw [hr] at h' <;> cases h'
    rfl

/-- Calls with commas between them are read one after the other. -/
theorem readCalls_text (first : Call) (more : List NextCall) (gap : Blanks) :
    readCalls (first.text ++ Reading.behind more gap) =
      .ok (first.condition :: more.map fun n => n.call.condition) := by
  induction more generalizing first with
  | nil => exact readCalls_last (first.read _) (nextCall?_blanks gap)
  | cons n more ih =>
    have hnext := nextCall?_text n (Reading.behind more gap)
    rw [← Reading.behind_cons] at hnext
    rw [readCalls_next (first.read _) hnext, ih]
    rfl

theorem nextCall?_eq_none {s : List Char} (h : nextCall? s = .ok none) :
    ∃ gap : Blanks, s = gap.val := by
  obtain ⟨gap, hs, -⟩ := trimStart_eq s
  unfold nextCall? at h
  split at h
  · rename_i htrim
    rw [htrim, List.append_nil] at hs
    exact ⟨gap, hs⟩
  · split at h <;> cases h
  · cases h

theorem nextCall?_eq_some {s next : List Char} (h : nextCall? s = .ok (some next)) :
    ∃ gap lead : Blanks, s = gap.val ++ ',' :: (lead.val ++ next) := by
  obtain ⟨gap, hs, -⟩ := trimStart_eq s
  unfold nextCall? at h
  split at h
  · cases h
  · rename_i t htrim
    obtain ⟨lead, ht, -⟩ := trimStart_eq t
    split at h
    · cases h
    · cases h
      exact ⟨gap, lead, by rw [← ht, ← htrim, ← hs]⟩
  · cases h

/-- What is read to the end of the text are calls with commas between them. -/
theorem readCalls_eq_ok {s : List Char} {cs : List Condition} (h : readCalls s = .ok cs) :
    ∃ first more gap, s = Call.text first ++ Reading.behind more gap ∧
      cs = first.condition :: more.map fun n => n.call.condition := by
  fun_induction readCalls s generalizing cs with
  | case1 => cases h
  | case2 => cases h
  | case3 s c r hc hnext =>
    cases h
    obtain ⟨first, rfl, rfl⟩ := readCall_eq_ok hc
    obtain ⟨gap, rfl⟩ := nextCall?_eq_none hnext
    exact ⟨first, [], gap, rfl, rfl⟩
  | case4 s c r hc next hnext ih =>
    obtain ⟨first, rfl, rfl⟩ := readCall_eq_ok hc
    obtain ⟨gap, lead, rfl⟩ := nextCall?_eq_some hnext
    cases hrest : readCalls next with
    | error refusal =>
      rw [hrest] at h
      cases h
    | ok rest =>
      rw [hrest] at h
      cases h
      obtain ⟨second, more, last, rfl, rfl⟩ := ih hrest
      exact ⟨first, ⟨gap, lead, second⟩ :: more, last, by rw [Reading.behind_cons], rfl⟩

theorem Reading.eq_of_behind_eq (h : behind more gap = behind more' gap') :
    more = more' ∧ gap = gap' := by
  -- The comma in front of a call is not blank, so it is no part of what ends the other list.
  have hcomma (n : NextCall) (ns : List NextCall) (g g' : Blanks) :
      behind [] g ≠ behind (n :: ns) g' := by
    intro heq
    have hmem : ',' ∈ behind [] g := by
      rw [heq, behind_cons]
      simp
    have hblank := g.property ',' hmem
    cases hblank
  induction more generalizing more' with
  | nil =>
    cases more' with
    | nil => exact ⟨rfl, Subtype.ext h⟩
    | cons n more' => exact absurd h (hcomma n more' gap gap')
  | cons n more ih =>
    cases more' with
    | nil => exact absurd h.symm (hcomma n more gap' gap)
    | cons n' more' =>
      rw [behind_cons, behind_cons] at h
      obtain ⟨hgap, h⟩ :=
        Blanks.eq_of_append (stops_cons (by decide) _) (stops_cons (by decide) _) h
      obtain ⟨hlead, h⟩ := Blanks.eq_of_append (n.call.stops_text _) (n'.call.stops_text _)
        (List.cons.inj h).2
      obtain ⟨hcall, h⟩ := Call.eq_of_text_append h
      obtain ⟨rfl, hlast⟩ := ih h
      refine ⟨?_, hlast⟩
      cases n
      cases n'
      simp only at hgap hlead hcall
      subst hgap hlead hcall
      rfl

/-- A text can be taken apart in at most one way. -/
theorem Reading.eq_of_text_eq {r r' : Reading} (h : r.text = r'.text) : r = r' := by
  unfold text at h
  obtain ⟨hlead, h⟩ := Blanks.eq_of_append (r.first.stops_text _) (r'.first.stops_text _) h
  obtain ⟨hfirst, h⟩ := Call.eq_of_text_append h
  obtain ⟨hmore, hgap⟩ := eq_of_behind_eq h
  cases r
  cases r'
  simp only at hlead hfirst hmore hgap
  subst hlead hfirst hmore hgap
  rfl

end Lists

theorem readList_text (r : Reading) : readList r.text = .ok r.conditions := by
  have hlead : trimStart r.text = r.first.text ++ Reading.behind r.more r.gap :=
    trimStart_blanks r.lead (r.first.stops_text _)
  have hne : r.first.text ++ Reading.behind r.more r.gap ≠ [] := by
    rw [r.first.text_append]
    simp [r.first.name_ne_nil]
  unfold readList
  rw [hlead]
  split
  · exact absurd ‹_› hne
  · rename_i h
    rw [← h]
    exact readCalls_text r.first r.more r.gap

theorem readList_eq_ok {s : List Char} {cs : List Condition} (h : readList s = .ok cs) :
    ∃ r : Reading, r.text = s ∧ r.conditions = cs := by
  obtain ⟨lead, hs, -⟩ := trimStart_eq s
  unfold readList at h
  split at h
  · cases h
  · rename_i c t htrim
    obtain ⟨first, more, gap, htext, rfl⟩ := readCalls_eq_ok h
    rw [htrim, htext] at hs
    exact ⟨⟨lead, first, more, gap⟩, hs.symm, rfl⟩

theorem ofParams_of_reading {params : String} {r : Reading} (h : r.text = params.toList) :
    ofParams params = .ok r.conditions := by
  unfold ofParams
  rw [← h, readList_text]

theorem exists_reading {params : String} {cs : List Condition} (h : ofParams params = .ok cs) :
    ∃ r : Reading, r.text = params.toList ∧ r.conditions = cs := by
  unfold ofParams at h
  split at h
  · cases h
    exact readList_eq_ok ‹_›
  · cases h

/-- The reader accepts exactly the texts that can be taken apart into calls, and gives the
conditions that the calls stand for. There is one way only to take such a text apart. -/
theorem ofParams_eq_ok_iff (params : String) :
    (∀ cs, ofParams params = .ok cs ↔
      ∃ r : Reading, r.text = params.toList ∧ r.conditions = cs) ∧
      ((∃ cs, ofParams params = .ok cs) ↔ ∃! r : Reading, r.text = params.toList) := by
  constructor
  · intro cs
    constructor
    · exact exists_reading
    · rintro ⟨r, htext, rfl⟩
      exact ofParams_of_reading htext
  · constructor
    · rintro ⟨cs, h⟩
      obtain ⟨r, htext, -⟩ := exists_reading h
      refine ⟨r, htext, fun r' htext' => ?_⟩
      exact Reading.eq_of_text_eq (htext'.trans htext.symm)
    · rintro ⟨r, htext, -⟩
      exact ⟨r.conditions, ofParams_of_reading htext⟩

end Userstyle.Condition
