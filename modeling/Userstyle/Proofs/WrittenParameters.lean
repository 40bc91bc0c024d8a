import Userstyle.Proofs.ParameterGrammar

/-!
# Writing parameter lists

A condition can be written as a call in many ways: the letters of the name may be of either case,
blank characters may stand at every joint, and the quotes may be of either kind as long as the
argument has none of that kind in it. Between the quotes every backslash is written twice
(`escaped`). Whatever way is chosen for each of them, the conditions are read back as they were
(`ofParams_writes`).
-/

namespace Userstyle.Condition

open Text

/-! ## Written forms -/

/-- An argument as it stands between quotes, with every backslash doubled. -/
def escaped (s : List Char) : List Char := s.flatMap fun c => if c = '\\' then ['\\', '\\'] else [c]

/-- The text is one way to write the condition as a call. -/
inductive WritesCall (c : Condition) : List Char → Prop where
  /-- The name in any mix of upper and lower case, and the argument between two quotes of a kind
  that does not occur in it. -/
  | intro {name : List Char} {quote : Char} (gap lead tail : Blanks)
      (hname : name.map Char.toLower = c.matcher.name.toList) (hquote : IsQuote quote)
      (hargument : quote ∉ c.argument.toList) :
      WritesCall c (name ++ (gap.val ++ '(' :: (lead.val ++
        quote :: (escaped c.argument.toList ++ quote :: (tail.val ++ [')'])))))

/-- The text is one way to write the conditions, with commas between them. -/
inductive Writes : List Condition → List Char → Prop where
  /-- The last condition. -/
  | last {c : Condition} {s : List Char} (lead gap : Blanks) (h : WritesCall c s) :
      Writes [c] (lead.val ++ (s ++ gap.val))
  /-- A condition with others behind it. -/
  | more {c : Condition} {cs : List Condition} {s t : List Char} (lead gap : Blanks)
      (h : WritesCall c s) (ht : Writes cs t) :
      Writes (c :: cs) (lead.val ++ (s ++ (gap.val ++ ',' :: t)))

section Written

variable {c : Condition} {cs : List Condition} {s text : List Char}

/-! ## What is written stands for the condition -/

/-- Doubling the backslashes is undone by reading pairs. -/
theorem unescapes_escaped (s : List Char) : Unescapes (escaped s) s := by
  induction s with
  | nil => exact .nil
  | cons c s ih =>
    by_cases hc : c = '\\'
    · subst hc
      exact .pair '\\' ih
    · have hcons : escaped (c :: s) = c :: escaped s := by simp [escaped, hc]
      rw [hcons]
      exact .char hc ih

/-- Doubling the backslashes brings in no quote. -/
theorem not_mem_escaped {quote : Char} (hquote : IsQuote quote) (hs : quote ∉ s) :
    quote ∉ escaped s := by
  intro hmem
  obtain ⟨c, hc, hin⟩ := List.mem_flatMap.mp hmem
  by_cases hslash : c = '\\'
  · have heq : quote = '\\' := by simpa [hslash] using hin
    rw [heq] at hquote
    rcases hquote with h | h <;> cases h
  · have heq : quote = c := by simpa [hslash] using hin
    exact hs (heq ▸ hc)

/-- A character of a name stays one in the other case. -/
theorem isNameChar_of_toLower {d : Char} (h : isNameChar d.toLower = true) :
    isNameChar d = true := by
  by_cases hupper : d.isUpper = true
  · unfold isNameChar Char.isAlphanum Char.isAlpha
    rw [hupper]
    rfl
  · have hsame : d.toLower = d := by
      unfold Char.toLower
      unfold Char.isUpper at hupper
      simp only [ge_iff_le, decide_eq_true_eq] at hupper
      rw [dif_neg hupper]
    rwa [hsame] at h

theorem forall_isNameChar {m : Matcher} (h : s.map Char.toLower = m.name.toList) :
    ∀ d ∈ s, isNameChar d = true := by
  intro d hd
  refine isNameChar_of_toLower (isNameChar_name m _ ?_)
  rw [← h]
  exact List.mem_map_of_mem hd

theorem WritesCall.exists_call (h : WritesCall c s) :
    ∃ call : Call, call.text = s ∧ call.condition = c := by
  cases h with
  | @intro name quote gap lead tail hname hquote hargument =>
    have hbody := not_mem_escaped hquote hargument
    have hvalue := unescapes_escaped c.argument.toList
    refine ⟨⟨c.matcher, name, gap, lead, .quoted quote _ _ tail hquote hbody hvalue,
      forall_isNameChar hname, hname, fun _ => trivial⟩, rfl, ?_⟩
    exact congrArg (Condition.mk c.matcher) String.ofList_toList

/-- What is written for conditions can be taken apart into calls that stand for them. -/
theorem Writes.exists_reading (h : Writes cs text) :
    ∃ r : Reading, r.text = text ∧ r.conditions = cs := by
  induction h with
  | last lead gap h =>
    obtain ⟨call, rfl, rfl⟩ := h.exists_call
    exact ⟨⟨lead, call, [], gap⟩, rfl, rfl⟩
  | @more c cs s t lead gap h ht ih =>
    obtain ⟨call, rfl, rfl⟩ := h.exists_call
    obtain ⟨r, rfl, rfl⟩ := ih
    refine ⟨⟨lead, call, ⟨gap, r.lead, r.first⟩ :: r.more, r.gap⟩, ?_, rfl⟩
    simp only [Reading.text, Reading.behind_cons]

/-! ## Every list can be written -/

theorem exists_writesCall (h : ¬('\"' ∈ c.argument.toList ∧ '\'' ∈ c.argument.toList)) :
    ∃ s, WritesCall c s := by
  have hnone : ∀ d ∈ ([] : List Char), isBlank d = true := by simp
  have hname : c.matcher.name.toList.map Char.toLower = c.matcher.name.toList := by
    cases c.matcher <;> decide
  by_cases hdouble : '\"' ∈ c.argument.toList
  · exact ⟨_, .intro ⟨[], hnone⟩ ⟨[], hnone⟩ ⟨[], hnone⟩ hname (Or.inr rfl)
      fun hsingle => h ⟨hdouble, hsingle⟩⟩
  · exact ⟨_, .intro ⟨[], hnone⟩ ⟨[], hnone⟩ ⟨[], hnone⟩ hname (Or.inl rfl) hdouble⟩

theorem exists_writes (hne : cs ≠ [])
    (h : ∀ c ∈ cs, ¬('\"' ∈ c.argument.toList ∧ '\'' ∈ c.argument.toList)) :
    ∃ text, Writes cs text := by
  have hnone : ∀ d ∈ ([] : List Char), isBlank d = true := by simp
  induction cs with
  | nil => exact absurd rfl hne
  | cons c cs ih =>
    rw [List.forall_mem_cons] at h
    obtain ⟨s, hs⟩ := exists_writesCall h.1
    by_cases hcs : cs = []
    · subst hcs
      exact ⟨_, .last ⟨[], hnone⟩ ⟨[], hnone⟩ hs⟩
    · obtain ⟨t, ht⟩ := ih hcs h.2
      exact ⟨_, .more ⟨[], hnone⟩ ⟨[], hnone⟩ hs ht⟩

end Written

/-- Conditions can be written as a parameter list if none of their arguments has quotes of both
kinds, and in whatever way they are written, they are read back as they were. -/
theorem ofParams_writes {cs : List Condition} (hne : cs ≠ [])
    (h : ∀ c ∈ cs, ¬('\"' ∈ c.argument.toList ∧ '\'' ∈ c.argument.toList)) :
    (∃ text, Writes cs text) ∧ ∀ text, Writes cs text → ofParams (String.ofList text) = .ok cs := by
  refine ⟨exists_writes hne h, fun text htext => ?_⟩
  obtain ⟨r, hr, rfl⟩ := htext.exists_reading
  refine ofParams_of_reading ?_
  rw [hr, String.toList_ofList]

/-- An argument that ends with a backslash, and one with a parenthesis, a comma and the other
quote. -/
theorem ofParams_writes_backslash :
    ofParams "uRL-Prefix (\t\"a\\\\\"\u00a0) ,\nregexp('\"),\\\\\\\\')" =
      .ok [⟨.urlPrefix, "a\\"⟩, ⟨.regexp, "\"),\\\\"⟩] := by
  have hblank (s : List Char) (h : s.all isBlank = true) : ∀ d ∈ s, isBlank d = true :=
    List.all_eq_true.mp h
  have hfirst := @WritesCall.intro ⟨.urlPrefix, "a\\"⟩ "uRL-Prefix".toList '\"'
    ⟨[' '], hblank _ rfl⟩ ⟨['\t'], hblank _ rfl⟩ ⟨['\u00a0'], hblank _ rfl⟩ (by decide)
    (Or.inl rfl) (by decide)
  have hsecond := @WritesCall.intro ⟨.regexp, "\"),\\\\"⟩ "regexp".toList '\''
    ⟨[], hblank _ rfl⟩ ⟨[], hblank _ rfl⟩ ⟨[], hblank _ rfl⟩ (by decide) (Or.inr rfl) (by decide)
  have hwrites := Writes.more ⟨[], hblank _ rfl⟩ ⟨[' '], hblank _ rfl⟩ hfirst
    (.last ⟨['\n'], hblank _ rfl⟩ ⟨[], hblank _ rfl⟩ hsecond)
  exact (ofParams_writes (List.cons_ne_nil _ _) (by decide)).2 _ hwrites

end Userstyle.Condition
