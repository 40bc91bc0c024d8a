import Userstyle.Proofs.ParameterGrammar

/-!
# Where reading a parameter list stops

An error in a parameter list names a place. Up to that place the list is in order: something can be
written behind it with which it is accepted (`ofParams_error_beginning`). Each reading function
stops at a place up to which its text begins like one that it reads, whatever the fault; what is
missing is a quote, a parenthesis, an argument or a call.
-/

namespace Userstyle.Condition

open Text

/-- Something can be written behind the text with which it is a parameter list. -/
def Begins (s : String) : Prop := ∃ more cs, ofParams (s ++ more) = .ok cs

/-- Up to the place where reading stopped, `s` begins like a text of the kind. -/
def Refusal.Behind (refusal : Refusal) (s : List Char) (kind : List Char → Prop) : Prop :=
  ∃ before more, s = before ++ refusal.rest ∧ kind (before ++ more)

/-- The text is an argument in quotes, with the parenthesis that closes the call. -/
def IsQuotedArgument (t : List Char) : Prop := ∃ a : Argument, a.text = t ∧ a.IsQuoted

/-- The text is a call. -/
def IsCall (t : List Char) : Prop := ∃ call : Call, call.text = t

/-- The text is a call with others behind it, up to the end of a parameter list. -/
def IsCalls (t : List Char) : Prop :=
  ∃ first more gap, Call.text first ++ Reading.behind more gap = t

/-- The text is a parameter list. -/
def IsList (t : List Char) : Prop := ∃ r : Reading, r.text = t

section Refusals

variable {refusal : Refusal} {m : Matcher} {s t : List Char} {kind kind' : List Char → Prop}

/-- Where nothing was read, what is missing is all of the text. -/
theorem Refusal.behind_all (h : kind t) (hrest : refusal.rest = s) : refusal.Behind s kind :=
  ⟨[], t, hrest.symm, h⟩

/-- Where all of the text was read, it begins like a text of the kind itself. -/
theorem Refusal.behind_nothing (h : kind (s ++ t)) (hrest : refusal.rest = []) :
    refusal.Behind s kind :=
  ⟨s, t, by rw [hrest, List.append_nil], h⟩

theorem Refusal.Behind.append (h : refusal.Behind s kind) (front : List Char)
    (hkind : ∀ t, kind t → kind' (front ++ t)) : refusal.Behind (front ++ s) kind' := by
  obtain ⟨before, more, rfl, hmore⟩ := h
  refine ⟨front ++ before, more, (List.append_assoc _ _ _).symm, ?_⟩
  rw [List.append_assoc]
  exact hkind _ hmore

/-! ## Texts to go on with -/

/-- No blank characters. -/
def Blanks.none : Blanks := ⟨[], by simp⟩

theorem isQuotedArgument_empty {quote : Char} (h : IsQuote quote) :
    IsQuotedArgument [quote, quote, ')'] :=
  ⟨.quoted quote [] [] Blanks.none h List.not_mem_nil .nil, rfl, trivial⟩

/-- A call of a matcher goes on with any argument in quotes. -/
theorem IsQuotedArgument.isCall {name : List Char} (h : IsQuotedArgument t)
    (hchars : ∀ c ∈ name, isNameChar c = true)
    (hname : name.map Char.toLower = m.name.toList) (gap lead : Blanks) :
    IsCall (name ++ (gap.val ++ '(' :: (lead.val ++ t))) := by
  obtain ⟨a, rfl, hquoted⟩ := h
  exact ⟨⟨m, name, gap, lead, a, hchars, hname, fun _ => hquoted⟩, rfl⟩

theorem exists_isCall : ∃ t, IsCall t := by
  have hname : Matcher.url.name.toList.map Char.toLower = Matcher.url.name.toList := by decide
  have hempty := isQuotedArgument_empty (Or.inl rfl)
  exact ⟨_, hempty.isCall (isNameChar_name .url) hname Blanks.none Blanks.none⟩

theorem IsCall.isCalls (h : IsCall t) (gap : Blanks) : IsCalls (t ++ gap.val) := by
  obtain ⟨call, rfl⟩ := h
  exact ⟨call, [], gap, rfl⟩

/-- A list of calls may have one more call in front. -/
theorem IsCalls.cons {first : List Char} (h : IsCalls t) (hfirst : IsCall first)
    (gap lead : Blanks) : IsCalls (first ++ (gap.val ++ ',' :: (lead.val ++ t))) := by
  obtain ⟨call, rfl⟩ := hfirst
  obtain ⟨second, more, last, rfl⟩ := h
  exact ⟨call, ⟨gap, lead, second⟩ :: more, last, by rw [Reading.behind_cons]⟩

/-! ## Places inside of longer texts -/

/-- A place inside of an argument is one inside of its call. -/
theorem Refusal.Behind.call {name : List Char} (h : refusal.Behind s IsQuotedArgument)
    (hchars : ∀ c ∈ name, isNameChar c = true)
    (hname : name.map Char.toLower = m.name.toList) (gap lead : Blanks) :
    refusal.Behind (name ++ (gap.val ++ '(' :: (lead.val ++ s))) IsCall := by
  have hfront : name ++ (gap.val ++ '(' :: (lead.val ++ s)) =
      name ++ (gap.val ++ '(' :: lead.val) ++ s := by simp
  rw [hfront]
  refine h.append _ fun t ht => ?_
  simpa using ht.isCall hchars hname gap lead

/-- A place inside of a list of calls is still one with another call in front. -/
theorem Refusal.Behind.cons {first : List Char} (h : refusal.Behind s IsCalls)
    (hfirst : IsCall first) (gap lead : Blanks) :
    refusal.Behind (first ++ (gap.val ++ ',' :: (lead.val ++ s))) IsCalls := by
  have hfront : first ++ (gap.val ++ ',' :: (lead.val ++ s)) =
      first ++ (gap.val ++ ',' :: lead.val) ++ s := by simp
  rw [hfront]
  refine h.append _ fun t ht => ?_
  simpa using ht.cons hfirst gap lead

/-! ## Where each reading function stops -/

theorem readQuoted_error {quote : Char} (hquote : IsQuote quote)
    (h : readQuoted quote s = .error refusal) :
    refusal.Behind (quote :: s) IsQuotedArgument := by
  unfold readQuoted at h
  split at h
  · -- The closing quote is missing, and the place is that behind the opening one.
    cases h
    exact ⟨[quote], [quote, ')'], rfl, isQuotedArgument_empty hquote⟩
  · rename_i c after hdrop
    have hbody := eq_of_dropWhile_bne hdrop
    obtain ⟨gap, hafter, -⟩ := trimStart_eq after
    split at h
    · cases h
    · cases h
      refine ⟨quote :: (s.takeWhile (· != quote) ++ quote :: gap.val), [')'], ?_, ?_⟩
      · rw [hafter] at hbody
        simpa using hbody
      · refine ⟨.quoted quote _ _ gap hquote (not_mem_takeWhile_bne quote s)
          (unescapes_iff.mpr rfl), ?_, trivial⟩
        simp [Argument.text]

theorem readBare_error (h : readBare m s = .error refusal) : refusal.rest = s := by
  unfold readBare at h
  split at h
  · cases h
    rfl
  · split at h
    · cases h
      rfl
    · cases h

theorem readArgument_error (h : readArgument m s = .error refusal) :
    refusal.Behind s IsQuotedArgument := by
  unfold readArgument at h
  split at h
  · exact readQuoted_error (Or.inl rfl) h
  · exact readQuoted_error (Or.inr rfl) h
  · exact Refusal.behind_all (isQuotedArgument_empty (Or.inl rfl)) (readBare_error h)

theorem readCall_error (h : readCall s = .error refusal) : refusal.Behind s IsCall := by
  obtain ⟨t, ht⟩ := exists_isCall
  have hchars : ∀ c ∈ s.takeWhile isNameChar, isNameChar c = true :=
    fun _ => List.mem_takeWhile_imp
  have hsplit : s = s.takeWhile isNameChar ++ s.dropWhile isNameChar :=
    List.takeWhile_append_dropWhile.symm
  unfold readCall at h
  simp only at h
  split at h
  · cases h
    exact Refusal.behind_all ht rfl
  · split at h
    · cases h
      exact Refusal.behind_all ht rfl
    · rename_i m hm
      have hname := ofName?_eq_some.mp hm
      obtain ⟨gap, hgap, -⟩ := trimStart_eq (s.dropWhile isNameChar)
      rw [hgap] at hsplit
      split at h
      · rename_i r hr
        obtain ⟨lead, hlead, -⟩ := trimStart_eq r
        split at h
        · rename_i ha
          cases h
          rw [hsplit, hr, hlead]
          exact (readArgument_error ha).call hchars hname gap lead
        · cases h
      · -- The parenthesis is missing, and the place is that behind the name.
        cases h
        have hempty := isQuotedArgument_empty (Or.inl rfl)
        have hcall := hempty.isCall hchars hname gap Blanks.none
        rw [← List.append_assoc] at hcall hsplit
        exact ⟨_, _, hsplit, hcall⟩

/-- Behind a call, reading stops in the blank characters, or behind a comma that is the last. -/
theorem nextCall?_error (h : nextCall? s = .error refusal) {first : List Char}
    (hfirst : IsCall first) : refusal.Behind (first ++ s) IsCalls := by
  obtain ⟨call, rfl⟩ := hfirst
  obtain ⟨gap, hs, -⟩ := trimStart_eq s
  unfold nextCall? at h
  split at h
  · cases h
  · rename_i r hr
    obtain ⟨lead, hlead, -⟩ := trimStart_eq r
    split at h
    · rename_i hrest
      cases h
      obtain ⟨t, second, rfl⟩ := exists_isCall
      rw [hrest, List.append_nil] at hlead
      have hcalls : IsCalls (call.text ++ s ++ second.text) := by
        refine ⟨call, [⟨gap, lead, second⟩], Blanks.none, ?_⟩
        rw [hs, hr, hlead]
        simp [Reading.behind, NextCall.text, Blanks.none]
      exact Refusal.behind_nothing hcalls rfl
    · cases h
  · cases h
    refine ⟨call.text ++ gap.val, [], ?_, ?_⟩
    · rw [List.append_assoc, ← hs]
    · rw [List.append_nil]
      exact ⟨call, [], gap, rfl⟩

theorem readCalls_error (h : readCalls s = .error refusal) : refusal.Behind s IsCalls := by
  fun_induction readCalls s with
  | case1 s refusal' hc =>
    cases h
    refine (readCall_error hc).append [] fun t ht => ?_
    simpa [Blanks.none] using ht.isCalls Blanks.none
  | case2 s c r hc refusal' hnext =>
    cases h
    obtain ⟨first, rfl, rfl⟩ := readCall_eq_ok hc
    exact nextCall?_error hnext ⟨first, rfl⟩
  | case3 => cases h
  | case4 s c r hc next hnext ih =>
    obtain ⟨first, rfl, rfl⟩ := readCall_eq_ok hc
    obtain ⟨gap, lead, rfl⟩ := nextCall?_eq_some hnext
    cases hrest : readCalls next with
    | ok rest =>
      rw [hrest] at h
      cases h
    | error refusal' =>
      rw [hrest] at h
      cases h
      exact (ih hrest).cons ⟨first, rfl⟩ gap lead

theorem readList_error (h : readList s = .error refusal) : refusal.Behind s IsList := by
  obtain ⟨lead, hs, -⟩ := trimStart_eq s
  have hlist {t : List Char} (ht : IsCalls t) : IsList (lead.val ++ t) := by
    obtain ⟨first, more, gap, rfl⟩ := ht
    exact ⟨⟨lead, first, more, gap⟩, rfl⟩
  unfold readList at h
  split at h
  · rename_i htrim
    cases h
    obtain ⟨t, ht⟩ := exists_isCall
    rw [htrim, List.append_nil] at hs
    rw [hs]
    exact Refusal.behind_nothing (hlist (ht.isCalls Blanks.none)) rfl
  · rename_i htrim
    rw [hs, htrim]
    exact (readCalls_error h).append lead.val fun t => hlist

end Refusals

/-- An error carries the parameter list and an offset at which one of its characters begins or it
ends. What stands in front of the offset is the beginning of a list that is accepted. -/
theorem ofParams_error_beginning {params : String} {e : Error} (h : ofParams params = .error e) :
    ∃ (offset : Nat) (fault : ConditionFault) (before rest : String),
      e = .invalidCondition params offset fault ∧ params = before ++ rest ∧
      before.utf8ByteSize = offset ∧ offset ≤ params.utf8ByteSize ∧ Begins before := by
  unfold ofParams at h
  split at h
  · cases h
  · rename_i refusal hrefusal
    cases h
    obtain ⟨before, more, hparams, r, hr⟩ := readList_error hrefusal
    have hsize : byteLength params.toList - byteLength refusal.rest = byteLength before := by
      rw [hparams, byteLength_append, Nat.add_sub_cancel]
    refine ⟨_, refusal.fault, String.ofList before, String.ofList refusal.rest, rfl, ?_, ?_, ?_, ?_⟩
    · rw [← String.ofList_append, ← hparams, String.ofList_toList]
    · rw [hsize, ← byteLength_toList, String.toList_ofList]
    · rw [← byteLength_toList]
      exact Nat.sub_le _ _
    · refine ⟨String.ofList more, r.conditions, ofParams_of_reading ?_⟩
      rw [hr, String.toList_append, String.toList_ofList, String.toList_ofList]

/-- A list that goes wrong in its second call, behind a character of two bytes. -/
theorem ofParams_error_beginning_regexp :
    ofParams "domain(\"\u00e9\"), regexp(x)" =
        .error (.invalidCondition "domain(\"\u00e9\"), regexp(x)" 21 .regexpUnquoted) ∧
      ∃ before rest : String, "domain(\"\u00e9\"), regexp(x)" = before ++ rest ∧
        before.utf8ByteSize = 21 ∧ Begins before := by
  have h : ofParams "domain(\"\u00e9\"), regexp(x)" =
      .error (.invalidCondition "domain(\"\u00e9\"), regexp(x)" 21 .regexpUnquoted) := by
    decide +kernel
  obtain ⟨offset, fault, before, rest, he, hparams, hsize, -, hbegins⟩ :=
    ofParams_error_beginning h
  cases he
  exact ⟨h, before, rest, hparams, hsize, hbegins⟩

end Userstyle.Condition
