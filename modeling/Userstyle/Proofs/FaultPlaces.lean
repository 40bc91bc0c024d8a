import Userstyle.Proofs.Seams

/-!
# Where syntax errors are reported

A text is rejected at the first lexeme that the reader refuses, and what is wrong is named by the
token of that lexeme (`Token.Causes`). The place that is reported is the one at which the
lexeme was asked for. That is where the lexeme begins, unless a bracket ends in front of it: then it
is the place behind the lexeme that opens the bracket (`EndsInGroup`), which is in front of the
lexeme that is refused (`parse_fault_place`).
-/

namespace Userstyle.Css

open Source Text

/-! ## Lines and columns -/

/-- The line and the column behind the beginning of a text, counted as the tokens of CSS are. -/
def lineColumn (before : List Char) : Nat × Nat :=
  (lineBreaks before + 1, unitLength (lastLine before) + 1)

/-- The line and the column of a byte offset. -/
def tokenPlace (text : List Char) (o : Nat) : Nat × Nat := lineColumn (takeBytes o text)

section Lines

variable {s : List Char} {c : Char}

theorem lineBreaks_cons (c : Char) (r : List Char) :
    lineBreaks (c :: r) =
      (if c = '\r' ∧ r.head? = some '\n' then 0 else if isNewline c then 1 else 0) +
        lineBreaks r := by
  by_cases hpair : c = '\r' ∧ r.head? = some '\n'
  · obtain ⟨rfl, hr⟩ := hpair
    obtain ⟨r, rfl⟩ := List.head?_eq_some_iff.mp hr
    have hfeed : lineBreaks ('\n' :: r) = 1 + lineBreaks r := rfl
    rw [if_pos ⟨rfl, rfl⟩, hfeed, Nat.zero_add]
    rfl
  · rw [if_neg hpair, lineBreaks]
    rintro r' rfl hr
    exact hpair ⟨rfl, by rw [hr]; rfl⟩

theorem lineBreaks_concat (hc : isNewline c = false) : lineBreaks (s ++ [c]) = lineBreaks s := by
  induction s with
  | nil => simp [lineBreaks_cons, hc]
  | cons d s ih =>
    rw [List.cons_append, lineBreaks_cons, lineBreaks_cons, ih]
    cases s with
    | nil =>
      have hfeed : c ≠ '\n' := by
        rintro rfl
        cases hc
      simp [hfeed]
    | cons e s => rfl

/-- A line ends with a newline, unless it is the line feed behind a carriage return. -/
theorem lineBreaks_concat_newline (hc : isNewline c = true) :
    lineBreaks s < lineBreaks (s ++ [c]) ∨
      lineBreaks (s ++ [c]) = lineBreaks s ∧ s.getLast? = some '\r' := by
  induction s with
  | nil => exact Or.inl (by simp [lineBreaks_cons, hc])
  | cons d s ih =>
    rw [List.cons_append, lineBreaks_cons, lineBreaks_cons]
    cases s with
    | nil =>
      by_cases hpair : d = '\r' ∧ c = '\n'
      · obtain ⟨rfl, rfl⟩ := hpair
        exact Or.inr ⟨rfl, rfl⟩
      · refine Or.inl ?_
        simp [hpair, lineBreaks_cons, hc]
    | cons e s =>
      rw [List.getLast?_cons_cons]
      simpa using ih

theorem lastLine_concat (hc : isNewline c = false) : lastLine (s ++ [c]) = lastLine s ++ [c] := by
  simp [lastLine, hc]

theorem unitLength_append (s t : List Char) :
    unitLength (s ++ t) = unitLength s + unitLength t := by
  induction s with
  | nil => simp [unitLength]
  | cons c s ih => rw [List.cons_append, unitLength, unitLength, ih, Nat.add_assoc]

theorem unitLength_concat (s : List Char) (c : Char) : unitLength s < unitLength (s ++ [c]) := by
  have hunits : 0 < unitLength [c] := by
    unfold unitLength charUnits
    split <;> omega
  rw [unitLength_append]
  omega

/-- Going on with a text, one does not go back. -/
theorem lineColumn_le (s t : List Char) :
    lineBreaks s < lineBreaks (s ++ t) ∨ lineBreaks s = lineBreaks (s ++ t) ∧
      unitLength (lastLine s) ≤ unitLength (lastLine (s ++ t)) := by
  induction t generalizing s with
  | nil => simp
  | cons c t ih =>
    have hrest := ih (s ++ [c])
    rw [List.append_assoc, List.singleton_append] at hrest
    by_cases hc : isNewline c = true
    · rcases lineBreaks_concat_newline (s := s) hc with hlt | ⟨heq, hlast⟩
      · exact Or.inl (by omega)
      · have hempty : lastLine s = [] := by
          obtain ⟨init, rfl⟩ := List.getLast?_eq_some_iff.mp hlast
          simp [lastLine, isNewline]
        rw [hempty]
        have hzero : unitLength [] = 0 := rfl
        omega
    · rw [Bool.not_eq_true] at hc
      have hunits := unitLength_concat (lastLine s) c
      rw [lineBreaks_concat hc, lastLine_concat hc] at hrest
      omega

/-- A character that ends no line moves the place. -/
theorem lineColumn_ne (hc : isNewline c = false) (s t : List Char) :
    lineColumn (s ++ (t ++ [c])) ≠ lineColumn s := by
  have hle := lineColumn_le s t
  have hunits := unitLength_concat (lastLine (s ++ t)) c
  rw [← List.append_assoc, lineColumn, lineColumn, lineBreaks_concat hc, lastLine_concat hc, Ne,
    Prod.mk.injEq]
  omega

end Lines

/-! ## What an issue is about -/

/-- The token is what the issue is about. -/
def Token.Causes (t : Token) (issue : SyntaxIssue) : Prop :=
  match issue with
  | .strayToken c => ∃ b : Bracket, t = .closing b ∧ c = b.closer
  | .unexpectedSemicolon => t = .semicolon
  | .missingBlock => t = .closing .curly
  | .unclosedBlock => False
  | .badString => t = .badString
  | .badUrl => t = .badUrl

/-- The reader asks for the lexeme at the place. -/
inductive Reader.AsksAt (r : Reader) (l : Lexeme) : Place → Prop where
  | between (hm : r.mode = .between) : r.AsksAt l l.start
  | prelude {p : Prelude} (hm : r.mode = .prelude p) (hn : p.nesting = []) : r.AsksAt l p.asked
  | selector {first : Lexeme} {asked : Place} (hm : r.mode = .selector first asked []) :
      r.AsksAt l asked

section Refusals

variable {r : Reader} {l : Lexeme} {f : Fault} {ls : List Lexeme}

theorem Reader.stepSelector_error {first : Lexeme} {asked : Place}
    (h : r.stepSelector first asked l = .error f) :
    f.offset = asked.offset ∧ l.token.Causes f.issue := by
  unfold stepSelector at h
  split at h
  · cases h
  · rename_i ht
    cases h
    exact ⟨rfl, ht⟩
  · rename_i ht
    cases h
    exact ⟨rfl, ht⟩
  · rename_i ht
    cases h
    exact ⟨rfl, ht⟩
  · rename_i ht
    split at h
    · cases h
      exact ⟨rfl, .curly, ht, rfl⟩
    · cases h
      exact ⟨rfl, ht⟩
  · rename_i b _ ht
    cases h
    exact ⟨rfl, b, ht, rfl⟩
  · cases h

theorem Reader.stepPrelude_error {p : Prelude} (h : r.stepPrelude p l = .error f) :
    f.offset = p.asked.offset ∧ l.token.Causes f.issue := by
  unfold stepPrelude at h
  split at h
  · cases h
  · dsimp only at h
    split at h <;> cases h
  · rename_i ht
    cases h
    exact ⟨rfl, ht⟩
  · rename_i ht
    cases h
    exact ⟨rfl, ht⟩
  · rename_i ht
    split at h
    · cases h
      exact ⟨rfl, .curly, ht, rfl⟩
    · cases h
  · cases h
  · cases h

/-- A lexeme is refused at the place at which it was asked for. -/
theorem Reader.step_error (h : r.step l = .error f) :
    ∃ asked, r.AsksAt l asked ∧ f.offset = asked.offset ∧ l.token.Causes f.issue := by
  unfold step at h
  split at h
  · rename_i hm
    unfold stepBetween at h
    split at h
    · cases h
    · cases h
    · cases h
    · cases h
    · cases h
    · split at h
      · exact ⟨l.start, .between hm, stepSelector_error h⟩
      · cases h
    · exact ⟨l.start, .between hm, stepSelector_error h⟩
  · rename_i p hm
    split at h
    · exact ⟨p.asked, .prelude hm ‹_›, stepPrelude_error h⟩
    · cases h
  · rename_i first asked nesting hm
    split at h
    · exact ⟨asked, .selector hm, stepSelector_error h⟩
    · cases h
  · split at h <;> cases h

/-- The run ends at the first lexeme that is refused. -/
theorem Reader.run_error (h : r.run ls = .error f) :
    ∃ before l after r', ls = before ++ l :: after ∧ r.run before = .ok r' ∧
      r'.step l = .error f := by
  induction ls generalizing r with
  | nil => cases h
  | cons l ls ih =>
    rw [run] at h
    split at h
    · rename_i r' hstep
      obtain ⟨before, k, after, r'', rfl, hrun, hrefused⟩ := ih h
      exact ⟨l :: before, k, after, r'', rfl, by rw [run_cons _ hstep, hrun], hrefused⟩
    · rename_i hstep
      cases h
      exact ⟨[], l, ls, r, rfl, rfl, hstep⟩

end Refusals

/-! ## Brackets that end -/

/-- The lexemes end with the end of a bracket other than a curly one, and `opener` opens it. -/
inductive EndsInGroup : List Lexeme → Lexeme → Prop where
  | intro {ls ms : List Lexeme} {opener closer : Lexeme} {b : Bracket}
      (ho : opener.token = .opening b) (hb : b ≠ .curly) (hms : Enclosed b ms)
      (hc : closer.token = .closing b) : EndsInGroup (ls ++ opener :: (ms ++ [closer])) opener

section Groups

variable {ls ms : List Lexeme} {l opener : Lexeme} {b : Bracket}

/-- A bracket that is not closed is open. -/
theorem bracketsAfter_opener (ls : List Lexeme) (ho : opener.token = .opening b)
    (hms : Enclosed b ms) :
    bracketsAfter [] (ls ++ opener :: ms) = b :: bracketsAfter [] ls := by
  rw [bracketsAfter_append, bracketsAfter_cons, ho, nestingAfter_opening,
    Balanced.bracketsAfter_inside hms fun _ => id]

theorem EndsInGroup.concat (h : EndsInGroup (ls ++ [l]) opener) :
    ∃ b outer, l.token = .closing b ∧ b ≠ .curly ∧ bracketsAfter [] ls = b :: outer := by
  generalize hls : ls ++ [l] = ks at h
  cases h with
  | @intro front ms opener closer b ho hb hms hc =>
    rw [← List.cons_append, ← List.append_assoc] at hls
    obtain ⟨rfl, hl⟩ := List.append_inj' hls rfl
    rw [List.singleton_inj.mp hl]
    exact ⟨b, _, hc, hb, bracketsAfter_opener front ho hms⟩

/-- Only one lexeme opens the bracket that ends. -/
theorem EndsInGroup.unique {opener' : Lexeme} (h : EndsInGroup ls opener)
    (h' : EndsInGroup ls opener') : opener = opener' := by
  have hclosed {ks ms qs : List Lexeme} {k k' : Lexeme} {b b' : Bracket} (hms : Enclosed b ms)
      (hk : k.token = .opening b') (hks : Enclosed b' ks)
      (heq : k' :: ms = qs ++ k :: ks) : k' = k := by
    cases qs with
    | nil => exact (List.cons.inj heq).1
    | cons q qs =>
      -- The bracket that `k` opens would still be open.
      have hopen := bracketsAfter_opener qs hk hks
      have hnone := hms.bracketsAfter_nil
      rw [(List.cons.inj heq).2] at hnone
      exact absurd (hnone.symm.trans hopen) (List.cons_ne_nil _ _).symm
  generalize hls : ls = ls' at h'
  cases h with
  | @intro front ms opener closer b ho hb hms hc =>
    cases h' with
    | @intro front' ms' opener' closer' b' ho' hb' hms' hc' =>
      rw [← List.cons_append, ← List.cons_append, ← List.append_assoc, ← List.append_assoc] at hls
      obtain ⟨heq, -⟩ := List.append_inj' hls rfl
      rcases List.append_eq_append_iff.mp heq with ⟨q, -, hq⟩ | ⟨q, -, hq⟩
      · exact hclosed hms ho' hms' hq
      · exact (hclosed hms' ho hms hq).symm

theorem not_endsInGroup (hl : ∀ b, b ≠ .curly → l.token ≠ .closing b) (opener : Lexeme) :
    ¬EndsInGroup (ls ++ [l]) opener := by
  intro h
  obtain ⟨b, -, hc, hb, -⟩ := h.concat
  exact hl b hb hc

end Groups

/-! ## The place at which the next lexeme is asked for -/

/-- Behind the lexemes, with the brackets open among them, the next lexeme is asked for at the
place. -/
inductive Asked : Place → List Bracket → List Lexeme → Prop where
  /-- The place is behind the last lexeme. -/
  | behind {ls : List Lexeme} {l : Lexeme} (hg : ∀ opener, ¬EndsInGroup (ls ++ [l]) opener) :
      Asked l.stop [] (ls ++ [l])
  /-- Inside of a bracket, it is behind the lexeme that opens the bracket. -/
  | inside {nesting : List Bracket} {ls ms : List Lexeme} {opener : Lexeme} {b : Bracket}
      (ho : opener.token = .opening b) (hb : b ≠ .curly)
      (hms : Leaves (· ≠ .closing b) nesting ms) :
      Asked opener.stop (nesting ++ [b]) (ls ++ opener :: ms)
  /-- It is still there when the bracket is closed. -/
  | group {ls ms : List Lexeme} {opener closer : Lexeme} {b : Bracket}
      (ho : opener.token = .opening b) (hb : b ≠ .curly) (hms : Enclosed b ms)
      (hc : closer.token = .closing b) : Asked opener.stop [] (ls ++ opener :: (ms ++ [closer]))

/-- The reader asks for the next lexeme at the right place, if it may refuse that one. -/
def Mode.Asked (ls : List Lexeme) : Mode → Prop
  | .between => ∀ opener, ¬EndsInGroup ls opener
  | .prelude p => Css.Asked p.asked p.nesting ls
  | .selector _ asked nesting => Css.Asked asked nesting ls
  | .block _ _ => True

section Asks

variable {r r' : Reader} {ls base : List Lexeme} {l : Lexeme} {asked : Place}
  {nesting : List Bracket}

theorem Asked.snoc {n : Nat} (hls : bracketsAfter [] ls = List.replicate n .curly)
    (hl : l.token ≠ .opening .curly) :
    Asked l.stop (nestingAfter l.token []) (ls ++ [l]) := by
  by_cases hopen : ∃ b, l.token = .opening b
  · obtain ⟨b, hb⟩ := hopen
    have hne : b ≠ .curly := by
      rintro rfl
      exact hl hb
    have hinside : Asked l.stop ([] ++ [b]) (ls ++ [l]) := .inside hb hne (.none .nil)
    rwa [hb, nestingAfter_opening]
  · rw [not_exists] at hopen
    rw [nestingAfter_nil hopen]
    refine .behind fun opener h => ?_
    obtain ⟨b, outer, -, hb, hopened⟩ := h.concat
    rw [hls] at hopened
    have hmem : b ∈ List.replicate n .curly := by simp [hopened]
    exact hb (List.eq_of_mem_replicate hmem)

theorem Asked.snocInside (h : Asked asked nesting ls) (hn : nesting ≠ []) :
    Asked asked (nestingAfter l.token nesting) (ls ++ [l]) := by
  cases h with
  | behind => exact absurd rfl hn
  | group => exact absurd rfl hn
  | @inside nesting ls ms opener b ho hb hms =>
    rw [List.append_assoc, List.cons_append]
    rcases hms.inside (l := l) with ⟨hnil, henclosed, hclose⟩ | ⟨nesting', hnesting, hleaves⟩
    · rw [hnil]
      exact .group ho hb henclosed hclose
    · rw [hnesting]
      exact .inside ho hb hleaves

/-! ## Open brackets -/

theorem Enclosed.bracketsAfter_documents (h : Enclosed .curly ls) (n : Nat) :
    bracketsAfter (List.replicate n .curly) ls = List.replicate n .curly := by
  cases n with
  | zero => exact Balanced.bracketsAfter_nil h
  | succ n => exact Balanced.bracketsAfter_inside h (fun _ => id) (List.replicate n .curly)

/-- Behind finished nodes, only the blocks of document rules are open. -/
theorem Framed.bracketsAfter {ds : List Document} {ns : List (Node Nat)} (h : Framed ds ns ls) :
    bracketsAfter [] ls = List.replicate ds.length .curly := by
  induction h with
  | sheet h => exact (h.enclosed (Or.inl rfl)).bracketsAfter_nil
  | @document d outer ns before head inner hb hh hd hi ih =>
    obtain ⟨front, opener, rfl, ho, hfront⟩ := hh.opener
    have hinner : Enclosed .curly inner := hi.enclosed (Or.inl rfl)
    rw [bracketsAfter_append, ih, bracketsAfter_append, bracketsAfter_append,
      hfront.bracketsAfter_documents, bracketsAfter_cons, ho, nestingAfter_opening]
    exact hinner.bracketsAfter_documents (outer.length + 1)

/-- Where the reader may refuse a lexeme, only the blocks of document rules are open. -/
theorem Reader.Reads.bracketsAfter (h : r.Reads ls) (ha : r.AsksAt l asked) :
    bracketsAfter [] ls = List.replicate r.documents.length .curly := by
  obtain ⟨base, current, rfl, hframed, hmode⟩ := h
  have hcurrent : Enclosed .curly current := by
    cases ha with
    | between hm =>
      rw [hm] at hmode
      obtain rfl : current = [] := hmode
      exact .nil
    | prelude hm hn =>
      rw [hm] at hmode
      obtain ⟨kept, lost, rfl, hparts, -⟩ := Prelude.Reads.outside hmode hn
      exact enclosed_keyword (Prelude.Reads.keyword hmode) hparts.balanced
    | selector hm =>
      rw [hm] at hmode
      obtain ⟨-, -, hleaves⟩ := hmode
      exact enclosed_of_selector hleaves.balanced
  rw [bracketsAfter_append, hframed.bracketsAfter, hcurrent.bracketsAfter_documents]

/-! ## Steps -/

theorem Reader.Selects.asksAt {first : Lexeme} (h : r.Selects l first) :
    ∃ asked, r.AsksAt l asked := by
  cases h with
  | begins hm => exact ⟨_, .between hm⟩
  | goesOn hm => exact ⟨_, .selector hm⟩

/-- A step of the reader moves the place at which it asks for the next lexeme. -/
theorem Mode.Asked.step (h : r.mode.Asked ls) (hr : r.Reads ls) (hstep : r.step l = .ok r') :
    r'.mode.Asked (ls ++ [l]) := by
  have hmark {t : Token} (ht : l.token = t) (hne : ∀ b, b ≠ .curly → t ≠ .closing b) :
      ∀ opener, ¬EndsInGroup (ls ++ [l]) opener :=
    not_endsInGroup fun b hb => ht ▸ hne b hb
  cases Reader.step_move hstep with
  | pass hm ht =>
    rw [hm]
    rcases ht with ht | ht | ht <;> exact hmark ht (by simp)
  | comment hm ht => exact hmark ht (by simp)
  | keyword hm ht => exact .behind (hmark ht (by simp))
  | leave hm ht hd => exact hmark ht (by simp [eq_comm])
  | select hs ht =>
    obtain ⟨asked, ha⟩ := hs.asksAt
    refine Asked.snoc (hr.bracketsAfter ha) fun hopen => ?_
    rw [hopen] at ht
    cases ht
  | selectInside hm =>
    rw [hm] at h
    exact Asked.snocInside h (List.cons_ne_nil _ _)
  | openRule hs ht => trivial
  | prelude hm hn ht =>
    refine Asked.snoc (hr.bracketsAfter (l := l) (.prelude hm hn)) fun hopen => ?_
    rw [hopen] at ht
    cases ht
  | @preludeSpace p hm hn ht =>
    have hbehind : Css.Asked l.stop [] (ls ++ [l]) := .behind (hmark ht (by simp))
    rw [← hn] at hbehind
    exact hbehind
  | preludeInside hm hn =>
    rw [hm] at h
    exact Asked.snocInside h hn
  | statement hm hn ht => exact hmark ht (by simp)
  | cutShort hm hn ht hd => exact hmark ht (by simp [eq_comm])
  | openDocument hm hn ht hname => exact hmark ht (by simp)
  | openBlock hm hn ht hname => trivial
  | inside hm hn => trivial
  | @close owner nesting hm hn =>
    obtain ⟨base, current, -, -, hmode⟩ := hr
    rw [hm] at hmode
    obtain ⟨_, _, inner, -, -, -, rfl, hleaves⟩ := hmode
    rcases hleaves.inside (l := l) with ⟨-, -, hclose⟩ | ⟨nesting', hnesting, -⟩
    · exact hmark hclose (by simp [eq_comm])
    · rw [hnesting] at hn
      simp at hn

theorem Mode.Asked.run (h : r.mode.Asked base) (hr : r.Reads base) (hrun : r.run ls = .ok r') :
    r'.mode.Asked (base ++ ls) := by
  induction ls generalizing r base with
  | nil =>
    cases hrun
    rwa [List.append_nil]
  | cons l ls ih =>
    rw [Reader.run] at hrun
    split at hrun
    · rename_i r₁ hstep
      have hrest := ih (h.step hr hstep) (hr.step hstep) hrun
      rwa [List.append_assoc] at hrest
    · cases hrun

end Asks

/-! ## The place that is reported -/

section Reports

variable {r : Reader} {text : List Char} {before after : List Lexeme} {l : Lexeme} {asked : Place}

theorem takeBytes_of_append {o : Nat} {s t : List Char} (ht : text = s ++ t)
    (ho : o = byteLength s) : takeBytes o text = s := by
  rw [ht, ho, takeBytes_append]

theorem takeBytes_start (h : lexemes (.start text) = before ++ l :: after) :
    takeBytes l.start.offset text = spelling (wordsOf before) := by
  obtain ⟨q, hq, hrest, hoffset⟩ := lexemes_eq_append h
  obtain ⟨hstart, -⟩ := lexemes_eq_cons hq
  refine takeBytes_of_append hrest ?_
  rw [hstart, hoffset]
  exact Nat.zero_add _

theorem takeBytes_stop (h : lexemes (.start text) = before ++ l :: after) :
    takeBytes l.stop.offset text = spelling (wordsOf (before ++ [l])) := by
  obtain ⟨q, hq, hrest, hoffset⟩ := lexemes_eq_append h
  obtain ⟨-, -, -, htext, hstop⟩ := lexemes_eq_cons hq
  have hspelling : spelling (wordsOf (before ++ [l])) = spelling (wordsOf before) ++ l.text := by
    simp [wordsOf, Lexeme.word]
  have hsplit : text = spelling (wordsOf before) ++ l.text ++ l.stop.rest := by
    rw [List.append_assoc, ← htext]
    exact hrest
  rw [hspelling]
  refine takeBytes_of_append hsplit ?_
  rw [hstop, hoffset, byteLength_append]
  simp [Place.start]

/-- Behind a bracket, the place behind the lexeme that opens it is another one. -/
theorem EndsInGroup.tokenPlace_ne {opener : Lexeme} (h : EndsInGroup before opener)
    (hls : lexemes (.start text) = before ++ l :: after) :
    tokenPlace text opener.stop.offset ≠ tokenPlace text l.start.offset := by
  cases h with
  | @intro front ms opener closer b ho hb hms hc =>
    have hcloser : closer ∈ lexemes (.start text) := by simp [hls]
    have htext : closer.text = [b.closer] :=
      Word.text_of_spelling (word_mem_words hcloser) (by rw [Lexeme.word, hc]; rfl)
    have hopener : lexemes (.start text) = front ++ opener :: (ms ++ [closer] ++ l :: after) := by
      simp [hls]
    have hspelling : spelling (wordsOf (front ++ opener :: (ms ++ [closer]))) =
        spelling (wordsOf (front ++ [opener])) ++ (spelling (wordsOf ms) ++ [b.closer]) := by
      simp [wordsOf, Lexeme.word, htext]
    unfold tokenPlace
    rw [takeBytes_stop hopener, takeBytes_start hls, hspelling]
    exact (lineColumn_ne (by cases b <;> rfl) _ _).symm

theorem Asked.tokenPlace (h : Asked asked [] before)
    (hls : lexemes (.start text) = before ++ l :: after) :
    (tokenPlace text asked.offset = tokenPlace text l.start.offset ↔
        ∀ opener, ¬EndsInGroup before opener) ∧
      ∀ opener, EndsInGroup before opener → asked = opener.stop := by
  generalize hn : ([] : List Bracket) = nesting at h
  cases h with
  | @behind init k hg =>
    refine ⟨⟨fun _ => hg, fun _ => ?_⟩, fun opener h => absurd h (hg opener)⟩
    have hk : lexemes (.start text) = init ++ k :: (l :: after) := by simp [hls]
    unfold Css.tokenPlace
    rw [takeBytes_stop hk, takeBytes_start hls]
  | inside => simp at hn
  | @group init ms opener closer b ho hb hms hc =>
    have hends : EndsInGroup (init ++ opener :: (ms ++ [closer])) opener := .intro ho hb hms hc
    refine ⟨⟨fun heq => absurd heq (hends.tokenPlace_ne hls), fun hnone => ?_⟩, fun _ h => ?_⟩
    · exact absurd hends (hnone opener)
    · rw [hends.unique h]

/-- The place at which the lexeme is asked for is where it begins, unless a bracket ends there. -/
theorem Reader.AsksAt.tokenPlace (ha : r.AsksAt l asked) (h : r.mode.Asked before)
    (hls : lexemes (.start text) = before ++ l :: after) :
    (tokenPlace text asked.offset = tokenPlace text l.start.offset ↔
        ∀ opener, ¬EndsInGroup before opener) ∧
      ∀ opener, EndsInGroup before opener → asked = opener.stop := by
  cases ha with
  | between hm =>
    rw [hm] at h
    exact ⟨⟨fun _ => h, fun _ => rfl⟩, fun opener hends => absurd hends (h opener)⟩
  | prelude hm hn =>
    rw [hm, Mode.Asked, hn] at h
    exact h.tokenPlace hls
  | selector hm =>
    rw [hm] at h
    exact Asked.tokenPlace h hls

end Reports

/-! ## Texts that are rejected -/

theorem Reader.finish_error {r : Reader} {f : Fault} {stop : Nat} {last? : Option Nat}
    (h : r.finish stop last? = .error f) :
    f.issue = .missingBlock ∨ f.issue = .unclosedBlock := by
  have hclose {r : Reader} (h : r.closeAll stop last? = .error f) : f.issue = .unclosedBlock := by
    unfold closeAll at h
    split at h <;> cases h
    rfl
  unfold finish at h
  split at h
  · exact Or.inr (hclose h)
  · exact Or.inr (hclose h)
  · cases h
    exact Or.inl rfl
  · split at h
    · cases h
      exact Or.inr rfl
    · exact Or.inr (hclose h)

theorem parse_eq_error {css : String} {e : Error} (h : parse css = .error e) :
    ∃ f, readNodes css.toList = .error f ∧ e = .invalidCss f.issue
      (tokenPlace css.toList f.offset).1 (tokenPlace css.toList f.offset).2 := by
  unfold parse at h
  split at h
  · rename_i f hf
    cases h
    exact ⟨f, hf, rfl⟩
  · cases h

/-- A text that is rejected for one of its tokens is rejected at the first lexeme that the reader
refuses. The line and the column that are reported are those of this lexeme if and only if no
bracket ends in front of it; otherwise they are those behind the lexeme that opens the bracket. -/
theorem parse_fault_place {css : String} {issue : SyntaxIssue} {line column : Nat}
    (h : parse css = .error (.invalidCss issue line column)) (hm : issue ≠ .missingBlock)
    (hu : issue ≠ .unclosedBlock) :
    ∃ before l after, lexemes (.start css.toList) = before ++ l :: after ∧
      (∃ r f, Reader.start.run before = .ok r ∧ r.step l = .error f) ∧ l.token.Causes issue ∧
      ((line, column) = tokenPlace css.toList l.start.offset ↔
        ∀ opener, ¬EndsInGroup before opener) ∧
      ∀ opener, EndsInGroup before opener →
        (line, column) = tokenPlace css.toList opener.stop.offset := by
  obtain ⟨f, hread, herror⟩ := parse_eq_error h
  cases herror
  unfold readNodes at hread
  split at hread
  · rename_i f' hrun
    cases hread
    obtain ⟨before, l, after, r, hls, hbefore, hstep⟩ := Reader.run_error hrun
    obtain ⟨asked, hasks, hoffset, hcauses⟩ := Reader.step_error hstep
    have hreads : Reader.start.Reads [] := Reader.reads_of_between rfl (.sheet .nil)
    have hstart : Reader.start.mode.Asked [] := by
      rintro opener h
      generalize hnil : ([] : List Lexeme) = ls at h
      cases h
      simp at hnil
    obtain ⟨hplace, hopener⟩ := hasks.tokenPlace (hstart.run hreads hbefore) hls
    refine ⟨before, l, after, hls, ⟨r, f, hbefore, hstep⟩, hcauses, ?_, fun opener hends => ?_⟩
    · rw [hoffset]
      exact hplace
    · rw [hoffset, hopener opener hends]
  · rcases Reader.finish_error hread with hissue | hissue
    · exact absurd hissue hm
    · exact absurd hissue hu

theorem parse_eq_error_iff {css : String} {e : Error} :
    parse css = .error e ↔
      (match parse css with
        | .error e => some e
        | .ok _ => none) = some e := by
  cases parse css <;> simp

/-- A bracket that ends on another line than it begins, in a document block. -/
theorem parse_fault_place_lines :
    parse "@-moz-document domain(a) \x7b\nb[\n]) \x7b\x7d" =
        .error (.invalidCss (.strayToken ')') 2 3) ∧
      ∃ before l after,
        lexemes (.start "@-moz-document domain(a) \x7b\nb[\n]) \x7b\x7d".toList) =
          before ++ l :: after ∧
        l.token = .closing .round ∧
        ∀ opener, EndsInGroup before opener →
          (2, 3) = tokenPlace "@-moz-document domain(a) \x7b\nb[\n]) \x7b\x7d".toList
            opener.stop.offset := by
  have herror : parse "@-moz-document domain(a) \x7b\nb[\n]) \x7b\x7d" =
      .error (.invalidCss (.strayToken ')') 2 3) := parse_eq_error_iff.mpr (by decide +kernel)
  obtain ⟨before, l, after, hls, -, hcauses, -, hplace⟩ :=
    parse_fault_place herror (by decide) (by decide)
  refine ⟨herror, before, l, after, hls, ?_, hplace⟩
  obtain ⟨b, ht, hb⟩ := hcauses
  cases b with
  | round => exact ht
  | square | curly => cases hb

/-- Behind a function, a semicolon is reported at the argument of the function. -/
theorem parse_fault_behind_function :
    parse "a(b);" = .error (.invalidCss .unexpectedSemicolon 1 3) ∧
      (lexemes (.start "a(b);".toList)).map
          (fun l => (l.token, tokenPlace "a(b);".toList l.start.offset)) =
        [(.opening .round, (1, 1)), (.plain, (1, 3)), (.closing .round, (1, 4)),
          (.semicolon, (1, 5))] :=
  ⟨parse_eq_error_iff.mpr (by decide +kernel), by decide +kernel⟩

end Userstyle.Css
