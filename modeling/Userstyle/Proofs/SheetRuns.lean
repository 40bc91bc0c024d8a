import Userstyle.Proofs.SheetReading

/-!
# The grammar leads the reader

The converse of reading: lexemes that make up nodes by the grammar take the reader from between two
nodes to where the grammar says that they end (`Reader.Left`), with these nodes. With it a text is
split into nodes if and only if its lexemes are a style sheet with these nodes that does not end in
a selector, and in which no block is open or a closing curly bracket is the last character
(`readNodes_eq_ok_iff`).
-/

namespace Userstyle.Css

open Source Text

section Runs

variable {r r' r'' : Reader} {ls ms : List Lexeme} {l first : Lexeme} {p : Prelude}

theorem Reader.run_append (ms : List Lexeme) (h : r.run ls = .ok r') :
    r.run (ls ++ ms) = r'.run ms := by
  induction ls generalizing r with
  | nil =>
    cases h
    rfl
  | cons l ls ih =>
    rw [Reader.run] at h
    rw [List.cons_append, Reader.run]
    split at h
    · exact ih h
    · cases h

theorem Reader.run_singleton (h : r.step l = .ok r') : r.run [l] = .ok r' := by
  rw [Reader.run, h]
  rfl

theorem Reader.run_snoc (h : r.run ls = .ok r') (hs : r'.step l = .ok r'') :
    r.run (ls ++ [l]) = .ok r'' := by
  rw [run_append [l] h, run_singleton hs]

theorem Reader.run_cons (ls : List Lexeme) (h : r.step l = .ok r') :
    r.run (l :: ls) = r'.run ls :=
  run_append ls (run_singleton h)

/-! ## Inside of brackets -/

/-- A reader in one of the states keeps count of open brackets as long as some are open. -/
def Counts (state : List Bracket → Reader) : Prop :=
  ∀ (nesting : List Bracket) (l : Lexeme), nesting ≠ [] → nestingAfter l.token nesting ≠ [] →
    (state nesting).step l = .ok (state (nestingAfter l.token nesting))

theorem Counts.opens {state : List Bracket → Reader} (hs : Counts state) {b c : Bracket}
    (outer : List Bracket) (hl : l.token = .opening b) :
    (state (c :: outer)).step l = .ok (state (b :: c :: outer)) := by
  have hafter : nestingAfter l.token (c :: outer) = b :: c :: outer := by
    rw [hl, nestingAfter_opening]
  rw [hs _ _ (List.cons_ne_nil c outer) (by simp [hafter]), hafter]

theorem Balanced.run_inside {state : List Bracket → Reader} {ok : Token → Prop}
    (h : Balanced ok ls) (hs : Counts state) {b : Bracket} (hok : ∀ t, ok t → t ≠ .closing b)
    (outer : List Bracket) : (state (b :: outer)).run ls = .ok (state (b :: outer)) := by
  induction h generalizing b outer with
  | nil => rfl
  | @mark ok ls l h hl hopen ih =>
    refine Reader.run_snoc (ih hok outer) ?_
    have hafter := nestingAfter_of_ne outer hopen (hok _ hl)
    rw [hs _ _ (List.cons_ne_nil b outer) (by simp [hafter]), hafter]
  | @group ok ls ms l m c h hl hc hms hm ih ihms =>
    rw [Reader.run_append _ (ih hok outer), Reader.run_cons _ (hs.opens outer hc)]
    refine Reader.run_snoc (ihms (fun _ => id) (b :: outer)) ?_
    have hafter : nestingAfter m.token (c :: b :: outer) = b :: outer := by
      rw [hm, nestingAfter_closing]
    rw [hs _ _ (List.cons_ne_nil c _) (by simp [hafter]), hafter]

theorem Enclosed.run_inside {state : List Bracket → Reader} {b : Bracket} (h : Enclosed b ls)
    (hs : Counts state) (outer : List Bracket) :
    (state (b :: outer)).run ls = .ok (state (b :: outer)) :=
  Balanced.run_inside h hs (fun _ => id) outer

/-- Lexemes inside of a bracket open the brackets that they leave open. -/
theorem Leaves.run_inside {state : List Bracket → Reader} {b : Bracket} {nesting : List Bracket}
    (h : Leaves (· ≠ .closing b) nesting ls) (hs : Counts state) (outer : List Bracket) :
    (state (b :: outer)).run ls = .ok (state (nesting ++ b :: outer)) := by
  induction h with
  | none h => exact Enclosed.run_inside h hs outer
  | @more nesting ls ms l c h hok hl hms ih =>
    rw [Reader.run_append _ ih]
    cases hn : nesting ++ b :: outer with
    | nil => simp at hn
    | cons d rest =>
      rw [Reader.run_cons _ (hs.opens rest hl), Enclosed.run_inside hms hs, List.cons_append, hn]

theorem counts_block (r : Reader) (owner : Owner) :
    Counts fun nesting => { r with mode := .block owner nesting } := by
  intro nesting l hn hafter
  cases hnesting : nestingAfter l.token nesting with
  | nil => exact absurd hnesting hafter
  | cons b outer => simp [Reader.step, hnesting]

theorem counts_selector (r : Reader) (first : Lexeme) (asked : Place) :
    Counts fun nesting => { r with mode := .selector first asked nesting } := by
  intro nesting l hn hafter
  cases nesting with
  | nil => exact absurd rfl hn
  | cons b outer => rfl

theorem counts_prelude (r : Reader) (p : Prelude) :
    Counts fun nesting => { r with mode := .prelude { p with nesting := nesting } } := by
  intro nesting l hn hafter
  cases nesting with
  | nil => exact absurd rfl hn
  | cons b outer => rfl

/-! ## Selectors -/

theorem Reader.stepBetween_of_beginsRule (hb : l.token.BeginsRule) :
    r.stepBetween l = r.stepSelector l l.start l := by
  cases ht : l.token with
  | opening b => simp [stepBetween, ht]
  | plain => simp [stepBetween, ht]
  | _ =>
    rw [ht] at hb
    exact hb.elim

theorem Reader.step_select (hs : r.Selects l first) (ht : l.token.InSelector)
    (hb : r.mode = .between → l.token.BeginsRule) :
    r.step l = .ok { r with mode := .selector first l.stop (nestingAfter l.token []) } := by
  have hselect : ∀ asked, r.stepSelector first asked l =
      .ok { r with mode := .selector first l.stop (nestingAfter l.token []) } := by
    intro asked
    unfold stepSelector
    unfold Token.InSelector at ht
    split <;> simp_all
  cases hs with
  | goesOn hm =>
    rw [step, hm]
    exact hselect _
  | begins hm =>
    rw [step, hm]
    exact (stepBetween_of_beginsRule (hb hm)).trans (hselect _)

theorem Reader.step_openRule (hs : r.Selects l first) (ht : l.token = .opening .curly) :
    r.step l = .ok { r with mode := .block (.rule first) [.curly] } := by
  cases hs with
  | goesOn hm => simp [step, hm, stepSelector, ht]
  | begins hm => simp [step, hm, stepBetween, stepSelector, ht]

/-- Where a reader stands behind lexemes with which it has begun to select. -/
def Reader.Selecting (r : Reader) (first : Lexeme) (ls : List Lexeme) (r' : Reader) : Prop :=
  ls = [] ∧ r' = r ∨
    ∃ asked, ls.head? = some first ∧ r' = { r with mode := .selector first asked [] }

theorem Reader.Selecting.selects (h : r.Selecting first ls r') (hm : r.mode = .between)
    (hf : (ls ++ [l]).head? = some first) : r'.Selects l first := by
  rcases h with ⟨rfl, rfl⟩ | ⟨asked, hhead, rfl⟩
  · obtain rfl : l = first := Option.some.inj hf
    exact .begins hm
  · exact .goesOn rfl

theorem Reader.Selecting.step (h : r.Selecting first ls r') (hm : r.mode = .between)
    (hf : (ls ++ [l]).head? = some first) (hb : first.token.BeginsRule)
    (ht : l.token.InSelector) :
    r'.step l = .ok { r with mode := .selector first l.stop (nestingAfter l.token []) } := by
  have hselects := h.selects hm hf
  rcases h with ⟨rfl, rfl⟩ | ⟨asked, hhead, rfl⟩
  · obtain rfl : l = first := Option.some.inj hf
    exact step_select hselects ht fun _ => hb
  · exact step_select hselects ht fun hbetween => Mode.noConfusion hbetween

theorem head?_of_append {ls ms : List Lexeme} {l : Lexeme}
    (h : (ls ++ l :: ms).head? = some first) : (ls ++ [l]).head? = some first := by
  cases ls with
  | nil => exact h
  | cons k ls => exact h

theorem Balanced.run_selector (h : Balanced Token.InSelector ls) (hm : r.mode = .between)
    (hf : ∀ k ∈ ls.head?, k = first) (hb : first.token.BeginsRule) :
    ∃ r', r.run ls = .ok r' ∧ r.Selecting first ls r' := by
  generalize hok : Token.InSelector = ok at h
  induction h with
  | nil => exact ⟨r, rfl, Or.inl ⟨rfl, rfl⟩⟩
  | @mark ok ls l h ht hopen ih =>
    subst hok
    obtain ⟨k, hk⟩ : ∃ k, (ls ++ [l]).head? = some k := by
      cases ls <;> exact ⟨_, rfl⟩
    obtain rfl := hf k hk
    obtain ⟨r₁, hrun, hselecting⟩ := ih (fun k hk => hf k (head?_snoc l hk)) rfl
    have hstep := hselecting.step hm hk hb ht
    rw [nestingAfter_nil hopen] at hstep
    exact ⟨_, Reader.run_snoc hrun hstep, Or.inr ⟨_, hk, rfl⟩⟩
  | @group ok ls ms l m b h ht hl hms hm' ih _ =>
    subst hok
    obtain ⟨k, hk⟩ : ∃ k, (ls ++ l :: (ms ++ [m])).head? = some k := by
      cases ls <;> exact ⟨_, rfl⟩
    obtain rfl := hf k hk
    have hfirst := head?_of_append hk
    obtain ⟨r₁, hrun, hselecting⟩ := ih (fun k hk => hf k (by rw [List.head?_append, hk]; rfl)) rfl
    have hstep := hselecting.step hm hfirst hb ht
    rw [hl, nestingAfter_opening] at hstep
    have hinside := Enclosed.run_inside hms (counts_selector r k l.stop) []
    refine ⟨{ r with mode := .selector k l.stop [] }, ?_, Or.inr ⟨_, hk, rfl⟩⟩
    rw [Reader.run_append _ hrun, Reader.run_cons _ hstep]
    refine Reader.run_snoc hinside ?_
    simp [Reader.step, hm', nestingAfter_closing]

theorem forall_head?_of_append (hf : (ls ++ ms).head? = some first) :
    ∀ k ∈ ls.head?, k = first := by
  intro k hk
  rw [List.head?_append, hk] at hf
  exact Option.some.inj hf

theorem Leaves.run_selector {nesting : List Bracket} (h : Leaves Token.InSelector nesting ls)
    (hm : r.mode = .between) (hf : ls.head? = some first) (hb : first.token.BeginsRule) :
    ∃ asked, r.run ls = .ok { r with mode := .selector first asked nesting } := by
  induction h with
  | @none ls h =>
    have hhead : ∀ k ∈ ls.head?, k = first := fun k hk => Option.some.inj (hk.symm.trans hf)
    obtain ⟨r₁, hrun, hselecting⟩ := h.run_selector hm hhead hb
    rcases hselecting with ⟨rfl, -⟩ | ⟨asked, -, rfl⟩
    · cases hf
    · exact ⟨asked, hrun⟩
  | @more nesting ls ms l b h ht hl hms ih =>
    cases nesting with
    | nil =>
      -- The first bracket that stays open stands outside of all others.
      obtain ⟨r₁, hrun, hselecting⟩ := h.balanced.run_selector hm (forall_head?_of_append hf) hb
      have hstep := hselecting.step hm (head?_of_append hf) hb (ht rfl)
      rw [hl, nestingAfter_opening] at hstep
      refine ⟨l.stop, ?_⟩
      rw [Reader.run_append _ hrun, Reader.run_cons _ hstep]
      exact Enclosed.run_inside hms (counts_selector r first l.stop) []
    | cons c outer =>
      have hne : ls ≠ [] := by
        cases h
        simp
      rw [List.head?_append_of_ne_nil _ hne] at hf
      obtain ⟨asked, hrun⟩ := ih hf
      have hcounts := counts_selector r first asked
      refine ⟨asked, ?_⟩
      rw [Reader.run_append _ hrun, Reader.run_cons _ (hcounts.opens outer hl)]
      exact Enclosed.run_inside hms hcounts (c :: outer)

/-! ## Preludes -/

/-- The reader is in the prelude of an at-rule whose last lexeme outside of brackets, or keyword, is
`last`. -/
structure Prelude.At (p : Prelude) (keyword : Lexeme) (name : String) (nesting : List Bracket)
    (last : Lexeme) : Prop where
  keyword : p.keyword = keyword
  name : p.name = name
  nesting : p.nesting = nesting
  asked : p.asked = last.stop
  last : last.token ≠ .space → p.last = last

theorem Reader.step_prelude {keyword last : Lexeme} {name : String} (hm : r.mode = .prelude p)
    (hp : p.At keyword name [] last) (ht : l.token.InPrelude) :
    ∃ q, r.step l = .ok { r with mode := .prelude q } ∧
      q.At keyword name (nestingAfter l.token []) l := by
  have hstep : r.step l = r.stepPrelude p l := by simp [step, hm, hp.nesting]
  by_cases hspace : l.token = .space
  · refine ⟨{ p with asked := l.stop }, ?_, hp.keyword, hp.name, ?_, rfl, fun h => absurd hspace h⟩
    · rw [hstep, stepPrelude]
      simp only [hspace]
    · rw [hspace]
      exact hp.nesting
  · refine ⟨{ p with last := l, asked := l.stop, nesting := nestingAfter l.token [] }, ?_,
      hp.keyword, hp.name, rfl, rfl, fun _ => rfl⟩
    rw [hstep]
    unfold stepPrelude
    unfold Token.InPrelude at ht
    split <;> simp_all

/-- A bracket in a prelude leaves the lexeme that opens it as the last one. -/
theorem Reader.run_group {keyword last m : Lexeme} {name : String} {b : Bracket}
    (hr : r.mode = .prelude p) (hp : p.At keyword name [] last) (ht : l.token.InPrelude)
    (hl : l.token = .opening b) (hms : Enclosed b ms) (hm : m.token = .closing b) :
    ∃ q, r.run (l :: (ms ++ [m])) = .ok { r with mode := .prelude q } ∧ q.At keyword name [] l := by
  obtain ⟨q, hstep, hq⟩ := step_prelude hr hp ht
  rw [hl, nestingAfter_opening] at hq
  refine ⟨{ q with nesting := [] }, ?_, hq.keyword, hq.name, rfl, hq.asked, hq.last⟩
  have hinside := Enclosed.run_inside hms (counts_prelude r q) []
  have hopened : { q with nesting := [b] } = q := by rw [← hq.nesting]
  rw [hopened] at hinside
  rw [run_cons _ hstep]
  refine run_snoc hinside ?_
  simp [step, hm, hq.nesting, nestingAfter_closing]

theorem Balanced.run_prelude {keyword last : Lexeme} {name : String}
    (h : Balanced Token.InPrelude ls) (hm : r.mode = .prelude p)
    (hp : p.At keyword name [] last) :
    ∃ q last', r.run ls = .ok { r with mode := .prelude q } ∧ q.At keyword name [] last' := by
  generalize hok : Token.InPrelude = ok at h
  induction h with
  | nil =>
    refine ⟨p, last, ?_, hp⟩
    rw [← hm]
    rfl
  | @mark ok ls l h ht hopen ih =>
    subst hok
    obtain ⟨q, last', hrun, hq⟩ := ih rfl
    obtain ⟨q', hstep, hq'⟩ :=
      Reader.step_prelude (r := { r with mode := .prelude q }) rfl hq ht
    rw [nestingAfter_nil hopen] at hq'
    exact ⟨q', l, Reader.run_snoc hrun hstep, hq'⟩
  | @group ok ls ms l m b h ht hl hms hm' ih _ =>
    subst hok
    obtain ⟨q, last', hrun, hq⟩ := ih rfl
    obtain ⟨q', hgroup, hq'⟩ :=
      Reader.run_group (r := { r with mode := .prelude q }) rfl hq ht hl hms hm'
    exact ⟨q', l, by rw [Reader.run_append _ hrun, hgroup], hq'⟩

theorem PreludeParts.run {nesting : List Bracket} {kept lost : List Lexeme} {keyword : Lexeme}
    {name : String} (h : PreludeParts nesting kept lost) (hm : r.mode = .prelude p)
    (hp : p.At keyword name [] keyword) :
    ∃ q, r.run (kept ++ lost) = .ok { r with mode := .prelude q } ∧
      q.At keyword name nesting (kept.getLastD keyword) := by
  cases h with
  | nil =>
    refine ⟨p, ?_, hp⟩
    rw [← hm]
    rfl
  | @mark ls l h ht hopen =>
    obtain ⟨q, last, hrun, hq⟩ := h.run_prelude hm hp
    obtain ⟨q', hstep, hq'⟩ :=
      Reader.step_prelude (r := { r with mode := .prelude q }) rfl hq ht
    rw [nestingAfter_nil hopen] at hq'
    refine ⟨q', ?_, by simpa using hq'⟩
    rw [List.append_nil]
    exact Reader.run_snoc hrun hstep
  | @inside nesting ls ms l b h ht hl hms =>
    obtain ⟨q, last, hrun, hq⟩ := h.run_prelude hm hp
    obtain ⟨q', hstep, hq'⟩ :=
      Reader.step_prelude (r := { r with mode := .prelude q }) rfl hq ht
    rw [hl, nestingAfter_opening] at hq'
    have hinside := hms.run_inside (counts_prelude r q') []
    have hopened : { q' with nesting := [b] } = q' := by rw [← hq'.nesting]
    rw [hopened] at hinside
    refine ⟨{ q' with nesting := nesting ++ [b] }, ?_, hq'.keyword, hq'.name, rfl,
      by simpa using hq'.asked, by simpa using hq'.last⟩
    rw [Reader.run_append _ (Reader.run_snoc hrun hstep)]
    exact hinside
  | @group ls ms l m b h ht hl hms hm' =>
    obtain ⟨q, last, hrun, hq⟩ := h.run_prelude hm hp
    obtain ⟨q', hgroup, hq'⟩ :=
      Reader.run_group (r := { r with mode := .prelude q }) rfl hq ht hl hms hm'
    refine ⟨q', ?_, by simpa using hq'⟩
    rw [List.append_assoc, Reader.run_append _ hrun]
    exact hgroup

theorem Reader.run_spaces {spaces : List Lexeme} (hm : r.mode = .prelude p) (hn : p.nesting = [])
    (hs : ∀ l ∈ spaces, l.token = .space) :
    ∃ q, r.run spaces = .ok { r with mode := .prelude q } ∧ q.nesting = [] ∧
      q.cutShort = p.cutShort := by
  induction spaces generalizing r p with
  | nil =>
    refine ⟨p, ?_, hn, rfl⟩
    rw [← hm]
    rfl
  | cons l spaces ih =>
    rw [List.forall_mem_cons] at hs
    have hstep : r.step l = .ok { r with mode := .prelude { p with asked := l.stop } } := by
      simp [step, hm, hn, stepPrelude, hs.1]
    obtain ⟨q, hrun, hq, hcut⟩ :=
      ih (r := { r with mode := .prelude { p with asked := l.stop } }) rfl hn hs.2
    exact ⟨q, by rw [run_cons _ hstep, hrun], hq, hcut⟩

theorem PreludeParts.run_keyword {nesting : List Bracket} {kept lost : List Lexeme}
    {keyword : Lexeme} {name : String} (h : PreludeParts nesting kept lost)
    (hm : r.mode = .between) (hk : keyword.token = .atKeyword name) :
    ∃ q, r.run (keyword :: (kept ++ lost)) = .ok { r with mode := .prelude q } ∧
      q.At keyword name nesting (kept.getLastD keyword) := by
  have hstep : r.step keyword =
      .ok { r with mode := .prelude ⟨keyword, name, keyword, keyword.stop, []⟩ } := by
    simp [Reader.step, hm, Reader.stepBetween, hk]
  have hat : Prelude.At ⟨keyword, name, keyword, keyword.stop, []⟩ keyword name [] keyword :=
    ⟨rfl, rfl, rfl, rfl, fun _ => rfl⟩
  obtain ⟨q, hrun, hq⟩ := h.run
    (r := { r with mode := .prelude ⟨keyword, name, keyword, keyword.stop, []⟩ }) rfl hat
  exact ⟨q, by rw [Reader.run_cons _ hstep, hrun], hq⟩

/-- The parameters of an at-rule whose prelude ends where the reader is. -/
theorem Prelude.At.params {keyword last : Lexeme} {name : String} {nesting : List Bracket}
    (h : p.At keyword name nesting last) : p.params p.asked = paramsBetween keyword last := by
  rw [Prelude.params, h.keyword, h.asked]
  rfl

theorem Prelude.At.cutShort {keyword last : Lexeme} {name : String} {nesting : List Bracket}
    (h : p.At keyword name nesting last) (hl : last.token ≠ .space) :
    p.cutShort =
      .atRule name (paramsBetween keyword last) [] ⟨keyword.start.offset, last.lastOffset⟩ := by
  rw [Prelude.cutShort, Prelude.statement, h.name, h.last hl, Prelude.params, h.keyword]
  rfl

/-! ## Nodes -/

theorem Owner.Heads.run {owner : Owner} {head : List Lexeme} (h : owner.Heads head)
    (hm : r.mode = .between) :
    r.run head = .ok (if owner.isDocument then ⟨.between, [], ⟨owner, r.nodes⟩ :: r.documents⟩
      else { r with mode := .block owner [.curly] }) := by
  cases h with
  | @rule selector opener first h ho hf hb =>
    obtain ⟨r₁, hrun, hselecting⟩ := h.run_selector hm (forall_head?_of_append hf) hb
    refine Reader.run_snoc hrun ?_
    have hstep := Reader.step_openRule (hselecting.selects hm hf) ho
    rw [hstep]
    rcases hselecting with ⟨-, rfl⟩ | ⟨asked, -, rfl⟩ <;> rfl
  | @atRule keyword opener name kept lost hk hp ho =>
    obtain ⟨q, hrun, hq⟩ := hp.run_keyword hm hk
    rw [← List.cons_append]
    refine Reader.run_snoc hrun ?_
    rw [← hq.params]
    obtain rfl := hq.keyword
    obtain rfl := hq.name
    by_cases hname : isDocumentName q.name = true
    · simp [Reader.step, hq.nesting, Reader.stepPrelude, ho, isDocument, hname]
    · simp [Reader.step, hq.nesting, Reader.stepPrelude, ho, isDocument, hname]

/-- Adds finished nodes. -/
def Reader.addAll (r : Reader) (ns : List (Node Nat)) : Reader :=
  ⟨.between, r.nodes ++ ns, r.documents⟩

theorem Leaf.run {n : Node Nat} (h : Leaf n ls) (hm : r.mode = .between) :
    r.run ls = .ok (r.addAll [n]) := by
  cases h with
  | comment hl =>
    refine Reader.run_singleton ?_
    simp [Reader.step, hm, Reader.stepBetween, hl, Reader.push, Reader.addAll]
  | @statement keyword semicolon name kept lost hk hp hs =>
    obtain ⟨q, hrun, hq⟩ := hp.run_keyword hm hk
    rw [← List.cons_append]
    refine Reader.run_snoc hrun ?_
    rw [← hq.params]
    obtain rfl := hq.keyword
    obtain rfl := hq.name
    simp [Reader.step, hq.nesting, Reader.stepPrelude, hs, Reader.push, Reader.addAll,
      Prelude.statement]
  | @block owner head body closer hh hd hb hc =>
    have hrun := hh.run hm
    rw [hd] at hrun
    have hinside := Enclosed.run_inside hb (counts_block r owner) []
    rw [Reader.run_append _ hrun]
    refine Reader.run_snoc hinside ?_
    simp [Reader.step, hc, nestingAfter_closing, Reader.push, Reader.addAll]

/-! ## Style sheets -/

theorem Reader.step_gap (hm : r.mode = .between) (hl : l.token.IsGap) : r.step l = .ok r := by
  unfold Token.IsGap at hl
  rw [step, hm]
  unfold stepBetween
  dsimp only
  split <;> simp_all

/-- Where a style sheet takes a reader that is between two nodes, if the last lexeme of the sheet
ends with the character at the offset `last`. -/
inductive Reader.Left (last : Nat) : Reader → Ending → Bool → List (Node Nat) → Reader → Prop where
  | between (r : Reader) (ns : List (Node Nat)) : Left last r .between false ns (r.addAll ns)
  | prelude (r : Reader) (ns : List (Node Nat)) (p : Prelude) :
      Left last r (.prelude p.nesting) false (ns ++ [p.cutShort])
        ⟨.prelude p, r.nodes ++ ns, r.documents⟩
  | selector (r : Reader) (ns : List (Node Nat)) (first : Lexeme) (asked : Place)
      (nesting : List Bracket) :
      Left last r .selector false ns ⟨.selector first asked nesting, r.nodes ++ ns, r.documents⟩
  | block (r : Reader) (ns : List (Node Nat)) (owner : Owner) (nesting : List Bracket) :
      Left last r .block true (ns ++ [owner.node [] last])
        ⟨.block owner nesting, r.nodes ++ ns, r.documents⟩
  | document {r' : Reader} {ending : Ending} {isOpen : Bool} (r : Reader)
      (ns children : List (Node Nat)) (owner : Owner)
      (h : Left last ⟨.between, [], ⟨owner, r.nodes ++ ns⟩ :: r.documents⟩ ending isOpen children
        r') : Left last r ending true (ns ++ [owner.node children last]) r'

theorem Reader.addAll_addAll (r : Reader) (ns ns' : List (Node Nat)) :
    (r.addAll ns).addAll ns' = r.addAll (ns ++ ns') := by
  simp [addAll]

theorem Reader.addAll_nil (hm : r.mode = .between) : r.addAll [] = r := by
  simp [addAll, ← hm]

theorem Reader.Left.of_false {last : Nat} {ns : List (Node Nat)}
    (h : r.Left last .between false ns r') : r' = r.addAll ns := by
  cases h with
  | between => rfl

/-- The end of a document block closes the block, and an at-rule at its end is cut short. -/
theorem Reader.Left.step {last : Nat} {ending : Ending} {children : List (Node Nat)} {d : Document}
    (h : r.Left last ending false children r') (he : ending = .between ∨ ending = .prelude [])
    {outer : List Document} (hr : r.nodes = []) (hd : r.documents = d :: outer)
    (hl : l.token = .closing .curly) :
    r'.step l = .ok ⟨.between, d.before ++ [d.owner.node children l.lastOffset], outer⟩ := by
  generalize hopen : false = isOpen at h
  cases h with
  | between => simp [Reader.step, addAll, stepBetween, hl, hd, hr, closeDocument]
  | prelude _ ns p =>
    have hn : p.nesting = [] := by simpa using he
    simp [Reader.step, hn, stepPrelude, hl, hd, hr, closeDocument, push]
  | selector => simp at he
  | block => cases hopen
  | document => cases hopen

/-- The lexemes take every reader that is between two nodes to where the sheet ends. -/
def Reaches (ending : Ending) (isOpen : Bool) (ns : List (Node Nat)) (ls : List Lexeme) : Prop :=
  ∀ (r : Reader) (last : Nat), r.mode = .between → (∀ l ∈ ls.getLast?, l.lastOffset = last) →
    ∃ r', r.run ls = .ok r' ∧ r.Left last ending isOpen ns r'

theorem exists_lastOffset (ls : List Lexeme) : ∃ last, ∀ l ∈ ls.getLast?, l.lastOffset = last := by
  cases ls.getLast? with
  | none => exact ⟨0, by simp⟩
  | some l => exact ⟨l.lastOffset, by simp⟩

theorem Reaches.run {ns : List (Node Nat)} (h : Reaches .between false ns ls)
    (hm : r.mode = .between) : r.run ls = .ok (r.addAll ns) := by
  obtain ⟨last, hlast⟩ := exists_lastOffset ls
  obtain ⟨r', hrun, hleft⟩ := h r last hm hlast
  rw [hrun, hleft.of_false]

theorem reaches_of_run {ns : List (Node Nat)}
    (h : ∀ r : Reader, r.mode = .between → r.run ls = .ok (r.addAll ns)) :
    Reaches .between false ns ls :=
  fun r _ hm _ => ⟨_, h r hm, .between r ns⟩

theorem Reaches.document {ending : Ending} {ns children : List (Node Nat)}
    {head inner : List Lexeme} {owner : Owner} {closer : Lexeme} (h : Reaches .between false ns ls)
    (hh : owner.Heads head) (hd : owner.isDocument = true)
    (hi : Reaches ending false children inner)
    (he : ending = .between ∨ ending = .prelude []) (hc : closer.token = .closing .curly) :
    Reaches .between false (ns ++ [owner.node children closer.lastOffset])
      (ls ++ (head ++ (inner ++ [closer]))) := by
  refine reaches_of_run fun r hm => ?_
  have hhead := hh.run (r := r.addAll ns) rfl
  rw [if_pos hd] at hhead
  rw [Reader.run_append _ (h.run hm), Reader.run_append _ hhead]
  obtain ⟨last, hlast⟩ := exists_lastOffset inner
  obtain ⟨r', hrun, hleft⟩ :=
    hi ⟨.between, [], ⟨owner, r.nodes ++ ns⟩ :: r.documents⟩ last rfl hlast
  refine Reader.run_snoc hrun ?_
  rw [hleft.step he rfl rfl hc, List.append_assoc]
  rfl

/-- The lexemes of a style sheet take a reader to where the sheet ends. -/
theorem Sheet.reaches {ending : Ending} {isOpen : Bool} {ns : List (Node Nat)}
    (h : Sheet ending isOpen ns ls) : Reaches ending isOpen ns ls := by
  induction h with
  | nil =>
    refine reaches_of_run fun r hm => ?_
    rw [Reader.addAll_nil hm]
    rfl
  | @gap ns ls l h hl ih =>
    exact reaches_of_run fun r hm => Reader.run_snoc (ih.run hm) (Reader.step_gap rfl hl)
  | @leaf ns ls ms n h hn ih =>
    refine reaches_of_run fun r hm => ?_
    rw [Reader.run_append _ (ih.run hm), hn.run rfl, Reader.addAll_addAll]
  | document h hh hd hi he hc ih ihi => exact ih.document hh hd ihi he hc
  | @cutShort ns nesting ls kept lost spaces keyword name h hk hp hl hs hn ih =>
    intro r last hm hlast
    obtain ⟨q, hrun, hq⟩ := hp.run_keyword (r := r.addAll ns) rfl hk
    obtain ⟨q', hspaces, hnesting, hcut⟩ : ∃ q' : Prelude,
        Reader.run { r.addAll ns with mode := .prelude q } spaces =
          .ok { r.addAll ns with mode := .prelude q' } ∧
        q'.nesting = nesting ∧ q'.cutShort = q.cutShort := by
      by_cases hopen : nesting = []
      · subst hopen
        exact Reader.run_spaces (r := { r.addAll ns with mode := .prelude q }) rfl hq.nesting hs
      · rw [hn hopen]
        exact ⟨q, rfl, hq.nesting, rfl⟩
    refine ⟨⟨.prelude q', r.nodes ++ ns, r.documents⟩, ?_, ?_⟩
    · rw [Reader.run_append _ (ih.run hm), ← List.cons_append, Reader.run_append _ hrun, hspaces]
      rfl
    · have hleft : Reader.Left last r _ _ _ _ := .prelude r ns q'
      rwa [hnesting, hcut, hq.cutShort hl] at hleft
  | @selector ns nesting ls selector first h hs hf hb ih =>
    intro r last hm hlast
    obtain ⟨asked, hrun⟩ := hs.run_selector (r := r.addAll ns) rfl hf hb
    refine ⟨_, ?_, .selector r ns first asked nesting⟩
    rw [Reader.run_append _ (ih.run hm), hrun]
    rfl
  | @openBlock ns nesting ls head body owner last h hh hd hb hl ih =>
    intro r o hm hlast
    have hhead := hh.run (r := r.addAll ns) rfl
    rw [hd] at hhead
    have hinside := hb.run_inside (counts_block (r.addAll ns) owner) []
    obtain rfl : last.lastOffset = o := by
      refine hlast last ?_
      rw [List.getLast?_append, hl]
      rfl
    refine ⟨_, ?_, .block r ns owner (nesting ++ [.curly])⟩
    rw [Reader.run_append _ (ih.run hm), Reader.run_append _ hhead]
    exact hinside
  | @openDocument ending isOpen ns children ls head inner owner last h hh hd hi hl ih ihi =>
    intro r o hm hlast
    have hhead := hh.run (r := r.addAll ns) rfl
    rw [if_pos hd] at hhead
    obtain rfl : last.lastOffset = o := by
      refine hlast last ?_
      rw [List.getLast?_append, hl]
      rfl
    have hinner : ∀ k ∈ inner.getLast?, k.lastOffset = last.lastOffset := by
      intro k hk
      rw [List.getLast?_append, hk] at hl
      rw [Option.some.inj hl]
    obtain ⟨r', hrun, hleft⟩ :=
      ihi ⟨.between, [], ⟨owner, r.nodes ++ ns⟩ :: r.documents⟩ last.lastOffset rfl hinner
    refine ⟨r', ?_, .document r ns children owner hleft⟩
    rw [Reader.run_append _ (ih.run hm), Reader.run_append _ hhead]
    exact hrun

/-! ## The end of the text -/

theorem Reader.closeAll_some (r : Reader) (stop last : Nat) :
    r.closeAll stop (some last) = .ok (nodesAround last r.nodes r.documents) := by
  unfold closeAll
  cases hd : r.documents <;> rfl

theorem Reader.closeAll_none (r : Reader) (stop : Nat) {d : Document} {outer : List Document}
    (hd : r.documents = d :: outer) : r.closeAll stop none = .error ⟨.unclosedBlock, stop⟩ := by
  simp [closeAll, hd]

/-- A sheet that ends in a selector is not split into nodes. -/
theorem Reader.Left.finish_selector {last : Nat} {isOpen : Bool} {ns : List (Node Nat)}
    (h : r.Left last .selector isOpen ns r') (stop : Nat) (last? : Option Nat) :
    ∃ o, r'.finish stop last? = .error ⟨.missingBlock, o⟩ := by
  generalize he : Ending.selector = ending at h
  induction h with
  | between => cases he
  | prelude => cases he
  | selector r ns first asked nesting => exact ⟨asked.offset, rfl⟩
  | block => cases he
  | document r ns children owner h ih => exact ih he

/-- Without an open block, a sheet is split into its nodes, in the document blocks around it. -/
theorem Reader.Left.finish_closed {last : Nat} {ending : Ending} {ns : List (Node Nat)}
    (h : r.Left last ending false ns r') (he : ending ≠ .selector) (stop : Nat)
    (last? : Option Nat) : r'.finish stop last? = (r.addAll ns).closeAll stop last? := by
  generalize hopen : false = isOpen at h
  cases h with
  | between => rfl
  | prelude => simp [Reader.finish, Reader.push, Reader.addAll]
  | selector => exact absurd rfl he
  | block => cases hopen
  | document => cases hopen

/-- Open blocks end with a closing curly bracket that is the last character of the text. -/
theorem Reader.Left.finish_some {last : Nat} {ending : Ending} {isOpen : Bool}
    {ns : List (Node Nat)} (h : r.Left last ending isOpen ns r') (he : ending ≠ .selector)
    (stop : Nat) : r'.finish stop (some last) = (r.addAll ns).closeAll stop (some last) := by
  induction h with
  | between r ns =>
    have hleft : Reader.Left last r _ _ _ _ := .between r ns
    exact hleft.finish_closed he stop _
  | prelude r ns p =>
    have hleft : Reader.Left last r _ _ _ _ := .prelude r ns p
    exact hleft.finish_closed he stop _
  | selector => exact absurd rfl he
  | block r ns owner nesting => simp [Reader.finish, Reader.push, Reader.addAll]
  | document r ns children owner h ih =>
    rw [ih he, closeAll_some, closeAll_some]
    simp [addAll, nodesAround]

/-- Without one, a block that is open is an error. -/
theorem Reader.Left.finish_none {last : Nat} {ending : Ending} {ns : List (Node Nat)}
    (h : r.Left last ending true ns r') (he : ending ≠ .selector) (stop : Nat) :
    r'.finish stop none = .error ⟨.unclosedBlock, stop⟩ := by
  generalize hopen : true = isOpen at h
  induction h with
  | between => cases hopen
  | prelude => cases hopen
  | selector => cases hopen
  | block => rfl
  | @document r' ending isOpen r ns children owner h ih =>
    cases isOpen with
    | true => exact ih he rfl
    | false => rw [h.finish_closed he, Reader.closeAll_none _ stop rfl]

end Runs

theorem closingOffset?_eq_none {text : List Char} (h : text.getLast? ≠ some '\x7d') :
    closingOffset? text = none := if_neg h

section Texts

variable {text : List Char} {ending : Ending} {isOpen : Bool} {ns : List (Node Nat)}

theorem Sheet.run_start (h : Sheet ending isOpen ns (lexemes (.start text))) :
    ∃ r last, Reader.start.run (lexemes (.start text)) = .ok r ∧
      Reader.start.Left last ending isOpen ns r ∧ ∀ o ∈ closingOffset? text, o = last := by
  obtain ⟨last, hlast⟩ := exists_lastOffset (lexemes (.start text))
  obtain ⟨r, hrun, hleft⟩ := h.reaches .start last rfl hlast
  refine ⟨r, last, hrun, hleft, fun o ho => ?_⟩
  obtain ⟨l, hl, rfl, -⟩ := endsAt_lexemes ho
  exact hlast l hl

theorem readNodes_selector (h : Sheet .selector isOpen ns (lexemes (.start text))) :
    ∃ o, readNodes text = .error ⟨.missingBlock, o⟩ := by
  obtain ⟨r, last, hrun, hleft, -⟩ := h.run_start
  obtain ⟨o, ho⟩ := hleft.finish_selector (byteLength text) (closingOffset? text)
  exact ⟨o, by rw [readNodes, hrun]; exact ho⟩

/-- A text with a block that is open at its end is refused there, unless a closing curly bracket is
its last character. -/
theorem readNodes_unclosed (h : Sheet ending true ns (lexemes (.start text)))
    (he : ending ≠ .selector) (hlast : text.getLast? ≠ some '\x7d') :
    readNodes text = .error ⟨.unclosedBlock, byteLength text⟩ := by
  obtain ⟨r, last, hrun, hleft, -⟩ := h.run_start
  rw [readNodes, hrun, closingOffset?_eq_none hlast]
  exact hleft.finish_none he _

/-- All other style sheets are split into their nodes. -/
theorem readNodes_of_sheet (h : Sheet ending isOpen ns (lexemes (.start text)))
    (he : ending ≠ .selector) (hopen : isOpen = true → text.getLast? = some '\x7d') :
    readNodes text = .ok ns := by
  obtain ⟨r, last, hrun, hleft, hoffset⟩ := h.run_start
  rw [readNodes, hrun]
  cases isOpen with
  | false =>
    dsimp only
    rw [hleft.finish_closed he]
    rfl
  | true =>
    have hclosing : closingOffset? text = some (byteLength text.dropLast) := if_pos (hopen rfl)
    obtain rfl := hoffset _ hclosing
    dsimp only
    rw [hclosing, hleft.finish_some he]
    rfl

/-- A text is split into nodes if and only if its lexemes make up these nodes, it does not end in a
selector, and no block is open at its end or a closing curly bracket is its last character. -/
theorem readNodes_eq_ok_iff :
    readNodes text = .ok ns ↔ ∃ ending isOpen, Sheet ending isOpen ns (lexemes (.start text)) ∧
      ending ≠ .selector ∧ (isOpen = true → text.getLast? = some '\x7d') := by
  constructor
  · intro h
    exact readNodes_sheet h
  · rintro ⟨ending, isOpen, h, he, hopen⟩
    exact readNodes_of_sheet h he hopen

end Texts

end Userstyle.Css
