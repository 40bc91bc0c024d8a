import Userstyle.Targeting

/-!
# The match patterns of many parameter lists

Parameter lists are read one after the other into one targeting, and a list that cannot be read
leaves it as it was. What comes out depends on the conditions of the other lists alone: they freeze
the set of patterns if one of them has no pattern, wherever it stands, and otherwise they list their
patterns, each where it came up first.
-/

namespace Userstyle

open Text

/-! ## What a condition has to do with patterns -/

/-- The characters of a text from an index on, each with the index of its first byte. -/
def charIndices : Nat → List Char → List (Nat × Char)
  | _, [] => []
  | i, c :: r => (i, c) :: charIndices (i + c.utf8Size) r

/-- Whether a character at an index separates the path of a URL from what comes before. -/
def isPathSeparator (x : Nat × Char) : Bool := 8 ≤ x.1 && x.2 == '/'

namespace Condition

/-- A condition without a pattern: any regular expression, and a prefix with no slash behind its
first eight bytes. -/
def Freezing (c : Condition) : Prop :=
  c.matcher = .regexp ∨
    c.matcher = .urlPrefix ∧ ∀ x ∈ charIndices 0 c.argument.toList, isPathSeparator x = false

instance (c : Condition) : Decidable c.Freezing :=
  inferInstanceAs (Decidable (_ ∨ _ ∧ _))

/-- The patterns of a condition. -/
def contributed (c : Condition) : List String :=
  match c.matcher with
  | .domain => ["*://" ++ c.argument ++ "/*", "*://*." ++ c.argument ++ "/*"]
  | .url => [c.argument]
  | .urlPrefix =>
    match (charIndices 0 c.argument.toList).find? isPathSeparator with
    | some x => [String.ofList (takeBytes x.1 c.argument.toList) ++ "/*"]
    | none => []
  | .regexp => []

/-- The diagnostic of a condition without a pattern. -/
def diagnostic (c : Condition) : Diagnostic :=
  match c.matcher with
  | .regexp => .regexpCondition c.argument
  | _ => .prefixWithoutPath c.argument

end Condition

/-- The index of a character is the length of the text before it. -/
theorem mem_charIndices {i : Nat} {s : List Char} {x : Nat × Char} (h : x ∈ charIndices i s) :
    ∃ before after, s = before ++ x.2 :: after ∧ x.1 = i + byteLength before := by
  induction s generalizing i with
  | nil => cases h
  | cons c r ih =>
    rw [charIndices, List.mem_cons] at h
    rcases h with rfl | h
    · exact ⟨[], r, rfl, rfl⟩
    · obtain ⟨before, after, rfl, hx⟩ := ih h
      refine ⟨c :: before, after, rfl, ?_⟩
      rw [hx, byteLength_cons, Nat.add_assoc]

theorem le_of_mem_charIndices {i : Nat} {s : List Char} {x : Nat × Char}
    (h : x ∈ charIndices i s) : i ≤ x.1 := by
  obtain ⟨before, after, -, hx⟩ := mem_charIndices h
  rw [hx]
  exact Nat.le_add_right i _

/-- The text before the path goes up to the first separator. -/
theorem beforePath?_eq (i : Nat) (s : List Char) :
    beforePath? (schemeLength - i) s =
      ((charIndices i s).find? isPathSeparator).map fun x => takeBytes (x.1 - i) s := by
  induction s generalizing i with
  | nil => rfl
  | cons c r ih =>
    rw [charIndices, beforePath?]
    by_cases h : schemeLength - i = 0 ∧ c = '/'
    · have hsep : isPathSeparator (i, c) = true := by
        unfold isPathSeparator
        simp [h.2, show 8 ≤ i from Nat.le_of_sub_eq_zero h.1]
      rw [if_pos h, List.find?_cons_of_pos hsep]
      simp [takeBytes]
    · have hsep : ¬ isPathSeparator (i, c) = true := by
        intro hs
        unfold isPathSeparator at hs
        rw [Bool.and_eq_true, decide_eq_true_eq, beq_iff_eq] at hs
        exact h ⟨Nat.sub_eq_zero_of_le hs.1, hs.2⟩
      rw [if_neg h, List.find?_cons_of_neg hsep, Nat.sub_sub, ih, Option.map_map]
      apply Option.map_congr
      intro x hx
      have hle := le_of_mem_charIndices (List.mem_of_find?_eq_some hx)
      have hpos := c.utf8Size_pos
      show c :: takeBytes (x.1 - (i + c.utf8Size)) r = takeBytes (x.1 - i) (c :: r)
      rw [takeBytes, if_neg (by omega), Nat.sub_sub]

theorem Condition.freezing_urlPrefix (argument : String) :
    Freezing ⟨.urlPrefix, argument⟩ ↔
      (charIndices 0 argument.toList).find? isPathSeparator = none := by
  rw [List.find?_eq_none]
  constructor
  · rintro (h | ⟨-, h⟩)
    · cases h
    · intro x hx
      rw [h x hx]
      decide
  · intro h
    exact Or.inr ⟨rfl, fun x hx => by simpa using h x hx⟩

/-- A condition has patterns or freezes the set. -/
theorem Condition.contribution_eq (c : Condition) :
    c.contribution = if c.Freezing then .freezing c.diagnostic else .patterns c.contributed := by
  obtain ⟨matcher, argument⟩ := c
  cases matcher with
  | domain =>
    have h : ¬ Freezing ⟨.domain, argument⟩ := by
      rintro (h | ⟨h, -⟩) <;> cases h
    rw [if_neg h]
    rfl
  | url =>
    have h : ¬ Freezing ⟨.url, argument⟩ := by
      rintro (h | ⟨h, -⟩) <;> cases h
    rw [if_neg h]
    rfl
  | urlPrefix =>
    have hpath := beforePath?_eq 0 argument.toList
    rw [Nat.sub_zero] at hpath
    unfold contribution contributed
    simp only [hpath]
    cases hf : (charIndices 0 argument.toList).find? isPathSeparator with
    | none =>
      rw [if_pos ((freezing_urlPrefix argument).mpr hf)]
      rfl
    | some x =>
      have h : ¬ Freezing ⟨.urlPrefix, argument⟩ := by
        rw [freezing_urlPrefix, hf]
        exact Option.some_ne_none x
      rw [if_neg h]
      rfl
  | regexp =>
    have h : Freezing ⟨.regexp, argument⟩ := Or.inl rfl
    rw [if_pos h]
    rfl

/-! ## One condition after the other -/

theorem eraseDups_concat (ps : List String) (p : String) :
    (ps ++ [p]).eraseDups = if p ∈ ps then ps.eraseDups else ps.eraseDups ++ [p] := by
  rw [List.eraseDups_append]
  by_cases h : p ∈ ps
  · simp [h, List.removeAll]
  · simp [h, List.removeAll, List.eraseDups_cons]

theorem PatternSet.listed_add (ps : List String) (p : String) :
    (listed ps.eraseDups).add p = listed (ps ++ [p]).eraseDups := by
  unfold add
  rw [eraseDups_concat]
  simp only [List.mem_eraseDups]
  split <;> rfl

theorem PatternSet.listed_addAll (ps qs : List String) :
    (listed ps.eraseDups).addAll qs = listed (ps ++ qs).eraseDups := by
  induction qs generalizing ps with
  | nil => rw [addAll_nil, List.append_nil]
  | cons q qs ih => rw [addAll_cons, listed_add, ih, List.append_assoc, List.singleton_append]

/-- What some conditions amount to. -/
structure Targeting.Of (t : Targeting) (cs : List Condition) : Prop where
  patterns : t.patterns =
    if ∃ c ∈ cs, c.Freezing then .frozen
    else .listed (cs.flatMap Condition.contributed).eraseDups
  diagnostics : t.diagnostics = (cs.filter (·.Freezing)).map Condition.diagnostic

theorem Targeting.Of.empty : Targeting.empty.Of [] := by
  constructor
  · simp only [List.not_mem_nil, false_and, exists_false, if_false]
    rfl
  · rfl

theorem Targeting.Of.add {cs : List Condition} {t : Targeting} (h : t.Of cs) (c : Condition) :
    (t.add c).Of (cs ++ [c]) := by
  have hd := h.diagnostics
  have hp := h.patterns
  unfold Targeting.add
  rw [Condition.contribution_eq]
  by_cases hc : c.Freezing
  · have hex : ∃ d ∈ cs ++ [c], d.Freezing := ⟨c, List.mem_append_right cs List.mem_cons_self, hc⟩
    rw [if_pos hc]
    constructor
    · rw [if_pos hex]
      rfl
    · simp [hd, List.filter_append, hc]
  · rw [if_neg hc]
    constructor
    · show t.patterns.addAll c.contributed = _
      rw [hp]
      by_cases hf : ∃ d ∈ cs, d.Freezing
      · have hex : ∃ d ∈ cs ++ [c], d.Freezing := by
          obtain ⟨d, hd, hfd⟩ := hf
          exact ⟨d, List.mem_append_left [c] hd, hfd⟩
        rw [if_pos hf, if_pos hex, PatternSet.frozen_addAll]
      · have hnone : ¬ ∃ d ∈ cs ++ [c], d.Freezing := by
          rintro ⟨d, hd, hfd⟩
          rcases List.mem_append.mp hd with hd | hd
          · exact hf ⟨d, hd, hfd⟩
          · rw [List.mem_singleton.mp hd] at hfd
            exact hc hfd
        rw [if_neg hf, if_neg hnone, PatternSet.listed_addAll, List.flatMap_append,
          List.flatMap_singleton]
    · simp [hd, List.filter_append, hc]

theorem Targeting.Of.addAll {cs : List Condition} {t : Targeting} (h : t.Of cs)
    (ds : List Condition) : (t.addAll ds).Of (cs ++ ds) := by
  induction ds generalizing cs t with
  | nil =>
    rw [List.append_nil]
    exact h
  | cons d ds ih =>
    have hrest := ih (h.add d)
    rw [List.append_assoc, List.singleton_append] at hrest
    exact hrest

/-! ## The log -/

/-- Whether an event warns that a condition has frozen the set of patterns. -/
def Event.isDisabling : Event → Bool
  | .matchDisabled _ => true
  | _ => false

theorem PatternSet.isFrozen_addAll (s : PatternSet) (ps : List String) :
    (s.addAll ps).isFrozen = s.isFrozen := by
  induction ps generalizing s with
  | nil => rfl
  | cons p ps ih =>
    rw [addAll_cons, ih]
    cases s with
    | frozen => rfl
    | listed qs =>
      unfold add
      by_cases h : p ∈ qs <;> simp [h, isFrozen]

namespace Targeting

theorem isFrozen_add (t : Targeting) (c : Condition) :
    (t.add c).patterns.isFrozen = (t.patterns.isFrozen || decide c.Freezing) := by
  unfold add
  rw [Condition.contribution_eq]
  by_cases hc : c.Freezing
  · simp [hc, PatternSet.freeze, PatternSet.isFrozen]
  · simp [hc, PatternSet.isFrozen_addAll]

theorem log_append (t : Targeting) (cs ds : List Condition) :
    t.log (cs ++ ds) = t.log cs ++ (t.addAll cs).log ds := by
  induction cs generalizing t with
  | nil => rfl
  | cons c cs ih => simp [log, ih]

/-- The only warning is that for the first condition that freezes the set. -/
theorem log_disabling (t : Targeting) (cs : List Condition) :
    (t.log cs).filter Event.isDisabling =
      if t.patterns.isFrozen then [] else ((cs.find? (·.Freezing)).map .matchDisabled).toList := by
  induction cs generalizing t with
  | nil => simp [log]
  | cons c cs ih =>
    have hread : Event.isDisabling (.conditionRead c) = false := rfl
    rw [log, List.cons_append, List.filter_cons_of_neg (by simp [hread]), List.filter_append, ih,
      isFrozen_add, warnings, Condition.contribution_eq]
    by_cases hc : c.Freezing
    · by_cases ht : t.patterns.isFrozen = true
      · simp [hc, ht, PatternSet.freeze]
      · simp [hc, ht, PatternSet.freeze, Event.isDisabling]
    · simp [hc]

/-! ## One list after the other -/

/-- The targeting after a call: what the call gives, or the same as before if the call fails. -/
def after (t : Targeting) (params : String) : Targeting :=
  match (t.read params).result with
  | .ok (_, t) => t
  | .error _ => t

/-- Reads parameter lists one after the other, to the log and the targeting in the end. -/
def readEach (t : Targeting) : List String → List Event × Targeting
  | [] => ([], t)
  | params :: lists =>
    let (events, last) := (t.after params).readEach lists
    ((t.read params).events ++ events, last)

end Targeting

/-- The conditions of those parameter lists that can be read. -/
def conditionsOf (lists : List String) : List Condition :=
  lists.flatMap fun params =>
    match Condition.ofParams params with
    | .ok cs => cs
    | .error _ => []

namespace Targeting

theorem read_ok {t : Targeting} {params : String} {cs : List Condition}
    (h : Condition.ofParams params = .ok cs) :
    t.after params = t.addAll cs ∧ (t.read params).events = t.log cs := by
  unfold after read
  rw [h]
  exact ⟨rfl, List.append_nil _⟩

/-- A call that fails leaves no trace. -/
theorem read_error {t : Targeting} {params : String} {e : Error}
    (h : Condition.ofParams params = .error e) :
    t.after params = t ∧ (t.read params).events = [] := by
  unfold after read
  rw [h]
  exact ⟨rfl, rfl⟩

/-- The lists that can be read count as if they were one. -/
theorem readEach_eq (t : Targeting) (lists : List String) :
    t.readEach lists = (t.log (conditionsOf lists), t.addAll (conditionsOf lists)) := by
  induction lists generalizing t with
  | nil => rfl
  | cons params lists ih =>
    rw [readEach, ih]
    unfold conditionsOf
    rw [List.flatMap_cons]
    cases h : Condition.ofParams params with
    | error e =>
      obtain ⟨hafter, hlog⟩ := read_error (t := t) h
      simp only [hafter, hlog, List.nil_append]
    | ok cs =>
      obtain ⟨hafter, hlog⟩ := read_ok (t := t) h
      simp only [hafter, hlog, log_append, addAll_append]

/-- Whatever parameter lists are read one after the other, whether or not some of them fail: the set
is frozen in the end if and only if some condition freezes it, and otherwise lists the patterns of
all conditions, each where it came up first. There is a diagnostic for every condition that freezes
the set, also for those behind the first, but a warning for the first one only. -/
theorem readEach_outcome (lists : List String) :
    ((empty.readEach lists).2.patterns = .frozen ↔ ∃ c ∈ conditionsOf lists, c.Freezing) ∧
    (empty.readEach lists).2.patterns =
      (if ∃ c ∈ conditionsOf lists, c.Freezing then .frozen
      else .listed ((conditionsOf lists).flatMap Condition.contributed).eraseDups) ∧
    (empty.readEach lists).2.diagnostics =
      ((conditionsOf lists).filter (·.Freezing)).map Condition.diagnostic ∧
    (empty.readEach lists).1.filter Event.isDisabling =
      (((conditionsOf lists).find? (·.Freezing)).map .matchDisabled).toList ∧
    ∀ (t : Targeting) (params : String) (e : Error), Condition.ofParams params = .error e →
      (t.read params).result = .error e ∧ t.after params = t ∧ (t.read params).events = [] := by
  have hof := Of.empty.addAll (conditionsOf lists)
  rw [List.nil_append] at hof
  have hlog := log_disabling empty (conditionsOf lists)
  rw [readEach_eq]
  refine ⟨?_, hof.patterns, hof.diagnostics, hlog, fun t params e h => ?_⟩
  · rw [hof.patterns]
    by_cases hf : ∃ c ∈ conditionsOf lists, c.Freezing
    · simp [hf]
    · simp [hf]
  · have hresult : (t.read params).result = .error e := by
      unfold read
      rw [h]
      rfl
    exact ⟨hresult, read_error h⟩

end Targeting

end Userstyle
