import Userstyle.Proofs.LocatedPlaces

/-!
# What slices hold

`slice` looks up two positions, which gives two offsets. If they are in order, the slice holds the
text from the first through the whole character at the second. If they are not, the range is
refused, with one exception: the offset directly behind a character is taken as a first offset for
the range that ends with this character, and the slice is empty (`slice_gives`).
-/

namespace Userstyle.Source

open Text

/-- The character that begins at the offset `o` ends at the offset `o'`. -/
def CharSpans (text : List Char) (o o' : Nat) : Prop :=
  ∃ before c after, text = before ++ c :: after ∧ byteLength before = o ∧
    byteLength (before ++ [c]) = o'

/-- The text from the offset `s` through the whole character that begins at the offset `e`, or to
the end of the text if `e` is its end. -/
def IsThrough (text : List Char) (s e : Nat) (cut : List Char) : Prop :=
  ∃ before after, text = before ++ cut ++ after ∧ byteLength before = s ∧
    ((∃ mid c, cut = mid ++ [c] ∧ byteLength (before ++ mid) = e) ∨
      after = [] ∧ byteLength text = e)

/-- What a slice gives for two positions, the first one `p`, that are found at the offsets `s` and
`e`. -/
inductive SliceGives (text : List Char) (p : Position) (s e : Nat) :
    Except Error (List Char) → Prop where
  /-- The offsets are in order. -/
  | inOrder {cut : List Char} (hle : s ≤ e) (hcut : IsThrough text s e cut) :
    SliceGives text p s e (.ok cut)
  /-- The first offset is directly behind the last character. -/
  | behind (h : CharSpans text e s) : SliceGives text p s e (.ok [])
  /-- The first offset is further behind. -/
  | reversed (hlt : e < s) (h : ¬CharSpans text e s) :
    SliceGives text p s e (.error (.outOfRange p.line p.column))

theorem CharSpans.lt {text : List Char} {o o' : Nat} (h : CharSpans text o o') : o < o' := by
  obtain ⟨before, c, after, -, rfl, rfl⟩ := h
  have hpos := c.utf8Size_pos
  rw [byteLength_append, byteLength_cons]
  omega

namespace Place

variable {text : List Char} {a b : Place}

/-- A place that is not behind another has ahead what stands between them and what the other has
ahead. -/
theorem On.rest_eq (ha : a.On text) (hb : b.On text) (hle : a.offset ≤ b.offset) :
    ∃ mid, a.rest = mid ++ b.rest ∧ b.offset = a.offset + byteLength mid := by
  obtain ⟨before, ht, ho⟩ := ha
  obtain ⟨before', ht', ho'⟩ := hb
  rw [← ho, ← ho'] at hle
  obtain ⟨mid, rfl, hrest⟩ := exists_append_of_byteLength_le (ht.symm.trans ht') hle
  refine ⟨mid, hrest, ?_⟩
  rw [← ho', byteLength_append, ho]

theorem offset_pastChar (b : Place) :
    b.pastChar.offset = b.offset + byteLength (b.rest.take 1) := rfl

/-- The character that begins at a place is the next one that the place has ahead. -/
theorem On.charSpans_iff (hb : b.On text) (o : Nat) :
    CharSpans text b.offset o ↔ b.offset < o ∧ b.pastChar.offset = o := by
  rw [offset_pastChar]
  constructor
  · intro hspans
    refine ⟨hspans.lt, ?_⟩
    obtain ⟨before, c, after, ht, ho, rfl⟩ := hspans
    have hplace : (⟨byteLength before, c :: after⟩ : Place).On text := ⟨before, ht, rfl⟩
    obtain ⟨mid, hrest, hoffset⟩ := hb.rest_eq hplace (Nat.le_of_eq ho.symm)
    cases mid with
    | nil =>
      rw [byteLength_append, ho, hrest, List.nil_append, List.take_succ_cons, List.take_zero,
        byteLength_cons]
    | cons d mid =>
      have hpos' := d.utf8Size_pos
      rw [byteLength_cons] at hoffset
      simp only at hoffset
      omega
  · rintro ⟨hlt, rfl⟩
    obtain ⟨before, ht, ho⟩ := hb
    cases hrest : b.rest with
    | nil =>
      rw [hrest, List.take_nil, byteLength_nil] at hlt
      omega
    | cons c r =>
      refine ⟨before, c, r, ?_, ho, ?_⟩
      · rw [ht, hrest]
      · rw [byteLength_append, ho, List.take_succ_cons, List.take_zero]

/-- Between a place and a later one there is at least the character that the first one has
ahead. -/
theorem On.offset_pastChar_le (hb : b.On text) (ha : a.On text) (hlt : b.offset < a.offset) :
    b.pastChar.offset ≤ a.offset := by
  obtain ⟨mid, hrest, hoffset⟩ := hb.rest_eq ha (Nat.le_of_lt hlt)
  cases mid with
  | nil =>
    rw [byteLength_nil] at hoffset
    omega
  | cons c mid =>
    rw [offset_pastChar, hrest, List.cons_append, List.take_succ_cons, List.take_zero, hoffset]
    simp only [byteLength_cons, byteLength_nil]
    omega

theorem textTo_self (a : Place) {b : Place} (h : b.offset = a.offset) : a.textTo b = [] := by
  have htext := textTo_append a.offset [] a.rest
  unfold textTo at htext ⊢
  rw [h]
  simpa using htext

/-- The text to the place behind the next character of a place that is not earlier. -/
theorem On.isThrough (ha : a.On text) (hb : b.On text) (hle : a.offset ≤ b.offset) :
    IsThrough text a.offset b.offset (a.textTo b.pastChar) := by
  obtain ⟨mid, hrest, hoffset⟩ := ha.rest_eq hb hle
  obtain ⟨before, ht, ho⟩ := ha
  have hcut : a.textTo b.pastChar = mid ++ b.rest.take 1 := by
    have hsplit : a.rest = (mid ++ b.rest.take 1) ++ b.rest.drop 1 := by
      rw [List.append_assoc, List.take_append_drop, hrest]
    have hpast : b.pastChar =
        ⟨a.offset + byteLength (mid ++ b.rest.take 1), b.rest.drop 1⟩ := by
      rw [byteLength_append, ← Nat.add_assoc, ← hoffset]
      rfl
    have htext := textTo_append a.offset (mid ++ b.rest.take 1) (b.rest.drop 1)
    rw [← hsplit, ← hpast] at htext
    exact htext
  rw [hcut]
  refine ⟨before, b.rest.drop 1, ?_, ho, ?_⟩
  · rw [ht, hrest, List.append_assoc before, List.append_assoc mid, List.take_append_drop]
  · cases hb' : b.rest with
    | nil =>
      refine Or.inr ⟨rfl, ?_⟩
      rw [ht, hrest, hb', List.append_nil, byteLength_append, ho, hoffset]
    | cons c r =>
      refine Or.inl ⟨mid, c, rfl, ?_⟩
      rw [byteLength_append, ho, hoffset]

end Place

/-- The text through a character is empty only at the end of a text. -/
theorem IsThrough.eq_nil_iff {text cut : List Char} {s e : Nat} (h : IsThrough text s e cut) :
    cut = [] ↔ s = byteLength text ∧ e = byteLength text := by
  obtain ⟨before, after, rfl, rfl, ⟨mid, c, rfl, rfl⟩ | ⟨rfl, rfl⟩⟩ := h
  · have hpos := c.utf8Size_pos
    simp only [byteLength_append, byteLength_cons]
    constructor
    · intro hnil
      simp at hnil
    · omega
  · rw [List.append_nil, byteLength_append]
    cases cut with
    | nil => simp
    | cons c cut =>
      have hpos := c.utf8Size_pos
      rw [byteLength_cons]
      constructor
      · intro hnil
        cases hnil
      · omega

/-- A slice is empty at the end of the text, or if it ends directly in front of its beginning. -/
theorem SliceGives.eq_ok_nil_iff {text : List Char} {p : Position} {s e : Nat}
    {r : Except Error (List Char)} (h : SliceGives text p s e r) :
    r = .ok [] ↔ s = byteLength text ∧ e = byteLength text ∨ CharSpans text e s := by
  cases h with
  | inOrder hle hcut =>
    have hnot : ¬CharSpans text e s := fun hspans => absurd hspans.lt (Nat.not_lt_of_le hle)
    rw [or_iff_left hnot, ← hcut.eq_nil_iff]
    exact ⟨Except.ok.inj, congrArg _⟩
  | behind hspans => exact iff_of_true rfl (Or.inr hspans)
  | reversed hlt hnot =>
    refine iff_of_false (fun hr => nomatch hr) ?_
    rintro (⟨hs, he⟩ | hspans)
    · omega
    · exact hnot hspans

/-- What is cut out between two places, the character at the second one included. -/
theorem Place.On.sliceGives {text : List Char} {a b : Place} (p : Position) (ha : a.On text)
    (hb : b.On text) :
    SliceGives text p a.offset b.offset
      (if a.offset ≤ b.pastChar.offset then .ok (a.textTo b.pastChar)
      else .error (.outOfRange p.line p.column)) := by
  rcases Nat.lt_or_ge b.offset a.offset with hlt | hle
  · have hpast := hb.offset_pastChar_le ha hlt
    have hspans := hb.charSpans_iff a.offset
    split
    · rename_i hle'
      have heq : b.pastChar.offset = a.offset := Nat.le_antisymm hpast hle'
      rw [Place.textTo_self a heq]
      exact .behind (hspans.mpr ⟨hlt, heq⟩)
    · rename_i hnot
      refine .reversed hlt fun h => ?_
      exact hnot (Nat.le_of_eq (hspans.mp h).2.symm)
  · have hle' : a.offset ≤ b.pastChar.offset := Nat.le_trans hle (Nat.le_add_right _ _)
    rw [if_pos hle']
    exact .inOrder hle (ha.isThrough hb hle)

namespace LineCursor

variable {text : List Char} {c d : LineCursor} {p : Position}

/-- A position that is found is a place of the text. -/
theorem On.find_ok {place : Place} (hc : c.On text) (h : c.find p = (.ok place, d)) :
    place.On text ∧ d.On text := by
  unfold find at h
  split at h
  · cases h
  · dsimp only at h
    split at h
    · cases h
    · split at h
      · rename_i hcolumn
        cases h
        obtain ⟨before, ht, ho, -⟩ := (hc.down _).column?_behind hcolumn
        exact ⟨⟨before, ht, ho⟩, hc.down _⟩
      · cases h

theorem find_of_resolve {o : Nat} (h : (c.resolve p).1 = .ok o) :
    ∃ place : Place, c.find p = (.ok place, (c.resolve p).2) ∧ place.offset = o := by
  unfold resolve at h ⊢
  rcases hfind : c.find p with ⟨e | place, d⟩
  · rw [hfind] at h
    cases h
  · rw [hfind] at h
    exact ⟨place, rfl, Except.ok.inj h⟩

/-- A slice between two places that are found. -/
theorem slice_of_find {q : Position} {a b : Place} {d' : LineCursor} (ha : c.find p = (.ok a, d))
    (hb : d.find q = (.ok b, d')) :
    (c.slice ⟨p, q⟩).1 = if a.offset ≤ b.pastChar.offset then .ok (a.textTo b.pastChar)
      else .error (.outOfRange p.line p.column) := by
  unfold slice
  simp only [ha, hb]
  split <;> rfl

/-- If the two positions of a slice are found at the offsets `s` and `e`, one after the other by a
new cursor, the slice gives the text from `s` through the whole character at `e` when `s` is not
behind `e`. When it is, the slice is refused with the first position, unless `s` is directly behind
the character at `e`; then the slice is empty. Otherwise it is empty only at the end of the text. -/
theorem slice_gives {q : Position} {s e : Nat} (hs : ((start text).resolve p).1 = .ok s)
    (he : (((start text).resolve p).2.resolve q).1 = .ok e) :
    SliceGives text p s e ((start text).slice ⟨p, q⟩).1 ∧
      (((start text).slice ⟨p, q⟩).1 = .ok [] ↔
        s = byteLength text ∧ e = byteLength text ∨ CharSpans text e s) := by
  obtain ⟨a, hfirst, rfl⟩ := find_of_resolve hs
  obtain ⟨b, hlast, rfl⟩ := find_of_resolve he
  obtain ⟨ha, hon⟩ := (start_on text).find_ok hfirst
  obtain ⟨hb, -⟩ := hon.find_ok hlast
  have hgives := ha.sliceGives p hb
  rw [← slice_of_find hfirst hlast] at hgives
  exact ⟨hgives, hgives.eq_ok_nil_iff⟩

/-- The last character of a slice has two bytes and is kept whole. -/
theorem slice_gives_wholeCharacter :
    ((start ['a', '\u00e9', 'b']).resolve ⟨0, 0⟩).1 = .ok 0 ∧
      (((start ['a', '\u00e9', 'b']).resolve ⟨0, 0⟩).2.resolve ⟨0, 1⟩).1 = .ok 1 ∧
      ((start ['a', '\u00e9', 'b']).slice ⟨⟨0, 0⟩, ⟨0, 1⟩⟩).1 = .ok ['a', '\u00e9'] ∧
      SliceGives ['a', '\u00e9', 'b'] ⟨0, 0⟩ 0 1 (.ok ['a', '\u00e9']) := by
  have hs : ((start ['a', '\u00e9', 'b']).resolve ⟨0, 0⟩).1 = .ok 0 := rfl
  have he : (((start ['a', '\u00e9', 'b']).resolve ⟨0, 0⟩).2.resolve ⟨0, 1⟩).1 = .ok 1 := rfl
  exact ⟨hs, he, rfl, (slice_gives hs he).1⟩

/-- The first position of a slice is behind the last one, and the slice is not refused. -/
theorem slice_reversed_ok :
    ((start ['a', 'b']).resolve ⟨0, 1⟩).1 = .ok 1 ∧
      (((start ['a', 'b']).resolve ⟨0, 1⟩).2.resolve ⟨0, 0⟩).1 = .ok 0 ∧
      ((start ['a', 'b']).slice ⟨⟨0, 1⟩, ⟨0, 0⟩⟩).1 = .ok [] := ⟨rfl, rfl, rfl⟩

end LineCursor

end Userstyle.Source
