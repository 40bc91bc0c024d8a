import Userstyle.Cli.Run

/-!
# Where metadata come from

Each field of the metadata of a script has a value from the command line, from a configuration file
or by default, and the value from the command line goes first. That is so with one exception
(`loadMetadata_value_iff`): the default namespace counts as not given on the command line, so it
does not go before another namespace in the file.
-/

namespace Userstyle

/-! ## Fields -/

/-- A field of the metadata of a script. -/
inductive Metadata.Field where
  | name
  | scope
  | author
  | homepage
  deriving DecidableEq, Repr

namespace Metadata

open Json

/-- The key of a field in a configuration file. -/
def Field.key : Field → String
  | .name => "name"
  | .scope => "namespace"
  | .author => "author"
  | .homepage => "homepage"

/-- The value of a field for which none is given. -/
def Field.fallback : Field → Option String
  | .scope => some defaultScope
  | _ => none

/-- The value of a field. -/
def value (m : Metadata) : Field → Option String
  | .name => m.name
  | .scope => some m.scope
  | .author => m.author
  | .homepage => m.homepage

theorem Field.key_injective {f g : Field} (h : f.key = g.key) : f = g := by
  revert h
  cases f <;> cases g <;> decide

theorem value_empty (f : Field) : empty.value f = f.fallback := by
  cases f <;> rfl

/-! ## What a configuration file sets -/

/-- The keys of an object with their values, from behind its opening bracket. -/
def objectSettings? (rest : List Token) : Option (List (String × Option String)) :=
  if rest = [.objectClose] then some [] else members? rest

/-- The keys that the elements of an array go with and these elements, from behind its opening
bracket. -/
def arraySettings? (rest : List Token) : Option (List (String × Option String)) :=
  if rest = [.arrayClose] then some []
  else (elements? rest).bind fun values =>
    if values.length ≤ configKeys.length then some (configKeys.zip values) else none

/-- The keys of a configuration file with their values. -/
def settings? (text : String) : Option (List (String × Option String)) :=
  match tokens text.toList with
  | some (.objectOpen :: rest) => objectSettings? rest
  | some (.arrayOpen :: rest) => arraySettings? rest
  | _ => none

/-- The value that settings give a field; `null` gives none. -/
def settingOf (settings : List (String × Option String)) (f : Field) : Option String :=
  (settings.lookup f.key).join

/-- Setting a field by its key leaves the others as they were. -/
theorem setField?_eq_some {m m' : Metadata} {key : String} {v : Option String}
    (h : m.setField? key v = some m') :
    ∃ f : Field, f.key = key ∧ m'.value f = v ∧ ∀ g ≠ f, m'.value g = m.value g := by
  unfold setField? at h
  split at h
  · rename_i hkey
    cases h
    exact ⟨.name, hkey.symm, rfl, fun g hg => by cases g <;> simp [value] at hg ⊢⟩
  split at h
  · rename_i hkey
    obtain ⟨scope, rfl, rfl⟩ := Option.map_eq_some_iff.mp h
    exact ⟨.scope, hkey.symm, rfl, fun g hg => by cases g <;> simp [value] at hg ⊢⟩
  split at h
  · rename_i hkey
    cases h
    exact ⟨.author, hkey.symm, rfl, fun g hg => by cases g <;> simp [value] at hg ⊢⟩
  split at h
  · rename_i hkey
    cases h
    exact ⟨.homepage, hkey.symm, rfl, fun g hg => by cases g <;> simp [value] at hg ⊢⟩
  · cases h

/-- Each field has the value that its key is given, or the value that it had before. -/
theorem setFields?_value {m m' : Metadata} {settings : List (String × Option String)}
    (hkeys : (settings.map Prod.fst).Nodup) (h : m.setFields? settings = some m') (f : Field) :
    m'.value f = (settings.lookup f.key).getD (m.value f) := by
  induction settings generalizing m with
  | nil =>
    cases h
    rfl
  | cons setting settings ih =>
    obtain ⟨key, v⟩ := setting
    obtain ⟨hkey, hrestKeys⟩ := List.nodup_cons.mp hkeys
    obtain ⟨n, hn, hrest⟩ := Option.bind_eq_some_iff.mp h
    obtain ⟨g, rfl, hg, hothers⟩ := setField?_eq_some hn
    rw [ih hrestKeys hrest, List.lookup_cons]
    by_cases hf : f = g
    · subst hf
      have hnone : settings.lookup f.key = none := by
        rw [List.lookup_eq_none_iff]
        intro p hp
        rw [bne_iff_ne]
        intro hk
        exact hkey (List.mem_map.mpr ⟨p, hp, hk.symm⟩)
      rw [hnone, beq_self_eq_true, hg]
      rfl
    · have hne : (f.key == g.key) = false := by
        rw [beq_eq_false_iff_ne]
        exact fun hk => hf (Field.key_injective hk)
      rw [hne, hothers f hf]

/-- The keys that go with the elements of an array are all different. -/
theorem nodup_keys_zip (values : List (Option String)) :
    ((configKeys.zip values).map Prod.fst).Nodup := by
  have hkeys : configKeys.Nodup := by decide
  rw [List.zip_eq_zip_take_min, List.map_fst_zip (by simp)]
  exact hkeys.sublist (List.take_sublist _ _)

/-- A file is valid if its settings can be made: it has settings, no key comes twice, and each field
takes its value. -/
theorem ofConfig?_eq (text : String) : ofConfig? text = (settings? text).bind ofMembers? := by
  unfold ofConfig?
  split
  · rename_i htokens
    rw [settings?, htokens]
    rfl
  · rename_i htokens
    rw [settings?, htokens]
    rfl
  · rename_i rest hrest htokens
    rw [settings?, htokens]
    show _ = (objectSettings? rest).bind ofMembers?
    rw [objectSettings?, if_neg hrest]
  · rename_i rest hrest htokens
    rw [settings?, htokens]
    show _ = (arraySettings? rest).bind ofMembers?
    rw [arraySettings?, if_neg hrest, Option.bind_assoc]
    congr 1
    funext values
    unfold ofElements?
    split
    · rw [Option.bind_some, ofMembers?, if_pos (nodup_keys_zip values)]
    · rfl
  · rename_i hempty hempty' hobject harray
    unfold settings?
    split
    · rename_i rest htokens
      exact absurd htokens (hobject rest)
    · rename_i rest htokens
      exact absurd htokens (harray rest)
    · rfl

/-- A valid configuration file gives each field the value that it sets, or the default. -/
theorem ofConfig?_value {text : String} {m : Metadata} (h : ofConfig? text = some m) :
    ∃ settings, settings? text = some settings ∧
      ∀ f, m.value f = (settingOf settings f <|> f.fallback) := by
  rw [ofConfig?_eq] at h
  obtain ⟨settings, hsettings, hof⟩ := Option.bind_eq_some_iff.mp h
  refine ⟨settings, hsettings, fun f => ?_⟩
  rw [ofMembers?] at hof
  split at hof
  · rename_i hkeys
    have hvalue := setFields?_value hkeys hof f
    rw [value_empty] at hvalue
    rw [settingOf]
    cases hlookup : settings.lookup f.key with
    | none =>
      rw [hvalue, hlookup]
      rfl
    | some v =>
      rw [hlookup, Option.getD_some] at hvalue
      rw [hvalue]
      cases v with
      | some s => rfl
      | none =>
        -- A file that sets the namespace to `null` would leave the field without a value.
        cases f with
        | scope => cases hvalue
        | name => rfl
        | author => rfl
        | homepage => rfl
  · cases hof

end Metadata

end Userstyle

namespace Userstyle.Cli

open Metadata

/-! ## Options over the file -/

/-- The value that the command line gives a field. -/
def ConvertOptions.value (o : ConvertOptions) : Field → Option String
  | .name => o.name
  | .scope => o.scope
  | .author => o.author
  | .homepage => o.homepage

/-- The default namespace is given on the command line, and another one is set in the file. -/
def ConvertOptions.LosesScope (o : ConvertOptions) (settings : List (String × Option String)) :
    Prop :=
  o.scope = some defaultScope ∧ ∃ scope ≠ defaultScope, settingOf settings .scope = some scope

/-- The settings of the configuration file of a command, which can be read and is valid. Without a
file there are none. -/
def Configured (source : Source) (o : ConvertOptions) (settings : List (String × Option String)) :
    Prop :=
  match o.config with
  | none => settings = []
  | some path =>
    ∃ text, source path = .ok text ∧ (ofConfig? text).isSome ∧ settings? text = some settings

/-- The metadata that the options are laid over. -/
theorem Configured.loadMetadata_eq {source : Source} {o : ConvertOptions}
    {settings : List (String × Option String)} (h : Configured source o settings) :
    ∃ base : Metadata, loadMetadata source o = .ok (base.overlay o.metadata) ∧
      ∀ f, base.value f = (settingOf settings f <|> f.fallback) := by
  unfold Configured at h
  unfold loadMetadata
  cases hconfig : o.config with
  | none =>
    simp only [hconfig] at h
    subst h
    refine ⟨Metadata.empty, rfl, fun f => ?_⟩
    rw [value_empty]
    rfl
  | some path =>
    simp only [hconfig] at h
    obtain ⟨text, hread, hvalid, hsettings⟩ := h
    obtain ⟨base, hbase⟩ := Option.isSome_iff_exists.mp hvalid
    obtain ⟨_, hsettings', hvalue⟩ := ofConfig?_value hbase
    cases hsettings.symm.trans hsettings'
    exact ⟨base, by simp [readText, hread, hbase], hvalue⟩

/-- An option goes before what it is laid over, but for the default namespace. -/
theorem value_overlay (base : Metadata) (o : ConvertOptions) (f : Field) :
    (base.overlay o.metadata).value f =
      if f = .scope ∧ o.scope = some defaultScope then base.value f
      else (o.value f <|> base.value f) := by
  cases f with
  | scope =>
    cases hscope : o.scope with
    | none => simp [overlay, ConvertOptions.metadata, ConvertOptions.value, value, hscope]
    | some scope =>
      by_cases hdefault : scope = defaultScope <;>
        simp [overlay, ConvertOptions.metadata, ConvertOptions.value, value, hscope, hdefault]
  | name => rfl
  | author => rfl
  | homepage => rfl

/-- A command whose configuration file, if it has one, is valid gets its metadata. Each field has the
value that the command line gives it, otherwise the one that the file sets, otherwise the default,
whatever the values are; but if the command line gives the default namespace and the file another
one, then the one in the file is taken. -/
theorem loadMetadata_value_iff {source : Source} {o : ConvertOptions}
    {settings : List (String × Option String)} (h : Configured source o settings) :
    ∃ m, loadMetadata source o = .ok m ∧
      (∀ f : Field, m.value f = (o.value f <|> settingOf settings f <|> f.fallback) ↔
        ¬(f = .scope ∧ o.LosesScope settings)) ∧
      (o.LosesScope settings → m.value .scope = settingOf settings .scope) := by
  obtain ⟨base, hload, hbase⟩ := h.loadMetadata_eq
  refine ⟨base.overlay o.metadata, hload, fun f => ?_, fun hloses => ?_⟩
  · rw [value_overlay, hbase]
    by_cases hscope : f = .scope ∧ o.scope = some defaultScope
    · obtain ⟨rfl, hdefault⟩ := hscope
      unfold ConvertOptions.LosesScope ConvertOptions.value Field.fallback
      cases hset : settingOf settings .scope <;> simp [hdefault]
    · rw [if_neg hscope]
      exact iff_of_true rfl fun hloses => hscope ⟨hloses.1, hloses.2.1⟩
  · obtain ⟨hdefault, scope, -, hset⟩ := hloses
    rw [value_overlay, if_pos ⟨rfl, hdefault⟩, hbase, hset]
    rfl

/-- A name that is empty goes before the one in the file, and `null` sets no author. -/
theorem loadMetadata_value_iff_emptyName :
    Configured (fun _ => .ok "\x7b\"name\":\"a\",\"namespace\":\"n\",\"author\":null\x7d")
        ⟨"a.css", none, some "c.json", some "", none, none, some "h"⟩
        [("name", some "a"), ("namespace", some "n"), ("author", none)] ∧
      ∃ m, loadMetadata
          (fun _ => .ok "\x7b\"name\":\"a\",\"namespace\":\"n\",\"author\":null\x7d")
          ⟨"a.css", none, some "c.json", some "", none, none, some "h"⟩ = .ok m ∧
        m.value .name = some "" ∧ m.value .scope = some "n" ∧ m.value .author = none ∧
        m.value .homepage = some "h" := by
  have h : Configured
      (fun _ => .ok "\x7b\"name\":\"a\",\"namespace\":\"n\",\"author\":null\x7d")
      ⟨"a.css", none, some "c.json", some "", none, none, some "h"⟩
      [("name", some "a"), ("namespace", some "n"), ("author", none)] :=
    ⟨_, rfl, by decide +kernel, by decide +kernel⟩
  obtain ⟨m, hload, hvalue, -⟩ := loadMetadata_value_iff h
  have hkeeps (f : Field) := (hvalue f).mpr fun hloses => nomatch hloses.2.1
  exact ⟨h, m, hload, hkeeps .name, hkeeps .scope, hkeeps .author, hkeeps .homepage⟩

/-- The default namespace on the command line does not go before another one in the file. -/
theorem loadMetadata_scope_lost :
    ∃ m, (loadMetadata (fun _ => .ok "\x7b\"namespace\":\"n\"\x7d")
        ⟨"a.css", none, some "c.json", none, some "userstyle", none, none⟩).toOption = some m ∧
      m.value .scope ≠ some "userstyle" ∧ m.value .scope = some "n" :=
  ⟨⟨none, "n", none, none⟩, by decide +kernel, by decide, rfl⟩

end Userstyle.Cli
