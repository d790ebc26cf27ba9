import PixelUnit.Proofs.Regex.Rounds
import PixelUnit.Proofs.Settings.Mappings

/-!
# Flags over a configuration over defaults

Where settings come from can be told for each of them by itself: from the flag that is given for it,
else from the configuration, else from the defaults (`layered_values`). A path that neither gives is
one that every path matches, so whatever has a custom property is active.
-/

namespace PixelUnit.Settings

/-! ## The expression that every path matches -/

/-- Every path matches. -/
def CoversAll (t : Settings) : Prop :=
  ∃ r, t.pathPattern = some r ∧ ∀ path, r.finds path = true

theorem compile_anyPath [Regex.CharacterNames] :
    Regex.compile ".*" {} = .ok ⟨".*", {}, .rep 0 none .greedy (.any false)⟩ := by
  rfl

/-- An expression for any path covers all paths. -/
theorem coversAll_of_anyPath [Regex.CharacterNames] {t : Settings}
    (h : keep .pathPattern anyPath = .ok (t.valueOf .pathPattern)) : t.CoversAll := by
  obtain ⟨r, hr, hvalue⟩ := keep_text_eq_ok_iff.1 h
  have hpattern : patternValue (some r) = patternValue t.pathPattern := hvalue
  obtain rfl := Except.ok.inj (compile_anyPath.symm.trans hr)
  exact ⟨_, (patternValue_injective hpattern).symm,
    fun path => Regex.Pattern.isSome_search_rep_zero _ _⟩

/-! ## Values that are given -/

/-- A mapping is what a configuration file holds; without a file it is empty. -/
def Configures : Option (String × String) → Entries → Prop
  | none, m => m = []
  | some (_, content), m => Json.read (unifyLineBreaks content.toList) = .ok (.mapping m)

/-- A flag is given for a setting. -/
def IsFlagFor (k : Key) (e : String × Value) : Prop :=
  isGiven e.2 = true ∧ Key.ofAnyName? e.1 = some k

/-- The value given for a setting, if there is one: that of a flag, with its items in a list if it
is a blacklist; without a flag, that of a configuration. -/
inductive Given (flags m : Entries) (k : Key) : Option Value → Prop
  | flag {e : String × Value} {v : Value} (he : e ∈ flags) (hk : IsFlagFor k e)
      (hv : flagValue e = .ok (e.1, v)) : Given flags m k (some v)
  | config {v : Value} (hflags : ∀ e ∈ flags, ¬IsFlagFor k e) (hv : (some k, v) ∈ m.meant) :
    Given flags m k (some v)
  | default (hflags : ∀ e ∈ flags, ¬IsFlagFor k e) (hm : some k ∉ m.meant.map Prod.fst) :
    Given flags m k none

/-- Settings have what is accepted of a value, or the default. -/
def Has [Regex.CharacterNames] (t : Settings) (k : Key) : Option Value → Prop
  | some v => accept k v = .ok (t.valueOf k)
  | none => t.valueOf k = valueOf {} k

/-- The path is not set: no value is given for it, or nothing. -/
def IsUnset (k : Key) (v? : Option Value) : Prop :=
  k = .pathPattern ∧ (v? = none ∨ v? = some .null)

section Layers

variable {flags m given : Entries} {base s t : Settings} {k : Key}

/-- Reading the value of a flag leaves its name alone. -/
theorem flagValue_fst {e e' : String × Value} (h : flagValue e = .ok e') : e'.1 = e.1 := by
  have hlist {k : Key} (h : flagValue.asList e k = .ok e') : e'.1 = e.1 := by
    unfold flagValue.asList at h
    split at h <;> cases h
    rfl
  unfold flagValue at h
  split at h
  · exact hlist h
  · exact hlist h
  · cases h
    rfl

/-- The flags that are given, as entries. -/
def FlagEntries (flags given : Entries) : Prop :=
  List.Forall₂ (fun e e' => flagValue e = .ok e') (flags.filter fun e => isGiven e.2) given

/-- Settings with flags on top, and with every path if none is set then. -/
def withFlags [Regex.CharacterNames] (base : Settings) (flags : Entries) :
    Except Fault Settings := do
  let given ← (flags.filter (isGiven ·.2)).mapM flagValue
  let settings ← ofMapping base (.mapping given)
  if settings.pathPattern.isNone then settings.update [(.pathPattern, anyPath)] else .ok settings

/-- Flags are put on top of what a configuration settles. -/
theorem layered_eq_ok [Regex.CharacterNames] {config : Option (String × String)}
    (h : layered config flags = .ok t) :
    ∃ m base, Configures config m ∧ Settled accept {} m.meant base ∧
      base.withFlags flags = .ok t := by
  cases config with
  | none =>
    exact ⟨[], {}, rfl, ⟨by simp [Entries.meant], List.nodup_nil, nofun, fun _ => rfl⟩, h⟩
  | some file =>
    obtain ⟨base, hload, hflags⟩ := bind_eq_ok_iff.1 h
    unfold load at hload
    dsimp only at hload
    split at hload
    · next v hread =>
      cases v with
      | mapping m => exact ⟨m, base, hread, ofMapping_eq_ok_iff.1 hload, hflags⟩
      | _ => cases hload
    · cases hload

/-- Flags on top of settings: either a path is set then, or it is made to cover every path and all
other settings stay. -/
theorem withFlags_eq_ok [Regex.CharacterNames] (h : base.withFlags flags = .ok t) :
    ∃ given s, FlagEntries flags given ∧ Settled accept base given.meant s ∧
      ((t = s ∧ s.pathPattern ≠ none) ∨
        (s.pathPattern = none ∧ t.CoversAll ∧
          ∀ k, k ≠ .pathPattern → t.valueOf k = s.valueOf k)) := by
  obtain ⟨given, hgiven, h⟩ := bind_eq_ok_iff.1 h
  obtain ⟨s, hs, h⟩ := bind_eq_ok_iff.1 h
  refine ⟨given, s, mapM_eq_ok_iff.1 hgiven, ofMapping_eq_ok_iff.1 hs, ?_⟩
  split at h
  · next hnone =>
    have hvalues := update_eq_ok_iff.1 h
    refine Or.inr ⟨Option.isNone_iff_eq_none.1 hnone, ?_, fun k hk => ?_⟩
    · exact coversAll_of_anyPath (hvalues .pathPattern)
    · have hvalue := hvalues k
      rw [Overrides.get?_cons, if_neg hk] at hvalue
      exact (Except.ok.inj hvalue).symm
  · next hsome =>
    cases h
    exact Or.inl ⟨rfl, fun hnone => hsome (by rw [hnone]; rfl)⟩

/-! ## Flags as entries -/

theorem FlagEntries.exists_of_flag (h : FlagEntries flags given) {e : String × Value}
    (he : e ∈ flags) (hgiven : isGiven e.2 = true) :
    ∃ e' ∈ given, flagValue e = .ok e' := by
  have hmem : e ∈ flags.filter fun e => isGiven e.2 := List.mem_filter.2 ⟨he, hgiven⟩
  exact exists_mem_of_forall₂ h hmem

/-- An entry for the flags comes from a flag that is given. -/
theorem FlagEntries.exists_flag (h : FlagEntries flags given) {e' : String × Value}
    (he' : e' ∈ given) : ∃ e ∈ flags, isGiven e.2 = true ∧ flagValue e = .ok e' := by
  obtain ⟨e, he, hflag⟩ := exists_mem_of_forall₂ h.flip he'
  obtain ⟨he, hgiven⟩ := List.mem_filter.1 he
  exact ⟨e, he, hgiven, hflag⟩

/-- Without a flag for a setting, the entries of the flags do not mention it. -/
theorem FlagEntries.not_mem (h : FlagEntries flags given)
    (hflags : ∀ e ∈ flags, ¬IsFlagFor k e) : some k ∉ given.meant.map Prod.fst := by
  intro hmem
  obtain ⟨_, hmeant, hk⟩ := List.mem_map.1 hmem
  obtain ⟨e', he', rfl⟩ := List.mem_map.1 hmeant
  obtain ⟨e, he, hgiven, hflag⟩ := h.exists_flag he'
  exact hflags e he ⟨hgiven, flagValue_fst hflag ▸ hk⟩

/-- For each setting there is a value that is given, or none. -/
theorem FlagEntries.exists_given (h : FlagEntries flags given) (m : Entries) (k : Key) :
    ∃ v?, Given flags m k v? := by
  by_cases hflag : ∃ e ∈ flags, IsFlagFor k e
  · obtain ⟨e, he, hk⟩ := hflag
    obtain ⟨e', -, hvalue⟩ := h.exists_of_flag he hk.1
    refine ⟨some e'.2, .flag he hk (hvalue.trans ?_)⟩
    rw [← flagValue_fst hvalue]
  · have hflags : ∀ e ∈ flags, ¬IsFlagFor k e := fun e he hk => hflag ⟨e, he, hk⟩
    by_cases hm : some k ∈ m.meant.map Prod.fst
    · obtain ⟨⟨_, v⟩, hv, rfl⟩ := List.mem_map.1 hm
      exact ⟨some v, .config hflags hv⟩
    · exact ⟨none, .default hflags hm⟩

/-- Behind the flags, settings have the values that are given. -/
theorem has_of_given [Regex.CharacterNames] (hbase : Settled accept {} m.meant base)
    (hflags : FlagEntries flags given)
    (hs : Settled accept base given.meant s) {v? : Option Value} (h : Given flags m k v?) :
    s.Has k v? := by
  cases h with
  | flag he hk hv =>
    obtain ⟨e', he', hv'⟩ := hflags.exists_of_flag he hk.1
    obtain rfl := Except.ok.inj (hv.symm.trans hv')
    exact hs.given (List.mem_map.2 ⟨_, he', congrArg₂ Prod.mk hk.2 rfl⟩)
  | config hnone hv =>
    rw [Has, hs.kept (hflags.not_mem hnone)]
    exact hbase.given hv
  | default hnone hm => exact (hs.kept (hflags.not_mem hnone)).trans (hbase.kept hm)

end Layers

/-! ## Paths -/

theorem valueOf_pathPattern_eq_null_iff {s : Settings} :
    s.valueOf .pathPattern = .null ↔ s.pathPattern = none := by
  rw [valueOf]
  cases s.pathPattern <;> simp

/-- Only nothing is accepted as no path. -/
theorem eq_null_of_accept [Regex.CharacterNames] {v : Value}
    (h : accept .pathPattern v = .ok .null) : v = .null := by
  cases v with
  | null => rfl
  | text s =>
    obtain ⟨w, hw, hnull⟩ := bind_eq_ok_iff.1 h
    cases hparts : literalParts? s.toList with
    | none =>
      obtain rfl : Value.text s = w := Except.ok.inj ((readLiteral_of_none hparts).symm.trans hw)
      obtain ⟨r, -, hvalue⟩ := keep_text_eq_ok_iff.1 hnull
      cases hvalue
    | some parts =>
      obtain ⟨r, rfl, -⟩ := exists_regex_of_parts hparts hw
      cases hnull
  | _ => cases h

/-- The path is none exactly if it is not set. -/
theorem Has.pathPattern_eq_none_iff [Regex.CharacterNames] {s : Settings} {v? : Option Value}
    (h : s.Has .pathPattern v?) : s.pathPattern = none ↔ IsUnset .pathPattern v? := by
  rw [← valueOf_pathPattern_eq_null_iff]
  cases v? with
  | none => exact iff_of_true h ⟨rfl, Or.inl rfl⟩
  | some v =>
    have h : accept .pathPattern v = .ok (s.valueOf .pathPattern) := h
    constructor
    · intro hnull
      rw [hnull] at h
      exact ⟨rfl, Or.inr (congrArg some (eq_null_of_accept h))⟩
    · rintro ⟨-, hv | hv⟩ <;> cases hv
      exact (Except.ok.inj h).symm

/-- Where settings come from. For each setting there is a value that is given, or none, and the
settings have what is accepted of it, or the default. Only the path is made one that every path
matches if it is not set, so settings with a custom property are active. -/
theorem layered_values [Regex.CharacterNames] {config : Option (String × String)} {flags : Entries}
    {t : Settings}
    (h : layered config flags = .ok t) :
    ∃ m, Configures config m ∧
      (∀ k, ∃ v?, Given flags m k v?) ∧
      (∀ k v?, Given flags m k v? →
        (¬IsUnset k v? → t.Has k v?) ∧ (IsUnset k v? → t.CoversAll)) ∧
      (t.variableName ≠ "" → t.isActive = true) := by
  obtain ⟨m, base, hm, hbase, hflags⟩ := layered_eq_ok h
  obtain ⟨given, s, hgiven, hs, hpath⟩ := withFlags_eq_ok hflags
  have hhas {k : Key} {v? : Option Value} (h : Given flags m k v?) : s.Has k v? :=
    has_of_given hbase hgiven hs h
  refine ⟨m, hm, hgiven.exists_given m, fun k v? hk => ⟨fun hset => ?_, fun hunset => ?_⟩, ?_⟩
  · rcases hpath with ⟨rfl, -⟩ | ⟨hnone, -, hothers⟩
    · exact hhas hk
    -- the path was none, so it was not set, and the other settings stay
    · have hne : k ≠ .pathPattern := by
        rintro rfl
        exact hset ((hhas hk).pathPattern_eq_none_iff.1 hnone)
      have hk := hhas hk
      cases v? with
      | none => exact (hothers k hne).trans hk
      | some v => exact hk.trans (congrArg _ (hothers k hne).symm)
  · obtain rfl := hunset.1
    rcases hpath with ⟨rfl, hsome⟩ | ⟨-, hall, -⟩
    · exact absurd ((hhas hk).pathPattern_eq_none_iff.2 hunset) hsome
    · exact hall
  · intro hname
    have hsome : t.pathPattern.isSome = true := by
      rcases hpath with ⟨rfl, hsome⟩ | ⟨-, ⟨r, hr, -⟩, -⟩
      · exact Option.isSome_iff_ne_none.2 hsome
      · rw [hr]
        rfl
    rw [isActive, hsome, Bool.true_and]
    exact bne_iff_ne.2 hname

/-- A configuration file with a custom property, a blacklist and no path. -/
def skipFile : String × String :=
  ("c.json", "\x7b\"cssVariable\": \"--c\", \"include\": null, \"propBlackList\": [\"a\"]\x7d")

/-- The flags of a command line that names a blacklist. -/
def skipFlags : Entries :=
  [("css_variable", .null), ("include", .null), ("selector_black_list", .tuple []),
    ("prop_black_list", .tuple [.text "/b/"]), ("replace", .bool false)]

attribute [local instance] Regex.CharacterNames.none

/-- A flag takes the place of the blacklist in the file, whose custom property stays. -/
theorem layered_values_skipFile : ∃ t, layered (some skipFile) skipFlags = .ok t ∧
    t.variableName = "--c" ∧ t.isActive = true ∧ t.replaces = false ∧
    accept .propBlacklist (.list [.text "/b/"]) = .ok (t.valueOf .propBlacklist) := by
  have hname : (layered (some skipFile) skipFlags).toOption.map (·.variableName) = some "--c" := by
    decide +kernel
  cases ht : layered (some skipFile) skipFlags with
  | error e =>
    rw [ht] at hname
    cases hname
  | ok t =>
    rw [ht] at hname
    have hname : t.variableName = "--c" := Option.some.inj hname
    obtain ⟨m, -, -, hvalues, hactive⟩ := layered_values ht
    have hblacklist : Given skipFlags m .propBlacklist (some (.list [.text "/b/"])) :=
      .flag (e := ("prop_black_list", .tuple [.text "/b/"])) (by simp [skipFlags]) ⟨rfl, by decide⟩
        rfl
    have hreplaces : Given skipFlags m .replaces (some (.bool false)) :=
      .flag (e := ("replace", .bool false)) (by simp [skipFlags]) ⟨rfl, by decide⟩ rfl
    refine ⟨t, rfl, hname, hactive (by rw [hname]; decide), ?_, ?_⟩
    · have hvalue : Except.ok (Value.bool false) = .ok (t.valueOf .replaces) :=
        (hvalues _ _ hreplaces).1 nofun
      exact (Value.bool.inj (Except.ok.inj hvalue)).symm
    · exact (hvalues _ _ hblacklist).1 nofun

end PixelUnit.Settings
