import PixelUnit.Proofs.Settings.Mappings

/-!
# Mappings in other words

The order of a mapping's entries and the names that are chosen for its settings do not count, names
that are not known and settings that are named twice are always faults, and a mapping without texts
between slashes is as good as its entries put on top one by one (`mapping_spelling`). But a text
between slashes with a line feed behind it is read as a regular expression too
(`not_agree_feedBehind`).
-/

namespace PixelUnit.Settings

/-! ## Names -/

/-- Two names are the same or name one setting. -/
def SameName (a b : String) : Prop :=
  a = b ∨ ∃ k : Key, (a = k.name ∨ a = k.camelName) ∧ (b = k.name ∨ b = k.camelName)

/-- Entries are the same but for their order and the names that are chosen for the settings. -/
def Respelled (m m' : Entries) : Prop :=
  ∃ c, m.Perm c ∧ List.Forall₂ (fun e e' => SameName e.1 e'.1 ∧ e.2 = e'.2) c m'

theorem SameName.ofAnyName?_eq {a b : String} (h : SameName a b) :
    Key.ofAnyName? a = Key.ofAnyName? b := by
  rcases h with rfl | ⟨k, ha, hb⟩
  · rfl
  · rw [Key.ofAnyName?_eq_some_iff.2 ha, Key.ofAnyName?_eq_some_iff.2 hb]

/-- Respelled entries are meant for the same settings with the same values, in another order. -/
theorem Respelled.meant_perm {m m' : Entries} (h : Respelled m m') : m.meant.Perm m'.meant := by
  obtain ⟨c, hperm, hnames⟩ := h
  have hsame : Entries.meant c = m'.meant := by
    clear hperm
    induction hnames with
    | nil => rfl
    | cons he _ ih => exact congrArg₂ List.cons (congrArg₂ Prod.mk he.1.ofAnyName?_eq he.2) ih
  exact (hperm.map _).trans (List.Perm.of_eq hsame)

/-! ## Results -/

/-- Both results are the same settings, or both are faults. -/
def Agree (x y : Except Fault Settings) : Prop :=
  ∀ t, x = .ok t ↔ y = .ok t

theorem agree_of_error {x y : Except Fault Settings} {f g : Fault} (hx : x = .error f)
    (hy : y = .error g) : Agree x y := by
  subst hx hy
  exact fun _ => iff_of_false nofun nofun

/-- If one of two results that agree is a fault, so is the other. -/
theorem Agree.exists_error {x y : Except Fault Settings} {f : Fault} (h : Agree x y)
    (hx : x = .error f) : ∃ g, y = .error g := by
  cases hy : y with
  | error g => exact ⟨g, rfl⟩
  | ok t => exact absurd (hx.symm.trans ((h t).2 hy)) nofun

theorem exists_error_of_ne_ok {x : Except Fault Settings} (h : ∀ t, x ≠ .ok t) :
    ∃ f, x = .error f := by
  cases x with
  | error f => exact ⟨f, rfl⟩
  | ok t => exact absurd rfl (h t)

/-! ## Texts that may stand for regular expressions -/

/-- A value for a setting has a text where it may stand for a regular expression. -/
inductive Shows : Key → Value → String → Prop
  | path (s : String) : Shows .pathPattern (.text s) s
  | entry {k : Key} {vs : List Value} {s : String} (hk : k.IsBlacklist) (hs : .text s ∈ vs) :
    Shows k (.list vs) s

/-- A mapping has a text where it may stand for a regular expression. -/
def Entries.HasText (m : Entries) (s : String) : Prop :=
  ∃ k v, (some k, v) ∈ m.meant ∧ Shows k v s

/-- A value that is no literal is read as itself. -/
theorem readLiteral_eq_self [Regex.CharacterNames] {k : Key} {v : Value}
    (h : ∀ s, v = .text s → literalParts? s.toList = none) : readLiteral k v = .ok v := by
  cases v with
  | text s => exact readLiteral_of_none (h s rfl)
  | _ => rfl

/-- Where no text is read as a regular expression, values are kept as they are. -/
theorem accept_eq_keep [Regex.CharacterNames] {k : Key} {v : Value}
    (h : ∀ s, Shows k v s → literalParts? s.toList = none) : accept k v = keep k v := by
  have hlist {k : Key} {vs : List Value} (hk : k.IsBlacklist)
      (h : ∀ s, Shows k (.list vs) s → literalParts? s.toList = none) :
      vs.mapM (readLiteral k) = .ok vs := by
    refine mapM_eq_ok_iff.2 (List.forall₂_same.2 fun v hv => readLiteral_eq_self fun s hs => ?_)
    exact h s (.entry hk (hs ▸ hv))
  suffices hread : readLiterals k v = .ok v by rw [accept, hread]; rfl
  unfold readLiterals
  split
  · refine readLiteral_eq_self fun s hs => h s ?_
    rw [hs]
    exact .path s
  · rw [hlist (Or.inl rfl) h]
    rfl
  · rw [hlist (Or.inr rfl) h]
    rfl
  · rfl

/-- A text that is read as a regular expression is not kept as it is. -/
theorem keep_ne_of_shows [Regex.CharacterNames] {k : Key} {v w : Value} {s : String}
    {parts : List Char × List Char}
    (hs : Shows k v s) (hparts : literalParts? s.toList = some parts)
    (haccept : accept k v = .ok w) : keep k v ≠ .ok w := by
  obtain ⟨body, letters⟩ := parts
  intro hkeep
  cases hs with
  | path =>
    obtain ⟨v, hv, hw⟩ := bind_eq_ok_iff.1 haccept
    obtain ⟨r, rfl, hr⟩ := exists_regex_of_parts hparts hv
    obtain ⟨r', hr', rfl⟩ := keep_text_eq_ok_iff.1 hkeep
    obtain rfl : r = r' := Value.regex.inj (Except.ok.inj hw)
    exact ofList_body_ne hparts (hr.symm.trans (source_of_compile hr'))
  | @entry _ vs _ hk hs =>
    obtain ⟨b, hb, rfl⟩ := (accept_list_eq_ok_iff hk).1 haccept
    obtain ⟨b', hb', hsame⟩ := (keep_list_eq_ok_iff hk).1 hkeep
    obtain rfl := blacklistValue_injective hsame
    clear haccept hkeep hsame
    -- both lists of entries are the same, so it is enough to look at the entry for `s`
    induction hb with
    | nil => cases hs
    | @cons v x vs b hv hb ih =>
      obtain ⟨hv', hb'⟩ := List.forall₂_cons.1 hb'
      rcases List.mem_cons.1 hs with rfl | hs
      · obtain ⟨v, hread, hx⟩ := bind_eq_ok_iff.1 hv
        obtain ⟨r, rfl, -⟩ := exists_regex_of_parts hparts hread
        have hregex : Blacklist.Entry.regex r = x := Except.ok.inj hx
        have htext : Blacklist.Entry.substring s = x := Except.ok.inj hv'
        exact absurd (hregex.trans htext.symm) nofun
      · exact ih hs hb'

/-! ## Mappings -/

/-- A mapping names a setting in both ways. -/
def Entries.Doubled (m : Entries) : Prop :=
  ∃ k : Key, k.name ≠ k.camelName ∧ k.name ∈ m.map Prod.fst ∧ k.camelName ∈ m.map Prod.fst

section Mappings

variable {base t : Settings} {m : Entries}

/-- A mapping that settles anything has only names of settings. -/
theorem Settled.exists_key {accept : Key → Value → Except Fault Value}
    (h : Settled accept base m.meant t) {e : String × Value} (he : e ∈ m) :
    ∃ k : Key, e.1 = k.name ∨ e.1 = k.camelName := by
  have hmem : (Key.ofAnyName? e.1, e.2) ∈ m.meant := List.mem_map_of_mem he
  cases hk : Key.ofAnyName? e.1 with
  | none => exact absurd (List.mem_map_of_mem hmem) (hk ▸ h.meant)
  | some k => exact ⟨k, Key.ofAnyName?_eq_some_iff.1 hk⟩

/-- A mapping that settles anything names each setting in one way. -/
theorem Settled.not_doubled {accept : Key → Value → Except Fault Value}
    (h : Settled accept base m.meant t) : ¬m.Doubled := by
  rintro ⟨k, hne, hname, hcamel⟩
  have honce : (m.map fun e => Key.ofAnyName? e.1).Nodup := by
    have honce := h.once
    rwa [Entries.meant, List.map_map] at honce
  obtain ⟨e, he, hek⟩ := List.mem_map.1 hname
  obtain ⟨e', he', hek'⟩ := List.mem_map.1 hcamel
  have htarget : Key.ofAnyName? e.1 = Key.ofAnyName? e'.1 := by
    rw [hek, hek', Key.ofAnyName?_eq_some_iff.2 (Or.inl rfl),
      Key.ofAnyName?_eq_some_iff.2 (Or.inr rfl)]
  obtain rfl := List.inj_on_of_nodup_map honce he he' htarget
  exact hne (hek.symm.trans hek')

/-- Where no text is read as a regular expression, entries are put on top as they are. -/
theorem agree_merge_of_none [Regex.CharacterNames]
    (h : ∀ s, m.HasText s → literalParts? s.toList = none) :
    Agree (ofMapping base (.mapping m)) (base.merge m) := by
  intro t
  have hkeep {k : Key} {v : Value} (hv : (some k, v) ∈ m.meant) : accept k v = keep k v :=
    accept_eq_keep fun s hs => h s ⟨k, v, hv, hs⟩
  rw [ofMapping_eq_ok_iff, merge_eq_ok_iff]
  exact ⟨fun ht => { ht with given := fun hv => hkeep hv ▸ ht.given hv },
    fun ht => { ht with given := fun hv => (hkeep hv).symm ▸ ht.given hv }⟩

/-- Where a text is read as a regular expression, entries are not put on top as they are. -/
theorem not_merge_of_parts [Regex.CharacterNames] {s : String} {parts : List Char × List Char}
    (hs : m.HasText s)
    (hparts : literalParts? s.toList = some parts) (ht : ofMapping base (.mapping m) = .ok t) :
    base.merge m ≠ .ok t := by
  obtain ⟨k, v, hv, hs⟩ := hs
  intro hmerge
  exact keep_ne_of_shows hs hparts ((ofMapping_eq_ok_iff.1 ht).given hv)
    ((merge_eq_ok_iff.1 hmerge).given hv)

end Mappings

/-- The order of the entries and the spelling of the names do not count; a name that is not known
and a setting that is named in both ways are faults; and without texts of the form `/body/letters`
a mapping is as good as its entries put on top one by one, unless there is such a text with a line
feed behind it. -/
theorem mapping_spelling [Regex.CharacterNames] (base : Settings) (m : Entries) :
    (∀ m', Respelled m m' →
      Agree (ofMapping base (.mapping m)) (ofMapping base (.mapping m'))) ∧
    ((∃ e ∈ m, ∀ k : Key, e.1 ≠ k.name ∧ e.1 ≠ k.camelName) ∨ m.Doubled →
      ∃ f, ofMapping base (.mapping m) = .error f) ∧
    ((∀ s body letters, m.HasText s → ¬IsLiteral s.toList body letters) →
      (Agree (ofMapping base (.mapping m)) (base.merge m) ↔
        (∀ s body letters, m.HasText s → ¬IsFedLiteral s.toList body letters) ∨
          (∃ f, ofMapping base (.mapping m) = .error f) ∧ ∃ f, base.merge m = .error f)) := by
  refine ⟨fun m' hm' t => ?_, fun hfault => ?_, fun hliteral => ⟨fun hagree => ?_, ?_⟩⟩
  · rw [ofMapping_eq_ok_iff, ofMapping_eq_ok_iff]
    exact ⟨fun ht => ht.perm hm'.meant_perm, fun ht => ht.perm hm'.meant_perm.symm⟩
  · refine exists_error_of_ne_ok fun t ht => ?_
    have hsettled := ofMapping_eq_ok_iff.1 ht
    rcases hfault with ⟨e, he, hunknown⟩ | hdoubled
    · obtain ⟨k, hk⟩ := hsettled.exists_key he
      exact hk.elim (hunknown k).1 (hunknown k).2
    · exact hsettled.not_doubled hdoubled
  · cases hx : ofMapping base (.mapping m) with
    | error f => exact Or.inr ⟨⟨f, rfl⟩, hagree.exists_error hx⟩
    | ok t =>
      refine Or.inl fun s body letters hs hfed => ?_
      have hparts := literalParts?_eq_some_iff.2 (Or.inr hfed)
      exact not_merge_of_parts hs hparts hx ((hagree t).1 hx)
  · rintro (hfed | ⟨⟨f, hf⟩, g, hg⟩)
    · refine agree_merge_of_none fun s hs => ?_
      cases hparts : literalParts? s.toList with
      | none => rfl
      | some parts =>
        rcases literalParts?_eq_some_iff.1 hparts with h | h
        · exact absurd h (hliteral s _ _ hs)
        · exact absurd h (hfed s _ _ hs)
    · exact agree_of_error hf hg

/-- A blacklist and a custom property. -/
def skipEntries : Entries :=
  [("selectorBlackList", .list [.text "/a"]), ("css_variable", .text "--u")]

/-- The same in other words. -/
def respelledSkipEntries : Entries :=
  [("cssVariable", .text "--u"), ("selector_black_list", .list [.text "/a"])]

attribute [local instance] Regex.CharacterNames.none

/-- Two spellings of the same settings agree, and so do reading and merging them. -/
theorem mapping_spelling_skipEntries : Respelled skipEntries respelledSkipEntries ∧
    (ofMapping {} (.mapping skipEntries)).isOk = true ∧
    Agree (ofMapping {} (.mapping skipEntries)) (ofMapping {} (.mapping respelledSkipEntries)) ∧
    Agree (ofMapping {} (.mapping skipEntries)) (merge {} skipEntries) ∧
    ∃ f, ofMapping {} (.mapping (skipEntries ++ respelledSkipEntries)) = .error f := by
  have hrespelled : Respelled skipEntries respelledSkipEntries := by
    refine ⟨_, .swap _ _ _, .cons ⟨?_, rfl⟩ (.cons ⟨?_, rfl⟩ .nil)⟩
    · exact Or.inr ⟨.variableName, Or.inl rfl, Or.inr rfl⟩
    · exact Or.inr ⟨.selectorBlacklist, Or.inr rfl, Or.inl rfl⟩
  have hdoubled : Entries.Doubled (skipEntries ++ respelledSkipEntries) :=
    ⟨.variableName, by decide, by decide, by decide⟩
  have hnone (s : String) (hs : skipEntries.HasText s) : literalParts? s.toList = none := by
    obtain ⟨k, v, hv, hs⟩ := hs
    rcases List.mem_pair.1 hv with heq | heq
    · cases heq
      cases hs with
      | entry hk hs =>
        cases List.mem_singleton.1 hs
        decide
    · cases heq
      cases hs
  refine ⟨hrespelled, by decide +kernel, (mapping_spelling {} _).1 _ hrespelled, ?_,
    (mapping_spelling {} _).2.1 (Or.inr hdoubled)⟩
  refine ((mapping_spelling {} _).2.2 fun s body letters hs h => ?_).2 (Or.inl ?_)
  · exact absurd ((hnone s hs).symm.trans (literalParts?_eq_some_iff.2 (Or.inl h))) nofun
  · intro s body letters hs h
    exact absurd ((hnone s hs).symm.trans (literalParts?_eq_some_iff.2 (Or.inr h))) nofun

/-- A path between slashes with a line feed behind it. -/
def feedBehind : Entries :=
  [("include", .text "/a/\n")]

/-- With a line feed behind it, what is no literal is read as one, and does not agree with itself as
it is merged. -/
theorem not_agree_feedBehind :
    (∀ s body letters, feedBehind.HasText s → ¬IsLiteral s.toList body letters) ∧
      ¬Agree (ofMapping {} (.mapping feedBehind)) (merge {} feedBehind) := by
  have htext (s : String) (hs : feedBehind.HasText s) : s = "/a/\n" := by
    obtain ⟨k, v, hv, hs⟩ := hs
    cases List.mem_singleton.1 hv
    cases hs
    rfl
  have hsome : feedBehind.HasText "/a/\n" := ⟨_, _, List.mem_singleton_self _, .path _⟩
  refine ⟨fun s body letters hs h => h.ne_concat ['/', 'a', '/'] ?_, fun hagree => ?_⟩
  · rw [htext s hs]
    rfl
  · have hok : (ofMapping {} (.mapping feedBehind)).isOk = true := by decide +kernel
    cases ht : ofMapping {} (.mapping feedBehind) with
    | error f =>
      rw [ht] at hok
      cases hok
    | ok t => exact not_merge_of_parts hsome rfl ht ((hagree t).1 ht)

end PixelUnit.Settings
