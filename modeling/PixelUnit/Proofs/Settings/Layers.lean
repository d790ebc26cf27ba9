import Mathlib.Data.List.Basic
import PixelUnit.Settings.Mapping

/-!
# Settings on top of settings

Settings given on top of others are checked as if nothing else were given: what is already a setting
passes its own check and stays what it is (`keep_valueOf`), so it neither raises a fault nor hides
one. Settings are known by their values (`ext_valueOf`), and which value a setting has behind an
update can be told for each setting by itself (`update_eq_ok_iff`); from this follows how layers
behave (`merge_layers`).
-/

namespace PixelUnit.Settings

variable {α β : Type}

/-! ## Values of settings -/

theorem entryValue_injective : Function.Injective entryValue := by
  rintro (a | a) (b | b) h <;> cases h <;> rfl

theorem IgnoreMark.toValue_injective : Function.Injective IgnoreMark.toValue := by
  rintro (_ | _ | a) (_ | _ | b) h <;> cases h <;> rfl

/-- A value that may be missing is known from what stands for it. -/
theorem getD_null_injective {f : α → Value} (hf : Function.Injective f)
    (hnull : ∀ a, f a ≠ .null) :
    Function.Injective fun x : Option α => (x.map f).getD .null := by
  rintro (_ | a) (_ | b) h
  · rfl
  · exact absurd h.symm (hnull b)
  · exact absurd h (hnull a)
  · exact congrArg some (hf h)

/-! What is kept for one setting, as a value. -/

def patternValue (x : Option Regex) : Value := (x.map Value.regex).getD .null

def functionValue (x : Option FallbackFunction) : Value := (x.map Value.function).getD .null

def blacklistValue (x : Blacklist) : Value := .tuple (x.map entryValue)

theorem patternValue_injective : Function.Injective patternValue :=
  getD_null_injective (fun _ _ h => Value.regex.inj h) nofun

theorem functionValue_injective : Function.Injective functionValue :=
  getD_null_injective (fun _ _ h => Value.function.inj h) nofun

theorem blacklistValue_injective : Function.Injective blacklistValue :=
  fun _ _ h => List.map_injective_iff.2 entryValue_injective (Value.tuple.inj h)

/-! ## Checking -/

/-- What is kept of a value that is given for a setting, as a value again. -/
def keep [Regex.CharacterNames] : Key → Value → Except Fault Value
  | .pathPattern, v => (checkPathPattern v).map patternValue
  | .variableName, v => (checkVariableName v).map .text
  | .fallback, v => (checkFallback v).map functionValue
  | .fallbackOrigin, v => (checkBoolean .fallbackOrigin v).map .bool
  | .selectorBlacklist, v => (checkBlacklist .selectorBlacklist v).map blacklistValue
  | .propBlacklist, v => (checkBlacklist .propBlacklist v).map blacklistValue
  | .ignoreMark, v => (checkIgnoreMark v).map IgnoreMark.toValue
  | .replaces, v => (checkBoolean .replaces v).map .bool

/-- Entries are accepted as they were kept. -/
theorem mapM_checkEntry (k : Key) (b : Blacklist) :
    (b.map entryValue).mapM (checkEntry k) = .ok b := by
  induction b with
  | nil => rfl
  | cons e b ih =>
    rw [List.map_cons, List.mapM_cons, ih]
    cases e <;> rfl

theorem checkBlacklist_blacklistValue (k : Key) (b : Blacklist) :
    checkBlacklist k (blacklistValue b) = .ok b :=
  mapM_checkEntry k b

/-- What is a setting already passes the check of that setting, and is kept as it is. -/
theorem keep_valueOf [Regex.CharacterNames] (s : Settings) (k : Key) :
    keep k (s.valueOf k) = .ok (s.valueOf k) := by
  cases k with
  | pathPattern =>
    rw [valueOf]
    cases s.pathPattern <;> rfl
  | variableName => rfl
  | fallback =>
    rw [valueOf]
    cases s.fallbackFunction <;> rfl
  | fallbackOrigin | replaces => rfl
  | selectorBlacklist =>
    exact congrArg (Except.map blacklistValue) (checkBlacklist_blacklistValue _ s.selectorBlacklist)
  | propBlacklist =>
    exact congrArg (Except.map blacklistValue) (checkBlacklist_blacklistValue _ s.propBlacklist)
  | ignoreMark =>
    rw [valueOf]
    cases s.ignoreMark <;> rfl

/-! ## Updates that succeed -/

/-- Two checks succeed one after the other if both of them do. -/
theorem bind_eq_ok_iff {x : Except Fault α} {f : α → Except Fault β} {b : β} :
    (x >>= f) = .ok b ↔ ∃ a, x = .ok a ∧ f a = .ok b := by
  cases x with
  | error e => exact ⟨nofun, fun ⟨_, h, _⟩ => nomatch h⟩
  | ok a => exact ⟨fun h => ⟨a, rfl, h⟩, fun ⟨_, h, h'⟩ => by cases h; exact h'⟩

/-- Choosing a setting is choosing its value. -/
theorem choose_map_eq_ok_iff {f : α → Value} (hf : Function.Injective f) {old new : α}
    {check : Value → Except Fault α} {v : Option Value} :
    choose (f old) (fun v => (check v).map f) v = .ok (f new) ↔ choose old check v = .ok new := by
  cases v with
  | none => exact ⟨fun h => congrArg _ (hf (Except.ok.inj h)), fun h => congrArg (Except.map f) h⟩
  | some v =>
    show (check v).map f = .ok (f new) ↔ check v = .ok new
    cases check v with
    | error e => exact ⟨nofun, nofun⟩
    | ok a => exact ⟨fun h => congrArg _ (hf (Except.ok.inj h)), fun h => congrArg (Except.map f) h⟩

/-- The value that a setting has behind an update is the one that is kept of what is given for it,
or the old one if nothing is given. -/
theorem update_eq_ok_iff [Regex.CharacterNames] {s t : Settings} {o : Overrides} :
    s.update o = .ok t ↔ ∀ k, choose (s.valueOf k) (keep k) (o.get? k) = .ok (t.valueOf k) := by
  -- The update takes the settings one after the other, each by its own check.
  have hparts : s.update o = .ok t ↔
      choose s.pathPattern checkPathPattern (o.get? .pathPattern) = .ok t.pathPattern ∧
      choose s.variableName checkVariableName (o.get? .variableName) = .ok t.variableName ∧
      choose s.fallbackFunction checkFallback (o.get? .fallback) = .ok t.fallbackFunction ∧
      choose s.fallbackOrigin (checkBoolean .fallbackOrigin) (o.get? .fallbackOrigin) =
        .ok t.fallbackOrigin ∧
      choose s.replaces (checkBoolean .replaces) (o.get? .replaces) = .ok t.replaces ∧
      choose s.selectorBlacklist (checkBlacklist .selectorBlacklist)
        (o.get? .selectorBlacklist) = .ok t.selectorBlacklist ∧
      choose s.propBlacklist (checkBlacklist .propBlacklist) (o.get? .propBlacklist) =
        .ok t.propBlacklist ∧
      choose s.ignoreMark checkIgnoreMark (o.get? .ignoreMark) = .ok t.ignoreMark := by
    unfold update
    simp only [bind_eq_ok_iff]
    constructor
    · rintro ⟨a, ha, b, hb, c, hc, d, hd, e, he, f, hf, g, hg, i, hi, h⟩
      cases h
      exact ⟨ha, hb, hc, hd, he, hf, hg, hi⟩
    · rintro ⟨ha, hb, hc, hd, he, hf, hg, hi⟩
      exact ⟨_, ha, _, hb, _, hc, _, hd, _, he, _, hf, _, hg, _, hi, rfl⟩
  rw [hparts]
  constructor
  -- A check and what is kept as a value are the same thing, since the values of a setting are told
  -- apart.
  · rintro ⟨ha, hb, hc, hd, he, hf, hg, hi⟩ k
    cases k with
    | pathPattern => exact (choose_map_eq_ok_iff patternValue_injective).2 ha
    | variableName => exact (choose_map_eq_ok_iff fun _ _ => Value.text.inj).2 hb
    | fallback => exact (choose_map_eq_ok_iff functionValue_injective).2 hc
    | fallbackOrigin => exact (choose_map_eq_ok_iff fun _ _ => Value.bool.inj).2 hd
    | replaces => exact (choose_map_eq_ok_iff fun _ _ => Value.bool.inj).2 he
    | selectorBlacklist => exact (choose_map_eq_ok_iff blacklistValue_injective).2 hf
    | propBlacklist => exact (choose_map_eq_ok_iff blacklistValue_injective).2 hg
    | ignoreMark => exact (choose_map_eq_ok_iff IgnoreMark.toValue_injective).2 hi
  · intro h
    exact ⟨(choose_map_eq_ok_iff patternValue_injective).1 (h .pathPattern),
      (choose_map_eq_ok_iff fun _ _ => Value.text.inj).1 (h .variableName),
      (choose_map_eq_ok_iff functionValue_injective).1 (h .fallback),
      (choose_map_eq_ok_iff fun _ _ => Value.bool.inj).1 (h .fallbackOrigin),
      (choose_map_eq_ok_iff fun _ _ => Value.bool.inj).1 (h .replaces),
      (choose_map_eq_ok_iff blacklistValue_injective).1 (h .selectorBlacklist),
      (choose_map_eq_ok_iff blacklistValue_injective).1 (h .propBlacklist),
      (choose_map_eq_ok_iff IgnoreMark.toValue_injective).1 (h .ignoreMark)⟩

/-! ## Updates that fail -/

/-- Two computations end at the same faults. -/
def FailsAlike (x : Except Fault α) (y : Except Fault β) : Prop :=
  ∀ e, x = .error e ↔ y = .error e

theorem failsAlike_of_ok {x : Except Fault α} {y : Except Fault β} {a : α} {b : β}
    (hx : x = .ok a) (hy : y = .ok b) : FailsAlike x y := by
  subst hx hy
  exact fun e => iff_of_false nofun nofun

theorem failsAlike_error (e : Fault) :
    FailsAlike (.error e : Except Fault α) (.error e : Except Fault β) :=
  fun _ => ⟨fun h => congrArg _ (Except.error.inj h), fun h => congrArg _ (Except.error.inj h)⟩

/-- Two checks that fail alike, each followed by checks that fail alike, fail alike. -/
theorem FailsAlike.bind {α' β' : Type} {x : Except Fault α} {y : Except Fault β}
    {f : α → Except Fault α'} {g : β → Except Fault β'} (h : FailsAlike x y)
    (hfg : ∀ a b, FailsAlike (f a) (g b)) : FailsAlike (x >>= f) (y >>= g) := by
  cases x with
  | error e =>
    rw [(h e).1 rfl]
    exact failsAlike_error e
  | ok a =>
    cases y with
    | error e => exact absurd ((h e).2 rfl) nofun
    | ok b => exact hfg a b

/-- Choosing a setting fails where choosing its value does. -/
theorem choose_map_eq_error_iff {f : α → Value} {old : α} {check : Value → Except Fault α}
    {v : Option Value} {e : Fault} :
    choose (f old) (fun v => (check v).map f) v = .error e ↔ choose old check v = .error e := by
  cases v with
  | none => exact iff_of_false nofun nofun
  | some v =>
    show (check v).map f = .error e ↔ check v = .error e
    cases check v with
    | error e' => exact failsAlike_error e' e
    | ok a => exact iff_of_false nofun nofun

/-- What is given decides alone whether choosing fails. -/
theorem failsAlike_choose (old new : α) (check : Value → Except Fault α) (v : Option Value) :
    FailsAlike (choose old check v) (choose new check v) := by
  cases v with
  | none => exact failsAlike_of_ok rfl rfl
  | some v => exact fun _ => Iff.rfl

/-- Updates that fail alike for each setting fail alike, since they check the settings in the same
order. -/
theorem update_failsAlike [Regex.CharacterNames] {s t : Settings} {o o' : Overrides}
    (h : ∀ k, FailsAlike (choose (s.valueOf k) (keep k) (o.get? k))
      (choose (t.valueOf k) (keep k) (o'.get? k))) : FailsAlike (s.update o) (t.update o') := by
  have hone {α : Type} (k : Key) {f : α → Value} {old new : α} {check : Value → Except Fault α}
      (hold : s.valueOf k = f old) (hnew : t.valueOf k = f new)
      (hkeep : keep k = fun v => (check v).map f) :
      FailsAlike (choose old check (o.get? k)) (choose new check (o'.get? k)) := by
    intro e
    have hk := h k e
    rwa [hold, hnew, hkeep, choose_map_eq_error_iff, choose_map_eq_error_iff] at hk
  unfold update
  refine (hone .pathPattern (f := patternValue) rfl rfl rfl).bind fun _ _ => ?_
  refine (hone .variableName (f := .text) rfl rfl rfl).bind fun _ _ => ?_
  refine (hone .fallback (f := functionValue) rfl rfl rfl).bind fun _ _ => ?_
  refine (hone .fallbackOrigin (f := .bool) rfl rfl rfl).bind fun _ _ => ?_
  refine (hone .replaces (f := .bool) rfl rfl rfl).bind fun _ _ => ?_
  refine (hone .selectorBlacklist (f := blacklistValue) rfl rfl rfl).bind fun _ _ => ?_
  refine (hone .propBlacklist (f := blacklistValue) rfl rfl rfl).bind fun _ _ => ?_
  refine (hone .ignoreMark (f := IgnoreMark.toValue) rfl rfl rfl).bind fun _ _ => ?_
  exact failsAlike_of_ok rfl rfl

/-! ## Overrides -/

namespace Overrides

variable {a b o : Overrides} {k : Key}

/-- No setting is given twice. -/
def Distinct (o : Overrides) : Prop :=
  (o.map Prod.fst).Nodup

instance (o : Overrides) : Decidable o.Distinct :=
  inferInstanceAs (Decidable (List.Nodup _))

/-- Overrides under the names of their settings, with underscores. -/
def named (o : Overrides) : Entries :=
  o.map fun e => (e.1.name, e.2)

/-- Overrides with others on top: a setting that both give has the value of those on top. -/
def overlay (a b : Overrides) : Overrides :=
  b.foldl (fun o e => Table.put e.1 e.2 o) a

/-- The value that overrides give for a setting is looked up in them. -/
theorem get?_eq_lookup (o : Overrides) (k : Key) : o.get? k = o.lookup k := by
  induction o with
  | nil => rfl
  | cons e o ih =>
    rw [get?, List.find?_cons, List.lookup_cons]
    by_cases hk : e.1 = k
    · simp [hk]
    · have hne : (k == e.1) = false := beq_eq_false_iff_ne.2 (Ne.symm hk)
      rw [hne, beq_eq_false_iff_ne.2 hk]
      exact ih

theorem get?_cons (k' : Key) (v : Value) (o : Overrides) (k : Key) :
    get? ((k', v) :: o) k = if k = k' then some v else o.get? k := by
  rw [get?_eq_lookup, get?_eq_lookup, List.lookup_cons]
  by_cases hk : k = k'
  · simp [hk]
  · rw [beq_eq_false_iff_ne.2 hk, if_neg hk]

theorem get?_put (k' : Key) (v : Value) (o : Overrides) (k : Key) :
    get? (Table.put k' v o) k = if k = k' then some v else o.get? k := by
  rw [get?_eq_lookup, get?_eq_lookup, Table.lookup_put]
  simp only [beq_iff_eq]

/-- Nothing is given for a setting that does not occur. -/
theorem get?_eq_none (h : k ∉ o.map Prod.fst) : o.get? k = none := by
  rw [get?_eq_lookup]
  refine List.lookup_eq_none_iff.2 fun e he => bne_iff_ne.2 ?_
  rintro rfl
  exact h (List.mem_map_of_mem he)

/-- On top of others, overrides have the last word, and the others count where they say nothing. -/
theorem get?_overlay (hb : b.Distinct) (k : Key) :
    (a.overlay b).get? k = (b.get? k).or (a.get? k) := by
  induction b generalizing a with
  | nil => rfl
  | cons e b ih =>
    obtain ⟨k', v⟩ := e
    obtain ⟨hk', hb⟩ := List.nodup_cons.1 hb
    show get? (overlay (Table.put k' v a) b) k = _
    rw [ih hb, get?_put, get?_cons]
    by_cases hk : k = k'
    · subst hk
      rw [if_pos rfl, if_pos rfl, get?_eq_none hk']
      rfl
    · rw [if_neg hk, if_neg hk]

/-- The settings for which something is given when one more is. -/
theorem mem_keys_put {k' : Key} {v : Value} :
    k ∈ (Table.put k' v o).map Prod.fst ↔ k = k' ∨ k ∈ o.map Prod.fst := by
  induction o with
  | nil => simp [Table.put]
  | cons e o ih =>
    rw [Table.put]
    split
    · next he =>
      rw [← beq_iff_eq.1 he]
      simp
    · rw [List.map_cons, List.mem_cons, ih, List.map_cons, List.mem_cons]
      exact or_left_comm

/-- No setting is given twice if a value for it takes the place of the one before. -/
theorem Distinct.put (h : o.Distinct) (k' : Key) (v : Value) :
    Distinct (Table.put k' v o) := by
  induction o with
  | nil => exact List.nodup_cons.2 ⟨List.not_mem_nil, List.nodup_nil⟩
  | cons e o ih =>
    obtain ⟨he, ho⟩ := List.nodup_cons.1 h
    rw [Table.put]
    split
    · exact h
    · next hne =>
      refine List.nodup_cons.2 ⟨fun hmem => ?_, ih ho⟩
      rcases mem_keys_put.1 hmem with heq | hmem
      · exact hne (beq_iff_eq.2 heq)
      · exact he hmem

/-- No setting is given twice by overrides on top of others. -/
theorem Distinct.overlay (ha : a.Distinct) (b : Overrides) : (a.overlay b).Distinct := by
  induction b generalizing a with
  | nil => exact ha
  | cons e b ih => exact ih (ha.put e.1 e.2)

end Overrides

/-! ## Names -/

theorem Key.ofName?_name (k : Key) : ofName? k.name = some k := by
  cases k <;> decide

theorem Key.ofAnyName?_name (k : Key) : ofAnyName? k.name = some k := by
  cases k <;> decide

/-- Names of settings that are all different resolve to the settings they name. -/
theorem resolve_named {found o : Overrides} (h : (found ++ o).Distinct) :
    resolve (fun _ v => .ok v) found o.named = .ok (found ++ o) := by
  induction o generalizing found with
  | nil => exact congrArg _ (List.append_nil found).symm
  | cons e o ih =>
    have hfound : found.get? e.1 = none := by
      refine Overrides.get?_eq_none fun hmem => ?_
      rw [Overrides.Distinct, List.map_append, List.nodup_append] at h
      exact h.2.2 _ hmem _ List.mem_cons_self rfl
    show resolve _ found ((e.1.name, e.2) :: Overrides.named o) = _
    rw [resolve, Key.ofAnyName?_name]
    dsimp only
    rw [hfound, if_neg (by simp)]
    rw [List.append_cons] at h
    exact (ih h).trans (congrArg _ (List.append_cons found e o).symm)

/-- Fields under the names of settings resolve to the settings they name. -/
theorem resolveFields_named (found o : Overrides) :
    resolveFields found o.named = .ok (found ++ o) := by
  induction o generalizing found with
  | nil => exact congrArg _ (List.append_nil found).symm
  | cons e o ih =>
    show resolveFields found ((e.1.name, e.2) :: Overrides.named o) = _
    rw [resolveFields, Key.ofName?_name]
    dsimp only
    rw [ih, ← List.append_cons]

/-- Merging overrides under the names of their settings is updating with the overrides. -/
theorem merge_named [Regex.CharacterNames] (s : Settings) {o : Overrides} (h : o.Distinct) :
    s.merge o.named = s.update o := by
  have hresolve : resolve (fun _ v => .ok v) [] o.named = .ok o := resolve_named h
  rw [merge, hresolve]
  rfl

theorem ofFields_named [Regex.CharacterNames] (o : Overrides) : ofFields o.named = update {} o := by
  rw [ofFields, resolveFields_named]
  rfl

/-! ## Layers -/

/-- All values of settings. -/
def fields (s : Settings) : Overrides :=
  Key.all.map fun k => (k, s.valueOf k)

theorem get?_fields (s : Settings) (k : Key) : s.fields.get? k = some (s.valueOf k) := by
  cases k <;> rfl

/-- Putting values on top of settings is making settings of all values anew: those that were there
pass their checks. -/
theorem update_eq_update_fields [Regex.CharacterNames] (s : Settings) {o : Overrides}
    (h : o.Distinct) :
    s.update o = update {} (s.fields.overlay o) := by
  have hchoose (t : Settings) (k : Key) :
      choose (t.valueOf k) (keep k) ((s.fields.overlay o).get? k) =
        choose (s.valueOf k) (keep k) (o.get? k) := by
    rw [Overrides.get?_overlay h, get?_fields]
    cases o.get? k with
    | none => exact s.keep_valueOf k
    | some v => rfl
  cases hs : s.update o with
  | ok t =>
    refine (update_eq_ok_iff.2 fun k => ?_).symm
    rw [hchoose]
    exact update_eq_ok_iff.1 hs k
  | error e =>
    refine ((update_failsAlike fun k => ?_) e |>.1 hs).symm
    rw [hchoose]
    exact fun _ => Iff.rfl

/-- Settings with overrides on top. Nothing on top changes nothing. All values are checked again,
but what is wrong with the result is what is wrong with the overrides alone. The settings that are
given have the values that they have in settings made of the overrides alone, and all others stay
what they were. Two layers are as good as one that is made of both. -/
theorem merge_layers [Regex.CharacterNames] (s : Settings) {a b : Overrides} (ha : a.Distinct)
    (hb : b.Distinct) :
    s.merge [] = .ok s ∧
    s.merge a.named = ofFields (s.fields.overlay a).named ∧
    (∀ e, s.merge a.named = .error e ↔ ofFields a.named = .error e) ∧
    (∀ t, s.merge a.named = .ok t → ∃ u, ofFields a.named = .ok u ∧
      ∀ k, t.valueOf k = if (a.get? k).isSome then u.valueOf k else s.valueOf k) ∧
    ∀ t u, s.merge a.named = .ok t → t.merge b.named = .ok u →
      s.merge (a.overlay b).named = .ok u := by
  -- Both updates check the same values one after the other, so they fail alike.
  have hfaults : FailsAlike (s.update a) (update {} a) :=
    update_failsAlike fun k => failsAlike_choose _ _ (keep k) (a.get? k)
  rw [merge_named s ha, merge_named s (ha.overlay b), ofFields_named, ofFields_named]
  refine ⟨?_, s.update_eq_update_fields ha, hfaults, fun t ht => ?_, fun t u ht hu => ?_⟩
  · exact update_eq_ok_iff (o := []).2 fun k => rfl
  -- If one of them succeeds, so does the other, and each setting that is given has the same value.
  · cases hu : update {} a with
    | error e => exact absurd (ht.symm.trans ((hfaults e).2 hu)) nofun
    | ok u =>
      refine ⟨u, rfl, fun k => ?_⟩
      have htk := update_eq_ok_iff.1 ht k
      have huk := update_eq_ok_iff.1 hu k
      cases hk : a.get? k with
      | none =>
        rw [hk] at htk
        exact (Except.ok.inj htk).symm
      | some v =>
        rw [hk] at htk huk
        exact Except.ok.inj (htk.symm.trans huk)
  · rw [merge_named t hb] at hu
    refine update_eq_ok_iff.2 fun k => ?_
    have htk := update_eq_ok_iff.1 ht k
    have huk := update_eq_ok_iff.1 hu k
    rw [Overrides.get?_overlay hb]
    -- A setting that the upper layer gives has its value from there, and all others from the lower
    -- layer.
    cases hk : b.get? k with
    | none =>
      rw [hk] at huk
      rw [Option.none_or, htk]
      exact huk
    | some v =>
      rw [hk] at huk
      exact huk

/-- A path as a text, a blacklist as a list, and a custom property. -/
def lowerLayer : Overrides :=
  [(.pathPattern, .text "ui/"), (.selectorBlacklist, .list [.text ".skip"]),
    (.variableName, .text "--u")]

/-- Another path, as nothing, and copies in place of new values. -/
def upperLayer : Overrides :=
  [(.replaces, .bool false), (.pathPattern, .null)]

attribute [local instance] Regex.CharacterNames.none

/-- The upper layer takes the path away; merging the layers one after the other or at once gives the
same. -/
theorem merge_lowerLayer_upperLayer : lowerLayer.Distinct ∧ upperLayer.Distinct ∧
    ∃ t u, merge {} lowerLayer.named = .ok t ∧ t.merge upperLayer.named = .ok u ∧
      merge {} (lowerLayer.overlay upperLayer).named = .ok u ∧
      (lowerLayer.overlay upperLayer).named =
        [("include", .null), ("selector_black_list", .list [.text ".skip"]),
          ("css_variable", .text "--u"), ("replace", .bool false)] := by
  have hlower : lowerLayer.Distinct := by decide
  have hupper : upperLayer.Distinct := by decide
  obtain ⟨-, -, -, -, hlayers⟩ := merge_layers {} hlower hupper
  refine ⟨hlower, hupper, ?_⟩
  have hok : (merge {} lowerLayer.named).isOk = true := by decide +kernel
  cases ht : merge {} lowerLayer.named with
  | error e =>
    rw [ht] at hok
    cases hok
  | ok t => exact ⟨t, _, rfl, rfl, hlayers t _ ht rfl, rfl⟩

end PixelUnit.Settings
