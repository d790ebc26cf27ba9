import Mathlib.Data.List.Nodup
import Mathlib.Data.List.Perm.Basic
import PixelUnit.Proofs.Lists
import PixelUnit.Proofs.Settings.Layers
import PixelUnit.Proofs.Settings.Literals

/-!
# Settings from mappings

What comes of a mapping depends on which settings its entries are meant for and on their values,
and on nothing else (`ofMapping_eq_ok_iff`): each entry is accepted or refused by itself, and the
result has a value for each setting by itself. So neither the order of the entries nor the names
that are chosen for the settings count. Entries that are put on top one by one settle the same
(`merge_eq_ok_iff`), but their texts are not read as regular expressions.
-/

namespace PixelUnit.Settings

/-! ## What entries are meant for -/

/-- A name stands for a setting in either spelling. -/
theorem Key.ofAnyName?_eq_some_iff {s : String} {k : Key} :
    Key.ofAnyName? s = some k ↔ s = k.name ∨ s = k.camelName := by
  constructor
  · intro h
    have hname := List.find?_some h
    simp only [Bool.or_eq_true, beq_iff_eq] at hname
    exact (hname.imp Eq.symm Eq.symm).symm
  · rintro (rfl | rfl)
    · exact Key.ofAnyName?_name k
    · cases k <;> decide

/-- The settings that entries are meant for, with the values for them. -/
def Entries.meant (m : Entries) : List (Option Key × Value) :=
  m.map fun e => (Key.ofAnyName? e.1, e.2)

/-- Settings `t` are settings `base` with entries on top that are each meant for another setting
and accepted for it. -/
structure Settled (accept : Key → Value → Except Fault Value) (base : Settings)
    (es : List (Option Key × Value)) (t : Settings) : Prop where
  meant : none ∉ es.map Prod.fst
  once : (es.map Prod.fst).Nodup
  given : ∀ {k v}, (some k, v) ∈ es → accept k v = .ok (t.valueOf k)
  kept : ∀ {k}, some k ∉ es.map Prod.fst → t.valueOf k = base.valueOf k

/-- The order of the entries does not count. -/
theorem Settled.perm {accept : Key → Value → Except Fault Value} {base t : Settings}
    {es es' : List (Option Key × Value)} (h : Settled accept base es t) (hes : es.Perm es') :
    Settled accept base es' t where
  meant hmem := h.meant ((hes.map Prod.fst).mem_iff.2 hmem)
  once := (hes.map Prod.fst).nodup_iff.1 h.once
  given hmem := h.given (hes.mem_iff.2 hmem)
  kept hmem := h.kept fun hmem' => hmem ((hes.map Prod.fst).mem_iff.1 hmem')

/-! ## Overrides that entries stand for -/

namespace Overrides

variable {o : Overrides} {k : Key}

/-- What is given for a setting stands in the overrides with it, if no setting is given twice. -/
theorem get?_eq_some_iff (h : o.Distinct) {v : Value} : o.get? k = some v ↔ (k, v) ∈ o := by
  induction o with
  | nil => simp [get?]
  | cons e o ih =>
    obtain ⟨k', w⟩ := e
    obtain ⟨hk', ho⟩ := List.nodup_cons.1 h
    rw [get?_cons, List.mem_cons, Prod.mk.injEq]
    by_cases hk : k = k'
    · subst hk
      have hmem : (k, v) ∉ o := fun hmem => hk' (List.mem_map.2 ⟨_, hmem, rfl⟩)
      rw [if_pos rfl, Option.some.injEq]
      exact ⟨fun hv => Or.inl ⟨rfl, hv.symm⟩, fun hv => (hv.resolve_right hmem).2.symm⟩
    · rw [if_neg hk, ih ho]
      exact ⟨Or.inr, fun hmem => hmem.resolve_left fun hkv => hk hkv.1⟩

/-- Nothing is given for a setting that is not among those of the overrides. -/
theorem get?_eq_none_iff : o.get? k = none ↔ k ∉ o.map Prod.fst := by
  refine ⟨fun h hmem => ?_, get?_eq_none⟩
  obtain ⟨e, he, rfl⟩ := List.mem_map.1 hmem
  exact absurd (List.lookup_eq_none_iff.1 ((get?_eq_lookup _ _).symm.trans h) e he) (by simp)

theorem distinct_nil : Distinct [] :=
  List.nodup_nil

theorem distinct_concat {x : Key × Value} :
    Distinct (o ++ [x]) ↔ o.Distinct ∧ o.get? x.1 = none := by
  rw [get?_eq_none_iff, Distinct, Distinct, List.map_append, List.map_singleton,
    ← List.concat_eq_append, List.nodup_concat, and_comm]

end Overrides

section Resolve

variable {read : Key → Value → Except Fault Value} {base t : Settings} {e : String × Value}
  {m : Entries} {found o : Overrides}

/-- An entry stands for an override. -/
def Reads (read : Key → Value → Except Fault Value) (e : String × Value) (x : Key × Value) : Prop :=
  Key.ofAnyName? e.1 = some x.1 ∧ read x.1 e.2 = .ok x.2

/-- Entries that are read as overrides are meant for the settings of these. -/
theorem targets_of_reads (h : List.Forall₂ (Reads read) m o) :
    m.meant.map Prod.fst = o.map (some ∘ Prod.fst) := by
  induction h with
  | nil => rfl
  | cons hx _ ih => exact congrArg₂ _ hx.1 ih

/-- An entry that is meant for a setting stands for an override of this setting. -/
theorem exists_mem_of_reads (h : List.Forall₂ (Reads read) m o) {k : Key} {v : Value}
    (hv : (some k, v) ∈ m.meant) : ∃ w, read k v = .ok w ∧ (k, w) ∈ o := by
  induction h with
  | nil => cases hv
  | @cons e x m o hx _ ih =>
    rcases List.mem_cons.1 hv with heq | hv
    · obtain ⟨hk, rfl⟩ := Prod.mk.inj heq
      obtain rfl := Option.some.inj (hk.trans hx.1)
      exact ⟨x.2, hx.2, List.mem_cons_self⟩
    · obtain ⟨w, hw, hmem⟩ := ih hv
      exact ⟨w, hw, List.mem_cons_of_mem _ hmem⟩

/-- An entry resolves if it can be read and its setting has not been found before. -/
theorem resolve_cons_eq_ok_iff : resolve read found (e :: m) = .ok o ↔
    ∃ x, Reads read e x ∧ found.get? x.1 = none ∧ resolve read (found ++ [x]) m = .ok o := by
  constructor
  · intro h
    unfold resolve at h
    split at h
    · cases h
    · next k hk =>
      split at h
      · cases h
      · next hnone =>
        split at h
        · cases h
        · next w hw => exact ⟨(k, w), ⟨hk, hw⟩, by simpa using hnone, h⟩
  · rintro ⟨x, ⟨hk, hw⟩, hnone, h⟩
    unfold resolve
    rw [hk]
    dsimp only
    rw [hnone, hw]
    exact h

/-- Entries stand for the overrides that they are read as, one by one. -/
theorem resolve_eq_ok_iff (hfound : found.Distinct) : resolve read found m = .ok o ↔
    ∃ a, List.Forall₂ (Reads read) m a ∧ (found ++ a).Distinct ∧ o = found ++ a := by
  induction m generalizing found with
  | nil =>
    constructor
    · rintro ⟨⟩
      exact ⟨[], .nil, by rwa [List.append_nil], (List.append_nil _).symm⟩
    · rintro ⟨a, ha, -, rfl⟩
      rw [List.forall₂_nil_left_iff.1 ha, List.append_nil]
      rfl
  | cons e m ih =>
    rw [resolve_cons_eq_ok_iff]
    constructor
    · rintro ⟨x, hx, hnone, h⟩
      obtain ⟨a, ha, hdistinct, rfl⟩ := (ih (Overrides.distinct_concat.2 ⟨hfound, hnone⟩)).1 h
      rw [← List.append_cons] at hdistinct ⊢
      exact ⟨x :: a, .cons hx ha, hdistinct, rfl⟩
    · rintro ⟨_, hreads, hdistinct, rfl⟩
      obtain ⟨x, a, hx, ha, rfl⟩ := List.forall₂_cons_left_iff.1 hreads
      rw [List.append_cons] at hdistinct
      have hconcat : Overrides.Distinct (found ++ [x]) :=
        hdistinct.sublist ((List.sublist_append_left _ _).map _)
      exact ⟨x, hx, (Overrides.distinct_concat.1 hconcat).2,
        (ih hconcat).2 ⟨a, ha, hdistinct, List.append_cons found x a⟩⟩

/-- Entries can be read if they are all meant for settings and their values can be read. -/
theorem exists_reads (hmeant : none ∉ m.meant.map Prod.fst)
    (hread : ∀ k v, (some k, v) ∈ m.meant → ∃ w, read k v = .ok w) :
    ∃ o, List.Forall₂ (Reads read) m o := by
  induction m with
  | nil => exact ⟨[], .nil⟩
  | cons e m ih =>
    obtain ⟨hk, hm⟩ := not_or.1 fun h => hmeant (List.mem_cons.2 h)
    obtain ⟨o, ho⟩ := ih hm fun k v hv => hread k v (List.mem_cons_of_mem _ hv)
    obtain ⟨k, hk⟩ := Option.ne_none_iff_exists'.1 (Ne.symm hk)
    obtain ⟨w, hw⟩ := hread k e.2 (List.mem_cons.2 (Or.inl (Prod.ext hk.symm rfl)))
    exact ⟨(k, w) :: o, .cons ⟨hk, hw⟩ ho⟩

/-- Reading entries and updating settings with them succeeds if every entry is meant for another
setting and accepted for it; all other settings stay as they are. -/
theorem update_resolve_eq_ok_iff [Regex.CharacterNames] :
    (do base.update (← resolve read [] m)) = .ok t ↔
      Settled (fun k v => read k v >>= keep k) base m.meant t := by
  rw [bind_eq_ok_iff]
  constructor
  · rintro ⟨o, ho, hupdate⟩
    -- What is read is one override for each entry, and their settings are all different.
    obtain ⟨a, ha, hdistinct, rfl⟩ := (resolve_eq_ok_iff Overrides.distinct_nil).1 ho
    rw [List.nil_append] at hdistinct
    rw [update_eq_ok_iff] at hupdate
    have htargets := targets_of_reads ha
    refine ⟨by simp [htargets], ?_, fun {k v} hv => ?_, fun {k} hk => ?_⟩
    · rw [htargets, ← List.map_map]
      exact hdistinct.map fun _ _ => Option.some.inj
    · obtain ⟨w, hw, hmem⟩ := exists_mem_of_reads ha hv
      have hk := hupdate k
      rw [(Overrides.get?_eq_some_iff hdistinct).2 hmem] at hk
      exact bind_eq_ok_iff.2 ⟨w, hw, hk⟩
    -- Nothing is given for a setting that no entry is meant for.
    · have hupdate := hupdate k
      rw [Overrides.get?_eq_none_iff.2 fun hmem => hk ?_] at hupdate
      · exact (Except.ok.inj hupdate).symm
      · rw [htargets, ← List.map_map]
        exact List.mem_map_of_mem hmem
  -- If the entries are settled, each of them can be read, and so the overrides are there.
  · intro h
    obtain ⟨o, ho⟩ := exists_reads h.meant fun k v hv =>
      (bind_eq_ok_iff.1 (h.given hv)).imp fun _ => And.left
    have htargets := targets_of_reads ho
    have hdistinct : Overrides.Distinct o := by
      have honce := h.once
      rw [htargets, ← List.map_map] at honce
      exact List.Nodup.of_map _ honce
    refine ⟨o, (resolve_eq_ok_iff Overrides.distinct_nil).2 ⟨o, ho, hdistinct, rfl⟩,
      update_eq_ok_iff.2 fun k => ?_⟩
    -- The value that is given for a setting is kept as it was settled; one for which nothing is
    -- given stays.
    by_cases hk : some k ∈ m.meant.map Prod.fst
    · obtain ⟨⟨_, v⟩, hv, rfl⟩ := List.mem_map.1 hk
      obtain ⟨w, hw, hmem⟩ := exists_mem_of_reads ho hv
      obtain ⟨w', hw', hkeep⟩ := bind_eq_ok_iff.1 (h.given hv)
      obtain rfl := Except.ok.inj (hw.symm.trans hw')
      rw [(Overrides.get?_eq_some_iff hdistinct).2 hmem]
      exact hkeep
    · rw [Overrides.get?_eq_none_iff.2 fun hmem => hk ?_]
      · exact congrArg _ (h.kept hk).symm
      · rw [htargets, ← List.map_map]
        exact List.mem_map_of_mem hmem

end Resolve

/-! ## Mappings -/

/-- What is kept of a value that a mapping has for a setting, texts between slashes being read. -/
def accept [Regex.CharacterNames] (k : Key) (v : Value) : Except Fault Value :=
  readLiterals k v >>= keep k

section Mappings

variable {base t : Settings} {m : Entries}

/-- A mapping settles settings entry by entry. -/
theorem ofMapping_eq_ok_iff [Regex.CharacterNames] :
    ofMapping base (.mapping m) = .ok t ↔ Settled accept base m.meant t :=
  update_resolve_eq_ok_iff

/-- So do entries that are put on top one by one, but their texts are kept as they are. -/
theorem merge_eq_ok_iff [Regex.CharacterNames] :
    base.merge m = .ok t ↔ Settled keep base m.meant t :=
  update_resolve_eq_ok_iff

end Mappings

/-! ## Paths and blacklists -/

/-- The settings that are blacklists. -/
def Key.IsBlacklist (k : Key) : Prop :=
  k = .selectorBlacklist ∨ k = .propBlacklist

theorem map_eq_ok_iff {α β : Type} {x : Except Fault α} {f : α → β} {b : β} :
    x.map f = .ok b ↔ ∃ a, x = .ok a ∧ f a = b := by
  cases x <;> simp [Except.map]

/-- A text for the path is kept as the expression that it is the text of. -/
theorem keep_text_eq_ok_iff [Regex.CharacterNames] {s : String} {w : Value} :
    keep .pathPattern (.text s) = .ok w ↔ ∃ r, Regex.compile s {} = .ok r ∧ .regex r = w := by
  show ((compileFor .pathPattern s s {}).map some).map patternValue = .ok w ↔ _
  simp only [map_eq_ok_iff, compileFor_eq_ok_iff]
  constructor
  · rintro ⟨_, ⟨r, hr, rfl⟩, rfl⟩
    exact ⟨r, hr, rfl⟩
  · rintro ⟨r, hr, rfl⟩
    exact ⟨_, ⟨r, hr, rfl⟩, rfl⟩

/-- All items of a list pass if there is a list of what they pass as. -/
theorem mapM_eq_ok_iff {α β : Type} {f : α → Except Fault β} {as : List α} {bs : List β} :
    as.mapM f = .ok bs ↔ List.Forall₂ (fun a b => f a = .ok b) as bs := by
  induction as generalizing bs with
  | nil =>
    rw [List.mapM_nil, List.forall₂_nil_left_iff]
    exact ⟨fun h => (Except.ok.inj h).symm, fun h => congrArg _ h.symm⟩
  | cons a as ih =>
    simp only [List.mapM_cons, bind_eq_ok_iff, List.forall₂_cons_left_iff, ih]
    constructor
    · rintro ⟨b, hb, bs, hbs, ⟨⟩⟩
      exact ⟨b, bs, hb, hbs, rfl⟩
    · rintro ⟨b, bs, hb, hbs, rfl⟩
      exact ⟨b, hb, bs, hbs, rfl⟩

/-- Reading all and keeping all succeeds as reading and keeping one by one does. -/
theorem forall₂_bind_iff {α β γ : Type} {f : α → Except Fault β} {g : β → Except Fault γ}
    {as : List α} {cs : List γ} : List.Forall₂ (fun a c => (f a >>= g) = .ok c) as cs ↔
      ∃ bs, List.Forall₂ (fun a b => f a = .ok b) as bs ∧
        List.Forall₂ (fun b c => g b = .ok c) bs cs := by
  induction as generalizing cs with
  | nil => simp
  | cons a as ih =>
    simp only [List.forall₂_cons_left_iff, ih]
    simp only [bind_eq_ok_iff]
    constructor
    · rintro ⟨c, cs, ⟨b, hb, hc⟩, ⟨bs, hbs, hcs⟩, rfl⟩
      exact ⟨b :: bs, ⟨b, bs, hb, hbs, rfl⟩, .cons hc hcs⟩
    · rintro ⟨_, ⟨b, bs, hb, hbs, rfl⟩, hall⟩
      obtain ⟨c, cs, hc, hcs, rfl⟩ := List.forall₂_cons_left_iff.1 hall
      exact ⟨c, cs, ⟨b, hb, hc⟩, ⟨bs, hbs, hcs⟩, rfl⟩

/-- What becomes of a value in a list for a blacklist. -/
def acceptEntry [Regex.CharacterNames] (k : Key) (v : Value) : Except Fault Blacklist.Entry :=
  readLiteral k v >>= checkEntry k

section Blacklists

variable {k : Key} {vs : List Value} {w : Value}

/-- A list is kept for a blacklist if its items are entries. -/
theorem keep_list_eq_ok_iff [Regex.CharacterNames] (hk : k.IsBlacklist) :
    keep k (.list vs) = .ok w ↔
    ∃ b, List.Forall₂ (fun v x => checkEntry k v = .ok x) vs b ∧ blacklistValue b = w := by
  rcases hk with rfl | rfl
  all_goals
    rw [← exists_congr fun b => and_congr_left' mapM_eq_ok_iff]
    exact map_eq_ok_iff

theorem readLiterals_list [Regex.CharacterNames] (hk : k.IsBlacklist) :
    readLiterals k (.list vs) = (vs.mapM (readLiteral k)).map .list := by
  rcases hk with rfl | rfl <;> rfl

/-- The values in a list for a blacklist become its entries one by one. -/
theorem accept_list_eq_ok_iff [Regex.CharacterNames] (hk : k.IsBlacklist) :
    accept k (.list vs) = .ok w ↔
    ∃ b, List.Forall₂ (fun v x => acceptEntry k v = .ok x) vs b ∧ blacklistValue b = w := by
  rw [accept, readLiterals_list hk, bind_eq_ok_iff]
  simp only [map_eq_ok_iff, mapM_eq_ok_iff, acceptEntry, forall₂_bind_iff]
  constructor
  · rintro ⟨_, ⟨ws, hws, rfl⟩, hw⟩
    obtain ⟨b, hb, hbw⟩ := (keep_list_eq_ok_iff hk).1 hw
    exact ⟨b, ⟨ws, hws, hb⟩, hbw⟩
  · rintro ⟨b, ⟨ws, hws, hb⟩, hbw⟩
    exact ⟨_, ⟨ws, hws, rfl⟩, (keep_list_eq_ok_iff hk).2 ⟨b, hb, hbw⟩⟩

end Blacklists

end PixelUnit.Settings
