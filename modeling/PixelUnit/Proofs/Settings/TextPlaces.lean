import PixelUnit.Proofs.Settings.Mappings

/-!
# Texts that may stand for regular expressions

A text stands for a regular expression if it is a literal, and for itself otherwise, at every place
of a mapping where it may stand for one (`readAsWritten_iff`). There are two exceptions, that a line
feed behind a literal is dropped, and that not all literals which are no regular expressions are
refused as such: what is wrong with some of them is an error of another kind.
-/

namespace PixelUnit.Settings

/-! ## Places -/

/-- Where a text may stand in a value for a setting: it is the value for the path, or an item of a
list or a tuple for a blacklist. -/
inductive Slot : Key → Type
  | path : Slot .pathPattern
  | item {k : Key} (hk : k.IsBlacklist) (inTuple : Bool) (before behind : List Value) : Slot k

/-- Values as a list or as a tuple. -/
def sequence (inTuple : Bool) (vs : List Value) : Value :=
  if inTuple then .tuple vs else .list vs

/-- A blacklist of settings. -/
def blacklistOf (t : Settings) : Key → Blacklist
  | .selectorBlacklist => t.selectorBlacklist
  | .propBlacklist => t.propBlacklist
  | _ => []

namespace Slot

variable {k : Key}

/-- The value with something in a slot of it. -/
def fill : Slot k → Value → Value
  | path, v => v
  | item _ inTuple before behind, v => sequence inTuple (before ++ v :: behind)

/-- What settings have of what stands in a slot. -/
def outcome? : Slot k → Settings → Option Blacklist.Entry
  | path, t => t.pathPattern.map .regex
  | item _ _ before _, t => (t.blacklistOf k)[before.length]?

/-- A slot in which a text may be a literal. Only the items of tuples are never read. -/
def IsRead : Slot k → Prop
  | path => True
  | item _ inTuple _ _ => inTuple = false

end Slot

/-- A place in a mapping where a text may stand for a regular expression: a slot in the value of an
entry, among others. -/
structure TextPlace where
  key : Key
  slot : Slot key
  name : String
  named : name = key.name ∨ name = key.camelName
  front : Entries
  back : Entries

/-- The mapping with something at a place. -/
def TextPlace.fill (p : TextPlace) (v : Value) : Value :=
  .mapping (p.front ++ (p.name, p.slot.fill v) :: p.back)

/-- The entry with a place in it is meant for the setting of the place. -/
theorem TextPlace.meant_fill (p : TextPlace) (v : Value) :
    Entries.meant (p.front ++ (p.name, p.slot.fill v) :: p.back) =
      p.front.meant ++ (some p.key, p.slot.fill v) :: p.back.meant := by
  have hkey := Key.ofAnyName?_eq_some_iff.2 p.named
  rw [Entries.meant, List.map_append, List.map_cons, hkey]
  rfl

/-- An empty list for a blacklist, and nothing else. -/
def lonelyPlace : TextPlace where
  key := .selectorBlacklist
  slot := .item (Or.inl rfl) false [] []
  name := "selector_black_list"
  named := Or.inl rfl
  front := []
  back := []

theorem isRead_lonelyPlace : lonelyPlace.slot.IsRead :=
  rfl

/-- Entries in two parts resolve one part after the other. -/
theorem resolve_append (read : Key → Value → Except Fault Value) (found : Overrides)
    (m m' : Entries) :
    resolve read found (m ++ m') = resolve read found m >>= fun o => resolve read o m' := by
  induction m generalizing found with
  | nil => rfl
  | cons e m ih =>
    rw [List.cons_append, resolve, resolve]
    split
    · rfl
    · split
      · rfl
      · split
        · rfl
        · exact ih _

section Names

variable [Regex.CharacterNames]

/-! ## One value in place of another -/

/-- Settings can be given any value that passes its check. -/
theorem exists_valueOf (s : Settings) {k : Key} {v w : Value} (h : keep k v = .ok w) :
    ∃ t : Settings, t.valueOf k = w ∧ ∀ k', k' ≠ k → t.valueOf k' = s.valueOf k' := by
  have hnone : s.update [] = .ok s := update_eq_ok_iff.2 fun _ => rfl
  have hget (k' : Key) : Overrides.get? [(k, v)] k' = if k' = k then some v else none :=
    Overrides.get?_cons k v [] k'
  -- each setting by itself can be chosen, so the update fails no more than one that gives nothing
  have hfails : FailsAlike (s.update [(k, v)]) (s.update []) := by
    refine update_failsAlike fun k' => ?_
    rw [hget]
    by_cases hk : k' = k
    · subst hk
      rw [if_pos rfl]
      exact failsAlike_of_ok h rfl
    · rw [if_neg hk]
      exact failsAlike_of_ok rfl rfl
  cases ht : s.update [(k, v)] with
  | error e => exact absurd (hnone.symm.trans ((hfails e).1 ht)) nofun
  | ok t =>
    have hvalue := update_eq_ok_iff.1 ht
    refine ⟨t, ?_, fun k' hk => ?_⟩
    · have hk := hvalue k
      rw [hget, if_pos rfl] at hk
      exact Except.ok.inj (hk.symm.trans h)
    · have hk' := hvalue k'
      rw [hget, if_neg hk] at hk'
      exact (Except.ok.inj hk').symm

/-- Entries that settle anything do so with another value that is accepted in place of one. -/
theorem Settled.exists_of_accept {base t : Settings} {k : Key} {v v' w : Value}
    {front back : List (Option Key × Value)}
    (h : Settled accept base (front ++ (some k, v) :: back) t) (hv' : accept k v' = .ok w) :
    ∃ t', Settled accept base (front ++ (some k, v') :: back) t' := by
  obtain ⟨u, -, hkeep⟩ := bind_eq_ok_iff.1 hv'
  obtain ⟨t', hsame, hothers⟩ := exists_valueOf t hkeep
  have htargets : (front ++ (some k, v') :: back).map Prod.fst =
      (front ++ (some k, v) :: back).map Prod.fst := by
    simp only [List.map_append, List.map_cons]
  -- no other entry is meant for `k`, so what is settled for the others stays
  have hfresh {k' : Key} {v'' : Value} (hmem : (some k', v'') ∈ front ++ back) : k' ≠ k := by
    rintro rfl
    have honce := h.once
    rw [List.map_append, List.map_cons, List.nodup_middle, ← List.map_append] at honce
    exact (List.nodup_cons.1 honce).1 (List.mem_map.2 ⟨_, hmem, rfl⟩)
  refine ⟨t', htargets ▸ h.meant, htargets ▸ h.once, fun {k' v''} hmem => ?_, fun {k'} hmem => ?_⟩
  · rcases List.mem_cons.1 (List.perm_middle.mem_iff.1 hmem) with heq | hmem
    · cases heq
      rw [hsame]
      exact hv'
    · rw [hothers k' (hfresh hmem)]
      exact h.given (List.perm_middle.mem_iff.2 (List.mem_cons_of_mem _ hmem))
  · rw [htargets] at hmem
    have hne : k' ≠ k := by
      rintro rfl
      exact hmem (List.mem_map_of_mem (List.mem_append_right _ List.mem_cons_self))
    rw [hothers k' hne]
    exact h.kept hmem

/-! ## Meanings -/

/-- A regular expression can stand at a place, so nothing else is wrong with the mapping. -/
def TextPlace.Open (p : TextPlace) (base : Settings) : Prop :=
  ∃ r t, ofMapping base (p.fill (.regex r)) = .ok t

/-- What a text for a setting stands for: if it is a literal, for its body with the flags among its
letters; otherwise for itself. -/
inductive StandsFor : Key → String → Blacklist.Entry → Prop
  | literal {k : Key} {s : String} {body letters : List Char} {r : Regex}
      (h : IsLiteral s.toList body letters) (hknown : ∀ c ∈ letters, c ∈ knownLetters)
      (hr : Regex.compile (String.ofList body) (flagsOf letters) = .ok r) :
    StandsFor k s (.regex r)
  | pattern {s : String} {r : Regex} (h : ∀ body letters, ¬IsLiteral s.toList body letters)
      (hr : Regex.compile s {} = .ok r) : StandsFor .pathPattern s (.regex r)
  | substring {k : Key} {s : String} (hk : k.IsBlacklist)
      (h : ∀ body letters, ¬IsLiteral s.toList body letters) : StandsFor k s (.substring s)

/-- A text at a place is taken for what it stands for. It is refused if it is a literal that stands
for nothing, because of a letter that is not known or because of its body. -/
structure ReadAsWritten (base : Settings) (p : TextPlace) (s : String) : Prop where
  taken : ∀ t, ofMapping base (p.fill (.text s)) = .ok t →
    ∃ x, StandsFor p.key s x ∧ p.slot.outcome? t = some x
  accepted : ∀ x, StandsFor p.key s x → p.Open base →
    ∃ t, ofMapping base (p.fill (.text s)) = .ok t
  badLetter : ∀ body letters, IsLiteral s.toList body letters →
    (∃ c ∈ letters, c ∉ knownLetters) → p.Open base →
    ∃ c ∈ letters, c ∉ knownLetters ∧
      ofMapping base (p.fill (.text s)) = .error (.badFlag p.key c s)
  badBody : ∀ body letters e, IsLiteral s.toList body letters →
    (∀ c ∈ letters, c ∈ knownLetters) →
    Regex.compile (String.ofList body) (flagsOf letters) = .error e → p.Open base →
    ofMapping base (p.fill (.text s)) = .error (.badRegex p.key s (e.message body))

/-- A text at a place is kept as it is, whatever it is. -/
structure KeptAsText (base : Settings) (p : TextPlace) (s : String) : Prop where
  taken : ∀ t, ofMapping base (p.fill (.text s)) = .ok t → p.slot.outcome? t = some (.substring s)
  accepted : p.Open base → ∃ t, ofMapping base (p.fill (.text s)) = .ok t

/-! ## What becomes of a text -/

/-- A value that can be an entry of a blacklist. -/
def IsEntry (v : Value) : Prop :=
  (∃ s, v = .text s) ∨ ∃ r, v = .regex r

/-- An entry that a value is kept as. At the place of the path it is a regular expression. -/
def entryOf : Key → Value → Except Fault Blacklist.Entry
  | .pathPattern, .text s => (compileFor .pathPattern s s {}).map .regex
  | k, v => checkEntry k v

theorem entryOf_blacklist {k : Key} (hk : k.IsBlacklist) (v : Value) :
    entryOf k v = checkEntry k v := by
  rcases hk with rfl | rfl <;> rfl

/-- What is read from an entry is an entry. -/
theorem isEntry_of_readLiteral {k : Key} {v w : Value} (hv : IsEntry v)
    (h : readLiteral k v = .ok w) : IsEntry w := by
  rcases hv with ⟨s, rfl⟩ | ⟨r, rfl⟩
  · cases hparts : literalParts? s.toList with
    | none =>
      rw [readLiteral_of_none hparts] at h
      exact Or.inl ⟨s, (Except.ok.inj h).symm⟩
    | some parts =>
      obtain ⟨r, rfl, -⟩ := exists_regex_of_parts hparts h
      exact Or.inr ⟨r, rfl⟩
  · exact Or.inr ⟨r, (Except.ok.inj h).symm⟩

theorem entryOf_text_eq_ok_iff {s : String} {x : Blacklist.Entry} :
    entryOf .pathPattern (.text s) = .ok x ↔ ∃ r, Regex.compile s {} = .ok r ∧ .regex r = x := by
  show (compileFor .pathPattern s s {}).map .regex = .ok x ↔ _
  simp only [map_eq_ok_iff, compileFor_eq_ok_iff]

/-- A value is kept for the path if it is an entry there. -/
theorem keep_pathPattern_eq_ok_iff {v w : Value} (hv : IsEntry v) :
    keep .pathPattern v = .ok w ↔ ∃ x, entryOf .pathPattern v = .ok x ∧ entryValue x = w := by
  rcases hv with ⟨s, rfl⟩ | ⟨r, rfl⟩
  · simp only [keep_text_eq_ok_iff, entryOf_text_eq_ok_iff]
    constructor
    · rintro ⟨r, hr, rfl⟩
      exact ⟨_, ⟨r, hr, rfl⟩, rfl⟩
    · rintro ⟨_, ⟨r, hr, rfl⟩, rfl⟩
      exact ⟨r, hr, rfl⟩
  · show Except.ok (Value.regex r) = .ok w ↔
      ∃ x, Except.ok (Blacklist.Entry.regex r) = .ok x ∧ entryValue x = w
    simp [entryValue]

/-- What an item of a list or a tuple is read as. -/
def readItem (k : Key) (inTuple : Bool) (v : Value) : Except Fault Value :=
  if inTuple then .ok v else readLiteral k v

/-- A sequence is accepted for a blacklist if what its items are read as are entries. -/
theorem accept_sequence_eq_ok_iff {k : Key} (hk : k.IsBlacklist) (inTuple : Bool)
    {vs : List Value} {w : Value} : accept k (sequence inTuple vs) = .ok w ↔
      ∃ b, List.Forall₂ (fun v x => (readItem k inTuple v >>= checkEntry k) = .ok x) vs b ∧
        blacklistValue b = w := by
  cases inTuple with
  | false => exact accept_list_eq_ok_iff hk
  | true =>
    have hkeep : accept k (.tuple vs) = keep k (.list vs) := by
      rcases hk with rfl | rfl <;> rfl
    show accept k (.tuple vs) = .ok w ↔ _
    rw [hkeep]
    exact keep_list_eq_ok_iff hk

namespace Slot

variable {k : Key}

/-- What something in a slot is read as. -/
def read : Slot k → Value → Except Fault Value
  | path, v => readLiteral k v
  | item _ inTuple _ _, v => readItem k inTuple v

/-- A slot in which texts are read reads a value as a literal. -/
theorem read_of_isRead {σ : Slot k} (h : σ.IsRead) (v : Value) : σ.read v = readLiteral k v := by
  cases σ with
  | path => rfl
  | item hk inTuple before behind =>
    rw [read, show inTuple = false from h]
    rfl

/-- A slot in which texts are not read leaves a value as it is. -/
theorem read_of_not_isRead {σ : Slot k} (h : ¬σ.IsRead) (v : Value) : σ.read v = .ok v := by
  cases σ with
  | path => exact absurd trivial h
  | item hk inTuple before behind =>
    rw [read, eq_true_of_ne_false h]
    rfl

/-- A text that is not read is kept as one. -/
theorem entryOf_text_of_not_isRead {σ : Slot k} (h : ¬σ.IsRead) (s : String) :
    entryOf k (.text s) = .ok (.substring s) := by
  cases σ with
  | path => exact absurd trivial h
  | item hk inTuple before behind => exact entryOf_blacklist hk _

/-- What a slot reads from an entry is an entry. -/
theorem isEntry_of_read {σ : Slot k} {v w : Value} (hv : IsEntry v) (h : σ.read v = .ok w) :
    IsEntry w := by
  by_cases hread : σ.IsRead
  · rw [read_of_isRead hread] at h
    exact isEntry_of_readLiteral hv h
  · rw [read_of_not_isRead hread] at h
    exact Except.ok.inj h ▸ hv

/-- A value is what is kept of the value with an entry in a slot. -/
def Wraps : Slot k → Blacklist.Entry → Value → Prop
  | path, x, w => entryValue x = w
  | item _ inTuple before behind, x, w => ∃ b c,
    List.Forall₂ (fun v x => (readItem k inTuple v >>= checkEntry k) = .ok x) before b ∧
      List.Forall₂ (fun v x => (readItem k inTuple v >>= checkEntry k) = .ok x) behind c ∧
        blacklistValue (b ++ x :: c) = w

/-- What can be kept with one entry in a slot can be kept with any other. -/
theorem exists_wraps {σ : Slot k} {x x' : Blacklist.Entry} {w : Value} (h : σ.Wraps x w) :
    ∃ w', σ.Wraps x' w' := by
  cases σ with
  | path => exact ⟨_, rfl⟩
  | item hk inTuple before behind =>
    obtain ⟨b, c, hb, hc, -⟩ := h
    exact ⟨_, b, c, hb, hc, rfl⟩

/-- Settings that keep an entry in a slot have it as the outcome there. -/
theorem outcome?_of_wraps {σ : Slot k} {x : Blacklist.Entry} {t : Settings}
    (h : σ.Wraps x (t.valueOf k)) : σ.outcome? t = some x := by
  cases σ with
  | path =>
    have h : entryValue x = patternValue t.pathPattern := h
    rw [outcome?]
    cases hp : t.pathPattern with
    | none => rw [hp] at h; cases x <;> cases h
    | some r => rw [hp] at h; cases x <;> cases h; rfl
  | item hk inTuple before behind =>
    obtain ⟨b, c, hb, -, h⟩ := h
    have hlist : t.valueOf k = blacklistValue (t.blacklistOf k) := by
      rcases hk with rfl | rfl <;> rfl
    rw [outcome?, ← blacklistValue_injective (h.trans hlist), hb.length_eq]
    simp

/-- A value with something in a slot is accepted if what is in the slot and what is around it
are. -/
theorem accept_fill_eq_ok_iff (σ : Slot k) {v w : Value} (hv : IsEntry v) :
    accept k (σ.fill v) = .ok w ↔
      ∃ x, (σ.read v >>= entryOf k) = .ok x ∧ σ.Wraps x w := by
  cases σ with
  | path =>
    show (read path v >>= keep .pathPattern) = .ok w ↔ _
    simp only [bind_eq_ok_iff]
    constructor
    · rintro ⟨u, hu, hw⟩
      obtain ⟨x, hx, hxw⟩ := (keep_pathPattern_eq_ok_iff (isEntry_of_read hv hu)).1 hw
      exact ⟨x, ⟨u, hu, hx⟩, hxw⟩
    · rintro ⟨x, ⟨u, hu, hx⟩, hxw⟩
      exact ⟨u, hu, (keep_pathPattern_eq_ok_iff (isEntry_of_read hv hu)).2 ⟨x, hx, hxw⟩⟩
  | item hk inTuple before behind =>
    have hentry : entryOf k = checkEntry k := funext (entryOf_blacklist hk)
    rw [fill, accept_sequence_eq_ok_iff hk, hentry]
    constructor
    · rintro ⟨_, hall, rfl⟩
      obtain ⟨b, x, c, hb, hx, hc, rfl⟩ := forall₂_middle_iff.1 hall
      exact ⟨x, hx, b, c, hb, hc, rfl⟩
    · rintro ⟨x, hx, b, c, hb, hc, rfl⟩
      exact ⟨_, forall₂_middle_iff.2 ⟨b, x, c, hb, hx, hc, rfl⟩, rfl⟩

end Slot

/-! ## What becomes of a mapping -/

namespace TextPlace

variable {base t : Settings} {p : TextPlace}

/-- What a mapping has at a place is accepted, and it is what the settings have there. -/
theorem exists_entry {v : Value} (hv : IsEntry v) (ht : ofMapping base (p.fill v) = .ok t) :
    ∃ x, (p.slot.read v >>= entryOf p.key) = .ok x ∧ p.slot.Wraps x (t.valueOf p.key) := by
  have hsettled := ofMapping_eq_ok_iff.1 ht
  rw [meant_fill] at hsettled
  exact (p.slot.accept_fill_eq_ok_iff hv).1
    (hsettled.given (List.mem_append_right _ List.mem_cons_self))

/-- What is accepted can stand at an open place. -/
theorem Open.exists_ok (h : p.Open base) {v : Value} (hv : IsEntry v) {x : Blacklist.Entry}
    (hx : (p.slot.read v >>= entryOf p.key) = .ok x) :
    ∃ t, ofMapping base (p.fill v) = .ok t := by
  obtain ⟨r, t, ht⟩ := h
  obtain ⟨y, -, hy⟩ := exists_entry (Or.inr ⟨r, rfl⟩) ht
  obtain ⟨w, hw⟩ : ∃ w, p.slot.Wraps x w := Slot.exists_wraps hy
  have hsettled := ofMapping_eq_ok_iff.1 ht
  rw [meant_fill] at hsettled
  obtain ⟨t', ht'⟩ :=
    hsettled.exists_of_accept ((p.slot.accept_fill_eq_ok_iff hv).2 ⟨x, hx, hw⟩)
  rw [← meant_fill] at ht'
  exact ⟨t', ofMapping_eq_ok_iff.2 ht'⟩

end TextPlace

/-- A value with something in a slot that cannot be read cannot be read itself. -/
theorem Slot.readLiterals_fill_error {k : Key} {σ : Slot k} {v v' w : Value} {f : Fault}
    (hw : readLiterals k (σ.fill v) = .ok w) (hf : σ.read v' = .error f) :
    readLiterals k (σ.fill v') = .error f := by
  cases σ with
  | path => exact hf
  | item hk inTuple before behind =>
    cases inTuple with
    | true => cases hf
    | false =>
      have hf : readLiteral k v' = .error f := hf
      have hw : readLiterals k (.list (before ++ v :: behind)) = .ok w := hw
      show readLiterals k (.list (before ++ v' :: behind)) = .error f
      rw [readLiterals_list hk] at hw ⊢
      obtain ⟨ws, hws, -⟩ := map_eq_ok_iff.1 hw
      obtain ⟨b, -, -, hb, -⟩ := forall₂_middle_iff.1 (mapM_eq_ok_iff.1 hws)
      rw [List.mapM_append, List.mapM_cons, mapM_eq_ok_iff.2 hb, hf]
      rfl

/-- What cannot be read at an open place is the fault of the mapping. -/
theorem TextPlace.Open.error {base : Settings} {p : TextPlace} (h : p.Open base) {v : Value}
    {f : Fault} (hf : p.slot.read v = .error f) :
    ofMapping base (p.fill v) = .error f := by
  -- the entries in front are resolved as they are with a regular expression at the place
  obtain ⟨r, t, ht⟩ := h
  obtain ⟨o, ho, -⟩ := bind_eq_ok_iff.1 ht
  obtain ⟨found, hfront, hrest⟩ := bind_eq_ok_iff.1 ((resolve_append _ _ _ _).symm.trans ho)
  obtain ⟨⟨k, w⟩, ⟨hk, hw⟩, hnone, -⟩ := resolve_cons_eq_ok_iff.1 hrest
  have hkey := Key.ofAnyName?_eq_some_iff.2 p.named
  obtain rfl : p.key = k := Option.some.inj (hkey.symm.trans hk)
  have hresolve : resolve readLiterals [] (p.front ++ (p.name, p.slot.fill v) :: p.back) =
      .error f := by
    rw [resolve_append, hfront]
    show resolve readLiterals found ((p.name, p.slot.fill v) :: p.back) = .error f
    rw [resolve, hkey]
    dsimp only
    rw [hnone, if_neg (by simp), Slot.readLiterals_fill_error hw hf]
  show (resolve readLiterals [] (p.front ++ (p.name, p.slot.fill v) :: p.back) >>= base.update) = _
  rw [hresolve]
  rfl

/-! ## Texts -/

section Texts

variable {k : Key} {s : String} {x : Blacklist.Entry} {body letters : List Char}

/-- A literal stands for its body alone. -/
theorem StandsFor.of_literal (h : StandsFor k s x) (hliteral : IsLiteral s.toList body letters) :
    (∀ c ∈ letters, c ∈ knownLetters) ∧
      ∃ r, Regex.compile (String.ofList body) (flagsOf letters) = .ok r ∧ x = .regex r := by
  cases h with
  | literal h hknown hr =>
    obtain ⟨rfl, rfl⟩ := h.unique hliteral
    exact ⟨hknown, _, hr, rfl⟩
  | pattern h hr => exact absurd hliteral (h _ _)
  | substring hk h => exact absurd hliteral (h _ _)

/-- Unless it is a literal with a line feed behind it, a text becomes what it stands for. -/
theorem readLiteral_entryOf_eq_ok_iff (σ : Slot k)
    (hfed : ∀ body letters, ¬IsFedLiteral s.toList body letters) :
    (readLiteral k (.text s) >>= entryOf k) = .ok x ↔ StandsFor k s x := by
  cases hparts : literalParts? s.toList with
  -- What is not even literal in form stands for itself: at the place of the path as a regular
  -- expression, and in a blacklist as a text.
  | none =>
    have hnot := not_isLiteral_of_none hparts
    rw [readLiteral_of_none hparts]
    show entryOf k (.text s) = .ok x ↔ _
    cases σ with
    | path =>
      rw [entryOf_text_eq_ok_iff]
      constructor
      · rintro ⟨r, hr, rfl⟩
        exact .pattern hnot hr
      · intro h
        cases h with
        | literal h => exact absurd h (hnot _ _)
        | pattern h hr => exact ⟨_, hr, rfl⟩
        | substring hk => rcases hk with hk | hk <;> cases hk
    | item hk inTuple before behind =>
      rw [entryOf_blacklist hk]
      constructor
      · rintro ⟨⟩
        exact .substring hk hnot
      · intro h
        cases h with
        | literal h => exact absurd h (hnot _ _)
        | pattern h hr => rcases hk with hk | hk <;> cases hk
        | substring hk h => rfl
  | some parts =>
    -- By the hypothesis it is a literal, and what decides is whether its letters are known.
    obtain ⟨body, letters⟩ := parts
    have hliteral := (literalParts?_eq_some_iff.1 hparts).resolve_right (hfed body letters)
    have hregex (r : Regex) : entryOf k (.regex r) = .ok (.regex r) := by cases k <;> rfl
    by_cases hknown : ∀ c ∈ letters, c ∈ knownLetters
    · rw [readLiteral_of_known hparts hknown, bind_eq_ok_iff]
      simp only [map_eq_ok_iff, compileFor_eq_ok_iff]
      constructor
      · rintro ⟨_, ⟨r, hr, rfl⟩, hx⟩
        obtain rfl := Except.ok.inj ((hregex r).symm.trans hx)
        exact .literal hliteral hknown hr
      · intro h
        obtain ⟨-, r, hr, rfl⟩ := h.of_literal hliteral
        exact ⟨_, ⟨r, hr, rfl⟩, hregex r⟩
    · have hunknown : ∃ c ∈ letters, c ∉ knownLetters := by
        simpa only [not_forall, exists_prop] using hknown
      obtain ⟨c, -, -, herror⟩ := readLiteral_of_unknown (k := k) hparts hunknown
      rw [herror]
      exact iff_of_false nofun fun h => hknown (h.of_literal hliteral).1

end Texts

theorem open_lonelyPlace : lonelyPlace.Open {} :=
  ⟨⟨"", {}, .empty⟩, { selectorBlacklist := [.regex ⟨"", {}, .empty⟩] }, rfl⟩

section Places

variable {base : Settings} {p : TextPlace} {s : String} {body letters : List Char}

/-- A literal with a line feed behind it is not kept as it is. -/
theorem not_readAsWritten_of_fed (hfed : IsFedLiteral s.toList body letters) :
    ¬ReadAsWritten {} lonelyPlace s := by
  intro h
  have hnot (body letters : List Char) : ¬IsLiteral s.toList body letters := fun hliteral =>
    hfed.elim fun front hfront => hliteral.ne_concat front hfront.1
  -- as written it is a substring, but what settles the place is the expression that is read
  obtain ⟨t, ht⟩ := h.accepted _ (.substring (Or.inl rfl) hnot) open_lonelyPlace
  obtain ⟨x, hx, hentry⟩ := h.taken t ht
  obtain ⟨y, hy, hwraps⟩ := TextPlace.exists_entry (Or.inl ⟨s, rfl⟩) ht
  obtain rfl : y = x := Option.some.inj ((Slot.outcome?_of_wraps hwraps).symm.trans hentry)
  obtain ⟨v, hv, hentryOf⟩ := bind_eq_ok_iff.1 hy
  rw [Slot.read_of_isRead isRead_lonelyPlace] at hv
  obtain ⟨r, rfl, -⟩ := exists_regex_of_parts (literalParts?_eq_some_iff.2 (Or.inr hfed)) hv
  obtain rfl : Blacklist.Entry.regex r = y := Except.ok.inj hentryOf
  cases hx with
  | literal hliteral => exact hnot _ _ hliteral

/-- A literal that fails in another way than by its syntax is not refused as others are. -/
theorem not_readAsWritten_of_not_isSyntax {e : Regex.Fault}
    (hliteral : IsLiteral s.toList body letters) (hknown : ∀ c ∈ letters, c ∈ knownLetters)
    (he : Regex.compile (String.ofList body) (flagsOf letters) = .error e)
    (hcause : e.cause.isSyntax = false) : ¬ReadAsWritten {} lonelyPlace s := by
  intro h
  have hparts := literalParts?_eq_some_iff.2 (Or.inl hliteral)
  have hread : lonelyPlace.slot.read (.text s) = .error (.regexError e.cause) := by
    rw [Slot.read_of_isRead isRead_lonelyPlace, readLiteral_of_known hparts hknown,
      compileFor_of_error he, hcause]
    rfl
  have herror := h.badBody body letters e hliteral hknown he open_lonelyPlace
  rw [open_lonelyPlace.error hread] at herror
  cases herror

/-- Any other text is read as it is written wherever texts are read. -/
theorem readAsWritten_of_isRead (hread : p.slot.IsRead)
    (hfed : ∀ body letters, ¬IsFedLiteral s.toList body letters)
    (hregular : ∀ body letters e, IsLiteral s.toList body letters →
      (∀ c ∈ letters, c ∈ knownLetters) →
      Regex.compile (String.ofList body) (flagsOf letters) = .error e →
      e.cause.isSyntax = true) : ReadAsWritten base p s := by
  have hslot := Slot.read_of_isRead hread (.text s)
  have hstands (x : Blacklist.Entry) := readLiteral_entryOf_eq_ok_iff (x := x) p.slot hfed
  refine ⟨fun t ht => ?_, fun x hx hopen => ?_, fun body letters hliteral hunknown hopen => ?_,
    fun body letters e hliteral hknown he hopen => ?_⟩
  · obtain ⟨x, hx, hwraps⟩ := TextPlace.exists_entry (Or.inl ⟨s, rfl⟩) ht
    exact ⟨x, (hstands x).1 (hslot ▸ hx), Slot.outcome?_of_wraps hwraps⟩
  · exact hopen.exists_ok (Or.inl ⟨s, rfl⟩) (hslot ▸ (hstands x).2 hx)
  · have hparts := literalParts?_eq_some_iff.2 (Or.inl hliteral)
    obtain ⟨c, hc, hunknown, herror⟩ := readLiteral_of_unknown (k := p.key) hparts hunknown
    exact ⟨c, hc, hunknown, hopen.error (hslot.trans herror)⟩
  · have hparts := literalParts?_eq_some_iff.2 (Or.inl hliteral)
    refine hopen.error (hslot.trans ?_)
    rw [readLiteral_of_known hparts hknown, compileFor_of_error he,
      if_pos (hregular body letters e hliteral hknown he), String.toList_ofList]
    rfl

/-- Where texts are not read, they are kept. -/
theorem keptAsText_of_not_isRead (hread : ¬p.slot.IsRead) : KeptAsText base p s := by
  have hslot := Slot.read_of_not_isRead hread (.text s)
  have hentry := Slot.entryOf_text_of_not_isRead hread s
  refine ⟨fun t ht => ?_, fun hopen => ?_⟩
  · obtain ⟨x, hx, hwraps⟩ := TextPlace.exists_entry (Or.inl ⟨s, rfl⟩) ht
    rw [hslot] at hx
    obtain rfl : Blacklist.Entry.substring s = x := Except.ok.inj (hentry.symm.trans hx)
    exact Slot.outcome?_of_wraps hwraps
  · have hx : (p.slot.read (.text s) >>= entryOf p.key) = .ok (.substring s) := by
      rw [hslot]
      exact hentry
    exact hopen.exists_ok (Or.inl ⟨s, rfl⟩) hx

end Places

/-- A text is read as it is written, at any place in any mapping where texts are read, exactly if it
is no literal with a line feed behind it and no literal that fails in another way than by its
syntax. In a tuple, every text is kept as it is. -/
theorem readAsWritten_iff (s : String) :
    ((∀ base p, p.slot.IsRead → ReadAsWritten base p s) ↔
      (∀ body letters, ¬IsFedLiteral s.toList body letters) ∧
      ∀ body letters e, IsLiteral s.toList body letters → (∀ c ∈ letters, c ∈ knownLetters) →
        Regex.compile (String.ofList body) (flagsOf letters) = .error e →
        e.cause.isSyntax = true) ∧
    ∀ base p, ¬p.slot.IsRead → KeptAsText base p s := by
  refine ⟨⟨fun h => ⟨fun body letters hfed => ?_, ?_⟩, ?_⟩, fun base p => keptAsText_of_not_isRead⟩
  · exact not_readAsWritten_of_fed hfed (h _ _ isRead_lonelyPlace)
  · intro body letters e hliteral hknown he
    by_contra hcause
    exact not_readAsWritten_of_not_isSyntax hliteral hknown he (Bool.eq_false_iff.2 hcause)
      (h _ _ isRead_lonelyPlace)
  · rintro ⟨hfed, hregular⟩ base p hread
    exact readAsWritten_of_isRead hread hfed hregular

end Names

attribute [local instance] Regex.CharacterNames.none

/-- A literal with a line feed behind it is no literal, and yet no text either. -/
theorem not_readAsWritten_feedBehind : ¬ReadAsWritten {} lonelyPlace "/a/\n" := by
  have hliteral : IsLiteral ['/', 'a', '/'] ['a'] [] := ⟨rfl, by decide, by simp⟩
  exact not_readAsWritten_of_fed ⟨_, rfl, hliteral⟩

end PixelUnit.Settings
