import Mathlib.Data.List.Nodup
import Mathlib.Data.List.Perm.Subperm
import PixelUnit.Memory.Copy
import PixelUnit.Proofs.Lists

/-!
# How copies come about

What one step of copying adds is said once, in `Advance`: new objects only, each of them the copy of
an object that had none or an empty dict of iterations, and what a copy holds are copies
(`PartTwin`). The numbers of copies follow the order in which objects are entered into the memo; an
object is entered behind one that holds it. From the parts of one object the induction on the depth
leads to all that is copied with it (`copy_spec`). It also shows that copying always comes to an
end: whenever it goes deeper, there is one more object in the memo.
-/

namespace PixelUnit.Memory

variable {m : Memory} {st st' st'' : Copying} {a b p q lo : Address} {k : ObjectKind} {depth : Nat}

/-! ## What leads where -/

/-- All objects that objects hold are there. -/
def Closed (m : Memory) : Prop :=
  ∀ a o, m.get? a = some o → ∀ key b, (key, .object b) ∈ o.parts → b < m.size

/-- A part of a container that is not copied like others: its iterations or its parent. -/
def IsOwn (k : ObjectKind) (key : Atom) : Prop :=
  k.isContainer = true ∧ (key = iterationsKey ∨ key = parentKey)

/-- What copying parts of an object leads to. -/
def HeldIn (k : ObjectKind) (parts : List (Atom × Held)) (a : Address) : Prop :=
  ∃ key, (key, .object a) ∈ parts ∧ ¬IsOwn k key

/-- An object holds another, and not as its parent if it is a container. -/
def LeadsTo (m : Memory) (x a : Address) : Prop :=
  ∃ o, m.get? x = some o ∧ HeldIn o.kind o.parts a

/-! ## Copies of parts -/

/-- The copy of what an object holds. -/
inductive HeldTwin (memo : List (Address × Address)) : Held → Held → Prop
  | atom (x : Atom) : HeldTwin memo (.atom x) (.atom x)
  | object {a b : Address} (h : (a, b) ∈ memo) : HeldTwin memo (.object a) (.object b)

/-- The copy of a part of the object whose copy is `b`. A container whose parent was copied before
it has the copy of the parent, and no container has another parent or iterations. -/
inductive PartTwin (st : Copying) (lo b : Address) (k : ObjectKind) :
    Atom × Held → Atom × Held → Prop
  | plain {key : Atom} {v w : Held} (hkey : ¬IsOwn k key) (h : HeldTwin st.memo v w) :
    PartTwin st lo b k (key, v) (key, w)
  | iterations {v : Held} {d : Address} (hk : k.isContainer = true) (hd : lo ≤ d)
      (hdict : st.memory.get? d = some ⟨.dict, []⟩) :
    PartTwin st lo b k (iterationsKey, v) (iterationsKey, .object d)
  | parent {p q : Address} (hk : k.isContainer = true) (h : (p, q) ∈ st.memo) :
    PartTwin st lo b k (parentKey, .object p) (parentKey, .object q)
  | noParent {v : Held} (hk : k.isContainer = true)
      (h : ∀ p q, v = .object p → (p, q) ∈ st.memo → b < q) :
    PartTwin st lo b k (parentKey, v) (parentKey, .atom .none)

/-- A copy keeps the key. -/
theorem PartTwin.key_eq {x y : Atom × Held} (h : PartTwin st lo b k x y) : y.1 = x.1 := by
  cases h <;> rfl

/-- What is in a memo is in a larger one. -/
theorem HeldTwin.mono {memo memo' : List (Address × Address)} (h : memo ⊆ memo') {v w : Held}
    (hvw : HeldTwin memo v w) : HeldTwin memo' v w := by
  cases hvw with
  | atom x => exact .atom x
  | object hab => exact .object (h hab)

/-! ## Memos -/

/-- Copying objects of `m` has begun: they are as they were, and the copies in the memo are behind
them, one for each object there. -/
structure Begun (m : Memory) (st : Copying) : Prop where
  get?_old : ∀ a < m.size, st.memory.get? a = m.get? a
  size_le : m.size ≤ st.memory.size
  bounds : ∀ a b, (a, b) ∈ st.memo → a < m.size ∧ m.size ≤ b ∧ b < st.memory.size
  nodup_keys : (st.memo.map Prod.fst).Nodup
  nodup_copies : (st.memo.map Prod.snd).Nodup

namespace Begun

/-- Copying begins with an empty memo. -/
theorem start (m : Memory) : Begun m ⟨m, []⟩ where
  get?_old _ _ := rfl
  size_le := Nat.le_refl _
  bounds _ _ h := absurd h List.not_mem_nil
  nodup_keys := List.nodup_nil
  nodup_copies := List.nodup_nil

/-- No more objects are in the memo than there are. -/
theorem length_le (h : Begun m st) : st.memo.length ≤ m.size := by
  have hsub : st.memo.map Prod.fst ⊆ List.range m.size := by
    intro a ha
    obtain ⟨⟨a, b⟩, hab, rfl⟩ := List.mem_map.1 ha
    exact List.mem_range.2 (h.bounds a b hab).1
  have hle := (List.Nodup.subperm h.nodup_keys hsub).length_le
  rwa [List.length_map, List.length_range] at hle

/-- The copy of an object is the one that the memo has with it, as there is no more than one. -/
theorem copyOf?_eq_some_iff (h : Begun m st) : st.copyOf? a = some b ↔ (a, b) ∈ st.memo := by
  have hkeys := h.nodup_keys
  unfold Copying.copyOf?
  generalize st.memo = memo at hkeys ⊢
  induction memo with
  | nil => simp
  | cons e es ih =>
    obtain ⟨c, d⟩ := e
    rw [List.map_cons, List.nodup_cons] at hkeys
    rw [List.lookup_cons, List.mem_cons, Prod.mk.injEq]
    by_cases hac : a = c
    · subst hac
      have hnot : (a, b) ∉ es := fun h => hkeys.1 (List.mem_map.2 ⟨(a, b), h, rfl⟩)
      simp [hnot, eq_comm]
    · rw [beq_eq_false_iff_ne.2 hac]
      simp [hac, ih hkeys.2]

theorem copyOf?_eq_none_iff (h : Begun m st) : st.copyOf? a = none ↔ ∀ b, (a, b) ∉ st.memo := by
  simp only [Option.eq_none_iff_forall_ne_some, ne_eq, h.copyOf?_eq_some_iff]

/-- An object has one copy. -/
theorem copy_unique (h : Begun m st) (hp : (a, p) ∈ st.memo) (hq : (a, q) ∈ st.memo) : p = q :=
  Option.some.inj ((h.copyOf?_eq_some_iff.2 hp).symm.trans (h.copyOf?_eq_some_iff.2 hq))

/-- A copy is the copy of one object. -/
theorem original_unique (h : Begun m st) (ha : (a, q) ∈ st.memo) (hb : (b, q) ∈ st.memo) :
    a = b := by
  have hinj := List.inj_on_of_nodup_map h.nodup_copies ha hb rfl
  exact congrArg Prod.fst hinj

end Begun

/-! ## One step and the next -/

/-- What copying adds that starts from some objects. -/
structure Advance (m : Memory) (start : Address → Prop) (st st' : Copying) : Prop where
  begun : Begun m st'
  size_le : st.memory.size ≤ st'.memory.size
  get?_eq : ∀ c < st.memory.size, st'.memory.get? c = st.memory.get? c
  memo : ∃ new, st'.memo = new ++ st.memo ∧ ∀ a b, (a, b) ∈ new → st.memory.size ≤ b
  twin : ∀ a b, (a, b) ∈ st'.memo → st.memory.size ≤ b →
    ∃ o parts, m.get? a = some o ∧ st'.memory.get? b = some ⟨o.kind, parts⟩ ∧
      List.Forall₂ (PartTwin st' st.memory.size b o.kind) o.parts parts
  known : ∀ c, st.memory.size ≤ c → c < st'.memory.size →
    (∃ a, (a, c) ∈ st'.memo) ∨ st'.memory.get? c = some ⟨.dict, []⟩
  found : ∀ a b, (a, b) ∈ st'.memo → st.memory.size ≤ b →
    start a ∨ ∃ x y, (x, y) ∈ st'.memo ∧ y < b ∧ m.LeadsTo x a

namespace Advance

variable {start start' : Address → Prop}

/-- Copying takes nothing from the memo. -/
theorem subset (h : Advance m start st st') : st.memo ⊆ st'.memo := by
  obtain ⟨new, hnew, -⟩ := h.memo
  rw [hnew]
  exact List.subset_append_right _ _

/-- Copying does not make the memo shorter. -/
theorem length_le (h : Advance m start st st') : st.memo.length ≤ st'.memo.length := by
  obtain ⟨new, hnew, -⟩ := h.memo
  rw [hnew, List.length_append]
  exact Nat.le_add_left _ _

/-- What is in the memo afterwards and was there in the numbers before was in the memo before. -/
theorem mem_of_lt (h : Advance m start st st') (hab : (a, b) ∈ st'.memo)
    (hb : b < st.memory.size) : (a, b) ∈ st.memo := by
  obtain ⟨new, hnew, hbound⟩ := h.memo
  rw [hnew] at hab
  exact (List.mem_append.1 hab).resolve_left fun h => Nat.not_le_of_lt hb (hbound a b h)

/-- A copy that is in the memo is new, or was there before. -/
theorem lt_or_mem (h : Advance m start st st') (hab : (a, b) ∈ st'.memo) :
    st.memory.size ≤ b ∨ (a, b) ∈ st.memo := by
  rcases Nat.lt_or_ge b st.memory.size with hb | hb
  · exact .inr (h.mem_of_lt hab hb)
  · exact .inl hb

theorem mono (h : Advance m start st st') (hstart : ∀ a, start a → start' a) :
    Advance m start' st st' :=
  { h with found := fun a b hab hb => (h.found a b hab hb).imp_left (hstart a) }

end Advance

namespace PartTwin

variable {start : Address → Prop} {x y : Atom × Held}

theorem of_le (h : PartTwin st lo b k x y) {lo' : Address} (hlo : lo' ≤ lo) :
    PartTwin st lo' b k x y := by
  cases h with
  | plain hkey hvw => exact .plain hkey hvw
  | iterations hk hd hdict => exact .iterations hk (Nat.le_trans hlo hd) hdict
  | parent hk hpq => exact .parent hk hpq
  | noParent hk hpq => exact .noParent hk hpq

/-- What is copied later does not change what a copy is. -/
theorem advance (h : PartTwin st lo b k x y) (hb : b < st.memory.size)
    (hst : Advance m start st st') : PartTwin st' lo b k x y := by
  cases h with
  | plain hkey hvw => exact .plain hkey (hvw.mono hst.subset)
  | iterations hk hd hdict =>
    exact .iterations hk hd ((hst.get?_eq _ (exists_get?_iff.1 ⟨_, hdict⟩)).trans hdict)
  | parent hk hpq => exact .parent hk (hst.subset hpq)
  | noParent hk hpq =>
    refine .noParent hk fun p q hv hmem => ?_
    rcases hst.lt_or_mem hmem with hq | hq
    · exact Nat.lt_of_lt_of_le hb hq
    · exact hpq p q hv hq

end PartTwin

namespace Advance

variable {start : Address → Prop}

/-- Copying nothing is an advance. -/
theorem refl (h : Begun m st) : Advance m start st st where
  begun := h
  size_le := Nat.le_refl _
  get?_eq _ _ := rfl
  memo := ⟨[], rfl, fun _ _ h => absurd h List.not_mem_nil⟩
  twin a b hab hb := absurd (h.bounds a b hab).2.2 (Nat.not_lt_of_le hb)
  known _ hc hc' := absurd hc' (Nat.not_lt_of_le hc)
  found a b hab hb := absurd (h.bounds a b hab).2.2 (Nat.not_lt_of_le hb)

/-- Copying goes on from where it has come to, and adds to what it has added before. -/
theorem trans (h : Advance m start st st') (h' : Advance m start st' st'') :
    Advance m start st st'' where
  begun := h'.begun
  size_le := Nat.le_trans h.size_le h'.size_le
  get?_eq c hc :=
    (h'.get?_eq c (Nat.lt_of_lt_of_le hc h.size_le)).trans (h.get?_eq c hc)
  memo := by
    obtain ⟨new, hnew, hbound⟩ := h.memo
    obtain ⟨new', hnew', hbound'⟩ := h'.memo
    refine ⟨new' ++ new, by rw [hnew', hnew, List.append_assoc], fun a b hab => ?_⟩
    rcases List.mem_append.1 hab with hab | hab
    · exact Nat.le_trans h.size_le (hbound' a b hab)
    · exact hbound a b hab
  twin a b hab hb := by
    rcases Nat.lt_or_ge b st'.memory.size with hb' | hb'
    · obtain ⟨o, parts, ho, hcopy, hparts⟩ := h.twin a b (h'.mem_of_lt hab hb') hb
      exact ⟨o, parts, ho, (h'.get?_eq b hb').trans hcopy,
        hparts.imp fun _ _ hpart => hpart.advance hb' h'⟩
    · obtain ⟨o, parts, ho, hcopy, hparts⟩ := h'.twin a b hab hb'
      exact ⟨o, parts, ho, hcopy, hparts.imp fun _ _ hpart => hpart.of_le h.size_le⟩
  known c hc hc' := by
    rcases Nat.lt_or_ge c st'.memory.size with hlt | hge
    · rcases h.known c hc hlt with ⟨a, ha⟩ | hdict
      · exact .inl ⟨a, h'.subset ha⟩
      · exact .inr ((h'.get?_eq c hlt).trans hdict)
    · exact h'.known c hge hc'
  found a b hab hb := by
    rcases Nat.lt_or_ge b st'.memory.size with hb' | hb'
    · refine (h.found a b (h'.mem_of_lt hab hb') hb).imp_right ?_
      rintro ⟨x, y, hxy, hy, hleads⟩
      exact ⟨x, y, h'.subset hxy, hy, hleads⟩
    · exact h'.found a b hab hb'

/-- A new dict for iterations. -/
theorem newDict (h : Begun m st) :
    Advance m start st { st with memory := st.memory.add ⟨.dict, []⟩ } where
  begun :=
    { get?_old := fun a ha =>
        (get?_add_of_lt (Nat.lt_of_lt_of_le ha h.size_le) _).trans (h.get?_old a ha)
      size_le := by
        rw [size_add]
        exact Nat.le_succ_of_le h.size_le
      bounds := fun a b hab => by
        obtain ⟨ha, hb, hlt⟩ := h.bounds a b hab
        rw [size_add]
        exact ⟨ha, hb, Nat.lt_succ_of_lt hlt⟩
      nodup_keys := h.nodup_keys
      nodup_copies := h.nodup_copies }
  size_le := by
    rw [size_add]
    exact Nat.le_succ _
  get?_eq _ hc := get?_add_of_lt hc _
  memo := ⟨[], rfl, fun _ _ h => absurd h List.not_mem_nil⟩
  twin a b hab hb := absurd (h.bounds a b hab).2.2 (Nat.not_lt_of_le hb)
  known c hc hlt := by
    rw [size_add] at hlt
    obtain rfl : c = st.memory.size := Nat.le_antisymm (Nat.le_of_lt_succ hlt) hc
    exact .inr (get?_add_size _ _)
  found a b hab hb := absurd (h.bounds a b hab).2.2 (Nat.not_lt_of_le hb)

end Advance

@[simp]
theorem Copying.size_enter (st : Copying) (a : Address) (k : ObjectKind) :
    (st.enter a k).memory.size = st.memory.size + 1 :=
  size_add ..

theorem Copying.lt_size_enter (st : Copying) (a : Address) (k : ObjectKind) :
    st.memory.size < (st.enter a k).memory.size := by
  rw [size_enter]
  exact Nat.lt_succ_self _

/-- An object that is not in the memo is entered. -/
theorem Begun.enter (h : Begun m st) (ha : a < m.size) (hnew : ∀ b, (a, b) ∉ st.memo)
    (k : ObjectKind) : Begun m (st.enter a k) where
  get?_old c hc := (get?_add_of_lt (Nat.lt_of_lt_of_le hc h.size_le) _).trans (h.get?_old c hc)
  size_le := by
    rw [Copying.size_enter]
    exact Nat.le_succ_of_le h.size_le
  bounds c d hcd := by
    rw [Copying.size_enter]
    rcases List.mem_cons.1 hcd with heq | hcd
    · cases heq
      exact ⟨ha, h.size_le, Nat.lt_succ_self _⟩
    · obtain ⟨hc, hd, hlt⟩ := h.bounds c d hcd
      exact ⟨hc, hd, Nat.lt_succ_of_lt hlt⟩
  nodup_keys := by
    rw [Copying.enter, List.map_cons, List.nodup_cons]
    refine ⟨fun hmem => ?_, h.nodup_keys⟩
    obtain ⟨⟨c, d⟩, hcd, rfl⟩ := List.mem_map.1 hmem
    exact hnew d hcd
  nodup_copies := by
    rw [Copying.enter, List.map_cons, List.nodup_cons]
    refine ⟨fun hmem => ?_, h.nodup_copies⟩
    obtain ⟨⟨c, d⟩, hcd, heq⟩ := List.mem_map.1 hmem
    have hlt := (h.bounds c d hcd).2.2
    rw [show d = st.memory.size from heq] at hlt
    exact Nat.lt_irrefl _ hlt

/-- Copies that stand behind the one that gets its parts stay what they are. -/
theorem PartTwin.finish {parts : List (Atom × Held)} {c : Address} {x y : Atom × Held}
    (h : PartTwin st lo b k x y) (hc : c < lo) : PartTwin (st.finish c parts) lo b k x y := by
  cases h with
  | plain hkey hvw => exact .plain hkey hvw
  | iterations hk hd hdict =>
    refine .iterations hk hd ?_
    rw [Copying.finish, get?_update_of_ne (Nat.ne_of_lt (Nat.lt_of_lt_of_le hc hd))]
    exact hdict
  | parent hk hpq => exact .parent hk hpq
  | noParent hk hpq => exact .noParent hk hpq

theorem Copying.get?_finish_of_ne {c : Address} (h : b ≠ c) (parts : List (Atom × Held)) :
    (st.finish b parts).memory.get? c = st.memory.get? c :=
  get?_update_of_ne h _

@[simp]
theorem Copying.size_finish (st : Copying) (b : Address) (parts : List (Atom × Held)) :
    (st.finish b parts).memory.size = st.memory.size :=
  size_update ..

/-- A copy gets its parts. -/
theorem Begun.finish (h : Begun m st) (hb : m.size ≤ b) (parts : List (Atom × Held)) :
    Begun m (st.finish b parts) where
  get?_old c hc :=
    (Copying.get?_finish_of_ne (Nat.ne_of_gt (Nat.lt_of_lt_of_le hc hb)) parts).trans
      (h.get?_old c hc)
  size_le := by
    rw [Copying.size_finish]
    exact h.size_le
  bounds c d hcd := by
    rw [Copying.size_finish]
    exact h.bounds c d hcd
  nodup_keys := h.nodup_keys
  nodup_copies := h.nodup_copies

section Entered

variable {start : Address → Prop} {parts : List (Atom × Held)}

/-- The copy that was there first has the parts that it gets. -/
theorem Advance.get?_finish (h : Advance m start (st.enter a k) st') :
    (st'.finish st.memory.size parts).memory.get? st.memory.size = some ⟨k, parts⟩ := by
  have hlt : st.memory.size < (st.enter a k).memory.size := Copying.lt_size_enter ..
  rw [Copying.finish, get?_update, if_pos rfl, h.get?_eq _ hlt, Copying.enter, get?_add_size]
  rfl

/-- What is in the memo since then, and before. -/
theorem Advance.memo_enter (h : Advance m start (st.enter a k) st') :
    ∃ new, st'.memo = new ++ st.memo ∧ ∀ c d, (c, d) ∈ new → st.memory.size ≤ d := by
  obtain ⟨new, hnew, hbound⟩ := h.memo
  refine ⟨new ++ [(a, st.memory.size)], ?_, fun c d hcd => ?_⟩
  · rw [List.append_assoc]
    exact hnew
  · rcases List.mem_append.1 hcd with hcd | hcd
    · have hle := hbound c d hcd
      rw [Copying.size_enter] at hle
      exact Nat.le_of_succ_le hle
    · cases List.mem_singleton.1 hcd
      exact Nat.le_refl _

/-- A copy that was made since is the one of the object, or came with its parts. -/
theorem Advance.eq_or_le (h : Advance m start (st.enter a k) st') {c d : Address}
    (hcd : (c, d) ∈ st'.memo) (hd : st.memory.size ≤ d) :
    (c = a ∧ d = st.memory.size) ∨ (st.enter a k).memory.size ≤ d := by
  rcases Nat.eq_or_lt_of_le hd with rfl | hlt
  · exact .inl ⟨h.begun.original_unique hcd (h.subset List.mem_cons_self), rfl⟩
  · exact .inr (Nat.le_trans (Nat.le_of_eq (Copying.size_enter ..)) hlt)

end Entered

/-- An object is entered, its parts are copied, and its copy gets the copies of the parts. -/
theorem Advance.object {o : Object} {parts : List (Atom × Held)} (h : Begun m st)
    (ho : m.get? a = some o)
    (hparts : Advance m (HeldIn o.kind o.parts) (st.enter a o.kind) st')
    (htwins : List.Forall₂ (PartTwin st' (st.enter a o.kind).memory.size st.memory.size o.kind)
      o.parts parts) :
    Advance m (a = ·) st (st'.finish st.memory.size parts) := by
  have hlt : st.memory.size < (st.enter a o.kind).memory.size := Copying.lt_size_enter ..
  have hmemo : (a, st.memory.size) ∈ st'.memo := hparts.subset List.mem_cons_self
  have htwin {b : Address} {k : ObjectKind} {x y : Atom × Held}
      (hpart : PartTwin st' (st.enter a o.kind).memory.size b k x y) :
      PartTwin (st'.finish st.memory.size parts) st.memory.size b k x y :=
    (hpart.finish hlt).of_le (Nat.le_of_lt hlt)
  -- Each part holds while the parts are copied; the last step writes to the new object alone.
  constructor
  · exact hparts.begun.finish h.size_le parts
  · rw [Copying.size_finish]
    exact Nat.le_trans (Nat.le_of_lt hlt) hparts.size_le
  · intro c hc
    rw [Copying.get?_finish_of_ne (Nat.ne_of_gt hc), hparts.get?_eq c (Nat.lt_trans hc hlt)]
    exact get?_add_of_lt hc _
  · exact hparts.memo_enter
  · intro c d hcd hd
    -- The object itself was entered before its parts, so its twin is the one that is written now.
    rcases hparts.eq_or_le hcd hd with ⟨rfl, rfl⟩ | hle
    · exact ⟨o, parts, ho, hparts.get?_finish, htwins.imp fun _ _ => htwin⟩
    · obtain ⟨o', parts', ho', hcopy, hparts'⟩ := hparts.twin c d hcd hle
      rw [Copying.get?_finish_of_ne (Nat.ne_of_lt (Nat.lt_of_lt_of_le hlt hle))]
      exact ⟨o', parts', ho', hcopy, hparts'.imp fun _ _ => htwin⟩
  · intro c hc hsize
    rw [Copying.size_finish] at hsize
    rcases Nat.eq_or_lt_of_le hc with rfl | hgt
    · exact .inl ⟨a, hmemo⟩
    · rw [Copying.get?_finish_of_ne (Nat.ne_of_lt hgt)]
      exact hparts.known c (Nat.le_trans (Nat.le_of_eq (Copying.size_enter ..)) hgt) hsize
  · intro c d hcd hd
    rcases hparts.eq_or_le hcd hd with ⟨rfl, rfl⟩ | hle
    · exact .inl rfl
    · refine .inr ((hparts.found c d hcd hle).elim (fun hheld => ?_) id)
      exact ⟨a, st.memory.size, hmemo, Nat.lt_of_lt_of_le hlt hle, o, ho, hheld⟩

/-! ## Copiers, line by line -/

namespace Copier

variable {α β : Type} {x : Copier α} {v : α}

/-- A copier goes on with the result of its first line, in the memory that this leaves. -/
theorem bind_of_some (h : x st = some (v, st')) (k : α → Copier β) : (x >>= k) st = k v st' := by
  show (x st).bind (fun r => k r.1 r.2) = _
  rw [h, Option.bind_some]

theorem get_bind_apply (k : Copying → Copier β) : (get >>= k) st = k st st := rfl

theorem set_bind_apply (k : PUnit → Copier β) : (set st' >>= k) st = k ⟨⟩ st' := rfl

end Copier

/-! ## Copying -/

/-- What is known of a way to copy what objects of `m` hold that goes `depth` objects deep. -/
def Copies (m : Memory) (depth : Nat) (copy : Held → Copier Held) : Prop :=
  ∀ v st, Begun m st → (∀ a, v = .object a → a < m.size) → m.size < depth + st.memo.length →
    ∃ w st', copy v st = some (w, st') ∧ Advance m (v = .object ·) st st' ∧
      HeldTwin st'.memo v w

/-- Iterations of a container are not copied: the copy has an empty dict in their place. -/
theorem copyPart_iterations (hk : k.isContainer = true) (copy : Held → Copier Held) (v : Held)
    (st : Copying) : copyPart k copy iterationsKey v st =
      some (.object st.memory.size, { st with memory := st.memory.add ⟨.dict, []⟩ }) := by
  unfold copyPart
  rw [hk]
  rfl

/-- The parent of a container is not copied: the copy has the copy of the parent, if the parent has
been copied, and none otherwise. -/
theorem copyPart_parent (hk : k.isContainer = true) (copy : Held → Copier Held) (v : Held)
    (st : Copying) : copyPart k copy parentKey v st =
      match v.address?.bind st.copyOf? with
      | some q => some (.object q, st)
      | none => some (.atom .none, st) := by
  have hcopy : copyPart k copy parentKey v st =
      (match v.address?.bind st.copyOf? with
      | some b => (return .object b : Copier Held)
      | none => return .atom .none) st := by
    unfold copyPart
    rw [hk]
    rfl
  rw [hcopy]
  cases v.address?.bind st.copyOf? <;> rfl

/-- Every other part of an object is copied as what is held there. -/
theorem copyPart_plain {key : Atom} (hkey : ¬IsOwn k key) (copy : Held → Copier Held) (v : Held) :
    copyPart k copy key v = copy v := by
  unfold copyPart
  cases hk : k.isContainer with
  | false => rfl
  | true =>
    have hne : key ≠ iterationsKey ∧ key ≠ parentKey :=
      not_or.1 fun h => hkey ⟨hk, h⟩
    simp [hne.1, hne.2]

theorem copyParts_cons {copy : Held → Copier Held} {key : Atom} {v w : Held}
    {parts ws : List (Atom × Held)} (hw : copyPart k copy key v st = some (w, st'))
    (hws : copyParts k copy parts st' = some (ws, st'')) :
    copyParts k copy ((key, v) :: parts) st = some ((key, w) :: ws, st'') := by
  rw [copyParts, Copier.bind_of_some hw, Copier.bind_of_some hws]
  rfl

/-- An object that has been copied is not copied again. -/
theorem copy_of_copied (h : st.copyOf? a = some b) :
    copy (depth + 1) (.object a) st = some (.object b, st) := by
  rw [copy, Copier.get_bind_apply, h]
  rfl

/-- An object is entered into the memo, its parts are copied, and the copy holds them then. -/
theorem copy_of_entered {o : Object} {parts : List (Atom × Held)} (hnew : st.copyOf? a = none)
    (ho : st.memory.get? a = some o)
    (hparts : copyParts o.kind (copy depth) o.parts (st.enter a o.kind) = some (parts, st')) :
    copy (depth + 1) (.object a) st =
      some (.object st.memory.size, st'.finish st.memory.size parts) := by
  rw [copy, Copier.get_bind_apply, hnew]
  simp only [ho]
  rw [Copier.set_bind_apply, Copier.bind_of_some hparts]
  rfl

/-- A part is copied. -/
theorem copyPart_spec {copy : Held → Copier Held} (hcopy : Copies m depth copy) (h : Begun m st)
    {key : Atom} {v : Held} (hv : ∀ a, v = .object a → a < m.size)
    (hdepth : m.size < depth + st.memo.length) :
    ∃ w st', copyPart k copy key v st = some (w, st') ∧
      Advance m (HeldIn k [(key, v)]) st st' ∧
      PartTwin st' st.memory.size b k (key, v) (key, w) := by
  by_cases hkey : IsOwn k key
  · obtain ⟨hk, rfl | rfl⟩ := hkey
    · exact ⟨_, _, copyPart_iterations hk copy v st, .newDict h,
        .iterations hk (Nat.le_refl _) (get?_add_size _ _)⟩
    · rw [copyPart_parent hk]
      cases hcopied : v.address?.bind st.copyOf? with
      | none =>
        refine ⟨_, st, rfl, .refl h, .noParent hk fun p q hpv hpq => ?_⟩
        subst hpv
        cases (h.copyOf?_eq_some_iff.2 hpq).symm.trans hcopied
      | some q =>
        obtain ⟨p, hp, hpq⟩ := Option.bind_eq_some_iff.1 hcopied
        cases v with
        | atom x => cases hp
        | object p' =>
          cases hp
          exact ⟨_, st, rfl, .refl h, .parent hk (h.copyOf?_eq_some_iff.1 hpq)⟩
  · rw [copyPart_plain hkey]
    obtain ⟨w, st', hw, hst', htwin⟩ := hcopy v st h hv hdepth
    refine ⟨w, st', hw, hst'.mono fun a ha => ?_, .plain hkey htwin⟩
    exact ⟨key, by rw [ha]; exact List.mem_singleton_self _, hkey⟩

/-- The parts of an object are copied. -/
theorem copyParts_spec {copy : Held → Copier Held} (hcopy : Copies m depth copy)
    {parts : List (Atom × Held)} (h : Begun m st)
    (hparts : ∀ key a, (key, .object a) ∈ parts → a < m.size)
    (hdepth : m.size < depth + st.memo.length) (hb : b < st.memory.size) :
    ∃ ws st', copyParts k copy parts st = some (ws, st') ∧ Advance m (HeldIn k parts) st st' ∧
      List.Forall₂ (PartTwin st' st.memory.size b k) parts ws := by
  induction parts generalizing st with
  | nil => exact ⟨[], st, rfl, .refl h, .nil⟩
  | cons part parts ih =>
    obtain ⟨key, v⟩ := part
    obtain ⟨w, st₁, hw, hst₁, htwin⟩ := copyPart_spec (b := b) (k := k) hcopy h
      (fun a ha => hparts key a (ha ▸ List.mem_cons_self)) hdepth
    have hb₁ : b < st₁.memory.size := Nat.lt_of_lt_of_le hb hst₁.size_le
    obtain ⟨ws, st₂, hws, hst₂, htwins⟩ := ih hst₁.begun
      (fun key a ha => hparts key a (List.mem_cons_of_mem _ ha))
      (Nat.lt_of_lt_of_le hdepth (Nat.add_le_add_left hst₁.length_le _)) hb₁
    have hfirst : Advance m (HeldIn k ((key, v) :: parts)) st st₁ := hst₁.mono fun a ha => by
      obtain ⟨key', ha, hkey'⟩ := ha
      exact ⟨key', List.mem_cons.2 (.inl (List.mem_singleton.1 ha)), hkey'⟩
    have hrest : Advance m (HeldIn k ((key, v) :: parts)) st₁ st₂ := hst₂.mono fun a ha => by
      obtain ⟨key', ha, hkey'⟩ := ha
      exact ⟨key', List.mem_cons_of_mem _ ha, hkey'⟩
    exact ⟨(key, w) :: ws, st₂, copyParts_cons hw hws, hfirst.trans hrest,
      .cons (htwin.advance hb₁ hst₂) (htwins.imp fun _ _ hpart => hpart.of_le hst₁.size_le)⟩

/-- Copying comes to an end, and adds copies only. -/
theorem copy_spec (hm : m.Closed) (depth : Nat) : Copies m depth (copy depth) := by
  induction depth with
  | zero =>
    intro v st h hv hdepth
    have hle := h.length_le
    omega
  | succ depth ih =>
    intro v st h hv hdepth
    cases v with
    | atom x => exact ⟨.atom x, st, rfl, .refl h, .atom x⟩
    | object a =>
      cases hcopied : st.copyOf? a with
      | some b =>
        exact ⟨.object b, st, copy_of_copied hcopied, .refl h,
          .object (h.copyOf?_eq_some_iff.1 hcopied)⟩
      | none =>
        have ha := hv a rfl
        obtain ⟨o, ho⟩ := exists_get?_iff.2 ha
        have hdepth' : m.size < depth + (st.enter a o.kind).memo.length := by
          show m.size < depth + (st.memo.length + 1)
          omega
        have hb : st.memory.size < (st.enter a o.kind).memory.size := by
          rw [Copying.enter, size_add]
          exact Nat.lt_succ_self _
        obtain ⟨parts, st', hparts, hst', htwins⟩ := copyParts_spec (k := o.kind) ih
          (h.enter ha (h.copyOf?_eq_none_iff.1 hcopied) o.kind) (hm a o ho) hdepth' hb
        have hold : st.memory.get? a = some o := (h.get?_old a ha).trans ho
        exact ⟨_, _, copy_of_entered hcopied hold hparts,
          (Advance.object h ho hst' htwins).mono fun c hc => congrArg Held.object hc,
          .object (hst'.subset List.mem_cons_self)⟩

end PixelUnit.Memory
