import PixelUnit.Proofs.Memory.Sides

/-!
# A memory for a forest

Any consistent forest whose nodes have no further attributes can stand in memory (`holds_ofForest`):
each node takes five objects, itself, its raws, a value as it was written, the list of its children
and the iterations over them, at addresses that follow one another.
-/

namespace PixelUnit.Memory

open Sheet

variable {f : Forest} {s : Slot} {k : Nat} {es : List (String × Option Held)} {name : String}

/-- The parts of an object that are there. -/
def partsOf (es : List (String × Option Held)) : List (Atom × Held) :=
  es.filterMap fun e => e.2.map (Atom.text e.1, ·)

/-- A text that may be missing. -/
def heldText (s : Option String) : Option Held :=
  s.map fun s => .atom (.text s)

/-- A truth value that may be missing. -/
def heldFlag (b : Option Bool) : Option Held :=
  b.map fun b => .atom (.bool b)

/-- Where the object of a node is. -/
def placeOf (k : Nat) : Nat :=
  5 * k

/-- What a node holds of its content. -/
def contentParts : Content → List (String × Option Held)
  | .root file => [("file", some (.atom (file.elim .none .text)))]
  | .rule selector => [("selector", some (.atom (.text selector)))]
  | .atRule name params body => [("name", some (.atom (.text name))),
      ("params", some (.atom (.text params))), ("body", some (.atom (.bool body)))]
  | .declaration prop value important => [("prop", some (.atom (.text prop))),
      ("value", some (.atom (.text value))), ("important", some (.atom (.bool important)))]
  | .comment text => [("text", some (.atom (.text text)))]

/-- What a container holds besides. -/
def containerParts (k : NodeId) (s : Slot) : List (String × Option Held) :=
  if s.content.isContainer then
    [("nodes", some (.object (placeOf k + 3))), ("_iterations_", some (.object (placeOf k + 4))),
      ("_last_id_", some (.atom (.int s.lastKey)))]
  else []

/-- What a node holds. -/
def nodeParts (k : NodeId) (s : Slot) : List (String × Option Held) :=
  ("parent", some (heldNode placeOf s.parent)) :: ("raws", some (.object (placeOf k + 1))) ::
    (contentParts s.content ++ containerParts k s)

/-- What a dict of raws holds. -/
def rawsParts (k : NodeId) (r : Raws) : List (String × Option Held) :=
  [("before", heldText r.before), ("after", heldText r.after), ("between", heldText r.between),
    ("semicolon", heldFlag r.semicolon), ("after_name", heldText r.afterName),
    ("important", heldText r.important), ("trailing", heldText r.trailing),
    ("left", heldText r.left), ("right", heldText r.right),
    ("value", r.value.map fun _ => .object (placeOf k + 2))]

/-- The objects of a node. -/
def objectAt (k : NodeId) (s : Slot) : Nat → Object
  | 0 => ⟨.node s.content.nodeClass, partsOf (nodeParts k s)⟩
  | 1 => ⟨.dict, partsOf (rawsParts k s.raws)⟩
  | 2 => ⟨.dict, partsOf [("value", heldText (s.raws.value.map (·.value))),
      ("raw", heldText (s.raws.value.map (·.raw)))]⟩
  | 3 => ⟨.list, s.children.map fun j => (.none, .object (placeOf j))⟩
  | _ => ⟨.dict, s.cursors.map fun c => (.int c.key, .atom (.int c.position))⟩

/-- The memory of a forest. -/
def ofForest (f : Forest) : Memory where
  objects := Array.ofFn fun a : Fin (5 * f.size) =>
    ((f.get? (a / 5)).map fun s => objectAt (a / 5) s (a % 5)).getD ⟨.dict, []⟩

/-! ## What is read -/

/-- What is held under a name is what was put there, if no name occurs twice. -/
theorem attribute?_partsOf (hnodup : (es.map Prod.fst).Nodup) (kind : ObjectKind) (name : String) :
    Object.attribute? ⟨kind, partsOf es⟩ name = (es.lookup name).join := by
  show (partsOf es).lookup (.text name) = _
  induction es with
  | nil => rfl
  | cons e es ih =>
    obtain ⟨key, v⟩ := e
    rw [List.map_cons, List.nodup_cons] at hnodup
    rw [List.lookup_cons]
    by_cases hname : name = key
    · subst hname
      rw [beq_self_eq_true]
      cases v with
      | some v => simp [partsOf]
      | none =>
        have hrest : es.lookup name = none := by
          rw [List.lookup_eq_none_iff]
          intro p hp
          exact bne_iff_ne.2 fun h => hnodup.1 (List.mem_map.2 ⟨p, hp, h.symm⟩)
        have hskip : partsOf ((name, none) :: es) = partsOf es := rfl
        rw [hskip, ih hnodup.2, hrest]
        rfl
    · rw [beq_eq_false_iff_ne.2 hname, ← ih hnodup.2]
      cases v with
      | none => rfl
      | some v =>
        have hne : (Atom.text name == Atom.text key) = false :=
          beq_eq_false_iff_ne.2 fun h => hname (Atom.text.inj h)
        show List.lookup (.text name) ((Atom.text key, v) :: partsOf es) = _
        rw [List.lookup_cons, hne]

/-- No name occurs twice among parts that were made from names without repetitions. -/
theorem nodup_partsOf (hnodup : (es.map Prod.fst).Nodup) :
    ((partsOf es).map Prod.fst).Nodup := by
  have hsub : ((partsOf es).map Prod.fst).Sublist (es.map fun e => Atom.text e.1) := by
    induction es with
    | nil => exact .slnil
    | cons e es ih =>
      obtain ⟨key, v⟩ := e
      rw [List.map_cons, List.nodup_cons] at hnodup
      cases v with
      | none => exact (ih hnodup.2).cons _
      | some v => exact (ih hnodup.2).cons_cons _
  refine hsub.nodup ?_
  rw [show (fun e : String × Option Held => Atom.text e.1) = Atom.text ∘ Prod.fst from rfl,
    ← List.map_map]
  exact hnodup.map fun _ _ => Atom.text.inj

/-- The parts are those that are there. -/
theorem mem_partsOf {key : Atom} {v : Held} :
    (key, v) ∈ partsOf es ↔ ∃ name, (name, some v) ∈ es ∧ key = .text name := by
  unfold partsOf
  rw [List.mem_filterMap]
  constructor
  · rintro ⟨⟨name, w⟩, hmem, hw⟩
    obtain ⟨w', rfl, heq⟩ := Option.map_eq_some_iff.1 hw
    cases heq
    exact ⟨name, hmem, rfl⟩
  · rintro ⟨name, hmem, rfl⟩
    exact ⟨_, hmem, rfl⟩

theorem nodup_nodeParts (k : NodeId) (s : Slot) : ((nodeParts k s).map Prod.fst).Nodup := by
  unfold nodeParts containerParts contentParts
  cases s.content <;> simp [Content.isContainer]

theorem nodup_rawsParts (k : NodeId) (r : Raws) : ((rawsParts k r).map Prod.fst).Nodup := by
  simp [rawsParts]

/-- No name of these is one that a class has. -/
theorem not_mem_reservedNames (k : Nat) (s : Slot) :
    ∀ n ∈ (nodeParts k s).map Prod.fst, n ∉ NodeClass.reservedNames := by
  unfold nodeParts containerParts contentParts
  cases s.content <;> simp [Content.isContainer, NodeClass.reservedNames, NodeClass.commonNames,
    NodeClass.containerNames, NodeClass.leafNames]

/-- The objects of a node are in the memory of a forest at the place of the node. -/
theorem get?_ofForest (hs : f.get? k = some s) {r : Nat} (hr : r < 5) :
    (ofForest f).get? (placeOf k + r) = some (objectAt k s r) := by
  have hk : k < f.size := Forest.lt_size_of_get? hs
  have hlt : placeOf k + r < 5 * f.size := by
    unfold placeOf
    omega
  have hdiv : (placeOf k + r) / 5 = k := by
    unfold placeOf
    omega
  have hmod : (placeOf k + r) % 5 = r := by
    unfold placeOf
    omega
  show (Array.ofFn _)[placeOf k + r]? = _
  rw [Array.getElem?_ofFn, dif_pos hlt]
  simp only [hdiv, hmod, hs]
  rfl

/-! ## Nodes -/

theorem attribute?_objectAt (k : Nat) (s : Slot) (name : String) :
    (objectAt k s 0).attribute? name = ((nodeParts k s).lookup name).join :=
  attribute?_partsOf (nodup_nodeParts k s) _ name

/-- The object of a node holds the content of the node. -/
theorem content?_objectAt (k : Nat) (s : Slot) : (objectAt k s 0).content? = some s.content := by
  unfold Object.content? Object.text? Object.bool? Object.textOrNone?
  simp only [attribute?_objectAt]
  unfold objectAt nodeParts containerParts contentParts
  cases s.content with
  | root file => cases file <;> rfl
  | rule | atRule | declaration | comment => rfl

theorem text?_eq_some {o : Object} {t : String} (h : o.attribute? name = some (.atom (.text t))) :
    o.text? name = some t := by
  unfold Object.text?
  rw [h]

theorem flagEntry?_eq_some {o : Object} {t : Option Bool} (h : o.attribute? name = heldFlag t) :
    o.flagEntry? name = some t := by
  unfold Object.flagEntry?
  rw [h]
  cases t <;> rfl

theorem entry?_eq_some {o : Object} {t : Option String} (h : o.attribute? name = heldText t) :
    o.entry? name = some t := by
  unfold Object.entry?
  rw [h]
  cases t <;> rfl

theorem object_ne_heldText (b : Address) (t : Option String) : some (.object b) ≠ heldText t := by
  cases t <;> nofun

theorem object_ne_heldFlag (b : Address) (t : Option Bool) : some (.object b) ≠ heldFlag t := by
  cases t <;> nofun

/-- A dict of raws holds an object under one name only. -/
theorem object_mem_rawsParts {r : Raws} {b : Address}
    (h : (name, some (.object b)) ∈ rawsParts k r) : name = "value" ∧ b = placeOf k + 2 := by
  obtain ⟨rfl, hheld⟩ : name = "value" ∧
      some (Held.object b) = r.value.map fun _ => .object (placeOf k + 2) := by
    simpa [rawsParts, object_ne_heldText, object_ne_heldFlag] using h
  obtain ⟨-, -, heq⟩ := Option.map_eq_some_iff.1 hheld.symm
  cases heq
  exact ⟨rfl, rfl⟩

theorem heldBy?_of_attribute? {m : Memory} {o x : Object} {a : Address}
    (h : o.attribute? name = some (.object a)) (hx : m.get? a = some x) :
    m.heldBy? o name = some x :=
  heldBy?_eq_some_iff.2 ⟨a, h, hx⟩

/-- The dict of the raws of a node. -/
theorem isRaws_objectAt (hs : f.get? k = some s) :
    IsRaws (ofForest f) s.raws (objectAt k s 1) := by
  have hname (name : String) : (objectAt k s 1).attribute? name =
      ((rawsParts k s.raws).lookup name).join :=
    attribute?_partsOf (nodup_rawsParts k s.raws) _ name
  have hvalue := get?_ofForest hs (r := 2) (by decide)
  constructor
  -- The value as it was written is in a dict of its own, which is asked for first.
  · have hraw : (ofForest f).rawValue? (objectAt k s 1) = some s.raws.value := by
      unfold rawValue?
      have hheld : (objectAt k s 1).attribute? "value" =
          s.raws.value.map fun _ => .object (placeOf k + 2) := hname "value"
      cases hv : s.raws.value with
      | none =>
        rw [hv] at hheld
        rw [hheld]
        rfl
      | some v =>
        rw [hv] at hheld
        have htext (name : String) : (objectAt k s 2).attribute? name =
            (List.lookup name [("value", heldText (some v.value)),
              ("raw", heldText (some v.raw))]).join := by
          unfold objectAt
          rw [hv]
          exact attribute?_partsOf (by simp) _ name
        rw [hheld, Option.map_some, heldBy?_of_attribute? hheld hvalue]
        simp only [Option.bind_eq_bind, Option.bind_some, text?_eq_some (htext "value"),
          text?_eq_some (htext "raw")]
        rfl
    unfold raws?
    -- All other entries are texts or truth values.
    rw [hraw, flagEntry?_eq_some (hname "semicolon"), entry?_eq_some (hname "before"),
      entry?_eq_some (hname "after"), entry?_eq_some (hname "between"),
      entry?_eq_some (hname "after_name"), entry?_eq_some (hname "important"),
      entry?_eq_some (hname "trailing"), entry?_eq_some (hname "left"),
      entry?_eq_some (hname "right")]
    rfl
  · exact nodup_partsOf (nodup_rawsParts k s.raws)
  · intro key b hb
    obtain ⟨name, hmem, rfl⟩ := mem_partsOf.1 hb
    obtain ⟨rfl, rfl⟩ := object_mem_rawsParts hmem
    refine ⟨rfl, _, hvalue, rfl, fun key c hc => ?_⟩
    obtain ⟨name, hmem, -⟩ := mem_partsOf.1 hc
    simp [object_ne_heldText] at hmem

/-- What a container holds besides its content. -/
theorem attribute?_container (hcontainer : s.content.isContainer = true) :
    (objectAt k s 0).attribute? "nodes" = some (.object (placeOf k + 3)) ∧
      (objectAt k s 0).attribute? "_iterations_" = some (.object (placeOf k + 4)) ∧
      (objectAt k s 0).attribute? "_last_id_" = some (.atom (.int s.lastKey)) := by
  simp only [attribute?_objectAt, nodeParts, containerParts, if_pos hcontainer]
  generalize s.content = content at hcontainer
  cases content with
  | root | rule | atRule => exact ⟨rfl, rfl, rfl⟩
  | declaration | comment => cases hcontainer

/-- The content of a node holds no objects. -/
theorem not_object_mem_contentParts (content : Content) (name : String) (b : Address) :
    (name, some (.object b)) ∉ contentParts content := by
  cases content <;> simp [contentParts]

/-- The objects that a node holds. -/
theorem object_mem_nodeParts {b : Address} (h : (name, some (.object b)) ∈ nodeParts k s) :
    (name = "parent" ∧ ∃ p, s.parent = some p ∧ b = placeOf p) ∨
      (name = "raws" ∧ b = placeOf k + 1) ∨ s.content.isContainer = true ∧
        (name = "nodes" ∧ b = placeOf k + 3 ∨ name = "_iterations_" ∧ b = placeOf k + 4) := by
  rcases List.mem_cons.1 h with heq | h
  · obtain ⟨rfl, hheld⟩ := Prod.mk.inj heq
    cases hp : s.parent with
    | none =>
      rw [hp] at hheld
      cases hheld
    | some p =>
      rw [hp] at hheld
      cases hheld
      exact .inl ⟨rfl, p, rfl, rfl⟩
  rcases List.mem_cons.1 h with heq | h
  · cases heq
    exact .inr (.inl ⟨rfl, rfl⟩)
  rcases List.mem_append.1 h with h | h
  · exact absurd h (not_object_mem_contentParts _ _ _)
  · unfold containerParts at h
    split at h
    · next hcontainer => exact .inr (.inr ⟨hcontainer, by simpa using h⟩)
    · cases h

/-- The object of a node. -/
theorem isNode_objectAt (hs : f.get? k = some s) (hextras : s.extras = []) :
    IsNode (ofForest f) placeOf s (objectAt k s 0) where
  content := content?_objectAt k s
  parent := attribute?_objectAt k s "parent"
  raws := ⟨_, heldBy?_of_attribute? (attribute?_objectAt k s "raws")
    (get?_ofForest hs (by decide)), isRaws_objectAt hs⟩
  children hcontainer := by
    obtain ⟨hnodes, hiterations, hlast⟩ := attribute?_container (k := k) hcontainer
    exact ⟨heldBy?_of_attribute? hnodes (get?_ofForest hs (by decide)),
      heldBy?_of_attribute? hiterations (get?_ofForest hs (by decide)), hlast⟩
  extras n hn := by
    rw [hextras] at hn
    cases hn
  nodup := nodup_partsOf (nodup_nodeParts k s)
  own n hn := by
    obtain ⟨⟨key, v⟩, hmem, hkey⟩ := List.mem_map.1 hn
    obtain ⟨name, hname, rfl⟩ := mem_partsOf.1 hmem
    obtain rfl : name = n := Atom.text.inj hkey
    exact not_mem_reservedNames k s name (List.mem_map.2 ⟨_, hname, rfl⟩)
  held key b hb := by
    obtain ⟨name, hmem, rfl⟩ := mem_partsOf.1 hb
    rcases object_mem_nodeParts hmem with ⟨rfl, -⟩ | ⟨rfl, -⟩ | ⟨hs, ⟨rfl, -⟩ | ⟨rfl, -⟩⟩
    · exact .inl List.mem_cons_self
    · exact .inl (List.mem_pair.2 (.inr rfl))
    · exact .inr ⟨hs, List.mem_cons_self⟩
    · exact .inr ⟨hs, List.mem_pair.2 (.inr rfl)⟩

/-! ## The forest -/

theorem size_ofForest (f : Forest) : (ofForest f).size = 5 * f.size :=
  Array.size_ofFn

theorem address_lt_size (hk : k < f.size) {r : Nat} (hr : r < 5) :
    placeOf k + r < (ofForest f).size := by
  rw [size_ofForest]
  unfold placeOf
  omega

/-- Every object belongs to a node. -/
theorem exists_objectAt {a : Nat} {o : Object} (ho : (ofForest f).get? a = some o) :
    ∃ k s r, f.get? k = some s ∧ r < 5 ∧ o = objectAt k s r := by
  have ha : a < 5 * f.size := size_ofForest f ▸ exists_get?_iff.1 ⟨o, ho⟩
  have hk : a / 5 < f.size := by omega
  have hr : a % 5 < 5 := Nat.mod_lt a (by decide)
  obtain ⟨s, hs⟩ := Forest.get?_eq_some_of_lt hk
  refine ⟨a / 5, s, a % 5, hs, hr, ?_⟩
  have hget := get?_ofForest hs hr
  rw [show placeOf (a / 5) + a % 5 = a from Nat.div_add_mod a 5] at hget
  exact Option.some.inj (ho.symm.trans hget)

/-- The objects of a node hold objects of nodes. -/
theorem lt_size_of_object_mem (hf : f.Consistent) (hs : f.get? k = some s) {r : Nat} {key : Atom}
    {b : Address} (hb : (key, .object b) ∈ (objectAt k s r).parts) : b < (ofForest f).size := by
  have hk : k < f.size := Forest.lt_size_of_get? hs
  have hplace {j : Nat} (hj : j < f.size) : placeOf j < (ofForest f).size :=
    address_lt_size (r := 0) hj (by decide)
  match r with
  | 0 =>
    obtain ⟨name, hmem, -⟩ := mem_partsOf.1 hb
    rcases object_mem_nodeParts hmem with ⟨-, p, hp, rfl⟩ | ⟨-, rfl⟩ | ⟨-, ⟨-, rfl⟩ | ⟨-, rfl⟩⟩
    · exact hplace (hf.lt_size_of_hangsFrom ((Forest.parentOf_of_get? hs).trans hp)).2
    · exact address_lt_size hk (by decide)
    · exact address_lt_size hk (by decide)
    · exact address_lt_size hk (by decide)
  | 1 =>
    obtain ⟨name, hmem, -⟩ := mem_partsOf.1 hb
    rw [(object_mem_rawsParts hmem).2]
    exact address_lt_size hk (by decide)
  | 2 =>
    obtain ⟨name, hmem, -⟩ := mem_partsOf.1 hb
    simp [object_ne_heldText] at hmem
  | 3 =>
    obtain ⟨j, hj, heq⟩ := List.mem_map.1 hb
    cases heq
    rw [← Forest.childrenOf_of_get? hs, hf.mem_childrenOf_iff] at hj
    exact hplace (hf.lt_size_of_hangsFrom hj).1
  | r + 4 =>
    obtain ⟨c, -, heq⟩ := List.mem_map.1 hb
    cases heq

/-- The memory of a consistent forest without further attributes holds the forest. -/
theorem holds_ofForest (hf : f.Consistent) (hextras : ∀ i s, f.get? i = some s → s.extras = []) :
    Holds (ofForest f) f placeOf where
  closed a o ho key b hb := by
    obtain ⟨k, s, r, hs, -, rfl⟩ := exists_objectAt ho
    exact lt_size_of_object_mem hf hs hb
  node i s hs := ⟨_, get?_ofForest hs (r := 0) (by decide), isNode_objectAt hs (hextras i s hs)⟩
  injective i j _ _ h := by
    unfold placeOf at h
    exact Nat.eq_of_mul_eq_mul_left (by decide : 0 < 5) h
  ownChildren i j l hi hj hil hjl := by
    have hlist {i : Nat} (hi : i < f.size)
        (hl : (ofForest f).attribute? (placeOf i) "nodes" = some (.object l)) :
        l = placeOf i + 3 := by
      obtain ⟨s, hs⟩ := Forest.get?_eq_some_of_lt hi
      rw [attribute?, show placeOf i = placeOf i + 0 from rfl, get?_ofForest hs (by decide)] at hl
      obtain ⟨name, hmem, hname⟩ := mem_partsOf.1 (mem_of_attribute? hl)
      obtain rfl := Atom.text.inj hname
      rcases object_mem_nodeParts hmem with ⟨h, -⟩ | ⟨h, -⟩ | ⟨-, ⟨-, hl⟩ | ⟨h, -⟩⟩
      · exact absurd h (by decide)
      · exact absurd h (by decide)
      · exact hl
      · exact absurd h (by decide)
    have hplaces := (hlist hi hil).symm.trans (hlist hj hjl)
    exact Nat.eq_of_mul_eq_mul_left (by decide : 0 < 5) (Nat.add_right_cancel hplaces)

/-- The forest of two rules with an iteration over it, in memory. -/
theorem holds_visitedRules : Holds (ofForest Forest.visitedRules) Forest.visitedRules placeOf := by
  have hextras : ∀ s ∈ Forest.visitedRules.slots.toList, s.extras = [] := by decide
  refine holds_ofForest Forest.consistent_visitedRules fun i s hs => hextras s ?_
  exact Array.mem_def.1 (Array.mem_of_getElem? hs)

end PixelUnit.Memory
