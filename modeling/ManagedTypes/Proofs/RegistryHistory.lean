import Mathlib
import ManagedTypes.Reflect.Registry

/-! What holds of a registry after any history of definitions and declarations, refused ones included:
numbers are positions, bases come before the types defined on them, and the index and the table of
types describe each other. -/
namespace ManagedTypes.Registry

/-- The invariant. That names are distinct follows, for the index gives a name one number. -/
structure Valid (r : Registry) : Prop where
  numbered : ∀ {i : ℕ} {t : HostType}, r.types[i]? = some t → t.id = i
  indexed : ∀ {name : String} {i : TypeId},
    r.index.lookup name = some i ↔ ∃ t : HostType, r.types[i]? = some t ∧ t.name = name
  rooted : ∃ t : HostType, r.types[root]? = some t ∧ t.name = rootName ∧ t.parent = none
  based : ∀ {i : ℕ} {t : HostType}, r.types[i]? = some t → i ≠ root → ∃ p < i, t.parent = some p
  declared : ∀ {i : ℕ} {t : HostType}, r.types[i]? = some t → ∀ m ∈ t.members, m.declaring = i

variable {r : Registry}

theorem types_initial {i : ℕ} {t : HostType} :
    initial.types[i]? = some t ↔ i = root ∧ t = ⟨root, rootName, none, rootMembers⟩ := by
  cases i with
  | zero => simp [initial, root, eq_comm]
  | succ i => simp [initial, root]

theorem valid_initial : initial.Valid := by
  constructor
  · intro i t ht
    obtain ⟨rfl, rfl⟩ := types_initial.mp ht
    rfl
  · intro name i
    simp only [types_initial]
    change List.lookup name [(rootName, root)] = some i ↔ _
    by_cases hname : name = rootName
    · simp [hname, eq_comm]
    · have hbeq : (name == rootName) = false := beq_eq_false_iff_ne.mpr hname
      simp [List.lookup_cons, hbeq, Ne.symm hname]
  · exact ⟨_, rfl, rfl, rfl⟩
  · intro i t ht hne
    exact absurd (types_initial.mp ht).1 hne
  · intro i t ht m hm
    obtain ⟨rfl, rfl⟩ := types_initial.mp ht
    revert m hm
    decide

theorem types_insert {name : String} {parent : Option TypeId} {i : ℕ} {t : HostType} :
    (r.insert name parent).1.types[i]? = some t ↔
      r.types[i]? = some t ∨ i = r.nextTypeId ∧ t = ⟨r.nextTypeId, name, parent, []⟩ := by
  simp only [insert, nextTypeId]
  rcases Nat.lt_trichotomy i r.types.length with hlt | rfl | hgt
  · rw [List.getElem?_append_left hlt]
    simp [hlt.ne]
  · simp [eq_comm]
  · rw [List.getElem?_eq_none (by simp; omega), List.getElem?_eq_none (by omega)]
    simp [hgt.ne']

theorem lt_nextTypeId {i : ℕ} {t : HostType} (h : r.types[i]? = some t) : i < r.nextTypeId :=
  (List.getElem?_eq_some_iff.mp h).1

/-- A new name keeps the index one-to-one, a base that exists comes before its new type. -/
theorem Valid.insert (h : r.Valid) {name : String} (hname : r.index.lookup name = none) {p : TypeId}
    (hp : p < r.nextTypeId) : (r.insert name (some p)).1.Valid := by
  have hpos : root < r.nextTypeId := (Nat.zero_le p).trans_lt hp
  constructor
  · intro i t ht
    rcases types_insert.mp ht with hold | ⟨rfl, rfl⟩
    · exact h.numbered hold
    · rfl
  · intro other i
    simp only [types_insert]
    change List.lookup other ((name, r.nextTypeId) :: r.index) = some i ↔ _
    by_cases hother : other = name
    · subst hother
      have hfree : ¬ ∃ t, r.types[i]? = some t ∧ t.name = other := by
        rw [← h.indexed, hname]
        simp
      rw [List.lookup_cons_self, Option.some.injEq]
      constructor
      · rintro rfl
        exact ⟨_, .inr ⟨rfl, rfl⟩, rfl⟩
      · rintro ⟨t, hold | ⟨rfl, -⟩, ht⟩
        · exact absurd ⟨t, hold, ht⟩ hfree
        · rfl
    · rw [List.lookup_cons, beq_eq_false_iff_ne.mpr hother]
      dsimp only
      rw [h.indexed]
      constructor
      · rintro ⟨t, hold, rfl⟩
        exact ⟨t, .inl hold, rfl⟩
      · rintro ⟨t, hold | ⟨rfl, rfl⟩, rfl⟩
        · exact ⟨t, hold, rfl⟩
        · exact absurd rfl hother
  · obtain ⟨t, ht, hrest⟩ := h.rooted
    exact ⟨t, types_insert.mpr (.inl ht), hrest⟩
  · intro i t ht hne
    rcases types_insert.mp ht with hold | ⟨rfl, rfl⟩
    · exact h.based hold hne
    · exact ⟨p, hp, rfl⟩
  · intro i t ht m hm
    rcases types_insert.mp ht with hold | ⟨rfl, rfl⟩
    · exact h.declared hold m hm
    · simp at hm

/-- A registry with one more member declared on a type. -/
def declare (r : Registry) (t : TypeId) (m : Member) : Registry :=
  { r with types := r.types.modify t (·.declare m) }

theorem types_declare {t : TypeId} {m : Member} {i : ℕ} {h : HostType} :
    (r.declare t m).types[i]? = some h ↔
      ∃ old, r.types[i]? = some old ∧ h = if t = i then old.declare m else old := by
  simp only [declare, List.getElem?_modify]
  cases r.types[i]? with
  | none => simp
  | some old => by_cases hi : t = i <;> simp [hi, eq_comm]

/-- A declaration adds to the members alone. -/
theorem types_of_declare {t : TypeId} {m : Member} {i : ℕ} {h : HostType}
    (hget : (r.declare t m).types[i]? = some h) :
    ∃ old, r.types[i]? = some old ∧ h.id = old.id ∧ h.name = old.name ∧ h.parent = old.parent ∧
      ∀ x ∈ h.members, x ∈ old.members ∨ t = i ∧ x = m := by
  obtain ⟨old, hold, rfl⟩ := types_declare.mp hget
  refine ⟨old, hold, ?_⟩
  split
  next heq => exact ⟨rfl, rfl, rfl, fun x hx => by simpa [HostType.declare, heq] using hx⟩
  next => exact ⟨rfl, rfl, rfl, fun x hx => .inl hx⟩

theorem types_declare_of {t : TypeId} {m : Member} {i : ℕ} {old : HostType}
    (hold : r.types[i]? = some old) :
    ∃ h, (r.declare t m).types[i]? = some h ∧ h.name = old.name ∧ h.parent = old.parent := by
  refine ⟨_, types_declare.mpr ⟨old, hold, rfl⟩, ?_⟩
  split <;> exact ⟨rfl, rfl⟩

theorem Valid.declare (h : r.Valid) (m : Member) : (r.declare m.declaring m).Valid := by
  constructor
  · intro i t ht
    obtain ⟨old, hold, hid, -⟩ := types_of_declare ht
    rw [hid]
    exact h.numbered hold
  · intro name i
    change r.index.lookup name = some i ↔ _
    rw [h.indexed]
    constructor
    · rintro ⟨old, hold, rfl⟩
      obtain ⟨t, ht, hname, -⟩ := types_declare_of hold
      exact ⟨t, ht, hname⟩
    · rintro ⟨t, ht, rfl⟩
      obtain ⟨old, hold, -, hname, -⟩ := types_of_declare ht
      exact ⟨old, hold, hname.symm⟩
  · obtain ⟨old, hold, hname, hparent⟩ := h.rooted
    obtain ⟨t, ht, hsame, hbase⟩ := types_declare_of hold
    exact ⟨t, ht, hsame.trans hname, hbase.trans hparent⟩
  · intro i t ht hne
    obtain ⟨old, hold, -, -, hparent, -⟩ := types_of_declare ht
    rw [hparent]
    exact h.based hold hne
  · intro i t ht member hmember
    obtain ⟨old, hold, -, -, -, hmembers⟩ := types_of_declare ht
    rcases hmembers member hmember with hmember | ⟨heq, rfl⟩
    · exact h.declared hold member hmember
    · exact heq

/-- What an operation does: nothing, if it is refused. -/
inductive Step (r : Registry) : RegistryOperation → Registry × Except Fault (Option TypeId) → Prop
  | taken (name : String) (base : Option TypeId) (known : (r.index.lookup name).isSome) :
      Step r (.defineType name base) (r, .error (.argument ("type " ++ name ++ " already defined")))
  | baseless (name : String) (base : Option TypeId) (free : r.index.lookup name = none)
      (unknown : r.nextTypeId ≤ base.getD root) :
      Step r (.defineType name base)
        (r, .error (.argument ("unknown base type " ++ typeIdText (base.getD root))))
  | defined (name : String) (base : Option TypeId) (free : r.index.lookup name = none)
      (known : base.getD root < r.nextTypeId) :
      Step r (.defineType name base) ((r.insert name (some (base.getD root))).1, .ok (some r.nextTypeId))
  | unknown (t : TypeId) (name : String) (kind : MemberKind) (modifiers : Flags)
      (unknown : r.nextTypeId ≤ t) :
      Step r (.addMember t name kind modifiers)
        (r, .error (.argument ("unknown type " ++ typeIdText t)))
  | declared (t : TypeId) (name : String) (kind : MemberKind) (modifiers : Flags)
      (known : t < r.nextTypeId) :
      Step r (.addMember t name kind modifiers) (r.declare t ⟨name, kind, t, modifiers⟩, .ok none)

theorem isNone_getType? {t : TypeId} : (r.getType? t).isNone = true ↔ r.nextTypeId ≤ t := by
  rw [Option.isNone_iff_eq_none, getType?, List.getElem?_eq_none_iff, nextTypeId]

theorem step_apply (r : Registry) (o : RegistryOperation) : r.Step o (r.apply o) := by
  cases o with
  | defineType name base =>
    simp only [apply, defineType, isNone_getType?]
    by_cases htaken : (r.index.lookup name).isSome = true
    · rw [if_pos htaken]
      exact .taken name base htaken
    · have hfree : r.index.lookup name = none := by
        rwa [Option.not_isSome_iff_eq_none] at htaken
      rw [if_neg htaken]
      by_cases hbase : r.nextTypeId ≤ base.getD root
      · rw [if_pos hbase]
        exact .baseless name base hfree hbase
      · rw [if_neg hbase]
        exact .defined name base hfree (Nat.lt_of_not_le hbase)
  | addMember t name kind modifiers =>
    simp only [apply, addMember, isNone_getType?]
    by_cases htype : r.nextTypeId ≤ t
    · rw [if_pos htype]
      exact .unknown t name kind modifiers htype
    · rw [if_neg htype]
      exact .declared t name kind modifiers (Nat.lt_of_not_le htype)

theorem Valid.apply (h : r.Valid) (o : RegistryOperation) : (r.apply o).1.Valid := by
  have hstep := r.step_apply o
  generalize r.apply o = after at hstep ⊢
  cases hstep with
  | taken | baseless | unknown => exact h
  | defined name base free known => exact h.insert free known
  | declared t name kind modifiers known => exact h.declare ⟨name, kind, t, modifiers⟩

theorem Valid.applyAll (h : r.Valid) (os : List RegistryOperation) : (r.applyAll os).Valid := by
  induction os generalizing r with
  | nil => exact h
  | cons o rest ih => exact ih (h.apply o)

theorem Valid.getElem?_eq (h : r.Valid) {t : HostType} (ht : t ∈ r.types) :
    r.types[t.id]? = some t := by
  obtain ⟨i, hi⟩ := List.mem_iff_getElem?.mp ht
  rwa [h.numbered hi]

theorem Valid.nodup_names (h : r.Valid) : (r.types.map (·.name)).Nodup := by
  rw [List.nodup_iff_getElem?_ne_getElem?]
  intro i j hij hj heq
  rw [List.length_map] at hj
  obtain ⟨t, ht⟩ : ∃ t, r.types[j]? = some t := ⟨_, List.getElem?_eq_getElem hj⟩
  obtain ⟨s, hs⟩ : ∃ s, r.types[i]? = some s := ⟨_, List.getElem?_eq_getElem (hij.trans hj)⟩
  rw [List.getElem?_map, List.getElem?_map, hs, ht, Option.map_some, Option.map_some,
    Option.some.injEq] at heq
  have hlookup := h.indexed.mpr ⟨t, ht, rfl⟩
  rw [← heq, h.indexed.mpr ⟨s, hs, rfl⟩, Option.some.injEq] at hlookup
  exact hij.ne hlookup

theorem Valid.getTypeByName?_eq_some_iff (h : r.Valid) {name : String} {t : HostType} :
    r.getTypeByName? name = some t ↔ t ∈ r.types ∧ t.name = name := by
  rw [getTypeByName?, Option.bind_eq_some_iff]
  constructor
  · rintro ⟨i, hi, ht⟩
    obtain ⟨s, hs, hname⟩ := h.indexed.mp hi
    obtain rfl : s = t := Option.some.inj (hs.symm.trans ht)
    exact ⟨List.mem_of_getElem? ht, hname⟩
  · rintro ⟨ht, hname⟩
    have hposition := h.getElem?_eq ht
    exact ⟨t.id, h.indexed.mpr ⟨t, hposition, hname⟩, hposition⟩

theorem Valid.isSome_lookup (h : r.Valid) {name : String} :
    (r.index.lookup name).isSome = true ↔ ∃ t ∈ r.types, t.name = name := by
  rw [Option.isSome_iff_exists]
  constructor
  · rintro ⟨i, hi⟩
    obtain ⟨t, ht, hname⟩ := h.indexed.mp hi
    exact ⟨t, List.mem_of_getElem? ht, hname⟩
  · rintro ⟨t, ht, hname⟩
    exact ⟨t.id, h.indexed.mpr ⟨t, h.getElem?_eq ht, hname⟩⟩

theorem Valid.getTypeByName?_eq_none_iff (h : r.Valid) {name : String} :
    r.getTypeByName? name = none ↔ ∀ t ∈ r.types, t.name ≠ name := by
  rw [Option.eq_none_iff_forall_ne_some]
  simp only [ne_eq, h.getTypeByName?_eq_some_iff, not_and]

theorem getType?_eq_none_iff {t : TypeId} : r.getType? t = none ↔ r.nextTypeId ≤ t := by
  rw [← Option.isNone_iff_eq_none, isNone_getType?]

/-- The root exists, so only a base that is named can be unknown. -/
theorem Valid.base_unknown_iff (h : r.Valid) {base : Option TypeId} :
    r.nextTypeId ≤ base.getD root ↔ ∃ b, base = some b ∧ r.getType? b = none := by
  cases base with
  | none =>
    obtain ⟨t, ht, -⟩ := h.rooted
    have hroot := lt_nextTypeId ht
    simpa using hroot
  | some b => simp [getType?_eq_none_iff]

theorem Valid.defineType_refused_iff (h : r.Valid) {name : String} {base : Option TypeId} :
    (∃ detail, (r.apply (.defineType name base)).2 = .error (.argument detail)) ↔
      (∃ t ∈ r.types, t.name = name) ∨ ∃ b, base = some b ∧ r.getType? b = none := by
  rw [← h.isSome_lookup, ← h.base_unknown_iff]
  have hstep := r.step_apply (.defineType name base)
  generalize r.apply (.defineType name base) = after at hstep ⊢
  cases hstep with
  | taken _ _ known => simp [known]
  | baseless _ _ free unknown => simp [unknown]
  | defined _ _ free known => simp [free, Nat.not_le.mpr known]

theorem addMember_refused_iff {t : TypeId} {name : String} {kind : MemberKind} {modifiers : Flags} :
    (∃ detail, (r.apply (.addMember t name kind modifiers)).2 = .error (.argument detail)) ↔
      r.getType? t = none := by
  rw [getType?_eq_none_iff]
  have hstep := r.step_apply (.addMember t name kind modifiers)
  generalize r.apply (.addMember t name kind modifiers) = after at hstep ⊢
  cases hstep with
  | unknown _ _ _ _ unknown => simp [unknown]
  | declared _ _ _ _ known => simp [Nat.not_le.mpr known]

theorem apply_refused {o : RegistryOperation} {f : Fault} (h : (r.apply o).2 = .error f) :
    (∃ detail, f = .argument detail) ∧ (r.apply o).1 = r := by
  have hstep := r.step_apply o
  generalize r.apply o = after at hstep h
  cases hstep with
  | taken | baseless | unknown =>
    obtain rfl := Except.error.inj h
    exact ⟨⟨_, rfl⟩, rfl⟩
  | defined | declared => cases h

/-- Every registry that has come about by operations, taken or refused, and which operations it would
refuse next. -/
theorem applyAll_consistent (os : List RegistryOperation) :
    let r := initial.applyAll os
    r.nextTypeId = r.types.length ∧
      (∀ (i : ℕ) (t : HostType), r.types[i]? = some t → t.id = i) ∧
      (∃ t, r.getType? root = some t ∧ t.name = "Object" ∧ t.parent = none) ∧
      (∀ t ∈ r.types, t.id ≠ root → ∃ p < t.id, t.parent = some p ∧ ∃ s ∈ r.types, s.id = p) ∧
      (r.types.map (·.name)).Nodup ∧
      (∀ name t, r.getTypeByName? name = some t ↔ t ∈ r.types ∧ t.name = name) ∧
      (∀ name, r.getTypeByName? name = none ↔ ∀ t ∈ r.types, t.name ≠ name) ∧
      (∀ t ∈ r.types, ∀ m ∈ t.members, m.declaring = t.id) ∧
      (∀ name base, (∃ detail, (r.apply (.defineType name base)).2 = .error (.argument detail)) ↔
        (∃ t ∈ r.types, t.name = name) ∨ ∃ b, base = some b ∧ r.getType? b = none) ∧
      (∀ t name kind modifiers,
        (∃ detail, (r.apply (.addMember t name kind modifiers)).2 = .error (.argument detail)) ↔
          r.getType? t = none) ∧
      ∀ o f, (r.apply o).2 = .error f → (∃ detail, f = .argument detail) ∧ (r.apply o).1 = r := by
  intro r
  have h : r.Valid := valid_initial.applyAll os
  refine ⟨rfl, fun _ _ => h.numbered, h.rooted, ?_, h.nodup_names,
    fun _ _ => h.getTypeByName?_eq_some_iff, fun _ => h.getTypeByName?_eq_none_iff, ?_,
    fun _ _ => h.defineType_refused_iff, fun _ _ _ _ => addMember_refused_iff, fun _ _ => apply_refused⟩
  · intro t ht hne
    have hposition := h.getElem?_eq ht
    obtain ⟨p, hp, hparent⟩ := h.based hposition hne
    obtain ⟨s, hs⟩ : ∃ s, r.types[p]? = some s :=
      ⟨_, List.getElem?_eq_getElem (hp.trans (lt_nextTypeId hposition))⟩
    exact ⟨p, hp, hparent, s, List.mem_of_getElem? hs, h.numbered hs⟩
  · intro t ht
    exact h.declared (h.getElem?_eq ht)

end ManagedTypes.Registry
