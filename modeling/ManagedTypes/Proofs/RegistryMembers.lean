import ManagedTypes.Proofs.RegistryHistory

/-! The members that a registry reports of a type are what its history declared there: in the order of the
declarations, each as often as it was declared, and nothing that was refused. -/
namespace ManagedTypes

/-- The member that an operation is to declare, if it is one of that kind on that type. -/
def RegistryOperation.declaration? (t : TypeId) (kind : MemberKind) : RegistryOperation → Option Member
  | .addMember u name other modifiers =>
    if u = t ∧ other = kind then some ⟨name, kind, t, modifiers⟩ else none
  | .defineType .. => none

namespace Registry

/-- The operations of a history that are not refused. -/
def accepted (r : Registry) : List RegistryOperation → List RegistryOperation
  | [] => []
  | o :: os =>
    if (r.apply o).2.isOk then o :: (r.apply o).1.accepted os else (r.apply o).1.accepted os

/-- What a type has before anything is declared on it. -/
def builtIn (t : TypeId) (kind : MemberKind) : List Member :=
  if t = root then rootMembers.filter (·.kind == kind) else []

variable {r : Registry} {t : TypeId} {kind : MemberKind}

theorem declaredMembers_of_some {h : HostType} (ht : r.types[t]? = some h) :
    r.declaredMembers t kind = h.membersOf kind := by
  rw [declaredMembers, getType?, ht]

theorem declaredMembers_of_none (ht : r.types[t]? = none) : r.declaredMembers t kind = [] := by
  rw [declaredMembers, getType?, ht]

/-- Types are registered without members. -/
theorem declaredMembers_insert (name : String) (parent : Option TypeId) :
    (r.insert name parent).1.declaredMembers t kind = r.declaredMembers t kind := by
  cases ht : r.types[t]? with
  | some h => rw [declaredMembers_of_some ht, declaredMembers_of_some (types_insert.mpr (.inl ht))]
  | none =>
    rw [declaredMembers_of_none ht]
    cases hnew : (r.insert name parent).1.types[t]? with
    | none => exact declaredMembers_of_none hnew
    | some h =>
      rw [declaredMembers_of_some hnew]
      rcases types_insert.mp hnew with hold | ⟨-, rfl⟩
      · cases ht.symm.trans hold
      · rfl

theorem membersOf_declare (h : HostType) (m : Member) :
    (h.declare m).membersOf kind = h.membersOf kind ++ if m.kind = kind then [m] else [] := by
  simp only [HostType.membersOf, HostType.declare, List.filter_append, List.filter_cons,
    List.filter_nil, beq_iff_eq]

theorem declaredMembers_declare {u : TypeId} (hu : u < r.nextTypeId) (m : Member) :
    (r.declare u m).declaredMembers t kind =
      r.declaredMembers t kind ++ if u = t ∧ m.kind = kind then [m] else [] := by
  cases ht : r.types[t]? with
  | some h =>
    have hnew : (r.declare u m).types[t]? = some (if u = t then h.declare m else h) :=
      types_declare.mpr ⟨h, ht, rfl⟩
    rw [declaredMembers_of_some ht, declaredMembers_of_some hnew]
    by_cases hut : u = t
    · simp only [hut, if_true, true_and, membersOf_declare]
    · simp [hut]
  | none =>
    have hnew : (r.declare u m).types[t]? = none := by
      cases hnew : (r.declare u m).types[t]? with
      | none => rfl
      | some h =>
        obtain ⟨old, hold, -⟩ := types_declare.mp hnew
        cases ht.symm.trans hold
    have hne : u ≠ t := by
      rintro rfl
      exact absurd hu (Nat.not_lt.mpr (List.getElem?_eq_none_iff.mp ht))
    simp [declaredMembers_of_none ht, declaredMembers_of_none hnew, hne]

/-- One operation: it adds what it declares, unless it is refused. -/
theorem declaredMembers_apply (r : Registry) (o : RegistryOperation) (t : TypeId) (kind : MemberKind) :
    (r.apply o).1.declaredMembers t kind = r.declaredMembers t kind ++
      if (r.apply o).2.isOk then (o.declaration? t kind).toList else [] := by
  have hstep := r.step_apply o
  generalize r.apply o = after at hstep ⊢
  cases hstep with
  | taken | baseless | unknown => simp [Except.isOk, Except.toBool]
  | defined name base free known =>
    simp [declaredMembers_insert, RegistryOperation.declaration?]
  | declared u name other modifiers known =>
    rw [declaredMembers_declare known]
    by_cases hmatch : u = t ∧ other = kind
    · obtain ⟨rfl, rfl⟩ := hmatch
      simp [RegistryOperation.declaration?, Except.isOk, Except.toBool]
    · simp [RegistryOperation.declaration?, hmatch]

theorem declaredMembers_applyAll (r : Registry) (os : List RegistryOperation) (t : TypeId)
    (kind : MemberKind) :
    (r.applyAll os).declaredMembers t kind =
      r.declaredMembers t kind ++ (r.accepted os).filterMap (·.declaration? t kind) := by
  induction os generalizing r with
  | nil => exact (List.append_nil _).symm
  | cons o os ih =>
    have hrest := ih (r.apply o).1
    rw [declaredMembers_apply, List.append_assoc] at hrest
    refine hrest.trans (congrArg (r.declaredMembers t kind ++ ·) ?_)
    rw [accepted]
    split
    · cases hd : o.declaration? t kind <;> simp [hd]
    · rfl

theorem declaredMembers_initial : initial.declaredMembers t kind = builtIn t kind := by
  unfold builtIn
  split
  next ht =>
    subst ht
    rfl
  next ht =>
    have hnone : initial.types[t]? = none := by
      rw [Option.eq_none_iff_forall_ne_some]
      exact fun h hh => ht (types_initial.mp hh).1
    exact declaredMembers_of_none hnone

/-- A member can be declared on every registered type. -/
theorem apply_addMember (ht : (r.getType? t).isSome = true) (name : String) (kind : MemberKind)
    (modifiers : Flags) :
    let after := r.apply (.addMember t name kind modifiers)
    after.2 = .ok none ∧
      after.1.declaredMembers t kind = r.declaredMembers t kind ++ [⟨name, kind, t, modifiers⟩] := by
  intro after
  have hanswer : after.2 = .ok none := by
    have hstep := r.step_apply (.addMember t name kind modifiers)
    change r.Step _ after at hstep
    generalize after = after at hstep
    cases hstep with
    | unknown _ _ _ _ unknown =>
      rw [getType?_eq_none_iff.mpr unknown] at ht
      cases ht
    | declared => rfl
  refine ⟨hanswer, ?_⟩
  have hmembers := r.declaredMembers_apply (.addMember t name kind modifiers) t kind
  change after.1.declaredMembers t kind = _ ++ if after.2.isOk then _ else _ at hmembers
  rw [hmembers, hanswer]
  simp [RegistryOperation.declaration?, Except.isOk, Except.toBool]

/-- Every registry that has come about by operations, taken or refused, and what the next operation does
to the members of a kind that a type has. -/
theorem declaredMembers_follow_history (os : List RegistryOperation) (t : TypeId) (kind : MemberKind) :
    let r := initial.applyAll os
    r.declaredMembers t kind =
        builtIn t kind ++ (initial.accepted os).filterMap (·.declaration? t kind) ∧
      (r.getType? t = none → r.declaredMembers t kind = []) ∧
      (∀ o, (∀ name modifiers, o ≠ .addMember t name kind modifiers) ∨
          (∃ f, (r.apply o).2 = .error f) →
        (r.apply o).1.declaredMembers t kind = r.declaredMembers t kind) ∧
      ∀ name modifiers, (r.getType? t).isSome = true →
        let grows (o : RegistryOperation) (m : Member) := (r.apply o).2 = .ok none ∧
          (r.apply o).1.declaredMembers t m.kind = r.declaredMembers t m.kind ++ [m]
        grows (.addMember t name kind modifiers) ⟨name, kind, t, modifiers⟩ ∧
          grows (.addConstructor t modifiers) ⟨"<init>", .constructor, t, modifiers⟩ ∧
          grows (.addMethod t name modifiers) ⟨name, .method, t, modifiers⟩ ∧
          grows (.addField t name modifiers) ⟨name, .field, t, modifiers⟩ := by
  intro r
  refine ⟨?_, declaredMembers_of_none, ?_, fun name modifiers ht =>
    ⟨apply_addMember ht name kind modifiers, apply_addMember ht "<init>" .constructor modifiers,
      apply_addMember ht name .method modifiers, apply_addMember ht name .field modifiers⟩⟩
  · rw [← declaredMembers_initial]
    exact declaredMembers_applyAll initial os t kind
  · intro o ho
    have hnothing : (if (r.apply o).2.isOk then (o.declaration? t kind).toList else []) = [] := by
      rcases ho with hother | ⟨f, hf⟩
      · cases o with
        | defineType => simp [RegistryOperation.declaration?]
        | addMember u name other modifiers =>
          have hne : ¬(u = t ∧ other = kind) := by
            rintro ⟨rfl, rfl⟩
            exact hother name modifiers rfl
          simp [RegistryOperation.declaration?, hne]
      · rw [hf]
        rfl
    rw [declaredMembers_apply, hnothing, List.append_nil]

end Registry

end ManagedTypes
