import ManagedTypes.Proofs.RegistryHistory
import ManagedTypes.Proofs.WalkSearch

/-! Chains of base types in a registry. A base has a smaller number than the types defined on it, so every
chain goes down to the root, and every walk over the registry ends. The registry's own account of a chain
and a walk up the chain come to the same types. -/
namespace ManagedTypes.Registry

/-- A type and its base types, down to the root. -/
inductive Descent (r : Registry) : TypeId → List TypeId → Prop
  | root : Descent r root [root]
  | step {t p : TypeId} {ts : List TypeId} (base : r.baseType t = some p) (lt : p < t)
      (rest : Descent r p ts) : Descent r t (t :: ts)

variable {r : Registry} {t : TypeId} {ts : List TypeId}

theorem getType?_eq_some_of_lt (ht : t < r.nextTypeId) : ∃ s, r.getType? t = some s :=
  ⟨_, List.getElem?_eq_getElem ht⟩

theorem lt_of_baseType {p : TypeId} (h : r.baseType t = some p) : t < r.nextTypeId := by
  obtain ⟨s, hs, -⟩ := Option.bind_eq_some_iff.mp h
  exact lt_nextTypeId hs

theorem Valid.root_lt (h : r.Valid) : root < r.nextTypeId := by
  obtain ⟨s, hs, -⟩ := h.rooted
  exact lt_nextTypeId hs

theorem Valid.baseType_root (h : r.Valid) : r.baseType root = none := by
  obtain ⟨s, hs, -, hparent⟩ := h.rooted
  exact Option.bind_eq_none_iff.mpr fun other hother => by
    obtain rfl : s = other := Option.some.inj (hs.symm.trans hother)
    exact hparent

theorem Valid.exists_baseType (h : r.Valid) (ht : t < r.nextTypeId) (hne : t ≠ root) :
    ∃ p < t, r.baseType t = some p := by
  obtain ⟨s, hs⟩ := getType?_eq_some_of_lt ht
  obtain ⟨p, hp, hparent⟩ := h.based hs hne
  exact ⟨p, hp, Option.bind_eq_some_iff.mpr ⟨s, hs, hparent⟩⟩

/-- Induction on the number of the type. -/
theorem Valid.exists_descent (h : r.Valid) (ht : t < r.nextTypeId) : ∃ ts, r.Descent t ts := by
  induction t using Nat.strongRecOn with
  | ind t ih =>
    by_cases hroot : t = root
    · exact hroot ▸ ⟨_, .root⟩
    · obtain ⟨p, hlt, hbase⟩ := h.exists_baseType ht hroot
      obtain ⟨ts, hts⟩ := ih p hlt (hlt.trans ht)
      exact ⟨t :: ts, .step hbase hlt hts⟩

theorem Valid.chain_succ (h : r.Valid) (ht : t < r.nextTypeId) (fuel : ℕ) :
    r.chain (fuel + 1) t = t :: match r.baseType t with
      | some p => r.chain fuel p
      | none => [] := by
  obtain ⟨s, hs⟩ := getType?_eq_some_of_lt ht
  have hid : s.id = t := h.numbered hs
  have hbase : r.baseType t = s.parent := by rw [baseType, hs, Option.bind_some]
  cases hparent : s.parent <;> simp only [chain, hs, hid, hbase, hparent]

/-- The registry's own account of a chain is the chain that a walk goes up. -/
theorem Valid.chain_eq_lineage (h : r.Valid) (ht : t < r.nextTypeId) (fuel : ℕ) :
    r.chain fuel t = r.host.lineage fuel t := by
  induction fuel generalizing t with
  | zero => rfl
  | succ fuel ih =>
    have hhost : r.host.base t = r.baseType t := rfl
    rw [h.chain_succ ht, Host.lineage, hhost]
    cases hbase : r.baseType t with
    | none => rfl
    | some p =>
      have hne : t ≠ root := by
        rintro rfl
        rw [h.baseType_root] at hbase
        cases hbase
      obtain ⟨q, hlt, hq⟩ := h.exists_baseType ht hne
      obtain rfl : q = p := Option.some.inj (hq.symm.trans hbase)
      exact congrArg (t :: ·) (ih (hlt.trans ht))

namespace Descent

theorem head? (d : r.Descent t ts) : ts.head? = some t := by
  cases d <;> rfl

theorem getLast? (d : r.Descent t ts) : ts.getLast? = some Registry.root := by
  induction d with
  | root => rfl
  | @step t p ts base lt rest ih => rw [List.getLast?_cons, ih]; rfl

theorem le (d : r.Descent t ts) : ∀ u ∈ ts, u ≤ t := by
  induction d with
  | root => simp
  | @step t p ts base lt rest ih =>
    exact List.forall_mem_cons.mpr ⟨le_rfl, fun u hu => (ih u hu).trans lt.le⟩

theorem pairwise (d : r.Descent t ts) : ts.Pairwise (· > ·) := by
  induction d with
  | root => exact List.pairwise_singleton _ _
  | @step t p ts base lt rest ih =>
    exact List.pairwise_cons.mpr ⟨fun u hu => (rest.le u hu).trans_lt lt, ih⟩

theorem length_le (d : r.Descent t ts) : ts.length ≤ t + 1 := by
  induction d with
  | root => simp
  | @step t p ts base lt rest ih =>
    exact Nat.succ_le_succ (ih.trans lt)

theorem lt_nextTypeId (d : r.Descent t ts) (h : r.Valid) : t < r.nextTypeId := by
  cases d with
  | root => exact h.root_lt
  | step base _ _ => exact lt_of_baseType base

/-- Every type is followed by its base type, and the root by none. -/
theorem getElem?_succ (d : r.Descent t ts) (h : r.Valid) {i : ℕ} {u : TypeId}
    (hu : ts[i]? = some u) : ts[i + 1]? = r.baseType u := by
  induction d generalizing i with
  | root =>
    cases i with
    | zero =>
      obtain rfl : Registry.root = u := Option.some.inj hu
      rw [h.baseType_root]
      rfl
    | succ i => simp at hu
  | @step t p ts base lt rest ih =>
    cases i with
    | zero =>
      obtain rfl : t = u := Option.some.inj hu
      rw [base, List.getElem?_cons_succ, ← List.head?_eq_getElem?]
      exact rest.head?
    | succ i => exact ih hu

theorem lineage_eq (d : r.Descent t ts) (h : r.Valid) {n : ℕ} (hn : ts.length ≤ n) :
    r.host.lineage n t = ts := by
  induction d generalizing n with
  | root =>
    obtain ⟨m, rfl⟩ : ∃ m, n = m + 1 := Nat.exists_eq_add_of_le' hn
    have hbase : r.host.base Registry.root = none := h.baseType_root
    rw [Host.lineage, hbase]
  | @step t p ts base lt rest ih =>
    obtain ⟨m, rfl⟩ := Nat.exists_eq_add_of_le' hn
    have hbase : r.host.base t = some p := base
    rw [List.length_cons, ← add_assoc, Host.lineage, hbase]
    exact congrArg (t :: ·) (ih (Nat.le_add_left _ _))

theorem chain_eq (d : r.Descent t ts) (h : r.Valid) {fuel : ℕ} (hfuel : ts.length ≤ fuel) :
    r.chain fuel t = ts := by
  rw [h.chain_eq_lineage (d.lt_nextTypeId h), d.lineage_eq h hfuel]

/-- Only the last type is the root, so to stop there is to leave it out. -/
theorem takeWhile_eq (d : r.Descent t ts) :
    ts.takeWhile (fun u => some Registry.root != some u) = ts.filter (· ≠ Registry.root) := by
  induction d with
  | root => rfl
  | @step t p ts base lt rest ih =>
    have hne : t ≠ Registry.root := (Nat.zero_le p).trans_lt lt |>.ne'
    rw [List.takeWhile_cons_of_pos (by simpa using hne.symm),
      List.filter_cons_of_pos (by simpa using hne), ih]

end Descent

/-- Types that are not registered have no base type, so every chain is at its end after as many types as
there are. -/
theorem Valid.lineage_stable (h : r.Valid) (t : TypeId) {n : ℕ} (hn : r.nextTypeId ≤ n) :
    r.host.lineage (n + 1) t = r.host.lineage n t := by
  rcases Nat.lt_or_ge t r.nextTypeId with ht | ht
  · obtain ⟨ts, d⟩ := h.exists_descent ht
    have hlength : ts.length ≤ n := d.length_le.trans (Nat.succ_le_of_lt ht |>.trans hn)
    rw [d.lineage_eq h hlength, d.lineage_eq h (hlength.trans n.le_succ)]
  · obtain ⟨m, rfl⟩ : ∃ m, n = m + 1 := Nat.exists_eq_add_of_le' (h.root_lt.trans_le hn)
    have hbase : r.host.base t = none := by
      change (r.getType? t).bind _ = none
      rw [getType?_eq_none_iff.mpr ht, Option.bind_none]
    rw [Host.lineage, Host.lineage, hbase]

/-- Every walk over the registry, whatever its request, its options and its visitor. -/
theorem Valid.endsIn_walk (h : r.Valid) (options : EnumerationOptions) (request : WalkRequest)
    {σ : Type} (visit : Visitor σ) (state : σ) :
    let e : Enumerator := ⟨r.host, options⟩
    Walk.EndsIn (e.enumerate request visit state) (e.enumerate request visit state r.walkBound) := by
  intro e
  apply Enumerator.endsIn_enumerate
  rcases e.enumerate_cases request with ⟨out, hout, hanswer⟩ | ⟨q, kind, hq, hk⟩
  · rw [hanswer]
    exact hout
  · have hchain : e.host.lineage (r.walkBound + 1) request.start =
        e.host.lineage r.walkBound request.start := h.lineage_stable request.start (Nat.le_succ _)
    have hlast : e.visited request kind (r.walkBound + 1) = e.visited request kind r.walkBound := by
      unfold Enumerator.visited Host.visited
      rw [hchain]
    rw [Enumerator.enumerate_eq hq hk, if_pos (.inr hlast)]
    simp

/-- The types that a walk visits if it asks for more than declared members. -/
theorem Valid.visited_eq (h : r.Valid) (options : EnumerationOptions) {request : WalkRequest}
    (kind : MemberKind) (hdeclared : request.flags.contains BindingFlags.declaredOnly = false)
    (d : r.Descent request.start ts) :
    let e : Enumerator := ⟨r.host, options⟩
    e.visited request kind r.walkBound =
      if kind = .field ∧ options.hideRootFields = true then ts.filter (· ≠ root) else ts := by
  intro e
  have hregistered : request.start < r.nextTypeId := d.lt_nextTypeId h
  have hchain : e.host.lineage r.walkBound request.start = ts :=
    d.lineage_eq h (d.length_le.trans (hregistered.trans (Nat.lt_succ_self _)))
  have hroot : e.host.root = root := rfl
  unfold Enumerator.visited Enumerator.hidden
  rw [hdeclared, hroot]
  by_cases hhide : kind = .field ∧ options.hideRootFields = true
  · rw [if_pos hhide, if_pos (by simpa using hhide), ← d.takeWhile_eq, ← hchain]
    rfl
  · rw [if_neg hhide, if_neg (by simpa using hhide), Host.visited_none, hchain]

/-- What a walk asks that no visitor stops. -/
theorem Valid.calls_walk (h : r.Valid) (options : EnumerationOptions) {request : WalkRequest}
    {q : MemberQuery} {kind : MemberKind} (hq : MemberQuery.compile request.flags = .ok (some q))
    (hk : MemberKind.ofMemberType request.memberType = .ok kind)
    (hdeclared : request.flags.contains BindingFlags.declaredOnly = false)
    (d : r.Descent request.start ts) {σ : Type} {visit : Visitor σ}
    (hnever : ∀ s m, (visit s m).2 = false) (state : σ) :
    let e : Enumerator := ⟨r.host, options⟩
    (e.enumerate request visit state r.walkBound).1.calls =
      (if kind = .field ∧ options.hideRootFields = true then ts.filter (· ≠ root) else ts).flatMap
        fun u => [.declared u kind, .base u] := by
  intro e
  have hvisited : e.visited request kind r.walkBound = _ := h.visited_eq options kind hdeclared d
  rw [Enumerator.enumerate_eq hq hk, Visitor.through_eq_self (Visitor.stops_eq_false hnever _ _)]
  simp only [Walk.extend, Walk.start, List.nil_append, Enumerator.events, WalkEvent.calls_flatMap,
    Host.calls_eventsAt, hdeclared, hvisited, Bool.false_eq_true, if_false]

theorem chain_eq_nil (ht : r.getType? t = none) (fuel : ℕ) : r.chain fuel t = [] := by
  cases fuel with
  | zero => rfl
  | succ fuel => rw [chain, ht]

/-- A type that is not registered has no members to offer, and no base type to go on with. -/
theorem offered_walk (options : EnumerationOptions) {request : WalkRequest}
    (hstart : r.getType? request.start = none) {σ : Type} (visit : Visitor σ) (state : σ) :
    let e : Enumerator := ⟨r.host, options⟩
    (e.enumerate request visit state r.walkBound).1.offered = [] := by
  intro e
  rcases e.enumerate_cases request with ⟨out, -, hanswer⟩ | ⟨q, kind, hq, hk⟩
  · rw [hanswer]
    rfl
  · have hdeclared : e.host.declared request.start kind = [] := by
      change r.declaredMembers request.start kind = []
      rw [declaredMembers, hstart]
    have hbase : e.host.base request.start = none := by
      change r.baseType request.start = none
      rw [baseType, hstart, Option.bind_none]
    rw [Enumerator.enumerate_walked hq hk]
    unfold Walk.climb walkBound
    rw [hdeclared, hbase]
    by_cases hhidden : e.hidden kind = some request.start
    · rw [if_pos hhidden]
      rfl
    · rw [if_neg hhidden]
      dsimp only [List.filter_nil, Walk.offer]
      split <;> rfl

/-- Every registry that has come about by operations. Chains and walks end there, whatever else is asked
for; the chain of a registered type goes down to the root by base types, and a walk that nothing stops
asks for the members of just these types. -/
theorem applyAll_walks_end (os : List RegistryOperation) (options : EnumerationOptions) :
    let r := initial.applyAll os
    let e : Enumerator := ⟨r.host, options⟩
    (∀ t fuel, r.walkBound ≤ fuel → r.chain fuel t = r.hierarchy t) ∧
      (∀ (request : WalkRequest) {σ : Type} (visit : Visitor σ) (state : σ),
        ∃ result, Walk.EndsIn (e.enumerate request visit state) result) ∧
      (∀ t s, r.getType? t = some s →
        (r.hierarchy t).Pairwise (· > ·) ∧ (r.hierarchy t).head? = some t ∧
          (r.hierarchy t).getLast? = some root ∧ (r.hierarchy t).length ≤ t + 1 ∧
          ∀ (i : ℕ) u, (r.hierarchy t)[i]? = some u → (r.hierarchy t)[i + 1]? = r.baseType u) ∧
      (∀ (request : WalkRequest) (q : MemberQuery) (kind : MemberKind),
        (r.getType? request.start).isSome = true →
        MemberQuery.compile request.flags = .ok (some q) →
        MemberKind.ofMemberType request.memberType = .ok kind →
        request.flags.contains BindingFlags.declaredOnly = false →
        let asked := if kind = .field ∧ options.hideRootFields = true then
          (r.hierarchy request.start).filter (· ≠ root) else r.hierarchy request.start
        ∀ {σ : Type} (visit : Visitor σ) (state : σ), (∀ s m, (visit s m).2 = false) →
          ∃ w out, Walk.EndsIn (e.enumerate request visit state) (w, out) ∧
            w.calls = asked.flatMap fun u => [.declared u kind, .base u]) ∧
      ∀ t, r.getType? t = none → r.hierarchy t = [] ∧
        ∀ (request : WalkRequest), request.start = t → ∀ {σ : Type} (visit : Visitor σ) (state : σ),
          ∃ w out, Walk.EndsIn (e.enumerate request visit state) (w, out) ∧ w.offered = [] := by
  intro r e
  have h : r.Valid := valid_initial.applyAll os
  have hdescent {t : TypeId} {s : HostType} (hs : r.getType? t = some s) :
      ∃ ts, r.Descent t ts ∧ ∀ fuel ≥ r.walkBound, r.chain fuel t = ts := by
    have ht := lt_nextTypeId hs
    obtain ⟨ts, d⟩ := h.exists_descent ht
    exact ⟨ts, d, fun fuel hfuel =>
      d.chain_eq h (d.length_le.trans ((Nat.succ_le_of_lt ht).trans ((Nat.le_succ _).trans hfuel)))⟩
  refine ⟨?_, fun request _ visit state => ⟨_, h.endsIn_walk options request visit state⟩, ?_, ?_, ?_⟩
  · intro t fuel hfuel
    cases ht : r.getType? t with
    | none => rw [hierarchy, chain_eq_nil ht, chain_eq_nil ht]
    | some s =>
      obtain ⟨ts, -, hchain⟩ := hdescent ht
      rw [hierarchy, hchain fuel hfuel, hchain _ le_rfl]
  · intro t s hs
    obtain ⟨ts, d, hchain⟩ := hdescent hs
    rw [hierarchy, hchain _ le_rfl]
    exact ⟨d.pairwise, d.head?, d.getLast?, d.length_le, fun i u => d.getElem?_succ h⟩
  · intro request q kind hstart hq hk hdeclared asked σ visit state hnever
    obtain ⟨s, hs⟩ := Option.isSome_iff_exists.mp hstart
    obtain ⟨ts, d, hchain⟩ := hdescent hs
    have hcalls := h.calls_walk options hq hk hdeclared d hnever state
    refine ⟨_, _, h.endsIn_walk options request visit state, hcalls.trans ?_⟩
    simp only [asked, hierarchy, hchain _ le_rfl]
  · intro t ht
    refine ⟨chain_eq_nil ht _, ?_⟩
    rintro request rfl σ visit state
    exact ⟨_, _, h.endsIn_walk options request visit state, offered_walk options ht visit state⟩

end ManagedTypes.Registry
