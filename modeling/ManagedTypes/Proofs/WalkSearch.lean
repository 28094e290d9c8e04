import Mathlib.Data.List.TakeWhile
import ManagedTypes.Proofs.WalkReference

/-! Walks that end, and the two that look for members. One collects all that there are, the other stops
at the first of a name: the same first one, after a part of the same calls, also where the chain of base
types is endless and only the second comes to an end. -/
namespace ManagedTypes

/-- What a walk comes to once it may visit types enough. -/
def Walk.EndsIn {σ : Type} (walk : Nat → Walk σ × WalkEnd) (result : Walk σ × WalkEnd) : Prop :=
  result.2 ≠ .unfinished ∧ ∃ enough, ∀ fuel ≥ enough, walk fuel = result

/-- A walk that has ended is the same however many more types it may visit. -/
theorem Walk.climb_stable {σ : Type} {h : Host} {q : MemberQuery} {kind : MemberKind}
    {hidden : Option TypeId} {visit : Visitor σ} {fuel : Nat} {t : TypeId} {w : Walk σ}
    (hend : (climb h q kind hidden visit fuel t w).2 ≠ .unfinished) :
    climb h q kind hidden visit (fuel + 1) t w = climb h q kind hidden visit fuel t w := by
  induction fuel generalizing t w with
  | zero =>
    unfold climb at hend ⊢
    by_cases hhidden : hidden = some t
    · rw [if_pos hhidden, if_pos hhidden]
    · rw [if_neg hhidden] at hend
      exact absurd rfl hend
  | succ fuel ih =>
    unfold climb at hend
    unfold climb
    by_cases hhidden : hidden = some t
    · rw [if_pos hhidden, if_pos hhidden]
    rw [if_neg hhidden] at hend ⊢
    rw [if_neg hhidden]
    dsimp only at hend ⊢
    split at hend
    · rfl
    by_cases hdeclared : q.declaredOnly = true
    · rw [if_pos hdeclared, if_pos hdeclared]
    rw [if_neg hdeclared] at hend ⊢
    rw [if_neg hdeclared]
    cases hb : h.base t with
    | none => rfl
    | some b =>
      rw [hb] at hend
      exact ih hend

/-- Nothing is cut off a chain without a hidden type, if more than declared members are asked for. -/
theorem Host.visited_none (h : Host) (n : Nat) (t : TypeId) :
    h.visited false none n t = h.lineage n t :=
  List.takeWhile_eq_self_iff.mpr fun _ _ => rfl

namespace Visitor
variable {σ : Type}

theorem through_prefix (visit : Visitor σ) (s : σ) (events : List WalkEvent) :
    visit.through s events <+: events := by
  induction events generalizing s with
  | nil => exact List.nil_prefix
  | cons event events ih =>
    cases event with
    | call c => exact List.prefix_cons_inj _ |>.mpr (ih s)
    | offer m =>
      refine (List.prefix_cons_inj _).mpr ?_
      split
      · exact List.nil_prefix
      · exact ih _

/-- Keeps every member. -/
def gather : Visitor (List Member) := fun found m => (found ++ [m], false)

/-- Keeps the first member of a name, and stops there. -/
def seek (name : String) : Visitor (Option Member) := fun found m =>
  if m.name = name then (some m, true) else (found, false)

/-- A visitor that stops at no member stops at no events. -/
theorem stops_eq_false {visit : Visitor σ} (hnever : ∀ s m, (visit s m).2 = false) (s : σ)
    (events : List WalkEvent) : visit.stops s events = false := by
  induction events generalizing s with
  | nil => rfl
  | cons event events ih => cases event <;> simp [stops, hnever, ih]

theorem stops_gather (found : List Member) (events : List WalkEvent) :
    gather.stops found events = false := stops_eq_false (fun _ _ => rfl) found events

theorem after_gather (found : List Member) (events : List WalkEvent) :
    gather.after found events = found ++ WalkEvent.members events := by
  induction events generalizing found with
  | nil => simp [after_nil, WalkEvent.members]
  | cons event events ih =>
    cases event with
    | call c => simp [after_call, WalkEvent.members, ih]
    | offer m => simp [after_offer, WalkEvent.members, gather, ih]

theorem stops_seek (name : String) (found : Option Member) (events : List WalkEvent) :
    (seek name).stops found events =
      ((WalkEvent.members events).find? (·.name = name)).isSome := by
  induction events generalizing found with
  | nil => rfl
  | cons event events ih =>
    cases event with
    | call c => simpa [stops, WalkEvent.members] using ih found
    | offer m =>
      by_cases hm : m.name = name
      · simp [stops, WalkEvent.members, seek, hm]
      · simp [stops, WalkEvent.members, seek, hm, ih]

theorem after_seek (name : String) (found : Option Member) (events : List WalkEvent) :
    (seek name).after found ((seek name).through found events) =
      ((WalkEvent.members events).find? (·.name = name)).or found := by
  induction events generalizing found with
  | nil => rfl
  | cons event events ih =>
    cases event with
    | call c => simpa [through, after_call, WalkEvent.members] using ih found
    | offer m =>
      by_cases hm : m.name = name
      · simp [through, after_offer, after_nil, WalkEvent.members, seek, hm]
      · simp [through, after_offer, WalkEvent.members, seek, hm, ih]

end Visitor

namespace Enumerator
variable {σ : Type} {e : Enumerator} {r : WalkRequest} {kind : MemberKind} {q : MemberQuery}

/-- A request is answered without a walk, alike for every visitor, or it is walked. -/
theorem enumerate_cases (e : Enumerator) (r : WalkRequest) :
    (∃ out, out ≠ .unfinished ∧ ∀ {σ : Type} (visit : Visitor σ) (state : σ) (fuel : Nat),
        e.enumerate r visit state fuel = (.start state, out)) ∨
      ∃ q kind, MemberQuery.compile r.flags = .ok (some q) ∧
        MemberKind.ofMemberType r.memberType = .ok kind := by
  unfold enumerate
  cases hq : MemberQuery.compile r.flags with
  | error f => exact .inl ⟨.fault f, by simp, fun _ _ _ => rfl⟩
  | ok q? =>
    cases q? with
    | none => exact .inl ⟨.finished, by simp, fun _ _ _ => rfl⟩
    | some q =>
      cases hk : MemberKind.ofMemberType r.memberType with
      | error f => exact .inl ⟨.fault f, by simp, fun _ _ _ => rfl⟩
      | ok kind => exact .inr ⟨q, kind, rfl, rfl⟩

theorem enumerate_walked (hq : MemberQuery.compile r.flags = .ok (some q))
    (hk : MemberKind.ofMemberType r.memberType = .ok kind) (visit : Visitor σ) (state : σ)
    (fuel : Nat) :
    e.enumerate r visit state fuel =
      Walk.climb e.host q kind (e.hidden kind) visit fuel r.start (.start state) := by
  unfold enumerate hidden
  rw [hq]
  dsimp only
  rw [hk]

/-- A walk does what its events call for, until its visitor stops it. -/
theorem enumerate_eq (hq : MemberQuery.compile r.flags = .ok (some q))
    (hk : MemberKind.ofMemberType r.memberType = .ok kind) (visit : Visitor σ) (state : σ)
    (fuel : Nat) :
    let events := e.events r kind fuel
    e.enumerate r visit state fuel = ((Walk.start state).extend visit (visit.through state events),
      if visit.stops state events ∨ e.visited r kind (fuel + 1) = e.visited r kind fuel then .finished
      else .unfinished) := by
  obtain ⟨hd, ha⟩ := MemberQuery.compile_spec hq
  have hclimb := Walk.climb_eq e.host kind (e.hidden kind) visit hd ha fuel r.start (.start state)
  rw [hd] at hclimb
  exact (enumerate_walked hq hk visit state fuel).trans hclimb

theorem enumerate_stable {visit : Visitor σ} {state : σ} {fuel : Nat}
    (hend : (e.enumerate r visit state fuel).2 ≠ .unfinished) :
    e.enumerate r visit state (fuel + 1) = e.enumerate r visit state fuel := by
  rcases e.enumerate_cases r with ⟨out, _, hanswer⟩ | ⟨q, kind, hq, hk⟩
  · rw [hanswer, hanswer]
  · rw [enumerate_walked hq hk] at hend
    rw [enumerate_walked hq hk, enumerate_walked hq hk]
    exact Walk.climb_stable hend

theorem endsIn_enumerate {visit : Visitor σ} {state : σ} {fuel : Nat}
    (hend : (e.enumerate r visit state fuel).2 ≠ .unfinished) :
    Walk.EndsIn (e.enumerate r visit state) (e.enumerate r visit state fuel) := by
  refine ⟨hend, fuel, fun more hmore => ?_⟩
  induction hmore with
  | refl => rfl
  | step hmore ih => rw [enumerate_stable (by rwa [ih]), ih]

/-- Every member that the events offer. -/
theorem collect_eq (hq : MemberQuery.compile r.flags = .ok (some q))
    (hk : MemberKind.ofMemberType r.memberType = .ok kind) (fuel : Nat) :
    let events := e.events r kind fuel
    e.collect r fuel = (⟨WalkEvent.members events, WalkEvent.members events, WalkEvent.calls events⟩,
      if e.visited r kind (fuel + 1) = e.visited r kind fuel then .finished else .unfinished) := by
  have hwalk := enumerate_eq (e := e) hq hk Visitor.gather [] fuel
  simp only [Visitor.through_eq_self (Visitor.stops_gather _ _), Visitor.stops_gather,
    Bool.false_eq_true, false_or, Walk.extend, Walk.start, Visitor.after_gather, List.nil_append]
    at hwalk
  exact hwalk

variable {name : String}

/-- The first member of a name that the events offer, and what leads to it. -/
theorem findFirst_eq (hq : MemberQuery.compile r.flags = .ok (some q))
    (hk : MemberKind.ofMemberType r.memberType = .ok kind) (name : String) (fuel : Nat) :
    let events := e.events r kind fuel
    let found := (WalkEvent.members events).find? (·.name = name)
    let through := (Visitor.seek name).through none events
    e.findFirst r name fuel = (⟨found, WalkEvent.members through, WalkEvent.calls through⟩,
      if found.isSome = true ∨ e.visited r kind (fuel + 1) = e.visited r kind fuel then .finished
      else .unfinished) := by
  have hwalk := enumerate_eq (e := e) hq hk (Visitor.seek name) none fuel
  simp only [Visitor.stops_seek, Walk.extend, Walk.start, Visitor.after_seek, List.nil_append,
    Option.or_none] at hwalk
  exact hwalk

/-- The first member of a name that a type supplies to a request. -/
def supply? (e : Enumerator) (r : WalkRequest) (name : String) (t : TypeId) (kind : MemberKind) :
    Option Member :=
  ((e.host.declared t kind).filter (BindingFlags.admits r.flags)).find? (·.name = name)

/-- A search beside a collection: the first member of the name, after the same calls up to the one for
the members of the type that supplied it. No type asked before supplies any. -/
structure Agrees (e : Enumerator) (r : WalkRequest) (name : String) (sought : Walk (Option Member))
    (all : Walk (List Member)) : Prop where
  found : sought.state = all.state.find? (·.name = name)
  calls_prefix : sought.calls <+: all.calls
  calls_of_none : sought.state = none → sought.calls = all.calls
  calls_of_some : ∀ m, sought.state = some m → ∃ earlier t kind,
    sought.calls = earlier ++ [.declared t kind] ∧ e.supply? r name t kind = some m ∧
      ∀ u other, .declared u other ∈ earlier → e.supply? r name u other = none

theorem find?_members_events (ts : List TypeId) :
    (WalkEvent.members (ts.flatMap (e.host.eventsAt r.flags kind))).find? (·.name = name) =
      ts.findSome? fun t => e.supply? r name t kind := by
  induction ts with
  | nil => rfl
  | cons t ts ih =>
    rw [List.flatMap_cons, WalkEvent.members_append, List.find?_append, ih, List.findSome?_cons,
      Host.members_eventsAt]
    unfold supply?
    cases List.find? _ (List.filter _ _) <;> rfl

/-- The calls before a member is found. -/
theorem calls_through_seek {before after : List TypeId} {t : TypeId} {m : Member}
    (hbefore : ∀ u ∈ before, e.supply? r name u kind = none)
    (hm : e.supply? r name t kind = some m) (found : Option Member) :
    WalkEvent.calls ((Visitor.seek name).through found
        ((before ++ t :: after).flatMap (e.host.eventsAt r.flags kind))) =
      WalkEvent.calls (before.flatMap (e.host.eventsAt r.flags kind)) ++ [.declared t kind] := by
  have hfront : (Visitor.seek name).stops found (before.flatMap (e.host.eventsAt r.flags kind)) =
      false := by
    rw [Visitor.stops_seek, find?_members_events, List.findSome?_eq_none_iff.mpr hbefore]
    rfl
  rw [List.flatMap_append, List.flatMap_cons, Visitor.through_of_not_stops hfront,
    WalkEvent.calls_append]
  congr 1
  generalize (Visitor.seek name).after found _ = found
  -- the walk stops among the offers of this type, and offers are no calls
  have hstops : (Visitor.seek name).stops found
      (((e.host.declared t kind).filter (BindingFlags.admits r.flags)).map .offer) = true := by
    rw [Visitor.stops_seek, WalkEvent.members_offers, Option.isSome_iff_exists]
    exact ⟨m, hm⟩
  simp only [Host.eventsAt, List.cons_append, List.append_assoc, Visitor.through, WalkEvent.calls,
    Visitor.through_of_stops hstops]
  obtain ⟨back, hback⟩ := Visitor.through_prefix (Visitor.seek name) found
    (((e.host.declared t kind).filter (BindingFlags.admits r.flags)).map .offer)
  have hnone := congrArg WalkEvent.calls hback
  rw [WalkEvent.calls_append, WalkEvent.calls_offers, List.append_eq_nil_iff] at hnone
  rw [hnone.1]

/-- The calls for members in a log of types. -/
theorem declared_mem_calls {ts : List TypeId} {u : TypeId} {other : MemberKind}
    (h : .declared u other ∈ WalkEvent.calls (ts.flatMap (e.host.eventsAt r.flags kind))) :
    u ∈ ts ∧ other = kind := by
  rw [WalkEvent.calls_flatMap, List.mem_flatMap] at h
  obtain ⟨t, ht, hcall⟩ := h
  rw [Host.calls_eventsAt] at hcall
  rcases List.mem_cons.mp hcall with heq | hbase
  · obtain ⟨rfl, rfl⟩ := HostCall.declared.inj heq
    exact ⟨ht, rfl⟩
  · split at hbase <;> simp at hbase

theorem agrees_walked (hq : MemberQuery.compile r.flags = .ok (some q))
    (hk : MemberKind.ofMemberType r.memberType = .ok kind) (name : String) (fuel : Nat) :
    e.Agrees r name (e.findFirst r name fuel).1 (e.collect r fuel).1 := by
  rw [findFirst_eq hq hk, collect_eq hq hk]
  constructor
  · rfl
  · obtain ⟨back, hback⟩ := Visitor.through_prefix (Visitor.seek name) none (e.events r kind fuel)
    exact ⟨WalkEvent.calls back, by rw [← WalkEvent.calls_append, hback]⟩
  · intro hnone
    dsimp only at hnone ⊢
    rw [Visitor.through_eq_self]
    rw [Visitor.stops_seek, hnone]
    rfl
  · intro m hm
    dsimp only at hm ⊢
    unfold events at hm ⊢
    rw [find?_members_events] at hm
    obtain ⟨before, t, after, htypes, hsupply, hbefore⟩ := List.findSome?_eq_some_iff.mp hm
    rw [htypes]
    refine ⟨_, t, kind, calls_through_seek hbefore hsupply none, hsupply, fun u other hcall => ?_⟩
    obtain ⟨hu, rfl⟩ := declared_mem_calls hcall
    exact hbefore u hu

/-- Given the same number of types, the search ends where it finds a member, and as the collection ends. -/
theorem findFirst_collect (e : Enumerator) (r : WalkRequest) (name : String) (fuel : Nat) :
    e.Agrees r name (e.findFirst r name fuel).1 (e.collect r fuel).1 ∧
      (∀ m, (e.findFirst r name fuel).1.state = some m → (e.findFirst r name fuel).2 = .finished) ∧
      ((e.collect r fuel).2 ≠ .unfinished → (e.findFirst r name fuel).2 = (e.collect r fuel).2) := by
  rcases e.enumerate_cases r with ⟨out, _, hanswer⟩ | ⟨q, kind, hq, hk⟩
  · have hcollect : e.collect r fuel = (.start [], out) := hanswer _ [] fuel
    have hsearch : e.findFirst r name fuel = (.start none, out) := hanswer _ none fuel
    rw [hcollect, hsearch]
    refine ⟨⟨rfl, List.prefix_rfl, fun _ => rfl, ?_⟩, ?_, fun _ => rfl⟩
    · intro m hm
      cases hm
    · intro m hm
      cases hm
  · refine ⟨agrees_walked hq hk name fuel, ?_, ?_⟩
    · intro m hm
      rw [findFirst_eq hq hk] at hm ⊢
      dsimp only at hm ⊢
      rw [hm, if_pos (.inl rfl)]
    · rw [findFirst_eq hq hk, collect_eq hq hk]
      dsimp only
      intro hend
      by_cases hlast : e.visited r kind (fuel + 1) = e.visited r kind fuel
      · rw [if_pos (.inr hlast), if_pos hlast]
      · rw [if_neg hlast] at hend
        exact absurd rfl hend

/-- A search and a collection. Where the collection ends the search ends in the same way; where a member
of the name is reached the search ends with the first one, whether the collection ends or not. -/
theorem findFirst_agrees (e : Enumerator) (r : WalkRequest) (name : String) :
    (∀ all out, Walk.EndsIn (e.collect r) (all, out) →
      ∃ sought, Walk.EndsIn (e.findFirst r name) (sought, out) ∧ e.Agrees r name sought all) ∧
    ∀ fuel, (∃ m ∈ (e.collect r fuel).1.state, m.name = name) →
      ∃ sought m, Walk.EndsIn (e.findFirst r name) (sought, .finished) ∧ sought.state = some m ∧
        e.Agrees r name sought (e.collect r fuel).1 := by
  constructor
  · rintro all out ⟨hout, enough, hall⟩
    have hcollect := hall enough (Nat.le_refl enough)
    obtain ⟨hagrees, -, hends⟩ := e.findFirst_collect r name enough
    rw [hcollect] at hagrees hends
    have hsearch : (e.findFirst r name enough).2 = out := hends hout
    have hsettled : Walk.EndsIn (e.findFirst r name) (e.findFirst r name enough) :=
      endsIn_enumerate (by rw [← findFirst, hsearch]; exact hout)
    exact ⟨(e.findFirst r name enough).1, hsearch ▸ hsettled, hagrees⟩
  · rintro fuel ⟨m, hm, hname⟩
    obtain ⟨hagrees, hends, -⟩ := e.findFirst_collect r name fuel
    have hsome : ((e.collect r fuel).1.state.find? (·.name = name)).isSome = true :=
      List.find?_isSome.mpr ⟨m, hm, by simpa using hname⟩
    obtain ⟨first, hfirst⟩ := Option.isSome_iff_exists.mp hsome
    have hstate := hagrees.found.trans hfirst
    have hsearch := hends first hstate
    have hsettled : Walk.EndsIn (e.findFirst r name) (e.findFirst r name fuel) :=
      endsIn_enumerate (by rw [← findFirst, hsearch]; simp)
    exact ⟨(e.findFirst r name fuel).1, first, hsearch ▸ hsettled, hstate, hagrees⟩

/-- Three types whose chain of bases is a loop. One of them has two members of one name. -/
def ring : Enumerator where
  host :=
    { declared t kind := if t = 2 then
          [⟨"twin", kind, t, Modifiers.isPublic⟩, ⟨"twin", kind, t, Modifiers.final⟩]
        else [⟨"other", kind, t, Modifiers.isPublic⟩]
      base t := some ((t + 1) % 3)
      root := 7 }
  options := .standard

/-- A collection that never ends, and a search beside it that ends at the second type. -/
theorem findFirst_agrees_ring :
    (∀ fuel, (ring.collect ⟨0x14, 1, MemberTypes.method⟩ fuel).2 = .unfinished) ∧
      (∃ m ∈ (ring.collect ⟨0x14, 1, MemberTypes.method⟩ 2).1.state, m.name = "twin") ∧
      ∃ sought, Walk.EndsIn (ring.findFirst ⟨0x14, 1, MemberTypes.method⟩ "twin") (sought, .finished) ∧
        sought.state = some ⟨"twin", .method, 2, Modifiers.isPublic⟩ := by
  have hq : MemberQuery.compile 0x14 = .ok (some ⟨Modifiers.static, 0, false⟩) := rfl
  have hk : MemberKind.ofMemberType MemberTypes.method = .ok .method := rfl
  have hlength (n : Nat) (t : TypeId) : (ring.host.lineage n t).length = n := by
    induction n generalizing t with
    | zero => rfl
    | succ n ih => exact congrArg (· + 1) (ih ((t + 1) % 3))
  refine ⟨fun fuel => ?_, by decide, ?_⟩
  · rw [collect_eq hq hk]
    dsimp only
    refine if_neg fun hlast => ?_
    have hvisited (n : Nat) : ring.visited ⟨0x14, 1, MemberTypes.method⟩ .method n =
        ring.host.lineage n 1 := Host.visited_none ring.host n 1
    rw [hvisited, hvisited] at hlast
    have hlengths := congrArg List.length hlast
    rw [hlength, hlength] at hlengths
    exact absurd hlengths (Nat.succ_ne_self fuel)
  · obtain ⟨sought, m, hends, -, hagrees⟩ :=
      (findFirst_agrees ring ⟨0x14, 1, MemberTypes.method⟩ "twin").2 2 (by decide)
    exact ⟨sought, hends, hagrees.found.trans (by decide)⟩

end Enumerator

end ManagedTypes
