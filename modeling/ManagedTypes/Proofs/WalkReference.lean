import ManagedTypes.Reflect.Walk

/-! What a walk offers and asks, as a lazy list of events that its visitor cuts short. The chain of base
types may be endless, so everything is said of its first `n` types, for every `n`. -/
namespace ManagedTypes

/-- A walk calls its host and offers members to its visitor. -/
inductive WalkEvent
  | call (c : HostCall)
  | offer (m : Member)
  deriving DecidableEq

namespace WalkEvent

def calls : List WalkEvent → List HostCall
  | [] => []
  | call c :: rest => c :: calls rest
  | offer _ :: rest => calls rest

def members : List WalkEvent → List Member
  | [] => []
  | call _ :: rest => members rest
  | offer m :: rest => m :: members rest

@[simp] theorem calls_append (front back : List WalkEvent) :
    calls (front ++ back) = calls front ++ calls back := by
  induction front with
  | nil => rfl
  | cons event front ih => cases event <;> simp [calls, ih]

@[simp] theorem members_append (front back : List WalkEvent) :
    members (front ++ back) = members front ++ members back := by
  induction front with
  | nil => rfl
  | cons event front ih => cases event <;> simp [members, ih]

theorem members_offers (ms : List Member) : members (ms.map .offer) = ms := by
  induction ms with
  | nil => rfl
  | cons m ms ih => simp [members, ih]

theorem calls_offers (ms : List Member) : calls (ms.map .offer) = [] := by
  induction ms with
  | nil => rfl
  | cons m ms ih => simp [calls, ih]

theorem calls_flatMap (events : TypeId → List WalkEvent) (ts : List TypeId) :
    calls (ts.flatMap events) = ts.flatMap fun t => calls (events t) := by
  induction ts with
  | nil => rfl
  | cons t ts ih => simp [ih]

end WalkEvent

namespace Visitor
variable {σ : Type}

/-- The events up to and including the first offer that the visitor stops at. -/
def through (visit : Visitor σ) : σ → List WalkEvent → List WalkEvent
  | _, [] => []
  | s, .call c :: rest => .call c :: through visit s rest
  | s, .offer m :: rest => .offer m :: if (visit s m).2 then [] else through visit (visit s m).1 rest

/-- Whether the visitor stops at any of the offers. -/
def stops (visit : Visitor σ) : σ → List WalkEvent → Bool
  | _, [] => false
  | s, .call _ :: rest => stops visit s rest
  | s, .offer m :: rest => (visit s m).2 || stops visit (visit s m).1 rest

/-- The members up to and including the first that the visitor stops at. -/
def upTo (visit : Visitor σ) : σ → List Member → List Member
  | _, [] => []
  | s, m :: rest => m :: if (visit s m).2 then [] else upTo visit (visit s m).1 rest

/-- The visitor's state after the events. -/
def after (visit : Visitor σ) (s : σ) (events : List WalkEvent) : σ :=
  (WalkEvent.members events).foldl (fun s m => (visit s m).1) s

theorem after_nil (visit : Visitor σ) (s : σ) : visit.after s [] = s := rfl

theorem after_call (visit : Visitor σ) (s : σ) (c : HostCall) (events : List WalkEvent) :
    visit.after s (.call c :: events) = visit.after s events := rfl

theorem after_offer (visit : Visitor σ) (s : σ) (m : Member) (events : List WalkEvent) :
    visit.after s (.offer m :: events) = visit.after (visit s m).1 events := rfl

theorem through_of_stops {visit : Visitor σ} {s : σ} {front : List WalkEvent}
    (h : visit.stops s front = true) (back : List WalkEvent) :
    visit.through s (front ++ back) = visit.through s front := by
  induction front generalizing s with
  | nil => simp [stops] at h
  | cons event front ih =>
    cases event with
    | call c => simpa [through] using ih h
    | offer m =>
      cases hm : (visit s m).2 with
      | true => simp [through, hm]
      | false =>
        have hrest : visit.stops (visit s m).1 front = true := by simpa [stops, hm] using h
        simp [through, hm, ih hrest]

theorem through_of_not_stops {visit : Visitor σ} {s : σ} {front : List WalkEvent}
    (h : visit.stops s front = false) (back : List WalkEvent) :
    visit.through s (front ++ back) = front ++ visit.through (visit.after s front) back := by
  induction front generalizing s with
  | nil => rfl
  | cons event front ih =>
    cases event with
    | call c => simpa [through, after_call] using ih h
    | offer m =>
      simp only [stops, Bool.or_eq_false_iff] at h
      simp [through, h.1, after_offer, ih h.2]

theorem through_eq_self {visit : Visitor σ} {s : σ} {events : List WalkEvent}
    (h : visit.stops s events = false) : visit.through s events = events := by
  simpa [through] using through_of_not_stops h []

theorem stops_append (visit : Visitor σ) (s : σ) (front back : List WalkEvent) :
    visit.stops s (front ++ back) =
      (visit.stops s front || visit.stops (visit.after s front) back) := by
  induction front generalizing s with
  | nil => rfl
  | cons event front ih =>
    cases event with
    | call c => simpa [stops, after_call] using ih s
    | offer m => simp [stops, after_offer, ih, Bool.or_assoc]

theorem members_through (visit : Visitor σ) (s : σ) (events : List WalkEvent) :
    WalkEvent.members (visit.through s events) = visit.upTo s (WalkEvent.members events) := by
  induction events generalizing s with
  | nil => rfl
  | cons event events ih =>
    cases event with
    | call c => simpa [through, WalkEvent.members] using ih s
    | offer m =>
      simp only [through, WalkEvent.members, upTo]
      cases (visit s m).2 with
      | true => rfl
      | false => simp [ih]

end Visitor

/-- Whether a member has one of the lifetimes that are asked for. -/
def BindingFlags.admits (flags : Flags) (m : Member) : Bool :=
  if m.isStatic then flags.contains static else flags.contains instanced

namespace Host

/-- The first `n` types of the chain of base types. -/
def lineage (h : Host) : Nat → TypeId → List TypeId
  | 0, _ => []
  | n + 1, t => t :: match h.base t with
    | some b => h.lineage n b
    | none => []

/-- The chain cut after its first type if only declared members are asked for, and before the type that
is hidden. -/
def visited (h : Host) (declaredOnly : Bool) (hidden : Option TypeId) (n : Nat) (t : TypeId) :
    List TypeId :=
  let chain := if declaredOnly then (h.lineage n t).take 1 else h.lineage n t
  chain.takeWhile fun u => hidden != some u

/-- The declared members of a type are asked for and offered, and then its base type is asked for. -/
def eventsAt (h : Host) (flags : Flags) (kind : MemberKind) (t : TypeId) : List WalkEvent :=
  .call (.declared t kind)
    :: ((h.declared t kind).filter (BindingFlags.admits flags)).map .offer
    ++ if flags.contains BindingFlags.declaredOnly then [] else [.call (.base t)]

theorem members_eventsAt (h : Host) (flags : Flags) (kind : MemberKind) (t : TypeId) :
    WalkEvent.members (h.eventsAt flags kind t) =
      (h.declared t kind).filter (BindingFlags.admits flags) := by
  unfold eventsAt
  split <;> simp [WalkEvent.members, WalkEvent.members_offers]

theorem calls_eventsAt (h : Host) (flags : Flags) (kind : MemberKind) (t : TypeId) :
    WalkEvent.calls (h.eventsAt flags kind t) =
      .declared t kind :: if flags.contains BindingFlags.declaredOnly then [] else [.base t] := by
  unfold eventsAt
  split <;> simp [WalkEvent.calls, WalkEvent.calls_offers]

variable {h : Host} {hidden : Option TypeId} {t : TypeId}

theorem visited_zero (declaredOnly : Bool) : h.visited declaredOnly hidden 0 t = [] := by
  cases declaredOnly <;> rfl

theorem visited_of_hidden (ht : hidden = some t) (declaredOnly : Bool) (n : Nat) :
    h.visited declaredOnly hidden n t = [] := by
  cases n with
  | zero => exact visited_zero declaredOnly
  | succ n => cases declaredOnly <;> simp [visited, lineage, ht]

theorem visited_succ (ht : hidden ≠ some t) (declaredOnly : Bool) (n : Nat) :
    h.visited declaredOnly hidden (n + 1) t =
      t :: if declaredOnly then [] else match h.base t with
        | some b => h.visited declaredOnly hidden n b
        | none => [] := by
  cases declaredOnly with
  | true => simp [visited, lineage, ht]
  | false => cases hb : h.base t <;> simp [visited, lineage, ht, hb]

end Host

namespace Flags

/-- A single bit is contained if it is set. -/
theorem contains_twoPow (flags : Flags) {i : Nat} (hi : i < 32) :
    flags.contains (BitVec.twoPow 32 i) = flags.getLsbD i := by
  have hne : 0#32 ≠ BitVec.twoPow 32 i := by
    intro h
    have hbit := congrArg (fun bits => bits.getLsbD i) h
    simp [hi] at hbit
  unfold contains
  rw [BitVec.and_twoPow]
  cases flags.getLsbD i <;> simp [hne]

end Flags

namespace MemberQuery

theorem contains_instanced (flags : Flags) :
    flags.contains BindingFlags.instanced = flags.getLsbD 2 :=
  Flags.contains_twoPow flags (i := 2) (by decide)

theorem contains_static (flags : Flags) :
    flags.contains BindingFlags.static = flags.getLsbD 3 :=
  Flags.contains_twoPow flags (i := 3) (by decide)

/-- Flags of some lifetime have one of the two. -/
theorem lifetime_requested {flags : Flags} (h : flags.intersects BindingFlags.lifetime = true) :
    flags.contains BindingFlags.instanced = true ∨ flags.contains BindingFlags.static = true := by
  rw [contains_instanced, contains_static]
  cases h2 : flags.getLsbD 2 with
  | true => exact .inl rfl
  | false =>
    cases h3 : flags.getLsbD 3 with
    | true => exact .inr rfl
    | false =>
      have hzero : flags &&& BindingFlags.lifetime = 0 := by
        have hsplit : BindingFlags.lifetime = BitVec.twoPow 32 2 ||| BitVec.twoPow 32 3 := by decide
        rw [hsplit, BitVec.and_or_distrib_left, BitVec.and_twoPow, BitVec.and_twoPow, h2, h3]
        rfl
      simp [Flags.intersects, hzero] at h

theorem isStatic_eq (m : Member) : m.isStatic = m.modifiers.getLsbD 3 :=
  Flags.contains_twoPow m.modifiers (i := 3) (by decide)

theorem and_static (modifiers : Flags) :
    modifiers &&& Modifiers.static = if modifiers.getLsbD 3 then Modifiers.static else 0 :=
  BitVec.and_twoPow modifiers 3

/-- A compiled query takes the members of the lifetimes that are asked for, and stops after the first
type if only declared members are. -/
theorem compile_spec {flags : Flags} {q : MemberQuery} (h : compile flags = .ok (some q)) :
    q.declaredOnly = flags.contains BindingFlags.declaredOnly ∧
      ∀ m : Member, q.accepts m.modifiers = BindingFlags.admits flags m := by
  simp only [compile] at h
  split at h
  · simp at h
  next hgroups =>
  split at h
  · simp at h
  have hlife : flags.intersects BindingFlags.lifetime = true := by
    simp only [Bool.or_eq_true, Bool.not_eq_true', not_or, Bool.not_eq_false] at hgroups
    exact hgroups.2
  have hone := lifetime_requested hlife
  cases hi : flags.contains BindingFlags.instanced <;>
    cases hs : flags.contains BindingFlags.static <;>
    simp only [hi, hs, Except.ok.injEq, Option.some.injEq] at h hone
  · simp at hone
  all_goals
    subst h
    refine ⟨rfl, fun m => ?_⟩
    simp only [accepts, BindingFlags.admits, hi, hs, isStatic_eq, and_static]
    cases m.modifiers.getLsbD 3 <;> simp [Modifiers.static]

end MemberQuery

namespace Walk
variable {σ : Type}

/-- A walk after some events. -/
def extend (w : Walk σ) (visit : Visitor σ) (events : List WalkEvent) : Walk σ where
  state := visit.after w.state events
  offered := w.offered ++ WalkEvent.members events
  calls := w.calls ++ WalkEvent.calls events

theorem extend_append (w : Walk σ) (visit : Visitor σ) (front back : List WalkEvent) :
    w.extend visit (front ++ back) = (w.extend visit front).extend visit back := by
  simp [extend, Visitor.after]

theorem extend_nil (w : Walk σ) (visit : Visitor σ) : w.extend visit [] = w := by
  simp [extend, Visitor.after, WalkEvent.members, WalkEvent.calls]

@[simp] theorem extend_state (w : Walk σ) (visit : Visitor σ) (events : List WalkEvent) :
    (w.extend visit events).state = visit.after w.state events := rfl

@[simp] theorem called_state (w : Walk σ) (c : HostCall) : (w.called c).state = w.state := rfl

theorem called_extend (w : Walk σ) (visit : Visitor σ) (c : HostCall) (events : List WalkEvent) :
    (w.called c).extend visit events = w.extend visit (.call c :: events) := by
  simp [extend, called, Visitor.after, WalkEvent.members, WalkEvent.calls]

theorem extend_call (w : Walk σ) (visit : Visitor σ) (c : HostCall) :
    w.extend visit [.call c] = w.called c := by
  simp [extend, Visitor.after, called, WalkEvent.calls, WalkEvent.members]

theorem offer_eq (w : Walk σ) (visit : Visitor σ) (ms : List Member) :
    w.offer visit ms =
      (w.extend visit (visit.through w.state (ms.map .offer)),
        visit.stops w.state (ms.map .offer)) := by
  induction ms generalizing w with
  | nil => simp [offer, Visitor.through, Visitor.stops, extend_nil]
  | cons m ms ih =>
    simp only [offer, List.map_cons, Visitor.through, Visitor.stops]
    cases (visit w.state m).2 with
    | true => simp [extend, Visitor.after, WalkEvent.members, WalkEvent.calls]
    | false => simp [ih, extend, Visitor.after, WalkEvent.members, WalkEvent.calls]

/-- The members of one type, asked for and offered. -/
def front (h : Host) (flags : Flags) (kind : MemberKind) (t : TypeId) : List WalkEvent :=
  .call (.declared t kind) :: ((h.declared t kind).filter (BindingFlags.admits flags)).map .offer

theorem offer_front (h : Host) {q : MemberQuery} {flags : Flags} (kind : MemberKind)
    (visit : Visitor σ) (ha : ∀ m : Member, q.accepts m.modifiers = BindingFlags.admits flags m)
    (t : TypeId) (w : Walk σ) :
    (w.called (.declared t kind)).offer visit
        ((h.declared t kind).filter fun m => q.accepts m.modifiers) =
      (w.extend visit (visit.through w.state (front h flags kind t)),
        visit.stops w.state (front h flags kind t)) := by
  have hfilter : ((h.declared t kind).filter fun m => q.accepts m.modifiers) =
      (h.declared t kind).filter (BindingFlags.admits flags) :=
    List.filter_congr fun m _ => ha m
  rw [hfilter, offer_eq, called_extend]
  rfl

/-- A walk up the chain does what the visited types call for until its visitor stops it, and is
unfinished if it was not stopped and a further type is left to visit. -/
theorem climb_eq (h : Host) {q : MemberQuery} {flags : Flags} (kind : MemberKind)
    (hidden : Option TypeId) (visit : Visitor σ)
    (hd : q.declaredOnly = flags.contains BindingFlags.declaredOnly)
    (ha : ∀ m : Member, q.accepts m.modifiers = BindingFlags.admits flags m)
    (fuel : Nat) (t : TypeId) (w : Walk σ) :
    let seen (n : Nat) := h.visited q.declaredOnly hidden n t
    let events := (seen fuel).flatMap (h.eventsAt flags kind)
    climb h q kind hidden visit fuel t w =
      (w.extend visit (visit.through w.state events),
        if visit.stops w.state events ∨ seen (fuel + 1) = seen fuel then .finished
        else .unfinished) := by
  -- the events of the first type come in front of those of the chain from its base type on
  have hevents : h.eventsAt flags kind =
      fun t => front h flags kind t ++ if q.declaredOnly then [] else [.call (.base t)] := by
    funext t
    simp [Host.eventsAt, front, hd]
  simp only [hevents]
  induction fuel generalizing t w with
  | zero =>
    unfold climb
    split
    next ht => simp [Host.visited_of_hidden ht, Visitor.through, extend_nil]
    next ht =>
      simp [Host.visited_zero, Host.visited_succ ht, Visitor.through, Visitor.stops, extend_nil]
  | succ fuel ih =>
    unfold climb
    split
    next ht => simp [Host.visited_of_hidden ht, Visitor.through, extend_nil]
    next ht =>
    simp only [offer_front h kind visit ha, Host.visited_succ ht, List.flatMap_cons,
      List.append_assoc, List.cons.injEq, true_and]
    cases hs : visit.stops w.state (front h flags kind t) with
    | true => simp [Visitor.through_of_stops hs, Visitor.stops_append, hs]
    | false =>
      simp only [Visitor.through_of_not_stops hs, Visitor.through_eq_self hs,
        Visitor.stops_append, hs, extend_append, Bool.false_or]
      cases hq : q.declaredOnly with
      | true => simp [Visitor.through, Visitor.stops, extend_nil]
      | false =>
        cases hb : h.base t with
        | none => simp [Visitor.through, Visitor.stops, extend_call]
        | some b =>
          simp only [ih, hq, called_extend, called_state, extend_state, Bool.false_eq_true,
            if_false, List.cons_append, List.nil_append, Visitor.through, Visitor.stops,
            Visitor.after_call, Visitor.after_nil, Bool.false_or]

end Walk

namespace Enumerator
variable {σ : Type}

/-- The type that a walk stops before. -/
def hidden (e : Enumerator) (kind : MemberKind) : Option TypeId :=
  if kind = .field && e.options.hideRootFields then some e.host.root else none

/-- The types, of the first `n` of the chain, whose members a request is for. -/
def visited (e : Enumerator) (r : WalkRequest) (kind : MemberKind) (n : Nat) : List TypeId :=
  e.host.visited (r.flags.contains BindingFlags.declaredOnly) (e.hidden kind) n r.start

/-- What a walk does that no visitor stops. -/
def events (e : Enumerator) (r : WalkRequest) (kind : MemberKind) (n : Nat) : List WalkEvent :=
  (e.visited r kind n).flatMap (e.host.eventsAt r.flags kind)

theorem members_events (e : Enumerator) (r : WalkRequest) (kind : MemberKind) (n : Nat) :
    WalkEvent.members (e.events r kind n) =
      (e.visited r kind n).flatMap fun t =>
        (e.host.declared t kind).filter (BindingFlags.admits r.flags) := by
  unfold events
  induction e.visited r kind n with
  | nil => rfl
  | cons t ts ih => simp [Host.members_eventsAt, ih]

/-- A walk offers the members of its chain of types in order, up to the one that its visitor stops at,
and makes the calls that lead there. It ends when it is stopped or no type is left to visit. -/
theorem enumerate_follows_chain (e : Enumerator) {r : WalkRequest} {q : MemberQuery}
    {kind : MemberKind} (hq : MemberQuery.compile r.flags = .ok (some q))
    (hk : MemberKind.ofMemberType r.memberType = .ok kind)
    (visit : Visitor σ) (state : σ) (fuel : Nat) :
    let walk := e.enumerate r visit state fuel
    let types := e.visited r kind fuel
    let events := e.events r kind fuel
    walk.1.offered = visit.upTo state (types.flatMap fun t =>
        (e.host.declared t kind).filter (BindingFlags.admits r.flags)) ∧
      walk.1.calls = WalkEvent.calls (visit.through state events) ∧
      walk.1.state = walk.1.offered.foldl (fun s m => (visit s m).1) state ∧
      walk.2 = if visit.stops state events ∨ e.visited r kind (fuel + 1) = types then .finished
        else .unfinished := by
  obtain ⟨hd, ha⟩ := MemberQuery.compile_spec hq
  have hclimb := Walk.climb_eq e.host kind (e.hidden kind) visit hd ha fuel r.start (.start state)
  have hwalk : e.enumerate r visit state fuel =
      Walk.climb e.host q kind (e.hidden kind) visit fuel r.start (.start state) := by
    simp only [enumerate, hq, hk, hidden]
  simp only [hd] at hclimb
  intro walk types events
  have heq : walk = ((Walk.start state).extend visit (visit.through state events),
      if visit.stops state events ∨ e.visited r kind (fuel + 1) = types then .finished
      else .unfinished) := hwalk.trans hclimb
  rw [heq]
  refine ⟨?_, rfl, ?_, rfl⟩
  · show [] ++ WalkEvent.members (visit.through state events) = _
    rw [List.nil_append, Visitor.members_through, members_events]
  · show visit.after state (visit.through state events) = ([] ++ _ : List Member).foldl _ state
    rw [List.nil_append]
    rfl

/-- Three types whose chain of bases is a loop, each with a static and an instance method. -/
def loop : Enumerator where
  host :=
    { declared t kind := [⟨"a", kind, t, Modifiers.static⟩, ⟨"b", kind, t, Modifiers.isPrivate⟩]
      base t := some ((t + 1) % 3)
      root := 7 }
  options := .standard

/-- A walk up an endless chain that its visitor stops at the fourth member. -/
theorem enumerate_follows_chain_loop :
    MemberQuery.compile 0x14 = .ok (some ⟨Modifiers.static, 0, false⟩) ∧
      MemberKind.ofMemberType MemberTypes.method = .ok .method ∧
      (loop.enumerate ⟨0x14, 1, MemberTypes.method⟩ (fun n _ => (n + 1, n + 1 == 4)) 0 9).1.calls =
        [.declared 1 .method, .base 1, .declared 2 .method, .base 2, .declared 0 .method, .base 0,
          .declared 1 .method] := by
  have hq : MemberQuery.compile 0x14 = .ok (some ⟨Modifiers.static, 0, false⟩) := rfl
  have hk : MemberKind.ofMemberType MemberTypes.method = .ok .method := rfl
  have hwalk := enumerate_follows_chain loop (r := ⟨0x14, 1, MemberTypes.method⟩) hq hk
    (fun n _ => (n + 1, n + 1 == 4)) 0 9
  exact ⟨hq, hk, hwalk.2.1.trans (by decide)⟩

end Enumerator

end ManagedTypes
