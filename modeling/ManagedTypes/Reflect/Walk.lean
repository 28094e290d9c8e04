import ManagedTypes.Options.Basic
import ManagedTypes.Reflect.Member

/-! Walks up a chain of base types. A visitor with a state of its own is offered every matching
member and may stop the walk. A chain can be endless, so a walk is given a number of types that it
may visit, and says when that was not enough. -/
namespace ManagedTypes

/-- What the visitor makes of a member, and whether it stops. -/
abbrev Visitor (σ : Type) := σ → Member → σ × Bool

structure Walk (σ : Type) where
  state : σ
  offered : List Member
  calls : List HostCall

inductive WalkEnd
  | finished
  | unfinished
  | fault (f : Fault)
  deriving DecidableEq

namespace Walk
variable {σ : Type}

def start (state : σ) : Walk σ := ⟨state, [], []⟩

def called (w : Walk σ) (c : HostCall) : Walk σ := { w with calls := w.calls ++ [c] }

/-- Offers members in order, up to and including the one that the visitor stops at. -/
def offer (visit : Visitor σ) : Walk σ → List Member → Walk σ × Bool
  | w, [] => (w, false)
  | w, m :: rest =>
    let (state, stop) := visit w.state m
    let w := { w with state, offered := w.offered ++ [m] }
    if stop then (w, true) else offer visit w rest

/-- Visits a type and then its base types, before the hidden one if there is one. The walk is unfinished
where a type is left to visit. -/
def climb (h : Host) (q : MemberQuery) (kind : MemberKind) (hidden : Option TypeId)
    (visit : Visitor σ) (fuel : Nat) (t : TypeId) (w : Walk σ) : Walk σ × WalkEnd :=
  if hidden = some t then (w, .finished)
  else match fuel with
    | 0 => (w, .unfinished)
    | fuel + 1 =>
      let found := (h.declared t kind).filter fun m => q.accepts m.modifiers
      match (w.called (.declared t kind)).offer visit found with
      | (w, true) => (w, .finished)
      | (w, false) =>
        if q.declaredOnly then (w, .finished)
        else
          let w := w.called (.base t)
          match h.base t with
          | none => (w, .finished)
          | some b => climb h q kind hidden visit fuel b w

end Walk

/-- Where a walk starts and what it looks for. -/
structure WalkRequest where
  flags : Flags
  start : TypeId
  memberType : Flags
  deriving DecidableEq, Repr

structure Enumerator where
  host : Host
  options : EnumerationOptions

namespace Enumerator
variable {σ : Type}

/-- Flags are looked at before the member type, and the host only after both. -/
def enumerate (e : Enumerator) (r : WalkRequest) (visit : Visitor σ) (state : σ) (fuel : Nat) :
    Walk σ × WalkEnd :=
  match MemberQuery.compile r.flags with
  | .error f => (.start state, .fault f)
  | .ok none => (.start state, .finished)
  | .ok (some q) => match MemberKind.ofMemberType r.memberType with
    | .error f => (.start state, .fault f)
    | .ok kind =>
      let hidden := if kind = .field && e.options.hideRootFields then some e.host.root else none
      Walk.climb e.host q kind hidden visit fuel r.start (.start state)

/-- Every matching member. -/
def collect (e : Enumerator) (r : WalkRequest) (fuel : Nat) : Walk (List Member) × WalkEnd :=
  e.enumerate r (fun found m => (found ++ [m], false)) [] fuel

/-- The first matching member of a name. -/
def findFirst (e : Enumerator) (r : WalkRequest) (name : String) (fuel : Nat) :
    Walk (Option Member) × WalkEnd :=
  e.enumerate r (fun found m => if m.name = name then (some m, true) else (found, false)) none fuel

end Enumerator

/-- Stops after a number of members, at a name, or at a declaring type. -/
structure StopRule where
  after : Option Nat
  name : Option String
  declaring : Option TypeId
  deriving DecidableEq, Repr

namespace StopRule

/-- Counts the members that it is offered. -/
def visitor (r : StopRule) : Visitor Nat := fun count m =>
  (count + 1,
    r.after == some (count + 1) || r.name == some m.name || r.declaring == some m.declaring)

end StopRule

end ManagedTypes
