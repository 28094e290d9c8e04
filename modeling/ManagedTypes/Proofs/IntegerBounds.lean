import Mathlib.Tactic
import ManagedTypes.Toml.Document

/-! Documents have no integers from `2 ^ 63` on: no reader makes one, and nothing that puts values
together does. -/
namespace ManagedTypes.Toml

def Scalar.Bounded (s : Scalar) : Prop := ∀ v, s = .integer v → v ≤ 0x7FFFFFFFFFFFFFFF

/-- No integer in the value is too large. -/
inductive Node.Bounded : Node → Prop
  | scalar {s : Scalar} : s.Bounded → Bounded (.scalar s)
  | array {elements : List Node} : (∀ e ∈ elements, Bounded e) → Bounded (.array elements)
  | table {origin : Origin} {entries : List (String × Node)} :
    (∀ e ∈ entries, Bounded e.2) → Bounded (.table origin entries)
  | tables {elements : List (List (String × Node))} :
    (∀ entries ∈ elements, ∀ e ∈ entries, Bounded e.2) → Bounded (.tables elements)

namespace Entries

def Bounded (entries : Entries) : Prop := ∀ e ∈ entries, e.2.Bounded

theorem bounded_nil : Bounded [] := nofun

variable {entries : Entries} (h : entries.Bounded)
include h

theorem Bounded.concat (name : String) {node : Node} (hnode : node.Bounded) :
    Bounded (entries ++ [(name, node)]) := by
  intro e he
  rcases List.mem_append.mp he with he | he
  · exact h e he
  · rwa [List.mem_singleton.mp he]

theorem Bounded.put (name : String) {node : Node} (hnode : node.Bounded) :
    Bounded (put entries name node) := by
  intro e he
  obtain ⟨old, hold, rfl⟩ := List.mem_map.mp he
  dsimp only
  split
  · exact hnode
  · exact h old hold

theorem Bounded.find? {name : String} {node : Node} (hfind : find? entries name = some node) :
    node.Bounded := by
  obtain ⟨before, after, heq, -⟩ := List.lookup_eq_some_iff.mp hfind
  exact h (name, node) (by simp [heq])

end Entries

/-! ## Readers -/

def Yields {α : Type} (P : α → Prop) (read : Reader α) : Prop :=
  ∀ cs a rest, read cs = some (a, rest) → P a

theorem bounded_integerOf {v : ℤ} {s : Scalar} (h : integerOf v = some s) : s.Bounded := by
  unfold integerOf at h
  split at h
  next hrange =>
    cases h
    rintro w ⟨⟩
    exact hrange.2
  · cases h

theorem yields_readBased (base : ℕ) (isDigit : Char → Bool) :
    Yields Scalar.Bounded (readBased base isDigit) := by
  intro cs s rest h
  simp only [readBased, Option.bind_eq_bind, Option.bind_eq_some_iff] at h
  obtain ⟨⟨ds, tail⟩, -, t, hinteger, hs⟩ := h
  cases hs
  exact bounded_integerOf hinteger

theorem yields_readInteger : Yields Scalar.Bounded readInteger := by
  intro cs s rest h
  unfold readInteger at h
  split at h
  · exact yields_readBased _ _ _ _ _ h
  · exact yields_readBased _ _ _ _ _ h
  · exact yields_readBased _ _ _ _ _ h
  · simp only [Option.bind_eq_bind, Option.bind_eq_some_iff] at h
    obtain ⟨⟨ds, tail⟩, -, t, hinteger, hs⟩ := h
    cases hs
    exact bounded_integerOf hinteger

theorem yields_readSpecial : Yields Scalar.Bounded readSpecial := by
  intro cs s rest h
  unfold readSpecial at h
  split at h
  · cases h
    exact nofun
  · cases h
    exact nofun
  · cases h

theorem yields_readFloat : Yields Scalar.Bounded readFloat := by
  intro cs s rest h
  simp only [readFloat, Option.bind_eq_bind] at h
  split at h
  · exact yields_readSpecial _ _ _ h
  · split at h
    · cases h
    · split at h
      · cases h
      · cases h
        exact nofun

theorem yields_readMoment : Yields Scalar.Bounded readMoment := by
  intro cs s rest h
  unfold readMoment at h
  split at h
  · cases h
    exact nofun
  · simp only [Option.bind_eq_bind, Option.bind_eq_some_iff] at h
    obtain ⟨p, -, hs⟩ := h
    cases hs
    exact nofun

theorem yields_readNumber : Yields Scalar.Bounded readNumber := by
  intro cs s rest h
  unfold readNumber at h
  cases hmoment : readMoment cs with
  | some p =>
    rw [hmoment] at h
    cases h
    exact yields_readMoment _ _ _ hmoment
  | none =>
    cases hfloat : readFloat cs with
    | some p =>
      rw [hmoment, hfloat] at h
      cases h
      exact yields_readFloat _ _ _ hfloat
    | none =>
      rw [hmoment, hfloat] at h
      exact yields_readInteger _ _ _ h

theorem yields_readScalar : Yields Node.Bounded readScalar := by
  intro cs node rest h
  unfold readScalar at h
  split at h
  · cases h
  · split_ifs at h with hbasic hliteral hnumber
    · obtain ⟨p, -, hp⟩ := Option.map_eq_some_iff.mp h
      cases hp
      exact .scalar nofun
    · obtain ⟨p, -, hp⟩ := Option.map_eq_some_iff.mp h
      cases hp
      exact .scalar nofun
    · obtain ⟨p, hread, hp⟩ := Option.map_eq_some_iff.mp h
      cases hp
      exact .scalar (yields_readNumber _ _ _ hread)
    · split at h
      · cases h
        exact .scalar nofun
      · cases h
        exact .scalar nofun
      · obtain ⟨p, hread, hp⟩ := Option.map_eq_some_iff.mp h
        cases hp
        exact .scalar (yields_readSpecial _ _ _ hread)

section Nested
variable {value : Reader Node} (hvalue : Yields Node.Bounded value)
include hvalue

theorem yields_readElements (fuel : ℕ) :
    Yields (fun elements => ∀ e ∈ elements, e.Bounded) (readElements value fuel) := by
  induction fuel with
  | zero => exact nofun
  | succ fuel ih =>
    intro cs elements rest h
    unfold readElements at h
    split at h
    · cases h
      exact nofun
    · simp only [Option.bind_eq_bind, Option.bind_eq_some_iff] at h
      obtain ⟨⟨element, afterElement⟩, helement, h⟩ := h
      have hbounded := hvalue _ _ _ helement
      dsimp only at h
      split at h
      · simp only [Option.bind_eq_some_iff] at h
        obtain ⟨⟨more, afterMore⟩, hmore, h⟩ := h
        cases h
        exact List.forall_mem_cons.mpr ⟨hbounded, ih _ _ _ hmore⟩
      · cases h
        exact List.forall_mem_singleton.mpr hbounded
      · cases h

theorem yields_readPair : Yields (fun pair => pair.2.Bounded) (readPair value) := by
  intro cs pair rest h
  simp only [readPair, Option.bind_eq_bind, Option.bind_eq_some_iff] at h
  obtain ⟨⟨key, afterKey⟩, -, ⟨_, afterSign⟩, -, ⟨node, afterNode⟩, hnode, h⟩ := h
  cases h
  exact hvalue _ _ _ hnode

theorem yields_readPairs (fuel : ℕ) :
    Yields (fun pairs => ∀ p ∈ pairs, p.2.Bounded) (readPairs value fuel) := by
  induction fuel with
  | zero => exact nofun
  | succ fuel ih =>
    intro cs pairs rest h
    simp only [readPairs, Option.bind_eq_bind, Option.bind_eq_some_iff] at h
    obtain ⟨⟨pair, afterPair⟩, hpair, h⟩ := h
    have hbounded := yields_readPair hvalue _ _ _ hpair
    dsimp only at h
    split at h
    · simp only [Option.bind_eq_some_iff] at h
      obtain ⟨⟨more, afterMore⟩, hmore, h⟩ := h
      cases h
      exact List.forall_mem_cons.mpr ⟨hbounded, ih _ _ _ hmore⟩
    · cases h
      exact List.forall_mem_singleton.mpr hbounded
    · cases h

end Nested

/-! ## Trees -/

/-- A change of entries that brings in no integer that is too large. -/
def Keeps (change : Origin → Entries → Option Entries) : Prop :=
  ∀ origin entries changed, entries.Bounded → change origin entries = some changed → changed.Bounded

theorem Keeps.within {change : Origin → Entries → Option Entries} (h : Keeps change) (dotted : Bool)
    (path : List String) : Keeps (within dotted change path) := by
  induction path with
  | nil => exact h
  | cons name path ih =>
    intro origin entries changed hentries hchange
    unfold Toml.within at hchange
    split at hchange
    next hfind =>
      simp only [Option.bind_eq_bind, Option.bind_eq_some_iff] at hchange
      obtain ⟨inner, hinner, heq⟩ := hchange
      cases heq
      exact hentries.concat name (.table (ih _ _ _ Entries.bounded_nil hinner))
    next tableOrigin inner hfind =>
      dsimp only at hchange
      split at hchange
      · cases hchange
      · simp only [Option.bind_eq_bind, Option.bind_eq_some_iff] at hchange
        obtain ⟨extended, hinner, heq⟩ := hchange
        cases heq
        obtain ⟨-⟩ | ⟨-⟩ | ⟨htable⟩ := hentries.find? hfind
        exact hentries.put name (.table (ih _ _ _ htable hinner))
    next elements hfind =>
      simp only [Option.bind_eq_bind, Option.bind_eq_some_iff] at hchange
      obtain ⟨last, hlast, inner, hinner, heq⟩ := hchange
      cases heq
      obtain ⟨-⟩ | ⟨-⟩ | ⟨-⟩ | ⟨htables⟩ := hentries.find? hfind
      have hinnerBounded := ih _ _ _ (htables last (List.mem_of_getLast? hlast)) hinner
      refine hentries.put name (.tables fun table htable => ?_)
      rcases List.mem_append.mp htable with htable | htable
      · exact htables table (List.mem_of_mem_dropLast htable)
      · rwa [List.mem_singleton.mp htable]
    · cases hchange

theorem keeps_addEntry (key : Key) {value : Node} (hvalue : value.Bounded) :
    Keeps (addEntry key value) := by
  refine Keeps.within (fun origin entries changed hentries hchange => ?_) true key.parents
  split at hchange
  · cases hchange
  · cases hchange
    exact hentries.concat key.name hvalue

theorem keeps_openTable (key : Key) : Keeps (openTable key) := by
  refine Keeps.within (fun origin entries changed hentries hchange => ?_) false key.parents
  split at hchange
  · cases hchange
    exact hentries.concat key.name (.table Entries.bounded_nil)
  next inner hfind =>
    cases hchange
    obtain ⟨-⟩ | ⟨-⟩ | ⟨htable⟩ := hentries.find? hfind
    exact hentries.put key.name (.table htable)
  · cases hchange

theorem keeps_openElement (key : Key) : Keeps (openElement key) := by
  refine Keeps.within (fun origin entries changed hentries hchange => ?_) false key.parents
  split at hchange
  · cases hchange
    exact hentries.concat key.name (.tables (by simp))
  next elements hfind =>
    cases hchange
    obtain ⟨-⟩ | ⟨-⟩ | ⟨-⟩ | ⟨htables⟩ := hentries.find? hfind
    refine hentries.put key.name (.tables fun table htable => ?_)
    rcases List.mem_append.mp htable with htable | htable
    · exact htables table htable
    · rw [List.mem_singleton.mp htable]
      exact nofun
  · cases hchange

/-- What each step of a fold keeps, the fold keeps. -/
theorem of_foldlM {α β : Type} {P : β → Prop} {f : β → α → Option β} {xs : List α}
    (hstep : ∀ x ∈ xs, ∀ b c, P b → f b x = some c → P c) {a b : β} (ha : P a)
    (h : xs.foldlM f a = some b) : P b := by
  induction xs generalizing a with
  | nil =>
    cases h
    exact ha
  | cons x xs ih =>
    rw [List.foldlM_cons] at h
    obtain ⟨next, hnext, h⟩ := Option.bind_eq_some_iff.mp h
    exact ih (fun y hy => hstep y (List.mem_cons_of_mem x hy))
      (hstep x List.mem_cons_self a next ha hnext) h

theorem bounded_inlineEntries {pairs : List (Key × Node)} (hpairs : ∀ p ∈ pairs, p.2.Bounded)
    {entries : Entries} (h : inlineEntries pairs = some entries) : entries.Bounded :=
  of_foldlM (P := Entries.Bounded)
    (fun pair hpair _ _ hb hc => keeps_addEntry pair.1 (hpairs pair hpair) _ _ _ hb hc)
    Entries.bounded_nil h

theorem yields_readInlineTable {value : Reader Node} (hvalue : Yields Node.Bounded value) :
    Yields Node.Bounded (readInlineTable value) := by
  intro cs node rest h
  unfold readInlineTable at h
  split at h
  · obtain ⟨-, ⟨⟩, h⟩ := Option.bind_eq_some_iff.mp h
    obtain ⟨entries, hentries, h⟩ := Option.bind_eq_some_iff.mp h
    cases h
    exact .table (bounded_inlineEntries (List.forall_mem_nil _) hentries)
  · obtain ⟨⟨pairs, tail⟩, hpairs, h⟩ := Option.bind_eq_some_iff.mp h
    obtain ⟨entries, hentries, h⟩ := Option.bind_eq_some_iff.mp h
    cases h
    exact .table (bounded_inlineEntries (yields_readPairs hvalue _ _ _ _ hpairs) hentries)

theorem yields_readValue (depth : ℕ) : Yields Node.Bounded (readValue depth) := by
  induction depth with
  | zero => exact yields_readScalar
  | succ depth ih =>
    intro cs node rest h
    unfold readValue at h
    split at h
    · simp only [Option.bind_eq_bind, Option.bind_eq_some_iff] at h
      obtain ⟨⟨elements, tail⟩, helements, h⟩ := h
      cases h
      exact .array (yields_readElements ih _ _ _ _ helements)
    · exact yields_readInlineTable ih _ _ _ h
    · exact yields_readScalar _ _ _ h

/-! ## Documents -/

def Statement.Bounded : Statement → Prop
  | entry _ value => value.Bounded
  | _ => True

theorem yields_readStatement : Yields Statement.Bounded readStatement := by
  intro cs statement rest h
  unfold readStatement at h
  split at h
  all_goals simp only [Option.bind_eq_bind, Option.bind_eq_some_iff] at h
  · obtain ⟨_, _, _, _, _, _, _, ⟨⟩, _, _, h⟩ := h
    cases h
    trivial
  · obtain ⟨_, _, _, _, _, ⟨⟩, _, _, h⟩ := h
    cases h
    trivial
  · obtain ⟨⟨⟨key, node⟩, tail⟩, hpair, _, ⟨⟩, _, _, h⟩ := h
    cases h
    exact yields_readPair (yields_readValue (depthLimit - 1)) _ _ _ hpair

theorem bounded_readStatements {fuel : ℕ} {cs : List Char} {statements : List Statement}
    (h : readStatements fuel cs = some statements) : ∀ s ∈ statements, s.Bounded := by
  induction fuel generalizing cs statements with
  | zero => cases h
  | succ fuel ih =>
    unfold readStatements at h
    split at h
    · cases h
      exact nofun
    · split at h
      · exact ih h
      · simp only [Option.bind_eq_bind, Option.bind_eq_some_iff] at h
        obtain ⟨⟨s, tail⟩, hs, more, hmore, h⟩ := h
        cases h
        exact List.forall_mem_cons.mpr ⟨yields_readStatement _ _ _ hs, ih hmore⟩

theorem bounded_add {a b : Assembly} {s : Statement} (ha : a.root.Bounded) (hs : s.Bounded)
    (h : a.add s = some b) : b.root.Bounded := by
  cases s with
  | entry key value =>
    obtain ⟨root, hroot, hb⟩ := Option.bind_eq_some_iff.mp h
    cases hb
    exact (keeps_addEntry key hs).within false a.current _ _ _ ha hroot
  | table key =>
    obtain ⟨root, hroot, hb⟩ := Option.bind_eq_some_iff.mp h
    cases hb
    exact keeps_openTable key _ _ _ ha hroot
  | element key =>
    obtain ⟨root, hroot, hb⟩ := Option.bind_eq_some_iff.mp h
    cases hb
    exact keeps_openElement key _ _ _ ha hroot

theorem bounded_assemble {statements : List Statement} (hs : ∀ s ∈ statements, s.Bounded)
    {entries : Entries} (h : assemble statements = some entries) : entries.Bounded := by
  obtain ⟨a, ha, hentries⟩ := Option.map_eq_some_iff.mp h
  have hbounded := of_foldlM (P := fun a : Assembly => a.root.Bounded)
    (fun s hmem _ _ hb hc => bounded_add hb (hs s hmem) hc) Entries.bounded_nil ha
  exact hentries ▸ hbounded

theorem bounded_parse {text : String} {entries : Entries} (h : parse text = some entries) :
    entries.Bounded := by
  simp only [parse, Option.bind_eq_bind, Option.bind_eq_some_iff] at h
  obtain ⟨statements, hstatements, h⟩ := h
  exact bounded_assemble (bounded_readStatements hstatements) h

end ManagedTypes.Toml
