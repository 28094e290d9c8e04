import ManagedTypes.Proofs.SessionCoherence
import ManagedTypes.Proofs.SessionTrace

/-! The number formatter over whole runs. An installation or the first use fixes it, and every use is one
call to it. -/
namespace ManagedTypes

/-- The call that the plain text of a payload takes. -/
def Payload.plainCall? (p : Payload) : Option FormatterCall :=
  if p.type.format = .float then some (.canonical p) else none

namespace BoxText

/-- The call that a text of a payload takes: any format string but the empty one takes one, whatever
comes of it, and plain text takes one where the payload is a float. -/
def call? (p : Payload) : BoxText → Option FormatterCall
  | .format (some text) provider =>
    if text = "" then p.plainCall? else some (.format text provider p)
  | .display | .format none _ | .convert .text | .convert (.code .string) => p.plainCall?
  | .convert _ => none

/-- The answer that a text is given in. -/
def shown : BoxText → String → Answer
  | .convert _, text => .converted (.text text)
  | _, text => .text text

end BoxText

/-- What an installation that does not succeed is answered. -/
def Installation.refusal : Installation → Reply
  | .formatter .. | .slots _ => .answer (.truth false)
  | .options document => match Options.read document with
    | .ok _ => .optionsFault .formatterInstalled
    | .error fault => .optionsFault fault

theorem FormatterState.install_cases (s : FormatterState) (f : LiveFormatter) (recording : Bool) :
    (s.formatter = none ∧
      s.install f recording = ({ s with formatter := some f, recording }, true)) ∨
    (s.formatter ≠ none ∧ s.install f recording = (s, false)) := by
  unfold install
  cases h : s.formatter with
  | none => exact .inl ⟨rfl, rfl⟩
  | some g => exact .inr ⟨by simp, rfl⟩

namespace Payload
variable {p : Payload} (s : FormatterState)

theorem display_of_float (h : p.type.format = .float) :
    p.display s = ((s.call (.canonical p)).1, s.current.canonical p) := by
  obtain ⟨t, bits⟩ := p
  cases t <;> first | rfl | cases h

theorem display_of_not_float (h : p.type.format ≠ .float) : (p.display s).1 = s := by
  obtain ⟨t, bits⟩ := p
  cases t <;> first | rfl | exact absurd rfl h

theorem display_of_call {c : FormatterCall} (h : p.plainCall? = some c) :
    (p.display s).1 = (s.call c).1 ∧ (s.call c).2 = .ok (p.display s).2 := by
  unfold plainCall? at h
  split at h
  next hfloat =>
    obtain rfl := Option.some.inj h
    rw [display_of_float s hfloat]
    exact ⟨rfl, rfl⟩
  · cases h

theorem display_of_no_call (h : p.plainCall? = none) : (p.display s).1 = s := by
  refine display_of_not_float s fun hfloat => ?_
  rw [plainCall?, if_pos hfloat] at h
  cases h

theorem formatted_of_ne {text : String} (h : text ≠ "") (provider : Option NumberSymbols) :
    p.formatted (some text) provider s = s.call (.format text provider p) := by
  unfold formatted
  split
  · contradiction
  next heq => exact absurd (Option.some.inj heq) h
  next heq => rw [Option.some.inj heq]

end Payload

namespace Session
variable (s : Session) (b : Box)

/-- The texts that show what `Payload.display` gives. -/
theorem write_cases (t : BoxText) :
    (t.call? (b.get s.memory) = (b.get s.memory).plainCall? ∧
      s.write b t = ({ s with text := ((b.get s.memory).display s.text).1 },
        .answer (t.shown ((b.get s.memory).display s.text).2))) ∨
    (∃ c, t.call? (b.get s.memory) = some c ∧
      s.write b t = ({ s with text := (s.text.call c).1 }, .ofExcept t.shown (s.text.call c).2)) ∨
    (t.call? (b.get s.memory) = none ∧ (s.write b t).1 = s) := by
  cases t with
  | display => exact .inl ⟨rfl, rfl⟩
  | format text provider =>
    cases text with
    | none => exact .inl ⟨rfl, rfl⟩
    | some text =>
      by_cases hempty : text = ""
      · subst hempty
        exact .inl ⟨rfl, rfl⟩
      · refine .inr (.inl ⟨.format text provider (b.get s.memory), if_neg hempty, ?_⟩)
        rw [write, Payload.formatted_of_ne s.text hempty]
        rfl
  | convert target =>
    cases target with
    | text => exact .inl ⟨rfl, rfl⟩
    | code c =>
      cases c
      case string => exact .inl ⟨rfl, by simp only [write, Payload.convert, Payload.toCode_string]; rfl⟩
      all_goals exact .inr (.inr ⟨rfl, rfl⟩)
    | boolean | char | payload | dateTime => exact .inr (.inr ⟨rfl, rfl⟩)

variable {s b} {t : BoxText}

/-- A text that takes a call shows what the call answers. -/
theorem write_of_call {c : FormatterCall} (h : t.call? (b.get s.memory) = some c) :
    s.write b t = ({ s with text := (s.text.call c).1 }, .ofExcept t.shown (s.text.call c).2) := by
  rcases s.write_cases b t with ⟨hplain, hwrite⟩ | ⟨d, hcall, hwrite⟩ | ⟨hnone, -⟩
  · obtain ⟨hstate, hshown⟩ := Payload.display_of_call s.text (hplain ▸ h)
    rw [hwrite, hstate, hshown]
    rfl
  · rw [h] at hcall
    rw [hwrite, Option.some.inj hcall]
  · rw [h] at hnone
    cases hnone

theorem write_of_no_call (h : t.call? (b.get s.memory) = none) : (s.write b t).1 = s := by
  rcases s.write_cases b t with ⟨hplain, hwrite⟩ | ⟨d, hcall, -⟩ | ⟨-, hwrite⟩
  · rw [hwrite, Payload.display_of_no_call s.text (hplain ▸ h)]
  · rw [h] at hcall
    cases hcall
  · exact hwrite

end Session

namespace Event
variable (e : Event)

/-- The call to the formatter that the operation is to make. -/
def use? (e : Event) : Option FormatterCall :=
  match e.operation with
  | .text box t => e.before.boxes[box]?.bind fun b => t.call? (b.get e.before.memory)
  | _ => none

/-- The answer that a text is given in. -/
def shown (e : Event) : String → Answer :=
  match e.operation with
  | .text _ t => t.shown
  | _ => .text

/-- The formatter that an installation puts forward. Options that are malformed or invalid put forward
none. -/
def candidate? (e : Event) : Option LiveFormatter :=
  match e.operation with
  | .install (.formatter f _) => some f
  | .install (.options document) => match Options.read document with
    | .ok o => some (NumberFormatter.standard o.format)
    | .error _ => none
  | _ => none

/-- Whether the operation has installed a formatter. -/
def installs (e : Event) : Bool :=
  match e.operation, e.reply with
  | .install (.formatter ..), .answer (.truth done) => done
  | .install (.options _), .answer .unit => true
  | _, _ => false

/-- What an event does about the formatter: it uses it, installs it, tries to install one where there is
one already, or has nothing to do with it. -/
inductive Routing (e : Event) : Prop
  | use (c : FormatterCall) (use : e.use? = some c) (candidate : e.candidate? = none)
      (installs : e.installs = false) (text : e.after.text = (e.before.text.call c).1)
      (reply : e.reply = .ofExcept e.shown (e.before.text.call c).2)
  | install (f : LiveFormatter) (use : e.use? = none) (candidate : e.candidate? = some f)
      (installs : e.installs = true) (free : e.before.text.formatter = none)
      (formatter : e.after.text.formatter = some f) (calls : e.after.text.calls = e.before.text.calls)
  | refused (f : LiveFormatter) (use : e.use? = none) (candidate : e.candidate? = some f)
      (installs : e.installs = false) (taken : e.before.text.formatter ≠ none)
      (after : e.after = e.before)
  | idle (use : e.use? = none) (candidate : e.candidate? = none) (installs : e.installs = false)
      (formatter : e.after.text.formatter = e.before.text.formatter)
      (calls : e.after.text.calls = e.before.text.calls)

variable {s : Session}

theorem routing_text (box : ℕ) (t : BoxText) : Routing ⟨s, .text box t⟩ := by
  cases hbox : s.boxes[box]? with
  | none =>
    have hstep : s.step (.text box t) = (s, .illFormed) := by simp only [Session.step, Session.onBox, hbox]
    have huse : use? ⟨s, .text box t⟩ = none := by simp only [use?, hbox, Option.bind_none]
    exact .idle huse rfl rfl (by rw [after, hstep]) (by rw [after, hstep])
  | some b =>
    have hstep : s.step (.text box t) = s.write b t := by simp only [Session.step, Session.onBox, hbox]
    have huse : use? ⟨s, .text box t⟩ = t.call? (b.get s.memory) := by
      simp only [use?, hbox, Option.bind_some]
    cases hcall : t.call? (b.get s.memory) with
    | none =>
      have hwrite := Session.write_of_no_call hcall
      exact .idle (huse.trans hcall) rfl rfl (by rw [after, hstep, hwrite])
        (by rw [after, hstep, hwrite])
    | some c =>
      have hwrite := Session.write_of_call hcall
      exact .use c (huse.trans hcall) rfl rfl (by rw [after, hstep, hwrite])
        (by rw [reply, hstep, hwrite]; rfl)

/-- An installation of a formatter either succeeds or leaves the session as it is. -/
theorem install_cases {i : Installation} (hi : ∀ a, i ≠ .slots a) :
    (∃ f, candidate? ⟨s, .install i⟩ = some f ∧ installs ⟨s, .install i⟩ = true ∧
      s.text.formatter = none ∧ (s.step (.install i)).1.text.formatter = some f ∧
      (s.step (.install i)).1.text.calls = s.text.calls) ∨
    ((candidate? ⟨s, .install i⟩ = none ∨ s.text.formatter ≠ none) ∧
      installs ⟨s, .install i⟩ = false ∧ s.step (.install i) = (s, i.refusal)) := by
  cases i with
  | formatter f recording =>
    have hstep : s.step (.install (.formatter f recording)) =
        ({ s with text := (s.text.install f recording).1 },
          .answer (.truth (s.text.install f recording).2)) := rfl
    have hinstalls : installs ⟨s, .install (.formatter f recording)⟩ =
        (s.text.install f recording).2 := rfl
    rcases s.text.install_cases f recording with ⟨hfree, hinstall⟩ | ⟨htaken, hinstall⟩
    · rw [hinstall] at hstep hinstalls
      exact .inl ⟨f, rfl, hinstalls, hfree, by rw [hstep], by rw [hstep]⟩
    · rw [hinstall] at hstep hinstalls
      exact .inr ⟨.inr htaken, hinstalls, hstep⟩
  | options document =>
    cases hread : Options.read document with
    | error fault =>
      have hstep : s.step (.install (.options document)) = (s, .optionsFault fault) := by
        simp only [Session.step, Session.install, hread]
      refine .inr ⟨.inl ?_, ?_, ?_⟩
      · simp only [candidate?, hread]
      · simp only [installs, reply, hstep]
      · simp only [hstep, Installation.refusal, hread]
    | ok o =>
      have hcandidate : candidate? ⟨s, .install (.options document)⟩ =
          some (NumberFormatter.standard o.format : LiveFormatter) := by simp only [candidate?, hread]
      have hstep : s.step (.install (.options document)) =
          ({ s with text := (s.text.install (NumberFormatter.standard o.format) false).1 },
            if (s.text.install (NumberFormatter.standard o.format) false).2 then .answer .unit
            else .optionsFault .formatterInstalled) := by
        simp only [Session.step, Session.install, hread]
      rcases s.text.install_cases (NumberFormatter.standard o.format) false with
        ⟨hfree, hinstall⟩ | ⟨htaken, hinstall⟩
      · rw [hinstall] at hstep
        refine .inl ⟨_, hcandidate, ?_, hfree, by rw [hstep], by rw [hstep]⟩
        simp only [installs, reply, hstep, if_true]
      · rw [hinstall] at hstep
        refine .inr ⟨.inr htaken, ?_, ?_⟩
        · simp only [installs, reply, hstep, Bool.false_eq_true, if_false]
        · simp only [hstep, Installation.refusal, hread, Bool.false_eq_true, if_false]
  | slots a => exact absurd rfl (hi a)

theorem routing_install {i : Installation} (hi : ∀ a, i ≠ .slots a) : Routing ⟨s, .install i⟩ := by
  rcases install_cases (s := s) hi with
    ⟨f, hcandidate, hinstalls, hfree, hformatter, hcalls⟩ | ⟨hrefused, hinstalls, hstep⟩
  · exact .install f rfl hcandidate hinstalls hfree hformatter hcalls
  · have hafter : after ⟨s, .install i⟩ = s := congrArg Prod.fst hstep
    cases hcandidate : candidate? ⟨s, .install i⟩ with
    | none => exact .idle rfl hcandidate hinstalls (by rw [hafter]) (by rw [hafter])
    | some f =>
      have htaken := hrefused.resolve_left (by simp [hcandidate])
      exact .refused f rfl hcandidate hinstalls htaken hafter

/-- Each event does one of the four. -/
theorem routing (e : Event) : e.Routing := by
  obtain ⟨s, o⟩ := e
  have hidle {o : Operation} (huse : use? ⟨s, o⟩ = none) (hcandidate : candidate? ⟨s, o⟩ = none)
      (hinstalls : installs ⟨s, o⟩ = false) (htext : (s.step o).1.text = s.text) :
      Routing ⟨s, o⟩ :=
    .idle huse hcandidate hinstalls (congrArg FormatterState.formatter htext)
      (congrArg FormatterState.calls htext)
  cases o with
  | create c => exact hidle rfl rfl rfl (s.services_create c).text
  | array n o => exact hidle rfl rfl rfl (s.services_array n o).text
  | query n q => exact hidle rfl rfl rfl (s.services_query n q).text
  | update n u => exact hidle rfl rfl rfl (s.services_update n u).text
  | text n t => exact routing_text n t
  | volatile n v => exact hidle rfl rfl rfl (s.text_volatile n v)
  | install i =>
    by_cases hi : ∀ a, i ≠ .slots a
    · exact routing_install hi
    · obtain ⟨a, rfl⟩ : ∃ a, i = .slots a := by simpa using hi
      exact hidle rfl rfl rfl rfl
  | formatterLog => exact .idle rfl rfl rfl rfl rfl
  | slotCalls => exact hidle rfl rfl rfl rfl

/-- The formatter that is in force from the event on, where none was before. -/
def fixes? (e : Event) : Option LiveFormatter :=
  if e.installs then e.candidate? else e.use?.map fun _ => NumberFormatter.standard .invariant

theorem fixes?_eq_none_iff (e : Event) : e.fixes? = none ↔ e.installs = false ∧ e.use? = none := by
  cases e.routing with
  | use c huse hcandidate hinstalls | refused c huse hcandidate hinstalls
  | idle huse hcandidate hinstalls => simp [fixes?, huse, hinstalls]
  | install f huse hcandidate hinstalls => simp [fixes?, hcandidate, hinstalls]

/-- The formatter in force stays in force. -/
theorem formatter_after (e : Event) :
    e.after.text.formatter = e.before.text.formatter.or e.fixes? := by
  cases e.routing with
  | use c huse hcandidate hinstalls htext hreply =>
    rw [htext]
    cases hbefore : e.before.text.formatter with
    | none => simp [FormatterState.call, FormatterState.inForce, fixes?, huse, hinstalls, hbefore]
    | some f => simp [FormatterState.call, FormatterState.inForce, hbefore]
  | install f huse hcandidate hinstalls hfree hformatter hcalls =>
    simp [hformatter, hfree, fixes?, hinstalls, hcandidate]
  | refused f huse hcandidate hinstalls htaken hafter =>
    rw [hafter]
    obtain ⟨g, hg⟩ := Option.ne_none_iff_exists'.mp htaken
    rw [hg, Option.some_or]
  | idle huse hcandidate hinstalls hformatter hcalls =>
    rw [hformatter, e.fixes?_eq_none_iff.mpr ⟨hinstalls, huse⟩, Option.or_none]

theorem calls_after (e : Event) :
    e.after.text.calls = e.before.text.calls ++ e.use?.toList := by
  cases e.routing with
  | use c huse hcandidate hinstalls htext hreply => rw [htext, huse]; rfl
  | install f huse hcandidate hinstalls hfree hformatter hcalls => simp [hcalls, huse]
  | refused f huse hcandidate hinstalls htaken hafter => simp [hafter, huse]
  | idle huse hcandidate hinstalls hformatter hcalls => simp [hcalls, huse]

end Event

namespace Session
variable (os : List Operation)

/-- The first installation that succeeds, or the first use, decides. -/
theorem formatter_run :
    (initial.run os).1.text.formatter = (initial.trace os).findSome? Event.fixes? := by
  refine run_induction initial (motive := fun es s => s.text.formatter = es.findSome? Event.fixes?) rfl
    (fun es e ih => ?_) os
  rw [e.formatter_after, ih, List.findSome?_append, List.findSome?_singleton]

/-- The calls are those of the uses, one each. -/
theorem formatterCalls_run :
    (initial.run os).1.text.calls = (initial.trace os).filterMap Event.use? := by
  refine run_induction initial (motive := fun es s => s.text.calls = es.filterMap Event.use?) rfl
    (fun es e ih => ?_) os
  rw [e.calls_after, ih, List.filterMap_append]
  cases huse : e.use? <;> simp [huse]

/-- The number formatter in every run of operations, of whatever kind and in whatever order. The one that
a use meets was fixed by the first installation that succeeded or is the invariant standard one, and the
use is a single call to it. -/
theorem formatter_fixed_once (os : List Operation) (o : Operation) :
    let past := initial.trace os
    let e : Event := ⟨(initial.run os).1, o⟩
    let fixed : LiveFormatter :=
      (past.findSome? Event.fixes?).getD (NumberFormatter.standard .invariant)
    (e.installs = true ↔
      e.candidate?.isSome = true ∧ ∀ d ∈ past, d.installs = false ∧ d.use? = none) ∧
    (∀ i, o = .install i → (∀ a, i ≠ .slots a) → e.installs = false →
      e.use? = none ∧ e.after = e.before ∧ e.reply = i.refusal) ∧
    e.before.text.calls = past.filterMap Event.use? ∧
    (∀ c, e.use? = some c →
      e.after.text.calls = e.before.text.calls ++ [c] ∧
        e.reply = .ofExcept e.shown ((fixed.after e.before.text.calls).answer c)) ∧
    (e.use? = none → e.after.text.calls = e.before.text.calls) := by
  intro past e fixed
  have hformatter : e.before.text.formatter = past.findSome? Event.fixes? := formatter_run os
  have hfree : e.before.text.formatter = none ↔ ∀ d ∈ past, d.installs = false ∧ d.use? = none := by
    rw [hformatter, List.findSome?_eq_none_iff]
    exact forall₂_congr fun d _ => d.fixes?_eq_none_iff
  refine ⟨?_, ?_, formatterCalls_run os, fun c huse => ?_, fun huse => ?_⟩
  · rw [← hfree]
    cases e.routing with
    | use c huse hcandidate hinstalls | idle huse hcandidate hinstalls =>
      simp [hcandidate, hinstalls]
    | install f huse hcandidate hinstalls hbefore => simp [hcandidate, hinstalls, hbefore]
    | refused f huse hcandidate hinstalls htaken => simp [hinstalls, htaken]
  · rintro i rfl hi hinstalls
    rcases Event.install_cases (s := (initial.run os).1) hi with
      ⟨f, -, hdone, -⟩ | ⟨-, -, hstep⟩
    · exact absurd (hdone.symm.trans hinstalls) (by decide)
    · exact ⟨rfl, congrArg Prod.fst hstep, congrArg Prod.snd hstep⟩
  · have hfixed : e.before.text.inForce = fixed := by
      rw [FormatterState.inForce, hformatter]
    cases e.routing with
    | use d hd hcandidate hinstalls htext hreply =>
      obtain rfl := Option.some.inj (hd.symm.trans huse)
      refine ⟨by rw [htext]; rfl, ?_⟩
      rw [hreply, ← hfixed]
      rfl
    | install f hnone | refused f hnone | idle hnone =>
      rw [huse] at hnone
      cases hnone
  · rw [e.calls_after, huse, Option.toList_none, List.append_nil]

/-- Showing a float fixes the formatter. -/
example : ((initial.run [.create (.box (.zero .single)), .text 0 .display]).1.step
    (.install (.formatter (NumberFormatter.standard .invariant) false))).2 = .answer (.truth false) := rfl

end Session

end ManagedTypes
