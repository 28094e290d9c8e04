import Mathlib.Tactic
import ManagedTypes.Toml.Quoted

/-! Quoted text reads back as the text it was written for, in each of the forms that writing chooses
from. -/
namespace ManagedTypes.Toml

@[simp] theorem push_some (c : Char) (text rest : List Char) :
    push c (some (text, rest)) = some (c :: text, rest) := rfl

/-! ## Escapes -/

theorem scalar?_toNat (c : Char) : scalar? c.toNat = some c := by
  have hvalid : c.toNat.isValidChar := c.valid
  rw [scalar?, dif_pos hvalid]
  rfl

theorem hexValue?_upperChar {d : ℕ} (h : d < 16) : hexValue? (Numeral.upperChar d) = some d := by
  have hall : ∀ d < 16, hexValue? (Numeral.upperChar d) = some d := by decide
  exact hall d h

theorem ne_of_isPlain {c : Char} (h : isPlain c = true) : c ≠ '\n' ∧ c ≠ '\r' := by
  constructor <;> rintro rfl <;> simp [isPlain] at h

theorem isPlain_of_not_needsEscape {c : Char} (h : needsEscape c = false) (hline : c ≠ '\n') :
    isPlain c = true := by
  unfold needsEscape at h
  unfold isPlain
  by_cases htab : c = '\t'
  · simp [htab]
  · simp [hline, htab] at h ⊢
    omega

/-- A control character's number has two digits after two zeros. -/
theorem hexEscape_eq {c : Char} (h : needsEscape c = true) :
    ∃ high low, high < 16 ∧ low < 16 ∧ high * 16 + low = c.toNat ∧
      hexEscape c = ['\\', 'u', '0', '0', Numeral.upperChar high, Numeral.upperChar low] := by
  have hlt : c.toNat < 128 := by
    simp only [needsEscape, Bool.and_eq_true, Bool.or_eq_true, decide_eq_true_eq, beq_iff_eq] at h
    omega
  refine ⟨c.toNat / 16, c.toNat % 16, by omega, by omega, by omega, ?_⟩
  unfold hexEscape
  by_cases hone : c.toNat < 16
  · rw [Numeral.digits_of_lt hone, Nat.div_eq_of_lt hone, Nat.mod_eq_of_lt hone]
    rfl
  · rw [Numeral.digits_of_le (by norm_num) (by omega), Numeral.digits_of_lt (by omega)]
    rfl

/-- A reader of text between quotation marks, as far as both extents read characters alike. -/
structure ReadsEscapes (read : Mode → Reader (List Char)) : Prop where
  plain {c : Char} (rest : List Char) : isPlain c = true → c ≠ basic.mark → c ≠ '\\' →
    read .plain (c :: rest) = push c (read .plain rest)
  simple {c e : Char} (rest : List Char) : simpleEscape? c = some e →
    read .plain ('\\' :: c :: rest) = push e (read .plain rest)
  number (rest : List Char) : read .plain ('\\' :: 'u' :: rest) = read (.hex 4 0) rest
  digit {c : Char} {d left value : ℕ} (rest : List Char) : hexValue? c = some d → 1 < left →
    read (.hex left value) (c :: rest) = read (.hex (left - 1) (value * 16 + d)) rest
  lastDigit {c e : Char} {d value : ℕ} (rest : List Char) : hexValue? c = some d →
    scalar? (value * 16 + d) = some e →
    read (.hex 1 value) (c :: rest) = push e (read .plain rest)

theorem readsEscapes_readLine : ReadsEscapes (readLine basic) where
  plain rest hplain hmark hback := by simp [readLine, hmark, hback, hplain]
  simple rest he := by simp [readLine, basic, he]
  number rest := by simp [readLine, basic, simpleEscape?]
  digit rest hd hleft := by simp [readLine, hd, hleft.not_ge]
  lastDigit rest hd he := by simp [readLine, hd, he]

theorem readsEscapes_readLines : ReadsEscapes (readLines basic) where
  plain rest hplain hmark hback := by simp [readLines, hmark, hback, hplain, (ne_of_isPlain hplain).2]
  simple rest he := by simp [readLines, basic, he]
  number rest := by simp [readLines, basic, simpleEscape?]
  digit rest hd hleft := by simp [readLines, hd, hleft.not_ge]
  lastDigit rest hd he := by simp [readLines, hd, he]

theorem ReadsEscapes.hexEscape {read : Mode → Reader (List Char)} (h : ReadsEscapes read) {c : Char}
    (hc : needsEscape c = true) (rest : List Char) :
    read .plain (hexEscape c ++ rest) = push c (read .plain rest) := by
  obtain ⟨high, low, hhigh, hlow, hvalue, heq⟩ := hexEscape_eq hc
  have hzero : hexValue? '0' = some 0 := rfl
  simp only [heq, List.cons_append, List.nil_append]
  rw [h.number, h.digit _ hzero (by norm_num), h.digit _ hzero (by norm_num),
    h.digit _ (hexValue?_upperChar hhigh) (by norm_num),
    h.lastDigit (e := c) _ (hexValue?_upperChar hlow) (by simpa [hvalue] using scalar?_toNat c)]

theorem ReadsEscapes.escaped {read : Mode → Reader (List Char)} (h : ReadsEscapes read) {c : Char}
    (hline : c ≠ '\n') (hmark : c ≠ basic.mark) (rest : List Char) :
    read .plain (escaped c ++ rest) = push c (read .plain rest) := by
  unfold Toml.escaped
  split
  iterate 5 exact h.simple rest rfl
  next hback =>
    split
    next hc => exact h.hexEscape hc rest
    next hc =>
      have hplain := isPlain_of_not_needsEscape (by simpa using hc) hline
      exact h.plain rest hplain hmark hback

/-- What an escaped character begins with is neither a mark nor part of a line end. -/
theorem head_escaped {c : Char} (hline : c ≠ '\n') (hmark : c ≠ basic.mark) :
    ∃ d tail, escaped c = d :: tail ∧ d ≠ basic.mark ∧ d ≠ '\n' ∧ d ≠ '\r' := by
  unfold escaped
  split
  iterate 5 exact ⟨_, _, rfl, by decide, by decide, by decide⟩
  next hreturn _ =>
    split
    · exact ⟨_, _, rfl, by decide, by decide, by decide⟩
    · exact ⟨c, [], rfl, hmark, hline, hreturn⟩

/-! ## Text of one line -/

theorem readLine_close (q : Quote) (rest : List Char) :
    readLine q .plain (q.mark :: rest) = some ([], rest) := by
  simp [readLine]

theorem readLine_basic (text rest : List Char) :
    readLine basic .plain (text.flatMap escapedLine ++ basic.mark :: rest) = some (text, rest) := by
  induction text with
  | nil => exact readLine_close basic rest
  | cons c text ih =>
    have hc : ∀ tail, readLine basic .plain (escapedLine c ++ tail) =
        push c (readLine basic .plain tail) := by
      intro tail
      unfold escapedLine
      split_ifs with hline hmark
      · rw [hline]
        exact readsEscapes_readLine.simple tail rfl
      · rw [hmark]
        exact readsEscapes_readLine.simple tail rfl
      · exact readsEscapes_readLine.escaped hline hmark tail
    rw [List.flatMap_cons, List.append_assoc, hc, ih, push_some]

theorem readLine_literal {text : List Char} (h : ∀ c ∈ text, isPlain c = true ∧ c ≠ literal.mark)
    (rest : List Char) :
    readLine literal .plain (text ++ literal.mark :: rest) = some (text, rest) := by
  induction text with
  | nil => exact readLine_close literal rest
  | cons c text ih =>
    obtain ⟨hplain, hmark⟩ := h c List.mem_cons_self
    have hc : readLine literal .plain (c :: (text ++ literal.mark :: rest)) =
        push c (readLine literal .plain (text ++ literal.mark :: rest)) := by
      simp [readLine, hmark, hplain, show literal.escapes = false from rfl]
    rw [List.cons_append, hc, ih fun d hd => h d (List.mem_cons_of_mem c hd), push_some]

theorem readQuoted_line (q : Quote) {body rest : List Char} (hbody : body.head? ≠ some q.mark)
    (hrest : rest.head? ≠ some q.mark) :
    readQuoted q (q.mark :: (body ++ q.mark :: rest)) = readLine q .plain (body ++ q.mark :: rest) := by
  match body, rest with
  | [], [] => simp [readQuoted, readQuotedLine]
  | [], c :: rest =>
    have hc : c ≠ q.mark := by simpa using hrest
    simp [readQuoted, readQuotedLine, hc]
  | [b], rest =>
    have hb : b ≠ q.mark := by simpa using hbody
    simp [readQuoted, readQuotedLine, hb]
  | b :: c :: body, rest =>
    have hb : b ≠ q.mark := by simpa using hbody
    simp [readQuoted, readQuotedLine, hb]

/-! ## Text of several lines -/

/-- How text may be written between three marks on either side: marks in runs of at most two, `run` of
them standing before, and other characters in any way that reads back and does not begin with a mark. -/
inductive Written (q : Quote) : ℕ → List Char → List Char → Prop
  | nil (run : ℕ) : Written q run [] []
  | mark {run : ℕ} {text body : List Char} : run < 2 → Written q (run + 1) text body →
      Written q run (q.mark :: text) (q.mark :: body)
  | char {run : ℕ} {c : Char} {text body : List Char} (piece : List Char) : piece ≠ [] →
      piece.head? ≠ some q.mark →
      (∀ rest, readLines q .plain (piece ++ rest) = push c (readLines q .plain rest)) →
      Written q 0 text body → Written q run (c :: text) (piece ++ body)

section Lines
variable {q : Quote} {rest : List Char}

theorem takeWhile_marks (hrest : rest.head? ≠ some q.mark) (n : ℕ) :
    (List.replicate n q.mark ++ rest).takeWhile (· == q.mark) = List.replicate n q.mark := by
  have hnone : rest.takeWhile (· == q.mark) = [] := by
    cases rest with
    | nil => rfl
    | cons c rest => simp_all
  rw [List.takeWhile_append_of_pos (by simp), hnone, List.append_nil]

variable (hreturn : q.mark ≠ '\r')
include hreturn

theorem readLines_mark :
    readLines q .plain (q.mark :: rest) =
      if 1 + (rest.takeWhile (· == q.mark)).length < 3 then push q.mark (readLines q .plain rest)
      else
        let extra := min (1 + (rest.takeWhile (· == q.mark)).length - 3) 2
        some (List.replicate extra q.mark, rest.drop (2 + extra)) := by
  simp [readLines, hreturn]

/-- Fewer than three marks belong to the text. -/
theorem readLines_marks {run : ℕ} (hrun : run ≤ 2) (hrest : rest.head? ≠ some q.mark)
    {text tail : List Char} (h : readLines q .plain rest = some (text, tail)) :
    readLines q .plain (List.replicate run q.mark ++ rest) =
      some (List.replicate run q.mark ++ text, tail) := by
  induction run with
  | zero => exact h
  | succ run ih =>
    rw [List.replicate_succ, List.cons_append, readLines_mark hreturn, takeWhile_marks hrest,
      List.length_replicate, if_pos (by omega), ih (by omega), push_some, List.cons_append]

/-- The last three of a run of marks close the text. -/
theorem readLines_close {run : ℕ} (hrun : run ≤ 2) (hrest : rest.head? ≠ some q.mark) :
    readLines q .plain (List.replicate (run + 3) q.mark ++ rest) =
      some (List.replicate run q.mark, rest) := by
  have hextra : min (1 + (run + 2) - 3) 2 = run := by omega
  have hdrop : (List.replicate (run + 2) q.mark ++ rest).drop (2 + run) = rest :=
    List.drop_left' (by rw [List.length_replicate, Nat.add_comm])
  rw [List.replicate_succ, List.cons_append, readLines_mark hreturn, takeWhile_marks hrest,
    List.length_replicate, if_neg (by omega)]
  simp only [hextra, hdrop]

/-- Marks are held back until it is seen whether three of them close the text. -/
theorem Written.read {run : ℕ} {text body : List Char} (h : Written q run text body)
    (hrun : run ≤ 2) (hrest : rest.head? ≠ some q.mark) :
    readLines q .plain (List.replicate run q.mark ++ (body ++ (List.replicate 3 q.mark ++ rest))) =
      some (List.replicate run q.mark ++ text, rest) := by
  induction h with
  | nil run =>
    rw [List.nil_append, ← List.append_assoc, ← List.replicate_add, List.append_nil]
    exact readLines_close hreturn hrun hrest
  | mark hlt _ ih =>
    simpa [List.replicate_succ', List.append_assoc] using ih hlt
  | char piece hne hhead hread _ ih =>
    -- What follows the run is no mark, so the run closes nothing.
    have htail := ih (Nat.zero_le 2)
    rw [List.replicate_zero, List.nil_append] at htail
    refine readLines_marks hreturn hrun ?_ ?_
    · rwa [List.append_assoc, List.head?_append_of_ne_nil _ hne]
    · rw [List.append_assoc, hread, htail, List.nil_append, push_some]

end Lines

/-- A line feed, like a plain character without a meaning of its own, stands for itself. -/
theorem readLines_self {q : Quote} {c : Char} (h : c = '\n' ∨ isPlain c = true) (hmark : c ≠ q.mark)
    (hback : q.escapes = false ∨ c ≠ '\\') (rest : List Char) :
    readLines q .plain (c :: rest) = push c (readLines q .plain rest) := by
  rcases h with rfl | hplain
  · simp [readLines, hmark]
  · have hreturn := (ne_of_isPlain hplain).2
    rcases hback with hback | hback <;> simp [readLines, hmark, hback, hplain, hreturn]

theorem written_escapedLines (text : List Char) (run : ℕ) (hrun : run ≤ 2) :
    Written basic run text (escapedLines run text) := by
  induction text generalizing run with
  | nil => exact .nil run
  | cons c text ih =>
    have hnext := ih 0 (Nat.zero_le 2)
    unfold escapedLines
    split_ifs with hline hmark htwo
    · exact .char [c] (by simp) (by simp [hline, basic])
        (readLines_self (.inl hline) (by simp [hline, basic]) (.inr (by simp [hline]))) hnext
    · exact .char ['\\', c] (by simp) (by simp [basic])
        (fun rest => readsEscapes_readLines.simple rest (by rw [hmark]; rfl)) hnext
    · rw [hmark]
      exact .mark (by omega) (ih (run + 1) (by omega))
    · obtain ⟨d, tail, heq, hd, -, -⟩ := head_escaped hline hmark
      have hread := readsEscapes_readLines.escaped hline hmark
      rw [heq] at hread ⊢
      exact .char (d :: tail) (by simp) (by simpa using hd) hread hnext

theorem le_longestRun (mark : Char) (run : ℕ) (text : List Char) :
    run ≤ longestRun mark run text := by
  induction text generalizing run with
  | nil => exact le_rfl
  | cons c text ih =>
    unfold longestRun
    split
    · exact (Nat.le_succ run).trans (ih (run + 1))
    · exact Nat.le_max_left _ _

theorem written_literal {text : List Char} {run : ℕ}
    (h : ∀ c ∈ text, c = '\n' ∨ isPlain c = true) (hrun : longestRun literal.mark run text ≤ 2) :
    Written literal run text text := by
  induction text generalizing run with
  | nil => exact .nil run
  | cons c text ih =>
    have hrest : ∀ d ∈ text, d = '\n' ∨ isPlain d = true := fun d hd => h d (List.mem_cons_of_mem c hd)
    unfold longestRun at hrun
    split at hrun
    next hmark =>
      subst hmark
      have hle := le_longestRun literal.mark (run + 1) text
      exact .mark (by omega) (ih hrest hrun)
    next hmark =>
      exact .char [c] (by simp) (by simpa using hmark)
        (readLines_self (h c List.mem_cons_self) hmark (.inl rfl)) (ih hrest (by omega))

/-! ## The choice of a form -/

theorem ne_of_longestRun_eq_zero {mark : Char} {text : List Char} (h : longestRun mark 0 text = 0) :
    ∀ c ∈ text, c ≠ mark := by
  induction text with
  | nil => exact nofun
  | cons c text ih =>
    unfold longestRun at h
    split at h
    · have hle := le_longestRun mark (0 + 1) text
      omega
    next hmark =>
      intro d hd
      rcases List.mem_cons.mp hd with rfl | hd
      · exact hmark
      · exact ih (by omega) d hd

/-- Between quotation marks any text can be written. -/
theorem chooseForm_cases (text : List Char) :
    chooseForm text = .line basic ∨ chooseForm text = .lines basic ∨
    (chooseForm text = .line literal ∧ ∀ c ∈ text, isPlain c = true ∧ c ≠ literal.mark) ∨
    (chooseForm text = .lines literal ∧ (∀ c ∈ text, c = '\n' ∨ isPlain c = true) ∧
      longestRun literal.mark 0 text ≤ 2) := by
  have hplain (h : text.any needsEscape = false) : ∀ c ∈ text, c = '\n' ∨ isPlain c = true := by
    intro c hc
    by_cases hline : c = '\n'
    · exact .inl hline
    · exact .inr (isPlain_of_not_needsEscape (by simpa using List.any_eq_false.mp h c hc) hline)
  unfold chooseForm
  dsimp only
  split_ifs with _ hline _ hlines
  · exact .inl rfl
  · simp only [Bool.and_eq_true, Bool.not_eq_true', beq_iff_eq] at hline
    obtain ⟨⟨hcontrol, hfeed⟩, hmarks⟩ := hline
    refine .inr (.inr (.inl ⟨rfl, fun c hc => ⟨?_, ne_of_longestRun_eq_zero hmarks c hc⟩⟩))
    rcases hplain hcontrol c hc with rfl | h
    · simp [hc] at hfeed
    · exact h
  · exact .inr (.inl rfl)
  · simp only [Bool.and_eq_true, Bool.not_eq_true', decide_eq_true_eq] at hlines
    exact .inr (.inr (.inr ⟨rfl, hplain hlines.1, hlines.2⟩))
  · exact .inr (.inl rfl)
  · exact .inl rfl

theorem skipNewline_eq_self {cs : List Char} (hfeed : cs.head? ≠ some '\n')
    (hreturn : cs.head? ≠ some '\r') : skipNewline cs = cs := by
  unfold skipNewline newline?
  split <;> simp_all

/-- A line end that belongs to the text is not the one dropped after the opening marks. -/
theorem readQuoted_lines {q : Quote} (hq : q = basic ∨ q = literal) {text body rest : List Char}
    (h : Written q 0 text body)
    (hhead : text.contains '\n' = false → ∀ d, body.head? = some d → d ≠ '\n' ∧ d ≠ '\r')
    (hrest : rest.head? ≠ some q.mark) :
    readQuoted q (List.replicate 3 q.mark ++
      ((if text.contains '\n' then ['\n'] else []) ++ (body ++ (List.replicate 3 q.mark ++ rest)))) =
      some (text, rest) := by
  obtain ⟨hfeed, hreturn⟩ : q.mark ≠ '\n' ∧ q.mark ≠ '\r' := by
    rcases hq with rfl | rfl <;> decide
  have hopen : ∀ cs, readQuoted q (List.replicate 3 q.mark ++ cs) =
      readLines q .plain (skipNewline cs) := by
    intro cs
    simp [List.replicate, readQuoted]
  rw [hopen]
  have hread := h.read hreturn (Nat.zero_le 2) hrest
  rw [List.replicate_zero, List.nil_append, List.nil_append] at hread
  cases hline : text.contains '\n' with
  | true => exact hread
  | false =>
    have hclosed : ∀ c, (body ++ (List.replicate 3 q.mark ++ rest)).head? = some c →
        c ≠ '\n' ∧ c ≠ '\r' := by
      cases body with
      | nil => rintro c ⟨⟩; exact ⟨hfeed, hreturn⟩
      | cons d body => exact hhead hline
    rw [if_neg (by simp), List.nil_append, skipNewline_eq_self, hread]
    · exact fun h => (hclosed _ h).1 rfl
    · exact fun h => (hclosed _ h).2 rfl

theorem head_escapedLines {text : List Char} (h : text.contains '\n' = false) :
    ∀ d, (escapedLines 0 text).head? = some d → d ≠ '\n' ∧ d ≠ '\r' := by
  cases text with
  | nil => exact nofun
  | cons c text =>
    have hline : c ≠ '\n' := by
      rintro rfl
      simp at h
    intro d hd
    rw [escapedLines, if_neg hline] at hd
    by_cases hmark : c = basic.mark
    · rw [if_pos hmark, if_neg (by norm_num)] at hd
      cases hd
      rw [hmark]
      decide
    · obtain ⟨e, tail, heq, -, hfeed, hreturn⟩ := head_escaped hline hmark
      rw [if_neg hmark, heq] at hd
      cases hd
      exact ⟨hfeed, hreturn⟩

theorem head_escapedLine (text : List Char) :
    (text.flatMap escapedLine).head? ≠ some basic.mark := by
  cases text with
  | nil => simp
  | cons c text =>
    rw [List.flatMap_cons]
    unfold escapedLine
    split_ifs with hline hmark
    · simp [basic]
    · simp [basic]
    · obtain ⟨d, tail, heq, hd, -, -⟩ := head_escaped hline hmark
      simpa [heq] using hd

/-- Whatever is written reads back, before anything that is not a mark. -/
theorem readQuoted_writeQuoted (text : List Char) :
    ∃ q tail, (q = basic ∨ q = literal) ∧ writeQuoted text = q.mark :: tail ∧
      ∀ rest, rest.head? ≠ some q.mark →
        readQuoted q (writeQuoted text ++ rest) = some (text, rest) := by
  rcases chooseForm_cases text with h | h | ⟨h, htext⟩ | ⟨h, htext, hruns⟩
  · refine ⟨basic, _, .inl rfl, by rw [writeQuoted, h]; rfl, fun rest hrest => ?_⟩
    have hread := (readQuoted_line basic (head_escapedLine text) hrest).trans (readLine_basic text rest)
    simpa [writeQuoted, h, show basic.escapes = true from rfl] using hread
  · refine ⟨basic, _, .inl rfl, by rw [writeQuoted, h]; rfl, fun rest hrest => ?_⟩
    have hread := readQuoted_lines (.inl rfl) (written_escapedLines text 0 (Nat.zero_le 2))
      head_escapedLines hrest
    simpa [writeQuoted, h, show basic.escapes = true from rfl] using hread
  · refine ⟨literal, _, .inr rfl, by rw [writeQuoted, h]; rfl, fun rest hrest => ?_⟩
    have hhead : text.head? ≠ some literal.mark :=
      fun hmark => (htext _ (List.mem_of_head? hmark)).2 rfl
    have hread := (readQuoted_line literal hhead hrest).trans (readLine_literal htext rest)
    simpa [writeQuoted, h, show literal.escapes = false from rfl] using hread
  · refine ⟨literal, _, .inr rfl, by rw [writeQuoted, h]; rfl, fun rest hrest => ?_⟩
    have hhead (hfeed : text.contains '\n' = false) (d : Char) (hd : text.head? = some d) :
        d ≠ '\n' ∧ d ≠ '\r' := by
      have hmem := List.mem_of_head? hd
      rcases htext d hmem with rfl | hplain
      · simp [hmem] at hfeed
      · exact ne_of_isPlain hplain
    have hread := readQuoted_lines (.inr rfl) (written_literal htext hruns) hhead hrest
    simpa [writeQuoted, h, show literal.escapes = false from rfl] using hread

-- Apostrophes that end the text stand before the three that close it.
example : writeQuoted ['\\', '\n', '\'', '\''] = "'''\n\\\n'''''".toList := by decide

end ManagedTypes.Toml
