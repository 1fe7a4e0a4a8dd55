import PineTools.Proofs.Repair.Brackets

/-! The two structural repairs together. Closing literals appends to lines inside the literals that
are open there, so no bracket and no comment is read in another way; closing brackets then inserts,
behind the last character of code, exactly the closers of the openers that were left. -/
namespace PineTools

/-- A line with characters of a literal appended: what was there is read as before. -/
def ScriptLine.Extends (line longer : ScriptLine) : Prop :=
  longer.entry = line.entry ∧ ∃ added, longer.cells = line.cells ++ added ∧ ∀ c ∈ added,
    c.region.isLiteral = true

theorem bracketsFrom_hidden {hidden : List Cell} (h : ∀ c ∈ hidden, c.char ≠ '\n' ∧
    c.isCode = false) (stack : List OpenBracket) (number : Nat) (a b : List Cell) :
    bracketsFrom stack number (a ++ (hidden ++ b)) = bracketsFrom stack number (a ++ b) := by
  have hskip (stack : List OpenBracket) (number : Nat) :
      bracketsFrom stack number (hidden ++ b) = bracketsFrom stack number b := by
    induction hidden with
    | nil => rfl
    | cons c cs ih =>
      obtain ⟨⟨hn, hcode⟩, hcs⟩ := List.forall_mem_cons.mp h
      rw [List.cons_append, bracketsFrom, if_neg hn, hcode]
      exact ih hcs
  rw [bracketsFrom_append, hskip, ← bracketsFrom_append]

def closerCell (o : OpenBracket) : Cell := ⟨o.kind.closer, .code, false⟩

theorem bracketsFrom_closers (stack : List OpenBracket) (number : Nat) :
    bracketsFrom stack number (stack.map closerCell) = ⟨[], []⟩ := by
  induction stack generalizing number with
  | nil => rfl
  | cons o os ih =>
    have hstep : bracketStep (o :: os) number (closerCell o) = ([], os) := by
      have hopener : Bracket.ofOpener? o.kind.closer = none := by cases o.kind <;> rfl
      have hcloser : Bracket.ofCloser? o.kind.closer = some o.kind :=
        Bracket.ofCloser?_eq_some.mpr rfl
      rw [bracketStep, closerCell, hopener, hcloser]
      simp [Cell.isCode]
    rw [List.map_cons, bracketsFrom_cons, hstep, ih, BracketReport.behind_nil]

namespace Mode

theorem Bare.unclosedFrom {m : Mode} {t : Text} (h : Bare m t.head?) (number : Nat) :
    unclosedFrom m number t = unclosedFrom .start number t := by
  obtain ⟨b, rfl⟩ := h.exists_code
  cases t with
  | nil => rfl
  | cons c cs =>
    rw [unclosedFrom_step, unclosedFrom_step, h.step]
    rfl

theorem Bare.openCommentFrom {m : Mode} {t : Text} (h : Bare m t.head?) (opened number : Nat) :
    openCommentFrom m opened number t = openCommentFrom .start 1 number t := by
  obtain ⟨b, rfl⟩ := h.exists_code
  rw [openCommentFrom_opened rfl opened 1]
  cases t with
  | nil => rfl
  | cons c cs => rw [PineTools.openCommentFrom, PineTools.openCommentFrom, h.step]

end Mode

namespace Repair

open Mode

theorem cells_closing {m : Mode} (hm : m.settled = true) {l : Text} {q : Quote}
    (h : m.after none l = .literal q) :
    ∃ added, cellsFrom m (l ++ closingOf q l) = cellsFrom m l ++ added ∧
      ∀ c ∈ added, c.char ≠ '\n' ∧ c.region = .literal q := by
  have hquote : Quiet q.char ∧ q.char ≠ '\n' := by
    cases q <;> exact ⟨⟨by decide, by decide⟩, by decide⟩
  have hback : Quiet '\\' := ⟨by decide, by decide⟩
  rw [closingOf]
  split
  case isTrue hodd =>
    have ho := after_open hm h hback (by decide)
    rw [if_pos hodd] at ho
    rw [cellsFrom_append, List.head?_cons, cellsUpTo_quiet_ahead m hback, ho]
    refine ⟨_, rfl, ?_⟩
    cases q <;> decide
  case isFalse heven =>
    have ho := after_open hm h hquote.1 hquote.2
    rw [if_neg heven] at ho
    rw [cellsFrom_append, List.head?_cons, cellsUpTo_quiet_ahead m hquote.1, ho]
    refine ⟨_, rfl, ?_⟩
    cases q <;> decide

theorem cells_closedLine {m : Mode} (hm : m.settled = true) (l : Text) :
    ∃ added, cellsFrom m (closedLine m l) = cellsFrom m l ++ added ∧
      ∀ c ∈ added, c.char ≠ '\n' ∧ c.region.isLiteral = true := by
  cases h : m.after none l with
  | literal q =>
    obtain ⟨added, hcells, hadded⟩ := cells_closing hm h
    rw [closedLine, h]
    refine ⟨added, hcells, fun c hc => ⟨(hadded c hc).1, ?_⟩⟩
    rw [(hadded c hc).2]
    rfl
  | code b | line | lineSecond | block | blockSecond | blockLast | escaped q =>
    rw [closedLine, h]
    exact ⟨[], (List.append_nil _).symm, List.forall_mem_nil _⟩

theorem readLines_closedLines {m : Mode} (hm : m.settled = true) (ls : List Text) :
    (readLines m (closedLines m ls)).length = (readLines m ls).length ∧
      ∀ p ∈ (readLines m ls).zip (readLines m (closedLines m ls)), p.1.Extends p.2 := by
  induction ls generalizing m with
  | nil => exact ⟨rfl, List.forall_mem_nil _⟩
  | cons l ls ih =>
    obtain ⟨added, hcells, hadded⟩ := cells_closedLine hm l
    obtain ⟨hlength, hlines⟩ := ih (settled_entry (m.after none l))
    simp only [closedLines, readLines, (after_closedLine hm l).1, List.length_cons,
      List.zip_cons_cons, hlength, List.forall_mem_cons]
    exact ⟨trivial, ⟨rfl, added, hcells, fun c hc => (hadded c hc).2⟩, hlines⟩

theorem oneLine_closedLines (m : Mode) {ls : List Text} (h : ∀ l ∈ ls, Text.OneLine l) :
    ∀ l ∈ closedLines m ls, Text.OneLine l := by
  induction ls generalizing m with
  | nil => exact List.forall_mem_nil _
  | cons l ls ih =>
    obtain ⟨hl, hls⟩ := List.forall_mem_cons.mp h
    exact List.forall_mem_cons.mpr ⟨oneLine_closedLine hl m, ih _ hls⟩

theorem lines_closeLiterals (t : Text) :
    Text.lines (closeLiterals t).text = closedLines .start (Text.lines t) := by
  rw [closeLiterals_text, Text.lines_unlines (closedLines_ne_nil _ t)
    (oneLine_closedLines _ fun l hl => Text.oneLine_of_mem_lines hl)]

theorem scriptLines_closeLiterals (t : Text) :
    (scriptLines (closeLiterals t).text).length = (scriptLines t).length ∧
      ∀ p ∈ (scriptLines t).zip (scriptLines (closeLiterals t).text), p.1.Extends p.2 := by
  rw [scriptLines_eq, scriptLines_eq, lines_closeLiterals]
  exact readLines_closedLines rfl _

theorem bracketsFrom_closedLines {m : Mode} (hm : m.settled = true) (stack : List OpenBracket)
    (number : Nat) (t : Text) :
    bracketsFrom stack number (cellsFrom m (Text.unlines (closedLines m (Text.lines t)))) =
      bracketsFrom stack number (cellsFrom m t) := by
  have hhidden (l : Text) {m : Mode} (hm : m.settled = true) :
    ∃ added, cellsFrom m (closedLine m l) = cellsFrom m l ++ added ∧
      ∀ c ∈ added, c.char ≠ '\n' ∧ c.isCode = false := by
    obtain ⟨added, hcells, hadded⟩ := cells_closedLine hm l
    refine ⟨added, hcells, fun c hc => ⟨(hadded c hc).1, ?_⟩⟩
    have hlit := (hadded c hc).2
    rw [Cell.isCode]
    cases hr : c.region with
    | literal q => rfl
    | code | lineComment | blockComment =>
      rw [hr] at hlit
      cases hlit
  induction t using Text.lines_induction generalizing m stack number with
  | last l hl =>
    obtain ⟨added, hcells, hadded⟩ := hhidden l hm
    have hend := bracketsFrom_hidden hadded stack number (cellsFrom m l) []
    rw [List.append_nil, List.append_nil] at hend
    rw [Text.lines_of_oneLine hl, closedLines, closedLines, Text.unlines, hcells, hend]
  | more l t hl ih =>
    obtain ⟨added, hcells, hadded⟩ := hhidden l hm
    have hnewline (m : Mode) (stack : List OpenBracket) (number : Nat) (cs : List Cell) :
        bracketsFrom stack number (newlineCell m :: cs) = bracketsFrom stack (number + 1) cs := by
      rw [bracketsFrom, if_pos]
      rfl
    rw [Text.lines_append_newline hl, closedLines, Text.unlines_cons (closedLines_ne_nil _ t),
      cellsFrom_newline hm, cellsFrom_newline hm, hcells, List.append_assoc,
      bracketsFrom_hidden hadded, bracketsFrom_append, bracketsFrom_append, hnewline, hnewline,
      (after_closedLine hm l).1, ih (settled_entry _)]

theorem matchBrackets_closeLiterals (t : Text) :
    matchBrackets (closeLiterals t).text = matchBrackets t := by
  rw [matchBrackets, closeLiterals_text]
  exact bracketsFrom_closedLines rfl [] 1 t

theorem openCommentFrom_newline {m : Mode} (hm : m.settled = true) (opened number : Nat) {l : Text}
    (hl : Text.OneLine l) (t : Text) :
    openCommentFrom m opened number (l ++ '\n' :: t) =
      openCommentFrom (m.after none l).entry (openedUpTo m opened number (some '\n') l)
      (number + 1) t := by
  have hentry : (m.after none l).entry ≠ .blockSecond := by
    obtain ⟨-, e⟩ | ⟨-, e⟩ := (m.after none l).entry_cases <;> rw [e] <;> exact Mode.noConfusion
  rw [openCommentFrom_append, List.head?_cons, after_newline_ahead, List.count_eq_zero.mpr hl,
    Nat.add_zero, openCommentFrom, step_newline (settled_after hm l)]
  simp only [if_neg hentry, if_true]

theorem openCommentFrom_closedLines {m : Mode} (hm : m.settled = true) (opened number : Nat)
    (t : Text) :
    openCommentFrom m opened number (Text.unlines (closedLines m (Text.lines t))) =
      openCommentFrom m opened number t := by
  induction t using Text.lines_induction generalizing m opened number with
  | last l hl =>
    rw [Text.lines_of_oneLine hl, closedLines, closedLines, Text.unlines]
    cases h : m.after none l with
    | literal q =>
      -- The line ends in a literal before, and in code after it is closed.
      have hnone (s : Text) (hs : m.after none s ≠ .block) :
          openCommentFrom m opened number s = none := by
        rw [← Option.not_isSome_iff_eq_none, openCommentFrom_isSome, beq_iff_eq]
        exact hs
      have hafter : m.after none (closedLine m l) = .code false := by
        rw [closedLine, h]
        exact (notesUpTo_closing hm h []).1
      rw [hnone l (by rw [h]; exact Mode.noConfusion),
        hnone _ (by rw [hafter]; exact Mode.noConfusion)]
    | code b | line | lineSecond | block | blockSecond | blockLast | escaped q => rw [closedLine, h]
  | more l t hl ih =>
    rw [Text.lines_append_newline hl, closedLines, Text.unlines_cons (closedLines_ne_nil _ t),
      openCommentFrom_newline hm _ _ (oneLine_closedLine hl m), openCommentFrom_newline hm _ _ hl,
      (after_closedLine hm l).1, ih (settled_entry _)]
    cases h : m.after none l with
    | literal q => exact openCommentFrom_opened rfl _ _ _ t
    | code b | line | lineSecond | block | blockSecond | blockLast | escaped q => rw [closedLine, h]

theorem openComment?_closeLiterals (t : Text) :
    openComment? (closeLiterals t).text = openComment? t := by
  rw [openComment?, closeLiterals_text]
  exact openCommentFrom_closedLines rfl 1 1 t

def missingClosers (t : Text) : Text := (matchBrackets t).unclosed.reverse.map fun o =>
    o.kind.closer

theorem closeBrackets_text (t : Text) (h : (matchBrackets t).unclosed ≠ []) :
    (closeBrackets t).text = t.take (endOfCode t) ++
      (missingClosers t ++ t.drop (endOfCode t)) := by
  rw [closeBrackets, missingClosers]
  cases hu : (matchBrackets t).unclosed with
  | nil => exact absurd hu h
  | cons o os => exact List.append_assoc ..

theorem closeBrackets_of_closed {t : Text} (h : (matchBrackets t).unclosed = []) :
    (closeBrackets t).text = t := by
  rw [closeBrackets, h]

theorem white_behind_endOfCode (t : Text) :
    ∀ c ∈ (cells t).drop (endOfCode t), (c.region.isComment || Text.isSpace c.char) = true := by
  obtain ⟨white, hcells, hwhite⟩ :=
    Text.trimRight_append_white (fun c : Cell => c.region.isComment || Text.isSpace c.char)
      (cells t)
  have hlength : (cells t).length ≤ t.length := Nat.le_of_eq (cellsFrom_length .start t)
  rw [endOfCode]
  generalize Text.trimRight (fun c : Cell => c.region.isComment || Text.isSpace c.char) (cells t) =
    kept at hcells
  split
  · intro c hc
    rw [List.drop_eq_nil_of_le hlength] at hc
    cases hc
  · intro c hc
    rw [hcells, List.drop_left' rfl] at hc
    exact hwhite c hc

/-- What closing brackets inserts is read as code, and all else as before. -/
structure Inserted (t t' : Text) (place : Nat) (closers : Text) : Prop where
  le : place ≤ t.length
  text : t' = t.take place ++ closers ++ t.drop place
  cells_eq : cells t' = (cells t).take place ++ closers.map (⟨·, .code, false⟩) ++
    (cells t).drop place

theorem tame_missingClosers {t : Text} : ∀ c ∈ missingClosers t, Tame c ∧ c ≠ '*' ∧ c ≠ '\n' := by
  intro c hc
  obtain ⟨o, -, rfl⟩ := List.mem_map.mp hc
  obtain ⟨htame, hstar⟩ := tame_closer o.kind
  exact ⟨htame, hstar, by cases o.kind <;> decide⟩

theorem cellsFrom_tame {a : Text} (h : ∀ c ∈ a, Tame c) (b : Text) :
    cellsFrom .start (a ++ b) = a.map (⟨·, .code, false⟩) ++ cellsFrom .start b := by
  induction a with
  | nil => rfl
  | cons c cs ih =>
    obtain ⟨hc, hcs⟩ := List.forall_mem_cons.mp h
    rw [List.cons_append, cellsFrom, step_tame hc, ih hcs]
    rfl

section Closers

variable {t : Text} (h : unclosedLiterals t = []) (hb : (matchBrackets t).unclosed ≠ [])
include h hb

theorem readsAlike_endOfCode : ReadsAlike .start (t.take (endOfCode t)) (t.drop (endOfCode t)).head?
    (missingClosers t ++ t.drop (endOfCode t)).head? := by
  obtain ⟨-, hbare⟩ := bare_endOfCode h hb
  obtain ⟨b, hcode⟩ := hbare.exists_code
  refine readsAlike_of_code hcode (.inr fun c hc => ?_)
  cases hm : missingClosers t with
  | nil =>
    rw [missingClosers, List.map_eq_nil_iff, List.reverse_eq_nil_iff] at hm
    exact absurd hm hb
  | cons d ds =>
    rw [hm] at hc
    obtain rfl : d = c := Option.some.inj hc
    obtain ⟨⟨hslash, -, -⟩, hstar, -⟩ := @tame_missingClosers t d (hm ▸ List.mem_cons_self)
    exact ⟨hslash, hstar⟩

theorem bare_closers :
    Bare (modeAt t (endOfCode t)) (missingClosers t ++ t.drop (endOfCode t)).head? := by
  obtain ⟨-, hbare⟩ := bare_endOfCode h hb
  obtain ⟨b, hcode⟩ := hbare.exists_code
  cases hm : missingClosers t with
  | nil => exact hbare
  | cons d ds =>
    rw [hcode]
    exact (@tame_missingClosers t d (hm ▸ List.mem_cons_self)).1.bare b

theorem inserted_closeBrackets :
    Inserted t (closeBrackets t).text (endOfCode t) (missingClosers t) := by
  obtain ⟨hle, hbare⟩ := bare_endOfCode h hb
  refine ⟨hle, by rw [closeBrackets_text t hb, List.append_assoc], ?_⟩
  have hread := readsAlike_endOfCode h hb
  have hfirst : cellsFrom (modeAt t (endOfCode t)) (missingClosers t ++ t.drop (endOfCode t)) =
      cellsFrom .start (missingClosers t ++ t.drop (endOfCode t)) :=
        cellsFrom_lands (.inl (bare_closers h hb))
  have hrest : cellsFrom .start (t.drop (endOfCode t)) = (cells t).drop (endOfCode t) := by
    rw [cells, cellsFrom_drop, ← modeAt, cellsFrom_lands (.inl hbare)]
  rw [closeBrackets_text t hb, cells, cellsFrom_append, ← hread.1, ← hread.2, ← modeAt, hfirst,
    cellsFrom_tame fun c hc => (tame_missingClosers c hc).1, hrest, ← cellsFrom_take, ← cells,
    List.append_assoc]

theorem unclosedLiterals_closeBrackets : unclosedLiterals (closeBrackets t).text = [] := by
  have hbare := (bare_endOfCode h hb).2
  have htame : ∀ c ∈ missingClosers t, Tame c := fun c hc => (tame_missingClosers c hc).1
  have hone : Text.OneLine (missingClosers t) := fun hc => (tame_missingClosers _ hc).2.2 rfl
  have hsplit : unclosedLiterals (t.take (endOfCode t) ++ t.drop (endOfCode t)) = [] := by
    rw [List.take_append_drop]
    exact h
  rw [unclosedLiterals, unclosedFrom_append, List.append_eq_nil_iff, ← modeAt,
    hbare.unclosedFrom] at hsplit
  rw [closeBrackets_text t hb, unclosedLiterals, unclosedFrom_append, hsplit.1,
    ← (readsAlike_endOfCode h hb).2, ← modeAt, (bare_closers h hb).unclosedFrom,
    unclosedFrom_append, unclosedUpTo_oneLine hone, after_tame htame, List.count_eq_zero.mpr hone]
  exact hsplit.2

theorem openComment?_closeBrackets : openComment? (closeBrackets t).text = openComment? t := by
  have hbare := (bare_endOfCode h hb).2
  have htame : ∀ c ∈ missingClosers t, Tame c := fun c hc => (tame_missingClosers c hc).1
  have hone : Text.OneLine (missingClosers t) := fun hc => (tame_missingClosers _ hc).2.2 rfl
  have hsplit : openComment? t = openCommentFrom .start 1 (1 + (t.take (endOfCode t)).count '\n')
      (t.drop (endOfCode t)) := by
    rw [← hbare.openCommentFrom, modeAt, ← openCommentFrom_append, List.take_append_drop,
      openComment?]
  rw [hsplit, closeBrackets_text t hb, openComment?, openCommentFrom_append,
    ← (readsAlike_endOfCode h hb).2, ← modeAt, (bare_closers h hb).openCommentFrom,
    openCommentFrom_append, after_tame htame, List.count_eq_zero.mpr hone]
  exact openCommentFrom_opened rfl _ _ _ _

theorem matchBrackets_closeBrackets :
    matchBrackets (closeBrackets t).text = ⟨(matchBrackets t).issues, []⟩ := by
  have hwhite := white_behind_endOfCode t
  -- What lies before the place has all issues and all openers of the script.
  have hfront : matchBrackets t = bracketsFrom [] 1 ((cells t).take (endOfCode t)) := by
    have hsplit := bracketsFrom_append [] 1 ((cells t).take (endOfCode t))
      ((cells t).drop (endOfCode t))
    rw [List.take_append_drop, bracketsFrom_white hwhite, List.reverse_reverse] at hsplit
    rw [matchBrackets, hsplit, BracketReport.behind, List.append_nil]
  have hclosers : (missingClosers t).map (⟨·, .code, false⟩) =
      (matchBrackets t).unclosed.reverse.map closerCell := by
    rw [missingClosers, List.map_map]
    rfl
  rw [matchBrackets, (inserted_closeBrackets h hb).cells_eq, List.append_assoc, bracketsFrom_append,
    ← hfront, hclosers, bracketsFrom_append, bracketsFrom_closers, bracketsFrom_white hwhite]
  simp [BracketReport.behind]

end Closers

/-- Closing literals and then brackets is exact. Nothing stays open but a block comment, the issues
and that comment are those of the script, what is inserted are the closers of its open brackets in
reverse order, and every character of the script keeps its region. -/
theorem structural_repairs_exact (t : Text) :
    let u := (closeLiterals t).text
    let v := (closeBrackets u).text
    unclosedLiterals v = [] ∧ (matchBrackets v).unclosed = [] ∧
      (matchBrackets v).issues = (matchBrackets t).issues ∧ openComment? v = openComment? t ∧
      (∃ place, Inserted u v place ((matchBrackets t).unclosed.reverse.map fun o =>
        o.kind.closer)) ∧
      ((scriptLines u).length = (scriptLines t).length ∧ ∀ p ∈ (scriptLines t).zip (scriptLines u),
        p.1.Extends p.2) ∧
      structuralImbalance v = (matchBrackets t).issues.length + if (openComment? t).isSome then 1
        else 0 := by
  intro u v
  have hbrackets : matchBrackets u = matchBrackets t := matchBrackets_closeLiterals t
  have hcomment : openComment? u = openComment? t := openComment?_closeLiterals t
  have hclosed : unclosedLiterals u = [] := unclosedLiterals_closeLiterals t
  have hclosers : missingClosers u = (matchBrackets t).unclosed.reverse.map fun o =>
      o.kind.closer := by
    rw [missingClosers, hbrackets]
  have hall : unclosedLiterals v = [] ∧ matchBrackets v = ⟨(matchBrackets u).issues, []⟩ ∧
    openComment? v = openComment? u ∧
      ∃ place, Inserted u v place (missingClosers u) := by
    by_cases hb : (matchBrackets u).unclosed = []
    · have hv : v = u := closeBrackets_of_closed hb
      rw [hv]
      refine ⟨hclosed, ?_, rfl, u.length, Nat.le_refl _, ?_, ?_⟩
      · rw [← hb]
      · rw [missingClosers, hb]
        simp
      · rw [missingClosers, hb]
        simp
    · exact ⟨unclosedLiterals_closeBrackets hclosed hb, matchBrackets_closeBrackets hclosed hb,
        openComment?_closeBrackets hclosed hb, endOfCode u, inserted_closeBrackets hclosed hb⟩
  obtain ⟨hliterals, hreport, hopen, hinserted⟩ := hall
  rw [hclosers] at hinserted
  rw [hcomment] at hopen
  rw [hbrackets] at hreport
  refine ⟨hliterals, by
    rw [hreport], by rw [hreport], hopen, hinserted, scriptLines_closeLiterals t, ?_⟩
  rw [structuralImbalance, hreport, hliterals, hopen]
  rfl

end Repair
end PineTools
