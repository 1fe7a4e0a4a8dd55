import PineTools.Proofs.Scan.Notes
import PineTools.Proofs.Scan.Reports
import PineTools.Repair.Basic

/-! What is closed. Open literals are closed at the ends of their lines, whatever backslashes stand
there, and then no literal is open. Open brackets are closed right behind the last character of
code, where no comment or literal is going on. -/
namespace PineTools.Repair

open Mode

def closedLine (m : Mode) (l : Text) : Text :=
  match m.after none l with
  | .literal q => l ++ closingOf q l
  | _ => l

/-- Lines that are read one after the other, with their open literals closed. -/
def closedLines (m : Mode) : List Text → List Text
  | [] => []
  | l :: ls => closedLine m l :: closedLines (m.after none l).entry ls

theorem closedLines_ne_nil (m : Mode) (t : Text) : closedLines m (Text.lines t) ≠ [] := by
  cases hls : Text.lines t with
  | nil => exact absurd hls (Text.lines_ne_nil t)
  | cons l ls => exact List.cons_ne_nil _ _

theorem closeLines_later {n : Nat} {us : List UnclosedLiteral} (h : ∀ u ∈ us, n < u.line) (l : Text)
    (ls : List Text) :
    closeLines n us (l :: ls) = l :: closeLines (n + 1) us ls := by
  cases us with
  | nil => cases ls <;> rfl
  | cons u us => rw [closeLines, if_neg (Nat.ne_of_gt (h u List.mem_cons_self))]

theorem closeLines_eq {m : Mode} (hm : m.settled = true) (n : Nat) (t : Text) :
    closeLines n (unclosedFrom m n t) (Text.lines t) = closedLines m (Text.lines t) := by
  induction t using Text.lines_induction generalizing m n with
  | last l hl =>
    rw [Text.lines_of_oneLine hl, unclosedFrom_last hl, closedLines, closedLines, closedLine]
    cases m.after none l with
    | literal q => simp only [openAt, closeLines, if_true]
    | code b | line | lineSecond | block | blockSecond | blockLast | escaped q => rfl
  | more l t hl ih =>
    have hrest := ih (settled_entry (m.after none l)) (n + 1)
    have hlater : ∀ u ∈ unclosedFrom (m.after none l).entry (n + 1) t, n < u.line :=
      unclosedFrom_line_le _ (n + 1) t
    rw [Text.lines_append_newline hl, unclosedFrom_more hm hl, closedLines, ← hrest, closedLine]
    clear hrest
    revert hlater
    generalize m.after none l = m'
    intro hlater
    cases m' with
    | literal q => simp only [openAt, List.cons_append, List.nil_append, closeLines, if_true]
    | code b | line | lineSecond | block | blockSecond | blockLast | escaped q =>
      exact closeLines_later hlater l _

theorem closeLiterals_text (t : Text) :
    (closeLiterals t).text = Text.unlines (closedLines .start (Text.lines t)) := by
  have h := @closeLines_eq .start rfl 1 t
  rw [closeLiterals]
  cases hu : unclosedLiterals t with
  | nil =>
    rw [← unclosedLiterals, hu] at h
    have hnone : closeLines 1 [] (Text.lines t) = Text.lines t := by
      cases Text.lines t <;> rfl
    rw [← h, hnone, Text.unlines_lines]
  | cons u us =>
    rw [← unclosedLiterals, hu] at h
    rw [← h]

theorem after_backslashes (q : Quote) {x : Char} (hx : x ≠ '\n') (k : Nat) :
    (literal q).after (some x) (List.replicate k '\\') =
      (if k % 2 = 1 then escaped q else literal q) ∧
      (escaped q).after (some x) (List.replicate k '\\') = if k % 2 = 1 then literal q
        else escaped q := by
  induction k with
  | zero => exact ⟨rfl, rfl⟩
  | succ k ih =>
    have hahead : ((List.replicate k '\\').head?.or (some x)).any (· ≠ '\n') = true := by
      cases k with
      | zero => simp [hx]
      | succ k => simp [List.replicate_succ]
    have hstep : (literal q).step '\\' ((List.replicate k '\\').head?.or (some x)) =
        (⟨'\\', .literal q, false⟩, escaped q) := by
      rw [step, stepLiteral, if_neg (by decide), if_neg (by cases q <;> decide),
        if_pos ⟨rfl, hahead⟩]
    rw [List.replicate_succ, Mode.after, Mode.after, hstep]
    refine ⟨ih.2.trans ?_, ih.1.trans ?_⟩
    · rcases Nat.mod_two_eq_zero_or_one k with h | h
      · rw [if_neg (by omega), if_pos (by omega)]
      · rw [if_pos h, if_neg (by omega)]
    · rcases Nat.mod_two_eq_zero_or_one k with h | h
      · rw [if_neg (by omega), if_pos (by omega)]
      · rw [if_pos h, if_neg (by omega)]

theorem after_backslashes_outside {m : Mode} (h : m.inLiteral = false)
    (ahead : Option Char) {t : Text} (ht : ∀ c ∈ t, c = '\\') :
    (m.after ahead t).inLiteral = false := by
  induction t generalizing m with
  | nil => exact h
  | cons c cs ih =>
    obtain ⟨rfl, hcs⟩ := List.forall_mem_cons.mp ht
    refine ih ?_ hcs
    cases m with
    | code b =>
      rw [step]
      obtain ⟨e, -⟩ | ⟨e, -⟩ | ⟨q, -, e, -⟩ | ⟨-, -, e⟩ := stepCode_cases b '\\' (cs.head?.or ahead)
      · exact absurd e (by decide)
      · exact absurd e (by decide)
      · cases q <;> exact absurd e (by decide)
      · rw [e]
        rfl
    | line | lineSecond | block | blockSecond | blockLast => rfl
    | literal q | escaped q => cases h

theorem trailing_backslashes (l : Text) :
    ∃ a, l = a ++ List.replicate (l.reverse.takeWhile (· == '\\')).length '\\' ∧
    a.getLast? ≠ some '\\' := by
  refine ⟨(l.reverse.dropWhile (· == '\\')).reverse, ?_, ?_⟩
  · have hall : l.reverse.takeWhile (· == '\\') =
        List.replicate (l.reverse.takeWhile (· == '\\')).length '\\' :=
      List.eq_replicate_iff.mpr
        ⟨rfl, fun c hc => beq_iff_eq.mp (List.all_eq_true.mp List.all_takeWhile c hc)⟩
    rw [← List.reverse_replicate, ← hall, ← List.reverse_append, List.takeWhile_append_dropWhile,
      List.reverse_reverse]
  · rw [List.getLast?_reverse]
    intro e
    have := List.head?_dropWhile_not (· == '\\') l.reverse
    rw [e] at this
    exact absurd this (by decide)

/-- Only a backslash takes the next character with it. -/
theorem after_not_escaped {m : Mode} (hm : m.settled = true) {a : Text}
    (ha : a.getLast? ≠ some '\\') (ahead : Option Char) (q : Quote) :
    m.after ahead a ≠ .escaped q := by
  intro h
  rcases List.eq_nil_or_concat a with rfl | ⟨a, c, rfl⟩
  · subst h
    cases hm
  · rw [List.concat_eq_append, after_concat] at h
    rw [List.concat_eq_append, List.getLast?_concat, (next_escaped h).1] at ha
    exact ha rfl

theorem after_backslashes_inside (q : Quote) (ahead : Option Char) (k : Nat) {m : Mode}
    (h : m = literal q ∨ m = escaped q) :
    m.after ahead (List.replicate k '\\') = literal q ∨
    m.after ahead (List.replicate k '\\') = escaped q := by
  induction k generalizing m with
  | zero => exact h
  | succ k ih =>
    rw [List.replicate_succ, Mode.after]
    refine ih ?_
    rcases h with rfl | rfl
    · rw [step]
      obtain ⟨hc, -⟩ | ⟨hc, -⟩ | ⟨-, -, e⟩ | ⟨-, -, -, e⟩ :=
        stepLiteral_cases q '\\' ((List.replicate k '\\').head?.or ahead)
      · exact absurd hc (by decide)
      · exact absurd hc (by cases q <;> decide)
      · exact .inr (by rw [e])
      · exact .inl (by rw [e])
    · exact .inl rfl

theorem after_open {m : Mode} (hm : m.settled = true) {l : Text} {q : Quote}
    (h : m.after none l = .literal q) {x : Char} (hx : Quiet x) (hnl : x ≠ '\n') :
    m.after (some x) l = if (l.reverse.takeWhile (· == '\\')).length % 2 = 1 then escaped q
      else literal q := by
  obtain ⟨a, hl, ha⟩ := trailing_backslashes l
  generalize (l.reverse.takeWhile (· == '\\')).length = k at hl
  subst hl
  cases k with
  | zero =>
    rw [List.replicate_zero, List.append_nil] at h ⊢
    rcases after_quiet_ahead m hx a with e | ⟨q', e, -⟩
    · exact e.trans h
    · exact absurd e (after_not_escaped hm ha _ q')
  | succ k =>
    have hhead : ∀ ahead : Option Char, (List.replicate (k + 1) '\\').head?.or ahead = some '\\' :=
      fun _ => rfl
    rw [Mode.after_append, hhead] at h ⊢
    have hinside := after_not_escaped hm ha (some '\\')
    generalize m.after (some '\\') a = m' at h hinside
    cases hlit : m'.inLiteral with
    | false =>
      have hall : ∀ c ∈ List.replicate (k + 1) '\\', c = '\\' :=
        fun c hc => (List.mem_replicate.mp hc).2
      have := after_backslashes_outside hlit none hall
      rw [h] at this
      cases this
    | true =>
      cases m' with
      | literal q' =>
        have hq := after_backslashes_inside q' none (k + 1) (.inl rfl)
        rw [h] at hq
        obtain rfl : q = q' := by
          rcases hq with e | e
          · exact Mode.literal.inj e
          · cases e
        exact (after_backslashes q hnl (k + 1)).1
      | escaped q' => exact absurd rfl (hinside q')
      | code b | line | lineSecond | block | blockSecond | blockLast => cases hlit

theorem notesUpTo_closing {m : Mode} (hm : m.settled = true) {l : Text} {q : Quote}
    (h : m.after none l = .literal q) (current : Text) : m.after none (l ++ closingOf q l) =
      .code false ∧
      notesUpTo m none current (l ++ closingOf q l) =
        ((notesUpTo m none current l).1 ++ [(notesUpTo m none current l).2 ++ closingOf q l],
          []) := by
  have hquote : Quiet q.char ∧ q.char ≠ '\n' := by
    cases q <;> exact ⟨⟨by decide, by decide⟩, by decide⟩
  have hback : Quiet '\\' := ⟨by decide, by decide⟩
  rw [closingOf]
  split
  case isTrue hodd =>
    have ho := after_open hm h hback (by decide)
    rw [if_pos hodd] at ho
    have hend : (escaped q).after none ['\\', q.char] = .code false := by cases q <;> rfl
    have hnotes (p : Text) : notesUpTo (escaped q) none p ['\\', q.char] =
        ([p ++ ['\\', q.char]], []) := by
      cases q <;> simp [notesUpTo, noteStep, step, stepLiteral, Cell.isCode, inCode, Quote.char]
    rw [Mode.after_append, notesUpTo_append, List.head?_cons, Option.some_or, ho,
      notesUpTo_quiet_ahead m hback, hnotes, hend]
    exact ⟨rfl, rfl⟩
  case isFalse heven =>
    have ho := after_open hm h hquote.1 hquote.2
    rw [if_neg heven] at ho
    have hend : (literal q).after none [q.char] = .code false := by cases q <;> rfl
    have hnotes (p : Text) : notesUpTo (literal q) none p [q.char] = ([p ++ [q.char]], []) := by
      cases q <;> simp [notesUpTo, noteStep, step, stepLiteral, Cell.isCode, inCode, Quote.char]
    rw [Mode.after_append, notesUpTo_append, List.head?_cons, Option.some_or, ho,
      notesUpTo_quiet_ahead m hquote.1, hnotes, hend]
    exact ⟨rfl, rfl⟩

/-- Either no note is going on, or what has been read of it leads to the mode. -/
def Amid (m : Mode) (ahead : Option Char) (current : Text) : Prop :=
  m.inCode = true ∧ current = [] ∨ m.inCode = false ∧ Mode.start.after ahead current = m

theorem step_opening {b : Bool} {c : Char} {ahead : Option Char}
    (h : ((code b).step c ahead).1.isCode = false) :
    (code b).step c ahead = Mode.start.step c ahead := by
  cases b with
  | false => rfl
  | true =>
    rw [step, start, step]
    obtain ⟨hc, ha, e⟩ | ⟨hc, ha, e⟩ | ⟨q, hb, -⟩ | ⟨-, -, e⟩ := stepCode_cases true c ahead
    · rw [e, hc, ha]; rfl
    · rw [e, hc, ha]; rfl
    · cases hb
    · rw [step, e] at h
      cases h

theorem closedLine_of_code {n : Text} {ahead : Option Char} {b : Bool}
    (h : Mode.start.after ahead n = .code b) :
    closedLine .start n = n := by
  have hnone : Mode.start.after none n = .code b := by
    rw [← (@readsAlike_of_code _ _ _ none _ h (.inr fun c e => by cases e)).2, h]
  rw [closedLine, hnone]

/-- A character on the way through a note leads on from what was read of it, and a note that ends
with it is closed. -/
theorem amid_noteStep {m : Mode} {ahead : Option Char} {current : Text} {c : Char} (hc : c ≠ '\n')
    (h : Amid m (some c) current) :
    Amid (m.step c ahead).2 ahead (noteStep current c (m.step c ahead)).2 ∧
      ∀ n ∈ (noteStep current c (m.step c ahead)).1, closedLine .start n = n := by
  cases hcell : (m.step c ahead).1.isCode with
  | true =>
    obtain ⟨b, rfl⟩ := mode_of_code hc (beq_iff_eq.mp hcell)
    have hcur : current = [] := by
      rcases h with ⟨-, e⟩ | ⟨e, -⟩
      · exact e
      · cases e
    rw [noteStep, if_pos hcell, hcur]
    refine ⟨.inl ⟨?_, rfl⟩, List.forall_mem_nil _⟩
    rw [step_eq_of_code (beq_iff_eq.mp hcell)]
    rfl
  | false =>
    have hread : Mode.start.after ahead (current ++ [c]) = (m.step c ahead).2 := by
      rw [after_concat]
      rcases h with ⟨hm, rfl⟩ | ⟨-, hm⟩
      · obtain ⟨b, rfl⟩ := exists_code_of_inCode hm
        exact congrArg Prod.snd (step_opening hcell).symm
      · rw [hm]
    rw [noteStep, if_neg (by rw [hcell]; exact Bool.false_ne_true)]
    cases hnext : (m.step c ahead).2.inCode with
    | true =>
      refine ⟨.inl ⟨hnext, rfl⟩, fun n hn => ?_⟩
      obtain ⟨b, hmode⟩ := exists_code_of_inCode hnext
      rw [List.mem_singleton.mp hn]
      exact closedLine_of_code (hread.trans hmode)
    | false => exact ⟨.inr ⟨hnext, hread⟩, List.forall_mem_nil _⟩

theorem amid_notesUpTo {m : Mode} {ahead : Option Char} {current l : Text}
    (h : Amid m (l.head?.or ahead) current) (hl : Text.OneLine l) :
    Amid (m.after ahead l) ahead (notesUpTo m ahead current l).2 ∧
      ∀ n ∈ (notesUpTo m ahead current l).1, closedLine .start n = n := by
  induction l generalizing m current with
  | nil => exact ⟨h, List.forall_mem_nil _⟩
  | cons c cs ih =>
    rw [notesUpTo, Mode.after]
    obtain ⟨hamid, hclosed⟩ := amid_noteStep hl.head h
    obtain ⟨hend, hrest⟩ := ih hamid hl.tail
    exact ⟨hend, List.forall_mem_append.mpr ⟨hclosed, hrest⟩⟩

theorem pending_suffix (m : Mode) (ahead : Option Char) (current l : Text) :
    (notesUpTo m ahead current l).2 = current ++ l ∨ (notesUpTo m ahead current l).2 <:+ l := by
  induction l generalizing m current with
  | nil => exact .inl (List.append_nil current).symm
  | cons c cs ih =>
    rw [notesUpTo]
    have hstep : (noteStep current c (m.step c (cs.head?.or ahead))).2 = [] ∨
        (noteStep current c (m.step c (cs.head?.or ahead))).2 = current ++ [c] := by
      rw [noteStep]
      split
      · exact .inl rfl
      · split
        · exact .inl rfl
        · exact .inr rfl
    rcases ih (m.step c (cs.head?.or ahead)).2
      (noteStep current c (m.step c (cs.head?.or ahead))).2 with e | e
    · rcases hstep with h | h
      · rw [h, List.nil_append] at e
        rw [h]
        refine .inr ?_
        change (notesUpTo _ ahead [] cs).2 <:+ c :: cs
        rw [e]
        exact List.suffix_cons c cs
      · rw [h, List.append_assoc, List.singleton_append] at e
        rw [h]
        exact .inl e
    · exact .inr (e.trans (List.suffix_cons c cs))

/-- What stands before other characters than backslashes does not matter for the closing. -/
theorem closingOf_append (q : Quote) (a : Text) {l : Text} (hl : ∃ c ∈ l, c ≠ '\\') :
    closingOf q (a ++ l) = closingOf q l := by
  have h : (l.reverse ++ a.reverse).takeWhile (· == '\\') = l.reverse.takeWhile (· == '\\') := by
    rw [List.takeWhile_append, if_neg]
    intro hlen
    obtain ⟨c, hc, hne⟩ := hl
    have hall : l.reverse.takeWhile (· == '\\') = l.reverse :=
      (List.takeWhile_prefix _).eq_of_length hlen
    have hmem : c ∈ l.reverse.takeWhile (· == '\\') := by
      rw [hall]
      exact List.mem_reverse.mpr hc
    exact hne (beq_iff_eq.mp (List.all_eq_true.mp List.all_takeWhile c hmem))
  rw [closingOf, closingOf, List.reverse_append, h]

theorem exists_of_inLiteral {m : Mode} (hm : m.inLiteral = false) {l : Text} {q : Quote}
    (h : m.after none l = .literal q) :
    ∃ c ∈ l, c ≠ '\\' := by
  refine Classical.byContradiction fun hall => ?_
  have hback : ∀ c ∈ l, c = '\\' := fun c hc => Classical.byContradiction fun hne =>
    hall ⟨c, hc, hne⟩
  have := after_backslashes_outside hm none hback
  rw [h] at this
  cases this

theorem closedLine_pending {m : Mode} (hm : m.inLiteral = false) {current l : Text}
    (hl : Text.OneLine l) (ha : Amid m l.head? current) {q : Quote}
    (h : m.after none l = .literal q) :
    closedLine .start (notesUpTo m none current l).2 = (notesUpTo m none current l).2 ++
      closingOf q l := by
  rw [← @Option.or_none _ l.head?] at ha
  obtain ⟨hamid, -⟩ := amid_notesUpTo ha hl
  have hpending := pending_suffix m none current l
  generalize (notesUpTo m none current l).2 = n at hamid hpending
  rw [h] at hamid
  have hstart : Mode.start.after none n = .literal q := by
    rcases hamid with ⟨e, -⟩ | ⟨-, e⟩
    · cases e
    · exact e
  rw [closedLine, hstart]
  rcases hpending with rfl | ⟨a, rfl⟩
  · exact congrArg _ (closingOf_append q current (exists_of_inLiteral hm h))
  · exact congrArg _ (closingOf_append q a (exists_of_inLiteral rfl hstart)).symm

theorem notesFrom_newline {m : Mode} (hm : m.settled = true) (current l t : Text) :
    notesFrom m current (l ++ '\n' :: t) = (notesUpTo m none current l).1 ++
      if (m.after none l).inBlock then notesFrom .block ((notesUpTo m none current l).2 ++ ['\n']) t
      else pendingNote (notesUpTo m none current l).2 ++ notesFrom (.code false) [] t := by
  have hread := readsAlike_newline m l
  rw [notesFrom, notesUpTo_append, List.head?_cons, Option.some_or, hread.notesUpTo current,
    hread.2, List.append_assoc, ← notesFrom, notesFrom_cons, step_newline (settled_after hm l)]
  cases hb : (m.after none l).inBlock with
  | true => simp [noteStep, Cell.isCode, entry, hb, inCode]
  | false => simp [noteStep, Cell.isCode, entry, hb]

theorem amid_newline {n : Text} (h : Amid .block none n) (ahead : Option Char) :
    Amid .block ahead (n ++ ['\n']) := by
  rcases h with ⟨e, -⟩ | ⟨-, e⟩
  · cases e
  · refine .inr ⟨rfl, ?_⟩
    rw [after_concat, after_newline_ahead, e]
    rfl

theorem pendingNote_of_literal {n : Text} {q : Quote} (h : Amid (.literal q) none n) :
    pendingNote n = [n] := by
  cases n with
  | nil =>
    rcases h with ⟨e, -⟩ | ⟨-, e⟩
    · cases e
    · cases e
  | cons c cs => rfl

theorem pendingNote_closed {m : Mode} {n : Text} (h : Amid m none n) (hm : ∀ q, m ≠ .literal q) :
    (pendingNote n).map (closedLine .start) = pendingNote n := by
  cases n with
  | nil => rfl
  | cons c cs =>
    rcases h with ⟨-, e⟩ | ⟨-, e⟩
    · cases e
    · change [closedLine .start (c :: cs)] = [c :: cs]
      rw [closedLine, e]
      cases m with
      | literal q => exact absurd rfl (hm q)
      | code b | line | lineSecond | block | blockSecond | blockLast | escaped q => rfl

theorem notes_closedLines {m : Mode} (hm : m = .block ∨ m = .code false) {current : Text}
    (ha : ∀ ahead, Amid m ahead current) (t : Text) :
    notesFrom m current (Text.unlines (closedLines m (Text.lines t))) =
      (notesFrom m current t).map (closedLine .start) := by
  have hsettled {m : Mode} (hm : m = .block ∨ m = .code false) : m.settled = true := by
    rcases hm with rfl | rfl <;> rfl
  have hlit {m : Mode} (hm : m = .block ∨ m = .code false) : m.inLiteral = false := by
    rcases hm with rfl | rfl <;> rfl
  induction t using Text.lines_induction generalizing m current with
  | last l hl =>
    obtain ⟨hamid, hclosed⟩ := amid_notesUpTo (ha (l.head?.or none)) hl
    have hmap : (notesFrom m current l).map (closedLine .start) = (notesUpTo m none current l).1 ++
        (pendingNote (notesUpTo m none current l).2).map (closedLine .start) := by
      rw [notesFrom, List.map_append, List.map_congr_left hclosed, List.map_id']
    rw [Text.lines_of_oneLine hl, closedLines, closedLines, Text.unlines, hmap]
    cases hend : m.after none l with
    | literal q =>
      rw [hend] at hamid
      rw [closedLine, hend, notesFrom, (notesUpTo_closing (hsettled hm) hend current).2,
        pendingNote_of_literal hamid, List.map_singleton, closedLine_pending (hlit hm) hl
          (ha _) hend]
      exact List.append_nil _
    | code b | line | lineSecond | block | blockSecond | blockLast | escaped q =>
      rw [hend] at hamid
      rw [closedLine, hend, pendingNote_closed hamid (fun q e => by cases e)]
      rfl
  | more l t hl ih =>
    obtain ⟨hamid, hclosed⟩ := amid_notesUpTo (ha (l.head?.or none)) hl
    have hcode : ∀ ahead, Amid (.code false) ahead [] := fun ahead => .inl ⟨rfl, rfl⟩
    rw [Text.lines_append_newline hl, closedLines, Text.unlines_cons (closedLines_ne_nil _ t),
      notesFrom_newline (hsettled hm), notesFrom_newline (hsettled hm), List.map_append,
      List.map_congr_left hclosed, List.map_id']
    cases hend : m.after none l with
    | literal q =>
      rw [hend] at hamid
      obtain ⟨hafter, hnotes⟩ := notesUpTo_closing (hsettled hm) hend current
      rw [closedLine, hend]
      simp only [hafter, hnotes, inBlock, Bool.false_eq_true, if_false, List.map_append]
      rw [pendingNote_of_literal hamid, List.map_singleton, closedLine_pending (hlit hm) hl
        (ha _) hend, List.append_assoc]
      exact congrArg _ (congrArg _ (ih (.inr rfl) hcode))
    | block =>
      rw [hend] at hamid
      rw [closedLine, hend]
      simp only [hend, inBlock, if_true]
      exact congrArg _ (ih (.inl rfl) (amid_newline hamid))
    | code b | line =>
      rw [hend] at hamid
      rw [closedLine, hend]
      simp only [hend, inBlock, Bool.false_eq_true, if_false, List.map_append]
      rw [pendingNote_closed hamid (fun q e => by cases e)]
      exact congrArg _ (congrArg _ (ih (.inr rfl) hcode))
    | lineSecond | blockSecond | blockLast | escaped q =>
      have := settled_after (hsettled hm) l
      rw [hend] at this
      cases this

/-- Closing literals appends to the literals that are open, and leaves the other notes alone. -/
theorem notes_closeLiterals (t : Text) :
    notes (closeLiterals t).text = (notes t).map (closedLine .start) := by
  rw [closeLiterals_text]
  exact notes_closedLines (.inr rfl) (fun ahead => .inl ⟨rfl, rfl⟩) t

theorem after_closedLine {m : Mode} (hm : m.settled = true) (l : Text) :
    (m.after none (closedLine m l)).entry = (m.after none l).entry ∧
      ∀ number atEnd, openAt (m.after none (closedLine m l)) number atEnd = [] := by
  cases h : m.after none l with
  | literal q =>
    rw [closedLine, h]
    simp only [(notesUpTo_closing hm h []).1]
    exact ⟨rfl, fun _ _ => rfl⟩
  | code b | line | lineSecond | block | blockSecond | blockLast | escaped q =>
    have e : closedLine m l = l := by rw [closedLine, h]
    rw [e, h]
    exact ⟨rfl, fun _ _ => rfl⟩

theorem oneLine_closedLine {l : Text} (hl : Text.OneLine l) (m : Mode) :
    Text.OneLine (closedLine m l) := by
  have hclosing (q : Quote) : Text.OneLine (closingOf q l) := by
    rw [closingOf]
    split <;> cases q <;> decide
  cases h : m.after none l with
  | literal q =>
    rw [closedLine, h]
    exact fun k => (List.mem_append.mp k).elim hl (hclosing q)
  | code b | line | lineSecond | block | blockSecond | blockLast | escaped q =>
    rw [closedLine, h]
    exact hl

theorem unclosedFrom_closedLines {m : Mode} (hm : m.settled = true) (n : Nat) (t : Text) :
    unclosedFrom m n (Text.unlines (closedLines m (Text.lines t))) = [] := by
  induction t using Text.lines_induction generalizing m n with
  | last l hl =>
    rw [Text.lines_of_oneLine hl, closedLines, closedLines, Text.unlines,
      unclosedFrom_last (oneLine_closedLine hl m), (after_closedLine hm l).2]
  | more l t hl ih =>
    rw [Text.lines_append_newline hl, closedLines, Text.unlines_cons (closedLines_ne_nil _ t),
      unclosedFrom_more hm (oneLine_closedLine hl m), (after_closedLine hm l).1,
      (after_closedLine hm l).2, List.nil_append, ih (settled_entry _)]

theorem unclosedLiterals_closeLiterals (t : Text) :
    unclosedLiterals (closeLiterals t).text = [] := by
  rw [closeLiterals_text]
  exact unclosedFrom_closedLines rfl 1 t

end PineTools.Repair
