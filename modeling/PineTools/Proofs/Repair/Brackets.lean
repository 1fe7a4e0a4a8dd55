import PineTools.Proofs.Repair.Closing
import PineTools.Proofs.Scan.Stretches

/-! Closing brackets. The place right behind the last character of code lies in code once no literal
is open, so the closers are read as code and nothing else is read in another way. -/
namespace PineTools.Repair

open Mode

theorem unclosedFrom_append_eq_nil {m : Mode} {n : Nat} {a b : Text}
    (h : unclosedFrom m n (a ++ b) = []) :
    ∃ n', unclosedFrom (m.after b.head? a) n' b = [] := by
  rw [unclosedFrom_append, List.append_eq_nil_iff] at h
  exact ⟨_, h.2⟩

theorem unclosedFrom_of_white {q : Quote} {m : Mode} {t : Text}
    (hm : m = .literal q ∨ m = .escaped q ∧ t ≠ [])
    (h : ∀ c ∈ cellsFrom m t, (c.region.isComment || Text.isSpace c.char) = true) (n : Nat) :
    unclosedFrom m n t ≠ [] := by
  induction t generalizing m n with
  | nil =>
    rcases hm with rfl | ⟨-, hne⟩
    · exact List.cons_ne_nil _ _
    · exact absurd rfl hne
  | cons c cs ih =>
    rw [cellsFrom, List.forall_mem_cons] at h
    obtain ⟨hc, hcs⟩ := h
    rcases hm with rfl | ⟨rfl, -⟩
    · rw [step] at hc hcs
      obtain ⟨rfl, -⟩ | ⟨hq, e⟩ | ⟨hb, -, e⟩ | ⟨hn, -, -, e⟩ := stepLiteral_cases q c cs.head?
      · exact List.cons_ne_nil _ _
      · rw [e, hq] at hc
        exact absurd hc (by cases q <;> decide)
      · rw [e, hb] at hc
        exact absurd hc (by simp only [Region.isComment, Bool.false_or]; decide)
      · rw [e] at hcs
        rw [unclosedFrom_cons _ _ hn, step, e]
        exact ih (.inl rfl) hcs n
    · intro hnil
      rw [unclosedFrom_step, List.append_eq_nil_iff] at hnil
      exact ih (.inl rfl) hcs _ hnil.2

theorem bracketsFrom_white {cs : List Cell}
    (h : ∀ c ∈ cs, (c.region.isComment || Text.isSpace c.char) = true) (stack : List OpenBracket)
    (number : Nat) : bracketsFrom stack number cs = ⟨[], stack.reverse⟩ := by
  induction cs generalizing number with
  | nil => rfl
  | cons c cs ih =>
    obtain ⟨hc, hcs⟩ := List.forall_mem_cons.mp h
    have hstep : bracketStep stack number c = ([], stack) := by
      rw [bracketStep]
      split
      case isTrue hcode =>
        have hcomment : c.region.isComment = false := by
          rw [beq_iff_eq.mp hcode]
          rfl
        rw [hcomment, Bool.false_or] at hc
        rw [Bracket.ofOpener?_white hc, Bracket.ofCloser?_white hc]
      case isFalse => rfl
    rw [bracketsFrom_cons, hstep, ih hcs, BracketReport.behind_nil]

/-- No literal goes on where white space would leave it open. -/
theorem not_inLiteral_of_white {m : Mode} {c : Char} {rest : Text}
    (hwhite : ∀ y ∈ cellsFrom (m.step c rest.head?).2 rest,
      (y.region.isComment || Text.isSpace y.char) = true)
    (hclosed : ∃ n, unclosedFrom (m.step c rest.head?).2 n rest = []) :
    (m.step c rest.head?).2.inLiteral = false := by
  obtain ⟨n, hclosed⟩ := hclosed
  cases hm : (m.step c rest.head?).2 with
  | literal q =>
    rw [hm] at hwhite hclosed
    exact absurd hclosed (unclosedFrom_of_white (.inl rfl) hwhite n)
  | escaped q =>
    have hne : rest ≠ [] := by
      rintro rfl
      have hsettled := step_none_settled m c
      rw [List.head?_nil] at hm
      rw [hm] at hsettled
      cases hsettled
    rw [hm] at hwhite hclosed
    exact absurd hclosed (unclosedFrom_of_white (.inr ⟨rfl, hne⟩) hwhite n)
  | code b | line | lineSecond | block | blockSecond | blockLast => rfl

theorem bare_of_white {b : Bool} {t : Text}
    (hwhite : ∀ y ∈ cellsFrom (.code b) t, (y.region.isComment || Text.isSpace y.char) = true) :
    Bare (.code b) t.head? := by
  cases b with
  | false => exact .inl rfl
  | true =>
    refine .inr ⟨rfl, fun q e => ?_⟩
    cases t with
    | nil => cases e
    | cons d ds =>
      obtain rfl : d = q.char := Option.some.inj e
      rw [cellsFrom, List.forall_mem_cons] at hwhite
      have hfirst := hwhite.1
      have hstep : ((code true).step q.char ds.head?).1 = ⟨q.char, .code, false⟩ := by
        cases q <;> rfl
      rw [hstep] at hfirst
      exact Bool.false_ne_true (q.char_not_white.symm.trans hfirst)

/-- A script with open brackets has a last character that is neither white space nor in a comment,
and the brackets are closed behind it. -/
theorem exists_endOfCode {t : Text} (hb : (matchBrackets t).unclosed ≠ []) :
    ∃ init x white, cells t = init ++ [x] ++ white ∧ endOfCode t = (init ++ [x]).length ∧
      (x.region.isComment || Text.isSpace x.char) = false ∧ ∀ y ∈ white,
        (y.region.isComment || Text.isSpace y.char) = true := by
  obtain ⟨white, hcells, hwhite⟩ :=
    Text.trimRight_append_white (fun c : Cell => c.region.isComment || Text.isSpace c.char)
      (cells t)
  have hlast :=
    @Text.trimRight_getLast? _ (fun c : Cell => c.region.isComment || Text.isSpace c.char) (cells t)
  rw [endOfCode]
  generalize Text.trimRight (fun c : Cell => c.region.isComment || Text.isSpace c.char) (cells t) =
    kept at hcells hlast
  rcases List.eq_nil_or_concat kept with rfl | ⟨init, x, rfl⟩
  · rw [List.nil_append] at hcells
    rw [matchBrackets, hcells, bracketsFrom_white hwhite] at hb
    exact absurd rfl hb
  · rw [List.concat_eq_append] at *
    have hempty : ¬ (init ++ [x]).isEmpty = true := by simp
    exact ⟨init, x, white, hcells, if_neg hempty, hlast List.getLast?_concat, hwhite⟩

/-- Behind the last character of code the scanner stands in code, and what follows opens no literal.
-/
theorem bare_endOfCode {t : Text} (h : unclosedLiterals t = [])
    (hb : (matchBrackets t).unclosed ≠ []) :
    endOfCode t ≤ t.length ∧ Bare (modeAt t (endOfCode t)) (t.drop (endOfCode t)).head? := by
  obtain ⟨init, x, white, hcells, hend, hx, hwhite⟩ := exists_endOfCode hb
  have hlen : init.length + 1 + white.length = t.length := by
    rw [← cellsFrom_length .start t, ← cells, hcells, List.length_append, List.length_append,
      List.length_singleton]
  rw [hend, List.length_append, List.length_singleton]
  refine ⟨by omega, ?_⟩
  obtain ⟨behind, hdrop, hstep⟩ := @read_cell t init white x (hcells.trans (List.append_assoc ..))
  have hrest : t.drop (init.length + 1) = behind := by
    rw [← List.drop_drop, hdrop]
    rfl
  have hbehind : cellsFrom (modeAt t (init.length + 1)) behind = white := by
    have hread := cells_at hcells
    rwa [List.length_append, List.length_singleton, hrest] at hread
  have hmode : ((modeAt t init.length).step x.char behind.head?).2 = modeAt t (init.length + 1) :=
    congrArg Prod.snd hstep
  have hcode : ∃ b, modeAt t (init.length + 1) = .code b := by
    rw [← hmode]
    apply inCode_of_not
    · refine Bool.eq_false_iff.mpr fun hm => ?_
      have hcomment := ((modeAt t init.length).region_of_next x.char behind.head?).1 hm
      rw [hstep, (Bool.or_eq_false_iff.mp hx).1] at hcomment
      cases hcomment
    · refine not_inLiteral_of_white (by rw [hmode, hbehind]; exact hwhite) ?_
      rw [hmode, ← hrest, modeAt]
      exact unclosedFrom_append_eq_nil (by rw [List.take_append_drop]; exact h)
  obtain ⟨b, hcode⟩ := hcode
  rw [hcode] at hbehind ⊢
  rw [hrest]
  exact bare_of_white (hbehind ▸ hwhite)

theorem tame_closer (k : Bracket) : Tame k.closer ∧ k.closer ≠ '*' := by
  cases k <;> exact ⟨⟨by decide, by decide, by decide⟩, by decide⟩

/-- Closing brackets inserts closers and replaces nothing. -/
theorem closeBrackets_revises {t : Text} (h : unclosedLiterals t = []) :
    ∃ swaps, Revises .start t (closeBrackets t).text swaps ∧ ∀ s ∈ swaps, s.old = [] ∧ ∀ c ∈ s.new,
      Tame c := by
  rw [closeBrackets]
  cases hb : (matchBrackets t).unclosed with
  | nil => exact ⟨[], Revises.refl _ t, List.forall_mem_nil _⟩
  | cons o os =>
    have hne : (o :: os).reverse.map (fun o => o.kind.closer) ≠ [] := by simp
    have htame : ∀ c ∈ (o :: os).reverse.map (fun o => o.kind.closer), Tame c ∧ c ≠ '*' := by
      intro c hc
      obtain ⟨o, -, rfl⟩ := List.mem_map.mp hc
      exact tame_closer o.kind
    obtain ⟨hlen, hbare⟩ := bare_endOfCode h (by rw [hb]; exact List.cons_ne_nil o os)
    dsimp only
    generalize (o :: os).reverse.map (fun o => o.kind.closer) = closers at hne htame
    have hsound : Edit.Sound t ⟨endOfCode t, endOfCode t, closers⟩ := by
      apply Edit.sound_of_tame hne (fun c hc => (htame c hc).1) _ hbare (.inl hbare)
      exact fun e => (htame '*' (List.mem_of_head? e)).2 rfl
    have hrev := @Edit.revises_splice t 0 [⟨endOfCode t, endOfCode t, closers⟩]
      ⟨Nat.zero_le _, Nat.le_refl _, hlen, trivial⟩
      fun e he => List.mem_singleton.mp he ▸ hsound
    refine ⟨_, hrev, fun s hs => ?_⟩
    rw [List.map_singleton, List.mem_singleton] at hs
    subst hs
    refine ⟨?_, fun c hc => (htame c hc).1⟩
    rw [Edit.swap, Text.slice, List.drop_eq_nil_iff, List.length_take]
    exact Nat.min_le_left ..

theorem notes_closeBrackets {t : Text} (h : unclosedLiterals t = []) :
    notes (closeBrackets t).text = notes t := by
  obtain ⟨swaps, hrev, hs⟩ := closeBrackets_revises h
  refine hrev.notesFrom_eq (fun s hm => ?_) atNote_start
  rw [(hs s hm).1, notes_tame (hs s hm).2]
  rfl

end PineTools.Repair
