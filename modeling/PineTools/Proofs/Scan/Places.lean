import PineTools.Proofs.Scan.Stretches
import PineTools.Proofs.Scan.Substance

/-! Places among the cells of a text. What the cells show around a place tells where the scanner
stood there: a name behind blanks and a name that is called lie in code, and where the scanner
stands in code a word can be written without a change to anything else. -/
namespace PineTools

open Mode

def codeCell (c : Char) : Cell := ⟨c, .code, false⟩

@[simp] theorem codeCell_masked (c : Char) : (codeCell c).masked = c := Cell.masked_of_code rfl

@[simp] theorem seenText_codeCells (w : Text) : seenText (w.map codeCell) = w := by
  rw [seenText, List.map_map]
  exact (List.map_congr_left fun c _ => codeCell_masked c).trans (List.map_id w)

@[simp] theorem writtenText_codeCells (w : Text) : writtenText (w.map codeCell) = w := by
  rw [writtenText, List.map_map]
  exact List.map_id w

theorem writtenText_append (a b : List Cell) :
    writtenText (a ++ b) = writtenText a ++ writtenText b := List.map_append

theorem writtenText_cellsFrom (m : Mode) (t : Text) :
    writtenText (cellsFrom m t) = t := cellsFrom_chars m t

/-- The scanner goes on inside a literal before and behind a character of it that is no quote. -/
theorem step_inside {m : Mode} {c : Char} {ahead : Option Char}
    (h : (m.step c ahead).1.region.isLiteral = true) (hd : (m.step c ahead).1.delimiter = false) :
    m.inLiteral = true ∧ (m.step c ahead).2.inLiteral = true := by
  cases m with
  | code b =>
    rw [step] at h hd
    obtain ⟨-, -, e⟩ | ⟨-, -, e⟩ | ⟨q, -, -, e⟩ | ⟨-, -, e⟩ := stepCode_cases b c ahead
    · rw [e] at h; cases h
    · rw [e] at h; cases h
    · rw [e] at hd; cases hd
    · rw [e] at h; cases h
  | literal q =>
    rw [step] at h hd ⊢
    obtain ⟨-, e⟩ | ⟨-, e⟩ | ⟨-, -, e⟩ | ⟨-, -, -, e⟩ := stepLiteral_cases q c ahead
    · rw [e] at h; cases h
    · rw [e] at hd; cases hd
    · rw [e]; exact ⟨rfl, rfl⟩
    · rw [e]; exact ⟨rfl, rfl⟩
  | line =>
    rw [step] at h
    split at h <;> cases h
  | block =>
    rw [step] at h
    split at h <;> cases h
  | escaped q => exact ⟨rfl, rfl⟩
  | lineSecond | blockSecond | blockLast => cases h

section Place

variable {m : Mode} {t : Text} {a b : List Cell} {x : Cell}

theorem cellsFrom_at (h : cellsFrom m t = a ++ x :: b) :
    t = writtenText a ++ x.char :: writtenText b ∧ cellsUpTo m (some x.char) (writtenText a) = a ∧
      cellsFrom (m.after (some x.char) (writtenText a)) (x.char :: writtenText b) = x :: b := by
  have ht : t = writtenText a ++ x.char :: writtenText b := by
    rw [← cellsFrom_chars m t, h, List.map_append, List.map_cons]
    rfl
  have hlen : (cellsUpTo m (some x.char) (writtenText a)).length = a.length := by
    rw [← List.length_map Cell.char, cellsUpTo_chars]
    exact List.length_map _
  have hread : cellsFrom m (writtenText a ++ x.char :: writtenText b) = a ++ x :: b := by
    rw [← ht, h]
  rw [cellsFrom_append] at hread
  exact ⟨ht, List.append_inj hread hlen⟩

theorem step_at (h : cellsFrom m t = a ++ x :: b) :
    ((m.after (some x.char) (writtenText a)).step x.char (writtenText b).head?).1 = x ∧
      cellsFrom ((m.after (some x.char) (writtenText a)).step x.char (writtenText b).head?).2
        (writtenText b) = b :=
  List.cons.inj (cellsFrom_at h).2.2

theorem mode_at_code (h : cellsFrom m t = a ++ x :: b) (hn : x.char ≠ '\n')
    (hx : x.region = .code) :
    ∃ k, m.after (some x.char) (writtenText a) = .code k :=
  mode_of_code hn (by rw [(step_at h).1]; exact hx)

theorem eq_codeCell (h : x ∈ cellsFrom m t) (hx : x.region = .code) : x = codeCell x.char := by
  obtain ⟨a, b, e⟩ := List.append_of_mem h
  have hstep := (step_at e).1
  rw [step_eq_of_code (by rw [hstep]; exact hx)] at hstep
  exact hstep.symm

theorem inside_at (h : cellsFrom m t = a ++ x :: b) (hx : x.region.isLiteral = true)
    (hd : x.delimiter = false) :
    (∀ y, a.getLast? = some y → y.region.isLiteral = true) ∧ (a = [] → m.inLiteral = true) ∧
      ∀ y, b.head? = some y → y.char ≠ '\n' → y.region.isLiteral = true := by
  obtain ⟨hstep, hrest⟩ := step_at h
  obtain ⟨hbefore, hbehind⟩ := @step_inside (m.after (some x.char) (writtenText a)) x.char
    (writtenText b).head?
    (by rw [hstep]; exact hx) (by rw [hstep]; exact hd)
  refine ⟨fun y hy => ?_, ?_, fun y hy hn => ?_⟩
  · obtain ⟨init, rfl⟩ := List.getLast?_eq_some_iff.mp hy
    have hy : cellsFrom m t = init ++ y :: x :: b := by
      rw [h, List.append_assoc, List.singleton_append]
    have hwritten : writtenText (init ++ [y]) = writtenText init ++ [y.char] := List.map_append
    rw [hwritten, after_concat] at hbefore
    have hregion := (region_of_next _ y.char (some x.char)).2 hbefore
    have hstep' := (step_at hy).1
    change ((m.after (some y.char) (writtenText init)).step y.char (some x.char)).1 = y at hstep'
    rwa [hstep'] at hregion
  · rintro rfl
    exact hbefore
  · cases b with
    | nil => cases hy
    | cons z b =>
      cases hy
      have hregion := (region_of_mode _ hn (writtenText b).head?).2 hbehind
      have hz := (List.cons.inj hrest).1
      change ((((m.after (some x.char) (writtenText a)).step x.char (some y.char)).2).step y.char
        (writtenText b).head?).1 = y at hz
      change (((((m.after (some x.char) (writtenText a)).step x.char (some y.char)).2).step y.char
        (writtenText b).head?).1).region.isLiteral = true at hregion
      rwa [hz] at hregion

end Place

theorem not_quote_of_isWordOrDot {c : Char} (h : Text.isWordOrDot c = true) (q : Quote) :
    c ≠ q.char := by
  rintro rfl
  cases q <;> exact absurd h (by decide)

theorem isWordOrDot_of_isWord {c : Char} (h : Text.isWord c = true) :
    Text.isWordOrDot c = true := by
  rw [Text.isWordOrDot, h, Bool.true_or]

theorem not_blank_of_isWordOrDot {c : Char} (h : Text.isWordOrDot c = true) :
    Text.isBlank c = false ∧ c ≠ '\n' := by
  refine ⟨?_, ?_⟩
  · rw [Text.isBlank, Bool.or_eq_false_iff, beq_eq_false_iff_ne, beq_eq_false_iff_ne]
    refine ⟨?_, ?_⟩ <;> rintro rfl <;> exact absurd h (by decide)
  · rintro rfl
    exact absurd h (by decide)

/-- What shows a character of a name lies in code or inside a literal. -/
theorem code_or_inside {m : Mode} {t : Text} {c : Cell} (h : c ∈ cellsFrom m t)
    (hc : Text.isWordOrDot c.masked = true) :
    c.char ≠ '\n' ∧ (c.region = .code ∨ c.region.isLiteral = true ∧ c.delimiter = false) := by
  obtain ⟨hblank, hnl⟩ := not_blank_of_isWordOrDot hc
  obtain ⟨hn, hcomment⟩ := region_of_shown hblank hnl
  refine ⟨hn, ?_⟩
  cases hr : c.region with
  | code => exact .inl rfl
  | lineComment | blockComment =>
    rw [hr] at hcomment
    cases hcomment
  | literal q =>
    cases hd : c.delimiter with
    | false => exact .inr ⟨rfl, rfl⟩
    | true =>
      obtain ⟨q', e⟩ := delimiter_of_mem h hd
      have hmasked : c.masked = c.char := by
        rw [Cell.masked, if_neg hn, hr, hd]
        rfl
      rw [hmasked] at hc
      exact absurd e (not_quote_of_isWordOrDot hc q')

theorem code_behind_blank {inComment : Bool} {t : Text} {a b : List Cell} {x : Cell}
    (h : cellsFrom (.ofLine inComment) t = a ++ x :: b) (ha : ∀ y, a.getLast? = some y →
      Text.isBlank y.masked = true)
    (hx : Text.isWordOrDot x.masked = true) :
    x.region = .code ∧ x.char ≠ '\n' ∧ (Mode.ofLine inComment).after (some x.char)
    (writtenText a) = .code false := by
  have hmem : x ∈ cellsFrom (.ofLine inComment) t := by
    rw [h]
    exact List.mem_append_right a List.mem_cons_self
  have hlast {y : Cell} (hy : a.getLast? = some y) : y.region.isLiteral = false := by
    refine (region_of_blank (m := .ofLine inComment) (t := t) ?_ (ha y hy)).2
    rw [h]
    exact List.mem_append_left _ (List.mem_of_getLast? hy)
  obtain ⟨hn, hcode | ⟨hlit, hd⟩⟩ := code_or_inside hmem hx
  · refine ⟨hcode, hn, ?_⟩
    obtain ⟨k, hk⟩ := mode_at_code h hn hcode
    cases k with
    | false => exact hk
    | true =>
      rcases List.eq_nil_or_concat a with rfl | ⟨init, y, rfl⟩
      · cases inComment <;> cases hk
      · rw [List.concat_eq_append] at *
        have hy := ha y List.getLast?_concat
        rw [writtenText_append, writtenText, writtenText, List.map_singleton, ← writtenText,
          after_concat] at hk
        have hmasked := step_code_true hk
        have hsplit : cellsFrom (.ofLine inComment) t = init ++ y :: x :: b := by
          rw [h, List.append_assoc, List.singleton_append]
        have hstep := (step_at hsplit).1
        change (((Mode.ofLine inComment).after (some y.char) (writtenText init)).step y.char
          (some x.char)).1 = y at hstep
        rw [hstep] at hmasked
        rw [hmasked] at hy
        exact absurd hy (by decide)
  · -- A literal that goes on is preceded by another part of it.
    obtain ⟨hbefore, hstart, -⟩ := inside_at h hlit hd
    rcases List.eq_nil_or_concat a with rfl | ⟨init, y, rfl⟩
    · have := hstart rfl
      cases inComment <;> cases this
    · rw [List.concat_eq_append] at *
      have := hbefore y List.getLast?_concat
      rw [hlast List.getLast?_concat] at this
      cases this

theorem code_of_name {m : Mode} {t : Text} {a w b : List Cell} {y : Cell}
    (h : cellsFrom m t = a ++ (w ++ y :: b)) (hw : ∀ g ∈ w, Text.isWordOrDot g.masked = true)
    (hy : y.char ≠ '\n') (hlit : y.region.isLiteral = false) :
    ∀ g ∈ w, g.region = .code := by
  induction w generalizing a with
  | nil => exact List.forall_mem_nil _
  | cons x w ih =>
    obtain ⟨hx, hw⟩ := List.forall_mem_cons.mp hw
    have hrest : ∀ g ∈ w, g.region = .code := by
      refine ih (a := a ++ [x]) ?_ hw
      rw [h, List.append_assoc, List.singleton_append, List.cons_append]
    refine List.forall_mem_cons.mpr ⟨?_, hrest⟩
    have hmem {z : Cell} (hz : z ∈ x :: (w ++ y :: b)) : z ∈ cellsFrom m t := by
      rw [h]
      exact List.mem_append_right a hz
    obtain ⟨-, hcode | ⟨hinside, hd⟩⟩ := code_or_inside (hmem List.mem_cons_self) hx
    · exact hcode
    · -- Behind a hidden character the literal goes on.
      obtain ⟨-, -, hbehind⟩ := inside_at h hinside hd
      cases w with
      | nil =>
        rw [hbehind y rfl hy] at hlit
        cases hlit
      | cons z w =>
        have hz := (code_or_inside (hmem (List.mem_cons_of_mem x List.mem_cons_self))
          (hw z List.mem_cons_self)).1
        have := hbehind z rfl hz
        rw [hrest z List.mem_cons_self] at this
        cases this

/-- Words of code, up to the end of which the scanner remembers nothing. -/
theorem read_tame {w : Text} (hw : ∀ c ∈ w, Tame c) (hne : w ≠ []) (k : Bool) (r : Text) :
    cellsFrom (.code k) (w ++ r) = w.map codeCell ++ cellsFrom (.code false) r ∧
      ∀ ahead, (Mode.code k).after ahead (w ++ r) = (Mode.code false).after ahead r := by
  have hstep {c : Char} (hc : Tame c) (k : Bool) (ahead : Option Char) :
      (Mode.code k).step c ahead = (codeCell c, .code false) := by
    rw [(hc.bare k).step, step_tame hc]
    rfl
  induction w generalizing k with
  | nil => exact absurd rfl hne
  | cons c w ih =>
    obtain ⟨hc, hw⟩ := List.forall_mem_cons.mp hw
    rw [List.cons_append, cellsFrom, hstep hc, List.map_cons, List.cons_append]
    cases w with
    | nil =>
      refine ⟨rfl, fun ahead => ?_⟩
      rw [List.nil_append, Mode.after, hstep hc]
    | cons d w =>
      obtain ⟨hcells, hafter⟩ := ih hw (List.cons_ne_nil d w) false
      refine ⟨congrArg _ hcells, fun ahead => ?_⟩
      rw [Mode.after, hstep hc]
      exact hafter ahead

theorem mask_tame_append {w : Text} (hw : ∀ c ∈ w, Tame c) (rest : Text) :
    mask (w ++ rest) = w ++ mask rest := by
  by_cases hne : w = []
  · rw [hne]
    rfl
  · have hseen : (w.map codeCell).map Cell.masked = w := seenText_codeCells w
    rw [mask, cells, Mode.start, (read_tame hw hne false rest).1, List.map_append, hseen]
    rfl

theorem mask_tame {w : Text} (hw : ∀ c ∈ w, Tame c) : mask w = w := by
  have hself := mask_tame_append hw []
  rw [List.append_nil] at hself
  rw [hself]
  exact List.append_nil w

theorem cellsFrom_word {m : Mode} {t : Text} {a b : List Cell} {x : Cell}
    (h : cellsFrom m t = a ++ x :: b) (hn : x.char ≠ '\n') (hx : x.region = .code) {w : Text}
    (hw : ∀ c ∈ w, Tame c) (hne : w ≠ []) (hstar : w.head? ≠ some '*') (r : Text) :
    cellsFrom m (writtenText a ++ (w ++ r)) = a ++ (w.map codeCell ++ cellsFrom (.code false) r) ∧
      m.after none (writtenText a ++ (w ++ r)) = (Mode.code false).after none r := by
  obtain ⟨k, hk⟩ := mode_at_code h hn hx
  obtain ⟨-, ha, -⟩ := cellsFrom_at h
  have hquiet : ∀ c, (w ++ r).head? = some c → Quiet c := by
    intro c hc
    cases w with
    | nil => exact absurd rfl hne
    | cons d w =>
      cases hc
      exact ⟨(hw c List.mem_cons_self).1, fun e => hstar (congrArg some e)⟩
  obtain ⟨hcells, hmode⟩ := readsAlike_of_code hk (.inr hquiet)
  rw [ha] at hcells
  rw [hk] at hmode
  obtain ⟨htame, hafter⟩ := read_tame hw hne k r
  refine ⟨?_, ?_⟩
  · rw [cellsFrom_append, ← hcells, ← hmode, htame]
  · rw [after_append, Option.or_none, ← hmode, hafter]

end PineTools
